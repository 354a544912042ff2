import GuardRails.Ledger.Basic

/-!
# The memory of one block

What the bytes of a labelled block hold: slot, bin and magic in the header, and
behind it what the latest owner left. A block keeps this under every write that
leaves its bytes outside the two list links alone.
-/

namespace GuardRails

open ByteMemory

def fld (m : Mem) (h : ℕ) (f : Field) : ℕ := word m (h + f.off)

/-- The trace that `putTrace` leaves in an array of `maxFrames` words. -/
def traceOf (bt : List ℕ) (maxFrames : ℕ) : List ℕ :=
  (List.range maxFrames).map fun j => bt.getD j 0 % 2 ^ 64

/-- What an owner leaves in its block. -/
structure OwnerOk (args : GRArgs) (m : Mem) (h : ℕ) (B : Block) (a : Alloc) : Prop where
  above : h + elmHdrSz args + 8 ≤ a.ptr
  fits : a.ptr + a.size + a.misalignment = h + B.size
  usrData : fld m h .usrData = a.ptr
  usrDataSize : fld m h .usrDataSize = a.size
  misalignment : fld m h .misalignment = a.misalignment
  frames : ∀ j < args.maxTrackFrames, word m (h + 64 + 8 * j) = a.bt.getD j 0 % 2 ^ 64
  ptrWord : word m (a.ptr - 8) = h
  slop : B.live = true → B.intact = true → ∀ i < min a.misalignment 32,
    m (a.ptr + a.size + i) = magicSlop

structure HeaderOk (args : GRArgs) (m : Mem) (h : ℕ) (B : Block) : Prop where
  slotNum : fld m h .slotNum = B.slot
  binNum : fld m h .binNum = B.bin
  magic : fld m h .magic = if B.live then magicInuse else magicFree
  slot_lt : B.slot < args.numSlots
  fresh : B.owner = none → fld m h .usrDataSize = 0 ∧
    ∀ j < args.maxTrackFrames, 64 + 8 * j + 8 ≤ B.size → word m (h + 64 + 8 * j) = 0
  owner : ∀ a, B.owner = some a → OwnerOk args m h B a

variable {args : GRArgs} {m m' : Mem} {h x : ℕ} {B : Block}

theorem fld_congr {f : Field} (hm : ∀ y, h + f.off ≤ y → y < h + f.off + 8 → m' y = m y) :
    fld m' h f = fld m h f :=
  word_congr hm

theorem fld_lt {f : Field} : fld m h f < 2 ^ 64 := word_lt

/-- A store to a field of one header shows in this field only. -/
theorem fld_setWord_apart (hap : x ≠ h → x + 64 ≤ h ∨ h + 64 ≤ x) {f g : Field} {v : ℕ} :
    fld (setWord m (h + f.off) v) x g = if x = h ∧ g = f then v % 2 ^ 64 else fld m x g := by
  have hf := f.off_le
  have hg := g.off_le
  split
  · rename_i heq
    obtain ⟨rfl, rfl⟩ := heq
    exact word_setWord
  · rename_i hne
    refine word_setWord_of_disjoint ?_
    by_cases hxh : x = h
    · subst x
      have := Field.off_apart fun hgf => hne ⟨rfl, hgf⟩
      omega
    · have := hap hxh
      omega

/-- Headers lie on page boundaries. -/
theorem fld_setWord (hh : h % 4096 = 0) (hx : x % 4096 = 0) {f g : Field} {v : ℕ} :
    fld (setWord m (h + f.off) v) x g = if x = h ∧ g = f then v % 2 ^ 64 else fld m x g :=
  fld_setWord_apart fun _ => by omega

/-- A block keeps its contents when only its links and the trace of its last release
change. -/
theorem HeaderOk.congr_trace (hH : HeaderOk args m h B) (ha : args.Ok) (hB : 4096 ≤ B.size)
    (hm : ∀ y, h ≤ y → y < h + B.size → (y < h + 48 ∨
      h + 64 ≤ y ∧ (y < h + 64 + 8 * args.maxTrackFrames ∨ h + elmHdrSz args ≤ y)) → m' y = m y) :
    HeaderOk args m' h B := by
  have hsz := elmHdrSz_eq ha
  have hf : ∀ f : Field, f.off + 8 ≤ 48 → fld m' h f = fld m h f := by
    intro f hf
    exact fld_congr fun y hy hy' => hm y (by omega) (by omega) (.inl (by omega))
  have hframe : ∀ j < args.maxTrackFrames, h + 64 + 8 * j + 8 ≤ h + B.size →
      word m' (h + 64 + 8 * j) = word m (h + 64 + 8 * j) := by
    intro j hj hle
    exact word_congr fun z hz hz' => hm z (by omega) (by omega) (.inr ⟨by omega, .inl (by omega)⟩)
  refine
    { slotNum := (hf _ (by decide)).trans hH.slotNum
      binNum := (hf _ (by decide)).trans hH.binNum
      magic := (hf _ (by decide)).trans hH.magic
      slot_lt := hH.slot_lt
      fresh := fun ho => ?_
      owner := fun a ho => ?_ }
  · obtain ⟨h0, hfr⟩ := hH.fresh ho
    refine ⟨(hf _ (by decide)).trans h0, fun j hj hle => ?_⟩
    rw [hframe j hj (by omega), hfr j hj hle]
  · have hO := hH.owner a ho
    have habove := hO.above
    have hfits := hO.fits
    refine
      { hO with
        usrData := (hf _ (by decide)).trans hO.usrData
        usrDataSize := (hf _ (by decide)).trans hO.usrDataSize
        misalignment := (hf _ (by decide)).trans hO.misalignment
        frames := fun j hj => ?_
        ptrWord := ?_
        slop := fun hl ht i hi => ?_ }
    · rw [hframe j hj (by omega), hO.frames j hj]
    · rw [← hO.ptrWord]
      exact word_congr fun z hz hz' =>
        hm z (by omega) (by omega) (.inr ⟨by omega, .inr (by omega)⟩)
    · rw [hm _ (by omega) (by omega) (.inr ⟨by omega, .inr (by omega)⟩), hO.slop hl ht i hi]

/-- A block keeps its contents when only its links change. -/
theorem HeaderOk.congr (hH : HeaderOk args m h B) (ha : args.Ok) (hB : 4096 ≤ B.size)
    (hm : ∀ y, h ≤ y → y < h + B.size → (y < h + 48 ∨ h + 64 ≤ y) → m' y = m y) :
    HeaderOk args m' h B :=
  hH.congr_trace ha hB fun y hy hy' hl => hm y hy hy' (hl.imp_right And.left)

/-- A block keeps its contents when only its user data changes. -/
theorem HeaderOk.congr_user {a : Alloc} (hH : HeaderOk args m h B) (ha : args.Ok)
    (ho : B.owner = some a)
    (hm : ∀ y, h ≤ y → y < h + B.size → (y < a.ptr ∨ a.ptr + a.size ≤ y) → m' y = m y) :
    HeaderOk args m' h B := by
  have hsz := elmHdrSz_eq ha
  have hO := hH.owner a ho
  have habove := hO.above
  have hfits := hO.fits
  have hw : ∀ y, h ≤ y → y + 8 ≤ a.ptr → word m' y = word m y := by
    intro y hy hy'
    exact word_congr fun z hz hz' => hm z (by omega) (by omega) (.inl (by omega))
  have hf : ∀ f : Field, fld m' h f = fld m h f := by
    intro f
    have := f.off_le
    exact hw _ (by omega) (by omega)
  refine
    { slotNum := (hf _).trans hH.slotNum
      binNum := (hf _).trans hH.binNum
      magic := (hf _).trans hH.magic
      slot_lt := hH.slot_lt
      fresh := by simp [ho]
      owner := fun b hb => ?_ }
  obtain rfl := Option.some.inj (ho.symm.trans hb)
  exact
    { above := habove
      fits := hfits
      usrData := (hf _).trans hO.usrData
      usrDataSize := (hf _).trans hO.usrDataSize
      misalignment := (hf _).trans hO.misalignment
      frames := fun j hj => (hw _ (by omega) (by omega)).trans (hO.frames j hj)
      ptrWord := (hw _ (by omega) (by omega)).trans hO.ptrWord
      slop := fun hl ht i hi =>
        (hm _ (by omega) (by omega) (.inr (by omega))).trans (hO.slop hl ht i hi) }

/-- A block that its owner has overrun keeps everything but its slop. -/
theorem HeaderOk.overrun {a : Alloc} (hH : HeaderOk args m h B) (ha : args.Ok)
    (ho : B.owner = some a) (hm : ∀ y, h ≤ y → y < a.ptr + a.size → m' y = m y) :
    HeaderOk args m' h { B with intact := false } := by
  have hsz := elmHdrSz_eq ha
  have hO := hH.owner a ho
  have habove := hO.above
  have hw : ∀ y, h ≤ y → y + 8 ≤ a.ptr → word m' y = word m y := by
    intro y hy hy'
    exact word_congr fun z hz hz' => hm z (by omega) (by omega)
  have hf : ∀ f : Field, fld m' h f = fld m h f := by
    intro f
    have := f.off_le
    exact hw _ (by omega) (by omega)
  refine
    { slotNum := (hf _).trans hH.slotNum
      binNum := (hf _).trans hH.binNum
      magic := (hf _).trans hH.magic
      slot_lt := hH.slot_lt
      fresh := by simp [ho]
      owner := fun b hb => ?_ }
  obtain rfl := Option.some.inj (ho.symm.trans hb)
  exact
    { above := habove
      fits := hO.fits
      usrData := (hf _).trans hO.usrData
      usrDataSize := (hf _).trans hO.usrDataSize
      misalignment := (hf _).trans hO.misalignment
      frames := fun j hj => (hw _ (by omega) (by omega)).trans (hO.frames j hj)
      ptrWord := (hw _ (by omega) (by omega)).trans hO.ptrWord
      slop := nofun }

end GuardRails
