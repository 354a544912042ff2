import GuardRails.Spec.Buf
import Mathlib.Data.List.GetD

/-!
# `fillBlock`

The bytes that `memalignInt` writes into the block it got: the trace and four fields of
the header, the slop behind the user data, the word in front of it and the poison. When
the request has not wrapped they are all inside the block, and apart from the links the
block is as its new owner should find it. A request that has wrapped does not get through.
-/

namespace GuardRails

open ByteMemory StateHoare

variable {env : Env} {off : Off} {L : Ledger} {s s' s₀ : Heap} {X : Set ℕ} {F G : Prop}
  {h p size mis a mf x : ℕ} {B : Block} {ctx : Ctx} {m : Mem} {bt : List ℕ} {args : GRArgs}
  {E : Halt → Heap → Prop}

/-! ## Traces -/

def traceMem (m : Mem) (a : ℕ) (bt : List ℕ) (maxFrames : ℕ) : Mem :=
  setWords (update m a (8 * maxFrames) fun _ => 0) a (bt.take maxFrames)

theorem traceMem_of_notMem (h : x < a ∨ a + 8 * mf ≤ x) : traceMem m a bt mf x = m x := by
  have hlen : (bt.take mf).length ≤ mf := List.length_take_le mf bt
  rw [traceMem, setWords_of_notMem (by omega), update_of_notMem h]

theorem word_traceMem {j : ℕ} (hj : j < mf) :
    word (traceMem m a bt mf) (a + 8 * j) = bt.getD j 0 % 2 ^ 64 := by
  unfold traceMem
  by_cases hjl : j < bt.length
  · have hlt : j < (bt.take mf).length := by
      rw [List.length_take]
      omega
    rw [word_setWords hlt, List.getElem_take, List.getD_eq_getElem _ _ hjl]
  · have hlen : (bt.take mf).length ≤ j := by
      rw [List.length_take]
      omega
    rw [word_setWords_of_disjoint (.inr (by omega)), List.getD_eq_default _ _ (not_lt.1 hjl)]
    exact word_eq_zero fun y hy hy' => update_of_mem (f := fun _ => 0) (by omega) (by omega)

theorem traceMem_zero : traceMem m a bt 0 = m := by
  rw [traceMem, List.take_zero, setWords, Nat.mul_zero, update_zero]

theorem wp_putTrace {site : Site} {Q : Unit → Heap → Prop} (hmf : mf < 2 ^ 31)
    (hq : Accessible s.pages a (8 * mf) → Q () { s with mem := traceMem s.mem a bt mf })
    (he : ¬ Accessible s.pages a (8 * mf) → E (.fault a) s) :
    wp (putTrace bt site a mf) Q E s := by
  have hlen : (bt.take mf).length ≤ mf := List.length_take_le mf bt
  unfold putTrace
  rw [Nat.mod_eq_of_lt (by omega)]
  refine wp_bind (wp_memset (fun hacc => ?_) he)
  unfold getBacktrace
  refine wp_bind (wp_bind (wp_storeWords (hacc.mono le_rfl (by omega)) (wp_pure ?_)))
  exact wp_grAssert_of (by omega) (hq hacc)

/-! ## The bytes that are written -/

def fillMem (args : GRArgs) (m : Mem) (h p size mis : ℕ) (bt : List ℕ) : Mem :=
  let m := traceMem m (h + allocBtOff) bt args.maxTrackFrames
  let m := setWord m (h + Field.magic.off) magicInuse
  let m := setWord m (h + Field.usrDataSize.off) size
  let m := update m (p + size) (min mis maxSlop) fun _ => magicSlop
  let m := setWord m (p - 8) h
  let m := setWord m (h + Field.usrData.off) p
  let m := setWord m (h + Field.misalignment.off) mis
  update m p (if args.poison then size else 0) fun _ => args.poisonVal

/-- The user data lies between the header and the end of a block. -/
structure Fit (args : GRArgs) (h p size mis n : ℕ) : Prop where
  aligned : h % 4096 = 0
  hdr : 64 + 8 * args.maxTrackFrames ≤ elmHdrSz args
  above : h + elmHdrSz args + 8 ≤ p
  fits : p + size + mis = h + n
  bound : h + n < 2 ^ 64

/-- The user data and the header pointer lie between the fields of the header and the end of a
block, which holds the trace of the allocation. -/
structure Room (args : GRArgs) (h p size mis n : ℕ) : Prop where
  aligned : h % 4096 = 0
  trace : 64 + 8 * args.maxTrackFrames ≤ n
  above : h + 72 ≤ p
  fits : p + size + mis = h + n
  bound : h + n < 2 ^ 64

variable {n : ℕ}

theorem Fit.room (hf : Fit args h p size mis n) : Room args h p size mis n := by
  obtain ⟨hal, hhdr, habove, hfits, hbound⟩ := hf
  exact ⟨hal, by omega, by omega, hfits, hbound⟩

theorem fillMem_of_notMem (hf : Fit args h p size mis n)
    (hx : x < h ∨ h + n ≤ x ∨ h + 48 ≤ x ∧ x < h + 64) : fillMem args m h p size mis bt x = m x := by
  obtain ⟨-, hhdr, habove, hfits, -⟩ := hf
  have hp : (if args.poison then size else 0) ≤ size := by split <;> omega
  unfold fillMem
  simp only [Field.off, allocBtOff]
  rw [update_of_notMem (by omega), setWord_of_notMem (by omega), setWord_of_notMem (by omega),
    setWord_of_notMem (by omega), update_of_notMem (by omega), setWord_of_notMem (by omega),
    setWord_of_notMem (by omega), traceMem_of_notMem (by omega)]

theorem fld_fillMem (hf : Room args h p size mis n) (f : Field) :
    fld (fillMem args m h p size mis bt) h f =
      if f = .misalignment then mis else if f = .usrData then p else
        if f = .usrDataSize then size else if f = .magic then magicInuse else fld m h f := by
  obtain ⟨hal, -, habove, hfits, hbound⟩ := hf
  have hoff := f.off_le
  have hbt : allocBtOff = 64 := rfl
  have htrace : fld (traceMem m (h + allocBtOff) bt args.maxTrackFrames) h f = fld m h f :=
    fld_congr fun y hy hy' => traceMem_of_notMem (by omega)
  unfold fillMem
  extract_lets m₁ m₂ m₃ m₄ m₅ m₆ m₇
  have h₃ : fld m₃ h f =
      if f = .usrDataSize then size else if f = .magic then magicInuse else fld m h f := by
    rw [fld_setWord hal hal, fld_setWord hal hal, htrace, Nat.mod_eq_of_lt (by omega : size < 2 ^ 64),
      Nat.mod_eq_of_lt (by decide : magicInuse < 2 ^ 64)]
    simp
  have h₅ : fld m₅ h f = fld m₃ h f := by
    refine fld_congr fun y hy hy' => ?_
    change setWord m₄ (p - 8) h y = _
    rw [setWord_of_notMem (by omega)]
    exact update_of_notMem (by omega)
  have h₇ : fld m₇ h f = if f = .misalignment then mis else if f = .usrData then p else fld m₅ h f := by
    rw [fld_setWord hal hal, fld_setWord hal hal, Nat.mod_eq_of_lt (by omega : mis < 2 ^ 64),
      Nat.mod_eq_of_lt (by omega : p < 2 ^ 64)]
    simp
  rw [← h₃, ← h₅, ← h₇]
  exact fld_congr fun y hy hy' => update_of_notMem (by omega)

theorem word_fillMem_trace (hf : Fit args h p size mis n) {j : ℕ} (hj : j < args.maxTrackFrames) :
    word (fillMem args m h p size mis bt) (h + 64 + 8 * j) = bt.getD j 0 % 2 ^ 64 := by
  obtain ⟨hal, hhdr, habove, hfits, hbound⟩ := hf
  rw [← word_traceMem (m := m) (a := h + 64) hj]
  refine word_congr fun y hy hy' => ?_
  unfold fillMem
  simp only [Field.off, allocBtOff]
  rw [update_of_notMem (by omega), setWord_of_notMem (by omega), setWord_of_notMem (by omega),
    setWord_of_notMem (by omega), update_of_notMem (by omega), setWord_of_notMem (by omega),
    setWord_of_notMem (by omega)]

theorem word_fillMem_ptr (hf : Room args h p size mis n) :
    word (fillMem args m h p size mis bt) (p - 8) = h := by
  obtain ⟨hal, -, habove, hfits, hbound⟩ := hf
  unfold fillMem
  simp only [Field.off, allocBtOff]
  rw [word_update_of_disjoint (by omega), word_setWord_of_disjoint (by omega),
    word_setWord_of_disjoint (by omega), word_setWord_of_lt (by omega)]

theorem fillMem_slop (hf : Fit args h p size mis n) {i : ℕ} (hi : i < min mis maxSlop) :
    fillMem args m h p size mis bt (p + size + i) = magicSlop := by
  obtain ⟨hal, hhdr, habove, hfits, hbound⟩ := hf
  have hp : (if args.poison then size else 0) ≤ size := by split <;> omega
  unfold fillMem
  simp only [Field.off, allocBtOff]
  rw [update_of_notMem (by omega), setWord_of_notMem (by omega), setWord_of_notMem (by omega),
    setWord_of_notMem (by omega), update_of_mem (by omega) (by omega)]

theorem fillMem_poison (hpoison : args.poison = true) {i : ℕ} (hi : i < size) :
    fillMem args m h p size mis bt (p + i) = args.poisonVal := by
  unfold fillMem
  simp only [hpoison, if_true]
  exact update_of_mem (f := fun _ => args.poisonVal) (by omega) (by omega)

/-- The block is as its owner should find it. -/
theorem headerOk_fillMem (hf : Fit args h p size mis n) (hB : HeaderOk args m h B)
    (hn : B.size = n) :
    HeaderOk args (fillMem args m h p size mis bt) h
      { B with owner := some ⟨h, p, size, mis, bt⟩, live := true, intact := true } where
  slotNum := by simpa [fld_fillMem hf.room] using hB.slotNum
  binNum := by simpa [fld_fillMem hf.room] using hB.binNum
  magic := by simp [fld_fillMem hf.room]
  slot_lt := hB.slot_lt
  fresh := by simp
  owner a ha := by
    obtain rfl := Option.some.inj ha
    exact
      { above := hf.above
        fits := hf.fits.trans (congrArg _ hn.symm)
        usrData := by simp [fld_fillMem hf.room]
        usrDataSize := by simp [fld_fillMem hf.room]
        misalignment := by simp [fld_fillMem hf.room]
        frames := fun j hj => word_fillMem_trace hf hj
        ptrWord := word_fillMem_ptr hf.room
        slop := fun _ _ i hi => fillMem_slop hf hi }

/-! ## The two cases -/

theorem wp_fillBlock {alignment : ℕ} {Q : ℕ → Heap → Prop} (ha : args.Ok)
    (hargs : s.grArgs = args) (hf : Room args h p size mis n)
    (hmis : mis = if alignment > 1 then (h + n - size) % alignment else 0)
    (hacc : Accessible s.pages h n) (hmagic : fld s.mem h .magic = magicFree)
    (hq : Q p { s with
      mem := fillMem args s.mem h p size mis bt
      log := .filled ⟨h, p, size, mis, bt⟩ :: s.log }) :
    wp (fillBlock bt alignment size h (h + n)) Q E s := by
  obtain ⟨hal, htrace, habove, hfits, hbound⟩ := id hf
  have hbt : allocBtOff = 64 := rfl
  have hopen : ∀ f : Field, Accessible s.pages (h + f.off) 8 := by
    intro f
    have := f.off_le
    exact hacc.mono (by omega) (by omega)
  have hp : p = h + n - size - mis := by omega
  unfold fillBlock
  extract_lets hdr misalignment usrData done
  have hmis' : misalignment = mis := hmis.symm
  have hp' : usrData = p := by
    change h + n - size - misalignment = p
    rw [hmis', hp]
  have hhdr' : hdr = h := rfl
  clear_value misalignment usrData hdr
  subst hmis' hp' hhdr'
  refine wp_bind (wp_get ?_)
  extract_lets args' rest₂ rest₁
  have hargs' : args' = args := hargs
  clear_value args'
  subst hargs'
  unfold fillMem at hq
  extract_lets m₁ m₂ m₃ m₄ m₅ m₆ m₇ at hq
  have hmf := ha.maxTrackFrames_lt
  have hrest₂ : wp (rest₂ ()) Q E { s with mem := m₄ } := by
    have hsub : sub64 usrData 8 = usrData - 8 := by
      unfold sub64
      omega
    change wp (store64 (sub64 usrData 8) hdr >>= _) _ _ _
    rw [hsub]
    refine wp_bind (wp_store64_of (hacc.mono (by omega) (by omega)) ?_)
    refine wp_bind (wp_stField (hopen _) (wp_bind (wp_stField (hopen _) (wp_bind (wp_emit ?_)))))
    refine wp_ite (fun hpoison => ?_) fun hpoison => ?_
    · refine wp_bind (wp_memset_of (hacc.mono (by omega) (by omega)) (wp_pure ?_))
      simpa only [hpoison, if_true] using hq
    · refine wp_pure ?_
      simpa only [if_neg hpoison, update_zero] using hq
  have hrest₁ : wp (rest₁ ()) Q E { s with mem := m₁ } := by
    have hmagic₁ : fld m₁ hdr .magic = magicFree := by
      rw [← hmagic]
      exact fld_congr fun y hy hy' => traceMem_of_notMem (.inl (by simp [Field.off] at hy'; omega))
    refine wp_bind (wp_ldField (hopen _) fun w hw => ?_)
    refine wp_bind (wp_grAssert_of (hw.trans hmagic₁) ?_)
    refine wp_bind (wp_stField (hopen _) (wp_bind (wp_stField (hopen _) ?_)))
    refine wp_bind (wp_grAssert_of (by omega) (wp_bind (wp_grAssert_of (by omega) ?_)))
    refine wp_ite (fun hpos => ?_) fun h0 => ?_
    · refine wp_bind (wp_grAssert_of ?_ ?_)
      · have hal1 : alignment > 1 := by
          by_contra hle
          rw [if_neg hle] at hmis
          omega
        rw [hp]
        refine Nat.sub_mod_eq_zero_of_mod_eq ?_
        rw [hmis, if_pos hal1, Nat.mod_mod]
      · refine wp_bind (wp_memset_of (hacc.mono (by omega) (by omega)) hrest₂)
    · have hm₄ : m₄ = m₃ := by
        obtain rfl : misalignment = 0 := by omega
        exact update_zero
      rw [hm₄] at hrest₂
      exact hrest₂
  refine wp_ite (fun _ => ?_) fun h0 => ?_
  · refine wp_bind (wp_putTrace hmf (fun _ => hrest₁) fun hn => absurd ?_ hn)
    exact hacc.mono (by omega) (by omega)
  · have hm₁ : m₁ = s.mem := by
      have : args'.maxTrackFrames = 0 := by omega
      change traceMem _ _ _ args'.maxTrackFrames = _
      rw [this, traceMem_zero]
    rw [hm₁] at hrest₁
    exact hrest₁

/-- A trace that does not fit into the block runs into the guard page. -/
theorem fillBlock_faults {alignment e : ℕ} (ha : s.grArgs.Ok)
    (hacc : ¬ Accessible s.pages (h + allocBtOff) (8 * s.grArgs.maxTrackFrames)) :
    wp (fillBlock bt alignment size h e) (fun _ _ => False)
      (fun e s' => e = .fault (h + allocBtOff) ∧ s' = s) s := by
  unfold fillBlock
  extract_lets hdr misalignment usrData done
  refine wp_bind (wp_get ?_)
  extract_lets args' rest₂ rest₁
  refine wp_ite (fun _ => ?_) fun h0 => absurd ?_ hacc
  · exact wp_bind (wp_putTrace ha.maxTrackFrames_lt (fun h => absurd h hacc) fun _ => ⟨rfl, rfl⟩)
  · rw [Nat.eq_zero_of_not_pos h0]
    exact fun k hk => absurd hk (Nat.not_lt_zero k)

/-- An alignment beyond all addresses puts the user data at `0`, and the word in front of it
faults, unless an assertion finds before that the block is too small for the user data. -/
theorem fillBlock_wraps {alignment : ℕ} (ha : s.grArgs.Ok)
    (hlow : ∀ k, s.pages k ≠ .none → k * 4096 < 2 ^ 47) (hal : 2 ^ 47 < alignment)
    (hn : h + n ≤ 2 ^ 47) (hn64 : 64 ≤ n) (hacc : Accessible s.pages h n)
    (hmagic : fld s.mem h .magic = magicFree) :
    wp (fillBlock bt alignment size h (h + n)) (fun _ _ => False)
      (fun e s' => s'.log = s.log ∧
        (Accessible s.pages (h + allocBtOff) (8 * s.grArgs.maxTrackFrames) ∧ n ≤ size →
          e = .abort (.guardRails 636) ∨ e = .abort (.guardRails 642)) ∧
        (¬ (Accessible s.pages (h + allocBtOff) (8 * s.grArgs.maxTrackFrames) ∧ n ≤ size) →
          ∃ a, e = .fault a)) s := by
  have hopen : ∀ f : Field, Accessible s.pages (h + f.off) 8 := by
    intro f
    have := f.off_le
    exact hacc.mono (by omega) (by omega)
  have hmf := ha.maxTrackFrames_lt
  unfold fillBlock
  extract_lets hdr misalignment usrData done
  refine wp_bind (wp_get ?_)
  extract_lets args' rest₂ rest₁
  have hargs' : args' = s.grArgs := rfl
  generalize htr : Accessible s.pages (h + allocBtOff) (8 * s.grArgs.maxTrackFrames) = T
  have hrest₂ : ∀ m, size < n → misalignment = h + n - size → wp (rest₂ ()) (fun _ _ => False)
      (fun e s' => s'.log = s.log ∧
        (T ∧ n ≤ size → e = .abort (.guardRails 636) ∨ e = .abort (.guardRails 642)) ∧
        (¬ (T ∧ n ≤ size) → ∃ a, e = .fault a)) { s with mem := m } := by
    intro m hlt hmis
    have hzero : sub64 usrData 8 = 2 ^ 64 - 8 := by
      have hud : usrData = h + n - size - misalignment := rfl
      unfold sub64
      omega
    refine wp_bind (wp_store64 (fun hacc => ?_) fun _ => ⟨rfl, fun hT => absurd hT.2 (by omega), fun _ => ⟨_, rfl⟩⟩)
    rw [hzero] at hacc
    exact absurd (hlow _ (hacc 0 (by decide))) (by decide)
  have hrest₁ : T → ∀ m, fld m h .magic = magicFree → wp (rest₁ ()) (fun _ _ => False)
      (fun e s' => s'.log = s.log ∧
        (T ∧ n ≤ size → e = .abort (.guardRails 636) ∨ e = .abort (.guardRails 642)) ∧
        (¬ (T ∧ n ≤ size) → ∃ a, e = .fault a)) { s with mem := m } := by
    intro hT m hm
    refine wp_bind (wp_ldField (hopen _) fun w hw => wp_bind (wp_grAssert_of (hw.trans hm) ?_))
    refine wp_bind (wp_stField (hopen _) (wp_bind (wp_stField (hopen _) ?_)))
    refine wp_bind (wp_grAssert (fun _ => ?_) fun hle =>
      ⟨rfl, fun _ => .inl rfl, fun hn => absurd ⟨hT, by omega⟩ hn⟩)
    refine wp_bind (wp_grAssert (fun hgt => ?_) fun hle =>
      ⟨rfl, fun _ => .inr rfl, fun hn => absurd ⟨hT, by omega⟩ hn⟩)
    have hhdr : hdr = h := rfl
    have hmis : misalignment = h + n - size := by
      change (if alignment > 1 then (h + n - size) % alignment else 0) = h + n - size
      rw [if_pos (by omega), Nat.mod_eq_of_lt (by omega)]
    have hud : usrData = 0 := by
      change h + n - size - misalignment = 0
      omega
    refine wp_ite (fun _ => ?_) fun _ => hrest₂ _ (by omega) hmis
    refine wp_bind (wp_grAssert_of (by rw [hud, Nat.zero_mod]) ?_)
    exact wp_bind (wp_memset (fun _ => hrest₂ _ (by omega) hmis) fun _ =>
      ⟨rfl, fun hT => absurd hT.2 (by omega), fun _ => ⟨_, rfl⟩⟩)
  refine wp_ite (fun _ => ?_) fun h0 => hrest₁ ?_ s.mem hmagic
  · refine wp_bind (wp_putTrace hmf (fun hacc => hrest₁ ?_ _ ?_) fun hacc => ⟨rfl, ?_, fun _ => ⟨_, rfl⟩⟩)
    · rw [← htr]
      exact hacc
    · rw [← hmagic]
      exact fld_congr fun y hy hy' => traceMem_of_notMem (.inl (by simp [Field.off, allocBtOff] at hy' ⊢; omega))
    · intro hT
      rw [← htr] at hT
      exact absurd hT.1 hacc
  · rw [← htr, Nat.eq_zero_of_not_pos h0]
    exact fun k hk => absurd hk (Nat.not_lt_zero k)

/-- The trace of an allocation can be written exactly when the block holds it: behind the block
is its guard page. -/
theorem Shape.trace_open_iff (hS : Shape env off L s) (hB : L.block h = some B)
    (hp : B.place ≠ .ring) :
    Accessible s.pages (h + allocBtOff) (8 * mf) ↔ 64 + 8 * mf ≤ B.size := by
  have hsize := (hS.layout.block _ B hB).size_ge
  have hbt : allocBtOff = 64 := rfl
  constructor
  · intro hacc
    by_contra hlt
    have hopen := hacc (B.size - 64) (by omega)
    rw [show h + allocBtOff + (B.size - 64) = h + B.size by omega] at hopen
    exact hopen (hS.pages.guard _ B hB _ le_rfl (Nat.lt_add_of_pos_right (by decide)))
  · exact fun hle => (hS.pages.opened _ B hB hp).mono (by omega) (by omega)

/-! ## The specification -/

/-- What a request gets: a block in use that nobody had, filled in for it. -/
structure Served (env : Env) (F : Prop) (off : Off) (X : Set ℕ) (s₀ s : Heap) (bt : List ℕ)
    (alignment usrSize : ℕ) (a : Alloc) (B : Block) : Prop where
  call : InCall env F off X s₀ s
  new : ∀ A, (ledger s₀.log).block a.hdr = some A → ¬ A.Fixed
  block : (ledger s.log).block a.hdr = some B
  place : B.place = .on .inUse
  live : B.live = true
  owner : B.owner = some a
  intact : B.intact = true
  size_eq : a.size = usrSize
  bt_eq : a.bt = bt
  bin : B.size = 2 ^ log2fast (max pageSize (allocSizeOf env.args alignment usrSize))
  misalignment : a.misalignment =
    if alignment > 1 then (a.hdr + B.size - usrSize) % alignment else 0
  unwrapped : elmHdrSz env.args + 8 + usrSize + (if alignment > 1 then alignment else 0) < 2 ^ 64

theorem Served.isLive {alignment usrSize : ℕ} {a : Alloc}
    (hs : Served env F off X s₀ s bt alignment usrSize a B) : (ledger s.log).Live a :=
  ⟨B, hs.block, hs.live, hs.owner, hs.intact⟩

theorem Served.settledAt {alignment usrSize : ℕ} {a : Alloc}
    (hs : Served env F off X s₀ s bt alignment usrSize a B) : SettledAt s a.hdr :=
  .of_block hs.block (.inr (.inr ⟨hs.place, hs.live⟩))

def Poisoned (args : GRArgs) (m : Mem) (a : Alloc) : Prop :=
  args.poison = true → ∀ i < a.size, m (a.ptr + i) = args.poisonVal

theorem fillBlock_spec {alignment size : ℕ} {q : Request}
    (hc : InCall env F off {q.hdr} s₀ s)
    (hnew : ∀ A, (ledger s₀.log).block q.hdr = some A → ¬ A.Fixed)
    (hB : (ledger s.log).block q.hdr = some B) (hp : B.place = .on .inUse)
    (hlive : B.live = false) (hreq : B.request = some q) (hsize : B.size = size)
    (hbin : size = 2 ^ log2fast (max pageSize (allocSizeOf env.args alignment q.size)))
    (halign : alignment < 2 ^ 64) (husr : q.size < 2 ^ 64) (hfit : log2fast q.size < 40)
    (hwrap : F → elmHdrSz env.args + 8 + q.size + (if alignment > 1 then alignment else 0) < 2 ^ 64 ∨
      Trouble env s₀.log) :
    wp (fillBlock q.bt alignment q.size q.hdr (q.hdr + size))
      (fun p s' => p ≠ 0 ∧ ∃ a B, a.ptr = p ∧
        Served env F off ∅ s₀ s' q.bt alignment q.size a B ∧ Poisoned env.args s'.mem a)
      (Halted env F G) s := by
  have hS := hc.rep.shape
  have hL := hc.rep.log_ok.lawful.sound
  have hargs := hS.env_ok.args
  have hh := hS.layout.block_bounds hB
  have hle : q.size ≤ 2 ^ 39 := (log2fast_le_iff husr).1 (by omega)
  have hsz := elmHdrSz_eq hargs
  have h1 := hargs.maxTrackFrames_lt
  have h2 := hargs.maxTrackFreeFrames_lt
  obtain ⟨n, hn⟩ : ∃ n, n = elmHdrSz env.args + 8 + q.size + if alignment > 1 then alignment else 0 :=
    ⟨_, rfl⟩
  rw [← hn] at hwrap
  by_cases hlt : n < 2 ^ 64
  · -- the request has not wrapped, so the block holds it
    have hbig : n ≤ size := by
      have halloc : allocSizeOf env.args alignment q.size = n := by
        rw [allocSizeOf, ← hn, Nat.mod_eq_of_lt hlt]
      rw [halloc] at hbin
      rw [hbin]
      exact (le_max_right pageSize n).trans (le_pow_log2fast (max_lt (by decide) hlt))
    obtain ⟨mis, hmis⟩ : ∃ mis, mis = if alignment > 1 then (q.hdr + size - q.size) % alignment else 0 :=
      ⟨_, rfl⟩
    have hmis_le : mis ≤ if alignment > 1 then alignment else 0 := by
      rw [hmis]
      split
      · exact (Nat.mod_lt _ (by omega)).le
      · exact le_rfl
    have hf : Fit env.args q.hdr (q.hdr + size - q.size - mis) q.size mis size :=
      { aligned := hh.2.1
        hdr := by omega
        above := by omega
        fits := by omega
        bound := by omega }
    have hH := hS.blocks _ B hB (by simp [hp])
    have hmagic : fld s.mem q.hdr .magic = magicFree := by
      rw [hH.magic, hlive]
      rfl
    obtain ⟨p, hpe⟩ : ∃ p, p = q.hdr + size - q.size - mis := ⟨_, rfl⟩
    rw [← hpe] at hf
    have hacc : Accessible s.pages q.hdr size := hsize ▸ hS.pages.opened _ B hB (by simp [hp])
    refine wp_fillBlock hargs hS.args_eq hf.room hmis hacc hmagic ?_
    have habove := hf.above
    obtain ⟨hc₁, hB₁⟩ : InCall env F off _ s₀
        { s with
          mem := fillMem env.args s.mem q.hdr p q.size mis q.bt
          log := .filled ⟨q.hdr, p, q.size, mis, q.bt⟩ :: s.log } ∧ _ :=
      hc.update (e := .filled ⟨q.hdr, p, q.size, mis, q.bt⟩) (Set.mem_singleton q.hdr) hB
      ⟨B, q, hB, hlive, hreq, rfl, rfl⟩ (by simp) nofun
      ⟨rfl, rfl, rfl, rfl, fun r => by cases r; rfl, fun _ => rfl, fun l => by cases l <;> rfl⟩ rfl rfl
      (Ledger.block_updBlock hB _) rfl rfl rfl Iff.rfl
      (fun x hx => fillMem_of_notMem hf (by omega)) (fun _ x hx hx' => fillMem_of_notMem hf (by omega))
      (fun _ => headerOk_fillMem hf hH hsize) (hS.counts.congr rfl rfl rfl rfl)
    refine ⟨by omega, ⟨q.hdr, p, q.size, mis, q.bt⟩,
      { B with owner := some ⟨q.hdr, p, q.size, mis, q.bt⟩, live := true, intact := true }, rfl, ?_,
      fun hpoison i hi => fillMem_poison hpoison hi⟩
    exact
      { call := ⟨hc₁.rep, hc₁.ready, hc₁.keeps.absorb hnew (.of_block hB₁ (.inr (.inr ⟨hp, rfl⟩)))⟩
        new := hnew
        block := hB₁
        place := hp
        live := rfl
        owner := rfl
        intact := rfl
        size_eq := rfl
        bt_eq := rfl
        bin := hsize.trans hbin
        misalignment := hsize.symm ▸ hmis
        unwrapped := hn ▸ hlt }
  · -- it has, so it does not get through
    have halign47 : 2 ^ 47 < alignment := by
      split at hn <;> omega
    have hmagic : fld s.mem q.hdr .magic = magicFree := by
      rw [(hS.blocks _ B hB (by simp [hp])).magic, hlive]
      rfl
    have hacc : Accessible s.pages q.hdr size := hsize ▸ hS.pages.opened _ B hB (by simp [hp])
    refine wp_mono (fillBlock_wraps (hS.args_eq ▸ hargs) hS.pages.low halign47 (by omega) (by omega)
      hacc hmagic) (fun _ _ hf => hf.elim) fun e s' ⟨hlog, habort, hfault⟩ => ?_
    have he : ¬ e.Barred ∧ e ≠ .outOfBounds := by
      by_cases hT : Accessible s.pages (q.hdr + allocBtOff) (8 * s.grArgs.maxTrackFrames) ∧ size ≤ q.size
      · rcases habort hT with rfl | rfl
        · exact ⟨nofun, nofun⟩
        · exact ⟨nofun, nofun⟩
      · obtain ⟨a, rfl⟩ := hfault hT
        exact ⟨nofun, nofun⟩
    refine ⟨hlog ▸ hc.rep.log_ok, fun hF => ?_, he.1, fun _ _ => he.2⟩
    rw [hlog]
    exact .inl (hc.trouble ((hwrap hF).resolve_left hlt))

end GuardRails
