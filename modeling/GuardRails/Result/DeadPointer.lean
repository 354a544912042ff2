import GuardRails.Ledger.Quarantine
import GuardRails.Result.Isolation
import GuardRails.Spec.Drain
import GuardRails.Spec.Tally

/-!
# Dead pointers

`free` and `realloc` know a block by the word below the pointer and by the magic that this word
leads to. A pointer that was released is caught while that word is what the last release left:
in the delay ring it cannot be read, and on a free list it leads to `MAGIC_FREE`. When the block
has been handed out again, the word is user data of its new owner.
-/

namespace GuardRails

open ByteMemory StateHoare

variable {env : Env} {s s' : Heap} {ctx : Ctx} {depth n p room : ℕ} {st st₀ st' : Proc} {bt : List ℕ}
  {a b : Alloc} {B : Block} {cs : List Call}

/-- Where the word below `p` leads. -/
def Heap.hdrOf (s : Heap) (p : ℕ) : ℕ := word s.mem (sub64 p 8)

/-- The word below `p` can be read and leads to the magic of a block in use. -/
def Misled (s : Heap) (p : ℕ) : Prop :=
  Accessible s.pages (sub64 p 8) 8 ∧ Accessible s.pages (s.hdrOf p + Field.magic.off) 8 ∧
    fld s.mem (s.hdrOf p) .magic = magicInuse

def Heap.copied (s : Heap) (dst src n : ℕ) : Heap :=
  { s with mem := update s.mem dst n fun i => s.mem (src + i) }

/-- `free`, once it has read the word below its argument. -/
def freeHdr (ctx : Ctx) (bt : List ℕ) (hdr : ℕ) : M Unit := do
  grAssert (.guardRails 728) ((← ldField hdr .magic) = magicInuse)
  checkSlop hdr
  let args := (← get).grArgs
  if args.maxTrackFreeFrames > 0 then
    putTrace bt (.guardRails 742) (hdr + allocBtOff + 8 * args.maxTrackFrames)
      args.maxTrackFreeFrames
  putBuf ctx hdr

theorem free_eq (h0 : p ≠ 0) : free ctx bt p = load64 (sub64 p 8) >>= freeHdr ctx bt := by
  unfold free
  rw [if_neg h0]
  rfl

theorem free_run (h0 : p ≠ 0) (hacc : Accessible s.pages (sub64 p 8) 8) :
    free ctx bt p s = freeHdr ctx bt (s.hdrOf p) s := by
  have hspec : wp (load64 (sub64 p 8)) (fun w s' => w = s.hdrOf p ∧ s' = s) (fun _ _ => False) s :=
    wp_load64_of hacc ⟨rfl, rfl⟩
  obtain ⟨w, s', hload, rfl, rfl⟩ := wp_returns hspec
  rw [free_eq h0]
  exact run_bind hload rfl

/-- The only thing that `free` takes from its argument is the word below it. -/
theorem free_congr {q : ℕ} (hp : p ≠ 0) (hq : q ≠ 0) (hacc : Accessible s.pages (sub64 p 8) 8)
    (hacc' : Accessible s.pages (sub64 q 8) 8) (hword : s.hdrOf p = s.hdrOf q) :
    free ctx bt p s = free ctx bt q s := by
  rw [free_run hp hacc, free_run hq hacc', hword]

theorem free_misled (h0 : p ≠ 0) :
    wp (free ctx bt p) (fun _ _ => Misled s p) (fun _ _ => True) s := by
  rw [free_eq h0]
  refine wp_bind (wp_load64_eq (fun hacc hdr hhdr => ?_) fun _ => trivial)
  have hhdr : hdr = s.hdrOf p := hhdr
  unfold freeHdr
  refine wp_bind (wp_load64_eq (fun hacc' magic hmagic => ?_) fun _ => trivial)
  refine wp_bind (wp_grAssert (fun heq => ?_) fun _ => trivial)
  have hm : Misled s p := by
    rw [hhdr] at hacc' hmagic
    exact ⟨hacc, hacc', hmagic.symm.trans heq⟩
  exact wp_mono (wp_trivial _) (fun _ _ _ => hm) fun _ _ h => h

/-- `realloc` makes its own allocation and copies before it looks at the block. -/
theorem realloc_splits (h0 : p ≠ 0) :
    wp (realloc ctx bt p n)
      (fun q s' => ∃ s₁, memalignInt ctx bt 8 n s = .ok q s₁ ∧ ((q = 0 ∧ s' = s₁) ∨
        q ≠ 0 ∧ ∃ k, k ≤ n ∧ free ctx bt p (s₁.copied q p k) = .ok () s'))
      (fun _ _ => True) s := by
  unfold realloc
  refine wp_bind (wp_run (fun q s₁ hrun => ?_) fun _ _ _ => trivial)
  refine wp_ite (fun h => wp_pure ⟨s₁, hrun, .inl ⟨h.resolve_left h0, rfl⟩⟩) fun h => ?_
  refine wp_bind (wp_load64 (fun _ => wp_bind ?_) fun _ => trivial)
  unfold ldField
  refine wp_load64 (fun _ => wp_bind ?_) fun _ => trivial
  unfold memcpy
  refine wp_bind (wp_touch (fun _ => wp_bind (wp_touch (fun _ => wp_modify ?_) fun _ => trivial)) fun _ => trivial)
  refine wp_bind (wp_run (fun _ s₂ hfree => ?_) fun _ _ _ => trivial)
  exact wp_pure ⟨s₁, hrun, .inr ⟨fun hq => h (.inr hq), _, min_le_left _ _, hfree⟩⟩

/-- The block at `a.hdr` waits in the delay ring, or on a free list as the release of `a.ptr` left it. -/
def Parked (s : Heap) (a : Alloc) : Prop :=
  ∃ B, (ledger s.log).block a.hdr = some B ∧
    (B.place = .ring ∨ B.place = .on .free ∧ ∃ b, B.owner = some b ∧ b.ptr = a.ptr)

/-- What becomes of a call with the pointer of `a`, which is dead. `realloc` allocates first; where
its allocation fetches the block of `a` itself, nothing more is said. -/
structure Repelled (env : Env) (s : Heap) (a : Alloc) : Prop where
  free : ∀ depth bt s', GuardRails.free (ctxOf env depth) bt a.ptr s = .ok () s' → Misled s a.ptr
  parked : Parked s a → ¬ Misled s a.ptr
  other : ∀ b, (ledger s.log).Live b → Accessible s.pages (sub64 a.ptr 8) 8 →
    s.hdrOf a.ptr = b.hdr → b.ptr ≠ a.ptr ∧
      ∀ ctx bt, GuardRails.free ctx bt a.ptr s = GuardRails.free ctx bt b.ptr s
  realloc : ∀ depth bt n q s', n < 2 ^ 64 →
    GuardRails.realloc (ctxOf env depth) bt a.ptr n s = .ok q s' → ∃ s₁ evs,
      memalignInt (ctxOf env depth) bt 8 n s = .ok q s₁ ∧ s₁.log = evs ++ s.log ∧ ((q = 0 ∧ s' = s₁) ∨
        q ≠ 0 ∧ (Parked s a → ∃ e ∈ evs, e.Fetches a.hdr) ∧ ∃ k, k ≤ n ∧
          Misled (s₁.copied q a.ptr k) a.ptr ∧ ∀ b B, (ledger s.log).Live b → s.hdrOf a.ptr = b.hdr →
            (ledger s.log).block a.hdr = some B → B.place = .on .inUse → (ledger s₁.log).Live b ∧
              GuardRails.free (ctxOf env depth) bt b.ptr (s₁.copied q a.ptr k) = .ok () s')

/-- A block of the history has the size that it had. -/
theorem Run.block_size (henv : env.Ok) (hst : st₀.Inv env) (hrun : Run env depth st₀ cs st) {h : ℕ}
    {A : Block} (hA : (ledger st₀.heap.log).block h = some A) :
    ∃ B, (ledger st.heap.log).block h = some B ∧ B.size = A.size := by
  obtain ⟨evs, hgrows⟩ := hrun.grows henv
  have hcarved := hst.rep.log_ok.lawful.carved_of_block hA
  exact (hrun.inv hst).rep.log_ok.lawful.block_of_carved (hgrows.suffix.subset hcarved)

/-- The pointer of an allocation, as `free` computes with it. -/
theorem Rep.ptr_bounds {off : Off} (hR : Rep env off s) (ha : (ledger s.log).Live a) :
    ∃ B, (ledger s.log).block a.hdr = some B ∧ a.hdr + 72 ≤ a.ptr ∧ a.ptr ≤ a.hdr + B.size ∧
      sub64 a.ptr 8 = a.ptr - 8 := by
  obtain ⟨B, hB, -, ho, hp⟩ := hR.log_ok.lawful.sound.live_inUse ha
  have hbd := hR.shape.user_bounds hB (by simp [hp]) ho
  have hlay := hR.shape.layout.block_bounds hB
  have habove := ((hR.shape.blocks _ B hB (by simp [hp])).owner a ho).above
  have hsz := elmHdrSz_eq hR.shape.env_ok.args
  refine ⟨B, hB, by omega, by omega, ?_⟩
  unfold sub64
  omega

/-- The pointer of a live allocation lies in its own block. -/
theorem Rep.hdr_of_ptr {off : Off} (hR : Rep env off s) (ha : (ledger s.log).Live a) {h : ℕ}
    (hB : (ledger s.log).block h = some B) (hlow : h ≤ a.ptr) (hhigh : a.ptr ≤ h + B.size) :
    a.hdr = h := by
  obtain ⟨A, hA, hlow', hhigh', -⟩ := hR.ptr_bounds ha
  by_contra hne
  have := hR.shape.layout.notMem hB hA hne (x := a.ptr) (by omega) (by omega)
  omega

/-- A block that waits does not mislead its dead pointer. -/
theorem Rep.not_misled {off : Off} {A : Block} (hR : Rep env off s)
    (hA : (ledger s.log).block a.hdr = some A) (hlow : a.hdr + 72 ≤ a.ptr) (hhigh : a.ptr ≤ a.hdr + A.size)
    (hsub : sub64 a.ptr 8 = a.ptr - 8) (hparked : Parked s a) {m : Mem}
    (hm : ∀ x, a.hdr ≤ x → x < a.hdr + A.size → m x = s.mem x) : ¬ Misled { s with mem := m } a.ptr := by
  intro hmisled
  obtain ⟨B, hB, hp⟩ := hparked
  obtain rfl := Option.some.inj (hA.symm.trans hB)
  rcases hp with hp | ⟨hp, b, ho, hptr⟩
  · -- the word lies on a page without rights
    refine hmisled.1 0 (by decide) (hR.shape.pages.shut _ _ hA hp _ ?_ ?_) <;> omega
  · -- the word still leads to the header, which the release has marked free
    have hL := hR.log_ok.lawful.sound
    have hlay := hR.shape.layout.block_bounds hA
    have hH := hR.shape.blocks _ A hA (by simp [hp])
    have hlive : A.live = false := by
      by_contra hlive
      obtain ⟨-, q, -, hq, -⟩ := (hL.block_ok _ A hA).live_owner (by simpa using hlive)
      exact absurd (hp.symm.trans ((hL.block_ok _ A hA).request_place (by simp [hq]))) nofun
    have hword : Heap.hdrOf { s with mem := m } a.ptr = a.hdr := by
      unfold Heap.hdrOf
      rw [hsub, ← (hH.owner b ho).ptrWord, hptr]
      exact word_congr fun x hx hx' => hm x (by omega) (by omega)
    have hmagic := hH.magic
    rw [hlive] at hmagic
    have hinuse := hmisled.2.2
    rw [hword] at hinuse
    have hsame : fld m a.hdr .magic = fld s.mem a.hdr .magic :=
      word_congr fun x hx hx' => hm x hx (lt_of_lt_of_le hx' (by change a.hdr + 0 + 8 ≤ _; omega))
    exact absurd ((hsame.symm.trans hinuse).symm.trans hmagic) (by decide)

/-- A dead pointer is caught unless the word below it leads to the magic of a block in use, as it
may when the block has been handed out again. -/
theorem dead_pointers_caught (henv : env.Ok) (hr : Reachable env depth st₀)
    (ha : (ledger st₀.heap.log).Live a) (hrun : Run env depth st₀ cs st)
    (hdead : ∀ b, (ledger st.heap.log).Live b → b.ptr ≠ a.ptr) : Repelled env st.heap a := by
  have hst₀ := hr.inv henv
  have hst := hrun.inv hst₀
  obtain ⟨A, hA, hlow, hhigh, hsub⟩ := hst₀.rep.ptr_bounds ha
  obtain ⟨A', hA', hsize⟩ := hrun.block_size henv hst₀ hA
  have h0 : a.ptr ≠ 0 := by omega
  have hL := hst.rep.log_ok.lawful.sound
  have hsame : ∀ {s₂ : Heap} {b : Alloc}, Rep env 0 s₂ → (ledger s₂.log).Live b →
      Accessible s₂.pages (sub64 a.ptr 8) 8 → s₂.hdrOf a.ptr = b.hdr →
      ∀ ctx bt, free ctx bt a.ptr s₂ = free ctx bt b.ptr s₂ := by
    intro s₂ b hR hb hacc hword ctx bt
    obtain ⟨B, hB, hlow', hhigh', hsub'⟩ := hR.ptr_bounds hb
    obtain ⟨B', hB', -, -, hp⟩ := hR.log_ok.lawful.sound.live_inUse hb
    obtain rfl := Option.some.inj (hB.symm.trans hB')
    have hopen := hR.shape.pages.opened _ B hB (by simp [hp])
    refine free_congr h0 (by omega) hacc ?_ (hword.trans (hR.ptrWord hb).symm)
    exact hopen.mono (by omega) (by omega)
  refine ⟨fun depth bt s' h => ?_, fun hparked => ?_, fun b hb hacc hword => ⟨hdead b hb, ?_⟩,
    fun depth bt n q s' hn h => ?_⟩
  · have hm := wp_ok (free_misled h0) h
    exact hm
  · exact hst.rep.not_misled hA' hlow (hsize ▸ hhigh) hsub hparked fun _ _ _ => rfl
  · exact hsame hst.rep hb hacc hword
  · have hsplit := wp_ok (realloc_splits h0) h
    obtain ⟨s₁, hmem, hcase⟩ := hsplit
    have hspec := wp_ok (memalignInt_spec (F := False) (G := False) (ctxOf_ok env depth) hst.rep hst.ready
      (fun _ => rfl) False.elim (by decide) hn False.elim fun _ => False.elim) hmem
    have hkeeps : Keeps ∅ st.heap s₁ := by
      rcases hspec with ⟨-, hc, -⟩ | ⟨-, c, C, -, hs, -⟩
      · exact hc.keeps
      · exact hs.call.keeps
    obtain ⟨evs, hevs⟩ := hkeeps.log.suffix
    refine ⟨s₁, evs, hmem, hevs.symm, ?_⟩
    rcases hcase with hnull | ⟨hq, k, hk, hfree⟩
    · exact .inl hnull
    rcases hspec with ⟨hq', -⟩ | ⟨-, c, C, rfl, hs, -⟩
    · exact absurd hq' hq
    have hm := wp_ok (free_misled h0) hfree
    have hR₁ := hs.call.rep
    obtain ⟨A₁, hA₁, hsize₁⟩ : ∃ B, (ledger s₁.log).block a.hdr = some B ∧ B.size = A'.size :=
      hR₁.log_ok.lawful.block_of_carved (hevs ▸ List.mem_append_right evs
        (hst.rep.log_ok.lawful.carved_of_block hA'))
    -- the copy stays within the new block
    have hcopied : a.hdr ≠ c.hdr → ∀ x, a.hdr ≤ x → x < a.hdr + A₁.size →
        (s₁.copied c.ptr a.ptr k).mem x = s₁.mem x := by
      intro hne x hx hx'
      have hsep := hR₁.shape.layout.sep _ _ C A₁ hs.block hA₁ hne.symm
      have hbd := hR₁.shape.user_bounds hs.block (by simp [hs.place]) hs.owner
      have hn' := hs.size_eq
      unfold Apart at hsep
      have hout : x < c.ptr ∨ c.ptr + k ≤ x := by omega
      dsimp only [Heap.copied]
      rw [update_of_notMem hout]
    refine .inr ⟨hq, fun hparked => ?_, k, hk, hm, fun b B hb hword hB hp => ?_⟩
    · by_contra hnone
      obtain ⟨B, hB, hp⟩ := hparked
      have hlawful : Lawful (evs ++ st.heap.log) := hevs ▸ hR₁.log_ok.lawful
      obtain ⟨B₁, hB₁, hplace, howner⟩ := hlawful.waits_since hB (hp.symm.imp_left And.left)
        fun e he hf => hnone ⟨e, he, hf⟩
      rw [hevs] at hB₁
      obtain rfl := Option.some.inj (hA₁.symm.trans hB₁)
      have hne : a.hdr ≠ c.hdr := by
        intro heq
        obtain rfl := Option.some.inj (hs.block.symm.trans (heq ▸ hA₁))
        rcases hp with hp | ⟨hp, -⟩ <;> cases hs.place.symm.trans (hplace.trans hp)
      refine hR₁.not_misled hA₁ hlow (by omega) hsub ⟨A₁, hA₁, ?_⟩ (hcopied hne) hm
      rw [hplace, howner]
      exact hp
    · obtain ⟨Bb, hBb, hlive, ho, hpb⟩ := hL.live_inUse hb
      have hBb₁ := hkeeps.block _ Bb (Set.notMem_empty _) hBb (.inr (.inr hpb))
      have hb₁ : (ledger s₁.log).Live b := ⟨Bb, hBb₁, hlive, ho, hb.intact hBb⟩
      obtain rfl := Option.some.inj (hA'.symm.trans hB)
      have hfix : A'.Fixed := .inr (.inr hp)
      have hB₁ := hkeeps.block _ A' (Set.notMem_empty _) hB hfix
      obtain rfl := Option.some.inj (hA₁.symm.trans hB₁)
      have hne : a.hdr ≠ c.hdr := fun heq => hs.new A₁ (heq ▸ hB) hfix
      have hs₂ : Served env False 0 ∅ st.heap (s₁.copied c.ptr a.ptr k) bt 8 n c C :=
        hs.writeUser fun x hx => update_of_notMem (by have := hs.size_eq; omega)
      have hopen := hs₂.call.rep.shape.pages.opened _ A₁ hA₁ (by simp [hp])
      refine ⟨hb₁, ?_⟩
      rw [← hsame hs₂.call.rep hb₁ (hopen.mono (by omega) (by omega)) ?_]
      · exact hfree
      · rw [← hword]
        refine word_congr fun x hx hx' => (hcopied hne x (by omega) (by omega)).trans ?_
        exact hkeeps.mem _ A₁ (Set.notMem_empty _) hB hfix x (by omega) (by omega) fun _ => .inr (by omega)

/-! ## A block that is handed out again -/

theorem Proc.Idle.malloc_water {c k room' : ℕ} (h : st.Idle env room) (hu : env.Undisturbed)
    (hclass : k = classOf env.args (Call.malloc n).alignment n)
    (hroom : Affords st.heap k room room') (hstep : Step env depth st (.malloc n) st') :
    (st'.heap.bin 0 c).lowWater = (st.heap.bin 0 c).lowWater := by
  cases hstep with
  | @mk bt p s' hok hexec =>
      have hemits : wp (memalignInt (ctxOf env depth) bt (Call.malloc n).alignment n) _ _ st.heap :=
        memalignInt_emits (ctxOf_ok env depth).env_eq hu.toGranting hclass h.inv.isInit
          (h.numFree_lt 0 k) h.pristine.marked (h.claims depth hu hroom) h.pristine.grArgs
          (hroom.enough h.pristine.room)
      obtain ⟨-, ⟨evs, he⟩, -⟩ := wp_ok hemits hexec
      exact (he.water 0 c).1

theorem Proc.Idle.free_water {c : ℕ} (h : st.Idle env room) (hu : env.Granting)
    (hdelay : env.args.useDelay = false) (h0 : p ≠ 0) (hstep : Step env depth st (.free p) st') :
    (st'.heap.bin 0 c).lowWater = (st.heap.bin 0 c).lowWater := by
  cases hstep with
  | @mk bt q s' hok hexec =>
      have hemits : wp ((Call.free p).exec (ctxOf env depth) bt)
          (fun _ s' => ∃ evs, Emits evs st.heap s') (Unexcused st.heap) st.heap := by
        refine wp_bind_of (free_emits (ctxOf_ok env depth).env_eq hu (h.pristine.grArgs ▸ hdelay) h0) ?_
        rintro _ s₁ ⟨-, i, b, he⟩
        exact wp_pure ⟨_, he⟩
      obtain ⟨evs, he⟩ := wp_ok hemits hexec
      exact (he.water 0 c).1

/-- A store of the client into memory that it holds. -/
theorem Proc.Idle.store {off size : ℕ} {bytes : List UInt8} (h : st.Idle env room) (depth : ℕ)
    (hmem : (p, size) ∈ st.held) (hin : off + bytes.length ≤ size) :
    ∃ s', Step env depth st (.store p off bytes) ⟨s', st.held⟩ ∧ Proc.Idle env room ⟨s', st.held⟩ ∧
      s'.log = st.heap.log ∧
      s'.mem = update st.heap.mem (p + off) bytes.length fun i => bytes.getD i 0 := by
  have hemits : wp ((Call.store p off bytes).exec (ctxOf env depth) [])
      (fun _ s' => Emits [] st.heap s' ∧ Still st.heap s') (Unexcused st.heap) st.heap :=
    wp_bind_of (logs_storeBytes st.heap) fun _ _ h => wp_pure h
  have hok : (Call.store p off bytes).Ok st.held := ⟨size, hmem, hin⟩
  obtain ⟨q, s', hstep, hinv, -, he, hs⟩ := h.exec hok nofun hemits
  have hbook : (Call.store p off bytes).book st.held q = st.held := rfl
  rw [hbook] at hstep hinv
  refine ⟨s', hstep, ⟨hinv, h.pristine.emits he ?_⟩, ?_⟩
  · exact hs.budget ▸ h.pristine.room
  · cases hstep with
    | mk hok hexec => exact ⟨store_log hexec, store_mem hexec⟩

theorem Step.free_ok (hstep : Step env depth st (.free p) st') :
    ∃ bt, free (ctxOf env depth) bt p st.heap = .ok () st'.heap := by
  cases hstep with
  | @mk bt q s' hok hexec =>
      have hspec : wp ((Call.free p).exec (ctxOf env depth) bt)
          (fun _ s₁ => free (ctxOf env depth) bt p st.heap = .ok () s₁) (fun _ _ => True) st.heap :=
        wp_bind (wp_run (fun _ _ hrun => wp_pure hrun) fun _ _ _ => trivial)
      have hrun := wp_ok hspec hexec
      exact ⟨bt, hrun⟩

theorem freed_not_live {i k h : ℕ} {log : List Event} (hhdr : a.hdr = h) :
    ¬ (ledger (freeEvents i k h ++ log)).Live a := by
  rintro ⟨B, hB, hlive, -⟩
  simp [freeEvents, ledger, Ledger.step, Ledger.updBlock, Ledger.updCounted, Ledger.updList,
    hhdr] at hB
  obtain ⟨C, -, rfl⟩ := hB
  exact absurd hlive Bool.false_ne_true

def wordBytes (v : ℕ) : List UInt8 := (List.range 8).map fun i => UInt8.ofNat (v / 256 ^ i)

theorem length_wordBytes {v : ℕ} : (wordBytes v).length = 8 := by
  rw [wordBytes, List.length_map, List.length_range]

theorem update_wordBytes {m : Mem} {x v : ℕ} :
    update m x (wordBytes v).length (fun i => (wordBytes v).getD i 0) = setWord m x v := by
  funext y
  rw [length_wordBytes, setWord]
  by_cases hy : x ≤ y ∧ y < x + 8
  · rw [update_of_mem hy.1 hy.2, update_of_mem hy.1 hy.2, wordBytes, List.getD_eq_getElem _ _ (by simp; omega)]
    simp
  · rw [update_of_notMem (by omega), update_of_notMem (by omega)]

theorem malloc_alignment (h : 8 < n) : (Call.malloc n).alignment = 16 :=
  if_pos h

theorem allocAt_hdr {endBuf alignment : ℕ} : (allocAt p endBuf alignment n bt).hdr = p := rfl

theorem allocAt_ptr {endBuf alignment : ℕ} (h : alignment > 1) :
    (allocAt p endBuf alignment n bt).ptr = endBuf - n - (endBuf - n) % alignment := by
  simp [allocAt, h]

/-- `p = malloc(131072)` and `free(p)`, in a heap that was just set up. -/
theorem released_once : ∃ st₁ st₂ a, Reachable (Env.still .defaults) 1 st₁ ∧
    (ledger st₁.heap.log).Live a ∧ Step (Env.still .defaults) 1 st₁ (.free a.ptr) st₂ ∧
    (∀ c, (ledger st₂.heap.log).Live c → c.ptr ≠ a.ptr) ∧
    st₂.Idle (Env.still .defaults) (slotInitSize - refillSize 18) ∧ st₂.heap.Reuses 0 18 ∧
    st₂.heap.head ⟨.free, 0, 18⟩ = a.hdr ∧
    a.ptr = a.hdr + 2 ^ 18 - 131072 - (a.hdr + 2 ^ 18 - 131072) % 16 := by
  have henv := Env.still_ok GRArgs.defaults_ok
  have hu := Env.still_undisturbed
  obtain ⟨s₀, hboot, hidle₀⟩ := boot_completes henv hu.toGranting 1
  have hmark₀ : (s₀.bin 0 18).lowWater = 0 := (wp_ok (boot_asBooted hu.toGranting) hboot).lowWater 18
  have hr₀ : Reachable (Env.still .defaults) 1 ⟨s₀, []⟩ := ⟨s₀, [], hboot, .refl⟩
  have hclass : 18 = classOf GRArgs.defaults (Call.malloc 131072).alignment 131072 := by decide
  have hroom : Affords s₀ 18 slotInitSize (slotInitSize - refillSize 18) := .inr (by decide)
  obtain ⟨a, B, s₁, hstep₁, hidle₁, hs₁, -⟩ := hidle₀.malloc 1 [] hu (by decide)
    (fits_defaults (by decide)) hclass hroom
  have hmark₁ := (hidle₀.malloc_water (c := 18) hu hclass hroom hstep₁).trans hmark₀
  have hL₁ := hidle₁.inv.rep.log_ok.lawful.sound
  have hH₁ := hidle₁.inv.rep.shape.blocks _ B hs₁.block (by simp [hs₁.place])
  have hfits₁ := (hH₁.owner a hs₁.owner).fits
  have hlay₁ := hidle₁.inv.rep.shape.layout.block_bounds hs₁.block
  have hsize₁ : B.size = 2 ^ 18 := hs₁.bin.trans (by decide)
  have hslot : B.slot = 0 := Nat.lt_one_iff.1 hH₁.slot_lt
  have hbin : B.bin = 18 := by
    have hpow := (hL₁.block_ok _ B hs₁.block).size_eq (by simp [hs₁.place])
    exact Nat.pow_right_injective le_rfl (hpow.symm.trans hsize₁)
  have hmis : a.misalignment = (a.hdr + 2 ^ 18 - 131072) % 16 := by
    rw [hs₁.misalignment, hsize₁, malloc_alignment (by decide), if_pos (by decide)]
  have hsize : a.size = 131072 := hs₁.size_eq
  obtain ⟨-, -, hlow₁, -, -⟩ := hidle₁.inv.rep.ptr_bounds hs₁.isLive
  -- the block goes to the head of its free list
  obtain ⟨s₂, hstep₂, hidle₂, hlog₂⟩ :=
    hidle₁.free hu.toGranting rfl List.mem_cons_self hs₁.isLive hs₁.block
  have hstep₂ : Step (Env.still .defaults) 1 _ _ _ := hstep₂
  have hmark₂ := (hidle₁.free_water (c := 18) hu.toGranting rfl (by omega) hstep₂).trans hmark₁
  have hlist : (ledger s₂.log).list ⟨.free, 0, 18⟩ = a.hdr :: (ledger s₁.log).list ⟨.free, 0, 18⟩ := by
    rw [hlog₂, hslot, hbin]
    exact freed_list
  have hhead : s₂.head ⟨.free, 0, 18⟩ = a.hdr := by
    have hl := hidle₂.inv.rep.shape.lists ⟨.free, 0, 18⟩
    rw [hlist] at hl
    exact hl.1
  have hreuses : s₂.Reuses 0 18 :=
    ⟨fun h0 => absurd (hhead.symm.trans h0) (by omega), hmark₂⟩
  have hdead : ∀ c, (ledger s₂.log).Live c → c.ptr ≠ a.ptr := by
    intro c hc hptr
    obtain ⟨B₂, hB₂, hsize₂⟩ := Run.block_size henv hidle₁.inv (.tail .refl hstep₂) hs₁.block
    have hhdr : c.hdr = a.hdr := hidle₂.inv.rep.hdr_of_ptr hc hB₂ (by omega) (by omega)
    rw [hlog₂] at hc
    exact freed_not_live hhdr hc
  exact ⟨_, _, a, hr₀.step hstep₁, hs₁.isLive, hstep₂, hdead, hidle₂, hreuses, hhead, by omega⟩

/-- A pointer that was released once is caught. -/
theorem dead_pointers_caught_once : ∃ (st : Proc) (a : Alloc),
    st.Idle (Env.still .defaults) (slotInitSize - refillSize 18) ∧
      Repelled (Env.still .defaults) st.heap a := by
  obtain ⟨st₁, st₂, a, hr, ha, hstep, hdead, hidle, -⟩ := released_once
  exact ⟨st₂, a, hidle, dead_pointers_caught (Env.still_ok GRArgs.defaults_ok) hr ha
    (.tail .refl hstep) hdead⟩

/-- `realloc` of the pointer that its own allocation returns. -/
theorem realloc_same {s₁ : Heap} {off : Off} (hR : Rep env off s₁) (ha : (ledger s₁.log).Live a)
    (hmem : memalignInt ctx bt 8 a.size s = .ok a.ptr s₁) (hfree : free ctx bt a.ptr s₁ = .ok () s') :
    realloc ctx bt a.ptr a.size s = .ok a.ptr s' := by
  obtain ⟨B, hB, hlow, hhigh, hsub⟩ := hR.ptr_bounds ha
  obtain ⟨B', hB', -, ho, hp⟩ := hR.log_ok.lawful.sound.live_inUse ha
  obtain rfl := Option.some.inj (hB.symm.trans hB')
  have hS := hR.shape
  have hO := (hS.blocks _ B hB (by simp [hp])).owner a ho
  have hopen := hS.pages.opened _ B hB (by simp [hp])
  have huser : Accessible s₁.pages a.ptr (min a.size a.size) :=
    (hS.user_open hB hp ho).mono le_rfl (by omega)
  have hspec : wp (realloc ctx bt a.ptr a.size) (fun q s₂ => q = a.ptr ∧ s₂ = s') (fun _ _ => False) s := by
    unfold realloc
    refine wp_bind (wp_of_ok hmem (wp_ite (fun h => absurd h (by omega)) fun _ => ?_))
    refine wp_bind (wp_load64_of (hopen.mono (by omega) (by omega)) ?_)
    rw [hsub, hO.ptrWord]
    refine wp_bind (wp_ldField (hS.field_open hB (by simp [hp]) _) fun w hw => ?_)
    obtain rfl : w = a.size := hw.trans hO.usrDataSize
    refine wp_bind (wp_memcpy huser huser ?_)
    have hself : ({ s₁ with mem := update s₁.mem a.ptr (min a.size a.size) fun i => s₁.mem (a.ptr + i) } :
        Heap) = s₁ := by
      rw [update_self]
    rw [hself]
    exact wp_bind (wp_of_ok hfree (wp_pure ⟨rfl, rfl⟩))
  obtain ⟨q, s₂, hrun, rfl, rfl⟩ := wp_returns hspec
  exact hrun

/-- After `p = malloc(131072)` and `free(p)` the allocation of `realloc(p, 131072)` gets the block of
`p`, which `realloc` then releases: it returns a pointer into a block on a free list. -/
theorem realloc_dangles (hidle : st.Idle (Env.still .defaults) room) (hreuses : st.heap.Reuses 0 18)
    (hhead : st.heap.head ⟨.free, 0, 18⟩ = a.hdr)
    (hptr : a.ptr = a.hdr + 2 ^ 18 - 131072 - (a.hdr + 2 ^ 18 - 131072) % 16) :
    ∃ s' B, realloc (ctxOf (Env.still .defaults) 1) [] a.ptr 131072 st.heap = .ok a.ptr s' ∧
      (ledger s'.log).block a.hdr = some B ∧ B.place = .on .free ∧ a.hdr ≤ a.ptr ∧
      a.ptr < a.hdr + B.size := by
  have hu := Env.still_undisturbed
  have hclass : 18 = classOf GRArgs.defaults 8 131072 := by decide
  have hfits : Fits GRArgs.defaults 8 131072 := ⟨by decide, by decide⟩
  have hroom : Affords st.heap 18 room room := .inl ⟨hreuses, le_rfl⟩
  obtain ⟨c, C, s₁, hmem, -, hs, hp, hreused⟩ := hidle.serves 1 [] hu.toGranting (by decide) (by decide)
    hfits hclass (hidle.claims 1 hu hroom) hroom
  obtain ⟨hc, -⟩ := hreused hreuses
  rw [hhead] at hc
  have hhdr : c.hdr = a.hdr := by rw [hc, allocAt_hdr]
  have hptr' : c.ptr = a.hdr + 2 ^ 18 - 131072 - (a.hdr + 2 ^ 18 - 131072) % 8 := by
    rw [hc, allocAt_ptr (by decide)]
  have hlay := hs.call.rep.shape.layout.block_bounds hs.block
  have hsize : C.size = 2 ^ 18 := hs.bin.trans (by decide)
  have hsame : c.ptr = a.ptr := by omega
  have hc0 : c.ptr ≠ 0 := by omega
  have hctx := ctxOf_ok (Env.still .defaults) 1
  have hspec : wp (free (ctxOf (Env.still .defaults) 1) [] c.ptr) _ _ s₁ :=
    free_spec (F := True) (G := True) hctx hs.call.rep hs.call.ready hs.isLive
  obtain ⟨_, s', hfree, -, -, i, k, he⟩ := completes hp.plain hspec
    (free_emits hctx.env_eq hu.toGranting (by rw [hp.grArgs]; rfl) hc0)
  have hword : word s₁.mem (sub64 c.ptr 8) = a.hdr := (hs.call.rep.ptrWord hs.isLive).trans hhdr
  rw [hword] at he
  have hrun := realloc_same hs.call.rep hs.isLive (hs.size_eq.symm ▸ hmem) hfree
  rw [hs.size_eq, hsame] at hrun
  have hblock := hs.block
  rw [hhdr] at hblock
  refine ⟨s', { C with live := false, request := none, place := .on .free }, hrun, ?_, rfl, by omega, ?_⟩
  · rw [he.log]
    simp [freeEvents, ledger, Ledger.step, Ledger.updBlock, Ledger.updCounted, Ledger.updList, hblock]
  · change a.ptr < a.hdr + C.size
    omega

/-- After `p = malloc(131072)` and `free(p)` the call `realloc(p, 131072)` returns `p` and leaves it on a
free list. After `q = malloc(200000)` the word below `p` is user data of `q`; when the client has the
address of the header there, `free(p)` releases `q`. -/
theorem dead_pointer_released : ∃ st₀ st₁ a, Reachable (Env.still .defaults) 1 st₀ ∧
    (ledger st₀.heap.log).Live a ∧ Step (Env.still .defaults) 1 st₀ (.free a.ptr) st₁ ∧
    (∀ c, (ledger st₁.heap.log).Live c → c.ptr ≠ a.ptr) ∧
    (∃ s' B, realloc (ctxOf (Env.still .defaults) 1) [] a.ptr 131072 st₁.heap = .ok a.ptr s' ∧
      (ledger s'.log).block a.hdr = some B ∧ B.place = .on .free ∧ a.hdr ≤ a.ptr ∧
      a.ptr < a.hdr + B.size) ∧
    ∃ st b cs bt s', Run (Env.still .defaults) 1 st₁ cs st ∧
      (∀ c, (ledger st.heap.log).Live c → c.ptr ≠ a.ptr) ∧ (ledger st.heap.log).Live b ∧
      free (ctxOf (Env.still .defaults) 1) bt a.ptr st.heap = .ok () s' ∧ ¬ (ledger s'.log).Live b := by
  have hu := Env.still_undisturbed
  have hclass : 18 = classOf GRArgs.defaults (Call.malloc 200000).alignment 200000 := by decide
  have husr : 200000 < 2 ^ 64 := by decide
  have hfits : (Call.malloc 200000).Fits GRArgs.defaults := fits_defaults (by decide)
  obtain ⟨st₁, st₂, a, hr, ha, hstep₂, hdead₂, hidle₂, hreuses, hhead, hptr⟩ := released_once
  -- the next request of the class gets the block
  obtain ⟨b, B, s₃, hstep₃, hidle₃, hs₃, hreused⟩ := hidle₂.malloc 1 [] hu husr hfits hclass
    (.inl ⟨hreuses, le_rfl⟩)
  obtain ⟨hb, -⟩ := hreused hreuses
  rw [hhead] at hb
  have hhdr : b.hdr = a.hdr := by rw [hb, allocAt_hdr]
  have hptr₃ : b.ptr = a.hdr + 2 ^ 18 - 200000 - (a.hdr + 2 ^ 18 - 200000) % 16 := by
    rw [hb, allocAt_ptr (by decide), malloc_alignment (by decide)]
  obtain ⟨off, hoff⟩ : ∃ off, off = a.ptr - 8 - b.ptr := ⟨_, rfl⟩
  have hbytes : off + (wordBytes a.hdr).length ≤ 200000 := by
    rw [length_wordBytes]
    omega
  obtain ⟨s₄, hstep₄, hidle₄, hlog₄, hmem₄⟩ := hidle₃.store 1 List.mem_cons_self hbytes
  rw [update_wordBytes] at hmem₄
  have hB₄ : (ledger s₄.log).block b.hdr = some B := by
    rw [hlog₄]
    exact hs₃.block
  have hlive : (ledger s₄.log).Live b := by
    rw [hlog₄]
    exact hs₃.isLive
  have hsize : B.size = 2 ^ 18 := hs₃.bin.trans (by decide)
  have hlay := hidle₄.inv.rep.shape.layout.block_bounds hB₄
  have hdead : ∀ c, (ledger s₄.log).Live c → c.ptr ≠ a.ptr := by
    intro c hc hptr'
    have hhdr' : c.hdr = b.hdr := hidle₄.inv.rep.hdr_of_ptr hc hB₄ (by omega) (by omega)
    rw [hc.hdr_inj hlive hhdr'] at hptr'
    omega
  -- the word below the dead pointer leads to the header of the new owner
  obtain ⟨-, -, hlow, -, hsub⟩ := hidle₄.inv.rep.ptr_bounds hlive
  have hsub' : sub64 a.ptr 8 = b.ptr + off := by
    unfold sub64
    omega
  have hword : s₄.hdrOf a.ptr = s₄.hdrOf b.ptr := by
    unfold Heap.hdrOf
    rw [hidle₄.inv.rep.ptrWord hlive, hsub', hmem₄, word_setWord_of_lt (by omega), hhdr]
  have hopen := hidle₄.inv.rep.shape.pages.opened _ B hB₄ (by simp [hs₃.place])
  obtain ⟨s₅, hstep₅, -, hlog₅⟩ := hidle₄.free hu.toGranting rfl List.mem_cons_self hlive hB₄
  obtain ⟨bt, hfree⟩ := Step.free_ok hstep₅
  refine ⟨st₁, st₂, a, hr, ha, hstep₂, hdead₂, realloc_dangles hidle₂ hreuses hhead hptr, _, b, _, bt, s₅,
    .tail (.tail .refl hstep₃) hstep₄, hdead, hlive, ?_, ?_⟩
  · rw [free_congr (by omega) (by omega) (hopen.mono (by omega) (by omega))
      (hopen.mono (by omega) (by omega)) hword]
    exact hfree
  · rw [hlog₅]
    exact freed_not_live rfl

end GuardRails
