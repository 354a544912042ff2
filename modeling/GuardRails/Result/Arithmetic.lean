import GuardRails.Spec.Complete
import GuardRails.Spec.Shortage

/-!
# Sizes up to the end of the range

A request that is too large for every bin is not refused: its class is used as an index of
`memBins` first. The padded size may also wrap, and then the block that is found is too small;
whether an assertion notices depends on the user data. The product that `calloc` forms wraps
unnoticed.
-/

namespace GuardRails

open ByteMemory StateHoare

variable {env : Env} {s s' : Heap} {F : Prop} {ctx : Ctx} {depth : ℕ} {st : Proc} {bt : List ℕ}
  {p alignment usrSize nmemb i b : ℕ}

/-! ## Size classes -/

/-- The padded size of a request, before it is reduced to a word. -/
def paddedSize (args : GRArgs) (alignment usrSize : ℕ) : ℕ :=
  elmHdrSz args + 8 + usrSize + if alignment > 1 then alignment else 0

def Halt.Aborts (e : Halt) : Prop := ∃ site, e = .abort site

/-- Unless the padded size is a word the request returns `NULL` or aborts, and its class is that of
a bin wherever it is used. -/
structure SizeSafe (ctx : Ctx) (s : Heap) (bt : List ℕ) (alignment usrSize : ℕ) : Prop where
  unwrapped : paddedSize s.grArgs alignment usrSize < 2 ^ 64 ∨
    wp (memalignInt ctx bt alignment usrSize) (fun p _ => p = 0) (fun e _ => e.Aborts) s
  indexed : ∀ s', memalignInt ctx bt alignment usrSize s ≠ .error .outOfBounds s'

/-- A request whose padded size has wrapped ends before it is filled in: it gets no block, or one
that is too small for the user data and holds the trace. -/
def Harmless (env : Env) (s : Heap) (alignment usrSize : ℕ) : Prop :=
  s.Lacks env (classOf env.args alignment usrSize) usrSize ∨ maxAllocPower ≤ log2fast usrSize ∨
    2 ^ classOf env.args alignment usrSize ≤ usrSize ∧
      64 + 8 * env.args.maxTrackFrames ≤ 2 ^ classOf env.args alignment usrSize

/-- A request without a bin leads out of `memBins`. -/
theorem replenishBin_outOfBounds {t : ℕ} (hctx : ctx.Ok env) (hcalm : env.CalmFrom t)
    (ht : t ≤ s.clock) (hcount : 0 < (s.mutex (.slot i)).count) (hb : maxAllocPower ≤ b) :
    wp (replenishBin ctx i b) (fun _ _ => False) (fun e _ => e = .outOfBounds) s := by
  unfold replenishBin
  refine wp_bind (wp_poll_calmFrom hctx.env_eq hcalm ht (wp_bind (wp_verifyLocked ?_)))
  refine wp_bind (wp_grAssert (fun _ => wp_ite (fun _ => wp_throw rfl) fun h => absurd hb h) fun h => ?_)
  exact absurd (decide_eq_true hcount) h

theorem getBuf_outOfBounds {allocSize : ℕ} (hctx : ctx.Ok env) (hcalm : env.CalmFrom s.clock)
    (hlocks : LocksOk s) (hargs : s.grArgs = env.args) (hslots : 0 < env.args.numSlots)
    (hclass : maxAllocPower ≤ log2fast (max pageSize allocSize)) :
    wp (getBuf ctx bt allocSize usrSize) (fun _ _ => False) (fun e _ => e = .outOfBounds) s := by
  have henv := hctx.env_eq
  have ht : s.clock ≤ slotTime s.clock usrSize := by
    unfold slotTime
    split
    · exact Nat.le_succ _
    · exact le_rfl
  have hm := hlocks.slot (env.slotFor s.clock usrSize)
  rw [hargs, decide_eq_true (slotFor_lt hslots)] at hm
  unfold getBuf
  extract_lets reqSize binNum usrSizeBin
  refine wp_bind (wp_poll_calmFrom henv hcalm le_rfl (wp_bind_of (pickSlot_run henv hargs hslots) ?_))
  rintro _ _ ⟨rfl, rfl⟩
  refine wp_bind (wp_poll_calmFrom henv hcalm ht (wp_bind (wp_pthreadMutexLock (fun hl => ?_) fun _ h => ?_)))
  · have ht' := ht.trans (Nat.le_succ _)
    refine wp_bind (wp_poll_calmFrom henv hcalm ht' (wp_bind_of
      (replenishBin_outOfBounds hctx hcalm ht' ?_ hclass) fun _ _ h => h.elim))
    have hlocked := locked_lockHeap (s := { s with clock := slotTime s.clock usrSize })
      (l := .slot (env.slotFor s.clock usrSize))
    rw [mutex_lockHeap, if_pos rfl] at hlocked ⊢
    exact (hm.lock hl).count.2 ⟨hlocked, rfl⟩
  · exact absurd (hm.kind.symm.trans h) nofun

theorem memalignInt_outOfBounds (hctx : ctx.Ok env) (hcalm : env.CalmFrom s.clock) (hR : Rep env 0 s)
    (hinit : s.isInit = true) (hslots : 0 < env.args.numSlots)
    (hclass : maxAllocPower ≤ classOf env.args alignment usrSize) :
    wp (memalignInt ctx bt alignment usrSize) (fun _ _ => False) (fun e _ => e = .outOfBounds) s := by
  have hargs := hR.shape.args_eq
  unfold memalignInt
  refine wp_bind (wp_get ?_)
  rw [hargs]
  extract_lets allocSize rest
  refine wp_bind (wp_get (wp_ite (fun h => absurd (hinit.symm.trans h) nofun) fun _ => ?_))
  exact wp_bind_of (getBuf_outOfBounds hctx hcalm hR.shape.locks hargs hslots hclass)
    fun _ _ h => h.elim

/-- What becomes of a request whose padded size has wrapped. -/
theorem memalignInt_wrapped (hst : st.Inv env) (hcalm : env.CalmFrom st.heap.clock)
    (hslots : 0 < env.args.numSlots) (hoom : env.args.abortOnOOM = false)
    (hpct : env.args.maxMemPct = 0) (hallow : st.heap.Allows env usrSize) (halign : alignment < 2 ^ 64)
    (husr : usrSize < 2 ^ 64) (hclass : classOf env.args alignment usrSize < maxAllocPower)
    (hwrap : 2 ^ 64 ≤ paddedSize env.args alignment usrSize) :
    wp (memalignInt (ctxOf env depth) bt alignment usrSize)
      (fun p _ => p = 0 ∧ Harmless env st.heap alignment usrSize)
      (fun e _ => e.Aborts ↔ Harmless env st.heap alignment usrSize) st.heap := by
  have hctx := ctxOf_ok env depth
  have hready : Ready env False st.heap := ⟨False.elim, .inl hst.isInit, False.elim⟩
  have hargs := hst.rep.shape.args_eq
  have hok := hst.rep.shape.env_ok.args
  generalize hb : classOf env.args alignment usrSize = b at hclass
  unfold memalignInt
  refine wp_bind (wp_get ?_)
  extract_lets allocSize rest
  have halloc : allocSize < 2 ^ 64 := Nat.mod_lt _ (by norm_num)
  have hclass' : b = log2fast (max pageSize allocSize) := by
    rw [← hb, classOf, ← hargs]
  refine wp_bind (wp_get (wp_ite (fun h => Bool.noConfusion (hst.isInit.symm.trans h)) fun _ => ?_))
  by_cases hdeny : st.heap.Lacks env b usrSize ∨ 40 ≤ log2fast usrSize
  · have hharm : Harmless env st.heap alignment usrSize := by
      rw [Harmless, hb]
      exact hdeny.imp_right .inl
    refine wp_bind (wp_mono (getBuf_denied hctx hcalm hst.rep hready hst.gMutex hslots halloc hclass' hclass hdeny)
      ?_ fun e _ h => iff_of_true (h hoom hpct) hharm)
    rintro ⟨buf, endBuf⟩ s₁ ⟨rfl, -⟩
    refine wp_ite (fun _ => wp_bind (wp_get (wp_ite (fun _ => ?_) fun _ => wp_pure ⟨rfl, hharm⟩)))
      fun h => absurd rfl h
    exact wp_throw (iff_of_true ⟨_, rfl⟩ hharm)
  · have hlack : ¬ st.heap.Lacks env b usrSize := fun h => hdeny (.inl h)
    have hlt : log2fast usrSize < 40 := not_le.1 fun h => hdeny (.inr h)
    have hharm : Harmless env st.heap alignment usrSize ↔
        2 ^ b ≤ usrSize ∧ 64 + 8 * env.args.maxTrackFrames ≤ 2 ^ b := by
      rw [Harmless, hb]
      exact ⟨fun h => (h.resolve_left hlack).resolve_left (not_le.2 hlt), fun h => .inr (.inr h)⟩
    have hspec : wp (getBuf (ctxOf env depth) bt allocSize usrSize) _ _ st.heap :=
      getBuf_spec (F := False) (G := False) hctx hst.rep hready (fun _ => rfl) False.elim halloc
        False.elim False.elim False.elim False.elim fun _ => False.elim
    refine wp_bind (wp_mono (wp_and hspec (getBuf_supplied hctx hcalm hst.rep hready hst.gMutex hslots halloc
      hclass' hclass hlt hlack hallow)) ?_ fun _ _ h => h.2.elim)
    rintro ⟨buf, endBuf⟩ s₁ ⟨htaken, h0⟩
    refine wp_ite (fun h => absurd h h0) fun _ => ?_
    rcases htaken with ⟨h, -, -⟩ | ⟨B, hend, hc, hnew, hB, hp, hlive, hreq, hsize, hfit⟩
    · exact absurd h h0
    · -- the header is there, but nothing else has its room
      dsimp only at hend hB hsize
      obtain rfl : endBuf = buf + 2 ^ b := by rw [hend, hclass']
      rw [← hclass'] at hsize
      have hS := hc.rep.shape
      have hlow := hS.layout.block_bounds hB
      have hle : usrSize ≤ 2 ^ 39 := (log2fast_le_iff husr).1 (by omega)
      have hhdr := elmHdrSz_eq hok
      have h1 := hok.maxTrackFrames_lt
      have h2 := hok.maxTrackFreeFrames_lt
      have hal : 2 ^ 47 < alignment := by
        unfold paddedSize at hwrap
        split at hwrap <;> omega
      have hmagic : fld s₁.mem buf .magic = magicFree := by
        rw [(hS.blocks _ B hB (by simp [hp])).magic, hlive]
        rfl
      have htrace : Accessible s₁.pages (buf + allocBtOff) (8 * s₁.grArgs.maxTrackFrames) ↔ _ :=
        hS.trace_open_iff hB (by simp [hp])
      rw [hsize] at htrace
      have hacc : Accessible s₁.pages buf (2 ^ b) := hsize ▸ hS.pages.opened _ B hB (by simp [hp])
      refine wp_mono (fillBlock_wraps (hS.args_eq ▸ hok) hS.pages.low hal (by omega) (by omega) hacc hmagic)
        (fun _ _ hf => hf.elim) ?_
      rintro e _ ⟨-, habort, hfault⟩
      rw [htrace, hS.args_eq, and_comm, ← hharm] at habort hfault
      constructor
      · rintro ⟨site, rfl⟩
        by_contra hn
        obtain ⟨a, ha⟩ := hfault hn
        cases ha
      · intro hh
        rcases habort hh with rfl | rfl
        · exact ⟨_, rfl⟩
        · exact ⟨_, rfl⟩

/-- A padded size that is a word is safe exactly when there is a bin for it. One that is not is safe,
where neither a signal arrives nor a dump is due, exactly when the request ends before the block
is filled in. -/
theorem size_safe (henv : env.Ok) (hstdio : env.StdioFits) (hr : Reachable env depth st)
    (halign : alignment < 2 ^ 64) (husr : usrSize < 2 ^ 64) :
    (classOf env.args alignment usrSize < maxAllocPower →
      paddedSize env.args alignment usrSize < 2 ^ 64 →
      SizeSafe (ctxOf env depth) st.heap bt alignment usrSize) ∧
    (env.CalmFrom st.heap.clock → 0 < env.args.numSlots →
      (SizeSafe (ctxOf env depth) st.heap bt alignment usrSize →
        classOf env.args alignment usrSize < maxAllocPower) ∧
      (env.args.abortOnOOM = false → env.args.maxMemPct = 0 → st.heap.Allows env usrSize →
        (SizeSafe (ctxOf env depth) st.heap bt alignment usrSize ↔
          classOf env.args alignment usrSize < maxAllocPower ∧
          (paddedSize env.args alignment usrSize < 2 ^ 64 ∨
            Harmless env st.heap alignment usrSize)))) := by
  have hst := hr.inv henv
  have hargs := hst.rep.shape.args_eq
  have hindexed : classOf env.args alignment usrSize < maxAllocPower →
      ∀ s', memalignInt (ctxOf env depth) bt alignment usrSize st.heap ≠ .error .outOfBounds s' := by
    intro hclass s' hrun
    have hE := wp_error (memalignInt_outcome (F := False) (G := True) hst halign husr nofun
      fun _ => hclass) hrun
    exact hE.bounds hstdio trivial rfl
  have hsafe : classOf env.args alignment usrSize < maxAllocPower →
      paddedSize env.args alignment usrSize < 2 ^ 64 →
      SizeSafe (ctxOf env depth) st.heap bt alignment usrSize :=
    fun hclass hlt => ⟨.inl (hargs ▸ hlt), hindexed hclass⟩
  refine ⟨hsafe, fun hcalm hslots => ?_⟩
  have hbin : SizeSafe (ctxOf env depth) st.heap bt alignment usrSize →
      classOf env.args alignment usrSize < maxAllocPower := by
    intro h
    by_contra hclass
    have hwp : wp (memalignInt (ctxOf env depth) bt alignment usrSize) (fun _ _ => False)
        (fun e _ => e = .outOfBounds) st.heap :=
      memalignInt_outOfBounds (ctxOf_ok env depth) hcalm hst.rep hst.isInit hslots (not_lt.1 hclass)
    cases hrun : memalignInt (ctxOf env depth) bt alignment usrSize st.heap with
    | ok p s' => exact wp_ok hwp hrun
    | error e s' =>
        have he := wp_error hwp hrun
        exact h.indexed s' (he ▸ hrun)
  refine ⟨hbin, fun hoom hpct hallow => ?_⟩
  by_cases hlt : paddedSize env.args alignment usrSize < 2 ^ 64
  · exact ⟨fun h => ⟨hbin h, .inl hlt⟩, fun h => hsafe h.1 hlt⟩
  have hwrapped : classOf env.args alignment usrSize < maxAllocPower →
      2 ^ 64 ≤ paddedSize env.args alignment usrSize →
      wp (memalignInt (ctxOf env depth) bt alignment usrSize) _ _ st.heap :=
    memalignInt_wrapped hst hcalm hslots hoom hpct hallow halign husr
  constructor
  · intro h
    have hclass := hbin h
    refine ⟨hclass, .inr ?_⟩
    have hend := h.unwrapped.resolve_left (hargs ▸ hlt)
    have hrun := hwrapped hclass (not_lt.1 hlt)
    cases hm : memalignInt (ctxOf env depth) bt alignment usrSize st.heap with
    | ok p s' => exact (wp_ok hrun hm).2
    | error e s' => exact (wp_error hrun hm).1 (wp_error hend hm)
  · rintro ⟨hclass, h⟩
    have hharm := h.resolve_left hlt
    refine ⟨.inr (wp_mono (hwrapped hclass (not_lt.1 hlt)) (fun _ _ h => h.1) fun _ _ h => h.2 hharm),
      hindexed hclass⟩

theorem size_safe_still : ∃ st, Reachable (Env.still .defaults) 1 st ∧
    SizeSafe (ctxOf (Env.still .defaults) 1) st.heap [] 16 1000 := by
  have henv := Env.still_ok GRArgs.defaults_ok
  obtain ⟨st, hr, -⟩ := Proc.Idle.reachable henv (Env.still_granting rfl) 1
  exact ⟨st, hr, (size_safe henv (fun _ _ _ _ h => absurd h List.not_mem_nil) hr (by decide)
    (by decide)).1 (by decide) (by decide)⟩

/-- A request for a terabyte leads out of `memBins`. -/
theorem malloc_outOfBounds : ∃ st s', Reachable (Env.still .defaults) 1 st ∧
    (Call.malloc (2 ^ 40)).exec (ctxOf (Env.still .defaults) 1) [] st.heap =
      .error .outOfBounds s' := by
  have henv := Env.still_ok GRArgs.defaults_ok
  obtain ⟨st, hr, -⟩ := Proc.Idle.reachable henv (Env.still_granting rfl) 1
  have hst := hr.inv henv
  have hwp : wp ((Call.malloc (2 ^ 40)).exec (ctxOf (Env.still .defaults) 1) [])
      (fun _ _ => False) (fun e _ => e = .outOfBounds) st.heap :=
    memalignInt_outOfBounds (ctxOf_ok _ 1) (fun _ _ _ => rfl) hst.rep hst.isInit (by decide) (by decide)
  cases hrun : (Call.malloc (2 ^ 40)).exec (ctxOf (Env.still .defaults) 1) [] st.heap with
  | ok p s' => exact absurd (wp_ok hwp hrun) not_false
  | error e s' =>
      have he := wp_error hwp hrun
      exact ⟨st, s', hr, he ▸ hrun⟩

/-! ## The product of `calloc` -/

/-- The region at `p` has room for the product, and is cleared. -/
def Honoured (s : Heap) (nmemb usrSize p : ℕ) : Prop :=
  ∃ a : Alloc, a.ptr = p ∧ (ledger s.log).Live a ∧ nmemb * usrSize ≤ a.size ∧
    ∀ i < nmemb * usrSize, s.mem (p + i) = 0

theorem Effect.honoured_iff {held : Books} {p : ℕ} (hst : Proc.Inv env ⟨s', held⟩)
    (heff : Effect env.args (.calloc nmemb usrSize) p s s') (hp : p ≠ 0) :
    Honoured s' nmemb usrSize p ↔ nmemb * usrSize < 2 ^ 64 := by
  obtain ⟨a, rfl, hsize, ha, -, hzero, -⟩ := heff.served hp
  have hsize' : nmemb * usrSize % 2 ^ 64 = a.size := Option.some.inj hsize
  constructor
  · rintro ⟨b, hptr, hb, hle, -⟩
    obtain rfl := hst.rep.live_inj hb ha hptr
    rw [← hsize'] at hle
    exact hle.trans_lt (Nat.mod_lt _ (by norm_num))
  · intro hlt
    rw [Nat.mod_eq_of_lt hlt] at hsize'
    exact ⟨a, rfl, ha, hsize'.le, fun i hi => hzero i (hsize' ▸ hi)⟩

/-- A buffer that `calloc` returns holds the product exactly when the product is a `size_t`. -/
theorem calloc_product (henv : env.Ok) (hr : Reachable env depth st)
    (hok : (Call.calloc nmemb usrSize).Ok st.held)
    (hrun : (Call.calloc nmemb usrSize).exec (ctxOf env depth) bt st.heap = .ok p s')
    (hp : p ≠ 0) : Honoured s' nmemb usrSize p ↔ nmemb * usrSize < 2 ^ 64 := by
  obtain ⟨hinv, heff⟩ := wp_ok (exec_spec (hr.inv henv) hok) hrun
  exact heff.honoured_iff hinv hp

theorem calloc_product_small : ∃ st p s', Reachable (Env.still .defaults) 1 st ∧
    (Call.calloc 3 100).exec (ctxOf (Env.still .defaults) 1) [] st.heap = .ok p s' ∧
    Honoured s' 3 100 p := by
  obtain ⟨st, p, s', hr, hok, hrun, hp, -⟩ :=
    exists_calloc 3 100 (by decide) (by decide) (by decide) (by decide)
  exact ⟨st, p, s', hr, hrun, (calloc_product (Env.still_ok GRArgs.defaults_ok) hr hok hrun hp).2
    (by decide)⟩

/-- `2 ^ 33` objects of `2 ^ 31` bytes get a buffer without a byte. -/
theorem calloc_wraps : ∃ st p s', Reachable (Env.still .defaults) 1 st ∧
    (Call.calloc (2 ^ 33) (2 ^ 31)).exec (ctxOf (Env.still .defaults) 1) [] st.heap = .ok p s' ∧
    p ≠ 0 ∧ ¬ Honoured s' (2 ^ 33) (2 ^ 31) p := by
  obtain ⟨st, p, s', hr, hok, hrun, hp, hinv, heff⟩ :=
    exists_calloc (2 ^ 33) (2 ^ 31) (by decide) (by decide) (by decide) (by decide)
  refine ⟨st, p, s', hr, hrun, hp, fun h => ?_⟩
  exact absurd ((heff.honoured_iff hinv hp).1 h) (by decide)

end GuardRails
