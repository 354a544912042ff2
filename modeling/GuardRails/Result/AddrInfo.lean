import GuardRails.Spec.Complete
import GuardRails.Spec.Debugger

/-!
# The traces that the debugger shows

`allocBt` holds the trace of the last allocation and behind it that of the last release. The
debugger reads the first where `memalignInt` wrote it, and the second one word behind where
`free` wrote it: it misses the innermost frame and shows a word that is not part of the header.
-/

namespace GuardRails

open ByteMemory StateHoare

variable {env : Env} {off : Off} {depth i n h : ℕ} {st : Proc} {s : Heap} {B : Block} {A : Alloc}

/-! ## What is shown -/

theorem mapM_some {α β : Type} {f : α → Option β} {g : α → β} {l : List α}
    (h : ∀ x ∈ l, f x = some (g x)) : l.mapM f = some (l.map g) := by
  induction l with
  | nil => rfl
  | cons x l ih =>
      obtain ⟨hx, hl⟩ := List.forall_mem_cons.1 h
      rw [List.mapM_cons, hx, ih hl]
      rfl

/-- The allocation trace of a block is that of its last allocation. -/
theorem dumpSymTrace_alloc (hR : Rep env off s) (hB : (ledger s.log).block h = some B)
    (hA : B.owner = some A) (hraw : B.place ≠ .raw) :
    dumpSymTrace s (h + allocBtOff) (allocTraceRange s.grArgs) =
      some ((traceOf A.bt env.args.maxTrackFrames).filter (· ≠ 0)) := by
  have hO := (hR.shape.blocks h B hB hraw).owner A hA
  have habove := hO.above
  have hfits := hO.fits
  rw [elmHdrSz_eq hR.shape.env_ok.args] at habove
  have hpeek : ∀ j ∈ List.range env.args.maxTrackFrames,
      s.peek (h + allocBtOff + 8 * j) = some (A.bt.getD j 0 % 2 ^ 64) := by
    intro j hj
    have hlt := List.mem_range.1 hj
    rw [hR.shape.layout.peek hB (by omega) (by change h + 64 + 8 * j < h + B.size + 4096; omega)]
    exact congrArg some (hO.frames j hlt)
  rw [dumpSymTrace, allocTraceRange, traceRange, hR.shape.args_eq, ← List.range_eq_range',
    mapM_some hpeek]
  rfl

/-- Without free traces the command comes to its end. -/
theorem printAddrInfo_eq (hR : Rep env off s) (hB : (ledger s.log).block h = some B)
    (hA : B.owner = some A) (hraw : B.place ≠ .raw) (hfree : env.args.maxTrackFreeFrames = 0) :
    printAddrInfo s h = some
      { hdr := h
        isHeader := true
        inUse := B.live
        allocTrace := (traceOf A.bt env.args.maxTrackFrames).filter (· ≠ 0)
        freeTrace := [] } := by
  have hmagic : s.peek (h + Field.magic.off) = some (if B.live then magicInuse else magicFree) := by
    rw [← (hR.shape.blocks h B hB hraw).magic]
    exact hR.shape.layout.peek hB le_rfl (by change h < h + B.size + 4096; omega)
  have hnone : dumpSymTrace s (h + allocBtOff) (freeTraceRange s.grArgs) = some [] := by
    rw [hR.shape.args_eq, freeTraceRange, hfree]
    rfl
  simp only [printAddrInfo, hR.findHeader hB hraw, hmagic, dumpSymTrace_alloc hR hB hA hraw, hnone,
    Option.bind_eq_bind, Option.bind_some, Option.pure_def]
  cases B.live <;> rfl

/-! ## What the calls write -/

/-- From `s` to `s'` the words of `allocBt` with the indices `range` are filled with the trace, and
the other words of the header are left. -/
structure TraceWritten (args : GRArgs) (h : ℕ) (range bt : List ℕ) (s s' : Heap) : Prop where
  filled : ∀ j i, range[j]? = some i → word s'.mem (h + allocBtOff + 8 * i) = bt.getD j 0 % 2 ^ 64
  left : ∀ i, allocBtOff + 8 * i + 8 ≤ elmHdrSz args → i ∉ range →
    word s'.mem (h + allocBtOff + 8 * i) = word s.mem (h + allocBtOff + 8 * i)

/-- The indices that the debugger reads as traces are those that `memalignInt` and `free` clear and
fill, they are apart, and they lie in the header; so the command prints the traces of the last
allocation and of the last release. -/
structure TracesAgree (env : Env) (depth : ℕ) (s : Heap) : Prop where
  allocated : ∀ bt a n p s', a < 2 ^ 64 → n < 2 ^ 64 →
    memalignInt (ctxOf env depth) bt a n s = .ok p s' → p ≠ 0 →
      ∃ h info, word s'.mem (p - 8) = h ∧ printAddrInfo s' h = some info ∧
        info.allocTrace = (traceOf bt env.args.maxTrackFrames).filter (· ≠ 0) ∧
        TraceWritten env.args h (allocTraceRange s'.grArgs) bt s s'
  freed : ∀ bt A s' B, (ledger s.log).Live A → free (ctxOf env depth) bt A.ptr s = .ok () s' →
    (ledger s'.log).block A.hdr = some B → B.owner = some A →
      ∃ info, printAddrInfo s' A.hdr = some info ∧
        info.freeTrace = (traceOf bt env.args.maxTrackFreeFrames).filter (· ≠ 0) ∧
        TraceWritten env.args A.hdr (freeTraceRange s'.grArgs) bt s s'
  shown : ∀ h B A, (ledger s.log).block h = some B → B.owner = some A → B.place ≠ .raw →
    ∃ info, printAddrInfo s h = some info ∧ info.hdr = h ∧
      info.allocTrace = (traceOf A.bt env.args.maxTrackFrames).filter (· ≠ 0)
  disjoint : ∀ i ∈ allocTraceRange s.grArgs, i ∉ freeTraceRange s.grArgs
  inside : ∀ i ∈ allocTraceRange s.grArgs ++ freeTraceRange s.grArgs,
    allocBtOff + 8 * i + 8 ≤ elmHdrSz s.grArgs

theorem mem_traceRange {offset maxFrames : ℕ} :
    i ∈ traceRange offset maxFrames ↔ offset ≤ i ∧ i < offset + maxFrames :=
  List.mem_range'_1

/-- Without free traces the header ends with the allocation trace. -/
theorem header_end (hargs : env.args.Ok) (hfree : env.args.maxTrackFreeFrames = 0) :
    allocBtOff + 8 * i + 8 ≤ elmHdrSz env.args ↔ i < env.args.maxTrackFrames := by
  rw [elmHdrSz_eq hargs, hfree]
  change 64 + 8 * i + 8 ≤ _ ↔ _
  omega

theorem traceWritten_alloc (hR : Rep env off s) (hB : (ledger s.log).block h = some B)
    (hA : B.owner = some A) (hraw : B.place ≠ .raw) (hfree : env.args.maxTrackFreeFrames = 0) (s₀ : Heap) :
    TraceWritten env.args h (allocTraceRange s.grArgs) A.bt s₀ s := by
  rw [hR.shape.args_eq]
  refine ⟨fun j i hj => ?_, fun i hi hout => absurd (mem_traceRange.2 ⟨i.zero_le, ?_⟩) hout⟩
  · obtain ⟨hlt, rfl⟩ := List.getElem?_eq_some_iff.1 hj
    have hlen : j < env.args.maxTrackFrames := by simpa [allocTraceRange, traceRange] using hlt
    simpa [allocTraceRange, traceRange] using ((hR.shape.blocks h B hB hraw).owner A hA).frames j hlen
  · rw [Nat.zero_add]
    exact (header_end hR.shape.env_ok.args hfree).1 hi

theorem TracesAgree.of_untracked (hst : st.Inv env) (hfree : env.args.maxTrackFreeFrames = 0) :
    TracesAgree env depth st.heap where
  allocated bt a n p s' ha hn hrun h0 := by
    have hspec : wp (memalignInt (ctxOf env depth) bt a n) _ (Halted env False False) st.heap :=
      memalignInt_outcome hst ha hn nofun nofun
    obtain ⟨rfl, -⟩ | ⟨-, A, B, rfl, hs, -⟩ := wp_ok hspec hrun
    · exact absurd rfl h0
    · have hraw : B.place ≠ .raw := by simp [hs.place]
      have hR := hs.call.rep
      refine ⟨A.hdr, _, ((hR.shape.blocks _ B hs.block hraw).owner A hs.owner).ptrWord,
        printAddrInfo_eq hR hs.block hs.owner hraw hfree, by rw [hs.bt_eq], ?_⟩
      exact hs.bt_eq ▸ traceWritten_alloc hR hs.block hs.owner hraw hfree st.heap
  freed bt A s' B hlive hrun hB hA := by
    have hspec : wp (free (ctxOf env depth) bt A.ptr) _ (Halted env False False) st.heap :=
      free_spec (F := False) (ctxOf_ok env depth) hst.rep ⟨nofun, .inl hst.isInit, nofun⟩ hlive
    obtain ⟨hc, hreleased⟩ := wp_ok hspec hrun
    have hraw : B.place ≠ .raw := by
      rcases hreleased.settled B hB with hp | hp | ⟨hp, -⟩ <;> simp [hp]
    refine ⟨_, printAddrInfo_eq hc.rep hB hA hraw hfree, by rw [hfree]; rfl, ?_⟩
    have hnone : freeTraceRange s'.grArgs = [] := by
      rw [hc.rep.shape.args_eq, freeTraceRange, hfree]
      rfl
    rw [hnone]
    refine ⟨fun j i hj => absurd hj nofun, fun i hi _ => ?_⟩
    -- the allocation trace is still that of the block
    have hlt := (header_end hst.rep.shape.env_ok.args hfree).1 hi
    obtain ⟨B₀, hB₀, -, hA₀, hp₀⟩ := hst.rep.log_ok.lawful.sound.live_inUse hlive
    have hbefore := ((hst.rep.shape.blocks _ B₀ hB₀ (by simp [hp₀])).owner A hA₀).frames i hlt
    have hafter := ((hc.rep.shape.blocks _ B hB hraw).owner A hA).frames i hlt
    exact hafter.trans hbefore.symm
  shown h B A hB hA hraw := ⟨_, printAddrInfo_eq hst.rep hB hA hraw hfree, rfl, rfl⟩
  disjoint i _ hi := by
    rw [hst.rep.shape.args_eq, freeTraceRange, mem_traceRange, hfree] at hi
    omega
  inside i hi := by
    rw [hst.rep.shape.args_eq] at hi ⊢
    rw [List.mem_append, allocTraceRange, freeTraceRange, mem_traceRange, mem_traceRange, hfree] at hi
    exact (header_end hst.rep.shape.env_ok.args hfree).2 (by omega)

/-- The last index that is read as the free trace is behind the header. -/
theorem TracesAgree.untracked {s : Heap} (h : TracesAgree env depth s) (hargs : s.grArgs = env.args)
    (hok : env.args.Ok) : env.args.maxTrackFreeFrames = 0 := by
  by_contra hne
  have hmem : env.args.maxTrackFrames + env.args.maxTrackFreeFrames ∈ freeTraceRange s.grArgs := by
    rw [hargs]
    exact mem_traceRange.2 ⟨by omega, by omega⟩
  have hle := h.inside _ (List.mem_append_right _ hmem)
  rw [hargs, elmHdrSz_eq hok] at hle
  change 64 + _ + 8 ≤ _ at hle
  omega

/-- The debugger reads the traces that were written if no free traces are. -/
theorem traces_agree (henv : env.Ok) (hr : Reachable env depth st) :
    TracesAgree env depth st.heap ↔ env.args.maxTrackFreeFrames = 0 :=
  ⟨fun h => h.untracked (hr.inv henv).rep.shape.args_eq henv.args, .of_untracked (hr.inv henv)⟩

/-- A client makes two allocations and releases the first. -/
theorem exists_traced {n k : ℕ} (hn : n < 2 ^ 31) (hk : k < 2 ^ 31)
    (hsize : elmHdrSz (.tracing n k) + 8 + 24 + 16 ≤ 2 ^ 39)
    (hb : 12 = classOf (.tracing n k) (Call.malloc 24).alignment 24) :
    ∃ st st' p q, Reachable (Env.still (.tracing n k)) 1 st ∧ st.held = [(q, 24), (p, 24)] ∧
      Step (Env.still (.tracing n k)) 1 st (.free p) st' :=
  exists_released (GRArgs.tracing_ok hn hk) (Env.still_undisturbed_tracing n k) 1 24 hsize hb
    (by decide)

/-- Allocations are traced, releases are not. -/
theorem traces_agree_allocations : ∃ st st' p q, Reachable (Env.still (.tracing 2 0)) 1 st ∧
    st.held = [(q, 24), (p, 24)] ∧ Step (Env.still (.tracing 2 0)) 1 st (.free p) st' ∧
    TracesAgree (Env.still (.tracing 2 0)) 1 st'.heap := by
  obtain ⟨st, st', p, q, hr, hheld, hstep⟩ := exists_traced (n := 2) (k := 0) (by decide) (by decide)
    (by decide) (by decide)
  have henv := Env.still_ok (GRArgs.tracing_ok (by decide : 2 < 2 ^ 31) (by decide : 0 < 2 ^ 31))
  exact ⟨st, st', p, q, hr, hheld, hstep, (traces_agree henv (hr.step hstep)).2 rfl⟩

/-- With one frame each, the debugger reads the second word of the free trace, which is none,
and not the first. -/
theorem traces_disagree : ∃ st st' p q, Reachable (Env.still (.tracing 1 1)) 1 st ∧
    st.held = [(q, 24), (p, 24)] ∧ Step (Env.still (.tracing 1 1)) 1 st (.free p) st' ∧
    1 ∉ freeTraceRange st'.heap.grArgs ∧ 2 ∈ freeTraceRange st'.heap.grArgs ∧
    elmHdrSz st'.heap.grArgs = allocBtOff + 8 * 2 ∧
    ¬ TracesAgree (Env.still (.tracing 1 1)) 1 st'.heap := by
  obtain ⟨st, st', p, q, hr, hheld, hstep⟩ := exists_traced (n := 1) (k := 1) (by decide) (by decide)
    (by decide) (by decide)
  have henv := Env.still_ok (GRArgs.tracing_ok (by decide : 1 < 2 ^ 31) (by decide : 1 < 2 ^ 31))
  have hargs : st'.heap.grArgs = .tracing 1 1 := ((hr.step hstep).inv henv).rep.shape.args_eq
  refine ⟨st, st', p, q, hr, hheld, hstep, ?_⟩
  rw [hargs]
  exact ⟨by decide, by decide, by decide, fun h => absurd (h.untracked hargs henv.args) (by decide)⟩

end GuardRails
