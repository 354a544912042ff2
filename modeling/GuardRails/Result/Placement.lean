import GuardRails.Ledger.History
import GuardRails.Spec.Launch

/-!
# Where an allocation lies

The user data ends as close to the guard page as its alignment permits, with the header
pointer below it and the header at the start of the block. Since `calloc` and `realloc` ask
for the alignment of a pointer only, their results are less aligned than those of `malloc`
for half of the sizes.
-/

namespace GuardRails

open ByteMemory StateHoare

variable {env : Env} {s s' : Heap} {off : Off} {a : Alloc} {B : Block} {depth : ℕ} {st : Proc}
  {c : Call} {bt : List ℕ} {p alignment usrSize : ℕ}

/-- The parts of the block at `hdr`, each with its end: the header with the traces, the header
pointer, the user data and the gap behind it. -/
def blockParts (args : GRArgs) (hdr p usrSize size : ℕ) : List (ℕ × ℕ) :=
  [(hdr, hdr + elmHdrSz args), (p - 8, p), (p, p + usrSize), (p + usrSize, hdr + size)]

structure LaidOut (args : GRArgs) (s : Heap) (alignment usrSize p hdr : ℕ) : Prop where
  carved : .carved hdr (2 ^ fld s.mem hdr .binNum) ∈ s.log
  least : ∀ k, fld s.mem hdr .binNum ≤ k ↔ max pageSize
    (elmHdrSz args + 8 + usrSize + if alignment > 1 then alignment else 0) ≤ 2 ^ k
  aligned : alignment > 1 → p % alignment = 0
  inside : ∀ r ∈ blockParts args hdr p usrSize (2 ^ fld s.mem hdr .binNum),
    hdr ≤ r.1 ∧ r.1 ≤ r.2 ∧ r.2 ≤ hdr + 2 ^ fld s.mem hdr .binNum
  apart : (blockParts args hdr p usrSize (2 ^ fld s.mem hdr .binNum)).Pairwise
    fun r q => r.2 ≤ q.1
  gap : p + usrSize + fld s.mem hdr .misalignment = hdr + 2 ^ fld s.mem hdr .binNum
  gap_lt : fld s.mem hdr .misalignment < max alignment 1
  ptrWord : word s.mem (p - 8) = hdr

theorem OwnerOk.ptr_eq {args : GRArgs} {m : Mem} (hO : OwnerOk args m a.hdr B a) :
    a.ptr = a.hdr + B.size - a.size - a.misalignment ∧ a.size ≤ a.hdr + B.size := by
  have h := hO.fits
  omega

theorem Placed.aligned {args : GRArgs} {m : Mem} (hP : Placed args alignment a B)
    (hO : OwnerOk args m a.hdr B a) (h : alignment > 1) : a.ptr % alignment = 0 := by
  rw [hO.ptr_eq.1, hP.misalignment, if_pos h]
  exact Nat.mod_eq_zero_of_dvd (Nat.dvd_sub_mod _)

theorem Placed.misalignment_lt {args : GRArgs} (hP : Placed args alignment a B) :
    a.misalignment < max alignment 1 := by
  rw [hP.misalignment]
  split
  · rename_i h
    exact (Nat.mod_lt _ (by omega)).trans_le (le_max_left _ _)
  · exact Nat.lt_of_lt_of_le Nat.zero_lt_one (le_max_right _ _)

theorem Rep.laidOut (hR : Rep env off s) (hB : (ledger s.log).block a.hdr = some B)
    (hraw : B.place ≠ .raw) (ho : B.owner = some a) (hP : Placed env.args alignment a B) :
    LaidOut env.args s alignment a.size a.ptr a.hdr := by
  have hH := hR.shape.blocks _ B hB hraw
  have hO := hH.owner a ho
  have hsize := (hR.log_ok.lawful.sound.block_ok _ B hB).size_eq hraw
  have hbin : B.bin = classOf env.args alignment a.size :=
    Nat.pow_right_injective le_rfl (hsize.symm.trans hP.bin)
  have hreq : allocSizeOf env.args alignment a.size =
      elmHdrSz env.args + 8 + a.size + if alignment > 1 then alignment else 0 :=
    Nat.mod_eq_of_lt hP.unwrapped
  have habove := hO.above
  have hfits := hO.fits
  have hsz := elmHdrSz_eq hR.shape.env_ok.args
  have hinside : ∀ r ∈ blockParts env.args a.hdr a.ptr a.size B.size,
      a.hdr ≤ r.1 ∧ r.1 ≤ r.2 ∧ r.2 ≤ a.hdr + B.size := by
    intro r hr
    simp only [blockParts, List.mem_cons, List.not_mem_nil, or_false] at hr
    rcases hr with rfl | rfl | rfl | rfl <;> dsimp only <;> omega
  have hapart : (blockParts env.args a.hdr a.ptr a.size B.size).Pairwise fun r q => r.2 ≤ q.1 := by
    simp only [blockParts, List.pairwise_cons, List.mem_cons, List.not_mem_nil, or_false,
      forall_eq_or_imp, forall_eq, List.Pairwise.nil, and_true, IsEmpty.forall_iff, implies_true]
    omega
  have hcarved := hR.log_ok.lawful.carved_of_block hB
  rw [hsize] at hinside hapart hcarved hfits
  rw [← hH.binNum] at hinside hapart hcarved hfits
  refine
    { carved := hcarved
      least := fun k => ?_
      aligned := hP.aligned hO
      inside := hinside
      apart := hapart
      gap := hO.misalignment ▸ hfits
      gap_lt := hO.misalignment ▸ hP.misalignment_lt
      ptrWord := hO.ptrWord }
  rw [hH.binNum, hbin, classOf, log2fast_le_iff, hreq]
  exact max_lt (by decide) (Nat.mod_lt _ (by norm_num))

theorem Proc.Inv.laidOut (hst : st.Inv env) (halign : alignment < 2 ^ 64) (husr : usrSize < 2 ^ 64)
    (hrun : memalignInt (ctxOf env depth) bt alignment usrSize st.heap = .ok p s') (hp : p ≠ 0) :
    ∃ hdr, LaidOut env.args s' alignment usrSize p hdr := by
  have ho := wp_ok (memalignInt_outcome (F := False) (G := False) hst halign husr nofun nofun) hrun
  obtain ⟨-, a, B, rfl, hs, -⟩ := ho.resolve_left fun h => hp h.1
  have h := hs.call.rep.laidOut hs.block (by simp [hs.place]) hs.owner hs.placed
  rw [hs.size_eq] at h
  exact ⟨a.hdr, h⟩

/-- A block that is laid out holds header, header pointer, user data and alignment. -/
theorem LaidOut.size_le {hdr : ℕ} (h : LaidOut env.args s alignment usrSize p hdr) :
    (elmHdrSz env.args + 8 + usrSize + if alignment > 1 then alignment else 0) ≤
      2 ^ fld s.mem hdr .binNum :=
  (le_max_right _ _).trans ((h.least _).1 le_rfl)

theorem earlySize_le_elmHdrSz {args : GRArgs} (hargs : args.Ok) (alignment usrSize : ℕ) :
    earlySize alignment usrSize ≤
      elmHdrSz args + 8 + usrSize + if alignment > 1 then alignment else 0 := by
  have := elmHdrSz_eq hargs
  unfold earlySize
  omega

/-- In a block of a smaller class than the options ask for the allocation is not laid out. -/
theorem Cramped.foreseen {hdr b : ℕ} {B : Block} (h : Cramped env s hdr b B)
    (hb : b = classOf Heap.static.grArgs alignment usrSize) :
    wp (fillBlock bt alignment usrSize hdr (hdr + 2 ^ b))
      (fun p s' => (∃ x, LaidOut env.args s' alignment usrSize p x) →
        Foreseen env.args alignment usrSize) (fun _ _ => True) s := by
  have hargs := h.rep.shape.env_ok.args
  have hle := earlySize_le_elmHdrSz hargs alignment usrSize
  by_cases hfit : earlySize alignment usrSize < 2 ^ 64
  · by_cases htrace : 64 + 8 * env.args.maxTrackFrames ≤ 2 ^ b
    · have hfill := h.fill bt alignment usrSize (E := fun _ _ => True) (hb ▸ earlySize_le hfit) htrace
      refine wp_mono hfill ?_ fun _ _ _ => trivial
      rintro p s' ⟨-, hword, hbin, f, hlog⟩ ⟨x, hx⟩
      obtain rfl : hdr = x := hword.symm.trans hx.ptrWord
      have hcarved := hx.carved
      rw [hlog, List.mem_cons, or_iff_right fun h => Event.noConfusion h] at hcarved
      obtain ⟨B', hB', hsize'⟩ := h.rep.log_ok.lawful.block_of_carved hcarved
      have hbd := h.rep.shape.layout.block_bounds hB'
      have hfull := hx.size_le
      have hleast : ∀ k, b ≤ k ↔ classOf env.args alignment usrSize ≤ k := by
        intro k
        rw [← h.binNum, ← hbin, hx.least k, classOf, log2fast_le_iff, allocSizeOf,
          Nat.mod_eq_of_lt (by omega)]
        exact max_lt (by decide) (Nat.mod_lt _ (by norm_num))
      rw [Foreseen, ← hb]
      exact le_antisymm ((hleast _).2 le_rfl) ((hleast _).1 le_rfl)
    · exact wp_mono (h.faults (by omega)) (fun _ _ hf => hf.elim) fun _ _ _ => trivial
  · refine wp_mono fillBlock_emits ?_ fun _ _ _ => trivial
    rintro p s' ⟨-, he, -⟩ ⟨x, hx⟩
    have hcarved := hx.carved
    rw [he.log, List.cons_append, List.mem_cons, or_iff_right fun h => Event.noConfusion h] at hcarved
    obtain ⟨B', hB', hsize'⟩ := h.rep.log_ok.lawful.block_of_carved hcarved
    have hbd := h.rep.shape.layout.block_bounds hB'
    have hfull := hx.size_le
    omega

/-- Every allocation is laid out from the end of the least block that holds it, but one that
initialises the library itself is only if the traces make no difference to its class. -/
theorem allocation_layout (henv : env.Ok)
    (hst : env.unsignalled = env ∧ s = Heap.static ∨
      ∃ first? held, Launched env depth first? ⟨s, held⟩ ∧ ∀ c ∈ first?, c.Foreseen env.args)
    (halign : alignment < 2 ^ 64) (husr : usrSize < 2 ^ 64)
    (hrun : memalignInt (ctxOf env depth) bt alignment usrSize s = .ok p s') (hp : p ≠ 0) :
    (∃ hdr, LaidOut env.args s' alignment usrSize p hdr) ↔
      (s.isInit = false → Foreseen env.args alignment usrSize) := by
  rcases hst with ⟨hcalm, rfl⟩ | ⟨first?, held, hl, hf⟩
  · refine ⟨fun h _ => ?_, fun h => ?_⟩
    · obtain ⟨_, s₁, hboot, hserve⟩ := run_bind_eq_ok ((memalignInt_early rfl).symm.trans hrun)
      have hst := boot_inv henv (boot_calm depth hcalm ▸ hboot)
      have hfill : wp (serveBuf (ctxOf env depth) bt
          (allocSizeOf Heap.static.grArgs alignment usrSize) alignment usrSize)
          (fun p s' => p ≠ 0 → (∃ x, LaidOut env.args s' alignment usrSize p x) →
            Foreseen env.args alignment usrSize) (fun _ _ => True) s₁ :=
        hst.serveBuf (Nat.mod_lt _ (by norm_num)) rfl fun s hdr B hc => hc.foreseen rfl
      exact wp_ok hfill hserve hp h
    · rw [memalignInt_static henv hcalm (h rfl)] at hrun
      obtain ⟨_, s₁, hboot, hserve⟩ := run_bind_eq_ok hrun
      exact (boot_inv henv hboot).laidOut halign husr hserve hp
  · have hst := (hl.reachable henv hf).inv henv
    exact ⟨fun _ h => absurd (hst.isInit.symm.trans h) nofun,
      fun _ => hst.laidOut halign husr hrun hp⟩

/-- A first allocation of 100 bytes, before the constructor and with 30 frames each way, and one
with an alignment of two pages after it. -/
theorem allocation_layout_page :
    (∃ p s', memalignInt (ctxOf (Env.still (.tracing 30 30)) 1) [] 16 100 Heap.static = .ok p s' ∧
      p ≠ 0 ∧ ∃ hdr, LaidOut (.tracing 30 30) s' 16 100 p hdr) ∧
    ∃ st p s', Reachable (Env.still .defaults) 1 st ∧ p ≠ 0 ∧
      memalignInt (ctxOf (Env.still .defaults) 1) [] 8192 10 st.heap = .ok p s' ∧
      ∃ hdr, LaidOut .defaults s' 8192 10 p hdr := by
  constructor
  · have hargs : (GRArgs.tracing 30 30).Ok := GRArgs.tracing_ok (by decide) (by decide)
    obtain ⟨hdr, B, s, hc, h0, -, hrun⟩ := exists_early 16 100 hargs
      (Env.still_undisturbed_tracing 30 30) 1 [] rfl (by decide) (by decide) (by decide)
    obtain ⟨p, s', hfill, rfl, -⟩ := wp_returns (hc.fill [] 16 100
      (by decide) (by decide))
    have hbd := hc.rep.shape.layout.block_bounds hc.block
    have hp : hdr + 2 ^ classOf Heap.static.grArgs 16 100 - 100 - (if 16 > 1 then
        (hdr + 2 ^ classOf Heap.static.grArgs 16 100 - 100) % 16 else 0) ≠ 0 := by
      rw [show classOf Heap.static.grArgs 16 100 = 12 by decide, if_pos (by decide)]
      omega
    exact ⟨_, s', hrun.trans hfill, hp, (allocation_layout (Env.still_ok hargs) (.inl ⟨rfl, rfl⟩)
      (by decide) (by decide) (hrun.trans hfill) hp).2 fun _ => by decide⟩
  · obtain ⟨st, hr, hidle, -⟩ :=
      Proc.Idle.reachable (Env.still_ok GRArgs.defaults_ok) (Env.still_granting rfl) 1
    have hfits : Fits GRArgs.defaults 8192 10 := ⟨by decide, by decide⟩
    have hclass : 14 = classOf (Env.still .defaults).args 8192 10 := by decide
    have hroom : Affords st.heap 14 slotInitSize 0 := .inr (show 0 + _ ≤ _ by decide)
    obtain ⟨a, B, s', hrun, -, hs, -⟩ := hidle.serves 1 [] (Env.still_granting rfl) (by decide)
      (by decide) hfits hclass (hidle.claims 1 Env.still_undisturbed hroom) hroom
    have h0 := hs.call.rep.ptr_ne_zero hs.isLive
    refine ⟨st, a.ptr, s', hr, h0, hrun, (allocation_layout (Env.still_ok GRArgs.defaults_ok)
      (.inr ⟨none, st.held, hr.launched, nofun⟩) (by decide) (by decide) hrun h0).2 fun h => ?_⟩
    exact absurd (hidle.inv.isInit.symm.trans h) nofun

/-- With 30 frames each way a first `malloc` of 4000 bytes, made before the constructor, starts
inside the header of 544 bytes. -/
theorem early_malloc_in_header : ∃ hdr s', elmHdrSz (.tracing 30 30) = 544 ∧
    (Call.malloc 4000).exec (ctxOf (Env.still (.tracing 30 30)) 1) [] Heap.static =
      .ok (hdr + 96) s' ∧ word s'.mem (hdr + 88) = hdr ∧
    ¬ ∃ x, LaidOut (.tracing 30 30) s' 16 4000 (hdr + 96) x := by
  obtain ⟨hdr, B, s, hc, h0, -, hrun⟩ := exists_early 16 4000
    (GRArgs.tracing_ok (by decide : 30 < 2 ^ 31) (by decide : 30 < 2 ^ 31))
    (Env.still_undisturbed_tracing 30 30) 1 [] rfl (by decide) (by decide) (by decide)
  obtain ⟨p, s', hfill, hp, hword, -⟩ := wp_returns (hc.fill [] 16 4000
    (by decide) (by decide))
  have hbd := hc.rep.shape.layout.block_bounds hc.block
  obtain rfl : p = hdr + 96 := by
    rw [show classOf Heap.static.grArgs 16 4000 = 12 by decide, if_pos (by decide)] at hp
    omega
  refine ⟨hdr, s', by decide, hrun.trans hfill, hword, fun h => ?_⟩
  have hforeseen : Foreseen (GRArgs.tracing 30 30) 16 4000 := wp_ok (hc.foreseen rfl) hfill h
  exact absurd hforeseen (by decide)

/-! ## The alignment that SSE code relies on -/

/-- The calls whose results are to be aligned for any object of `usrSize` bytes. -/
inductive Call.Fundamental (usrSize : ℕ) : Call → Prop
  | malloc : Fundamental usrSize (.malloc usrSize)
  | calloc {nmemb n : ℕ} (h : nmemb * n = usrSize) : Fundamental usrSize (.calloc nmemb n)
  | realloc {origBuf : ℕ} : Fundamental usrSize (.realloc origBuf usrSize)

/-- With the alignment of a pointer, the parity of the number of words decides. -/
theorem Placed.ptr_mod {args : GRArgs} {m : Mem} (hP : Placed args 8 a B)
    (hO : OwnerOk args m a.hdr B a) (hhdr : a.hdr % 4096 = 0) (hsize : B.size % 4096 = 0) :
    a.ptr % 16 = 0 ↔ a.size % 16 = 0 ∨ 8 < a.size % 16 := by
  obtain ⟨hptr, hle⟩ := hO.ptr_eq
  have hmis := hP.misalignment
  rw [if_pos (by decide)] at hmis
  omega

theorem Effect.ptr_mod {held : Books} (hst : Proc.Inv env ⟨s', held⟩)
    (heff : Effect env.args c p s s') (hp : p ≠ 0) (hc : c.Fundamental usrSize)
    (husr : 8 < usrSize) (hlt : usrSize < 2 ^ 64) :
    p % 16 = 0 ↔ c = .malloc usrSize ∨ usrSize % 16 = 0 ∨ 8 < usrSize % 16 := by
  obtain ⟨a, rfl, hsize, ha, -, -, B, hB, hP⟩ := heff.served hp
  obtain ⟨B', hB', -, ho, hpl⟩ := hst.rep.log_ok.lawful.sound.live_inUse ha
  obtain rfl := Option.some.inj (hB.symm.trans hB')
  have hO := (hst.rep.shape.blocks _ B hB (by simp [hpl])).owner a ho
  have hin := hst.rep.shape.layout.block _ B hB
  have hhdr := hin.aligned
  have hal := hin.size_aligned
  cases hc with
  | malloc =>
      have h16 : Call.alignment (.malloc usrSize) = 16 := if_pos husr
      rw [h16] at hP
      exact ⟨fun _ => .inl rfl, fun _ => hP.aligned hO (by decide)⟩
  | calloc h =>
      rw [Call.size?, h, Nat.mod_eq_of_lt hlt, Option.some.injEq] at hsize
      rw [hP.ptr_mod hO hhdr hal, ← hsize]
      exact ⟨.inr, fun h => h.resolve_left nofun⟩
  | realloc =>
      obtain rfl := Option.some.inj hsize
      rw [hP.ptr_mod hO hhdr hal]
      exact ⟨.inr, fun h => h.resolve_left nofun⟩

/-- The result of an allocation of more than a pointer is aligned to 16 bytes if it is that of
`malloc`, and otherwise for an even number of words only. -/
theorem fundamental_alignment (henv : env.Ok) (hr : Reachable env depth st) (hok : c.Ok st.held)
    (hc : c.Fundamental usrSize) (husr : 8 < usrSize) (hlt : usrSize < 2 ^ 64)
    (hrun : c.exec (ctxOf env depth) bt st.heap = .ok p s') (hp : p ≠ 0) :
    p % 16 = 0 ↔ c = .malloc usrSize ∨ usrSize % 16 = 0 ∨ 8 < usrSize % 16 := by
  obtain ⟨hinv, heff⟩ := wp_ok (exec_spec (hr.inv henv) hok) hrun
  exact heff.ptr_mod hinv hp hc husr hlt

/-- The 24 bytes that `calloc` returns are not aligned to 16 bytes. -/
theorem calloc_misaligned : ∃ st p s', Reachable (Env.still .defaults) 1 st ∧
    (Call.calloc 1 24).exec (ctxOf (Env.still .defaults) 1) [] st.heap = .ok p s' ∧ p ≠ 0 ∧
    p % 16 ≠ 0 := by
  obtain ⟨st, p, s', hr, hok, hrun, hp, hinv, heff⟩ :=
    exists_calloc 1 24 (by decide) (by decide) (by decide) (by decide)
  refine ⟨st, p, s', hr, hrun, hp, fun h => ?_⟩
  have := (heff.ptr_mod hinv hp (.calloc rfl) (by decide)
    (by decide)).1 h
  exact absurd this (by simp)

theorem fundamental_alignment_calloc : ∃ st p s', Reachable (Env.still .defaults) 1 st ∧
    (Call.calloc 2 16).exec (ctxOf (Env.still .defaults) 1) [] st.heap = .ok p s' ∧ p % 16 = 0 := by
  obtain ⟨st, p, s', hr, hok, hrun, hp, -⟩ :=
    exists_calloc 2 16 (by decide) (by decide) (by decide) (by decide)
  exact ⟨st, p, s', hr, hrun, (fundamental_alignment (Env.still_ok GRArgs.defaults_ok) hr hok
    (.calloc (by decide : 2 * 16 = 32)) (by decide) (by decide) hrun hp).2 (.inr (.inl (by decide)))⟩

end GuardRails
