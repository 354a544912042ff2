import GuardRails.Spec.Drain
import GuardRails.Spec.Shortage

/-!
# Refusals in spite of free blocks

`getBuf` refills a bin that has fewer free blocks than its low-water mark, and it returns
`NULL` when the refill does not reach the high-water mark, whether or not there is a block.
-/

namespace GuardRails

open StateHoare

variable {env : Env} {depth : ℕ} {st : Proc} {bt : List ℕ} {allocSize usrSize : ℕ}

/-- There is a block of class `b` for the request, on the free list or from a pool. -/
def Heap.Available (env : Env) (s : Heap) (b usrSize : ℕ) : Prop :=
  (s.bin (env.slotFor s.clock usrSize) b).headFree ≠ 0 ∨
    ∃ h p, Supply.take env (2 ^ b) ⟨s.memPools, slotTime s.clock usrSize + 1⟩ = .granted h p

/-- What keeps `getBuf` from taking a block, whether or not there is one. -/
def Heap.Denies (env : Env) (s : Heap) (b usrSize : ℕ) : Prop :=
  env.args.numSlots = 0 ∨ s.Lacks env b usrSize ∨ maxAllocPower ≤ log2fast usrSize

/-- The figures of the slot after the request, if it gets a block. -/
def Heap.billFor (env : Env) (s : Heap) (usrSize : ℕ) : ℕ × ℕ × ℕ × ℕ :=
  (s.memSlots (env.slotFor s.clock usrSize)).bill usrSize

/-- The request takes the mark of its slot so far that a dump is due. -/
def Heap.DumpDue (env : Env) (s : Heap) (usrSize : ℕ) : Prop :=
  ((s.billFor env usrSize).2.2.2 + env.args.slotHWMDumpIntervalBytes) % 2 ^ 64 <
    (s.billFor env usrSize).2.2.1

theorem claimBuf_some_iff {b : ℕ} (henv : env.Ok) (hr : Reachable env depth st)
    (hcalm : env.CalmFrom st.heap.clock) (hb : 12 ≤ b) (hbin : b < maxAllocPower) :
    (∃ i hdr s', claimBuf (ctxOf env depth) bt b usrSize st.heap = .ok (i, some hdr) s') ↔
      ¬ st.heap.Denies env b usrSize := by
  have hst := hr.inv henv
  have hctx := ctxOf_ok env depth
  have hready : Ready env False st.heap := ⟨nofun, .inl hst.isInit, nofun⟩
  rcases Nat.eq_zero_or_pos env.args.numSlots with h0 | hslots
  · refine iff_of_false ?_ fun h => h (.inl h0)
    rintro ⟨i, hdr, s', hrun⟩
    exact wp_ok (claimBuf_slotless hctx hcalm hst.rep h0) hrun
  have hclaim : wp (claimBuf (ctxOf env depth) bt b usrSize) _ _ st.heap :=
    claimBuf_run hctx hcalm hst.rep hready hst.gMutex hslots hb hbin
  constructor
  · rintro ⟨i, hdr, s', hrun⟩ hdeny
    obtain ⟨-, -, -, hsome⟩ := wp_ok hclaim hrun
    obtain ⟨hlack, hlt, -⟩ := hsome nofun
    rcases hdeny with h | h | h
    · omega
    · exact hlack h
    · exact absurd hlt (not_lt.2 h)
  · intro hdeny
    have hlack : ¬ st.heap.Lacks env b usrSize := fun h => hdeny (.inr (.inl h))
    cases hrun : claimBuf (ctxOf env depth) bt b usrSize st.heap with
    | ok r s' =>
        obtain ⟨i, _ | hdr⟩ := r
        · obtain ⟨-, -, hnone, -⟩ := wp_ok hclaim hrun
          obtain ⟨hs, p, hsh, -⟩ := hnone rfl
          exact absurd hsh.lack hlack
        · exact ⟨i, hdr, s', rfl⟩
    | error e s' =>
        obtain ⟨-, h, -⟩ := wp_error hclaim hrun
        rcases h with h | h
        · exact absurd h hlack
        · exact absurd (.inr (.inr h)) hdeny

/-- Without limits there is no limit to reach. -/
theorem Heap.Low.allows {s : Heap} (hlow : s.Low) (hu : env.Undisturbed) : s.Allows env usrSize := by
  have hS := hlow (env.slotFor s.clock usrSize)
  have hhwm := hS.hwm
  have hsub : ∀ a b, sub64 a b < 2 ^ 64 := fun a b => Nat.mod_lt _ (by norm_num)
  unfold Heap.Allows MemSlot.bill
  dsimp only
  rw [hS.last, hu.interval, hu.limit]
  exact ⟨Nat.le_of_lt_succ (max_lt hhwm (hsub _ _)), Nat.le_of_lt_succ (Nat.mod_lt _ (by norm_num))⟩

/-- Above the limit a request is not served. -/
theorem getBuf_exceeds {b : ℕ} (henv : env.Ok) (hr : Reachable env depth st)
    (hcalm : env.CalmFrom st.heap.clock) (hslots : 0 < env.args.numSlots) (hb12 : 12 ≤ b)
    (hb : log2fast (max pageSize allocSize) = b) (hbin : b < maxAllocPower)
    (hdue : ¬ st.heap.DumpDue env usrSize)
    (hlimit : env.args.maxRequestedBytes < (st.heap.billFor env usrSize).1) :
    wp (getBuf (ctxOf env depth) bt allocSize usrSize) (fun r _ => r.1 = 0) (fun _ _ => True)
      st.heap := by
  have hst := hr.inv henv
  have hctx := ctxOf_ok env depth
  have hready : Ready env False st.heap := ⟨nofun, .inl hst.isInit, nofun⟩
  rw [getBuf_eq, hb]
  refine wp_bind (wp_mono (claimBuf_run hctx hcalm hst.rep hready hst.gMutex hslots hb12 hbin) ?_
    fun _ _ _ => trivial)
  rintro ⟨i, _ | hdr⟩ s₁ ⟨rfl, ht, -, hsome⟩
  · refine wp_bind (wp_pthreadMutexUnlock (wp_bind_of (wp_trivial _) fun _ _ _ => ?_))
    exact wp_pure rfl
  · obtain ⟨-, -, -, hargs, hfig⟩ := hsome nofun
    rw [hst.rep.shape.args_eq] at hargs
    unfold Heap.DumpDue at hdue
    unfold Heap.billFor at hdue hlimit
    rw [← hfig, ← hargs] at hdue hlimit
    exact wp_bind_of (limitDumps_exceeds hctx.env_eq hcalm ht (not_lt.1 hdue) hlimit)
      fun _ _ h => h.elim

/-- A request for which there is a block gets one exactly when its size has a class, and the bin
is not refilled or is refilled up to its high-water mark; where no dump is due the block is
returned, below the limit. -/
theorem refused_available_iff (henv : env.Ok) (hr : Reachable env depth st)
    (hcalm : env.CalmFrom st.heap.clock) (halloc : allocSize < 2 ^ 64)
    (hbin : log2fast (max pageSize allocSize) < maxAllocPower) :
    ((st.heap.Available env (log2fast (max pageSize allocSize)) usrSize →
      ∃ i hdr s', claimBuf (ctxOf env depth) bt (log2fast (max pageSize allocSize)) usrSize st.heap =
        .ok (i, some hdr) s') ↔
      ¬ (st.heap.Available env (log2fast (max pageSize allocSize)) usrSize ∧
        st.heap.Denies env (log2fast (max pageSize allocSize)) usrSize)) ∧
    (¬ st.heap.DumpDue env usrSize →
      ((st.heap.Available env (log2fast (max pageSize allocSize)) usrSize →
        ∃ r s', getBuf (ctxOf env depth) bt allocSize usrSize st.heap = .ok r s' ∧ r.1 ≠ 0) ↔
        ¬ (st.heap.Available env (log2fast (max pageSize allocSize)) usrSize ∧
          (st.heap.Denies env (log2fast (max pageSize allocSize)) usrSize ∨
            env.args.maxRequestedBytes < (st.heap.billFor env usrSize).1)))) := by
  have hst := hr.inv henv
  have hctx := ctxOf_ok env depth
  have hready : Ready env False st.heap := ⟨nofun, .inl hst.isInit, nofun⟩
  have hb : 12 ≤ log2fast (max pageSize allocSize) := by
    have : max pageSize allocSize = max 4096 allocSize := rfl
    exact le_log2fast_page (by omega) (by omega)
  generalize hc : log2fast (max pageSize allocSize) = b at hbin hb ⊢
  have hclaims : (∃ i hdr s', claimBuf (ctxOf env depth) bt b usrSize st.heap = .ok (i, some hdr) s') ↔
      _ := claimBuf_some_iff henv hr hcalm hb hbin
  refine ⟨?_, fun hdue => ?_⟩
  · rw [hclaims]
    tauto
  · have hiff : (∃ r s', getBuf (ctxOf env depth) bt allocSize usrSize st.heap = .ok r s' ∧ r.1 ≠ 0) ↔
        ¬ (st.heap.Denies env b usrSize ∨ env.args.maxRequestedBytes < (st.heap.billFor env usrSize).1) := by
      constructor
      · rintro ⟨r, s', hrun, h0⟩ hdeny
        rcases Nat.eq_zero_or_pos env.args.numSlots with hnone | hslots
        · rw [getBuf_eq, hc] at hrun
          obtain ⟨r', s'', hrun', -⟩ := run_bind_eq_ok hrun
          exact wp_ok (claimBuf_slotless hctx hcalm hst.rep hnone) hrun'
        have hr0 : r.1 = 0 := by
          rcases hdeny with (h | h) | h
          · omega
          · exact (wp_ok (getBuf_denied hctx hcalm hst.rep hready hst.gMutex hslots halloc hc.symm hbin h) hrun).1
          · have hr0 := wp_ok (getBuf_exceeds henv hr hcalm hslots hb hc hbin hdue h) hrun
            exact hr0
        exact h0 hr0
      · intro hdeny
        have hslots : 0 < env.args.numSlots := Nat.pos_of_ne_zero fun h => hdeny (.inl (.inl h))
        have hallow : st.heap.Allows env usrSize :=
          ⟨not_lt.1 hdue, not_lt.1 fun h => hdeny (.inr h)⟩
        have hget : wp (getBuf (ctxOf env depth) bt allocSize usrSize) _ _ st.heap :=
          getBuf_supplied hctx hcalm hst.rep hready hst.gMutex hslots halloc hc.symm hbin
            (not_le.1 fun h => hdeny (.inl (.inr (.inr h)))) (fun h => hdeny (.inl (.inr (.inl h)))) hallow
        obtain ⟨r, s', hrun, h0⟩ := wp_returns hget
        exact ⟨r, s', hrun, h0⟩
    rw [hiff]
    tauto

theorem refused_available_drained : ∃ st, Reachable (Env.still .defaults) 1 st ∧
    st.heap.Available (Env.still .defaults) 17 100000 ∧
    ¬ ∃ r s', getBuf (ctxOf (Env.still .defaults) 1) [] 100088 100000 st.heap = .ok r s' ∧
      r.1 ≠ 0 := by
  obtain ⟨st, P, hr, h⟩ := exists_drained 1
  obtain ⟨hhead, hs, p, -, hsh⟩ := h.short 100000
  have hslot : (Env.still .defaults).slotFor st.heap.clock 100000 = 0 := Nat.mod_one _
  have havail : st.heap.Available (Env.still .defaults) 17 100000 := .inl (by rwa [hslot])
  have hclass : log2fast (max pageSize 100088) = 17 := by decide
  have hdue : ¬ st.heap.DumpDue (Env.still .defaults) 100000 :=
    not_lt.2 (h.dry.idle.pristine.low.allows Env.still_undisturbed).1
  have halloc : 100088 < 2 ^ 64 := by decide
  have hbin : log2fast (max pageSize 100088) < maxAllocPower := by decide
  refine ⟨st, hr, havail, fun hserved => ?_⟩
  refine ((refused_available_iff (Env.still_ok GRArgs.defaults_ok) hr (fun _ _ _ => rfl) halloc hbin).2
    hdue).1 (fun _ => hserved) ?_
  rw [hclass]
  exact ⟨havail, .inl (.inr (.inl hsh.lack))⟩

/-- The bin of class 17 has 99 free blocks, and `malloc(100000)` returns `NULL`. -/
theorem null_in_spite_of_blocks : ∃ st s', Reachable (Env.still .defaults) 1 st ∧
    (st.heap.bin 0 17).numFree = 99 ∧ st.heap.Available (Env.still .defaults) 17 100000 ∧
    (Call.malloc 100000).exec (ctxOf (Env.still .defaults) 1) [] st.heap = .ok 0 s' := by
  obtain ⟨st, P, hr, h⟩ := exists_drained 1
  have hst := h.dry.idle.inv
  obtain ⟨hhead, hs, p, -, hsh⟩ := h.short 100000
  have hslot : (Env.still .defaults).slotFor st.heap.clock 100000 = 0 := Nat.mod_one _
  have hclass : 17 = classOf (Env.still .defaults).args 16 100000 := by decide
  have hmem : wp (memalignInt (ctxOf (Env.still .defaults) 1) [] 16 100000) _ _ st.heap :=
    (hclass ▸ hsh).memalignInt (ctxOf_ok _ 1) (fun _ _ _ => rfl) hst.rep hst.isInit hst.gMutex rfl
      (by decide)
  obtain ⟨_, s', hrun, rfl, -⟩ := wp_returns hmem
  exact ⟨st, s', hr, h.numFree, .inl (by rwa [hslot]), hrun⟩

end GuardRails
