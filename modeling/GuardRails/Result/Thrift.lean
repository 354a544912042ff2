import GuardRails.Spec.Drain
import GuardRails.Spec.Frugal
import Mathlib.Algebra.Order.BigOperators.Group.Finset

/-!
# How much memory the bins take

Freed memory is used again. Without signals, the bytes that are ever cut off the pools are bounded
by what the constructor sets aside and by what each bin has lent at one time, however many requests
and dumps the run has. And a bin with marks is kept filled: it never has fewer blocks left than one
below its low-water mark, until the system refuses memory.
-/

namespace GuardRails

variable {env : Env} {depth i b : ℕ} {st : Proc}

theorem GRArgs.water_high (args : GRArgs) (i b : ℕ) :
    (args.water i b).2 = if i < args.numSlots ∧ b ∈ markedBins then 200 else 0 := by
  unfold GRArgs.water
  by_cases hm : args.Marks i b
  · have hib : i < args.numSlots ∧ b ∈ markedBins := hm
    rw [if_pos hm, if_pos hib]
  · have hib : ¬ (i < args.numSlots ∧ b ∈ markedBins) := hm
    rw [if_neg hm, if_neg hib]

/-- The marks of one slot cost what `initBinsMeta` sums up. -/
theorem GRArgs.sum_water (args : GRArgs) (hi : i < args.numSlots) :
    ∑ b ∈ Finset.range maxAllocPower, (args.water i b).2 * (2 ^ b + guardSize) = slotInitSize := by
  simp only [args.water_high, hi, true_and]
  decide

/-- Memory is taken for the most that the bins have lent, not for every request. -/
theorem memory_bounded (henv : env.Ok) (hcalm : env.Calm) (hr : Reachable env depth st) :
    (∀ i b, ∃ l, l <:+ st.heap.log ∧ (supplied i b st.heap.log).length ≤
      ((ledger l).lent i b).length + if i < env.args.numSlots ∧ b ∈ markedBins then 200 else 0) ∧
    poolsUsed st.heap.memPools ≤ env.args.numSlots * slotInitSize +
      ∑ i ∈ Finset.range env.args.numSlots, ∑ b ∈ Finset.range maxAllocPower,
        peakLent i b st.heap.log * (2 ^ b + guardSize) := by
  have ht := hr.thrifty henv hcalm
  constructor
  · intro i b
    obtain ⟨l, hl, hpeak⟩ := (isGreatest_peakLent i b st.heap.log).1
    refine ⟨l, hl, ?_⟩
    rw [hpeak, ← env.args.water_high]
    exact ht.supplied_le i b
  · have hslot : ∀ i ∈ Finset.range env.args.numSlots,
        ∑ b ∈ Finset.range maxAllocPower, (supplied i b st.heap.log).length * (2 ^ b + guardSize) ≤
          slotInitSize +
            ∑ b ∈ Finset.range maxAllocPower, peakLent i b st.heap.log * (2 ^ b + guardSize) := by
      intro i hi
      rw [← env.args.sum_water (Finset.mem_range.1 hi), ← Finset.sum_add_distrib]
      refine Finset.sum_le_sum fun b _ => ?_
      rw [← Nat.add_mul]
      exact Nat.mul_le_mul_right _ ((ht.supplied_le i b).trans (Nat.add_comm _ _).le)
    calc poolsUsed st.heap.memPools
        = suppliedBytes env.args.numSlots st.heap.log := ht.used
      _ ≤ ∑ i ∈ Finset.range env.args.numSlots, (slotInitSize +
            ∑ b ∈ Finset.range maxAllocPower, peakLent i b st.heap.log * (2 ^ b + guardSize)) :=
          Finset.sum_le_sum hslot
      _ = _ := by rw [Finset.sum_add_distrib, Finset.sum_const, Finset.card_range, Nat.nsmul_eq_mul]

theorem memory_bounded_malloc : ∃ st a, Reachable (Env.still .defaults) 1 st ∧
    st.held = [(a, 1000)] ∧ poolsUsed st.heap.memPools ≤ slotInitSize +
      ∑ b ∈ Finset.range maxAllocPower, peakLent 0 b st.heap.log * (2 ^ b + guardSize) := by
  obtain ⟨st, a, B, hr, -, hheld, -⟩ := exists_served 1 1000 (by decide) rfl (by decide)
  refine ⟨st, a.ptr, hr, hheld, ?_⟩
  have h := (memory_bounded (Env.still_ok GRArgs.defaults_ok) (fun _ _ => rfl) hr).2
  have hone : (Env.still .defaults).args.numSlots = 1 := rfl
  rwa [hone, Nat.one_mul, Finset.sum_range_one] at h

/-- The low-water mark is kept up to one block. -/
theorem stock_kept (henv : env.Ok) (hcalm : env.Calm) (hr : Reachable env depth st)
    (hgranted : .mmapFailed ∉ st.heap.log) (hi : i < env.args.numSlots) (hb : b ∈ markedBins) :
    99 ≤ (st.heap.bin i b).numFree := by
  rw [(hr.inv henv).rep.numFree_eq rfl]
  exact (hr.thrifty henv hcalm).stocked.resolve_left hgranted i b ⟨hi, hb⟩

theorem stock_kept_drained : ∃ st, Reachable (Env.still .defaults) 1 st ∧
    (st.heap.bin 0 17).numFree = 99 ∧ ∀ b ∈ markedBins, 99 ≤ (st.heap.bin 0 b).numFree := by
  obtain ⟨st, P, hr, hdry, hnum, -⟩ := exists_drained 1
  refine ⟨st, hr, hnum, fun b hb => ?_⟩
  exact stock_kept (Env.still_ok GRArgs.defaults_ok) (fun _ _ => rfl) hr
    (fun hf => hdry.idle.pristine.plain _ hf) (by decide) hb

end GuardRails
