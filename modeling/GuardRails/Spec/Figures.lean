import GuardRails.Ledger.Requests
import GuardRails.Spec.Dump

/-!
# Figures between calls

The counters are words, and what they count lies in an address space of `2 ^ 47` bytes:
there are too few blocks for a count of them to wrap.
-/

namespace GuardRails

variable {env : Env} {off : Off} {L : Ledger} {s : Heap} {i b : ℕ}

/-- Headers lie on different pages. -/
theorem Layout.length_lt (hY : Layout s.memPools L) {xs : List ℕ} (hd : xs.Nodup)
    (hxs : ∀ x ∈ xs, ∃ B, L.block x = some B) : xs.length < 2 ^ 36 := by
  have hsub : xs ⊆ (List.range (2 ^ 35)).map (4096 * ·) := by
    intro x hx
    obtain ⟨B, hB⟩ := hxs x hx
    have hb := hY.block_bounds hB
    exact List.mem_map.2 ⟨x / 4096, List.mem_range.2 (by omega), by omega⟩
  have hlen := (hd.subperm hsub).length_le
  rw [List.length_map, List.length_range] at hlen
  omega

theorem Rep.list_length_lt (hR : Rep env off s) (r : HeadRef) :
    ((ledger s.log).list r).length < 2 ^ 36 := by
  have hL := hR.log_ok.lawful.sound
  refine hR.shape.layout.length_lt (hL.nodup_list r) fun x hx => ?_
  obtain ⟨B, hB, -⟩ := (hL.mem_list r x).1 hx
  exact ⟨B, hB⟩

theorem Rep.classed (hR : Rep env off s) : (ledger s.log).Classed := fun _ _ => hR.bin_lt

/-- `numFree` is the length of the free list. -/
theorem Rep.numFree_eq (hR : Rep env off s) (hoff : off (.free i b) = 0) :
    (s.bin i b).numFree = ((ledger s.log).list ⟨.free, i, b⟩).length := by
  have hmod := hR.shape.counts.modEq (.free i b)
  have hlt := hR.shape.counts.numFree_lt i b
  have hlen := hR.list_length_lt ⟨.free, i, b⟩
  rw [hoff, Int.add_zero] at hmod
  simp only [heapCount, Ledger.count, Int.ModEq] at hmod
  omega

end GuardRails
