import GuardRails.Ledger.History
import GuardRails.Spec.Complete
import GuardRails.Spec.Sealing

/-!
# The blocks tile the pools

What has been cut off a pool are blocks and the guard pages behind them, with nothing between them
and nothing lost: each of its bytes belongs to one block, which is on a free list, in a delay ring
or in use. A guard page stays closed to the end of the process and keeps the magic that
`getFromPool` wrote there.
-/

namespace GuardRails

open ByteMemory

variable {env : Env} {depth h x : ℕ} {st : Proc} {B : Block}

def Block.Owns (B : Block) (h x : ℕ) : Prop := h ≤ x ∧ x < h + B.size + guardSize

/-- The used parts of the pools consist of blocks with guard pages. -/
structure Tiled (s : Heap) : Prop where
  cover : ∀ x, s.Used x → ∃! h, ∃ B, (ledger s.log).block h = some B ∧ B.Owns h x
  inside : ∀ h B, (ledger s.log).block h = some B → ∀ x, B.Owns h x → s.Used x
  settled : ∀ h B, (ledger s.log).block h = some B → B.Settled
  guard : ∀ h B, (ledger s.log).block h = some B → s.HasGuard (h + B.size)

/-- A block that is put on a list is opened as far as it goes, and no further. -/
theorem Reachable.spared (henv : env.Ok) (hr : Reachable env depth st)
    (hB : (ledger st.heap.log).block h = some B) : Spared st.heap.log ((h + B.size) / 4096) := by
  have hR := (hr.inv henv).rep
  have hY := hR.shape.layout
  have hl := hR.log_ok.lawful
  rintro r a hmem ⟨hlow, hhigh⟩
  obtain ⟨A, hA, hraw, -, hbin⟩ := hl.block_of_linked hmem
  have hsize : 2 ^ r.bin = A.size := by
    rw [← hbin]
    exact ((hl.sound.block_ok a A hA).size_eq hraw).symm
  have ha := hY.block_bounds hA
  have hh := hY.block_bounds hB
  rw [hsize] at hhigh
  by_cases heq : a = h
  · subst heq
    obtain rfl := Option.some.inj (hA.symm.trans hB)
    omega
  · have hsep := hY.sep a h A B hA hB heq
    unfold Apart at hsep
    omega

theorem Reachable.hasGuard (henv : env.Ok) (hr : Reachable env depth st)
    (hB : (ledger st.heap.log).block h = some B) : st.heap.HasGuard (h + B.size) :=
  hr.sealed.guard h B.size ((hr.inv henv).rep.log_ok.lawful.carved_of_block hB)
    (Set.notMem_empty _) (hr.spared henv hB)

theorem Reachable.block_of_used (henv : env.Ok) (hr : Reachable env depth st)
    (hx : st.heap.Used x) : ∃ h B, (ledger st.heap.log).block h = some B ∧ B.Owns h x := by
  rcases hr.sealed.used x hx with ⟨P, hP, -⟩ | ⟨h, n, hmem, hlow, hhigh⟩
  · exact absurd hP List.not_mem_nil
  · obtain ⟨B, hB, rfl⟩ := (hr.inv henv).rep.log_ok.lawful.block_of_carved hmem
    exact ⟨h, B, hB, hlow, hhigh⟩

theorem Layout.used_of_owns {s : Heap} (hY : Layout s.memPools (ledger s.log))
    (hB : (ledger s.log).block h = some B) (hx : B.Owns h x) : s.Used x := by
  obtain ⟨P, hP, hstart, hend⟩ := (hY.block h B hB).inPool
  obtain ⟨h₁, h₂⟩ : h ≤ x ∧ x < h + B.size + 4096 := hx
  exact ⟨P, hP, by omega, by omega⟩

/-- In every state between two calls. -/
theorem pools_tiled (henv : env.Ok) (hr : Reachable env depth st) : Tiled st.heap where
  cover x hx := by
    have hY := (hr.inv henv).rep.shape.layout
    obtain ⟨h, B, hB, hown⟩ := hr.block_of_used henv hx
    refine ⟨h, ⟨B, hB, hown⟩, ?_⟩
    rintro a ⟨A, hA, hown'⟩
    by_contra hne
    have hsep := hY.sep a h A B hA hB hne
    obtain ⟨h₁, h₂⟩ : h ≤ x ∧ x < h + B.size + 4096 := hown
    obtain ⟨h₃, h₄⟩ : a ≤ x ∧ x < a + A.size + 4096 := hown'
    unfold Apart at hsep
    omega
  inside _ _ hB _ hx := (hr.inv henv).rep.shape.layout.used_of_owns hB hx
  settled h B hB := (hr.inv henv).settled h B hB
  guard h B hB := hr.hasGuard henv hB

theorem pools_tiled_still : ∃ st, Reachable (Env.still .defaults) 1 st ∧ Tiled st.heap := by
  have henv := Env.still_ok GRArgs.defaults_ok
  obtain ⟨st, hr, -⟩ := Proc.Idle.reachable henv (Env.still_granting rfl) 1
  exact ⟨st, hr, pools_tiled henv hr⟩

end GuardRails
