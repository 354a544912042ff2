import GuardRails.Ledger.History
import GuardRails.Spec.Complete

/-!
# Conservation of blocks

Between two calls every block that was ever cut off a pool is in one place: on the free
list or the list in use of its bin, or in the delay ring of its slot. The header says which
bin and slot that is, and it has said so since the block was labelled.
-/

namespace GuardRails

open ByteMemory

variable {env : Env} {depth : ℕ} {st : Proc} {s : Heap}

inductive Container
  | list (r : HeadRef) | ring (slot : ℕ)
  deriving DecidableEq

/-- The contents of a container, as the variables and the memory have it: along the links
from the head of a list, or from `tail` up to `head` in the ring. -/
def Heap.Contains (s : Heap) : Container → List ℕ → Prop
  | .list r, xs => HeaderList s.mem (s.head r) xs
  | .ring i, xs =>
      let d := (s.memSlots i).delay
      d.tail < maxDelayElms ∧ xs.length < maxDelayElms ∧ d.numDelayed = xs.length ∧
        d.head = (d.tail + xs.length) % maxDelayElms ∧
        RingBuffer.contents d.elms maxDelayElms d.tail xs.length = xs

/-- The container is one for the slot and the bin of the header at `h`. -/
def Container.For (m : Mem) (h : ℕ) : Container → Prop
  | .list r => fld m h .slotNum = r.slot ∧ fld m h .binNum = r.bin
  | .ring i => fld m h .slotNum = i

def Container.magic : Container → ℕ
  | .list ⟨.inUse, _, _⟩ => magicInuse
  | _ => magicFree

structure Stock (s : Heap) (held : Container → List ℕ) : Prop where
  contains : ∀ c, s.Contains c (held c)
  nodup : ∀ c, (held c).Nodup
  carved : ∀ c, ∀ h ∈ held c, ∃ size, .carved h size ∈ s.log
  place : ∀ h size, .carved h size ∈ s.log → ∃! c, h ∈ held c
  labels : ∀ c, ∀ h ∈ held c, c.For s.mem h
  labelled : ∀ h i b, .labelled h i b ∈ s.log → fld s.mem h .slotNum = i ∧ fld s.mem h .binNum = b
  magic : ∀ c, ∀ h ∈ held c, fld s.mem h .magic = c.magic
  numFree : ∀ i b, (s.bin i b).numFree = (held (.list ⟨.free, i, b⟩)).length

def Ledger.contents (L : Ledger) : Container → List ℕ
  | .list r => L.list r
  | .ring i => L.ring i

def Block.container (B : Block) : Option Container :=
  match B.place with
  | .on kind => some (.list ⟨kind, B.slot, B.bin⟩)
  | .ring => some (.ring B.slot)
  | _ => none

theorem Ledger.Sound.mem_contents {L : Ledger} (hL : L.Sound) {c : Container} {h : ℕ} :
    h ∈ L.contents c ↔ ∃ B, L.block h = some B ∧ B.container = some c := by
  cases c with
  | list r =>
      refine (hL.mem_list r h).trans (exists_congr fun B => and_congr_right fun _ => ?_)
      obtain ⟨kind, i, b⟩ := r
      unfold Block.container
      cases B.place <;> simp
  | ring i =>
      refine (hL.mem_ring i h).trans (exists_congr fun B => and_congr_right fun _ => ?_)
      unfold Block.container
      cases B.place <;> simp

theorem Block.Settled.container {B : Block} (hB : B.Settled) : ∃ c, B.container = some c := by
  unfold Block.container
  rcases hB with hp | hp | ⟨hp, -⟩ <;> rw [hp] <;> exact ⟨_, rfl⟩

/-- The lists and the rings in memory are those of the ledger. -/
theorem Shape.contains {L : Ledger} {off : Off} (hS : Shape env off L s) (hL : L.Sound)
    (c : Container) : s.Contains c (L.contents c) := by
  cases c with
  | list r => exact hS.lists r
  | ring i =>
      have hr := hS.rings i
      have hle := hL.ring_le i
      exact ⟨hr.tail_lt, lt_of_le_of_lt hle (by decide), hr.count, hr.head_eq, hr.contents⟩

/-- The header of a block names its container. -/
theorem HeaderOk.container {args : GRArgs} {m : Mem} {h : ℕ} {B : Block} {c : Container}
    (hH : HeaderOk args m h B) (hok : B.Ok h) (hset : B.Settled) (hc : B.container = some c) :
    c.For m h ∧ fld m h .magic = c.magic := by
  have hdead : B.place ≠ .on .inUse → B.live = false := by
    intro hne
    by_contra hl
    obtain ⟨a, q, -, hq, -⟩ := hok.live_owner (by simpa using hl)
    exact hne (hok.request_place (by simp [hq]))
  unfold Block.container at hc
  rcases hset with hp | hp | ⟨hp, hlive⟩ <;> rw [hp, Option.some.injEq] at hc <;> subst hc
  · refine ⟨⟨hH.slotNum, hH.binNum⟩, hH.magic.trans ?_⟩
    rw [hdead (by simp [hp])]
    rfl
  · refine ⟨hH.slotNum, hH.magic.trans ?_⟩
    rw [hdead (by simp [hp])]
    rfl
  · refine ⟨⟨hH.slotNum, hH.binNum⟩, hH.magic.trans ?_⟩
    rw [hlive]
    rfl

theorem Block.Settled.not_raw {B : Block} (hB : B.Settled) : B.place ≠ .raw := by
  rcases hB with hp | hp | ⟨hp, -⟩ <;> simp [hp]

theorem Proc.Inv.stock (hst : st.Inv env) : Stock st.heap (ledger st.heap.log).contents := by
  have hR := hst.rep
  have hlaw := hR.log_ok.lawful
  have hL := hlaw.sound
  have hheader : ∀ c, ∀ h ∈ (ledger st.heap.log).contents c,
      c.For st.heap.mem h ∧ fld st.heap.mem h .magic = c.magic := by
    intro c h hmem
    obtain ⟨B, hB, hc⟩ := hL.mem_contents.1 hmem
    have hset := hst.settled h B hB
    exact (hR.shape.blocks h B hB hset.not_raw).container (hL.block_ok h B hB) hset hc
  refine ⟨hR.shape.contains hL, fun c => ?_, fun c h hmem => ?_, fun h size hc => ?_,
    fun c h hmem => (hheader c h hmem).1, fun h i b hl => ?_, fun c h hmem => (hheader c h hmem).2,
    fun i b => hR.numFree_eq rfl⟩
  · cases c with
    | list r => exact hL.nodup_list r
    | ring i => exact hL.nodup_ring i
  · obtain ⟨B, hB, -⟩ := hL.mem_contents.1 hmem
    exact ⟨B.size, hlaw.carved_of_block hB⟩
  · obtain ⟨B, hB, -⟩ := hlaw.block_of_carved hc
    obtain ⟨c, hc⟩ := (hst.settled h B hB).container
    refine ⟨c, hL.mem_contents.2 ⟨B, hB, hc⟩, fun c' hc' => ?_⟩
    obtain ⟨B', hB', hc'⟩ := hL.mem_contents.1 hc'
    obtain rfl := Option.some.inj (hB.symm.trans hB')
    exact Option.some.inj (hc'.symm.trans hc)
  · obtain ⟨B, hB, hraw, rfl, rfl⟩ := hlaw.block_of_labelled hl
    have hH := hR.shape.blocks h B hB hraw
    exact ⟨hH.slotNum, hH.binNum⟩

/-- No block is lost, and none is in two places. -/
theorem blocks_conserved (henv : env.Ok) (hr : Reachable env depth st) :
    ∃ held, Stock st.heap held :=
  ⟨_, (hr.inv henv).stock⟩

theorem blocks_conserved_malloc : ∃ st a, Reachable (Env.still .defaults) 1 st ∧
    st.held = [(a, 1000)] ∧ ∃ held, Stock st.heap held := by
  obtain ⟨st, a, B, hr, -, hheld, -⟩ := exists_served 1 1000 (by decide) rfl (by decide)
  exact ⟨st, a.ptr, hr, hheld, blocks_conserved (Env.still_ok GRArgs.defaults_ok) hr⟩

end GuardRails
