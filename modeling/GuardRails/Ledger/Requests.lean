import GuardRails.Ledger.Basic

/-!
# The blocks in use of a slot

A dump goes through the blocks in use of a slot, class by class. The requests that are counted
in the slot and not counted off are those of these blocks.
-/

namespace GuardRails

variable {h i : ℕ} {q : Request}

namespace Ledger

variable {L : Ledger}

def inUse (L : Ledger) (i : ℕ) : List ℕ :=
  (List.range maxAllocPower).flatMap fun b => L.list ⟨.inUse, i, b⟩

def request (L : Ledger) (h : ℕ) : Option Request := (L.block h).bind Block.request

def requests (L : Ledger) (i : ℕ) : List Request := (L.inUse i).filterMap L.request

/-- There is a class for every block that was labelled. -/
def Classed (L : Ledger) : Prop :=
  ∀ h B, L.block h = some B → B.place ≠ .raw → B.bin < maxAllocPower

theorem request_eq_some : L.request h = some q ↔ ∃ B, L.block h = some B ∧ B.request = some q :=
  Option.bind_eq_some_iff

theorem Sound.request_hdr (hL : L.Sound) (hq : L.request h = some q) : q.hdr = h := by
  obtain ⟨B, hB, hreq⟩ := request_eq_some.1 hq
  exact (hL.block_ok h B hB).request_hdr q hreq

theorem Sound.slot_of_mem (hL : L.Sound) (hh : h ∈ L.inUse i) :
    ∃ B, L.block h = some B ∧ B.place = .on .inUse ∧ B.slot = i := by
  obtain ⟨b, -, hb⟩ := List.mem_flatMap.1 hh
  obtain ⟨B, hB, hp, hs, -⟩ := (hL.mem_list _ h).1 hb
  exact ⟨B, hB, hp, hs⟩

theorem Sound.mem_inUse (hL : L.Sound) (hc : L.Classed) :
    h ∈ L.inUse i ↔ ∃ B, L.block h = some B ∧ B.place = .on .inUse ∧ B.slot = i := by
  refine ⟨hL.slot_of_mem, ?_⟩
  rintro ⟨B, hB, hp, hs⟩
  have hbin : B.bin < maxAllocPower := hc h B hB (by simp [hp])
  exact List.mem_flatMap.2 ⟨B.bin, List.mem_range.2 hbin, (hL.mem_list _ h).2 ⟨B, hB, hp, hs, rfl⟩⟩

theorem Sound.nodup_inUse (hL : L.Sound) (i : ℕ) : (L.inUse i).Nodup := by
  refine List.nodup_flatMap.2 ⟨fun b _ => hL.nodup_list _, ?_⟩
  refine List.nodup_range.imp fun hne => ?_
  intro h hb hb'
  obtain ⟨B, hB, -, -, rfl⟩ := (hL.mem_list _ h).1 hb
  obtain ⟨A, hA, -, -, rfl⟩ := (hL.mem_list _ h).1 hb'
  exact hne (congrArg Block.bin (Option.some.inj (hB.symm.trans hA)))

/-- Every request counted in the slot has its block among those in use. -/
def Listed (L : Ledger) (i : ℕ) : Prop := ∀ q ∈ L.counted i, q.hdr ∈ L.inUse i

theorem Sound.listed (hL : L.Sound) (hc : L.Classed) (i : ℕ) : L.Listed i := by
  intro q hq
  obtain ⟨B, hB, hs, hreq⟩ := (hL.mem_counted i q).1 hq
  have hp : B.place = .on .inUse := (hL.block_ok _ B hB).request_place (by simp [hreq])
  exact (hL.mem_inUse hc).2 ⟨B, hB, hp, hs⟩

theorem Sound.mem_requests (hL : L.Sound) (hl : L.Listed i) : q ∈ L.requests i ↔ q ∈ L.counted i := by
  unfold requests
  rw [List.mem_filterMap]
  constructor
  · rintro ⟨h, hh, hq⟩
    obtain rfl := hL.request_hdr hq
    obtain ⟨B, hB, -, hs⟩ := hL.slot_of_mem hh
    obtain ⟨A, hA, hreq⟩ := request_eq_some.1 hq
    obtain rfl := Option.some.inj (hB.symm.trans hA)
    exact (hL.mem_counted i q).2 ⟨B, hB, hs, hreq⟩
  · intro hq
    obtain ⟨B, hB, -, hreq⟩ := (hL.mem_counted i q).1 hq
    exact ⟨q.hdr, hl q hq, request_eq_some.2 ⟨B, hB, hreq⟩⟩

/-- The requests counted in a slot are those of its blocks in use. -/
theorem Sound.requests_perm (hL : L.Sound) (hl : L.Listed i) : (L.requests i).Perm (L.counted i) := by
  have hnodup : (L.requests i).Nodup :=
    (hL.nodup_inUse i).filterMap fun x y q hx hy => (hL.request_hdr hx).symm.trans (hL.request_hdr hy)
  exact (List.perm_ext_iff_of_nodup hnodup (hL.nodup_counted i).of_map).2 fun _ => hL.mem_requests hl

/-- What the requests of the blocks have in common with the blocks. -/
theorem map_requests {α : Type} {f : Request → α} {g : ℕ → α}
    (hg : ∀ h ∈ L.inUse i, ∃ q, L.request h = some q ∧ f q = g h) :
    (L.requests i).map f = (L.inUse i).map g := by
  unfold requests
  generalize L.inUse i = hs at hg
  induction hs with
  | nil => rfl
  | cons h hs ih =>
      obtain ⟨q, hq, hfg⟩ := hg h List.mem_cons_self
      rw [List.filterMap_cons_some hq, List.map_cons, List.map_cons, hfg,
        ih fun x hx => hg x (List.mem_cons_of_mem h hx)]

end Ledger

end GuardRails
