import GuardRails.Ledger.History
import Mathlib.Algebra.BigOperators.Ring.Finset

/-!
# What a bin was given and what it lends

A bin is given a block once, when `replenishBin` labels it. Between two moves each of its blocks
is on its free list or lent: in use, or in the delay ring of the slot. So a bin that is only given
blocks when it has few left has not been given many more than it once lent at the same time.
-/

namespace GuardRails

variable {L : Ledger} {log evs : List Event} {e : Event} {h i j b c n : ℕ}

/-- A bin is given a block, or a free list loses one. -/
def Event.deals : Event → Bool
  | .labelled _ _ _ => true
  | .unlinked r _ => decide (r.kind = .free)
  | _ => false

def Event.supplied? (i b : ℕ) : Event → Option ℕ
  | .labelled h j c => if j = i ∧ c = b then some h else none
  | _ => none

def supplied (i b : ℕ) (log : List Event) : List ℕ := log.filterMap (Event.supplied? i b)

def Ledger.lent (L : Ledger) (i b : ℕ) : List ℕ :=
  L.list ⟨.inUse, i, b⟩ ++ (L.ring i).filter fun h => (L.block h).map Block.bin = some b

/-- The number of blocks that a bin lent when it lent most. -/
def peakLent (i b : ℕ) : List Event → ℕ
  | [] => 0
  | e :: log => max (peakLent i b log) ((ledger (e :: log)).lent i b).length

/-- No block is in the hands of a function. -/
def Ledger.Homed (L : Ledger) : Prop :=
  ∀ h B, L.block h = some B → B.place ≠ .raw ∧ B.place ≠ .held

theorem mem_supplied : h ∈ supplied i b log ↔ .labelled h i b ∈ log := by
  constructor
  · intro hmem
    obtain ⟨e, he, hsup⟩ := List.mem_filterMap.1 hmem
    cases e with
    | labelled x j c =>
        have hc : (if j = i ∧ c = b then some x else none) = some h := hsup
        obtain ⟨⟨rfl, rfl⟩, hx⟩ := Option.ite_none_right_eq_some.1 hc
        exact Option.some.inj hx ▸ he
    | _ => cases hsup
  · intro hmem
    exact List.mem_filterMap.2 ⟨_, hmem, if_pos ⟨rfl, rfl⟩⟩

/-- A block is given to a bin once. -/
theorem Lawful.nodup_supplied (hl : Lawful log) (i b : ℕ) : (supplied i b log).Nodup := by
  induction log with
  | nil => exact List.nodup_nil
  | cons e log ih =>
      unfold supplied at ih ⊢
      rw [List.filterMap_cons]
      cases hsup : e.supplied? i b with
      | none => exact ih hl.1
      | some h =>
          refine List.nodup_cons.2 ⟨fun hmem => ?_, ih hl.1⟩
          obtain ⟨A, hA, hraw, -⟩ := hl.1.block_of_labelled (mem_supplied.1 hmem)
          cases e with
          | labelled x j c =>
              have hc : (if j = i ∧ c = b then some x else none) = some h := hsup
              obtain ⟨-, hx⟩ := Option.ite_none_right_eq_some.1 hc
              obtain rfl := Option.some.inj hx
              obtain ⟨B, hB, hp, -⟩ := hl.2
              exact hraw (Option.some.inj (hA.symm.trans hB) ▸ hp)
          | _ => cases hsup

/-- Nothing that a bin was given is lost. -/
theorem Lawful.supplied_le (hl : Lawful log) (hH : (ledger log).Homed) (i b : ℕ) :
    (supplied i b log).length ≤
      ((ledger log).list ⟨.free, i, b⟩).length + ((ledger log).lent i b).length := by
  have hS := hl.sound
  have hsub : supplied i b log ⊆ (ledger log).list ⟨.free, i, b⟩ ++ (ledger log).lent i b := by
    intro h hmem
    obtain ⟨B, hB, -, hs, hb⟩ := hl.block_of_labelled (mem_supplied.1 hmem)
    obtain ⟨hraw, hheld⟩ := hH h B hB
    cases hp : B.place with
    | raw => exact absurd hp hraw
    | held => exact absurd hp hheld
    | ring =>
        refine List.mem_append_right _ (List.mem_append_right _ (List.mem_filter.2 ⟨?_, ?_⟩))
        · exact (hS.mem_ring_iff hB i).2 ⟨hp, hs⟩
        · simp [hB, hb]
    | on kind =>
        have hon := (hS.mem_list_iff hB ⟨kind, i, b⟩).2 ⟨hp, hs, hb⟩
        cases kind with
        | free => exact List.mem_append_left _ hon
        | inUse => exact List.mem_append_right _ (List.mem_append_left _ hon)
  rw [← List.length_append]
  exact ((hl.nodup_supplied i b).subperm hsub).length_le

/-! ## The most that was lent -/

theorem lent_le_peakLent (i b : ℕ) (log : List Event) :
    ((ledger log).lent i b).length ≤ peakLent i b log := by
  cases log with
  | nil => exact le_rfl
  | cons e log => exact le_max_right _ _

theorem peakLent_le_append (i b : ℕ) (evs log : List Event) :
    peakLent i b log ≤ peakLent i b (evs ++ log) := by
  induction evs with
  | nil => exact le_rfl
  | cons e evs ih => exact ih.trans (le_max_left _ _)

/-- It is the greatest number of blocks that the bin has lent so far. -/
theorem isGreatest_peakLent (i b : ℕ) (log : List Event) :
    IsGreatest {n | ∃ l, l <:+ log ∧ ((ledger l).lent i b).length = n} (peakLent i b log) := by
  constructor
  · induction log with
    | nil => exact ⟨[], List.suffix_rfl, rfl⟩
    | cons e log ih =>
        rcases le_total (peakLent i b log) ((ledger (e :: log)).lent i b).length with hle | hle
        · exact ⟨e :: log, List.suffix_rfl, (max_eq_right hle).symm⟩
        · obtain ⟨l, hl, heq⟩ := ih
          exact ⟨l, hl.trans (List.suffix_cons e log), heq.trans (max_eq_left hle).symm⟩
  · rintro _ ⟨l, ⟨evs, rfl⟩, rfl⟩
    exact (lent_le_peakLent i b l).trans (peakLent_le_append i b evs l)

/-! ## Events that deal nothing -/

theorem supplied_append (i b : ℕ) (evs log : List Event) :
    supplied i b (evs ++ log) = supplied i b evs ++ supplied i b log := List.filterMap_append

theorem supplied_filter (i b : ℕ) (log : List Event) :
    supplied i b (log.filter Event.deals) = supplied i b log := by
  unfold supplied
  rw [List.filterMap_filter]
  congr 1
  funext e
  cases e with
  | labelled h j c => rfl
  | unlinked r h => exact ite_self none
  | _ => rfl

theorem supplied_of_dealt (h : evs.filter Event.deals = []) (i b : ℕ) (log : List Event) :
    supplied i b (evs ++ log) = supplied i b log := by
  rw [supplied_append, ← supplied_filter i b evs, h]
  rfl

theorem Ledger.length_le_step (he : e.deals = false) (i b : ℕ) :
    (L.list ⟨.free, i, b⟩).length ≤ ((L.step e).list ⟨.free, i, b⟩).length := by
  cases e with
  | linked r h =>
      change _ ≤ (Function.update L.list r (h :: L.list r) ⟨.free, i, b⟩).length
      rw [Function.update_apply]
      split
      · rename_i hr
        rw [hr]
        exact Nat.le_succ _
      · exact le_rfl
  | unlinked r h =>
      have hr : (⟨.free, i, b⟩ : HeadRef) ≠ r := by
        rintro rfl
        exact Bool.false_ne_true he.symm
      exact (congrArg List.length (Function.update_of_ne hr _ _)).ge
  | _ => exact le_rfl

/-- A free list does not lose anything then. -/
theorem free_le_of_dealt (h : evs.filter Event.deals = []) (i b : ℕ) (log : List Event) :
    ((ledger log).list ⟨.free, i, b⟩).length ≤ ((ledger (evs ++ log)).list ⟨.free, i, b⟩).length := by
  induction evs with
  | nil => exact le_rfl
  | cons e evs ih =>
      rw [List.filter_eq_nil_iff] at h ih
      refine (ih fun e he => h e (List.mem_cons_of_mem _ he)).trans (Ledger.length_le_step ?_ i b)
      exact Bool.eq_false_iff.2 (h e List.mem_cons_self)

/-- A block that is taken into use is missing on its free list only. -/
theorem Lawful.free_of_taken
    (hl : Lawful (.linked ⟨.inUse, i, b⟩ h :: .unlinked ⟨.free, i, b⟩ h :: log)) (j c : ℕ) :
    ((ledger (.linked ⟨.inUse, i, b⟩ h :: .unlinked ⟨.free, i, b⟩ h :: log)).list ⟨.free, j, c⟩).length +
        (if j = i ∧ c = b then 1 else 0) = ((ledger log).list ⟨.free, j, c⟩).length := by
  have hlist : (ledger (.linked ⟨.inUse, i, b⟩ h :: .unlinked ⟨.free, i, b⟩ h :: log)).list ⟨.free, j, c⟩ =
      if j = i ∧ c = b then ((ledger log).list ⟨.free, i, b⟩).erase h
      else (ledger log).list ⟨.free, j, c⟩ := by
    simp [ledger, Ledger.step, Ledger.updBlock, Ledger.updList, Function.update_apply]
  rw [hlist]
  split
  · rename_i hjc
    obtain ⟨rfl, rfl⟩ := hjc
    obtain ⟨hl, B, hB, hp, hs, hbin, -⟩ := hl.1
    have hmem : h ∈ (ledger log).list ⟨.free, j, c⟩ := (hl.sound.mem_list_iff hB _).2 ⟨hp, hs, hbin⟩
    rw [List.length_erase_of_mem hmem]
    exact Nat.sub_add_cancel (List.length_pos_of_mem hmem)
  · rfl

/-! ## Bytes -/

/-- The bytes that the bins of the first `n` slots were given, guard pages included. -/
def suppliedBytes (n : ℕ) (log : List Event) : ℕ :=
  ∑ i ∈ Finset.range n, ∑ b ∈ Finset.range maxAllocPower, (supplied i b log).length * (2 ^ b + guardSize)

theorem suppliedBytes_of_dealt (h : evs.filter Event.deals = []) (n : ℕ) (log : List Event) :
    suppliedBytes n (evs ++ log) = suppliedBytes n log := by
  simp only [suppliedBytes, supplied_of_dealt h]

theorem suppliedBytes_add {log' : List Event} {k : ℕ} (hi : i < n) (hb : b < maxAllocPower)
    (h : ∀ j c, (supplied j c log').length =
      (supplied j c log).length + if j = i ∧ c = b then k else 0) :
    suppliedBytes n log' = suppliedBytes n log + k * (2 ^ b + guardSize) := by
  have hsum : ∀ j c, (if j = i ∧ c = b then k else 0) * (2 ^ c + guardSize) =
      if j = i then if c = b then k * (2 ^ b + guardSize) else 0 else 0 := by
    intro j c
    by_cases hj : j = i
    · by_cases hc : c = b
      · simp [hj, hc]
      · simp [hc]
    · simp [hj]
  unfold suppliedBytes
  simp only [h, add_mul, hsum, Finset.sum_add_distrib]
  congr 1
  rw [Finset.sum_eq_single_of_mem i (Finset.mem_range.2 hi) fun j _ hj => by simp [hj],
    Finset.sum_eq_single_of_mem b (Finset.mem_range.2 hb) fun c _ hc => by simp [hc]]
  simp

end GuardRails
