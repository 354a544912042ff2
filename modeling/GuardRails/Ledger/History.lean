import GuardRails.Ledger.Basic

/-!
# What a history says of a block

A block that was cut off a pool stays a block of its size, and one that was labelled keeps
its slot and its bin, whatever happens to it afterwards.
-/

namespace GuardRails

variable {L : Ledger} {log evs : List Event} {h size slot bin : ℕ} {B : Block} {e : Event}

structure Block.Same (B B' : Block) : Prop where
  size : B'.size = B.size
  labels : B.place ≠ .raw → B'.place ≠ .raw ∧ B'.slot = B.slot ∧ B'.bin = B.bin

theorem Block.Same.refl : B.Same B := ⟨rfl, fun h => ⟨h, rfl, rfl⟩⟩

theorem Ledger.same_updBlock {x : ℕ} {f : Block → Block} (hB : L.block h = some B)
    (hf : x = h → B.Same (f B)) : ∃ B', (L.updBlock x f).block h = some B' ∧ B.Same B' := by
  by_cases hx : x = h
  · subst x
    exact ⟨f B, by rw [Ledger.block_updBlock hB, Function.update_self], hf rfl⟩
  · exact ⟨B, (Function.update_of_ne (Ne.symm hx) _ _).trans hB, .refl⟩

theorem Ledger.updBlock_none {x : ℕ} {f : Block → Block} (hB : L.block h = none) :
    (L.updBlock x f).block h = none := by
  change Function.update L.block x ((L.block x).map f) h = none
  rw [Function.update_apply]
  split
  · subst x
    rw [hB]
    rfl
  · exact hB

theorem Ledger.step_same (hl : L.Legal e) (hB : L.block h = some B) :
    ∃ B', (L.step e).block h = some B' ∧ B.Same B' := by
  cases e with
  | carved x size =>
      have hx : h ≠ x := by
        rintro rfl
        exact absurd (hl.symm.trans hB) nofun
      exact ⟨B, (Function.update_of_ne hx _ _).trans hB, .refl⟩
  | labelled x slot bin =>
      refine Ledger.same_updBlock hB ?_
      rintro rfl
      obtain ⟨A, hA, hraw, -⟩ := hl
      obtain rfl := Option.some.inj (hB.symm.trans hA)
      exact ⟨rfl, fun hp => absurd hraw hp⟩
  | linked r x => exact Ledger.same_updBlock hB fun _ => ⟨rfl, fun _ => ⟨nofun, rfl, rfl⟩⟩
  | unlinked r x => exact Ledger.same_updBlock hB fun _ => ⟨rfl, fun _ => ⟨nofun, rfl, rfl⟩⟩
  | counted i q => exact Ledger.same_updBlock hB fun _ => ⟨rfl, fun hp => ⟨hp, rfl, rfl⟩⟩
  | uncounted i x => exact Ledger.same_updBlock hB fun _ => ⟨rfl, fun hp => ⟨hp, rfl, rfl⟩⟩
  | filled a => exact Ledger.same_updBlock hB fun _ => ⟨rfl, fun hp => ⟨hp, rfl, rfl⟩⟩
  | freeing x => exact Ledger.same_updBlock hB fun _ => ⟨rfl, fun hp => ⟨hp, rfl, rfl⟩⟩
  | overrun x => exact Ledger.same_updBlock hB fun _ => ⟨rfl, fun hp => ⟨hp, rfl, rfl⟩⟩
  | delayed i x => exact Ledger.same_updBlock hB fun _ => ⟨rfl, fun _ => ⟨nofun, rfl, rfl⟩⟩
  | drained i x => exact Ledger.same_updBlock hB fun _ => ⟨rfl, fun _ => ⟨nofun, rfl, rfl⟩⟩
  | _ => exact ⟨B, hB, .refl⟩

/-- Only `getFromPool` makes a block. -/
theorem Ledger.step_none (he : ∀ size, e ≠ .carved h size) (hB : L.block h = none) :
    (L.step e).block h = none := by
  cases e with
  | carved x size =>
      have hx : h ≠ x := by
        rintro rfl
        exact he size rfl
      exact (Function.update_of_ne hx _ _).trans hB
  | labelled | linked | unlinked | counted | uncounted => exact Ledger.updBlock_none hB
  | filled | freeing | overrun | delayed | drained => exact Ledger.updBlock_none hB
  | _ => exact hB

theorem Lawful.of_append (later : List Event) (hl : Lawful (later ++ log)) : Lawful log := by
  induction later with
  | nil => exact hl
  | cons e later ih => exact ih hl.1

theorem Lawful.same_append (hl : Lawful (evs ++ log)) (hB : (ledger log).block h = some B)
    (hp : B.place ≠ .raw) : ∃ A, (ledger (evs ++ log)).block h = some A ∧ A.place ≠ .raw ∧
      A.slot = B.slot ∧ A.bin = B.bin := by
  induction evs with
  | nil => exact ⟨B, hB, hp, rfl, rfl⟩
  | cons e evs ih =>
      obtain ⟨A, hA, hp', hs, hb⟩ := ih hl.1
      obtain ⟨A', hA', hsame⟩ := Ledger.step_same hl.2 hA
      obtain ⟨hp'', hs', hb'⟩ := hsame.labels hp'
      exact ⟨A', hA', hp'', hs'.trans hs, hb'.trans hb⟩

/-- The ledger has the blocks that were cut off the pools. -/
theorem Lawful.block_of_carved (hl : Lawful log) (hc : .carved h size ∈ log) :
    ∃ B, (ledger log).block h = some B ∧ B.size = size := by
  induction log with
  | nil => exact absurd hc List.not_mem_nil
  | cons e log ih =>
      rcases List.mem_cons.1 hc with rfl | hc
      · exact ⟨{ size := size }, Function.update_self _ _ _, rfl⟩
      · obtain ⟨B, hB, hsize⟩ := ih hl.1 hc
        obtain ⟨B', hB', hsame⟩ := Ledger.step_same hl.2 hB
        exact ⟨B', hB', hsame.size.trans hsize⟩

theorem Lawful.carved_of_block (hl : Lawful log) (hB : (ledger log).block h = some B) :
    .carved h B.size ∈ log := by
  induction log generalizing B with
  | nil => exact absurd hB nofun
  | cons e log ih =>
      by_cases he : ∃ size, e = .carved h size
      · obtain ⟨size, rfl⟩ := he
        have := Option.some.inj ((Function.update_self h _ _).symm.trans hB)
        exact this ▸ List.mem_cons_self
      · cases hA : (ledger log).block h with
        | none =>
            have hnone := Ledger.step_none (fun size h => he ⟨size, h⟩) hA
            exact absurd (hnone.symm.trans hB) nofun
        | some A =>
            obtain ⟨A', hA', hsame⟩ := Ledger.step_same hl.2 hA
            obtain rfl := Option.some.inj (hA'.symm.trans hB)
            rw [hsame.size]
            exact List.mem_cons_of_mem _ (ih hl.1 hA)

/-- A labelled block keeps its labels. -/
theorem Lawful.block_of_labelled (hl : Lawful log) (hc : .labelled h slot bin ∈ log) :
    ∃ B, (ledger log).block h = some B ∧ B.place ≠ .raw ∧ B.slot = slot ∧ B.bin = bin := by
  induction log with
  | nil => exact absurd hc List.not_mem_nil
  | cons e log ih =>
      rcases List.mem_cons.1 hc with rfl | hc
      · obtain ⟨A, hA, -⟩ := hl.2
        exact ⟨{ A with slot := slot, bin := bin, place := .held },
          by rw [ledger, Ledger.step, Ledger.block_updBlock hA, Function.update_self], nofun, rfl, rfl⟩
      · obtain ⟨B, hB, hp, hs, hb⟩ := ih hl.1 hc
        obtain ⟨B', hB', hsame⟩ := Ledger.step_same hl.2 hB
        obtain ⟨hp', hs', hb'⟩ := hsame.labels hp
        exact ⟨B', hB', hp', hs'.trans hs, hb'.trans hb⟩

/-- What is put into a list is a block of its slot and bin. -/
theorem Lawful.block_of_linked {r : HeadRef} (hl : Lawful log) (hc : .linked r h ∈ log) :
    ∃ B, (ledger log).block h = some B ∧ B.place ≠ .raw ∧ B.slot = r.slot ∧ B.bin = r.bin := by
  induction log with
  | nil => exact absurd hc List.not_mem_nil
  | cons e log ih =>
      rcases List.mem_cons.1 hc with rfl | hc
      · obtain ⟨A, hA, hheld, hs, hb⟩ := hl.2
        obtain ⟨B, hB, hsame⟩ := Ledger.step_same hl.2 hA
        obtain ⟨hp', hs', hb'⟩ := hsame.labels (by simp [hheld])
        exact ⟨B, hB, hp', hs'.trans hs, hb'.trans hb⟩
      · obtain ⟨A, hA, hp, hs, hb⟩ := ih hl.1 hc
        obtain ⟨B, hB, hsame⟩ := Ledger.step_same hl.2 hA
        obtain ⟨hp', hs', hb'⟩ := hsame.labels hp
        exact ⟨B, hB, hp', hs'.trans hs, hb'.trans hb⟩

end GuardRails
