import GuardRails.Spec.ParseArgs

/-!
# The bounds of the argument parser

The arrays that `parseArgs` writes hold what it writes as long as the line has few enough
words. Neither the number of words nor a failing read is checked: the `assert` behind the
read compares a `size_t` with zero.
-/

namespace GuardRails

def ArgFile.InBounds (file : ArgFile) : Prop :=
  ∃ v, argVector file = .ok v ∧ v.argv[v.argc]? = some none

theorem entries_end (first : Option PyText.Text) (ts : List PyText.Text) :
    (entries first ts)[ts.length + 1]? =
      if ts.length + 1 ≤ argMaxNum - 1 then some none else none := by
  unfold entries
  rw [List.getElem?_cons_succ, List.getElem?_append_right (List.length_map _).le,
    List.length_map, Nat.sub_self, List.getElem?_replicate]
  exact if_congr (by omega) rfl rfl

/-- Room for the name of the program and a null entry is left in 64 entries. -/
theorem parse_args_in_bounds (file : ArgFile) :
    file.InBounds ↔ file.Readable ∧ file.tokens.length ≤ argMaxNum - 2 := by
  by_cases hread : file.Readable
  · rw [ArgFile.InBounds, argVector_eq hread]
    constructor
    · rintro ⟨v, hv, hend⟩
      split at hv
      · obtain rfl := Except.ok.inj hv
        rw [entries_end] at hend
        split at hend
        · exact ⟨hread, by omega⟩
        · exact absurd hend nofun
      · exact absurd hv nofun
    · rintro ⟨-, hlen⟩
      rw [if_pos (hlen.trans (by decide))]
      have hroom : file.tokens.length + 1 ≤ argMaxNum - 1 := Nat.add_le_add_right hlen 1
      refine ⟨_, rfl, ?_⟩
      rw [entries_end, if_pos hroom]
  · constructor
    · rintro ⟨v, hv, -⟩
      rw [argVector, readArgStr_unreadable hread] at hv
      exact absurd hv nofun
    · rintro ⟨h, -⟩
      exact absurd h hread

/-- A line of 64 words: a write behind the end of `argv`. -/
theorem parse_args_out_of_bounds :
    ¬ (ArgFile.content (List.replicate 64 ['-', 'v', ' ']).flatten (by decide +kernel)).InBounds := by
  rintro ⟨v, hv, -⟩
  rw [argVector_eq (show (ArgFile.content _ _).Readable from trivial), if_neg (by decide +kernel)] at hv
  exact absurd hv nofun

end GuardRails
