import GuardRails.Model.ParseArgs

/-!
# What `parseArgs` makes of a file

The argument vector in terms of the tokens of the file, and the options as a fold over what
`getopt` returns.
-/

namespace GuardRails

open CommandLine PyText

/-! ## The string -/

/-- The line of the file: up to the first null character, without a line feed at the end. -/
def ArgFile.line (file : ArgFile) : Text :=
  cString (if file.bytes.getLast? = some '\n' then file.bytes.dropLast else file.bytes)

def ArgFile.tokens (file : ArgFile) : List Text := strtok file.line

def ArgFile.Readable : ArgFile → Prop
  | unreadable => False
  | _ => True

instance (file : ArgFile) : Decidable file.Readable := by
  cases file <;> unfold ArgFile.Readable <;> infer_instance

theorem writeAt_lt {α : Type} {a : List α} {i : ℕ} (h : i < a.length) (x : α) :
    writeAt a i x = .ok (a.set i x) := if_pos h

theorem writeAt_ge {α : Type} {a : List α} {i : ℕ} (h : a.length ≤ i) (x : α) :
    writeAt a i x = .error .outOfBounds := if_neg (not_lt.2 h)

theorem cString_append_nul (t rest : Text) : cString (t ++ nul :: rest) = cString t := by
  unfold cString
  induction t with
  | nil => rfl
  | cons c cs ih =>
      rw [List.cons_append, List.takeWhile_cons, List.takeWhile_cons, ih]

theorem ArgFile.bytes_length_lt (file : ArgFile) : file.bytes.length < argMaxBytes := by
  cases file with
  | content text hlen => exact Nat.lt_of_le_of_lt hlen (by decide)
  | _ => exact Nat.zero_lt_succ _

theorem ArgFile.Readable.bytesRead_eq {file : ArgFile} (h : file.Readable) :
    file.bytesRead = file.bytes.length := by
  cases file with
  | unreadable => exact h.elim
  | _ => rfl

theorem padded_set (t : Text) (h : t.length < argMaxBytes) :
    (t ++ List.replicate (argMaxBytes - t.length) nul).set t.length nul =
      t ++ nul :: List.replicate (argMaxBytes - t.length - 1) nul := by
  obtain ⟨k, hk⟩ : ∃ k, argMaxBytes - t.length = k + 1 := ⟨_, (Nat.succ_pred (by omega)).symm⟩
  rw [hk, List.set_append_right _ _ le_rfl, Nat.sub_self, List.replicate_succ]
  rfl

/-- A file that can be read is read into bounds. -/
theorem readArgStr_spec {file : ArgFile} (h : file.Readable) :
    ∃ argStr, readArgStr file = .ok argStr ∧ cString argStr = file.line := by
  have hlt := file.bytes_length_lt
  unfold readArgStr ArgFile.line
  rw [h.bytesRead_eq]
  generalize file.bytes = text at hlt
  have hin : text.length < (text ++ List.replicate (argMaxBytes - text.length) nul).length := by
    rw [List.length_append, List.length_replicate]
    omega
  have hassert : argAssert 449 (0 ≤ text.length) = .ok () := if_pos (Nat.zero_le _)
  simp only [hassert, writeAt_lt hin, padded_set text hlt, bind, Except.bind]
  obtain rfl | ⟨pre, c, rfl⟩ := List.eq_nil_or_concat text
  · exact ⟨_, rfl, cString_append_nul [] _⟩
  rw [List.concat_eq_append]
  generalize List.replicate (argMaxBytes - (pre ++ [c]).length - 1) nul = pad
  have hlen : (pre ++ [c]).length = pre.length + 1 := by
    rw [List.length_append, List.length_singleton]
  have hlast : (pre ++ [c] ++ nul :: pad)[pre.length]? = some c := by
    rw [List.append_assoc, List.getElem?_append_right le_rfl, Nat.sub_self]
    rfl
  rw [hlen, Nat.add_sub_cancel, hlast, List.getLast?_concat]
  by_cases hc : c = '\n'
  · have hset : (pre ++ [c] ++ nul :: pad).set pre.length nul = pre ++ nul :: nul :: pad := by
      rw [List.append_assoc, List.set_append_right _ _ le_rfl, Nat.sub_self]
      rfl
    have hbound : pre.length < (pre ++ [c] ++ nul :: pad).length := by
      simp only [List.length_append, List.length_singleton]
      omega
    rw [if_pos ⟨Nat.zero_lt_succ _, congrArg some hc⟩, if_pos (congrArg some hc),
      List.dropLast_concat, writeAt_lt hbound, hset]
    exact ⟨_, rfl, cString_append_nul pre _⟩
  · have hne : some c ≠ some '\n' := fun h => hc (Option.some.inj h)
    rw [if_neg fun h => hne h.2, if_neg hne]
    exact ⟨_, rfl, cString_append_nul _ pad⟩

theorem readArgStr_unreadable {file : ArgFile} (h : ¬ file.Readable) :
    readArgStr file = .error .outOfBounds := by
  cases file with
  | unreadable =>
      have hassert : argAssert 449 (0 ≤ ArgFile.unreadable.bytesRead) = .ok () :=
        if_pos (Nat.zero_le _)
      have hout : argMaxBytes ≤ ArgFile.unreadable.bytesRead := by decide
      unfold readArgStr
      simp only [hassert, bind, Except.bind]
      rw [writeAt_ge]
      simpa [ArgFile.bytes] using hout
  | _ => exact absurd trivial h

/-! ## The argument vector -/

def entries (first : Option Text) (ts : List Text) : List (Option Text) :=
  first :: (ts.map some ++ List.replicate (argMaxNum - 1 - ts.length) none)

theorem entries_length {first : Option Text} {ts : List Text} (h : ts.length ≤ argMaxNum - 1) :
    (entries first ts).length = argMaxNum := by
  unfold entries
  rw [List.length_cons, List.length_append, List.length_map, List.length_replicate,
    Nat.add_sub_of_le h]
  rfl

theorem pushArg_entries {ts : List Text} (first : Option Text) (t : Text)
    (h : ts.length < argMaxNum - 1) :
    pushArg ⟨ts.length, entries first ts⟩ t =
      .ok ⟨(ts ++ [t]).length, entries first (ts ++ [t])⟩ := by
  obtain ⟨k, hk⟩ : ∃ k, argMaxNum - 1 - ts.length = k + 1 := ⟨_, (Nat.succ_pred (by omega)).symm⟩
  have hk' : argMaxNum - 1 - (ts ++ [t]).length = k := by
    rw [List.length_append, List.length_singleton]
    omega
  have hin : ts.length + 1 < (entries first ts).length := by
    rw [entries_length h.le]
    omega
  have hset : (entries first ts).set (ts.length + 1) (some t) = entries first (ts ++ [t]) := by
    unfold entries
    rw [hk, hk', List.set_cons_succ, List.set_append_right _ _ (by rw [List.length_map]),
      List.length_map, Nat.sub_self, List.map_append, List.append_assoc]
    rfl
  unfold pushArg
  simp only [writeAt_lt hin, hset, List.length_append, List.length_singleton]
  rfl

theorem pushArg_full {ts : List Text} (first : Option Text) (t : Text)
    (h : ts.length = argMaxNum - 1) :
    pushArg ⟨ts.length, entries first ts⟩ t = .error .outOfBounds := by
  have hout : (entries first ts).length ≤ ts.length + 1 := by
    rw [entries_length h.le]
    omega
  unfold pushArg
  simp only [writeAt_ge hout]
  rfl

theorem pushArgs (first : Option Text) (us ts : List Text) (h : ts.length ≤ argMaxNum - 1) :
    us.foldlM pushArg ⟨ts.length, entries first ts⟩ =
      if ts.length + us.length ≤ argMaxNum - 1 then
        .ok ⟨(ts ++ us).length, entries first (ts ++ us)⟩
      else
        .error .outOfBounds := by
  induction us generalizing ts with
  | nil =>
      rw [List.foldlM_nil, List.append_nil, List.length_nil, Nat.add_zero, if_pos h]
      rfl
  | cons t us ih =>
      rw [List.foldlM_cons]
      by_cases hlt : ts.length < argMaxNum - 1
      · rw [pushArg_entries first t hlt]
        have hlen : (ts ++ [t]).length = ts.length + 1 := by simp
        have hih := ih (ts ++ [t]) (by omega)
        rw [List.append_assoc, List.singleton_append, hlen] at hih
        rw [show ts.length + (t :: us).length = ts.length + 1 + us.length by
          rw [List.length_cons]; omega, ← hih, hlen]
        rfl
      · rw [pushArg_full first t (by omega), if_neg]
        · rfl
        · rw [List.length_cons]
          omega

theorem entries_nil : entries none [] = List.replicate argMaxNum none := rfl

/-- The argument vector holds the words of the file, up to 63 of them. -/
theorem argVector_eq {file : ArgFile} (h : file.Readable) :
    argVector file =
      if file.tokens.length ≤ argMaxNum - 1 then
        .ok ⟨file.tokens.length + 1, entries (some ("GuardRails").toList) file.tokens⟩
      else
        .error .outOfBounds := by
  obtain ⟨argStr, hread, hline⟩ := readArgStr_spec h
  have hpush := pushArgs none file.tokens [] (Nat.zero_le _)
  rw [List.length_nil, List.nil_append, Nat.zero_add, entries_nil] at hpush
  have htokens : strtok (cString argStr) = file.tokens := congrArg strtok hline
  unfold argVector
  simp only [hread, htokens, hpush, bind, Except.bind]
  by_cases hle : file.tokens.length ≤ argMaxNum - 1
  · have hin : 0 < (entries none file.tokens).length := by
      rw [entries_length hle]
      decide
    simp only [if_pos hle, writeAt_lt hin]
    rfl
  · simp only [if_neg hle]

/-- `getopt` goes through the words of the file. -/
theorem elements_entries (first : Option Text) (ts : List Text) :
    (ArgVector.mk (ts.length + 1) (entries first ts)).elements = ts := by
  unfold ArgVector.elements entries
  simp [List.take_left']

/-! ## The options -/

def ArgFile.options (posixlyCorrect : Bool) (file : ArgFile) : List Opt :=
  getopt posixlyCorrect optstring file.tokens

theorem parseArgs_eq {file : ArgFile} (posixlyCorrect : Bool) (h : file.Readable)
    (hlen : file.tokens.length ≤ argMaxNum - 1) :
    parseArgs posixlyCorrect file = (do
      let args ← (file.options posixlyCorrect).foldlM setOption (defaultArgs file)
      argAssert 530 (args.numSlots < maxSlots)
      pure (args, file.tokens.length + 1)) := by
  rw [parseArgs, argVector_eq h, if_pos hlen]
  simp only [bind, Except.bind, elements_entries]
  rfl

end GuardRails
