import Mathlib.Data.List.Basic
import Mathlib.Data.List.TakeWhile
import Mathlib.Tactic.Ring

/-!
# Text as Python 2 reads it

Byte strings as lists of characters: `splitlines`, `int`, and the default dialect of
`csv.reader`. Each has a lemma for text that was written field by field, in which no
field holds a separator.
-/

namespace PyText

abbrev Text := List Char

/-! ## Lines -/

/-- `str.splitlines`: a line ends at a line feed, a carriage return or both. -/
def splitlines : Text → List Text
  | [] => []
  | '\n' :: cs => [] :: splitlines cs
  | '\r' :: '\n' :: cs => [] :: splitlines cs
  | '\r' :: cs => [] :: splitlines cs
  | c :: cs =>
      match splitlines cs with
      | [] => [[c]]
      | l :: ls => (c :: l) :: ls

def OneLine (t : Text) : Prop := '\n' ∉ t ∧ '\r' ∉ t

variable {t : Text} {c : Char} {cs : Text}

theorem splitlines_char (hn : c ≠ '\n') (hr : c ≠ '\r') :
    splitlines (c :: cs) = match splitlines cs with
      | [] => [[c]]
      | l :: ls => (c :: l) :: ls := by
  rw [splitlines.eq_def]
  split <;> simp_all

theorem OneLine.of_cons (h : OneLine (c :: cs)) : c ≠ '\n' ∧ c ≠ '\r' ∧ OneLine cs := by
  simp only [OneLine, List.mem_cons, not_or] at h ⊢
  exact ⟨Ne.symm h.1.1, Ne.symm h.2.1, h.1.2, h.2.2⟩

theorem OneLine.append {t' : Text} (h : OneLine t) (h' : OneLine t') : OneLine (t ++ t') := by
  simp only [OneLine, List.mem_append, not_or]
  exact ⟨⟨h.1, h'.1⟩, h.2, h'.2⟩

theorem splitlines_line (h : OneLine t) (rest : Text) :
    splitlines (t ++ '\n' :: rest) = t :: splitlines rest := by
  induction t with
  | nil => rfl
  | cons c cs ih =>
      obtain ⟨hn, hr, hcs⟩ := h.of_cons
      rw [List.cons_append, splitlines_char hn hr, ih hcs]

theorem splitlines_last (h : OneLine t) (ht : t ≠ []) : splitlines t = [t] := by
  induction t with
  | nil => exact absurd rfl ht
  | cons c cs ih =>
      obtain ⟨hn, hr, hcs⟩ := h.of_cons
      rw [splitlines_char hn hr]
      cases cs with
      | nil => rfl
      | cons d ds => rw [ih hcs nofun]

theorem OneLine.take (h : OneLine t) (k : ℕ) : OneLine (t.take k) :=
  ⟨fun hn => h.1 (List.mem_of_mem_take hn), fun hr => h.2 (List.mem_of_mem_take hr)⟩

/-- Lines that were written one after the other, and what follows them. -/
theorem splitlines_append {ls : List Text} (h : ∀ l ∈ ls, OneLine l) (t : Text) :
    splitlines (ls.flatMap (· ++ ['\n']) ++ t) = ls ++ splitlines t := by
  induction ls with
  | nil => rfl
  | cons l ls ih =>
      obtain ⟨hl, hls⟩ := List.forall_mem_cons.1 h
      rw [List.flatMap_cons, List.append_assoc, List.append_assoc, List.singleton_append,
        splitlines_line hl, ih hls]
      rfl

theorem splitlines_lines {ls : List Text} (h : ∀ l ∈ ls, OneLine l) :
    splitlines (ls.flatMap (· ++ ['\n'])) = ls := by
  have hlines := splitlines_append h []
  rwa [List.append_nil, splitlines, List.append_nil] at hlines

/-! ## Numbers -/

def digitValue (c : Char) : ℕ :=
  if 48 ≤ c.toNat ∧ c.toNat ≤ 57 then c.toNat - 48
  else if 97 ≤ c.toNat ∧ c.toNat ≤ 122 then c.toNat - 87
  else if 65 ≤ c.toNat ∧ c.toNat ≤ 90 then c.toNat - 55
  else 37

def digit? (base : ℕ) (c : Char) : Option ℕ :=
  if digitValue c < base then some (digitValue c) else none

def digits? (base : ℕ) : ℕ → Text → Option ℕ
  | n, [] => some n
  | n, c :: cs =>
      match digit? base c with
      | none => none
      | some d => digits? base (base * n + d) cs

def isspace (c : Char) : Bool := c = ' ' || (9 ≤ c.toNat && c.toNat ≤ 13)

def strip (t : Text) : Text := ((t.dropWhile isspace).reverse.dropWhile isspace).reverse

/-- The digits behind the prefix of the base, if there is one. -/
def unprefixed (base : ℕ) : Text → Text
  | '0' :: 'x' :: cs => if base = 16 then cs else '0' :: 'x' :: cs
  | '0' :: 'X' :: cs => if base = 16 then cs else '0' :: 'X' :: cs
  | cs => cs

/-- `int` of an unsigned number. -/
def nat? (base : ℕ) (t : Text) : Option ℕ :=
  match unprefixed base t with
  | [] => none
  | c :: cs => digits? base 0 (c :: cs)

/-- `int(t, base)`; where there is no value, it raises `ValueError`. -/
def int? (base : ℕ) (t : Text) : Option ℤ :=
  match strip t with
  | '-' :: cs => (nat? base cs).map fun n => -n
  | '+' :: cs => (nat? base cs).map Nat.cast
  | cs => (nat? base cs).map Nat.cast

variable {base n : ℕ}

theorem digit?_le (hb : base ≤ 37) (h : (digit? base c).isSome) : 48 ≤ c.toNat := by
  by_contra hlt
  have hv : digitValue c = 37 := by
    rw [digitValue, if_neg (by omega), if_neg (by omega), if_neg (by omega)]
  rw [digit?, hv, if_neg (not_lt.2 hb)] at h
  exact absurd h nofun

theorem digits?_isSome : (digits? base n t).isSome ↔ ∀ c ∈ t, (digit? base c).isSome := by
  induction t generalizing n with
  | nil => simp [digits?]
  | cons c cs ih =>
      rw [digits?, List.forall_mem_cons]
      cases digit? base c with
      | none => simp
      | some d => simpa using ih

theorem mem_dropWhile {p : Char → Bool} (hc : c ∈ t) (hp : p c = false) : c ∈ t.dropWhile p := by
  rw [← List.takeWhile_append_dropWhile (p := p) (l := t), List.mem_append] at hc
  exact hc.resolve_left fun h => absurd (List.mem_takeWhile_imp h) (by simp [hp])

theorem mem_strip (hc : c ∈ t) (hp : isspace c = false) : c ∈ strip t := by
  unfold strip
  rw [List.mem_reverse]
  refine mem_dropWhile ?_ hp
  rw [List.mem_reverse]
  exact mem_dropWhile hc hp

theorem strip_of_not_isspace (h : ∀ c ∈ t, isspace c = false) : strip t = t := by
  have hdrop : ∀ u : Text, (∀ c ∈ u, isspace c = false) → u.dropWhile isspace = u := by
    intro u hu
    cases u with
    | nil => rfl
    | cons c cs => rw [List.dropWhile_cons, hu c List.mem_cons_self]; rfl
  rw [strip, hdrop t h, hdrop _ fun c hc => h c (List.mem_reverse.1 hc), List.reverse_reverse]

theorem mem_unprefixed (hc : c ∈ t) (h0 : c ≠ '0') (hx : c ≠ 'x') (hX : c ≠ 'X') :
    c ∈ unprefixed base t := by
  unfold unprefixed
  split
  · split <;> simp_all
  · split <;> simp_all
  · exact hc

/-- A comma is in no number. -/
theorem int?_comma (hb : base ≤ 37) (hc : ',' ∈ t) : int? base t = none := by
  have hnat : ∀ u : Text, ',' ∈ u → nat? base u = none := by
    intro u hu
    have hmem : ',' ∈ unprefixed base u :=
      mem_unprefixed hu (by decide) (by decide) (by decide)
    unfold nat?
    split
    · rfl
    · rename_i d ds hd
      by_contra hne
      have hsome := digits?_isSome.1 (Option.isSome_iff_ne_none.2 hne) ',' (hd ▸ hmem)
      exact absurd (digit?_le hb hsome) (by decide)
  have hmem := mem_strip hc (by decide)
  unfold int?
  split
  · rename_i cs hcs
    rw [hnat cs (List.mem_of_ne_of_mem (by decide) (hcs ▸ hmem))]
    rfl
  · rename_i cs hcs
    rw [hnat cs (List.mem_of_ne_of_mem (by decide) (hcs ▸ hmem))]
    rfl
  · rw [hnat _ hmem]
    rfl

/-- Digits without a prefix are read as they stand. -/
theorem int?_digits (hb : base ≤ 37) (ht : t ≠ [])
    (h : ∀ c ∈ t, (digit? base c).isSome) (hx : 'x' ∉ t) (hX : 'X' ∉ t) :
    int? base t = (digits? base 0 t).map Nat.cast := by
  have hle : ∀ c ∈ t, 48 ≤ c.toNat := fun c hc => digit?_le hb (h c hc)
  have hstrip : strip t = t := by
    refine strip_of_not_isspace fun c hc => ?_
    have := hle c hc
    have hsp : c ≠ ' ' := fun h0 => absurd (h0 ▸ this) (by decide)
    simp only [isspace, hsp, decide_false, Bool.false_or, Bool.and_eq_false_iff,
      decide_eq_false_iff_not]
    omega
  have hpre : unprefixed base t = t := by
    unfold unprefixed
    split
    · exact absurd (List.mem_cons_of_mem _ List.mem_cons_self) hx
    · exact absurd (List.mem_cons_of_mem _ List.mem_cons_self) hX
    · rfl
  have hnat : nat? base t = digits? base 0 t := by
    rw [nat?, hpre]
    cases t with
    | nil => exact absurd rfl ht
    | cons c cs => rfl
  unfold int?
  rw [hstrip]
  split
  · exact absurd (hle '-' List.mem_cons_self) (by decide)
  · exact absurd (hle '+' List.mem_cons_self) (by decide)
  · rw [hnat]

theorem digits?_append {u : Text} {k : ℕ} (h : digits? base n t = some k) :
    digits? base n (t ++ u) = digits? base k u := by
  induction t generalizing n with
  | nil =>
      obtain rfl := Option.some.inj h
      rfl
  | cons c cs ih =>
      rw [List.cons_append, digits?]
      rw [digits?] at h
      cases hd : digit? base c with
      | none => simp [hd] at h
      | some d =>
          rw [hd] at h
          exact ih h

theorem digit?_digitChar {d : ℕ} (hd : d < base) (hb : base ≤ 16) :
    digit? base d.digitChar = some d := by
  have hv : ∀ d < 16, digitValue d.digitChar = d := by decide
  rw [digit?, hv d (hd.trans_le hb), if_pos hd]

/-- A number is read back. -/
theorem digits?_toDigits (hb : 1 < base) (hb' : base ≤ 16) :
    digits? base 0 (Nat.toDigits base n) = some n := by
  induction n using Nat.strongRecOn with
  | ind n ih =>
      rw [Nat.toDigits_eq_if hb]
      split
      · rename_i hlt
        rw [digits?, digit?_digitChar hlt hb', Nat.mul_zero]
        exact congrArg some (Nat.zero_add n)
      · rename_i hle
        have hpos : 0 < n := Nat.lt_of_lt_of_le (by omega) (not_lt.1 hle)
        rw [digits?_append (ih (n / base) (Nat.div_lt_self hpos hb)), digits?,
          digit?_digitChar (Nat.mod_lt n (by omega)) hb']
        exact congrArg some (Nat.div_add_mod n base)

theorem toDigits_injective (hb : 1 < base) (hb' : base ≤ 16) :
    Function.Injective (Nat.toDigits base) := fun _ _ h =>
  Option.some.inj ((digits?_toDigits hb hb').symm.trans (h ▸ digits?_toDigits hb hb'))

theorem mem_toDigits (hb : 1 < base) (hc : c ∈ Nat.toDigits base n) :
    ∃ d < base, c = d.digitChar := by
  induction n using Nat.strongRecOn with
  | ind n ih =>
      rw [Nat.toDigits_eq_if hb] at hc
      split at hc
      · rename_i hlt
        exact ⟨n, hlt, List.mem_singleton.1 hc⟩
      · rename_i hle
        have hpos : 0 < n := Nat.lt_of_lt_of_le (by omega) (not_lt.1 hle)
        rcases List.mem_append.1 hc with hc | hc
        · exact ih (n / base) (Nat.div_lt_self hpos hb) hc
        · exact ⟨n % base, Nat.mod_lt n (by omega), List.mem_singleton.1 hc⟩

theorem int?_toDigits : int? 10 (Nat.toDigits 10 n) = some (n : ℤ) := by
  have hd : ∀ c ∈ Nat.toDigits 10 n, ∃ d < 10, c = d.digitChar := fun c hc =>
    mem_toDigits (by decide) hc
  have hx : ∀ d < 10, d.digitChar ≠ 'x' ∧ d.digitChar ≠ 'X' := by decide
  rw [int?_digits (by decide) Nat.toDigits_ne_nil, digits?_toDigits (by decide) (by decide)]
  · rfl
  · intro c hc
    obtain ⟨d, hlt, rfl⟩ := hd c hc
    rw [digit?_digitChar hlt (by decide)]
    rfl
  · intro hc
    obtain ⟨d, hlt, he⟩ := hd _ hc
    exact (hx d hlt).1 he.symm
  · intro hc
    obtain ⟨d, hlt, he⟩ := hd _ hc
    exact (hx d hlt).2 he.symm

/-- The first digits of a number are the digits of a number. -/
theorem exists_take_toDigits (hb : 1 < base) {k : ℕ} (hk : 0 < k) :
    ∃ m ≤ n, (Nat.toDigits base n).take k = Nat.toDigits base m := by
  induction n using Nat.strongRecOn with
  | ind n ih =>
      by_cases hlen : (Nat.toDigits base n).length ≤ k
      · exact ⟨n, le_rfl, List.take_of_length_le hlen⟩
      · have hle : ¬ n < base := by
          intro hlt
          rw [Nat.toDigits_eq_if hb, if_pos hlt] at hlen
          exact hlen hk
        have hpos : 0 < n := Nat.lt_of_lt_of_le (by omega) (not_lt.1 hle)
        obtain ⟨m, hm, htake⟩ := ih (n / base) (Nat.div_lt_self hpos hb)
        rw [Nat.toDigits_eq_if hb, if_neg hle, List.length_append, List.length_singleton] at hlen
        rw [Nat.toDigits_eq_if hb, if_neg hle, List.take_append_of_le_length (by omega)]
        exact ⟨m, hm.trans (Nat.div_le_self n base), htake⟩

theorem digits?_take_toDigits (hb : 1 < base) (hb' : base ≤ 16) (k : ℕ) :
    (digits? base 0 ((Nat.toDigits base n).take k)).isSome := by
  refine digits?_isSome.2 fun c hc => ?_
  obtain ⟨d, hlt, rfl⟩ := mem_toDigits hb (List.mem_of_mem_take hc)
  rw [digit?_digitChar hlt hb']
  rfl

/-- A number with its prefix is read if at least one of its digits is there. -/
theorem int?_prefixed {k : ℕ} (hk : 0 < k) :
    (int? 16 ('0' :: 'x' :: (Nat.toDigits 16 n).take k)).isSome := by
  have hspace : ∀ d < 16, isspace d.digitChar = false := by decide
  have hstrip : strip ('0' :: 'x' :: (Nat.toDigits 16 n).take k) =
      '0' :: 'x' :: (Nat.toDigits 16 n).take k := by
    refine strip_of_not_isspace fun c hc => ?_
    rcases List.mem_cons.1 hc with rfl | hc
    · rfl
    · rcases List.mem_cons.1 hc with rfl | hc
      · rfl
      · obtain ⟨d, hlt, rfl⟩ := mem_toDigits (by decide) (List.mem_of_mem_take hc)
        exact hspace d hlt
  have hnat : nat? 16 ('0' :: 'x' :: (Nat.toDigits 16 n).take k) =
      digits? 16 0 ((Nat.toDigits 16 n).take k) := by
    change (match (Nat.toDigits 16 n).take k with
      | [] => none
      | c :: cs => digits? 16 0 (c :: cs)) = _
    cases htake : (Nat.toDigits 16 n).take k with
    | nil =>
        rcases List.take_eq_nil_iff.1 htake with h | h
        · exact absurd h hk.ne'
        · exact absurd h Nat.toDigits_ne_nil
    | cons c cs => rfl
  rw [int?, hstrip]
  change ((nat? 16 _).map Nat.cast).isSome
  rw [hnat, Option.isSome_map]
  exact digits?_take_toDigits (by decide) (by decide) k

/-! ## `csv.reader` -/

inductive CsvState
  | startRecord
  | startField
  | inField
  | inQuotedField
  | quoteInQuotedField
  | eatCrNl
  deriving DecidableEq

structure CsvReader where
  state : CsvState := .startRecord
  field : Text := []
  fields : List Text := []

/-- `csv.field_size_limit()`. -/
def fieldLimit : ℕ := 131072

namespace CsvReader

variable (r : CsvReader)

def addChar (c : Char) (state : CsvState) : Option CsvReader :=
  if fieldLimit < r.field.length then none
  else some { r with field := r.field ++ [c], state := state }

def saveField (state : CsvState) : CsvReader :=
  { state := state, field := [], fields := r.fields ++ [r.field] }

def startField (c : Char) : Option CsvReader :=
  if c = '\n' ∨ c = '\r' then some (r.saveField .eatCrNl)
  else if c = '"' then some { r with state := .inQuotedField }
  else if c = ',' then some (r.saveField .startField)
  else r.addChar c .inField

def char (c : Char) : Option CsvReader :=
  if c = Char.ofNat 0 then none else
  match r.state with
  | .startRecord =>
      if c = '\n' ∨ c = '\r' then some { r with state := .eatCrNl } else r.startField c
  | .startField => r.startField c
  | .inField =>
      if c = '\n' ∨ c = '\r' then some (r.saveField .eatCrNl)
      else if c = ',' then some (r.saveField .startField)
      else r.addChar c .inField
  | .inQuotedField =>
      if c = '"' then some { r with state := .quoteInQuotedField }
      else r.addChar c .inQuotedField
  | .quoteInQuotedField =>
      if c = '"' then r.addChar c .inQuotedField
      else if c = ',' then some (r.saveField .startField)
      else if c = '\n' ∨ c = '\r' then some (r.saveField .eatCrNl)
      else r.addChar c .inField
  | .eatCrNl => if c = '\n' ∨ c = '\r' then some r else none

def endLine : CsvReader :=
  match r.state with
  | .startRecord => r
  | .inQuotedField => r
  | .eatCrNl => { r with state := .startRecord }
  | _ => r.saveField .startRecord

def line (l : Text) : Option CsvReader := (l.foldlM char r).map endLine

/-- The rows of the lines that are left, `none` where `next` raises `csv.Error`. -/
def rows : CsvReader → List Text → List (Option (List Text))
  | r, [] =>
      if r.field ≠ [] ∨ r.state = .inQuotedField then [some (r.fields ++ [r.field])] else []
  | r, l :: ls =>
      match r.line l with
      | none => none :: rows {} ls
      | some r' => if r'.state = .startRecord then some r'.fields :: rows {} ls else rows r' ls

/-- A field that is read as it stands. -/
structure Plain (f : Text) : Prop where
  noNul : Char.ofNat 0 ∉ f
  oneLine : OneLine f
  noQuote : '"' ∉ f
  noComma : ',' ∉ f
  length_le : f.length ≤ fieldLimit

variable {f pre : Text} {fs acc : List Text} {state : CsvState}

theorem Plain.of_cons (h : Plain (c :: f)) :
    c ≠ Char.ofNat 0 ∧ ¬ (c = '\n' ∨ c = '\r') ∧ c ≠ '"' ∧ c ≠ ',' := by
  have hc := List.mem_cons_self (a := c) (l := f)
  exact ⟨fun h0 => h.noNul (h0 ▸ hc), fun hb => hb.elim (fun h0 => h.oneLine.1 (h0 ▸ hc))
    fun h0 => h.oneLine.2 (h0 ▸ hc), fun h0 => h.noQuote (h0 ▸ hc), fun h0 => h.noComma (h0 ▸ hc)⟩

theorem Plain.append_right {g : Text} (h : Plain (g ++ f)) : Plain f where
  noNul h0 := h.noNul (List.mem_append_right g h0)
  oneLine := ⟨fun h0 => h.oneLine.1 (List.mem_append_right g h0),
    fun h0 => h.oneLine.2 (List.mem_append_right g h0)⟩
  noQuote h0 := h.noQuote (List.mem_append_right g h0)
  noComma h0 := h.noComma (List.mem_append_right g h0)
  length_le := le_trans (by simp) h.length_le

theorem char_inField (h : Plain (pre ++ c :: f)) :
    char ⟨.inField, pre, acc⟩ c = some ⟨.inField, pre ++ [c], acc⟩ := by
  obtain ⟨h0, hb, -, hc⟩ := h.append_right.of_cons
  have hlen : ¬ fieldLimit < pre.length := by
    have := h.length_le
    simp only [List.length_append] at this
    omega
  simp [char, addChar, h0, hb, hc, hlen]

theorem foldlM_inField (h : Plain (pre ++ f)) :
    f.foldlM char ⟨.inField, pre, acc⟩ = some ⟨.inField, pre ++ f, acc⟩ := by
  induction f generalizing pre with
  | nil => rw [List.append_nil]; rfl
  | cons c f ih =>
      rw [List.foldlM_cons, char_inField h, Option.bind_eq_bind, Option.bind_some,
        ih (by rwa [List.append_assoc]), List.append_assoc]
      rfl

/-- The reader takes a field and the comma behind it. -/
theorem foldlM_field (h : Plain f) (hs : state = .startRecord ∨ state = .startField) :
    (f ++ [',']).foldlM char ⟨state, [], acc⟩ = some ⟨.startField, [], acc ++ [f]⟩ := by
  cases f with
  | nil => rcases hs with rfl | rfl <;> rfl
  | cons c f =>
      obtain ⟨h0, hb, hq, hc⟩ := h.of_cons
      have hfirst : char ⟨state, [], acc⟩ c = some ⟨.inField, [c], acc⟩ := by
        rcases hs with rfl | rfl <;> simp [char, startField, addChar, h0, hb, hq, hc]
      rw [List.cons_append, List.foldlM_cons, hfirst, Option.bind_eq_bind, Option.bind_some,
        List.foldlM_append, foldlM_inField h]
      rfl

theorem foldlM_fields (h : ∀ f ∈ fs, Plain f) :
    (fs.flatMap (· ++ [','])).foldlM char ⟨.startField, [], acc⟩ =
      some ⟨.startField, [], acc ++ fs⟩ := by
  induction fs generalizing acc with
  | nil => rw [List.append_nil]; rfl
  | cons f fs ih =>
      obtain ⟨hf, hfs⟩ := List.forall_mem_cons.1 h
      rw [List.flatMap_cons, List.foldlM_append, foldlM_field hf (.inr rfl), Option.bind_eq_bind,
        Option.bind_some, ih hfs, List.append_assoc]
      rfl

/-- The field behind the last comma. -/
theorem foldlM_last (h : Plain f) :
    (f.foldlM char ⟨.startField, [], acc⟩).map endLine =
      some ⟨.startRecord, [], acc ++ [f]⟩ := by
  cases f with
  | nil => rfl
  | cons c f =>
      obtain ⟨h0, hb, hq, hc⟩ := h.of_cons
      have hfirst : char ⟨.startField, [], acc⟩ c = some ⟨.inField, [c], acc⟩ := by
        simp [char, startField, addChar, h0, hb, hq, hc]
      rw [List.foldlM_cons, hfirst, Option.bind_eq_bind, Option.bind_some, foldlM_inField h]
      rfl

/-- Fields with a comma behind each, and the field behind the last comma, are a row. -/
theorem line_fields (h : ∀ f ∈ fs, Plain f) (hne : fs ≠ []) (hlast : Plain f) :
    line {} (fs.flatMap (· ++ [',']) ++ f) = some ⟨.startRecord, [], fs ++ [f]⟩ := by
  cases fs with
  | nil => exact absurd rfl hne
  | cons g fs =>
      obtain ⟨hg, hfs⟩ := List.forall_mem_cons.1 h
      rw [line, List.flatMap_cons, List.append_assoc, List.foldlM_append,
        foldlM_field hg (.inl rfl), Option.bind_eq_bind, Option.bind_some, List.foldlM_append,
        foldlM_fields hfs, Option.bind_eq_bind, Option.bind_some]
      exact foldlM_last hlast

theorem Plain.nil : Plain [] := ⟨nofun, ⟨nofun, nofun⟩, nofun, nofun, Nat.zero_le _⟩

theorem Plain.take (h : Plain f) (k : ℕ) : Plain (f.take k) where
  noNul h0 := h.noNul (List.mem_of_mem_take h0)
  oneLine := ⟨fun h0 => h.oneLine.1 (List.mem_of_mem_take h0),
    fun h0 => h.oneLine.2 (List.mem_of_mem_take h0)⟩
  noQuote h0 := h.noQuote (List.mem_of_mem_take h0)
  noComma h0 := h.noComma (List.mem_of_mem_take h0)
  length_le := (List.length_take_le' k f).trans h.length_le

end CsvReader

/-- The beginning of a line: fields that are whole, and part of the one behind them. -/
theorem take_fields (fs : List Text) (k : ℕ) :
    ∃ done last, (fs.flatMap (· ++ [','])).take k = done.flatMap (· ++ [',']) ++ last ∧
      ((done = fs ∧ last = []) ∨
        ∃ f rest j, fs = done ++ f :: rest ∧ j ≤ f.length ∧ last = f.take j) := by
  induction fs generalizing k with
  | nil => exact ⟨[], [], List.take_nil, .inl ⟨rfl, rfl⟩⟩
  | cons f fs ih =>
      by_cases hk : k ≤ f.length
      · refine ⟨[], f.take k, ?_, .inr ⟨f, fs, k, rfl, hk, rfl⟩⟩
        rw [List.flatMap_cons, List.append_assoc, List.take_append_of_le_length hk]
        rfl
      · obtain ⟨done, last, htake, hcases⟩ := ih (k - (f.length + 1))
        refine ⟨f :: done, last, ?_, ?_⟩
        · rw [List.flatMap_cons, List.flatMap_cons, List.append_assoc (f ++ [',']), ← htake,
            List.take_append, List.take_of_length_le (by simp; omega), List.length_append,
            List.length_singleton]
        · rcases hcases with ⟨rfl, rfl⟩ | ⟨g, rest, j, rfl, hj, rfl⟩
          · exact .inl ⟨rfl, rfl⟩
          · exact .inr ⟨g, rest, j, rfl, hj, rfl⟩

def csvRows (ls : List Text) : List (Option (List Text)) := CsvReader.rows {} ls

/-- Lines of plain fields are read one by one. -/
theorem csvRows_map {α : Type} {xs : List α} {fs : α → List Text} {f : α → Text}
    (h : ∀ x ∈ xs, fs x ≠ [] ∧ (∀ g ∈ fs x, CsvReader.Plain g) ∧ CsvReader.Plain (f x)) :
    csvRows (xs.map fun x => (fs x).flatMap (· ++ [',']) ++ f x) =
      xs.map fun x => some (fs x ++ [f x]) := by
  induction xs with
  | nil => rfl
  | cons x xs ih =>
      obtain ⟨⟨hne, hfs, hf⟩, hxs⟩ := List.forall_mem_cons.1 h
      rw [List.map_cons, List.map_cons, ← ih hxs, csvRows, CsvReader.rows,
        CsvReader.line_fields hfs hne hf]
      rfl

theorem csvRows_fields {rs : List (List Text)}
    (h : ∀ fs ∈ rs, fs ≠ [] ∧ ∀ f ∈ fs, CsvReader.Plain f) :
    csvRows (rs.map fun fs => fs.flatMap (· ++ [','])) = rs.map fun fs => some (fs ++ [[]]) := by
  have hrows : csvRows (rs.map fun fs => fs.flatMap (· ++ [',']) ++ []) =
      rs.map fun fs => some (fs ++ [[]]) :=
    csvRows_map fun fs hfs => ⟨(h fs hfs).1, (h fs hfs).2, .nil⟩
  simpa only [List.append_nil] using hrows

end PyText
