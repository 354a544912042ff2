import GuardRails.Lib.PyText

/-!
# Command lines in C

What the C library makes of a line of options: `strtok` with blanks as delimiters, `atoi`,
`strtoull`, and `getopt` for short options. A string is the list of its characters, up to
the null character that ends it.
-/

namespace CommandLine

open PyText

/-- The tokens that `strtok(t, " ")` returns one after the other. -/
def strtok (t : Text) : List Text := (t.splitOn ' ').filter (· ≠ [])

/-! ## Numbers -/

/-- The value of the decimal digits that the text begins with, behind `n`. -/
def leadingDigits : ℕ → Text → ℕ
  | n, [] => n
  | n, c :: cs =>
      match digit? 10 c with
      | none => n
      | some d => leadingDigits (10 * n + d) cs

def sign (t : Text) : Bool × Text :=
  match t.dropWhile isspace with
  | '-' :: cs => (true, cs)
  | '+' :: cs => (false, cs)
  | cs => (false, cs)

/-- `strtol(t, NULL, 10)`, which saturates. -/
def strtol (t : Text) : ℤ :=
  let n := leadingDigits 0 (sign t).2
  if (sign t).1 then max (-2 ^ 63) (-n) else min (2 ^ 63 - 1) n

/-- `atoi` narrows the value to an `int`. -/
def atoi (t : Text) : ℤ := (strtol t + 2 ^ 31) % 2 ^ 32 - 2 ^ 31

/-- `strtoull(t, NULL, 10)`: a value out of range saturates, a sign negates it. -/
def strtoull (t : Text) : ℕ :=
  let n := leadingDigits 0 (sign t).2
  if 2 ^ 64 ≤ n then 2 ^ 64 - 1 else if (sign t).1 then (2 ^ 64 - n) % 2 ^ 64 else n

/-- A decimal number: digits and nothing else. -/
def Decimal (t : Text) : Prop := t ≠ [] ∧ ∀ c ∈ t, (digit? 10 c).isSome

variable {t : Text}

instance : Decidable (Decimal t) :=
  decidable_of_iff ((t ≠ [] && t.all fun c => (digit? 10 c).isSome) = true) (by simp [Decimal])

theorem Decimal.sign_eq (h : Decimal t) : sign t = (false, t) := by
  obtain ⟨hne, hdigit⟩ := h
  cases t with
  | nil => exact absurd rfl hne
  | cons c cs =>
      have hc : 48 ≤ c.toNat := digit?_le (by decide) (hdigit c List.mem_cons_self)
      have hspace : isspace c = false := by
        have hblank : c ≠ ' ' := fun h => absurd (h ▸ hc) (by decide)
        simp only [isspace, hblank, decide_false, Bool.false_or, Bool.and_eq_false_iff,
          decide_eq_false_iff_not]
        omega
      have hdrop : (c :: cs).dropWhile isspace = c :: cs := by
        rw [List.dropWhile_cons, hspace]
        rfl
      rw [sign, hdrop]
      split
      · exact absurd hc (by simp_all)
      · exact absurd hc (by simp_all)
      · rfl

theorem Decimal.atoi_eq (h : Decimal t) (hlt : leadingDigits 0 t < 2 ^ 31) :
    atoi t = leadingDigits 0 t := by
  rw [atoi, strtol, h.sign_eq]
  simp only [Bool.false_eq_true, if_false]
  omega

theorem Decimal.strtoull_eq (h : Decimal t) (hlt : leadingDigits 0 t < 2 ^ 64) :
    strtoull t = leadingDigits 0 t := by
  rw [strtoull, h.sign_eq]
  simp only [Bool.false_eq_true, if_false]
  rw [if_neg (not_le.2 hlt)]

/-! ## `getopt` -/

structure Opt where
  char : Char
  optarg : Option Text
  deriving DecidableEq

/-- Whether the option takes an argument; nothing if it is no option. -/
def takesArg (optstring : Text) (c : Char) : Option Bool :=
  if c = ':' ∨ c = ';' then
    none
  else
    match optstring.dropWhile (· ≠ c) with
    | [] => none
    | _ :: cs => some (cs.head? = some ':')

/-- The options of one element of `argv`, behind its dash, and the option that takes the next
element as its argument. -/
def element (optstring : Text) : Text → List Opt × Option Char
  | [] => ([], none)
  | c :: cs =>
      match takesArg optstring c with
      | none => (⟨'?', none⟩ :: (element optstring cs).1, (element optstring cs).2)
      | some false => (⟨c, none⟩ :: (element optstring cs).1, (element optstring cs).2)
      | some true => if cs = [] then ([], some c) else ([⟨c, some cs⟩], none)

/-- The options that `getopt` returns one after the other. Other elements are passed over,
unless `POSIXLY_CORRECT` is set, where the first of them ends the options. -/
def getopt (posixlyCorrect : Bool) (optstring : Text) : List Text → List Opt
  | [] => []
  | t :: ts =>
      match t with
      | '-' :: c :: cs =>
          if c = '-' ∧ cs = [] then
            []
          else
            match (element optstring (c :: cs)).2, ts with
            | none, ts => (element optstring (c :: cs)).1 ++ getopt posixlyCorrect optstring ts
            | some _, [] => (element optstring (c :: cs)).1 ++ [⟨'?', none⟩]
            | some p, a :: ts =>
                (element optstring (c :: cs)).1 ++
                  ⟨p, some a⟩ :: getopt posixlyCorrect optstring ts
      | _ => if posixlyCorrect then [] else getopt posixlyCorrect optstring ts

variable {posixlyCorrect : Bool} {optstring : Text} {c p : Char} {cs : Text} {ts : List Text}
  {os : List Opt}

/-- An element that is complete. -/
theorem getopt_complete (hc : c ≠ '-') (h : element optstring (c :: cs) = (os, none)) :
    getopt posixlyCorrect optstring (('-' :: c :: cs) :: ts) =
      os ++ getopt posixlyCorrect optstring ts := by
  rw [getopt.eq_def]
  simp [hc, h]

/-- An element whose last option takes the next element. -/
theorem getopt_pending (hc : c ≠ '-') (h : element optstring (c :: cs) = (os, some p)) (a : Text) :
    getopt posixlyCorrect optstring (('-' :: c :: cs) :: a :: ts) =
      os ++ ⟨p, some a⟩ :: getopt posixlyCorrect optstring ts := by
  rw [getopt.eq_def]
  simp [hc, h]

/-- The options of an element come first. -/
theorem getopt_prefix (hc : c ≠ '-') :
    ∃ rest, getopt posixlyCorrect optstring (('-' :: c :: cs) :: ts) =
      (element optstring (c :: cs)).1 ++ rest := by
  rw [getopt.eq_def]
  simp only [hc, false_and, if_false]
  split <;> exact ⟨_, rfl⟩

end CommandLine
