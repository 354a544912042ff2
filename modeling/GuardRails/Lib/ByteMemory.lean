import Mathlib.Tactic.Ring
import Mathlib.Data.Nat.ModEq

/-!
# A byte-addressed memory

A memory gives a byte to every address. Every write of a program is an
`update` of one range; a word is eight bytes, the least significant one first.
What a range holds after a write is settled by where the ranges lie: a read
outside the written range sees the old bytes (`update_of_notMem`,
`word_update_of_disjoint`), a word that was stored is read back modulo `2 ^ 64`
(`word_setWord`).
-/

namespace ByteMemory

abbrev Mem := ℕ → UInt8

/-- The memory in which the `n` bytes from `a` on are given by `f`. -/
def update (m : Mem) (a n : ℕ) (f : ℕ → UInt8) : Mem :=
  fun x => if a ≤ x ∧ x < a + n then f (x - a) else m x

variable {m m' : Mem} {a b n x v : ℕ} {f : ℕ → UInt8}

theorem update_of_mem (h : a ≤ x) (h' : x < a + n) : update m a n f x = f (x - a) :=
  if_pos ⟨h, h'⟩

theorem update_of_notMem (h : x < a ∨ a + n ≤ x) : update m a n f x = m x :=
  if_neg (by omega)

theorem update_zero : update m a 0 f = m := by
  funext x
  exact update_of_notMem (by omega)

/-- A region is copied to where it is. -/
theorem update_self : update m a n (fun i => m (a + i)) = m := by
  funext x
  by_cases hx : a ≤ x ∧ x < a + n
  · rw [update_of_mem hx.1 hx.2, Nat.add_sub_of_le hx.1]
  · exact if_neg hx

def leNat (m : Mem) : ℕ → ℕ → ℕ
  | _, 0 => 0
  | a, k + 1 => (m a).toNat + 256 * leNat m (a + 1) k

def word (m : Mem) (a : ℕ) : ℕ := leNat m a 8

def setWord (m : Mem) (a v : ℕ) : Mem := update m a 8 fun i => UInt8.ofNat (v / 256 ^ i)

theorem leNat_congr {k : ℕ} (h : ∀ i < k, m (a + i) = m' (a + i)) :
    leNat m a k = leNat m' a k := by
  induction k generalizing a with
  | zero => rfl
  | succ k ih =>
      have h0 := h 0 (Nat.succ_pos k)
      have hrest : leNat m (a + 1) k = leNat m' (a + 1) k := by
        refine ih fun i hi => ?_
        have := h (i + 1) (by omega)
        rwa [show a + 1 + i = a + (i + 1) by omega]
      rw [Nat.add_zero] at h0
      rw [leNat, leNat, h0, hrest]

theorem leNat_lt (k : ℕ) : leNat m a k < 256 ^ k := by
  induction k generalizing a with
  | zero => exact Nat.one_pos
  | succ k ih =>
      have hb : (m a).toNat < 256 := (m a).toNat_lt
      have hrest := ih (a := a + 1)
      rw [leNat, pow_succ]
      omega

/-- The bytes of `v` spell `v` modulo the width. -/
theorem leNat_of_bytes {k : ℕ} (h : ∀ i < k, m (a + i) = UInt8.ofNat (v / 256 ^ i)) :
    leNat m a k = v % 256 ^ k := by
  induction k generalizing a v with
  | zero => rw [leNat, pow_zero, Nat.mod_one]
  | succ k ih =>
      have h0 : (m a).toNat = v % 256 := by
        have := h 0 (Nat.succ_pos k)
        rw [Nat.add_zero, pow_zero, Nat.div_one] at this
        rw [this, UInt8.toNat_ofNat']
      have hrest : leNat m (a + 1) k = v / 256 % 256 ^ k := by
        refine ih fun i hi => ?_
        have := h (i + 1) (by omega)
        rw [show a + 1 + i = a + (i + 1) by omega, this, pow_succ', Nat.div_div_eq_div_mul]
      rw [leNat, h0, hrest, pow_succ', Nat.mod_mul]

theorem leNat_eq_zero {k : ℕ} (h : ∀ i < k, m (a + i) = 0) : leNat m a k = 0 := by
  induction k generalizing a with
  | zero => rfl
  | succ k ih =>
      have h0 := h 0 (Nat.succ_pos k)
      rw [Nat.add_zero] at h0
      rw [leNat, h0, ih fun i hi => ?_]
      · rfl
      · have := h (i + 1) (by omega)
        rwa [show a + 1 + i = a + (i + 1) by omega]

theorem word_lt : word m a < 2 ^ 64 := by
  have h := leNat_lt (m := m) (a := a) 8
  norm_num at h ⊢
  exact h

/-- A word depends on its eight bytes only. -/
theorem word_congr (h : ∀ x, a ≤ x → x < a + 8 → m x = m' x) : word m a = word m' a :=
  leNat_congr fun i hi => h (a + i) (Nat.le_add_right a i) (by omega)

theorem word_eq_zero (h : ∀ x, a ≤ x → x < a + 8 → m x = 0) : word m a = 0 :=
  leNat_eq_zero fun i hi => h (a + i) (Nat.le_add_right a i) (by omega)

theorem word_setWord : word (setWord m a v) a = v % 2 ^ 64 := by
  have h : word (setWord m a v) a = v % 256 ^ 8 := by
    refine leNat_of_bytes fun i hi => ?_
    rw [setWord, update_of_mem (Nat.le_add_right a i) (by omega), Nat.add_sub_cancel_left]
  rw [h]
  norm_num

theorem word_setWord_of_lt (h : v < 2 ^ 64) : word (setWord m a v) a = v := by
  rw [word_setWord, Nat.mod_eq_of_lt h]

theorem word_update_of_disjoint (h : b + 8 ≤ a ∨ a + n ≤ b) :
    word (update m a n f) b = word m b :=
  word_congr fun _ hx hx' => update_of_notMem (by omega)

theorem word_setWord_of_disjoint (h : b + 8 ≤ a ∨ a + 8 ≤ b) :
    word (setWord m a v) b = word m b :=
  word_update_of_disjoint h

theorem setWord_of_notMem (h : x < a ∨ a + 8 ≤ x) : setWord m a v x = m x :=
  update_of_notMem h

def setWords (m : Mem) (a : ℕ) : List ℕ → Mem
  | [] => m
  | w :: ws => setWords (setWord m a w) (a + 8) ws

theorem setWords_of_notMem {ws : List ℕ} (h : x < a ∨ a + 8 * ws.length ≤ x) :
    setWords m a ws x = m x := by
  induction ws generalizing m a with
  | nil => rfl
  | cons w ws ih =>
      rw [List.length_cons] at h
      rw [setWords, ih (by omega), setWord_of_notMem (by omega)]

theorem word_setWords_of_disjoint {ws : List ℕ} (h : b + 8 ≤ a ∨ a + 8 * ws.length ≤ b) :
    word (setWords m a ws) b = word m b :=
  word_congr fun _ hx hx' => setWords_of_notMem (by omega)

/-- The words that were stored are read back in order. -/
theorem word_setWords {ws : List ℕ} {j : ℕ} (hj : j < ws.length) :
    word (setWords m a ws) (a + 8 * j) = ws[j] % 2 ^ 64 := by
  induction ws generalizing m a j with
  | nil => exact absurd hj (Nat.not_lt_zero j)
  | cons w ws ih =>
      rw [setWords]
      cases j with
      | zero =>
          have h : word (setWords (setWord m a w) (a + 8) ws) a = word (setWord m a w) a :=
            word_setWords_of_disjoint (by omega)
          exact h.trans word_setWord
      | succ j =>
          rw [List.length_cons] at hj
          have h := ih (m := setWord m a w) (a := a + 8) (j := j) (by omega)
          rw [show a + 8 * (j + 1) = a + 8 + 8 * j by omega, h]
          rfl

end ByteMemory
