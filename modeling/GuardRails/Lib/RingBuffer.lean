import Mathlib.Data.List.Basic
import Mathlib.Data.Nat.ModEq
import Mathlib.Logic.Function.Basic
import Mathlib.Tactic.Common

/-!
# Ring buffers

An array of `cap` cells is used as a queue: `n` elements lie from the index
`tail` on, and indices wrap around at `cap`. `contents` reads the queue off the
array, oldest element first. Writing behind the last element appends
(`contents_put`), moving the tail on removes the oldest (`contents_get`), and
the number of elements is recovered from the two indices (`count_eq`), which is
where one cell has to stay unused: a full array would look like an empty one.
A `Ring` keeps the number of its elements and their total weight besides.
-/

namespace RingBuffer

variable {α : Type*}

def contents (elms : ℕ → α) (cap t : ℕ) : ℕ → List α
  | 0 => []
  | n + 1 => elms (t % cap) :: contents elms cap (t + 1) n

variable {elms elms' : ℕ → α} {cap t n : ℕ} {x : α}

theorem contents_congr (h : ∀ i < n, elms' ((t + i) % cap) = elms ((t + i) % cap)) :
    contents elms' cap t n = contents elms cap t n := by
  induction n generalizing t with
  | zero => rfl
  | succ n ih =>
      have h0 := h 0 (Nat.succ_pos n)
      rw [Nat.add_zero] at h0
      rw [contents, contents, h0, ih fun i hi => ?_]
      have := h (i + 1) (by omega)
      rwa [show t + 1 + i = t + (i + 1) by omega]

/-- Only the remainder of the t counts. -/
theorem contents_mod : contents elms cap (t % cap) n = contents elms cap t n := by
  induction n generalizing t with
  | zero => rfl
  | succ n ih =>
      rw [contents, contents, Nat.mod_mod, ← ih (t := t % cap + 1), Nat.mod_add_mod,
        ih (t := t + 1)]

theorem contents_succ_last : contents elms cap t (n + 1) =
    contents elms cap t n ++ [elms ((t + n) % cap)] := by
  induction n generalizing t with
  | zero => rfl
  | succ n ih =>
      rw [contents, ih, contents, List.cons_append, show t + 1 + n = t + (n + 1) by omega]

/-- Two cells of a ring that are less than a turn apart differ. -/
theorem add_mod_ne {i j : ℕ} (hij : i < j) (hj : j < cap) :
    (t + i) % cap ≠ (t + j) % cap := by
  intro h
  have h1 : (t + i) ≡ (t + j) [MOD cap] := h
  have h2 : i ≡ j [MOD cap] := Nat.ModEq.add_left_cancel' t h1
  have h3 : i % cap = j % cap := h2
  rw [Nat.mod_eq_of_lt (by omega), Nat.mod_eq_of_lt hj] at h3
  omega

/-- Writing the cell behind the last element appends. -/
theorem contents_put (elms : ℕ → α) (t : ℕ) (x : α) (hn : n < cap) :
    contents (Function.update elms ((t + n) % cap) x) cap t (n + 1) =
      contents elms cap t n ++ [x] := by
  rw [contents_succ_last, Function.update_self]
  congr 1
  refine contents_congr fun i hi => ?_
  exact Function.update_of_ne (add_mod_ne hi hn) _ _

/-- Moving the tail on removes the oldest element. -/
theorem contents_get : contents elms cap t (n + 1) =
    elms (t % cap) :: contents elms cap ((t + 1) % cap) n := by
  rw [contents, contents_mod]

/-- The ring is empty iff the indices meet. -/
theorem head_eq_tail_iff {r : ℕ} (ht : t < cap) (hn : n < cap) (hh : r = (t + n) % cap) :
    r = t ↔ n = 0 := by
  constructor
  · intro h
    by_contra h0
    have hne := add_mod_ne (t := t) (i := 0) (j := n) (by omega) hn
    rw [Nat.add_zero, Nat.mod_eq_of_lt ht, ← hh] at hne
    exact hne h.symm
  · rintro rfl
    rw [hh, Nat.add_zero, Nat.mod_eq_of_lt ht]

/-- The number of elements as it is computed from the two indices. -/
theorem count_eq {r : ℕ} (ht : t < cap) (hn : n < cap) (h0 : 0 < n)
    (hh : r = (t + n) % cap) :
    (if r > t then r - t else cap - (t - r)) = n := by
  by_cases hw : t + n < cap
  · rw [Nat.mod_eq_of_lt hw] at hh
    rw [if_pos (by omega)]
    omega
  · have hmod : (t + n) % cap = t + n - cap := by
      rw [Nat.mod_eq_sub_mod (by omega), Nat.mod_eq_of_lt (by omega)]
    rw [hmod] at hh
    rw [if_neg (by omega)]
    omega

/-- The cell after the last one is the tail only when one cell is left. -/
theorem succ_head_ne_tail {r : ℕ} (ht : t < cap) (hn : n + 1 < cap)
    (hh : r = (t + n) % cap) : (r + 1) % cap ≠ t := by
  have h := add_mod_ne (t := t) (i := 0) (j := n + 1) (by omega) hn
  rw [Nat.add_zero, Nat.mod_eq_of_lt ht] at h
  rw [hh, Nat.mod_add_mod]
  exact h.symm

/-! ## Rings that keep count -/

/-- The cells of a ring, its two indices, the number of its elements and their weight. -/
structure Ring (α : Type*) where
  elms : ℕ → α
  head : ℕ
  tail : ℕ
  count : ℕ
  weight : ℕ

def Ring.queue (r : Ring α) (cap : ℕ) : List α :=
  contents r.elms cap r.tail ((r.head + cap - r.tail) % cap)

def Ring.append (r : Ring α) (cap : ℕ) (x : α) (k : ℕ) : Ring α :=
  { elms := Function.update r.elms r.head x
    head := (r.head + 1) % cap
    tail := r.tail
    count := r.count + 1
    weight := r.weight + k }

def Ring.remove (r : Ring α) (cap : ℕ) (k : ℕ) : Ring α :=
  { r with tail := (r.tail + 1) % cap, count := r.count - 1, weight := r.weight - k }

/-- Indices, number and weight are those of the queue `q`. -/
structure Ring.Holds (r : Ring α) (cap : ℕ) (w : α → ℕ) (q : List α) : Prop where
  tail_lt : r.tail < cap
  head_eq : r.head = (r.tail + q.length) % cap
  count_eq : r.count = q.length
  contents_eq : contents r.elms cap r.tail q.length = q
  weight_eq : r.weight = (q.map w).sum

namespace Ring.Holds

variable {r : Ring α} {w w' : α → ℕ} {q : List α}

theorem head_lt (h : r.Holds cap w q) : r.head < cap := by
  rw [h.head_eq]
  exact Nat.mod_lt _ ((Nat.zero_le _).trans_lt h.tail_lt)

theorem congr (h : r.Holds cap w q) (hw : ∀ x ∈ q, w' x = w x) : r.Holds cap w' q :=
  { h with
    weight_eq := by
      rw [h.weight_eq, List.map_congr_left hw] }

/-- The queue can be read off the indices. -/
theorem queue_eq (h : r.Holds cap w q) (hlt : q.length < cap) : r.queue cap = q := by
  have ht := h.tail_lt
  have hlen : (r.head + cap - r.tail) % cap = q.length := by
    rw [h.head_eq]
    by_cases hw : r.tail + q.length < cap
    · rw [Nat.mod_eq_of_lt hw, show r.tail + q.length + cap - r.tail = q.length + cap by omega,
        Nat.add_mod_right, Nat.mod_eq_of_lt hlt]
    · have hwrap : (r.tail + q.length) % cap = r.tail + q.length - cap := by
        rw [Nat.mod_eq_sub_mod (by omega), Nat.mod_eq_of_lt (by omega)]
      rw [hwrap, show r.tail + q.length - cap + cap - r.tail = q.length by omega,
        Nat.mod_eq_of_lt hlt]
  rw [Ring.queue, hlen, h.contents_eq]

theorem empty_iff (h : r.Holds cap w q) (hlt : q.length < cap) : r.head = r.tail ↔ q = [] := by
  rw [head_eq_tail_iff h.tail_lt hlt h.head_eq, List.length_eq_zero_iff]

theorem not_full (h : r.Holds cap w q) (hlt : q.length + 1 < cap) : (r.head + 1) % cap ≠ r.tail :=
  succ_head_ne_tail h.tail_lt hlt h.head_eq

/-- The number as the indices give it. -/
theorem diff_eq (h : r.Holds cap w q) (hlt : q.length < cap) (h0 : q ≠ []) :
    (if r.head > r.tail then r.head - r.tail else cap - (r.tail - r.head)) = r.count := by
  rw [h.count_eq]
  exact RingBuffer.count_eq h.tail_lt hlt (List.length_pos_iff.2 h0) h.head_eq

theorem oldest (h : r.Holds cap w (x :: q)) : r.elms r.tail = x := by
  have hc := h.contents_eq
  rw [List.length_cons, contents_get] at hc
  have hx := (List.cons.inj hc).1
  rwa [Nat.mod_eq_of_lt h.tail_lt] at hx

theorem weight_le (h : r.Holds cap w q) (hx : x ∈ q) : w x ≤ r.weight := by
  obtain ⟨q₁, q₂, rfl⟩ := List.append_of_mem hx
  rw [h.weight_eq, List.map_append, List.sum_append, List.map_cons, List.sum_cons]
  exact (Nat.le_add_right _ _).trans (Nat.le_add_left _ _)

theorem append (h : r.Holds cap w q) (hlt : q.length < cap) :
    (r.append cap x (w x)).Holds cap w (q ++ [x]) where
  tail_lt := h.tail_lt
  head_eq := by
    change (r.head + 1) % cap = _
    rw [List.length_append, List.length_singleton, h.head_eq, Nat.mod_add_mod, Nat.add_assoc]
    rfl
  count_eq := by
    change r.count + 1 = _
    rw [List.length_append, List.length_singleton, h.count_eq]
  contents_eq := by
    have hput := contents_put r.elms r.tail x hlt
    rw [h.contents_eq, ← h.head_eq] at hput
    rw [List.length_append, List.length_singleton]
    exact hput
  weight_eq := by
    change r.weight + w x = _
    rw [List.map_append, List.sum_append, List.map_singleton, List.sum_singleton, h.weight_eq]

theorem remove (h : r.Holds cap w (x :: q)) : (r.remove cap (w x)).Holds cap w q where
  tail_lt := Nat.mod_lt _ ((Nat.zero_le _).trans_lt h.tail_lt)
  head_eq := by
    change r.head = ((r.tail + 1) % cap + q.length) % cap
    rw [h.head_eq, Nat.mod_add_mod, List.length_cons, Nat.add_assoc, Nat.add_comm 1]
  count_eq := by
    change r.count - 1 = _
    rw [h.count_eq, List.length_cons, Nat.add_sub_cancel]
  contents_eq := by
    have hc := h.contents_eq
    rw [List.length_cons, contents_get] at hc
    exact (List.cons.inj hc).2
  weight_eq := by
    change r.weight - w x = _
    rw [h.weight_eq, List.map_cons, List.sum_cons, Nat.add_sub_cancel_left]

end Ring.Holds

/-! ## Backwards -/

def prev (cap c : ℕ) : ℕ := (if c = 0 then cap else c) - 1

/-- The elements in `n` cells from the index `c` backwards. -/
def backwards (elms : ℕ → α) (cap : ℕ) : ℕ → ℕ → List α
  | 0, _ => []
  | n + 1, c => elms c :: backwards elms cap n (prev cap c)

@[simp] theorem length_backwards {c : ℕ} : (backwards elms cap n c).length = n := by
  induction n generalizing c with
  | zero => rfl
  | succ n ih => rw [backwards, List.length_cons, ih]

theorem prev_succ_mod (hcap : 0 < cap) : prev cap ((t + 1) % cap) = t % cap := by
  have ht := Nat.mod_lt t hcap
  rw [← Nat.mod_add_mod, prev]
  by_cases hlast : t % cap + 1 = cap
  · rw [hlast, Nat.mod_self, if_pos rfl]
    omega
  · rw [Nat.mod_eq_of_lt (by omega), if_neg (by omega), Nat.add_sub_cancel]

/-- From the last element backwards the queue is read from the newest to the oldest. -/
theorem backwards_eq (hcap : 0 < cap) :
    backwards elms cap (n + 1) ((t + n) % cap) = (contents elms cap t (n + 1)).reverse := by
  induction n with
  | zero => rfl
  | succ n ih =>
      rw [backwards, ← Nat.add_assoc, prev_succ_mod hcap, ih, contents_succ_last (n := n + 1),
        List.reverse_append, List.reverse_singleton, List.singleton_append, Nat.add_assoc]

/-- From the cell behind the last element the walk misses the oldest one. -/
theorem backwards_head (hcap : 0 < cap) : backwards elms cap (n + 1) ((t + (n + 1)) % cap) =
    elms ((t + (n + 1)) % cap) :: (contents elms cap (t + 1) n).reverse := by
  rw [show t + (n + 1) = t + 1 + n by omega, backwards_eq hcap, contents_succ_last,
    List.reverse_append, List.reverse_singleton, List.singleton_append]

end RingBuffer
