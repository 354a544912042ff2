import Mathlib.Data.List.Basic
import Mathlib.Data.List.Forall2
import Mathlib.Data.Nat.Basic
import Mathlib.Logic.Function.Basic

/-!
# Heaps of objects

What an allocator is for: under a pointer lies an object, a sequence of bytes, and only the
actions on that pointer change it. A pointer that is handed out belongs to no object yet, and what
is read is what is there. A machine refines this heap if each of its steps stands for actions that
are possible on the objects which it shows (`Runs.refines`).
-/

namespace ObjectHeap

variable {κ β : Type*}

abbrev Objects (κ β : Type*) := κ → Option (List β)

/-- What a client does, with what it finds. -/
inductive HeapAction (κ β : Type*)
  | create (k : κ) (bytes : List β)
  | destroy (k : κ)
  /-- The object at `k` goes to `k'` with as much of it as there is room for. -/
  | move (k k' : κ) (bytes : List β)
  | write (k : κ) (off : ℕ) (bytes : List β)
  | read (k : κ) (off : ℕ) (bytes : List β)

def splice (old : List β) (off : ℕ) (bytes : List β) : List β :=
  old.take off ++ bytes ++ old.drop (off + bytes.length)

section Actions

variable [DecidableEq κ] [DecidableEq β]

def Objects.next (H : Objects κ β) : HeapAction κ β → Option (Objects κ β)
  | .create k bytes => if H k = none then some (Function.update H k (some bytes)) else none
  | .destroy k => (H k).map fun _ => Function.update H k none
  | .move k k' bytes => (H k).bind fun old =>
      if H k' = none ∧ bytes.take old.length = old.take bytes.length then
        some (Function.update (Function.update H k' (some bytes)) k none)
      else none
  | .write k off bytes => (H k).bind fun old =>
      if off + bytes.length ≤ old.length then
        some (Function.update H k (some (splice old off bytes)))
      else none
  | .read k off bytes => (H k).bind fun old =>
      if off + bytes.length ≤ old.length ∧ (old.drop off).take bytes.length = bytes then some H else none

def Objects.run (H : Objects κ β) (as : List (HeapAction κ β)) : Option (Objects κ β) :=
  as.foldlM Objects.next H

variable {H H' : Objects κ β} {k k' : κ} {old bytes : List β} {off : ℕ}

@[simp] theorem Objects.run_singleton {a : HeapAction κ β} : H.run [a] = H.next a := by
  rw [Objects.run, List.foldlM_cons]
  exact bind_pure _

theorem Objects.run_append {as bs : List (HeapAction κ β)} (h : H.run as = some H') :
    H.run (as ++ bs) = H'.run bs := by
  unfold Objects.run at h ⊢
  rw [List.foldlM_append, h]
  rfl

theorem Objects.next_create (h : H k = none) :
    H.next (.create k bytes) = some (Function.update H k (some bytes)) := if_pos h

theorem Objects.next_destroy (h : H k = some old) :
    H.next (.destroy k) = some (Function.update H k none) := by
  rw [Objects.next, h]
  rfl

theorem Objects.next_move (h : H k = some old) (hfree : H k' = none)
    (hkept : bytes.take old.length = old.take bytes.length) :
    H.next (.move k k' bytes) = some (Function.update (Function.update H k' (some bytes)) k none) := by
  rw [Objects.next, h]
  exact if_pos ⟨hfree, hkept⟩

theorem Objects.next_write (h : H k = some old) (hfits : off + bytes.length ≤ old.length) :
    H.next (.write k off bytes) = some (Function.update H k (some (splice old off bytes))) := by
  rw [Objects.next, h]
  exact if_pos hfits

theorem Objects.next_read (h : H k = some old) (hfits : off + bytes.length ≤ old.length)
    (hbytes : (old.drop off).take bytes.length = bytes) : H.next (.read k off bytes) = some H := by
  rw [Objects.next, h]
  exact if_pos ⟨hfits, hbytes⟩

end Actions

/-! ## Objects in a memory -/

variable {m m' : ℕ → β} {p n : ℕ}

def bytesAt (m : ℕ → β) (p n : ℕ) : List β := (List.range n).map fun i => m (p + i)

@[simp] theorem length_bytesAt : (bytesAt m p n).length = n := by
  rw [bytesAt, List.length_map, List.length_range]

theorem getElem_bytesAt {i : ℕ} (h : i < (bytesAt m p n).length) : (bytesAt m p n)[i] = m (p + i) := by
  simp [bytesAt]

theorem bytesAt_congr (h : ∀ i < n, m' (p + i) = m (p + i)) : bytesAt m' p n = bytesAt m p n :=
  List.map_congr_left fun i hi => h i (List.mem_range.1 hi)

theorem take_drop_bytesAt {off k : ℕ} (h : off + k ≤ n) :
    ((bytesAt m p n).drop off).take k = bytesAt m (p + off) k := by
  refine List.ext_getElem ?_ fun i hi _ => ?_
  · simp only [List.length_take, List.length_drop, length_bytesAt]
    omega
  · rw [List.getElem_take, List.getElem_drop, getElem_bytesAt, getElem_bytesAt, Nat.add_assoc]

/-- As much of an object as there is room for at its new place. -/
theorem take_bytesAt {p' n' : ℕ} (h : ∀ i < min n' n, m' (p' + i) = m (p + i)) :
    (bytesAt m' p' n').take n = (bytesAt m p n).take n' := by
  refine List.ext_getElem ?_ fun i hi _ => ?_
  · simp only [List.length_take, length_bytesAt, Nat.min_comm]
  · rw [List.length_take, length_bytesAt] at hi
    rw [List.getElem_take, List.getElem_take, getElem_bytesAt, getElem_bytesAt]
    exact h i (by omega)

theorem bytesAt_splice {off : ℕ} {bytes : List β} (hfits : off + bytes.length ≤ n)
    (hin : ∀ i (h : i < bytes.length), m' (p + (off + i)) = bytes[i])
    (hout : ∀ i < n, i < off ∨ off + bytes.length ≤ i → m' (p + i) = m (p + i)) :
    bytesAt m' p n = splice (bytesAt m p n) off bytes := by
  unfold splice
  refine List.ext_getElem ?_ fun i hi _ => ?_
  · simp only [List.length_append, List.length_take, List.length_drop, length_bytesAt]
    omega
  · rw [length_bytesAt] at hi
    have hlen : ((bytesAt m p n).take off).length = off := by
      rw [List.length_take, length_bytesAt]
      omega
    rw [getElem_bytesAt]
    by_cases hlow : i < off
    · rw [List.getElem_append_left (by rw [List.length_append]; omega), List.getElem_append_left (by omega),
        List.getElem_take, getElem_bytesAt]
      exact hout i hi (.inl hlow)
    · by_cases hmid : i < off + bytes.length
      · rw [List.getElem_append_left (by rw [List.length_append]; omega), List.getElem_append_right (by omega)]
        simp only [hlen]
        have h := hin (i - off) (by omega)
        rwa [Nat.add_sub_cancel' (not_lt.1 hlow)] at h
      · rw [List.getElem_append_right (by rw [List.length_append]; omega), List.getElem_drop, getElem_bytesAt]
        rw [hout i hi (.inr (not_lt.1 hmid))]
        congr 2
        rw [List.length_append]
        omega

/-! ## Machines -/

variable {σ ℓ : Type*}

inductive Runs (step : σ → ℓ → σ → Prop) (s : σ) : List ℓ → σ → Prop
  | refl : Runs step s [] s
  | tail {ls : List ℓ} {l : ℓ} {s' s'' : σ} (hrun : Runs step s ls s') (hstep : step s' l s'') :
      Runs step s (ls ++ [l]) s''

/-- If every step of a machine stands for actions on the objects that it shows, every run does. -/
theorem Runs.refines [DecidableEq κ] [DecidableEq β] {step : σ → ℓ → σ → Prop} {inv : σ → Prop}
    {objects : σ → Objects κ β} {means : ℓ → List (HeapAction κ β) → Prop} {s s' : σ} {ls : List ℓ}
    (hstep : ∀ s l s', inv s → step s l s' →
      inv s' ∧ ∃ as, means l as ∧ (objects s).run as = some (objects s'))
    (hs : inv s) (hrun : Runs step s ls s') :
    inv s' ∧ ∃ ass, List.Forall₂ means ls ass ∧ (objects s).run ass.flatten = some (objects s') := by
  induction hrun with
  | refl => exact ⟨hs, [], .nil, rfl⟩
  | tail _ hlast ih =>
      obtain ⟨hinv, ass, hall, hobj⟩ := ih
      obtain ⟨hinv', as, hmeans, has⟩ := hstep _ _ _ hinv hlast
      refine ⟨hinv', ass ++ [as], List.rel_append hall (.cons hmeans .nil), ?_⟩
      rw [List.flatten_append, List.flatten_singleton, Objects.run_append hobj, has]

end ObjectHeap
