import Mathlib.Data.List.Basic
import Mathlib.Data.Set.Basic
import Mathlib.Logic.Function.Basic
import Mathlib.Logic.Relation
import Mathlib.Tactic.Common

/-!
# Lock order

Threads take and give back locks. What a thread still has to do is a list of operations; the
operations of different threads interleave, and one that takes a lock waits until no other
thread holds it. Some locks are `recursive`: the thread that holds one may take it again. Among
the operations there are marks, which stand for places of the code, and `allowed` tells with
which locks held a thread may pass a mark.

When the locks are ranked and every thread asks only for locks that rank below all that it holds,
or for one that it has already, the holder of a lock waits for a lock of lower rank, so that
nobody waits in a circle (`System.Orderly.not_cyclicWait`). A piece of code keeps the order if
every lock is asked for in order as long as the marks before it are allowed (`Balanced`).
-/

namespace LockOrder

open Relation

variable {Thread Lock Mark : Type*}

/-- An operation of a thread: it takes a lock, gives one back, or passes a mark. -/
inductive Op (Lock Mark : Type*)
  | lock (l : Lock)
  | unlock (l : Lock)
  | mark (m : Mark)

/-- The locks that a thread holds after an operation; one that was taken twice occurs twice. -/
def Op.run [DecidableEq Lock] : Op Lock Mark → List Lock → List Lock
  | lock l, held => l :: held
  | unlock l, held => held.erase l
  | mark _, held => held

def after [DecidableEq Lock] (held : List Lock) (ops : List (Op Lock Mark)) : List Lock :=
  ops.foldl (fun held op => op.run held) held

section After

variable [DecidableEq Lock] {held : List Lock} {xs ys : List (Op Lock Mark)} {op : Op Lock Mark}

@[simp] theorem after_nil : after held ([] : List (Op Lock Mark)) = held := rfl

@[simp] theorem after_cons : after held (op :: xs) = after (op.run held) xs := rfl

@[simp] theorem after_append : after held (xs ++ ys) = after (after held xs) ys :=
  List.foldl_append

@[simp] theorem run_unlock_self {l : Lock} : (Op.unlock l : Op Lock Mark).run (l :: held) = held :=
  List.erase_cons_head l held

end After

/-- Threads, each with the locks that it holds and the operations that are ahead of it. -/
structure System (Thread Lock Mark : Type*) where
  held : Thread → List Lock
  todo : Thread → List (Op Lock Mark)

section Steps

variable [DecidableEq Thread] [DecidableEq Lock] (recursive : Lock → Prop)
  (allowed : List Lock → Mark → Prop)

def System.Free (σ : System Thread Lock Mark) (t : Thread) (l : Lock) : Prop :=
  (∀ u ≠ t, l ∉ σ.held u) ∧ (l ∈ σ.held t → recursive l)

/-- The thread `t` has carried out `op`, and `ops` are left. -/
def System.advance (σ : System Thread Lock Mark) (t : Thread) (op : Op Lock Mark)
    (ops : List (Op Lock Mark)) : System Thread Lock Mark where
  held := Function.update σ.held t (op.run (σ.held t))
  todo := Function.update σ.todo t ops

/-- One thread goes on by one operation; a mark that it passes is allowed. -/
inductive System.Step (σ : System Thread Lock Mark) : System Thread Lock Mark → Prop
  | mk {t : Thread} {op : Op Lock Mark} {ops : List (Op Lock Mark)} (htodo : σ.todo t = op :: ops)
      (hfree : ∀ l, op = .lock l → σ.Free recursive t l)
      (hmark : ∀ m, op = .mark m → allowed (σ.held t) m) :
      Step σ (σ.advance t op ops)

def System.Waits (σ : System Thread Lock Mark) (t u : Thread) : Prop :=
  ∃ l ops, σ.todo t = .lock l :: ops ∧ l ∈ σ.held u ∧ (u = t → ¬ recursive l)

/-- A set of threads each of which waits for one of the set. -/
def System.CyclicWait (σ : System Thread Lock Mark) : Prop :=
  ∃ S : Set Thread, S.Nonempty ∧ ∀ t ∈ S, ∃ u ∈ S, σ.Waits recursive t u

end Steps

section Order

variable [DecidableEq Lock] (recursive : Lock → Prop) (allowed : List Lock → Mark → Prop)
  (rank : Lock → ℕ)

/-- A thread that holds the locks `held` may ask for `l`. -/
def InOrder (held : List Lock) (l : Lock) : Prop :=
  recursive l ∧ l ∈ held ∨ ∀ k ∈ held, rank l < rank k

/-- Every mark is allowed where it stands. -/
def Passes : List Lock → List (Op Lock Mark) → Prop
  | _, [] => True
  | held, op :: ops => (∀ m, op = .mark m → allowed held m) ∧ Passes (op.run held) ops

/-- Every lock is asked for in order, as long as the marks are allowed. -/
def InTurn : List Lock → List (Op Lock Mark) → Prop
  | _, [] => True
  | held, op :: ops => (∀ l, op = .lock l → InOrder recursive rank held l) ∧
      ((∀ m, op = .mark m → allowed held m) → InTurn (op.run held) ops)

/-- A piece of code that keeps the order and gives back what it takes. -/
structure Balanced (held : List Lock) (ops : List (Op Lock Mark)) : Prop where
  inTurn : InTurn recursive allowed rank held ops
  after_eq : Passes allowed held ops → after held ops = held

variable {recursive allowed rank} {held : List Lock} {xs ys : List (Op Lock Mark)} {l : Lock}
  {m : Mark}

theorem Passes.of_append (h : Passes allowed held (xs ++ ys)) :
    Passes allowed held xs ∧ Passes allowed (after held xs) ys := by
  induction xs generalizing held with
  | nil => exact ⟨trivial, h⟩
  | cons op xs ih =>
      obtain ⟨hop, hrest⟩ := h
      obtain ⟨hxs, hys⟩ := ih hrest
      exact ⟨⟨hop, hxs⟩, hys⟩

theorem InTurn.append (hxs : InTurn recursive allowed rank held xs)
    (hys : Passes allowed held xs → InTurn recursive allowed rank (after held xs) ys) :
    InTurn recursive allowed rank held (xs ++ ys) := by
  induction xs generalizing held with
  | nil => exact hys trivial
  | cons op xs ih =>
      obtain ⟨hop, hrest⟩ := hxs
      exact ⟨hop, fun hmark => ih (hrest hmark) fun hpass => hys ⟨hmark, hpass⟩⟩

theorem balanced_nil : Balanced recursive allowed rank held [] := ⟨trivial, fun _ => rfl⟩

theorem Balanced.append (hxs : Balanced recursive allowed rank held xs)
    (hys : Balanced recursive allowed rank held ys) :
    Balanced recursive allowed rank held (xs ++ ys) := by
  constructor
  · refine hxs.inTurn.append fun hpass => ?_
    rw [hxs.after_eq hpass]
    exact hys.inTurn
  · intro hpass
    obtain ⟨hpass₁, hpass₂⟩ := hpass.of_append
    rw [hxs.after_eq hpass₁] at hpass₂
    rw [after_append, hxs.after_eq hpass₁, hys.after_eq hpass₂]

/-- A critical section. -/
theorem Balanced.section (horder : InOrder recursive rank held l)
    (hxs : Balanced recursive allowed rank (l :: held) xs) :
    Balanced recursive allowed rank held (.lock l :: (xs ++ [.unlock l])) := by
  constructor
  · refine ⟨?_, fun _ => hxs.inTurn.append fun _ => ⟨nofun, fun _ => trivial⟩⟩
    rintro _ ⟨⟩
    exact horder
  · rintro ⟨-, hpass⟩
    have hafter : after (l :: held) xs = l :: held := hxs.after_eq hpass.of_append.1
    rw [after_cons, Op.run, after_append, hafter, after_cons, run_unlock_self, after_nil]

/-- After a mark its condition may be used. -/
theorem Balanced.mark (hxs : allowed held m → Balanced recursive allowed rank held xs) :
    Balanced recursive allowed rank held (.mark m :: xs) :=
  ⟨⟨nofun, fun hmark => (hxs (hmark m rfl)).inTurn⟩,
    fun hpass => (hxs (hpass.1 m rfl)).after_eq hpass.2⟩

end Order

/-! ## Runs -/

section Runs

variable [DecidableEq Lock] {recursive : Lock → Prop} {allowed : List Lock → Mark → Prop}
  {rank : Lock → ℕ} {σ σ' σ₀ : System Thread Lock Mark} {t u : Thread} {op : Op Lock Mark}
  {ops : List (Op Lock Mark)}

/-- The locks of each thread are asked for in order, and no lock has two holders. -/
structure System.Orderly (recursive : Lock → Prop) (allowed : List Lock → Mark → Prop)
    (rank : Lock → ℕ) (σ : System Thread Lock Mark) : Prop where
  inTurn : ∀ t, InTurn recursive allowed rank (σ.held t) (σ.todo t)
  unshared : ∀ t u l, l ∈ σ.held t → l ∈ σ.held u → t = u

/-- The lock that the holder waits for ranks below the one that it holds. -/
theorem System.Orderly.rank_lt (h : σ.Orderly recursive allowed rank) {l k : Lock}
    (hl : l ∈ σ.held t) (htodo : σ.todo t = .lock k :: ops)
    (hk : k ∈ σ.held u) (hrec : u = t → ¬ recursive k) : rank k < rank l := by
  have hturn := h.inTurn t
  rw [htodo] at hturn
  obtain ⟨hr, hk'⟩ | hbelow := hturn.1 k rfl
  · exact absurd hr (hrec (h.unshared u t k hk hk'))
  · exact hbelow l hl

/-- Nobody waits in a circle: the rank would fall all along. -/
theorem System.Orderly.not_cyclicWait (h : σ.Orderly recursive allowed rank) :
    ¬ σ.CyclicWait recursive := by
  rintro ⟨S, ⟨t, ht⟩, hS⟩
  have hfall : ∀ n, ∀ t ∈ S, ∀ l ops, σ.todo t = .lock l :: ops → rank l ≠ n := by
    intro n
    induction n using Nat.strong_induction_on with
    | _ n ih =>
        rintro t ht l ops htodo rfl
        obtain ⟨u, hu, l', ops', htodo', hl, -⟩ := hS t ht
        have heq : Op.lock l' = Op.lock l := (List.cons.inj (htodo'.symm.trans htodo)).1
        obtain rfl := Op.lock.inj heq
        obtain ⟨v, -, k, opsₖ, htodoₖ, hk, hrec⟩ := hS u hu
        exact ih _ (h.rank_lt hl htodoₖ hk hrec) u hu k opsₖ htodoₖ rfl
  obtain ⟨-, -, l, ops, htodo, -⟩ := hS t ht
  exact hfall _ t ht l ops htodo rfl

variable [DecidableEq Thread]

@[simp] theorem System.held_advance : (σ.advance t op ops).held t = op.run (σ.held t) :=
  Function.update_self ..

@[simp] theorem System.todo_advance : (σ.advance t op ops).todo t = ops :=
  Function.update_self ..

theorem System.held_advance_of_ne (h : u ≠ t) : (σ.advance t op ops).held u = σ.held u :=
  Function.update_of_ne h ..

theorem System.todo_advance_of_ne (h : u ≠ t) : (σ.advance t op ops).todo u = σ.todo u :=
  Function.update_of_ne h ..

theorem System.Step.orderly (hstep : σ.Step recursive allowed σ')
    (h : σ.Orderly recursive allowed rank) : σ'.Orderly recursive allowed rank := by
  obtain ⟨htodo, hfree, hmark⟩ := hstep
  rename_i t op ops
  -- the thread that moves asks for free locks only
  have hnew : ∀ u ≠ t, ∀ l, l ∈ op.run (σ.held t) → l ∉ σ.held u := by
    intro u hu l hl hl'
    cases op with
    | lock k =>
        obtain rfl | hl := List.mem_cons.1 hl
        · exact (hfree l rfl).1 u hu hl'
        · exact hu (h.unshared u t l hl' hl)
    | unlock k => exact hu (h.unshared u t l hl' (List.mem_of_mem_erase hl))
    | mark m => exact hu (h.unshared u t l hl' hl)
  constructor
  · intro u
    by_cases hu : u = t
    · subst hu
      have hturn := h.inTurn u
      rw [htodo] at hturn
      rw [held_advance, todo_advance]
      exact hturn.2 hmark
    · rw [held_advance_of_ne hu, todo_advance_of_ne hu]
      exact h.inTurn u
  · intro u v l hl hl'
    by_cases hu : u = t <;> by_cases hv : v = t
    · exact hu.trans hv.symm
    · subst hu
      rw [held_advance] at hl
      rw [held_advance_of_ne hv] at hl'
      exact absurd hl' (hnew v hv l hl)
    · subst hv
      rw [held_advance_of_ne hu] at hl
      rw [held_advance] at hl'
      exact absurd hl (hnew u hu l hl')
    · rw [held_advance_of_ne hu] at hl
      rw [held_advance_of_ne hv] at hl'
      exact h.unshared u v l hl hl'

theorem System.Orderly.run (h : σ₀.Orderly recursive allowed rank)
    (hrun : ReflTransGen (System.Step recursive allowed) σ₀ σ) :
    σ.Orderly recursive allowed rank := by
  induction hrun with
  | refl => exact h
  | tail _ hstep ih => exact hstep.orderly ih

end Runs

end LockOrder
