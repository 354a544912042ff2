import GuardRails.Lib.LockOrder

/-!
# Data behind locks

A mark stands for an access to data that a lock guards. If every thread, taken by itself, holds
the guard of each access that it makes (`Passes`), then in every interleaving two accesses of
different threads behind one lock are ordered: between them the first thread gives the lock back
and the second takes it (`Schedule.ordered`).
-/

namespace LockOrder

variable {Thread Lock Mark : Type*} [DecidableEq Thread] [DecidableEq Lock] {recursive : Lock → Prop}
  {σ σ' : System Thread Lock Mark} {t u : Thread} {op : Op Lock Mark} {ops : List (Op Lock Mark)}
  {evs : List (Thread × Op Lock Mark)} {l : Lock} {held : List Lock}

inductive Schedule (recursive : Lock → Prop) :
    System Thread Lock Mark → List (Thread × Op Lock Mark) → System Thread Lock Mark → Prop
  | done {σ : System Thread Lock Mark} : Schedule recursive σ [] σ
  | turn {σ σ' : System Thread Lock Mark} {t : Thread} {op : Op Lock Mark} {ops : List (Op Lock Mark)}
      {evs : List (Thread × Op Lock Mark)} (htodo : σ.todo t = op :: ops)
      (hfree : ∀ l, op = .lock l → σ.Free recursive t l)
      (hrest : Schedule recursive (σ.advance t op ops) evs σ') : Schedule recursive σ ((t, op) :: evs) σ'

/-- Every thread is about to access only what it holds the guard of, and no lock has two holders. -/
structure System.Guarded (guard : Mark → Lock) (σ : System Thread Lock Mark) : Prop where
  passes : ∀ t, Passes (fun held m => guard m ∈ held) (σ.held t) (σ.todo t)
  unshared : ∀ t u l, l ∈ σ.held t → l ∈ σ.held u → t = u

omit [DecidableEq Thread] in
theorem mem_run (h : l ∈ op.run held) : l ∈ held ∨ op = .lock l := by
  cases op with
  | lock k =>
      rcases List.mem_cons.1 h with rfl | h
      · exact .inr rfl
      · exact .inl h
  | unlock k => exact .inl (List.mem_of_mem_erase h)
  | mark m => exact .inl h

omit [DecidableEq Thread] in
theorem mem_after (h : l ∈ after held ops) : l ∈ held ∨ .lock l ∈ ops := by
  induction ops generalizing held with
  | nil => exact .inl h
  | cons op ops ih =>
      rcases ih h with h | h
      · refine (mem_run h).imp_right ?_
        rintro rfl
        exact List.mem_cons_self
      · exact .inr (List.mem_cons_of_mem _ h)

omit [DecidableEq Thread] in
/-- A lock is lost only by giving it back. -/
theorem eq_unlock (h : l ∈ held) (h' : l ∉ op.run held) : op = .unlock l := by
  cases op with
  | lock k => exact absurd (List.mem_cons_of_mem _ h) h'
  | unlock k =>
      by_cases hk : l = k
      · rw [hk]
      · exact absurd ((List.mem_erase_of_ne hk).2 h) h'
  | mark m => exact absurd h h'

omit [DecidableEq Thread] in
theorem Passes.append {allowed : List Lock → Mark → Prop} {xs ys : List (Op Lock Mark)}
    (hx : Passes allowed held xs) (hy : Passes allowed (after held xs) ys) :
    Passes allowed held (xs ++ ys) := by
  induction xs generalizing held with
  | nil => exact hy
  | cons x xs ih => exact ⟨hx.1, ih hx.2 hy⟩

section Guarded

variable {guard : Mark → Lock}

theorem System.Guarded.advance (h : σ.Guarded guard) (htodo : σ.todo t = op :: ops)
    (hfree : ∀ l, op = .lock l → σ.Free recursive t l) : (σ.advance t op ops).Guarded guard := by
  have hnew : ∀ u ≠ t, ∀ l, l ∈ op.run (σ.held t) → l ∉ σ.held u := by
    intro u hu l hl hl'
    rcases mem_run hl with hl | rfl
    · exact hu (h.unshared u t l hl' hl)
    · exact (hfree l rfl).1 u hu hl'
  constructor
  · intro u
    by_cases hu : u = t
    · subst hu
      have hpass := h.passes u
      rw [htodo] at hpass
      rw [held_advance, todo_advance]
      exact hpass.2
    · rw [held_advance_of_ne hu, todo_advance_of_ne hu]
      exact h.passes u
  · intro u v l hl hl'
    by_cases hu : u = t
    · subst hu
      by_contra hne
      rw [held_advance] at hl
      rw [held_advance_of_ne (Ne.symm hne)] at hl'
      exact hnew v (Ne.symm hne) l hl hl'
    · rw [held_advance_of_ne hu] at hl
      by_cases hv : v = t
      · subst hv
        rw [held_advance] at hl'
        exact absurd hl (hnew u hu l hl')
      · rw [held_advance_of_ne hv] at hl'
        exact h.unshared u v l hl hl'

theorem Schedule.guarded (hrun : Schedule recursive σ evs σ') (h : σ.Guarded guard) :
    σ'.Guarded guard := by
  induction hrun with
  | done => exact h
  | turn htodo hfree _ ih => exact ih (h.advance htodo hfree)

theorem Schedule.trans {σ₁ : System Thread Lock Mark} {evs' : List (Thread × Op Lock Mark)}
    (h₁ : Schedule recursive σ evs σ₁) (h₂ : Schedule recursive σ₁ evs' σ') :
    Schedule recursive σ (evs ++ evs') σ' := by
  induction h₁ with
  | done => exact h₂
  | turn htodo hfree _ ih => exact .turn htodo hfree (ih h₂)

/-- A thread goes on to the end of its work while nobody else holds a lock. -/
theorem Schedule.alone (htodo : σ.todo t = ops) (hrec : ∀ l, .lock l ∈ ops → recursive l)
    (hothers : ∀ u ≠ t, σ.held u = []) : Schedule recursive σ (ops.map fun op => (t, op))
      ⟨Function.update σ.held t (after (σ.held t) ops), Function.update σ.todo t []⟩ := by
  induction ops generalizing σ with
  | nil =>
      have htodo' : Function.update σ.todo t [] = σ.todo := htodo ▸ Function.update_eq_self t σ.todo
      rw [after_nil, Function.update_eq_self t σ.held, htodo']
      exact .done
  | cons op ops ih =>
      have hrest := ih (σ := σ.advance t op ops) System.todo_advance
        (fun l hl => hrec l (List.mem_cons_of_mem _ hl))
        fun u hu => (System.held_advance_of_ne hu).trans (hothers u hu)
      rw [System.held_advance] at hrest
      unfold System.advance at hrest
      simp only [Function.update_idem] at hrest
      refine .turn htodo (fun l hl => ⟨fun u hu => ?_, fun _ => hrec l (hl ▸ List.mem_cons_self)⟩) hrest
      rw [hothers u hu]
      exact List.not_mem_nil

theorem Schedule.append {evs' : List (Thread × Op Lock Mark)}
    (hrun : Schedule recursive σ (evs ++ evs') σ') :
    ∃ σ₁, Schedule recursive σ evs σ₁ ∧ Schedule recursive σ₁ evs' σ' := by
  induction evs generalizing σ with
  | nil => exact ⟨σ, .done, hrun⟩
  | cons e evs ih =>
      cases hrun with
      | turn htodo hfree hrest =>
          obtain ⟨σ₁, h₁, h₂⟩ := ih hrest
          exact ⟨σ₁, .turn htodo hfree h₁, h₂⟩

/-- Who comes to hold a lock has taken it. -/
theorem Schedule.lock_mem (hrun : Schedule recursive σ evs σ') (h : l ∉ σ.held u) (h' : l ∈ σ'.held u) :
    (u, .lock l) ∈ evs := by
  induction hrun with
  | done => exact absurd h' h
  | @turn σ σ' t op ops evs htodo hfree _ ih =>
      by_cases hl : l ∈ (σ.advance t op ops).held u
      · by_cases hu : u = t
        · subst hu
          rw [System.held_advance] at hl
          obtain rfl := (mem_run hl).resolve_left h
          exact List.mem_cons_self
        · exact absurd (System.held_advance_of_ne (σ := σ) hu ▸ hl) h
      · exact List.mem_cons_of_mem _ (ih hl h')

/-- A lock goes from one thread to another by being given back and taken. -/
theorem Schedule.passed_on (hrun : Schedule recursive σ evs σ') (hσ : σ.Guarded guard) (hne : t ≠ u)
    (h : l ∈ σ.held t) (h' : l ∈ σ'.held u) :
    ∃ xs ys zs, evs = xs ++ (t, .unlock l) :: ys ++ (u, .lock l) :: zs := by
  induction hrun with
  | done => exact absurd (hσ.unshared t u l h h') hne
  | @turn σ σ' v op ops evs htodo hfree hrest ih =>
      by_cases hl : l ∈ (σ.advance v op ops).held t
      · obtain ⟨xs, ys, zs, rfl⟩ := ih (hσ.advance htodo hfree) hl h'
        exact ⟨(v, op) :: xs, ys, zs, rfl⟩
      · obtain rfl : t = v := by
          by_contra hv
          exact hl (System.held_advance_of_ne (σ := σ) hv ▸ h)
        rw [System.held_advance] at hl
        obtain rfl := eq_unlock h hl
        have hu : l ∉ (σ.advance t (.unlock l) ops).held u := by
          rw [System.held_advance_of_ne hne.symm]
          exact fun hu => hne (hσ.unshared t u l h hu)
        obtain ⟨ys, zs, rfl⟩ := List.append_of_mem (hrest.lock_mem hu h')
        exact ⟨[], ys, zs, rfl⟩

/-- An access is made under the guard of what is accessed. -/
theorem Schedule.holds {m : Mark} (hrun : Schedule recursive σ ((t, .mark m) :: evs) σ')
    (hσ : σ.Guarded guard) :
    guard m ∈ σ.held t ∧ ∃ σ₁, σ₁.held = σ.held ∧ σ₁.Guarded guard ∧ Schedule recursive σ₁ evs σ' := by
  cases hrun with
  | @turn _ _ _ _ ops _ htodo hfree hrest =>
      have hpass := hσ.passes t
      rw [htodo] at hpass
      refine ⟨hpass.1 m rfl, _, ?_, hσ.advance htodo hfree, hrest⟩
      exact Function.update_eq_self t σ.held

/-- Two accesses of different threads behind one lock are ordered by it. -/
theorem Schedule.ordered {m m' : Mark} {pre mid post : List (Thread × Op Lock Mark)}
    (hrun : Schedule recursive σ (pre ++ (t, .mark m) :: (mid ++ (u, .mark m') :: post)) σ')
    (hσ : σ.Guarded guard) (hne : t ≠ u) (hguard : guard m' = guard m) :
    ∃ xs ys zs, mid = xs ++ (t, .unlock (guard m)) :: ys ++ (u, .lock (guard m)) :: zs := by
  obtain ⟨σ₁, hpre, hrun⟩ := hrun.append
  obtain ⟨ht, σ₂, hheld, hσ₂, hrun⟩ := hrun.holds (hpre.guarded hσ)
  obtain ⟨σ₃, hmid, hrun⟩ := hrun.append
  obtain ⟨hu, -⟩ := hrun.holds (hmid.guarded hσ₂)
  exact hmid.passed_on hσ₂ hne (hheld ▸ ht) (hguard ▸ hu)

end Guarded

end LockOrder
