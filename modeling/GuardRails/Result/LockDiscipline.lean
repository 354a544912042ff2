import GuardRails.Model.Threads
import GuardRails.Spec.Complete
import GuardRails.Spec.Guarding

/-!
# The locks guard the data

Every call takes the lock of a slot before it touches the bins, the delay ring and the counters of
the slot, and `gMutex` before it touches the pools, and gives back what it takes, on every path: in
the refills, in the dumps and what they allocate, and in the handler of a signal. So in whatever
order threads take turns, two accesses to the same data by different threads are never
concurrent: the first thread has given the lock back and the second has taken it in between.
-/

namespace GuardRails

open LockOrder StateHoare

variable {s s' : Heap} {a : Alloc} {B : Block} {evs : List Event} {ops : List (Op LockId LockId)} {l : LockId}

/-- From any heap, with any locks held at the call: each change is made under its lock, what has not
been locked is as it was, and the call ends with the locks that it began with. -/
theorem lock_discipline (env : Env) (depth : ℕ) (bt : List ℕ) (c : Call) (H : List LockId)
    (hs : s.isInit = true) :
    wp (c.exec (ctxOf env depth) bt)
      (fun _ s' => ∃ evs, Disciplined H evs s s' ∧ after H (accesses evs) = H)
      (fun _ s' => ∃ evs, Disciplined H evs s s') s :=
  under_exec (ctxOf_under env depth) c s hs

/-- A block is taken back under the lock of its slot. -/
theorem lock_discipline_free : ∃ st p, Reachable (Env.still .defaults) 1 st ∧ st.held = [(p, 24)] ∧
    wp ((Call.free p).exec (ctxOf (Env.still .defaults) 1) [7])
      (fun _ s' => ∃ evs, Disciplined [] evs st.heap s' ∧ after [] (accesses evs) = [])
      (fun _ s' => ∃ evs, Disciplined [] evs st.heap s') st.heap := by
  obtain ⟨st, a, -, hr, hidle, hheld, -⟩ := exists_served 1 24 (by decide) rfl (by decide)
  exact ⟨st, a.ptr, hr, hheld, lock_discipline _ _ _ _ _ hidle.inv.isInit⟩

/-! ## Threads -/

/-- What a thread does with the locks and the data behind them while it makes calls, one after the
other. What a call finds in the heap is left open: other threads have been there. -/
inductive Works : List (Op LockId LockId) → Prop
  | done : Works []
  | call {env : Env} {depth : ℕ} {bt : List ℕ} {c : Call} {s s' : Heap} {p : ℕ} {evs : List Event}
      {ops : List (Op LockId LockId)} (hs : s.isInit = true)
      (hexec : c.exec (ctxOf env depth) bt s = .ok p s') (hlog : s'.log = evs ++ s.log)
      (hrest : Works ops) : Works (accesses evs ++ ops)
  | stuck {env : Env} {depth : ℕ} {bt : List ℕ} {c : Call} {s s' : Heap} {halt : Halt} {evs : List Event}
      (hs : s.isInit = true) (hexec : c.exec (ctxOf env depth) bt s = .error halt s')
      (hlog : s'.log = evs ++ s.log) : Works (accesses evs)

theorem Works.passes (h : Works ops) : Passes Holding [] ops := by
  induction h with
  | done => trivial
  | @call env depth bt c s s' p evs ops hs hexec hlog _ ih =>
      obtain ⟨evs', hg, hafter⟩ := wp_ok (under_exec (H := []) (ctxOf_under env depth) c s hs) hexec
      obtain rfl : evs' = evs := List.append_cancel_right (hg.log.symm.trans hlog)
      exact hg.passes.append (hafter.symm ▸ ih)
  | @stuck env depth bt c s s' halt evs hs hexec hlog =>
      obtain ⟨evs', hg⟩ := wp_error (under_exec (H := []) (ctxOf_under env depth) c s hs) hexec
      obtain rfl : evs' = evs := List.append_cancel_right (hg.log.symm.trans hlog)
      exact hg.passes

section Schedules

variable {Thread : Type*} {σ σ' : System Thread LockId LockId} {t u : Thread}

theorem guarded_of_works (hheld : ∀ t, σ.held t = []) (hworks : ∀ t, Works (σ.todo t)) :
    σ.Guarded id where
  passes t := by
    rw [hheld]
    exact (hworks t).passes
  unshared t u l h := absurd (hheld t ▸ h) List.not_mem_nil

variable [DecidableEq Thread]

/-- In whatever order any number of threads take turns: between two accesses of different threads
to what the same lock guards, the first gives the lock back and the second takes it. -/
theorem accesses_ordered (hheld : ∀ t, σ.held t = []) (hworks : ∀ t, Works (σ.todo t)) (hne : t ≠ u)
    {pre mid post : List (Thread × Op LockId LockId)}
    (hrun : Schedule LockId.Recursive σ (pre ++ (t, .mark l) :: (mid ++ (u, .mark l) :: post)) σ') :
    ∃ xs ys zs, mid = xs ++ (t, .unlock l) :: ys ++ (u, .lock l) :: zs :=
  hrun.ordered (guarded_of_works hheld hworks) hne rfl

end Schedules

/-- What a release does: it counts the block off and moves it from one list to another. -/
def releaseOps (i : ℕ) : List (Op LockId LockId) :=
  [.lock (.slot i), .mark (.slot i), .mark (.slot i), .mark (.slot i), .unlock (.slot i)]

theorem slot_of_lock_mem {i : ℕ} (h : .lock l ∈ releaseOps i) : l = .slot i := by
  simpa [releaseOps] using h

theorem accesses_ordered_free : ∃ (σ σ' : System Bool LockId LockId) (l : LockId)
    (pre mid post : List (Bool × Op LockId LockId)), (∀ t, σ.held t = []) ∧ (∀ t, Works (σ.todo t)) ∧
      Schedule LockId.Recursive σ (pre ++ (false, .mark l) :: (mid ++ (true, .mark l) :: post)) σ' ∧
      ∃ xs ys zs, mid = xs ++ (false, .unlock l) :: ys ++ (true, .lock l) :: zs := by
  obtain ⟨st, a, B, -, hidle, hheld, hlive, hB, -⟩ := exists_served 1 24 (by decide) rfl (by decide)
  have hmem : (a.ptr, 24) ∈ st.held := hheld ▸ List.mem_cons_self
  obtain ⟨s', hstep, hlog⟩ : ∃ s', Step (Env.still .defaults) 1 st (.free a.ptr) s' ∧
      s'.heap.log = freeEvents B.slot B.bin a.hdr ++ st.heap.log := by
    obtain ⟨s', hstep, -, hlog⟩ := hidle.free (Env.still_granting rfl) rfl hmem hlive hB
    exact ⟨_, hstep, hlog⟩
  obtain ⟨-, hexec⟩ := hstep
  have hworks : Works (releaseOps B.slot) := by
    have hcall := Works.call hidle.inv.isInit hexec hlog .done
    rwa [List.append_nil] at hcall
  have hslot : ∀ l, .lock l ∈ releaseOps B.slot → l.Recursive := fun l hl => slot_of_lock_mem hl ▸ trivial
  have hback : after [] (releaseOps B.slot) = [] := List.erase_cons_head ..
  obtain ⟨σ, hheld, htodo⟩ : ∃ σ : System Bool LockId LockId, (∀ t, σ.held t = []) ∧
      ∀ t, σ.todo t = releaseOps B.slot := ⟨⟨fun _ => [], fun _ => _⟩, fun _ => rfl, fun _ => rfl⟩
  -- one thread after the other
  have hfirst := Schedule.alone (htodo false) hslot fun u _ => hheld u
  rw [hheld, hback] at hfirst
  have hothers : ∀ u ≠ true, Function.update σ.held false [] u = [] := by
    intro u hu
    rw [Bool.eq_false_of_not_eq_true hu, Function.update_self]
  have hsecond := Schedule.alone (σ := ⟨_, Function.update σ.todo false []⟩) (htodo true) hslot hothers
  obtain ⟨l, hl⟩ : ∃ l, LockId.slot B.slot = l := ⟨_, rfl⟩
  obtain ⟨σ', hrun⟩ : ∃ σ', Schedule LockId.Recursive σ ([(false, .lock l)] ++ (false, .mark l) ::
      ([(false, .mark l), (false, .mark l), (false, .unlock l), (true, .lock l)] ++
        (true, .mark l) :: [(true, .mark l), (true, .mark l), (true, .unlock l)])) σ' := by
    subst hl
    exact ⟨_, hfirst.trans hsecond⟩
  have hw : ∀ t, Works (σ.todo t) := fun t => htodo t ▸ hworks
  exact ⟨σ, σ', l, _, _, _, hheld, hw, hrun, accesses_ordered hheld hw (by decide) hrun⟩

end GuardRails
