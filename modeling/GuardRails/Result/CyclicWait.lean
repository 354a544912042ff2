import GuardRails.Spec.Locking
import GuardRails.Spec.Run

/-!
# Cyclic waits

A dump takes the locks of all slots, one after the other, and what it prints may allocate in any
slot. It may begin under the lock of a slot, and under `gMutex`, so that threads can come to wait
for each other. The locks have an order nevertheless: that of the slots, with `gMutex` behind
them. It is kept while no dump begins, and nothing is allocated or released, under locks that
come later than a lock that is still needed.
-/

namespace GuardRails

open LockOrder Relation StateHoare

variable {n i : ℕ} {held : List LockId} {part : Part} {ops : List (Op LockId Waypoint)}
  {Thread : Type*} {σ σ₀ : System Thread LockId Waypoint}

def Allowed (held : List LockId) : Waypoint → Prop
  | .dump => .gMutex ∉ held ∧ ∀ i j, .slot i ∈ held → j < i → .slot j ∈ held
  | .serve k => .gMutex ∉ held ∧ (.slot k ∈ held ∨ ∀ i, .slot i ∈ held → i < k)

def LockId.rank (numSlots : ℕ) : LockId → ℕ
  | gMutex => 0
  | slot i => numSlots - i
  | initMutex => numSlots + 1

def InUse (numSlots : ℕ) (held : List LockId) : Prop := ∀ i, .slot i ∈ held → i < numSlots

def Part.Needs (held : List LockId) : Part → Prop
  | refill | pool => .gMutex ∉ held
  | slots _ => Allowed held .dump
  | _ => True

theorem InUse.cons_slot (h : InUse n held) (hi : i < n) : InUse n (.slot i :: held) := by
  intro j hj
  obtain hj | hj := List.mem_cons.1 hj
  · exact (LockId.slot.inj hj).symm ▸ hi
  · exact h j hj

theorem InUse.cons_gMutex (h : InUse n held) : InUse n (.gMutex :: held) := by
  intro j hj
  obtain hj | hj := List.mem_cons.1 hj
  · cases hj
  · exact h j hj

/-- A slot that comes after all that are held. -/
theorem inOrder_slot (hg : .gMutex ∉ held) (hin : InUse n held)
    (h : .slot i ∈ held ∨ ∀ j, .slot j ∈ held → j < i) :
    InOrder LockId.Recursive (LockId.rank n) held (.slot i) := by
  refine h.imp (fun h => ⟨trivial, h⟩) fun h k hk => ?_
  cases k with
  | slot j =>
      have hj := h j hk
      have hn := hin j hk
      change n - i < n - j
      omega
  | gMutex => exact absurd hk hg
  | initMutex =>
      change n - i < n + 1
      omega

theorem inOrder_gMutex (hg : .gMutex ∉ held) (hin : InUse n held) :
    InOrder LockId.Recursive (LockId.rank n) held .gMutex := by
  refine .inr fun k hk => ?_
  cases k with
  | slot j => exact Nat.sub_pos_of_lt (hin j hk)
  | gMutex => exact absurd hk hg
  | initMutex => exact Nat.succ_pos n

/-- In a dump the next slot is held, or after all that are held. -/
theorem Allowed.slot (h : Allowed held .dump) (i : ℕ) :
    .slot i ∈ held ∨ ∀ j, .slot j ∈ held → j < i := by
  by_cases hi : .slot i ∈ held
  · exact .inl hi
  · refine .inr fun j hj => ?_
    by_contra hlt
    obtain rfl | hlt := Nat.eq_or_lt_of_le (Nat.le_of_not_lt hlt)
    · exact hi hj
    · exact hi (h.2 j i hj hlt)

theorem Trace.balanced (h : Trace n part ops) : ∀ held, InUse n held → part.Needs held →
    Balanced LockId.Recursive Allowed (LockId.rank n) held ops := by
  induction h with
  | thread_done | refill_done | limitDump_none | release_null | stdio_done | slots_done =>
      exact fun _ _ _ => balanced_nil
  | thread_alloc _ _ ihx ihy | thread_release _ _ ihx ihy | thread_dump _ _ ihx ihy
  | limitDumps _ _ ihx ihy | stdio_alloc _ _ ihx ihy | stdio_release _ _ ihx ihy =>
      exact fun held hin _ => (ihx held hin trivial).append (ihy held hin trivial)
  | refill_more _ _ ihx ihy => exact fun held hin hg => (ihx held hin hg).append (ihy held hin hg)
  | limitDump_some _ ih => exact fun held hin _ => ih held hin trivial
  | @alloc i xs ys hi _ _ ihx ihy =>
      intro held hin _
      refine .mark fun hserve => .section (inOrder_slot hserve.1 hin hserve.2) ?_
      have hin' := hin.cons_slot hi
      have hg : .gMutex ∉ LockId.slot i :: held := by simp [hserve.1]
      exact (ihx _ hin' hg).append (ihy _ hin' trivial)
  | release =>
      exact fun held hin _ => .mark fun hserve =>
        .section (inOrder_slot hserve.1 hin hserve.2) balanced_nil
  | pool => exact fun held hin hg => .section (inOrder_gMutex hg hin) balanced_nil
  | pool_dump _ _ ihx ihy =>
      intro held hin hg
      refine .section (inOrder_gMutex hg hin) ?_
      have hin' := hin.cons_gMutex
      exact (ihx _ hin' trivial).append (ihy _ hin' trivial)
  | dump _ _ _ ihx ihy ihz =>
      exact fun held hin _ => .mark fun hdump =>
        ((ihx held hin trivial).append (ihy held hin hdump)).append (ihz held hin trivial)
  | @slots_next i xs ys hi _ _ ihx ihy =>
      intro held hin hdump
      refine .append (.section (inOrder_slot hdump.1 hin (hdump.slot i)) ?_) (ihy held hin hdump)
      exact ihx _ (hin.cons_slot hi) trivial

theorem Starts.orderly (h : Starts n σ₀) :
    σ₀.Orderly LockId.Recursive Allowed (LockId.rank n) where
  inTurn t := by
    rw [h.held t]
    exact ((h.todo t).balanced [] nofun trivial).inTurn
  unshared t u l hl := by
    rw [h.held t] at hl
    cases hl

/-- In a run in which every dump and every request is allowed where it begins, there is no state
in which threads wait for each other. -/
theorem waits_acyclic [DecidableEq Thread] (hstart : Starts n σ₀)
    (hrun : ReflTransGen (System.Step LockId.Recursive Allowed) σ₀ σ) :
    ¬ σ.CyclicWait LockId.Recursive :=
  (hstart.orderly.run hrun).not_cyclicWait

/-- What a call of the client does to the locks is a trace of a thread, and the beginning of one
when the call does not return. -/
theorem Reachable.performs {env : Env} {depth : ℕ} {st : Proc} (henv : env.Ok) (hcalm : env.Calm)
    (hslots : 0 < env.args.numSlots) (hr : Reachable env depth st) (c : Call) (bt : List ℕ) :
    wp (c.exec (ctxOf env depth) bt)
      (fun _ s' => Performs (traces env.args.numSlots .thread) st.heap s')
      (fun _ s' => Performs (beginnings (traces env.args.numSlots .thread)) st.heap s') st.heap := by
  have hst := hr.inv henv
  have hctx := ctxOf_follows hcalm hslots depth
  exact (exec_follows hctx hslots c).run _ hst.isInit (by rw [hst.rep.shape.args_eq])

/-! ## Two slots -/

/-- Both slots, one after the other. -/
theorem trace_slots : Trace 2 (.slots 0)
    [.lock (.slot 0), .unlock (.slot 0), .lock (.slot 1), .unlock (.slot 1)] :=
  .slots_next (by decide) .stdio_done (.slots_next (by decide) .stdio_done (.slots_done le_rfl))

/-- A dump that opens its file with a buffer in the slot `i`. -/
def dumpOps (i : ℕ) : List (Op LockId Waypoint) :=
  [.mark .dump, .mark (.serve i), .lock (.slot i), .unlock (.slot i),
    .mark (.serve i), .lock (.slot i), .unlock (.slot i),
    .lock (.slot 0), .unlock (.slot 0), .lock (.slot 1), .unlock (.slot 1)]

theorem trace_dumpOps (hi : i < 2) : Trace 2 .dump (dumpOps i) :=
  .dump (.stdio_alloc (.alloc hi .refill_done (.limitDumps .limitDump_none .limitDump_none))
    (.stdio_release .release .stdio_done)) trace_slots .stdio_done

/-- A request that the slot `i` serves and that starts such a dump, with a buffer in the slot `j`. -/
def allocOps (i j : ℕ) : List (Op LockId Waypoint) :=
  .mark (.serve i) :: .lock (.slot i) :: (dumpOps j ++ [.unlock (.slot i)])

theorem trace_allocOps {j : ℕ} (hi : i < 2) (hj : j < 2) : Trace 2 .thread (allocOps i j) := by
  have hdumps : Trace 2 .limitDumps (dumpOps j) :=
    .limitDumps (.limitDump_some (trace_dumpOps hj)) .limitDump_none
  exact .thread_alloc (.alloc hi .refill_done hdumps) .thread_done

/-- Two threads: the first holds `H` and has `xs` ahead, the second `K` and `ys`. -/
def pair (H K : List LockId) (xs ys : List (Op LockId Waypoint)) : System Bool LockId Waypoint where
  held t := if t then K else H
  todo t := if t then ys else xs

theorem pair_starts {xs ys : List (Op LockId Waypoint)} (hx : Trace n .thread xs)
    (hy : Trace n .thread ys) : Starts n (pair [] [] xs ys) where
  held t := by cases t <;> rfl
  todo t := by
    cases t with
    | false => exact hx
    | true => exact hy

section Steps

variable {allowed : List LockId → Waypoint → Prop} {H K : List LockId} {op : Op LockId Waypoint}
  {xs xs' ys ys' : List (Op LockId Waypoint)}

/-- A thread that holds `H` can go on by `op` while the other holds `K`. -/
def MayStep (allowed : List LockId → Waypoint → Prop) (H K : List LockId) : Op LockId Waypoint → Prop
  | .lock l => l ∉ H ∧ l ∉ K
  | .unlock _ => True
  | .mark m => allowed H m

theorem step_first (hxs : xs = op :: xs') (hop : MayStep allowed H K op) :
    (pair H K xs ys).Step LockId.Recursive allowed (pair (op.run H) K xs' ys) := by
  have hnext : (pair H K xs ys).advance false op xs' = pair (op.run H) K xs' ys := by
    unfold System.advance pair
    congr 1 <;> funext t <;> cases t <;> rfl
  refine hnext ▸ .mk hxs ?_ ?_
  · rintro l rfl
    refine ⟨fun u hu => ?_, fun h => absurd h hop.1⟩
    cases u with
    | false => exact absurd rfl hu
    | true => exact hop.2
  · rintro m rfl
    exact hop

theorem step_second (hys : ys = op :: ys') (hop : MayStep allowed K H op) :
    (pair H K xs ys).Step LockId.Recursive allowed (pair H (op.run K) xs ys') := by
  have hnext : (pair H K xs ys).advance true op ys' = pair H (op.run K) xs ys' := by
    unfold System.advance pair
    congr 1 <;> funext t <;> cases t <;> rfl
  refine hnext ▸ .mk hys ?_ ?_
  · rintro l rfl
    refine ⟨fun u hu => ?_, fun h => absurd h hop.1⟩
    cases u with
    | false => exact hop.2
    | true => exact absurd rfl hu
  · rintro m rfl
    exact hop

end Steps

/-- Each thread holds its slot and has begun a dump whose buffer lies in the slot of the other. -/
theorem dumps_wait_for_each_other : ∃ σ₀ σ : System Bool LockId Waypoint, Starts 2 σ₀ ∧
    ReflTransGen (System.Step LockId.Recursive fun _ _ => True) σ₀ σ ∧
    σ.CyclicWait LockId.Recursive := by
  have hrun : ReflTransGen (System.Step LockId.Recursive fun _ _ => True)
      (pair [] [] (allocOps 0 1) (allocOps 1 0))
      (pair [.slot 0] [.slot 1] ((allocOps 0 1).drop 4) ((allocOps 1 0).drop 4)) := by
    -- each takes its slot, and each begins its dump
    refine .head (step_first rfl (by trivial)) (.head (step_first rfl (by simp [MayStep, Op.run])) ?_)
    refine .head (step_second rfl (by trivial)) (.head (step_second rfl (by simp [MayStep, Op.run])) ?_)
    refine .head (step_first rfl (by trivial)) (.head (step_first rfl (by trivial)) ?_)
    exact .head (step_second rfl (by trivial)) (.head (step_second rfl (by trivial)) .refl)
  refine ⟨_, _, pair_starts (trace_allocOps (by decide) (by decide))
    (trace_allocOps (by decide) (by decide)), hrun, Set.univ, ⟨true, trivial⟩, fun t _ => ?_⟩
  cases t with
  | false => exact ⟨true, trivial, .slot 1, _, rfl, by decide, fun h => absurd h (by decide)⟩
  | true => exact ⟨false, trivial, .slot 0, _, rfl, by decide, fun h => absurd h (by decide)⟩

/-- A dump at exit waits for a thread that allocates, and only for that. -/
theorem waits_acyclic_at_exit : ∃ σ : System Bool LockId Waypoint,
    σ.Waits LockId.Recursive false true ∧ ¬ σ.CyclicWait LockId.Recursive := by
  have hfirst : Trace 2 .thread (dumpOps 1) := .thread_dump (trace_dumpOps (by decide)) .thread_done
  have hsecond : Trace 2 .thread [.mark (.serve 1), .lock (.slot 1), .unlock (.slot 1)] :=
    .thread_alloc (.alloc (by decide) .refill_done (.limitDumps .limitDump_none .limitDump_none))
      .thread_done
  have hrun : ReflTransGen (System.Step LockId.Recursive Allowed)
      (pair [] [] (dumpOps 1) [.mark (.serve 1), .lock (.slot 1), .unlock (.slot 1)])
      (pair [] [.slot 1] ((dumpOps 1).drop 2) [.unlock (.slot 1)]) := by
    refine .head (step_second rfl (by simp [MayStep, Allowed])) ?_
    refine .head (step_second rfl (by simp [MayStep, Op.run])) ?_
    refine .head (step_first rfl (by simp [MayStep, Allowed])) ?_
    exact .head (step_first rfl (by simp [MayStep, Allowed, Op.run])) .refl
  exact ⟨_, ⟨.slot 1, _, rfl, by decide, fun h => absurd h (by decide)⟩, waits_acyclic (pair_starts hfirst hsecond) hrun⟩

end GuardRails
