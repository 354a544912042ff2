import GuardRails.Model.Threads
import GuardRails.Spec.Inert
import Mathlib.Computability.Language

/-!
# The locks of a call

The history of a call tells which mutexes it took and gave back. When no signal arrives, these
operations are a `Trace` of the call (`exec_follows`), and a call that does not return has gone
some way along one. Most functions are `Mute`: they take no lock and begin no dump.
-/

namespace GuardRails

open LockOrder StateHoare

variable {s s' s₁ s₂ : Heap} {α β : Type} {m : M α} {f : α → M β} {ctx : Ctx} {a n h i b N : ℕ}
  {r : HeadRef} {e : Event} {L L' : Language (Op LockId Waypoint)} {part : Part}

def Event.lockOps : Event → List (Op LockId Waypoint)
  | .acquired l => [.lock l]
  | .released l => [.unlock l]
  | .dumpBegun => [.mark .dump]
  | _ => []

def lockOps : List Event → List (Op LockId Waypoint)
  | [] => []
  | e :: log => lockOps log ++ e.lockOps

/-- The history has no event for the choice of a slot. -/
def shown : Op LockId Waypoint → Bool
  | .mark (.serve _) => false
  | _ => true

theorem lockOps_append {xs ys : List Event} : lockOps (xs ++ ys) = lockOps ys ++ lockOps xs := by
  induction xs with
  | nil => rw [List.nil_append, lockOps, List.append_nil]
  | cons e xs ih => rw [List.cons_append, lockOps, lockOps, ih, List.append_assoc]

def traces (N : ℕ) (part : Part) : Language (Op LockId Waypoint) := {ops | Trace N part ops}

def Within (L L' : Language (Op LockId Waypoint)) : Prop := ∀ ⦃xs⦄, xs ∈ L → xs ∈ L'

structure Performs (L : Language (Op LockId Waypoint)) (s s' : Heap) : Prop where
  isInit : s'.isInit = s.isInit
  grArgs : s'.grArgs = s.grArgs
  log : ∃ evs, s'.log = evs ++ s.log ∧ ∃ ops ∈ L, lockOps evs = ops.filter shown

theorem Performs.mono (h : Performs L s s') (hL : Within L L') : Performs L' s s' := by
  obtain ⟨evs, hlog, ops, hops, heq⟩ := h.log
  exact ⟨h.isInit, h.grArgs, evs, hlog, ops, hL hops, heq⟩

theorem Performs.trans (h₁ : Performs L s s₁) (h₂ : Performs L' s₁ s') : Performs (L * L') s s' := by
  obtain ⟨evs, hlog, xs, hxs, hx⟩ := h₁.log
  obtain ⟨evs', hlog', ys, hys, hy⟩ := h₂.log
  refine ⟨h₂.isInit.trans h₁.isInit, h₂.grArgs.trans h₁.grArgs, evs' ++ evs, ?_, xs ++ ys, ?_, ?_⟩
  · rw [hlog', hlog, List.append_assoc]
  · exact Language.append_mem_mul hxs hys
  · rw [lockOps_append, hx, hy, List.filter_append]

theorem Performs.after (h₂ : Performs L s₁ s') (h₁ : Performs 1 s s₁) : Performs L s s' := by
  have h := h₁.trans h₂
  rwa [one_mul] at h

def beginnings (L : Language (Op LockId Waypoint)) : Language (Op LockId Waypoint) :=
  {xs | ∃ ys, xs ++ ys ∈ L}

theorem beginnings_mono (h : Within L L') : Within (beginnings L) (beginnings L') :=
  fun _ ⟨ys, hys⟩ => ⟨ys, h hys⟩

theorem nil_mem_beginnings (h : ∃ ops, ops ∈ L) : [] ∈ beginnings L := h

theorem beginnings_mul_left (h : ∃ ops, ops ∈ L') :
    Within (beginnings L) (beginnings (L * L')) := by
  rintro xs ⟨ys, hys⟩
  obtain ⟨zs, hzs⟩ := h
  exact ⟨ys ++ zs, by rw [← List.append_assoc]; exact Language.append_mem_mul hys hzs⟩

theorem mul_beginnings : Within (L * beginnings L') (beginnings (L * L')) := by
  rintro _ ⟨xs, hxs, ys, ⟨zs, hzs⟩, rfl⟩
  exact ⟨zs, by rw [List.append_assoc]; exact Language.append_mem_mul hxs hzs⟩

/-- `m` carries out one of the lists of `L`; when it halts, the beginning of one. -/
structure Follows (N : ℕ) (L : Language (Op LockId Waypoint)) (m : M α) : Prop where
  some : ∃ ops, ops ∈ L
  run : ∀ s : Heap, s.isInit = true → s.grArgs.numSlots = N →
    wp m (fun _ s' => Performs L s s') (fun _ s' => Performs (beginnings L) s s') s

/-! ## Rules -/

theorem Performs.of_log (hinit : s'.isInit = s.isInit) (hargs : s'.grArgs = s.grArgs)
    (hlog : s'.log = s.log) : Performs 1 s s' :=
  ⟨hinit, hargs, [], hlog, [], rfl, rfl⟩

theorem Performs.event (hinit : s'.isInit = s.isInit) (hargs : s'.grArgs = s.grArgs)
    (hlog : s'.log = e :: s.log) {ops : List (Op LockId Waypoint)}
    (he : e.lockOps = ops.filter shown) : Performs {ops} s s' :=
  ⟨hinit, hargs, [e], hlog, ops, rfl, he⟩

theorem Performs.refl : Performs 1 s s := .of_log rfl rfl rfl

theorem performs_inert : Inert (Performs 1) where
  inside h := .of_log h.isInit h.grArgs h.log
  trans h₁ h₂ := by
    have h := h₁.trans h₂
    rwa [mul_one] at h
  event {_ e} he := ⟨rfl, rfl, [e], rfl, [], rfl, by cases e <;> first | rfl | cases he⟩

theorem nil_one : ∃ ops, ops ∈ (1 : Language (Op LockId Waypoint)) := ⟨[], rfl⟩

theorem one_le_beginnings (h : ∃ ops, ops ∈ L) : Within 1 (beginnings L) := by
  rintro _ rfl
  exact nil_mem_beginnings h

theorem Moves.follows (hm : Moves (Performs 1) m) : Follows N 1 m where
  some := nil_one
  run s _ _ := wp_mono (hm s) (fun _ _ h => h) fun _ _ h => h.mono (one_le_beginnings nil_one)

theorem Follows.mono (hm : Follows N L m) (hL : Within L L') : Follows N L' m where
  some := hm.some.imp fun _ h => hL h
  run s hi hN := wp_mono (hm.run s hi hN) (fun _ _ h => h.mono hL) fun _ _ h => h.mono (beginnings_mono hL)

theorem Follows.bind (hm : Follows N L m) (hL' : ∃ ops, ops ∈ L') (hf : ∀ a, Follows N L' (f a)) :
    Follows N (L * L') (m >>= f) where
  some := by
    obtain ⟨xs, hxs⟩ := hm.some
    obtain ⟨ys, hys⟩ := hL'
    exact ⟨xs ++ ys, Language.append_mem_mul hxs hys⟩
  run s hi hN := by
    refine wp_bind (wp_mono (hm.run s hi hN) (fun a s₁ h₁ => ?_) fun _ _ h => ?_)
    · refine wp_mono ((hf a).run s₁ (h₁.isInit.trans hi) (h₁.grArgs ▸ hN)) (fun _ _ h₂ => h₁.trans h₂) ?_
      exact fun _ _ h₂ => (h₁.trans h₂).mono mul_beginnings
    · exact h.mono (beginnings_mul_left hL')

/-- The same after steps that have nothing to do with locks. -/
theorem Follows.from (hm : Follows N L m) (h₁ : Performs 1 s s₁) (hi : s.isInit = true)
    (hN : s.grArgs.numSlots = N) :
    wp m (fun _ s' => Performs L s s') (fun _ s' => Performs (beginnings L) s s') s₁ :=
  wp_mono (hm.run s₁ (h₁.isInit.trans hi) (h₁.grArgs ▸ hN)) (fun _ _ h => h.after h₁)
    fun _ _ h => h.after h₁

theorem Moves.seq (hm : Moves (Performs 1) m) (hL : ∃ ops, ops ∈ L) (hf : ∀ a, Follows N L (f a)) :
    Follows N L (m >>= f) := by
  have h := hm.follows.bind hL hf
  rwa [one_mul] at h

theorem Follows.then (hm : Follows N L m) (hf : ∀ a, Moves (Performs 1) (f a)) : Follows N L (m >>= f) := by
  have h := hm.bind nil_one fun a => (hf a).follows
  rwa [mul_one] at h

/-- A lock is taken; before it a mark may be passed. -/
theorem follows_lock {l : LockId} {ops : List (Op LockId Waypoint)}
    (hops : ops.filter shown = [.lock l]) : Follows N {ops} (pthreadMutexLock l) where
  some := ⟨ops, rfl⟩
  run s _ _ := by
    refine wp_pthreadMutexLock (fun _ => ?_) fun _ _ => ?_
    · exact .event (e := .acquired l) (by cases l <;> rfl) (by cases l <;> rfl) rfl hops.symm
    · have hnone : Performs 1 s { s with clock := s.clock + 1 } := .of_log rfl rfl rfl
      exact hnone.mono (one_le_beginnings ⟨ops, rfl⟩)

theorem Follows.of_moves (hm : Moves (Performs 1) m) (hL : [] ∈ L) : Follows N L m :=
  hm.follows.mono fun _ h => h ▸ hL

theorem follows_throw {halt : Halt} (hL : ∃ ops, ops ∈ L) : Follows N L (throw halt : M α) where
  some := hL
  run _ _ _ := wp_throw (Performs.refl.mono (one_le_beginnings hL))

theorem follows_slots {g : Heap → M β} (hL : ∃ ops, ops ∈ L)
    (hg : ∀ s : Heap, s.grArgs.numSlots = N → Follows N L (g s)) : Follows N L (get >>= g) where
  some := hL
  run s hi hN := wp_bind (wp_get ((hg s hN).run s hi hN))

theorem follows_get {g : Heap → M β} (hL : ∃ ops, ops ∈ L) (hg : ∀ s, Follows N L (g s)) :
    Follows N L (get >>= g) :=
  follows_slots hL fun s _ => hg s

theorem follows_ite {c : Prop} [Decidable c] {x y : M α} (hx : c → Follows N L x)
    (hy : ¬ c → Follows N L y) (hL : ∃ ops, ops ∈ L) : Follows N L (if c then x else y) where
  some := hL
  run s hi hN := wp_ite (fun h => (hx h).run s hi hN) fun h => (hy h).run s hi hN

/-- A change that the history does not show. -/
theorem moves_change {g : Heap → Heap} (hinit : ∀ s, (g s).isInit = s.isInit)
    (hargs : ∀ s, (g s).grArgs = s.grArgs) (hlog : ∀ s, (g s).log = s.log) :
    Moves (Performs 1) (modify g : M Unit) :=
  fun s => wp_modify (.of_log (hinit s) (hargs s) (hlog s))

theorem moves_event (he : e.lockOps = []) : Moves (Performs 1) (emit e) :=
  fun _ => wp_emit ⟨rfl, rfl, [e], rfl, [], rfl, by rw [lockOps, he]; rfl⟩

theorem follows_unlock {l : LockId} : Follows N {[.unlock l]} (pthreadMutexUnlock l) where
  some := ⟨_, rfl⟩
  run s _ _ := by
    refine wp_pthreadMutexUnlock (.event (e := .released l) ?_ ?_ rfl rfl)
    · cases l <;> rfl
    · cases l <;> rfl

/-- A signal does not arrive, and dumps and what they print keep to their traces. -/
structure Ctx.Follows (N : ℕ) (ctx : Ctx) : Prop where
  calm : ctx.env.Calm
  printf : GuardRails.Follows N (traces N .stdio) ctx.printf
  dump : ∀ useLocale hwm, GuardRails.Follows N (traces N .dump) (ctx.onExitHelper useLocale hwm)

/-! ## Some trace of every part -/

theorem trace_slots_some (j : ℕ) : ∃ ops, ops ∈ traces N (.slots j) := by
  obtain ⟨k, hk⟩ : ∃ k, k = N - j := ⟨_, rfl⟩
  induction k generalizing j with
  | zero => exact ⟨[], .slots_done (Nat.sub_eq_zero_iff_le.1 hk.symm)⟩
  | succ k ih =>
      obtain ⟨ops, h⟩ := ih (j + 1) (by omega)
      exact ⟨_, .slots_next (by omega) .stdio_done h⟩

theorem trace_dump_some : ∃ ops, ops ∈ traces N .dump := by
  obtain ⟨ops, h⟩ := trace_slots_some (N := N) 0
  exact ⟨_, .dump .stdio_done h .stdio_done⟩

theorem trace_alloc_some (hN : 0 < N) : ∃ ops, ops ∈ traces N .alloc :=
  ⟨_, .alloc hN .refill_done (.limitDumps .limitDump_none .limitDump_none)⟩

/-! ## Pools and refills -/

/-- The dump for lack of memory, and the call of `printf` before it. -/
theorem Ctx.Follows.lastDump (hctx : ctx.Follows N) {site : Site} {k : PUnit → M α} :
    GuardRails.Follows N (traces N .stdio * traces N .dump)
      (do ctx.printf; ctx.onExitHelper false 0; let r ← throw (.abort site); k r) := by
  refine hctx.printf.bind trace_dump_some fun _ => (hctx.dump false 0).then fun _ s => ?_
  exact wp_bind (wp_throw .refl)

theorem addNewMemPool_follows (hctx : ctx.Follows N) :
    GuardRails.Follows N (1 + traces N .stdio * traces N .dump) (addNewMemPool ctx n) := by
  have hR := performs_inert
  have hone : [] ∈ (1 + traces N .stdio * traces N .dump : Language (Op LockId Waypoint)) := .inl rfl
  have hsome : ∃ ops, ops ∈ (1 + traces N .stdio * traces N .dump : Language (Op LockId Waypoint)) :=
    ⟨[], hone⟩
  have hlast : ∀ site (k : PUnit → M ℤ), GuardRails.Follows N (1 + traces N .stdio * traces N .dump)
      (do ctx.printf; ctx.onExitHelper false 0; let r ← throw (.abort site); k r) :=
    fun _ _ => hctx.lastDump.mono fun _ h => .inr h
  unfold addNewMemPool
  extract_lets poolSize
  refine follows_get hsome fun s => hR.moves_grAssert.seq hsome fun _ => ?_
  refine hR.moves_grAssert.seq hsome fun _ => hR.moves_mmap.seq hsome fun start => ?_
  cases start with
  | none =>
      refine hR.moves_tick.seq hsome fun _ => ?_
      extract_lets limit
      exact follows_ite (fun _ => hlast _ _) (fun _ => .of_moves hR.moves_pure hone) hsome
  | some mapStart =>
      refine hR.moves_grAssert.seq hsome fun _ => ?_
      extract_lets rest
      have hrest : ∀ u, Moves (Performs 1) (rest u) := by
        intro _ s
        refine wp_bind (wp_get (wp_ite (fun _ => ?_) fun _ => ?_))
        · exact hR.bind (hR.moves_emit (e := .poolsExhausted) trivial)
            (fun _ _ => wp_bind (wp_throw .refl)) s
        · exact wp_bind (wp_set (wp_pure (.of_log rfl rfl rfl)))
      refine follows_ite (fun _ => hR.moves_mlock.seq hsome fun _ => ?_) (fun _ => ?_) hsome
      · exact follows_ite (fun _ => hlast _ _) (fun _ => .of_moves (hrest ()) hone) hsome
      · exact .of_moves (hrest ()) hone

theorem performs_bump : Performs 1 s (s.bump n) := by
  unfold Heap.bump
  cases s.memPools with
  | nil => exact .refl
  | cons P Ps => exact .of_log rfl rfl rfl

theorem getFromPool_follows (hctx : ctx.Follows N) :
    GuardRails.Follows N (traces N .pool) (getFromPool ctx n) := by
  have hR := performs_inert
  have hunlock : ∃ ops, ops ∈ ({[.unlock .gMutex]} : Language (Op LockId Waypoint)) := ⟨_, rfl⟩
  have hlang : Within
      ({[.lock .gMutex]} * ((1 + traces N .stdio * traces N .dump) * {[.unlock .gMutex]}))
      (traces N .pool) := by
    rintro _ ⟨_, rfl, _, ⟨_, rfl | ⟨xs, hxs, ys, hys, rfl⟩, _, rfl, rfl⟩, rfl⟩
    · exact .pool
    · exact .pool_dump hxs hys
  unfold getFromPool
  extract_lets binTotalSize rest
  have hrest : ∀ ret, GuardRails.Follows N {[.unlock .gMutex]} (rest ret) := by
    intro ret
    have hlast : ∀ x, GuardRails.Follows N {[.unlock .gMutex]}
        (do pthreadMutexUnlock .gMutex; pure x : M ℕ) := fun _ =>
      follows_unlock.then fun _ => hR.moves_pure
    refine follows_ite (fun _ => hlast _) (fun _ => ⟨hunlock, fun s hi hN => ?_⟩) hunlock
    refine wp_bind (wp_get (wp_bind (wp_grAssert (fun _ => wp_bind (wp_set ?_)) fun _ => ?_)))
    · have hbump : Performs 1 s (s.bump binTotalSize) := performs_bump
      have hcut : GuardRails.Follows N {[.unlock .gMutex]} (do
          putGuard ctx s.startFree n
          emit (.carved s.startFree n)
          pthreadMutexUnlock .gMutex
          pure s.startFree) :=
        hR.moves_putGuard.seq hunlock fun _ => (moves_event rfl).seq hunlock fun _ => hlast _
      exact hcut.from hbump hi hN
    · exact Performs.refl.mono (one_le_beginnings hunlock)
  have hsome : ∃ ops, ops ∈ (1 + traces N .stdio * traces N .dump) *
      ({[.unlock .gMutex]} : Language (Op LockId Waypoint)) := ⟨_, [], .inl rfl, _, rfl, rfl⟩
  refine ((follows_lock rfl).bind hsome fun _ => follows_get hsome fun s => ?_).mono hlang
  refine follows_ite (fun _ => (addNewMemPool_follows hctx).bind hunlock hrest) (fun _ => ?_) hsome
  exact (Follows.of_moves hR.moves_pure (.inl rfl)).bind hunlock hrest

theorem replenishLoop_follows (hctx : ctx.Follows N) (fuel : ℕ) :
    GuardRails.Follows N (traces N .refill) (replenishLoop ctx i b fuel) := by
  have hR := performs_inert
  have hpoll : ∀ line, Moves (Performs 1) (ctx.poll line) := fun _ => hR.moves_poll hctx.calm
  have hnil : [] ∈ traces N .refill := .refill_done
  have hmore : Within (traces N .pool * traces N .refill) (traces N .refill) := by
    rintro _ ⟨xs, hxs, ys, hys, rfl⟩
    exact .refill_more hxs hys
  induction fuel with
  | zero => exact follows_throw ⟨_, hnil⟩
  | succ fuel ih =>
      rw [replenishLoop_succ]
      refine (hpoll _).seq ⟨_, hnil⟩ fun _ => ?_
      refine ((getFromPool_follows hctx).bind ⟨_, hnil⟩ fun hdr => ?_).mono hmore
      refine (hpoll _).seq ⟨_, hnil⟩ fun _ => follows_ite (fun _ => ?_) (fun _ => ?_) ⟨_, hnil⟩
      · exact .of_moves hR.moves_pure hnil
      · refine (hR.moves_labelBlock hctx.calm).seq ⟨_, hnil⟩ fun _ => ?_
        refine follows_get ⟨_, hnil⟩ fun _ => follows_ite (fun _ => ih) (fun _ => ?_) ⟨_, hnil⟩
        exact .of_moves (hR.bind (hpoll _) fun _ => hR.moves_pure) hnil

theorem replenishBin_follows (hctx : ctx.Follows N) :
    GuardRails.Follows N (traces N .refill) (replenishBin ctx i b) := by
  have hR := performs_inert
  have hpoll : ∀ line, Moves (Performs 1) (ctx.poll line) := fun _ => hR.moves_poll hctx.calm
  have hnil : [] ∈ traces N .refill := .refill_done
  refine (hpoll _).seq ⟨_, hnil⟩ fun _ => hR.moves_verifyLocked.seq ⟨_, hnil⟩ fun _ => ?_
  refine hR.moves_grAssert.seq ⟨_, hnil⟩ fun _ => ?_
  refine follows_ite (fun _ => follows_throw ⟨_, hnil⟩) (fun _ => ?_) ⟨_, hnil⟩
  refine follows_ite (fun _ => .of_moves hR.moves_pure hnil) (fun _ => ?_) ⟨_, hnil⟩
  refine (hpoll _).seq ⟨_, hnil⟩ fun _ => follows_get ⟨_, hnil⟩ fun _ => ?_
  refine follows_ite (fun _ => replenishLoop_follows hctx _) (fun _ => ?_) ⟨_, hnil⟩
  exact .of_moves (hR.bind (hpoll _) fun _ => hR.moves_pure) hnil

/-! ## Allocation and release -/

theorem moves_countAlloc (hcalm : ctx.env.Calm) {k : ℕ} {q : Request} :
    Moves (Performs 1) (countAlloc ctx i b k q) := by
  have hR := performs_inert
  have hpoll : ∀ line, Moves (Performs 1) (ctx.poll line) := fun _ => hR.moves_poll hcalm
  refine hR.bind (hpoll _) fun _ => hR.bind hR.moves_updBin fun _ => hR.bind (hpoll _) fun _ => ?_
  refine hR.bind hR.moves_grAssert fun _ => hR.bind (hpoll _) fun _ => ?_
  refine hR.bind hR.moves_updHisto fun _ => hR.bind (hpoll _) fun _ => ?_
  refine hR.bind (hR.moves_updSlot fun _ => rfl) fun _ => hR.bind (moves_event rfl) fun _ => ?_
  exact hR.bind (hpoll _) fun _ => moves_change (fun _ => rfl) (fun _ => rfl) fun _ => rfl

theorem limitDumps_follows (hctx : ctx.Follows N) :
    GuardRails.Follows N (traces N .limitDumps) (limitDumps ctx i) := by
  have hR := performs_inert
  have hpoll : ∀ line, Moves (Performs 1) (ctx.poll line) := fun _ => hR.moves_poll hctx.calm
  have hnil : [] ∈ traces N .limitDump := .limitDump_none
  have hdump : ∀ {useLocale hwm}, GuardRails.Follows N (traces N .limitDump) (ctx.onExitHelper useLocale hwm) :=
    (hctx.dump _ _).mono fun _ h => .limitDump_some h
  have hboth : Within (traces N .limitDump * traces N .limitDump) (traces N .limitDumps) := by
    rintro _ ⟨xs, hxs, ys, hys, rfl⟩
    exact .limitDumps hxs hys
  have hsome : ∃ ops, ops ∈ traces N .limitDump * traces N .limitDump :=
    ⟨_, Language.append_mem_mul hnil hnil⟩
  unfold limitDumps
  refine ((hpoll _).seq hsome fun _ => follows_get hsome fun _ => ?_).mono hboth
  extract_lets S
  refine follows_get hsome fun _ => ?_
  extract_lets args rest
  have hrest : ∀ u, GuardRails.Follows N (traces N .limitDump) (rest u) := by
    intro _
    refine (hpoll _).seq ⟨_, hnil⟩ fun _ => follows_get ⟨_, hnil⟩ fun _ => ?_
    refine follows_ite (fun _ => ?_) (fun _ => .of_moves hR.moves_pure hnil) ⟨_, hnil⟩
    refine (moves_event rfl).seq ⟨_, hnil⟩ fun _ => (hpoll _).seq ⟨_, hnil⟩ fun _ => ?_
    exact hdump.then fun _ => hR.moves_throw
  refine follows_ite (fun _ => ?_) (fun _ => ?_) hsome
  · refine (hpoll _).seq hsome fun _ => Moves.seq ?_ hsome fun _ => (hpoll _).seq hsome fun _ => ?_
    · exact moves_change (fun _ => rfl) (fun _ => rfl) fun _ => rfl
    · exact follows_get hsome fun _ => hdump.bind ⟨_, hnil⟩ hrest
  · exact (hrest ()).mono fun ys hys => ⟨[], hnil, ys, hys, rfl⟩

/-- The slot that serves a request is one of those in use. -/
theorem wp_pickSlot (hN : 0 < N) (hs : s.grArgs.numSlots = N) :
    wp (pickSlot ctx n) (fun i s' => i < N ∧ Performs 1 s s') (fun _ s' => Performs 1 s s') s := by
  have htick : Performs 1 s { s with clock := s.clock + 1 } := .of_log rfl rfl rfl
  refine wp_ite (fun _ => wp_bind (wp_tick (wp_bind (wp_get ?_)))) fun _ => wp_pure ⟨hN, .refl⟩
  refine wp_ite (fun _ => wp_throw htick) fun h0 => wp_pure ⟨?_, htick⟩
  exact (Nat.mod_lt _ (Nat.pos_of_ne_zero h0)).trans_eq hs

theorem getBuf_follows (hctx : ctx.Follows N) (hN : 0 < N) {bt : List ℕ} :
    GuardRails.Follows N (traces N .alloc) (getBuf ctx bt a n) := by
  have hR := performs_inert
  have hpoll : ∀ line, Moves (Performs 1) (ctx.poll line) := fun _ => hR.moves_poll hctx.calm
  have hlimit : [] ∈ traces N .limitDumps := .limitDumps .limitDump_none .limitDump_none
  unfold getBuf
  extract_lets reqSize binNum
  refine (hpoll _).seq (trace_alloc_some hN) fun _ => ⟨trace_alloc_some hN, fun s hi hs => ?_⟩
  refine wp_bind (wp_mono (wp_pickSlot hN hs) ?_ fun _ _ h => h.mono (one_le_beginnings (trace_alloc_some hN)))
  rintro i s₁ ⟨hiN, h₁⟩
  have hunlock : ∃ ops, ops ∈ ({[.unlock (.slot i)]} : Language (Op LockId Waypoint)) := ⟨_, rfl⟩
  have hlast : ∃ ops, ops ∈ traces N .limitDumps * {[.unlock (.slot i)]} :=
    ⟨_, Language.append_mem_mul hlimit rfl⟩
  have hsome : ∃ ops, ops ∈ traces N .refill * (traces N .limitDumps * {[.unlock (.slot i)]}) :=
    hlast.imp fun _ h => ⟨[], .refill_done, _, h, rfl⟩
  have hlang : Within ({[.mark (.serve i), .lock (.slot i)]} *
      (traces N .refill * (traces N .limitDumps * {[.unlock (.slot i)]}))) (traces N .alloc) := by
    rintro _ ⟨_, rfl, _, ⟨xs, hxs, _, ⟨ys, hys, _, rfl, rfl⟩, rfl⟩, rfl⟩
    have htrace := Trace.alloc hiN hxs hys
    rwa [List.append_assoc] at htrace
  refine Follows.from (.mono ?_ hlang) h₁ hi hs
  refine (hpoll _).seq ⟨_, Language.append_mem_mul rfl hsome.choose_spec⟩ fun _ => ?_
  refine (follows_lock rfl).bind hsome fun _ => (hpoll _).seq hsome fun _ => ?_
  refine (replenishBin_follows hctx).bind hlast fun ret => (hpoll _).seq hlast fun _ => ?_
  refine follows_ite (fun _ => ?_) (fun _ => ?_) hlast
  · refine Follows.mono (L := {[.unlock (.slot i)]}) ?_ fun ys hys => ⟨[], hlimit, ys, hys, rfl⟩
    exact follows_unlock.then fun _ => hR.bind (hpoll _) fun _ => hR.moves_pure
  · refine (hR.moves_takeBlock hctx.calm).seq hlast fun hdr => ?_
    refine (moves_countAlloc hctx.calm).seq hlast fun _ => ?_
    refine (limitDumps_follows hctx).bind hunlock fun _ => (hpoll _).seq hunlock fun _ => ?_
    refine follows_unlock.then fun _ => hR.bind (hpoll _) fun _ => hR.bind hR.moves_ldField fun _ => ?_
    exact hR.bind hR.moves_grAssert fun _ => hR.bind (hpoll _) fun _ => hR.moves_pure

theorem memalignInt_follows (hctx : ctx.Follows N) (hN : 0 < N) {bt : List ℕ} {alignment : ℕ} :
    GuardRails.Follows N (traces N .alloc) (memalignInt ctx bt alignment n) where
  some := trace_alloc_some hN
  run s hi hs := by
    have hR := performs_inert
    unfold memalignInt
    refine wp_bind (wp_get ?_)
    extract_lets allocSize done rest
    have hrest : ∀ u, GuardRails.Follows N (traces N .alloc) (rest u) := by
      intro _
      refine (getBuf_follows hctx hN).then ?_
      rintro ⟨buf, endBuf⟩
      refine Inert.moves_ite (Inert.moves_get fun _ => Inert.moves_ite ?_ hR.moves_pure) hR.moves_fillBlock
      exact hR.bind hR.moves_throw fun _ => hR.moves_pure
    exact wp_bind (wp_get (wp_ite (fun h => absurd (h.symm.trans hi) nofun) fun _ => (hrest ()).run s hi hs))

theorem moves_countFree (hcalm : ctx.env.Calm) : Moves (Performs 1) (countFree ctx i h) := by
  have hR := performs_inert
  have hpoll : ∀ line, Moves (Performs 1) (ctx.poll line) := fun _ => hR.moves_poll hcalm
  refine hR.bind (hpoll _) fun _ => hR.bind hR.moves_ldField fun _ => hR.bind (hpoll _) fun _ => ?_
  refine hR.bind hR.moves_grAssert fun _ => hR.bind (hpoll _) fun _ => ?_
  refine hR.bind hR.moves_updHisto fun _ => hR.bind (hpoll _) fun _ => ?_
  refine hR.bind hR.moves_ldField fun _ => hR.bind (hR.moves_updSlot fun _ => rfl) fun _ => ?_
  exact moves_event rfl

theorem putBuf_follows (hcalm : ctx.env.Calm) : Follows N (traces N .release) (putBuf ctx h) := by
  have hR := performs_inert
  have hpoll : ∀ line, Moves (Performs 1) (ctx.poll line) := fun _ => hR.moves_poll hcalm
  have hnil : ∃ ops, ops ∈ traces N .release := ⟨[], .release_null⟩
  refine (hpoll _).seq hnil fun _ => hR.moves_ldField.seq hnil fun _ => ?_
  refine hR.moves_grAssert.seq hnil fun _ => (hpoll _).seq hnil fun _ => ?_
  refine hR.moves_stField.seq hnil fun _ => (hR.moves_emit (e := .freeing h) trivial).seq hnil fun _ => ?_
  refine (hpoll _).seq hnil fun _ => hR.moves_ldField.seq hnil fun i => ?_
  refine follows_ite (fun _ => follows_throw hnil) (fun _ => (hpoll _).seq hnil fun _ => ?_) hnil
  have hunlock : ∃ ops, ops ∈ ({[.unlock (.slot i)]} : Language (Op LockId Waypoint)) := ⟨_, rfl⟩
  have hlang : Within ({[.mark (.serve i), .lock (.slot i)]} * {[.unlock (.slot i)]})
      (traces N .release) := by
    rintro _ ⟨_, rfl, _, rfl, rfl⟩
    exact .release
  refine ((follows_lock rfl).bind hunlock fun _ => (hpoll _).seq hunlock fun _ => ?_).mono hlang
  refine hR.moves_ldField.seq hunlock fun b => ?_
  refine follows_ite (fun _ => follows_throw hunlock) (fun _ => ?_) hunlock
  refine (moves_countFree hcalm).seq hunlock fun _ => (hR.moves_dropBlock hcalm).seq hunlock fun _ => ?_
  exact (hpoll _).seq hunlock fun _ => follows_unlock.then fun _ => hpoll _

theorem free_follows (hcalm : ctx.env.Calm) {bt : List ℕ} :
    Follows N (traces N .release) (free ctx bt a) := by
  have hR := performs_inert
  have hnil : [] ∈ traces N .release := .release_null
  refine follows_ite (fun _ => .of_moves hR.moves_pure hnil) (fun _ => ?_) ⟨_, hnil⟩
  refine hR.moves_load64.seq ⟨_, hnil⟩ fun hdr => hR.moves_ldField.seq ⟨_, hnil⟩ fun _ => ?_
  refine hR.moves_grAssert.seq ⟨_, hnil⟩ fun _ => hR.moves_checkSlop.seq ⟨_, hnil⟩ fun _ => ?_
  refine follows_get ⟨_, hnil⟩ fun _ => ?_
  extract_lets args
  refine follows_ite (fun _ => ?_) (fun _ => putBuf_follows hcalm) ⟨_, hnil⟩
  exact hR.moves_putTrace.seq ⟨_, hnil⟩ fun _ => putBuf_follows hcalm

/-! ## Dumps -/

theorem Trace.stdio_append {xs ys : List (Op LockId Waypoint)} (hx : Trace N part xs)
    (hpart : part = .stdio) (hy : Trace N .stdio ys) : Trace N .stdio (xs ++ ys) := by
  induction hx with
  | stdio_done => exact hy
  | stdio_alloc hx _ _ ih =>
      rw [List.append_assoc]
      exact .stdio_alloc hx (ih rfl)
  | stdio_release hx _ _ ih =>
      rw [List.append_assoc]
      exact .stdio_release hx (ih rfl)
  | _ => cases hpart

theorem stdio_mul : Within (traces N .stdio * traces N .stdio) (traces N .stdio) := by
  rintro _ ⟨xs, hxs, ys, hys, rfl⟩
  exact Trace.stdio_append hxs rfl hys

theorem stdio_follows (hctx : ctx.Follows N) (hN : 0 < N) {calls : List StdioCall}
    {own : List (ℕ × ℕ)} : GuardRails.Follows N (traces N .stdio) (stdio ctx calls own) := by
  have hR := performs_inert
  have hnil : [] ∈ traces N .stdio := .stdio_done
  induction calls generalizing own with
  | nil => exact .of_moves hR.moves_pure hnil
  | cons c calls ih =>
      cases c with
      | alloc bt alignment size =>
          refine ((memalignInt_follows hctx hN).bind ⟨_, hnil⟩ fun _ => ih).mono ?_
          rintro _ ⟨xs, hxs, ys, hys, rfl⟩
          exact .stdio_alloc hxs hys
      | free bt idx =>
          unfold stdio
          cases own[idx]? with
          | none => exact ih
          | some e =>
              refine ((free_follows hctx.calm).bind ⟨_, hnil⟩ fun _ => ih).mono ?_
              rintro _ ⟨xs, hxs, ys, hys, rfl⟩
              exact .stdio_release hxs hys
      | store idx off bytes =>
          unfold stdio
          cases own[idx]? with
          | none => exact ih
          | some e =>
              exact follows_ite (fun _ => hR.moves_storeBytes.seq ⟨_, hnil⟩ fun _ => ih) (fun _ => ih)
                ⟨_, hnil⟩

/-- One call of stdio after another. -/
theorem Follows.stdio_bind (hm : Follows N (traces N .stdio) m)
    (hf : ∀ x, Follows N (traces N .stdio) (f x)) : Follows N (traces N .stdio) (m >>= f) :=
  (hm.bind ⟨[], .stdio_done⟩ hf).mono stdio_mul

theorem fmtOut_follows (hctx : ctx.Follows N) (hN : 0 < N) :
    GuardRails.Follows N (traces N .stdio) (fmtOut ctx) :=
  performs_inert.moves_tick.seq ⟨[], .stdio_done⟩ fun _ => stdio_follows hctx hN

theorem dumpOffsets_follows (hctx : ctx.Follows N) (hN : 0 < N) :
    GuardRails.Follows N (traces N .stdio) (dumpOffsets ctx) :=
  performs_inert.moves_tick.seq ⟨[], .stdio_done⟩ fun _ => stdio_follows hctx hN

theorem grPrintf_follows (hctx : ctx.Follows N) (hN : 0 < N) :
    GuardRails.Follows N (traces N .stdio) (grPrintf ctx) := by
  have hnil : [] ∈ traces N .stdio := .stdio_done
  refine follows_get ⟨_, hnil⟩ fun _ => follows_ite (fun _ => fmtOut_follows hctx hN) (fun _ => ?_) ⟨_, hnil⟩
  exact .of_moves performs_inert.moves_pure hnil

theorem dumpFrames_follows (hctx : ctx.Follows N) (hN : 0 < N) :
    GuardRails.Follows N (traces N .stdio) (dumpFrames ctx a n) := by
  have hR := performs_inert
  have hnil : [] ∈ traces N .stdio := .stdio_done
  induction n generalizing a with
  | zero => exact .of_moves hR.moves_pure hnil
  | succ n ih =>
      refine hR.moves_load64.seq ⟨_, hnil⟩ fun _ => (fmtOut_follows hctx hN).stdio_bind fun _ => ?_
      exact ih.then fun _ => hR.moves_pure

theorem dumpInUse_follows (hctx : ctx.Follows N) (hN : 0 < N) (fuel : ℕ) :
    GuardRails.Follows N (traces N .stdio) (dumpInUse ctx fuel h) := by
  have hR := performs_inert
  have hnil : [] ∈ traces N .stdio := .stdio_done
  induction fuel generalizing h with
  | zero =>
      unfold dumpInUse
      exact follows_ite (fun _ => .of_moves hR.moves_pure hnil) (fun _ => follows_throw ⟨_, hnil⟩)
        ⟨_, hnil⟩
  | succ fuel ih =>
      unfold dumpInUse
      refine follows_ite (fun _ => .of_moves hR.moves_pure hnil) (fun _ => ?_) ⟨_, hnil⟩
      refine hR.moves_ldField.seq ⟨_, hnil⟩ fun _ => (fmtOut_follows hctx hN).stdio_bind fun _ => ?_
      refine follows_get ⟨_, hnil⟩ fun _ => (dumpFrames_follows hctx hN).stdio_bind fun _ => ?_
      refine (fmtOut_follows hctx hN).stdio_bind fun _ => hR.moves_ldField.seq ⟨_, hnil⟩ fun _ => ?_
      exact ih.then fun _ => hR.moves_pure

theorem dumpBin_follows (hctx : ctx.Follows N) (hN : 0 < N) {d : Dump} :
    GuardRails.Follows N (traces N .stdio) (dumpBin ctx i d b) := by
  have hR := performs_inert
  have hnil : [] ∈ traces N .stdio := .stdio_done
  unfold dumpBin
  refine follows_get ⟨_, hnil⟩ fun _ => follows_get ⟨_, hnil⟩ fun _ => ?_
  refine (grPrintf_follows hctx hN).stdio_bind fun _ => follows_get ⟨_, hnil⟩ fun _ => ?_
  refine follows_get ⟨_, hnil⟩ fun _ => follows_get ⟨_, hnil⟩ fun _ => ?_
  refine follows_ite (fun _ => ?_) (fun _ => ?_) ⟨_, hnil⟩
  · exact (dumpInUse_follows hctx hN _).then fun _ => hR.moves_pure
  · exact .of_moves (hR.bind hR.moves_pure fun _ => hR.moves_pure) hnil

theorem dumpHisto_follows (hctx : ctx.Follows N) (hN : 0 < N) {d : Dump} :
    GuardRails.Follows N (traces N .stdio) (dumpHisto ctx i d b) := by
  have hnil : [] ∈ traces N .stdio := .stdio_done
  refine follows_get ⟨_, hnil⟩ fun _ => follows_get ⟨_, hnil⟩ fun _ => ?_
  exact (grPrintf_follows hctx hN).then fun _ => performs_inert.moves_pure

theorem Follows.stdio_foldlM {g : Dump → ℕ → M Dump} {js : List ℕ} {d : Dump}
    (hg : ∀ d j, Follows N (traces N .stdio) (g d j)) : Follows N (traces N .stdio) (js.foldlM g d) := by
  induction js generalizing d with
  | nil => exact .of_moves performs_inert.moves_pure .stdio_done
  | cons j js ih => exact (hg d j).stdio_bind fun _ => ih

theorem dumpSlot_follows (hctx : ctx.Follows N) (hN : 0 < N) {d : Dump} :
    GuardRails.Follows N ({[.lock (.slot i)]} * (traces N .stdio * {[.unlock (.slot i)]}))
      (dumpSlot ctx d i) := by
  have hR := performs_inert
  have hnil : [] ∈ traces N .stdio := .stdio_done
  have hunlock : ∃ ops, ops ∈ ({[.unlock (.slot i)]} : Language (Op LockId Waypoint)) := ⟨_, rfl⟩
  have hsome : ∃ ops, ops ∈ traces N .stdio * {[.unlock (.slot i)]} :=
    ⟨_, Language.append_mem_mul hnil rfl⟩
  -- what is printed under the lock
  have hprint : GuardRails.Follows N (traces N .stdio) (do
      let S := (← get).memSlots i
      fmtOut ctx
      grPrintf ctx
      let d ← (List.range maxAllocPower).foldlM (dumpBin ctx i) (d.addUsrBytes S)
      grPrintf ctx
      (List.range maxAllocPower).foldlM (dumpHisto ctx i) d) := by
    refine follows_get ⟨_, hnil⟩ fun _ => (fmtOut_follows hctx hN).stdio_bind fun _ => ?_
    refine (grPrintf_follows hctx hN).stdio_bind fun _ => ?_
    refine (Follows.stdio_foldlM fun _ _ => dumpBin_follows hctx hN).stdio_bind fun _ => ?_
    refine (grPrintf_follows hctx hN).stdio_bind fun _ => ?_
    exact .stdio_foldlM fun _ _ => dumpHisto_follows hctx hN
  have hlast := hprint.bind hunlock fun d => follows_unlock.then fun _ => hR.moves_pure (x := d)
  simp only [bind_assoc] at hlast
  exact (follows_lock rfl).bind hsome fun _ => hlast

theorem dumpSlots_follows (hctx : ctx.Follows N) (hN : 0 < N) {j k : ℕ} (hjk : j + k = N)
    {d : Dump} :
    GuardRails.Follows N (traces N (.slots j)) ((List.range' j k).foldlM (dumpSlot ctx) d) := by
  induction k generalizing j d with
  | zero => exact .of_moves performs_inert.moves_pure (.slots_done hjk.ge)
  | succ k ih =>
      rw [List.range'_succ, List.foldlM_cons]
      have hrest : ∀ d, GuardRails.Follows N (traces N (.slots (j + 1)))
          ((List.range' (j + 1) k).foldlM (dumpSlot ctx) d) := fun _ => ih (by omega)
      refine ((dumpSlot_follows hctx hN).bind (trace_slots_some _) hrest).mono ?_
      rintro _ ⟨_, ⟨_, rfl, _, ⟨xs, hxs, _, rfl, rfl⟩, rfl⟩, ys, hys, rfl⟩
      exact .slots_next (by omega) hxs hys

theorem onExitHelperBody_follows (hctx : ctx.Follows N) (hN : 0 < N) {hwm : ℕ} :
    GuardRails.Follows N (traces N .stdio * (traces N (.slots 0) * traces N .stdio))
      (onExitHelperBody ctx hwm) := by
  have hR := performs_inert
  have hnil : [] ∈ traces N .stdio := .stdio_done
  have hsome : ∃ ops, ops ∈ traces N (.slots 0) * traces N .stdio :=
    (trace_slots_some 0).imp fun ys hys => ⟨ys, hys, [], hnil, List.append_nil ys⟩
  have hlast : ∀ d : Dump, GuardRails.Follows N (traces N .stdio) (do
      emit (.dumped d)
      if d.totalAllocedBytesGP = 0 ∨ d.totalAllocedBytes = 0 ∨ d.totalRequestedPow2Bytes = 0 then
        throw .divByZero
      fmtOut ctx) := by
    intro d
    refine (moves_event rfl).seq ⟨_, hnil⟩ fun _ => follows_ite (fun _ => ?_) (fun _ => ?_) ⟨_, hnil⟩
    · exact hR.moves_throw.seq ⟨_, hnil⟩ fun _ => fmtOut_follows hctx hN
    · exact fmtOut_follows hctx hN
  have hslots : ∀ numSlots, numSlots = N →
      GuardRails.Follows N (traces N (.slots 0)) ((List.range numSlots).foldlM (dumpSlot ctx) { hwm := hwm }) := by
    rintro _ rfl
    rw [List.range_eq_range']
    exact dumpSlots_follows hctx hN (Nat.zero_add _)
  have hbody := (dumpOffsets_follows hctx hN).stdio_bind fun _ => fmtOut_follows hctx hN
  have hall := hbody.bind hsome fun _ => follows_slots hsome fun s hs =>
    (hslots s.grArgs.numSlots hs).bind ⟨_, hnil⟩ hlast
  simp only [bind_assoc] at hall
  exact hall

theorem dump_mul :
    Within ({[.mark .dump]} * (traces N .stdio * (traces N (.slots 0) * traces N .stdio)))
      (traces N .dump) := by
  rintro _ ⟨_, rfl, _, ⟨xs, hxs, _, ⟨ys, hys, zs, hzs, rfl⟩, rfl⟩, rfl⟩
  have htrace := Trace.dump hxs hys hzs
  rwa [List.append_assoc] at htrace

theorem follows_dumpBegun : Follows N {[.mark .dump]} (emit .dumpBegun) where
  some := ⟨_, rfl⟩
  run _ _ _ := wp_emit ⟨rfl, rfl, [.dumpBegun], rfl, _, rfl, rfl⟩

/-- The dumps of every depth. -/
theorem ctxOf_follows {env : Env} (hcalm : env.Calm) (hN : 0 < N) (depth : ℕ) :
    (ctxOf env depth).Follows N := by
  have hsome : ∃ ops, ops ∈ traces N .stdio * (traces N (.slots 0) * traces N .stdio) :=
    (trace_slots_some 0).imp fun ys hys =>
      ⟨[], .stdio_done, ys, ⟨ys, hys, [], .stdio_done, List.append_nil ys⟩, rfl⟩
  induction depth with
  | zero =>
      refine ⟨hcalm, follows_throw ⟨[], .stdio_done⟩, fun _ _ => ?_⟩
      exact (follows_dumpBegun.bind hsome fun _ => follows_throw hsome).mono dump_mul
  | succ depth ih =>
      refine ⟨hcalm, fmtOut_follows ih hN, fun _ hwm => ?_⟩
      refine (follows_dumpBegun.bind hsome fun _ => ?_).mono dump_mul
      exact (onExitHelperBody_follows ih hN).then fun _ => moves_event rfl

/-! ## Calls -/

theorem alloc_within : Within (traces N .alloc) (traces N .thread) := fun xs h => by
  have htrace := Trace.thread_alloc h .thread_done
  rwa [List.append_nil] at htrace

theorem release_within : Within (traces N .release) (traces N .thread) := fun xs h => by
  have htrace := Trace.thread_release h .thread_done
  rwa [List.append_nil] at htrace

theorem realloc_follows (hctx : ctx.Follows N) (hN : 0 < N) {bt : List ℕ} :
    GuardRails.Follows N (traces N .thread) (realloc ctx bt a n) := by
  have hR := performs_inert
  have hnil : [] ∈ traces N .release := .release_null
  refine ((memalignInt_follows hctx hN).bind ⟨_, hnil⟩ fun p => ?_).mono ?_
  · refine follows_ite (fun _ => .of_moves hR.moves_pure hnil) (fun _ => ?_) ⟨_, hnil⟩
    refine hR.moves_load64.seq ⟨_, hnil⟩ fun hdr => hR.moves_ldField.seq ⟨_, hnil⟩ fun _ => ?_
    refine hR.moves_memcpy.seq ⟨_, hnil⟩ fun _ => ?_
    exact (free_follows hctx.calm).then fun _ => hR.moves_pure
  · rintro _ ⟨xs, hxs, ys, hys, rfl⟩
    exact .thread_alloc hxs (release_within hys)

/-- The lock operations of a call are a trace. -/
theorem exec_follows (hctx : ctx.Follows N) (hN : 0 < N) {bt : List ℕ} (c : Call) :
    GuardRails.Follows N (traces N .thread) (c.exec ctx bt) := by
  have hR := performs_inert
  have hnil : [] ∈ traces N .thread := .thread_done
  have hmem : ∀ alignment n, GuardRails.Follows N (traces N .alloc) (memalignInt ctx bt alignment n) :=
    fun _ _ => memalignInt_follows hctx hN
  cases c with
  | malloc n => exact (hmem _ _).mono alloc_within
  | calloc k n =>
      refine Follows.mono ((hmem _ _).then fun _ => ?_) alloc_within
      exact Inert.moves_ite hR.moves_pure (hR.bind hR.moves_memset fun _ => hR.moves_pure)
  | realloc p n => exact realloc_follows hctx hN
  | memalign alignment n => exact (hmem _ _).mono alloc_within
  | posixMemalign alignment n =>
      refine Follows.then (follows_ite (fun _ => .of_moves hR.moves_pure hnil) (fun _ => ?_) ⟨_, hnil⟩)
        fun _ => hR.moves_pure
      refine Follows.mono ((hmem _ _).then fun _ => ?_) alloc_within
      exact Inert.moves_ite hR.moves_pure hR.moves_pure
  | free p => exact ((free_follows hctx.calm).mono release_within).then fun _ => hR.moves_pure
  | store p off bytes => exact .of_moves (hR.bind hR.moves_storeBytes fun _ => hR.moves_pure) hnil
  | load p off len =>
      exact .of_moves (hR.bind hR.moves_touch fun _ => hR.moves_pure) hnil
  | onExit =>
      refine Follows.then ((hctx.dump _ _).mono fun xs h => ?_) fun _ => hR.moves_pure
      have htrace := Trace.thread_dump h .thread_done
      rwa [List.append_nil] at htrace

end GuardRails
