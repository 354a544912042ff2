import GuardRails.Lib.GuardedData
import GuardRails.Spec.Inert

/-!
# Locks and the data behind them

The lock of a slot guards its bins, its delay ring and its counters, and `gMutex` guards the
pools. Whatever the heap looks like, and at whatever statement a signal arrives: a function that
is called with some locks held makes each of its changes under the lock that guards it, and returns
with the same locks (`Under`).
-/

namespace GuardRails

open LockOrder StateHoare

variable {s s' s₁ s₂ : Heap} {α β : Type} {m : M α} {f : α → M β} {ctx : Ctx} {a n h i b : ℕ}
  {r : HeadRef} {e : Event} {evs evs' : List Event} {H H' H₁ : List LockId} {l : LockId}

/-- The lock that is needed for a change of the lists, the rings, the counts and the pools. -/
def Event.guard : Event → Option LockId
  | .carved _ _ => some .gMutex
  | .labelled _ slot _ | .counted slot _ | .uncounted slot _ | .delayed slot _ | .drained slot _ =>
      some (.slot slot)
  | .linked r _ | .unlinked r _ => some (.slot r.slot)
  | _ => none

def Event.accesses : Event → List (Op LockId LockId)
  | .acquired l => [.lock l]
  | .released l => [.unlock l]
  | e => (e.guard.map Op.mark).toList

def accesses : List Event → List (Op LockId LockId)
  | [] => []
  | e :: log => accesses log ++ e.accesses

def Holding (held : List LockId) (l : LockId) : Prop := l ∈ held

def MemSlot.data (S : MemSlot) : MemSlot := { S with lock := {} }

/-- From `s` to `s'` the events `evs` have happened; who began with the locks `H` has changed
nothing that it had not locked. -/
structure Disciplined (H : List LockId) (evs : List Event) (s s' : Heap) : Prop where
  isInit : s'.isInit = s.isInit
  log : s'.log = evs ++ s.log
  passes : Passes Holding H (accesses evs)
  slot : ∀ i, .slot i ∉ H → .acquired (.slot i) ∉ evs →
    (s'.memSlots i).data = (s.memSlots i).data ∧ s'.memHisto i = s.memHisto i
  pools : .gMutex ∉ H → .acquired .gMutex ∉ evs → s'.memPools = s.memPools

/-- `m` begins with the locks `H`, ends with `H'` and keeps to the locks on its way. -/
def Under (H H' : List LockId) (m : M α) : Prop :=
  ∀ s : Heap, s.isInit = true →
    wp m (fun _ s' => ∃ evs, Disciplined H evs s s' ∧ after H (accesses evs) = H')
      (fun _ s' => ∃ evs, Disciplined H evs s s') s

theorem accesses_append : accesses (evs' ++ evs) = accesses evs ++ accesses evs' := by
  induction evs' with
  | nil => rw [List.nil_append, accesses, List.append_nil]
  | cons e evs' ih => rw [List.cons_append, accesses, accesses, ih, List.append_assoc]

theorem acquired_of_lock_mem (h : .lock l ∈ accesses evs) : .acquired l ∈ evs := by
  induction evs with
  | nil => exact absurd h List.not_mem_nil
  | cons e evs ih =>
      rcases List.mem_append.1 h with h | h
      · exact List.mem_cons_of_mem _ (ih h)
      · have he : e = .acquired l := by
          cases e with
          | acquired k => rw [Op.lock.inj (List.mem_singleton.1 h)]
          | released k => exact absurd (List.mem_singleton.1 h) nofun
          | _ => simp [Event.accesses, Event.guard] at h
        exact he ▸ List.mem_cons_self

/-- Who holds a lock has it from the beginning or has taken it. -/
theorem notMem_after (h : l ∉ H) (h' : .acquired l ∉ evs) : l ∉ after H (accesses evs) := fun hmem =>
  (mem_after hmem).elim h fun hlock => h' (acquired_of_lock_mem hlock)

namespace Disciplined

theorem refl : Disciplined H [] s s :=
  ⟨rfl, rfl, trivial, fun _ _ _ => ⟨rfl, rfl⟩, fun _ _ => rfl⟩

theorem trans (h₁ : Disciplined H evs s s₁) (h₂ : Disciplined (after H (accesses evs)) evs' s₁ s') :
    Disciplined H (evs' ++ evs) s s' where
  isInit := h₂.isInit.trans h₁.isInit
  log := by rw [h₂.log, h₁.log, List.append_assoc]
  passes := by
    rw [accesses_append]
    exact h₁.passes.append h₂.passes
  slot i hH hevs := by
    obtain ⟨hevs', hevs⟩ := List.mem_append.not.1 hevs |> not_or.1
    obtain ⟨hd, hh⟩ := h₁.slot i hH hevs
    obtain ⟨hd', hh'⟩ := h₂.slot i (notMem_after hH hevs) hevs'
    exact ⟨hd'.trans hd, hh'.trans hh⟩
  pools hH hevs := by
    obtain ⟨hevs', hevs⟩ := List.mem_append.not.1 hevs |> not_or.1
    exact (h₂.pools (notMem_after hH hevs) hevs').trans (h₁.pools hH hevs)

end Disciplined

/-! ## Rules -/

theorem Under.bind (hm : Under H H₁ m) (hf : ∀ x, Under H₁ H' (f x)) : Under H H' (m >>= f) := by
  intro s hs
  refine wp_bind (wp_mono (hm s hs) ?_ fun _ _ h => h)
  rintro x s₁ ⟨evs, h₁, rfl⟩
  refine wp_mono (hf x s₁ (h₁.isInit.trans hs)) ?_ ?_
  · rintro _ s' ⟨evs', h₂, rfl⟩
    exact ⟨_, h₁.trans h₂, by rw [accesses_append, after_append]⟩
  · rintro _ s' ⟨evs', h₂⟩
    exact ⟨_, h₁.trans h₂⟩

/-- A step that changes nothing that is guarded. -/
theorem under_step (h : ∀ s, wp m (fun _ s' => Disciplined H [] s s')
    (fun _ s' => Disciplined H [] s s') s) : Under H H m :=
  fun s _ => wp_mono (h s) (fun _ _ h => ⟨[], h, rfl⟩) fun _ _ h => ⟨[], h⟩

theorem under_pure {x : α} : Under H H (pure x : M α) := under_step fun _ => wp_pure .refl

theorem under_throw {halt : Halt} : Under H H' (throw halt : M α) := fun _ _ => wp_throw ⟨[], .refl⟩

theorem under_get {g : Heap → M β} (hg : ∀ s, Under H H' (g s)) : Under H H' (get >>= g) :=
  fun s hs => wp_bind (wp_get (hg s s hs))

theorem under_ite {c : Prop} [Decidable c] {x y : M α} (hx : Under H H' x) (hy : Under H H' y) :
    Under H H' (if c then x else y) :=
  fun s hs => wp_ite (fun _ => hx s hs) fun _ => hy s hs

/-- A change of memory, access rights and the clock. -/
theorem under_modify {g : Heap → Heap} (hg : ∀ s, Disciplined H [] s (g s)) :
    Under H H (modify g : M Unit) :=
  under_step fun s => wp_modify (hg s)

theorem disciplined_slot {g : MemSlot → MemSlot} (hi : .slot i ∈ H) :
    Disciplined H [] s (s.updSlot i g) where
  isInit := rfl
  log := rfl
  passes := trivial
  slot j hj _ := by
    have hne : j ≠ i := fun h => hj (h ▸ hi)
    refine ⟨congrArg MemSlot.data ?_, rfl⟩
    exact Function.update_of_ne hne ..
  pools _ _ := rfl

theorem under_updSlot {g : MemSlot → MemSlot} (hi : .slot i ∈ H) :
    Under H H (modify fun s => s.updSlot i g : M Unit) :=
  under_modify fun _ => disciplined_slot hi

theorem under_updBin {g : MemBin → MemBin} (hi : .slot i ∈ H) :
    Under H H (modify fun s => s.updBin i b g : M Unit) := under_updSlot hi

theorem under_updDelay {g : MemFreeDelay → MemFreeDelay} (hi : .slot i ∈ H) :
    Under H H (modify fun s => s.updDelay i g : M Unit) := under_updSlot hi

theorem under_updHisto {k : ℕ} {g : MemHisto → MemHisto} (hi : .slot i ∈ H) :
    Under H H (modify fun s => s.updHisto i k g : M Unit) := by
  refine under_modify fun s => ⟨rfl, rfl, trivial, fun j hj _ => ⟨rfl, ?_⟩, fun _ _ => rfl⟩
  have hne : j ≠ i := fun h => hj (h ▸ hi)
  exact Function.update_of_ne hne ..

/-- An event under its lock. -/
theorem under_emit (he : Passes Holding H e.accesses) (hafter : after H e.accesses = H) :
    Under H H (emit e) := by
  refine fun s _ => wp_emit ⟨[e], ⟨rfl, rfl, ?_, fun _ _ _ => ⟨rfl, rfl⟩, fun _ _ => rfl⟩, ?_⟩
  · exact he
  · exact hafter

theorem under_access (he : e.accesses = [.mark l]) (hl : l ∈ H) : Under H H (emit e) := by
  refine under_emit ?_ ?_
  · rw [he]
    exact ⟨fun _ hm => Op.mark.inj hm ▸ hl, trivial⟩
  · rw [he]
    rfl

theorem under_silent (he : e.accesses = []) : Under H H (emit e) := by
  refine under_emit ?_ ?_
  · rw [he]
    trivial
  · rw [he]
    rfl

/-! ## Primitive steps -/

theorem under_tick : Under H H tick :=
  under_step fun _ => wp_tick ⟨rfl, rfl, trivial, fun _ _ _ => ⟨rfl, rfl⟩, fun _ _ => rfl⟩

theorem under_mem {g : Heap → ByteMemory.Mem} : Under H H (modify fun s => { s with mem := g s } : M Unit) :=
  under_modify fun _ => ⟨rfl, rfl, trivial, fun _ _ _ => ⟨rfl, rfl⟩, fun _ _ => rfl⟩

theorem under_grAssert {site : Site} {c : Prop} [Decidable c] : Under H H (grAssert site c) :=
  under_ite under_pure under_throw

theorem under_touch : Under H H (touch a n) :=
  under_get fun _ => under_ite under_pure under_throw

theorem under_load64 : Under H H (load64 a) :=
  under_touch.bind fun _ => under_get fun _ => under_pure

theorem under_store64 {v : ℕ} : Under H H (store64 a v) := under_touch.bind fun _ => under_mem

theorem under_ldField {fld : Field} : Under H H (ldField h fld) := under_load64

theorem under_stField {fld : Field} {v : ℕ} : Under H H (stField h fld v) := under_store64

theorem under_memset {v : UInt8} : Under H H (memset a v n) := under_touch.bind fun _ => under_mem

theorem under_memcpy {src : ℕ} : Under H H (memcpy a src n) :=
  under_touch.bind fun _ => under_touch.bind fun _ => under_mem

theorem under_memcmp {arr : ℕ → UInt8} : Under H H (memcmp a arr n) :=
  under_touch.bind fun _ => under_get fun _ => under_pure

theorem under_storeBytes {bytes : List UInt8} : Under H H (storeBytes a bytes) :=
  under_touch.bind fun _ => under_mem

theorem under_storeWords {ws : List ℕ} : Under H H (storeWords a ws) := by
  induction ws generalizing a with
  | nil => exact under_pure
  | cons w ws ih => exact under_store64.bind fun _ => ih

theorem under_mprotect {env : Env} {p : Prot} : Under H H (mprotect env a n p) := by
  refine under_tick.bind fun _ => under_ite (Under.bind ?_ fun _ => under_pure) ?_
  · exact under_modify fun _ => ⟨rfl, rfl, trivial, fun _ _ _ => ⟨rfl, rfl⟩, fun _ _ => rfl⟩
  · exact (under_silent rfl).bind fun _ => under_pure

theorem under_mlock {env : Env} : Under H H (mlock env) :=
  under_tick.bind fun _ => under_ite under_pure ((under_silent rfl).bind fun _ => under_pure)

theorem under_mmap {env : Env} : Under H H (mmap env n) := by
  refine fun s _ => wp_mmap ⟨[.mmapFailed], ?_, rfl⟩ fun _ _ => ⟨[], ?_, rfl⟩
  · exact ⟨rfl, rfl, trivial, fun _ _ _ => ⟨rfl, rfl⟩, fun _ _ => rfl⟩
  · exact ⟨rfl, rfl, trivial, fun _ _ _ => ⟨rfl, rfl⟩, fun _ _ => rfl⟩

theorem under_verifyLocked : Under H H (verifyLocked l) := under_get fun _ => under_pure

theorem under_getHead : Under H H (getHead r) := under_get fun _ => under_pure

theorem under_putHead (hi : .slot r.slot ∈ H) : Under H H (putHead r h) := under_updBin hi

theorem data_setMutex (s : Heap) (l : LockId) (m : Mutex) (i : ℕ) :
    ((s.setMutex l m).memSlots i).data = (s.memSlots i).data := by
  obtain ⟨m', hm'⟩ := sameSlots_setMutex s l m i
  rw [hm']
  rfl

theorem under_lock : Under H (l :: H) (pthreadMutexLock l) := by
  refine fun s _ => wp_pthreadMutexLock (fun _ => ⟨[.acquired l], ?_, rfl⟩) fun _ _ => ⟨[], ?_⟩
  · refine ⟨by cases l <;> rfl, rfl, ⟨nofun, trivial⟩, fun i _ _ => ⟨data_setMutex s l _ i, ?_⟩, fun _ _ => ?_⟩
    · cases l <;> rfl
    · cases l <;> rfl
  · exact ⟨rfl, rfl, trivial, fun _ _ _ => ⟨rfl, rfl⟩, fun _ _ => rfl⟩

theorem under_unlock : Under (l :: H) H (pthreadMutexUnlock l) := by
  refine fun s _ => wp_pthreadMutexUnlock ⟨[.released l], ?_, ?_⟩
  · refine ⟨by cases l <;> rfl, rfl, ⟨nofun, trivial⟩, fun i _ _ => ⟨data_setMutex s l _ i, ?_⟩, fun _ _ => ?_⟩
    · cases l <;> rfl
    · cases l <;> rfl
  · exact (run_unlock_self : (Op.unlock l : Op LockId LockId).run (l :: H) = H)

/-- Dumps and what they print give back what they lock. -/
structure Ctx.Under (ctx : Ctx) : Prop where
  printf : ∀ H, GuardRails.Under H H ctx.printf
  dump : ∀ H useLocale hwm, GuardRails.Under H H (ctx.onExitHelper useLocale hwm)

variable (hctx : ctx.Under)

include hctx

/-- A signal may arrive with any locks held. -/
theorem Ctx.Under.poll {line : ℕ} : GuardRails.Under H H (ctx.poll line) :=
  under_get fun _ => under_ite (hctx.dump H true 0) under_pure

/-! ## Lists and the delay ring -/

theorem under_insertElmHead (hi : .slot r.slot ∈ H) : Under H H (insertElmHead ctx r h) := by
  have hpoll : ∀ line, Under H H (ctx.poll line) := fun _ => hctx.poll
  unfold insertElmHead
  refine under_getHead.bind fun head => ?_
  extract_lets rest
  have hrest : ∀ u, Under H H (rest u) := fun _ => by
    refine (hpoll _).bind fun _ => under_getHead.bind fun _ => under_stField.bind fun _ => ?_
    refine (hpoll _).bind fun _ => under_stField.bind fun _ => (hpoll _).bind fun _ => ?_
    exact (under_putHead hi).bind fun _ => under_access rfl hi
  refine under_ite ?_ (hrest ())
  exact (hpoll _).bind fun _ => under_getHead.bind fun _ => under_stField.bind fun _ => hrest ()

theorem under_rmElm (hi : .slot r.slot ∈ H) : Under H H (rmElm ctx r h) := by
  have hpoll : ∀ line, Under H H (ctx.poll line) := fun _ => hctx.poll
  unfold rmElm
  refine under_getHead.bind fun head => ?_
  extract_lets rest₃ rest₂ rest₁
  have hrest₃ : ∀ u, Under H H (rest₃ u) := fun _ => by
    refine (under_access rfl hi).bind fun _ => (hpoll _).bind fun _ => ?_
    exact under_stField.bind fun _ => (hpoll _).bind fun _ => under_stField
  have hrest₂ : ∀ u, Under H H (rest₂ u) := fun _ => by
    refine (hpoll _).bind fun _ => under_ldField.bind fun _ => under_ite ?_ (hrest₃ ())
    refine (hpoll _).bind fun _ => under_ldField.bind fun _ => ?_
    exact under_ldField.bind fun _ => under_stField.bind fun _ => hrest₃ ()
  have hrest₁ : ∀ u, Under H H (rest₁ u) := fun _ => by
    refine (hpoll _).bind fun _ => under_ldField.bind fun _ => under_ite ?_ (hrest₂ ())
    refine (hpoll _).bind fun _ => under_ldField.bind fun _ => ?_
    exact under_ldField.bind fun _ => under_stField.bind fun _ => hrest₂ ()
  refine under_ite ?_ (hrest₁ ())
  exact (hpoll _).bind fun _ => under_ldField.bind fun _ => (under_putHead hi).bind fun _ => hrest₁ ()

omit hctx in
theorem under_circCount : Under H H (circCount i) :=
  under_get fun _ => under_ite under_pure (under_grAssert.bind fun _ => under_pure)

omit hctx in
theorem under_circPut (hi : .slot i ∈ H) : Under H H (circPut i h) := by
  refine under_get fun _ => under_grAssert.bind fun _ => (under_updDelay hi).bind fun _ => ?_
  refine under_ldField.bind fun _ => (under_updDelay hi).bind fun _ => ?_
  exact under_access rfl hi

omit hctx in
theorem under_circGet (hi : .slot i ∈ H) : Under H H (circGet ctx i) := by
  refine under_get fun s => ?_
  extract_lets d hdr
  refine under_grAssert.bind fun _ => (under_updDelay hi).bind fun _ => ?_
  refine under_grAssert.bind fun _ => (under_updDelay hi).bind fun _ => ?_
  refine under_mprotect.bind fun _ => under_grAssert.bind fun _ => ?_
  refine under_ldField.bind fun _ => (under_updDelay hi).bind fun _ => ?_
  exact (under_access rfl hi).bind fun _ => under_pure

theorem under_delayFreeOne (hi : .slot i ∈ H) : Under H H (delayFreeOne ctx i) := by
  refine (under_circGet hi).bind fun hdr => under_ldField.bind fun _ => ?_
  refine under_ite under_throw ?_
  extract_lets rest
  have hrest : ∀ u, Under H H (rest u) := fun _ =>
    (under_insertElmHead hctx hi).bind fun _ => under_updBin hi
  refine under_ite ?_ (hrest ())
  exact under_mprotect.bind fun _ => under_grAssert.bind fun _ => hrest ()

theorem under_delayFreeLoop (hi : .slot i ∈ H) (fuel : ℕ) : Under H H (delayFreeLoop ctx i fuel) := by
  induction fuel with
  | zero => exact under_throw
  | succ fuel ih =>
      refine under_circCount.bind fun _ => under_ite ?_ under_pure
      exact (under_delayFreeOne hctx hi).bind fun _ => ih

theorem under_delayPut (hi : .slot i ∈ H) : Under H H (delayPut ctx i h) := by
  refine under_verifyLocked.bind fun _ => under_grAssert.bind fun _ => under_circCount.bind fun _ => ?_
  extract_lets rest
  have hrest : ∀ u, Under H H (rest u) := fun _ =>
    (under_circPut hi).bind fun _ => under_ldField.bind fun _ =>
      under_mprotect.bind fun _ => under_grAssert
  exact under_ite ((under_delayFreeLoop hctx hi _).bind fun _ => hrest ()) (hrest ())

/-! ## Pools and refills -/

omit hctx in
theorem disciplined_pools {pools : List MemPool} (hg : .gMutex ∈ H) :
    Disciplined H [] s { s with memPools := pools } :=
  ⟨rfl, rfl, trivial, fun _ _ _ => ⟨rfl, rfl⟩, fun h => absurd hg h⟩

omit hctx in
theorem disciplined_bump (hg : .gMutex ∈ H) : Disciplined H [] s (s.bump n) := by
  unfold Heap.bump
  cases s.memPools with
  | nil => exact .refl
  | cons P Ps => exact disciplined_pools hg

/-- The dump for lack of memory, and the call of `printf` before it. -/
theorem under_lastDump {site : Site} {k : PUnit → M α} : Under H H'
    (do ctx.printf; ctx.onExitHelper false 0; let r ← throw (.abort site); k r) :=
  (hctx.printf H).bind fun _ => (hctx.dump H false 0).bind fun _ _ _ => wp_bind (wp_throw ⟨[], .refl⟩)

theorem under_addNewMemPool (hg : .gMutex ∈ H) : Under H H (addNewMemPool ctx n) := by
  unfold addNewMemPool
  extract_lets poolSize
  refine under_get fun s => under_grAssert.bind fun _ => under_grAssert.bind fun _ => ?_
  refine under_mmap.bind fun start => ?_
  cases start with
  | none =>
      refine under_tick.bind fun _ => ?_
      extract_lets limit
      exact under_ite (under_lastDump hctx) under_pure
  | some mapStart =>
      refine under_grAssert.bind fun _ => ?_
      extract_lets rest
      have hrest : ∀ u, Under H H (rest u) := by
        intro _ s hs
        refine wp_bind (wp_get (wp_ite (fun _ => ?_) fun _ => ?_))
        · refine (Under.bind (under_silent rfl) fun _ => ?_ : Under H H _) s hs
          exact fun _ _ => wp_bind (wp_throw ⟨[], .refl⟩)
        · exact wp_bind (wp_set (wp_pure ⟨[], disciplined_pools hg, rfl⟩))
      refine under_ite (under_mlock.bind fun _ => ?_) (hrest ())
      exact under_ite (under_lastDump hctx) (hrest ())

omit hctx in
theorem under_putGuard : Under H H (putGuard ctx h n) :=
  under_grAssert.bind fun _ => under_grAssert.bind fun _ => under_store64.bind fun _ =>
    under_mprotect.bind fun _ => under_grAssert

theorem under_getFromPool : Under H H (getFromPool ctx n) := by
  have hg : .gMutex ∈ LockId.gMutex :: H := List.mem_cons_self
  have hlast : ∀ x, Under (.gMutex :: H) H (do pthreadMutexUnlock .gMutex; pure x : M ℕ) := fun _ =>
    under_unlock.bind fun _ => under_pure
  unfold getFromPool
  extract_lets binTotalSize rest
  have hrest : ∀ ret, Under (.gMutex :: H) H (rest ret) := by
    refine fun ret => under_ite (hlast _) fun s hs => ?_
    refine wp_bind (wp_get (wp_bind (wp_grAssert (fun _ => wp_bind (wp_set ?_)) fun _ => ⟨[], .refl⟩)))
    have hbump : Disciplined (.gMutex :: H) [] s (s.bump binTotalSize) := disciplined_bump hg
    have hcut : Under (.gMutex :: H) H (do
        putGuard ctx s.startFree n
        emit (.carved s.startFree n)
        pthreadMutexUnlock .gMutex
        pure s.startFree) :=
      under_putGuard.bind fun _ => (under_access rfl hg).bind fun _ => hlast _
    refine wp_mono (hcut _ (hbump.isInit.trans hs)) ?_ ?_
    · rintro _ s' ⟨evs, h, hafter⟩
      exact ⟨_, hbump.trans h, by rw [List.append_nil]; exact hafter⟩
    · rintro _ s' ⟨evs, h⟩
      exact ⟨_, hbump.trans h⟩
  refine under_lock.bind fun _ => under_get fun s => ?_
  exact under_ite ((under_addNewMemPool hctx hg).bind hrest) (under_pure.bind hrest)

theorem under_labelBlock (hi : .slot i ∈ H) : Under H H (labelBlock ctx i b h) := by
  have hpoll : ∀ line, Under H H (ctx.poll line) := fun _ => hctx.poll
  refine (hpoll _).bind fun _ => under_stField.bind fun _ => (hpoll _).bind fun _ => ?_
  refine under_stField.bind fun _ => (hpoll _).bind fun _ => under_stField.bind fun _ => ?_
  refine (under_access rfl hi).bind fun _ => (hpoll _).bind fun _ => ?_
  refine (under_insertElmHead hctx hi).bind fun _ => (hpoll _).bind fun _ => ?_
  exact (under_updBin hi).bind fun _ => hpoll _

theorem under_replenishLoop (hi : .slot i ∈ H) (fuel : ℕ) : Under H H (replenishLoop ctx i b fuel) := by
  have hpoll : ∀ line, Under H H (ctx.poll line) := fun _ => hctx.poll
  induction fuel with
  | zero => exact under_throw
  | succ fuel ih =>
      rw [replenishLoop_succ]
      refine (hpoll _).bind fun _ => (under_getFromPool hctx).bind fun hdr => (hpoll _).bind fun _ => ?_
      refine under_ite under_pure ((under_labelBlock hctx hi).bind fun _ => under_get fun _ => ?_)
      exact under_ite ih ((hpoll _).bind fun _ => under_pure)

theorem under_replenishBin (hi : .slot i ∈ H) : Under H H (replenishBin ctx i b) := by
  have hpoll : ∀ line, Under H H (ctx.poll line) := fun _ => hctx.poll
  refine (hpoll _).bind fun _ => under_verifyLocked.bind fun _ => under_grAssert.bind fun _ => ?_
  refine under_ite under_throw (under_ite under_pure ((hpoll _).bind fun _ => under_get fun _ => ?_))
  exact under_ite (under_replenishLoop hctx hi _) ((hpoll _).bind fun _ => under_pure)

/-! ## Allocation and release -/

omit hctx in
theorem under_pickSlot : Under H H (pickSlot ctx n) :=
  under_ite (under_tick.bind fun _ => under_get fun _ => under_ite under_throw under_pure) under_pure

theorem under_takeBlock (hi : .slot i ∈ H) : Under H H (takeBlock ctx i b) := by
  have hpoll : ∀ line, Under H H (ctx.poll line) := fun _ => hctx.poll
  refine (hpoll _).bind fun _ => under_getHead.bind fun hdr => (hpoll _).bind fun _ => ?_
  refine (under_rmElm hctx hi).bind fun _ => (hpoll _).bind fun _ => ?_
  refine (under_insertElmHead hctx hi).bind fun _ => (hpoll _).bind fun _ => ?_
  exact (under_updBin hi).bind fun _ => under_pure

theorem under_countAlloc (hi : .slot i ∈ H) {k : ℕ} {q : Request} :
    Under H H (countAlloc ctx i b k q) := by
  have hpoll : ∀ line, Under H H (ctx.poll line) := fun _ => hctx.poll
  refine (hpoll _).bind fun _ => (under_updBin hi).bind fun _ => (hpoll _).bind fun _ => ?_
  refine under_grAssert.bind fun _ => (hpoll _).bind fun _ => (under_updHisto hi).bind fun _ => ?_
  refine (hpoll _).bind fun _ => (under_updSlot hi).bind fun _ => (under_access rfl hi).bind fun _ => ?_
  exact (hpoll _).bind fun _ => under_updSlot hi

theorem under_limitDumps (hi : .slot i ∈ H) : Under H H (limitDumps ctx i) := by
  have hpoll : ∀ line, Under H H (ctx.poll line) := fun _ => hctx.poll
  unfold limitDumps
  refine (hpoll _).bind fun _ => under_get fun _ => ?_
  extract_lets S
  refine under_get fun _ => ?_
  extract_lets args rest
  have hrest : ∀ u, Under H H (rest u) := by
    refine fun _ => (hpoll _).bind fun _ => under_get fun _ => under_ite ?_ under_pure
    refine (under_silent rfl).bind fun _ => (hpoll _).bind fun _ => ?_
    exact (hctx.dump H false 0).bind fun _ => under_throw
  refine under_ite ?_ (hrest ())
  refine (hpoll _).bind fun _ => (under_updSlot hi).bind fun _ => (hpoll _).bind fun _ => ?_
  exact under_get fun _ => (hctx.dump H false _).bind hrest

theorem under_getBuf {bt : List ℕ} : Under H H (getBuf ctx bt a n) := by
  have hpoll : ∀ {K : List LockId} (line : ℕ), Under K K (ctx.poll line) := fun _ => hctx.poll
  unfold getBuf
  extract_lets reqSize binNum
  refine (hpoll _).bind fun _ => under_pickSlot.bind fun i => ?_
  have hi : .slot i ∈ LockId.slot i :: H := List.mem_cons_self
  refine (hpoll _).bind fun _ => under_lock.bind fun _ => (hpoll _).bind fun _ => ?_
  refine (under_replenishBin hctx hi).bind fun ret => (hpoll _).bind fun _ => under_ite ?_ ?_
  · exact under_unlock.bind fun _ => (hpoll _).bind fun _ => under_pure
  · refine (under_takeBlock hctx hi).bind fun hdr => (under_countAlloc hctx hi).bind fun _ => ?_
    refine (under_limitDumps hctx hi).bind fun _ => (hpoll _).bind fun _ => under_unlock.bind fun _ => ?_
    refine (hpoll _).bind fun _ => under_ldField.bind fun _ => under_grAssert.bind fun _ => ?_
    exact (hpoll _).bind fun _ => under_pure

theorem under_countFree (hi : .slot i ∈ H) : Under H H (countFree ctx i h) := by
  have hpoll : ∀ line, Under H H (ctx.poll line) := fun _ => hctx.poll
  refine (hpoll _).bind fun _ => under_ldField.bind fun _ => (hpoll _).bind fun _ => ?_
  refine under_grAssert.bind fun _ => (hpoll _).bind fun _ => (under_updHisto hi).bind fun _ => ?_
  refine (hpoll _).bind fun _ => under_ldField.bind fun _ => (under_updSlot hi).bind fun _ => ?_
  exact under_access rfl hi

theorem under_dropBlock (hi : .slot i ∈ H) : Under H H (dropBlock ctx i b h) := by
  have hpoll : ∀ line, Under H H (ctx.poll line) := fun _ => hctx.poll
  refine (hpoll _).bind fun _ => (under_rmElm hctx hi).bind fun _ => ?_
  refine (hpoll _).bind fun _ => under_get fun s => ?_
  extract_lets rest
  have hrest : ∀ u, Under H H (rest u) := fun _ => (hpoll _).bind fun _ => under_updBin hi
  refine under_ite ?_ ?_
  · exact (hpoll _).bind fun _ => (under_delayPut hctx hi).bind fun _ => hrest ()
  · refine (hpoll _).bind fun _ => (under_insertElmHead hctx hi).bind fun _ => ?_
    exact (hpoll _).bind fun _ => (under_updBin hi).bind fun _ => hrest ()

theorem under_putBuf : Under H H (putBuf ctx h) := by
  have hpoll : ∀ {K : List LockId} (line : ℕ), Under K K (ctx.poll line) := fun _ => hctx.poll
  refine (hpoll _).bind fun _ => under_ldField.bind fun _ => under_grAssert.bind fun _ => ?_
  refine (hpoll _).bind fun _ => under_stField.bind fun _ => (under_silent rfl).bind fun _ => ?_
  refine (hpoll _).bind fun _ => under_ldField.bind fun i => under_ite under_throw ?_
  have hi : .slot i ∈ LockId.slot i :: H := List.mem_cons_self
  refine (hpoll _).bind fun _ => under_lock.bind fun _ => (hpoll _).bind fun _ => ?_
  refine under_ldField.bind fun b => under_ite under_throw ?_
  refine (under_countFree hctx hi).bind fun _ => (under_dropBlock hctx hi).bind fun _ => ?_
  exact (hpoll _).bind fun _ => under_unlock.bind fun _ => hpoll _

omit hctx in
theorem under_putTrace {bt : List ℕ} {site : Site} : Under H H (putTrace bt site a n) :=
  under_memset.bind fun _ => (under_storeWords.bind fun _ => under_pure).bind fun _ => under_grAssert

omit hctx in
theorem under_fillBlock {bt : List ℕ} {endBuf : ℕ} : Under H H (fillBlock bt a n h endBuf) := by
  refine under_get fun s => ?_
  extract_lets args misalignment usrData rest₃ rest₂ rest₁
  have hrest₂ : ∀ u, Under H H (rest₂ u) := fun _ => by
    refine under_store64.bind fun _ => under_stField.bind fun _ => under_stField.bind fun _ => ?_
    refine (under_silent rfl).bind fun _ => ?_
    exact under_ite (under_memset.bind fun _ => under_pure) under_pure
  have hrest₁ : ∀ u, Under H H (rest₁ u) := fun _ => by
    refine under_ldField.bind fun _ => under_grAssert.bind fun _ => under_stField.bind fun _ => ?_
    refine under_stField.bind fun _ => under_grAssert.bind fun _ => under_grAssert.bind fun _ => ?_
    refine under_ite ?_ (hrest₂ ())
    exact under_grAssert.bind fun _ => under_memset.bind fun _ => hrest₂ ()
  exact under_ite (under_putTrace.bind fun _ => hrest₁ ()) (hrest₁ ())

omit hctx in
theorem under_checkSlop : Under H H (checkSlop h) := by
  refine under_ldField.bind fun _ => under_ite ?_ under_pure
  refine under_ldField.bind fun _ => under_ldField.bind fun _ => under_get fun _ => ?_
  exact under_memcmp.bind fun _ => under_grAssert

theorem under_memalignInt {bt : List ℕ} : Under H H (memalignInt ctx bt a n) := by
  intro s hs
  unfold memalignInt
  refine wp_bind (wp_get (wp_bind (wp_get (wp_ite (fun h => absurd (hs.symm.trans h) nofun) fun _ => ?_))))
  refine (Under.bind (under_getBuf hctx) fun p => ?_ : Under H H _) s hs
  refine under_ite (under_get fun _ => ?_) under_fillBlock
  exact under_ite (fun _ _ => wp_bind (wp_throw ⟨[], .refl⟩)) under_pure

theorem under_free {bt : List ℕ} : Under H H (free ctx bt a) := by
  refine under_ite under_pure (under_load64.bind fun hdr => under_ldField.bind fun _ => ?_)
  refine under_grAssert.bind fun _ => under_checkSlop.bind fun _ => under_get fun _ => ?_
  extract_lets args
  exact under_ite (under_putTrace.bind fun _ => under_putBuf hctx) (under_putBuf hctx)

/-! ## Dumps -/

theorem under_stdio {calls : List StdioCall} {own : List (ℕ × ℕ)} : Under H H (stdio ctx calls own) := by
  induction calls generalizing own with
  | nil => exact under_pure
  | cons c calls ih =>
      cases c with
      | alloc bt alignment size => exact (under_memalignInt hctx).bind fun _ => ih
      | free bt idx =>
          unfold stdio
          cases own[idx]? with
          | none => exact ih
          | some e => exact (under_free hctx).bind fun _ => ih
      | store idx off bytes =>
          unfold stdio
          cases own[idx]? with
          | none => exact ih
          | some e => exact under_ite (under_storeBytes.bind fun _ => ih) ih

theorem under_fmtOut : Under H H (fmtOut ctx) := under_tick.bind fun _ => under_stdio hctx

theorem under_dumpOffsets : Under H H (dumpOffsets ctx) := under_tick.bind fun _ => under_stdio hctx

theorem under_grPrintf : Under H H (grPrintf ctx) :=
  under_get fun _ => under_ite (under_fmtOut hctx) under_pure

theorem under_dumpFrames : Under H H (dumpFrames ctx a n) := by
  induction n generalizing a with
  | zero => exact under_pure
  | succ n ih =>
      refine under_load64.bind fun _ => (under_fmtOut hctx).bind fun _ => ?_
      exact ih.bind fun _ => under_pure

theorem under_dumpInUse (fuel : ℕ) : Under H H (dumpInUse ctx fuel h) := by
  induction fuel generalizing h with
  | zero =>
      unfold dumpInUse
      exact under_ite under_pure under_throw
  | succ fuel ih =>
      unfold dumpInUse
      refine under_ite under_pure (under_ldField.bind fun _ => (under_fmtOut hctx).bind fun _ => ?_)
      refine under_get fun _ => (under_dumpFrames hctx).bind fun _ => (under_fmtOut hctx).bind fun _ => ?_
      exact under_ldField.bind fun _ => ih.bind fun _ => under_pure

theorem under_dumpBin {d : Dump} : Under H H (dumpBin ctx i d b) := by
  unfold dumpBin
  refine under_get fun _ => under_get fun _ => (under_grPrintf hctx).bind fun _ => under_get fun _ => ?_
  refine under_get fun _ => under_get fun _ => under_ite ?_ ?_
  · exact (under_dumpInUse hctx _).bind fun _ => under_pure
  · exact under_pure.bind fun _ => under_pure

theorem under_dumpHisto {d : Dump} : Under H H (dumpHisto ctx i d b) :=
  under_get fun _ => under_get fun _ => (under_grPrintf hctx).bind fun _ => under_pure

omit hctx in
theorem under_foldlM {g : Dump → ℕ → M Dump} {js : List ℕ} {d : Dump} (hg : ∀ d j, Under H H (g d j)) :
    Under H H (js.foldlM g d) := by
  induction js generalizing d with
  | nil => exact under_pure
  | cons j js ih => exact (hg d j).bind fun _ => ih

theorem under_dumpSlot {d : Dump} : Under H H (dumpSlot ctx d i) := by
  refine under_lock.bind fun _ => under_get fun _ => (under_fmtOut hctx).bind fun _ => ?_
  refine (under_grPrintf hctx).bind fun _ => ?_
  refine (under_foldlM fun _ _ => under_dumpBin hctx).bind fun _ => (under_grPrintf hctx).bind fun _ => ?_
  refine (under_foldlM fun _ _ => under_dumpHisto hctx).bind fun _ => ?_
  exact under_unlock.bind fun _ => under_pure

theorem under_onExitHelperBody {hwm : ℕ} : Under H H (onExitHelperBody ctx hwm) := by
  refine (under_dumpOffsets hctx).bind fun _ => (under_fmtOut hctx).bind fun _ => under_get fun _ => ?_
  refine (under_foldlM fun _ _ => under_dumpSlot hctx).bind fun _ => (under_silent rfl).bind fun _ => ?_
  exact under_ite (under_throw.bind fun _ => under_fmtOut hctx) (under_fmtOut hctx)

omit hctx in
/-- The dumps of every depth. -/
theorem ctxOf_under (env : Env) (depth : ℕ) : (ctxOf env depth).Under := by
  induction depth with
  | zero => exact ⟨fun _ => under_throw, fun _ _ _ => (under_silent rfl).bind fun _ => under_throw⟩
  | succ depth ih =>
      refine ⟨fun _ => under_fmtOut ih, fun _ _ _ => (under_silent rfl).bind fun _ => ?_⟩
      exact (under_onExitHelperBody ih).bind fun _ => under_silent rfl

/-! ## Calls -/

theorem under_exec {bt : List ℕ} (c : Call) : Under H H (c.exec ctx bt) := by
  cases c with
  | malloc n => exact under_memalignInt hctx
  | calloc k n =>
      refine (under_memalignInt hctx).bind fun _ => under_ite under_pure ?_
      exact under_memset.bind fun _ => under_pure
  | realloc p n =>
      refine (under_memalignInt hctx).bind fun _ => under_ite under_pure ?_
      refine under_load64.bind fun _ => under_ldField.bind fun _ => under_memcpy.bind fun _ => ?_
      exact (under_free hctx).bind fun _ => under_pure
  | memalign alignment n => exact under_memalignInt hctx
  | posixMemalign alignment n =>
      refine Under.bind (under_ite under_pure ?_) fun _ => under_pure
      exact (under_memalignInt hctx).bind fun _ => under_ite under_pure under_pure
  | free p => exact (under_free hctx).bind fun _ => under_pure
  | load p off len => exact under_touch.bind fun _ => under_pure
  | store p off bytes => exact under_storeBytes.bind fun _ => under_pure
  | onExit => exact (hctx.dump H true 0).bind fun _ => under_pure

end GuardRails
