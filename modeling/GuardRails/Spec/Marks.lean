import GuardRails.Spec.Supply
import GuardRails.Spec.Undisturbed

/-!
# What the start of the program fixes

In an undisturbed system every pool lies in the same region, and nobody changes the water
marks after `initBinsMeta` has set them.
-/

namespace GuardRails

open StateHoare

variable {env : Env} {s s' : Heap} {ctx : Ctx} {i b n slotNum binNum : ℕ} {α β : Type} {m : M α}
  {f : α → M β} {evs : List Event}

/-- The pools are in the region, and the bins of the first slot have their water marks. -/
structure Heap.AsBooted (s : Heap) : Prop where
  start : ∀ P ∈ s.memPools, P.start = topRegion
  lowWater : ∀ c, (s.bin 0 c).lowWater = if c ∈ markedBins then 100 else 0
  highWater : ∀ c, (s.bin 0 c).highWater = if c ∈ markedBins then 200 else 0

/-- A step that leaves the water marks and the region of the pools. -/
def Holds (m : M α) : Prop :=
  ∀ s, s.AsBooted → wp m (fun _ s' => s'.AsBooted) (fun _ _ => True) s

theorem Emits.asBooted (he : Emits evs s s') (hs : s.AsBooted)
    (hstart : ∀ P ∈ s'.memPools, P.start = topRegion) : s'.AsBooted where
  start := hstart
  lowWater c := (he.water 0 c).1.trans (hs.lowWater c)
  highWater c := (he.water 0 c).2.trans (hs.highWater c)

theorem Logs.holds (hm : Logs evs m) : Holds m := fun s hs =>
  wp_mono (hm s) (fun _ _ h => h.1.asBooted hs fun P hP => hs.start P (h.2.memPools ▸ hP))
    fun _ _ _ => trivial

theorem Holds.bind (hm : Holds m) (hf : ∀ a, Holds (f a)) : Holds (m >>= f) :=
  fun s hs => wp_bind_of (hm s hs) fun a s₁ h₁ => hf a s₁ h₁

theorem holds_pure {a : α} : Holds (pure a : M α) := fun _ hs => wp_pure hs

theorem holds_throw {e : Halt} : Holds (throw e : M α) := fun _ _ => wp_throw trivial

theorem holds_get {f : Heap → M β} (hf : ∀ s, s.AsBooted → wp (f s) (fun _ s' => s'.AsBooted)
    (fun _ _ => True) s) : Holds (get >>= f) :=
  fun s hs => wp_bind (wp_get (hf s hs))

theorem holds_ite {c : Prop} [Decidable c] {m' : M α} (hm : Holds m) (hm' : Holds m') :
    Holds (if c then m else m') :=
  fun s hs => wp_ite (fun _ => hm s hs) fun _ => hm' s hs

theorem holds_addNewMemPool (hctx : ctx.env = env) (henv : env.Granting) :
    Holds (addNewMemPool ctx n) := by
  intro s hs
  unfold addNewMemPool
  extract_lets poolSize
  refine wp_bind (wp_get (wp_bind (wp_grAssert (fun _ => ?_) fun _ => trivial)))
  refine wp_bind (wp_grAssert (fun _ => ?_) fun _ => trivial)
  rw [hctx]
  refine wp_bind (wp_mmap_offer (fun _ => ?_) fun a hoffer _ => ?_)
  · refine wp_bind (wp_tick ?_)
    extract_lets limit
    refine wp_ite (fun _ => wp_dump_halt fun _ _ => trivial) fun _ => wp_pure ?_
    exact ⟨hs.start, hs.lowWater, hs.highWater⟩
  · obtain rfl : topRegion = a := by
      unfold Supply.offer at hoffer
      rw [henv.mmap] at hoffer
      exact Option.some.inj (Option.eq_some_of_filter_eq_some hoffer)
    refine wp_bind (wp_grAssert (fun _ => ?_) fun _ => trivial)
    extract_lets rest
    have hrest : ∀ u, Holds (rest u) := by
      intro u
      refine holds_get fun s₁ hs₁ => ?_
      refine wp_ite (fun _ => ?_) fun _ => ?_
      · exact wp_bind_of (wp_trivial _) fun _ _ _ => wp_bind (wp_throw trivial)
      · refine wp_bind (wp_set (wp_pure ⟨fun P hP => ?_, hs₁.lowWater, hs₁.highWater⟩))
        rcases List.mem_cons.1 hP with rfl | hP
        · rfl
        · exact hs₁.start P hP
    refine wp_ite (fun _ => ?_) fun _ => hrest () _ ⟨hs.start, hs.lowWater, hs.highWater⟩
    refine wp_bind (wp_mlock_ask (fun _ => ?_) fun _ => ?_)
    · refine wp_ite (fun h => absurd rfl h) fun _ => hrest () _ ?_
      exact ⟨hs.start, hs.lowWater, hs.highWater⟩
    · exact wp_ite (fun _ => wp_dump_halt fun _ _ => trivial) fun h => absurd (by decide) h

theorem Heap.AsBooted.bump (hs : s.AsBooted) : (s.bump n).AsBooted := by
  refine emits_bump.asBooted hs fun P hP => ?_
  unfold Heap.bump at hP
  split at hP
  · exact hs.start P hP
  · rename_i Q Qs hpools
    rcases List.mem_cons.1 hP with rfl | hP
    · exact hs.start Q (hpools ▸ List.mem_cons_self)
    · exact hs.start P (hpools ▸ List.mem_cons_of_mem Q hP)

theorem holds_getFromPool (hctx : ctx.env = env) (henv : env.Granting) :
    Holds (getFromPool ctx n) := by
  unfold getFromPool
  extract_lets binTotalSize rest
  have hrest : ∀ ret, Holds (rest ret) := by
    intro ret
    refine holds_ite (logs_pthreadMutexUnlock.holds.bind fun _ => holds_pure) ?_
    refine holds_get fun s hs => wp_bind_of (logs_grAssert.holds s hs) fun _ _ _ => ?_
    refine wp_bind (wp_set ?_)
    have hend : Holds (do
        putGuard ctx s.startFree n
        emit (.carved s.startFree n)
        pthreadMutexUnlock .gMutex
        pure s.startFree) := by
      refine (logs_putGuard hctx henv).holds.bind fun _ => ?_
      refine (logs_emit (e := .carved s.startFree n) trivial).holds.bind fun _ => ?_
      exact logs_pthreadMutexUnlock.holds.bind fun _ => holds_pure
    exact hend _ hs.bump
  refine logs_pthreadMutexLock.holds.bind fun _ => holds_get fun s hs => ?_
  refine wp_ite (fun _ => ?_) fun _ => hrest 0 s hs
  exact wp_bind_of (holds_addNewMemPool hctx henv s hs) fun ret s₁ hs₁ => hrest ret s₁ hs₁

theorem holds_replenishLoop (hctx : ctx.env = env) (henv : env.Granting) (fuel : ℕ) :
    Holds (replenishLoop ctx slotNum binNum fuel) := by
  have hpoll : ∀ line, Holds (ctx.poll line) := fun line => (logs_poll hctx henv line).holds
  induction fuel with
  | zero => exact holds_throw
  | succ fuel ih =>
      unfold replenishLoop
      refine (hpoll _).bind fun _ => (holds_getFromPool hctx henv).bind fun hdr => ?_
      refine (hpoll _).bind fun _ => holds_ite holds_pure ?_
      refine (hpoll _).bind fun _ => logs_stField.holds.bind fun _ => ?_
      refine (hpoll _).bind fun _ => logs_stField.holds.bind fun _ => ?_
      refine (hpoll _).bind fun _ => logs_stField.holds.bind fun _ => ?_
      refine (logs_emit (e := .labelled hdr slotNum binNum) trivial).holds.bind fun _ => ?_
      refine (hpoll _).bind fun _ => (logs_insertElmHead hctx henv).holds.bind fun _ => ?_
      refine (hpoll _).bind fun _ => ?_
      refine Holds.bind (fun s hs => wp_modify ?_) fun _ => ?_
      · refine Emits.asBooted (.updBin ?_) hs hs.start
        exact fun _ => ⟨rfl, rfl⟩
      · refine (hpoll _).bind fun _ => holds_get fun s hs => ?_
        exact holds_ite ih ((hpoll _).bind fun _ => holds_pure) s hs

theorem holds_replenishBin (hctx : ctx.env = env) (henv : env.Granting) :
    Holds (replenishBin ctx slotNum binNum) := by
  have hpoll : ∀ line, Holds (ctx.poll line) := fun line => (logs_poll hctx henv line).holds
  unfold replenishBin
  refine (hpoll _).bind fun _ => logs_verifyLocked.holds.bind fun _ => ?_
  refine logs_grAssert.holds.bind fun _ => holds_ite holds_throw (holds_ite holds_pure ?_)
  refine (hpoll _).bind fun _ => holds_get fun s hs => ?_
  exact holds_ite (holds_replenishLoop hctx henv _) ((hpoll _).bind fun _ => holds_pure) s hs

theorem holds_replenishBins (hctx : ctx.env = env) (henv : env.Granting) (bins : List ℕ) :
    Holds (replenishBins ctx slotNum bins) := by
  induction bins with
  | nil => exact holds_pure
  | cons b bins ih => exact (holds_replenishBin hctx henv).bind fun ret => holds_ite holds_pure ih

theorem holds_replenishSlots (hctx : ctx.env = env) (henv : env.Granting) (slots : List ℕ) :
    Holds (replenishSlots ctx slots) := by
  induction slots with
  | nil => exact holds_pure
  | cons i slots ih =>
      refine logs_pthreadMutexLock.holds.bind fun _ => logs_verifyLocked.holds.bind fun _ => ?_
      refine logs_grAssert.holds.bind fun _ => (holds_replenishBins hctx henv _).bind fun _ => ?_
      exact logs_pthreadMutexUnlock.holds.bind fun _ => ih

/-- The library is loaded: one region, and water marks on the bins for small blocks. -/
theorem boot_asBooted (henv : env.Granting) {depth : ℕ} :
    wp (boot env depth) (fun _ s => s.AsBooted) (fun _ _ => True) Heap.static := by
  have hctx : (ctxOf env.unsignalled depth).env = env.unsignalled := (ctxOf_ok _ depth).env_eq
  have henv' := henv.unsignalled
  unfold boot grInitialize
  rw [hctx]
  refine wp_bind (wp_get (wp_ite nofun fun _ => ?_))
  refine wp_bind (wp_grAssert_of (by decide) (wp_bind (wp_grAssert_of (by decide) ?_)))
  refine wp_bind (wp_modify (wp_bind (wp_pthreadMutexLock (fun _ => ?_) nofun)))
  refine wp_bind (wp_bind (wp_modify (wp_bind (wp_get (wp_pure ?_)))))
  extract_lets initSize
  clear_value initSize
  refine wp_bind (wp_pthreadMutexLock (fun _ => ?_) nofun)
  refine wp_bind_of (Q := fun _ s => s.AsBooted) (wp_modify ?_) fun _ s hs => ?_
  · have hslot : ∀ S : MemSlot, (if 0 < env.unsignalled.args.numSlots then initSlot S else S) =
        initSlot S := fun S => if_pos (by rw [henv'.numSlots]; decide)
    refine ⟨fun P hP => absurd hP List.not_mem_nil, fun c => ?_, fun c => ?_⟩
    · change ((if 0 < env.unsignalled.args.numSlots then initSlot {} else {} : MemSlot).memBins c).lowWater = _
      rw [hslot]
      unfold initSlot
      dsimp only
      split <;> rfl
    · change ((if 0 < env.unsignalled.args.numSlots then initSlot {} else {} : MemSlot).memBins c).highWater = _
      rw [hslot]
      unfold initSlot
      dsimp only
      split <;> rfl
  refine (holds_addNewMemPool hctx henv').bind (fun _ => logs_grAssert.holds.bind fun _ => ?_) s hs
  refine logs_pthreadMutexUnlock.holds.bind fun _ => ?_
  refine (holds_replenishSlots hctx henv' _).bind fun _ => ?_
  refine Holds.bind (fun s hs => wp_modify ⟨hs.start, hs.lowWater, hs.highWater⟩) fun _ => ?_
  exact logs_pthreadMutexUnlock.holds

end GuardRails
