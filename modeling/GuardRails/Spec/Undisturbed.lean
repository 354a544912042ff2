import GuardRails.Spec.Run

/-!
# Undisturbed runs

When no signal arrives, no limit is set and the kernel changes every protection that it is
asked to, the history of a call is easy to tell: `Logs evs m` says which events `m` adds to
it. In such a run no halt is excused, so the calls of a well-behaved client complete as long
as the pools last.
-/

namespace GuardRails

open ByteMemory StateHoare

variable {env : Env} {ctx : Ctx} {s s' s₁ s₂ : Heap} {evs evs₁ evs₂ : List Event} {α β : Type}
  {m : M α} {f : α → M β} {a n v h : ℕ} {r : HeadRef} {l : LockId} {e : Event}

/-- Where an undisturbed system maps pools: the last 4 GiB of the user half. -/
def topRegion : ℕ := 2 ^ 47 - 2 ^ 32

/-- No signal, one slot, and a system that grants what is asked of it, as long as it has the
room. -/
structure Env.Granting (env : Env) : Prop where
  calm : env.Calm
  mmap : ∀ t, env.mmap t = some topRegion
  mlock : ∀ t, env.mlock t = true
  mprotect : ∀ t, env.mprotect t = true
  numSlots : env.args.numSlots = 1

/-- The same, without limits. -/
structure Env.Undisturbed (env : Env) : Prop extends Env.Granting env where
  interval : env.args.slotHWMDumpIntervalBytes = 2 ^ 64 - 1
  limit : env.args.maxRequestedBytes = 2 ^ 64 - 1

def Event.Plain : Event → Prop
  | .dumpBegun | .dumped _ | .dumpEnded | .limitReached => False
  | .mmapFailed | .mlockFailed | .mprotectFailed | .poolsExhausted => False
  | _ => True

structure MemSlot.Low (S : MemSlot) : Prop where
  last : S.lastHWMUsrBytesDump = 0
  hwm : S.hwmUsrBytes < 2 ^ 64
  requested : S.totalUserRequestedBytes < 2 ^ 64

def Heap.Low (s : Heap) : Prop := ∀ i, (s.memSlots i).Low

structure Emits (evs : List Event) (s s' : Heap) : Prop where
  log : s'.log = evs ++ s.log
  plain : ∀ e ∈ evs, e.Plain
  grArgs : s'.grArgs = s.grArgs
  isInit : s'.isInit = s.isInit
  low : s.Low → s'.Low
  water : ∀ i b, (s'.bin i b).lowWater = (s.bin i b).lowWater ∧
    (s'.bin i b).highWater = (s.bin i b).highWater

def Unexcused (s : Heap) (_ : Halt) (s' : Heap) : Prop :=
  ∃ evs, (∀ e ∈ evs, e.Plain) ∧ s'.log = evs ++ s.log

/-- No pool memory is used, and no block is counted as free or taken. -/
structure Still (s s' : Heap) : Prop where
  memPools : s'.memPools = s.memPools
  numFree : ∀ i b, (s'.bin i b).numFree = (s.bin i b).numFree

/-- `m` adds `evs` to the history, and moves no block. -/
def Logs (evs : List Event) (m : M α) : Prop :=
  ∀ s, wp m (fun _ s' => Emits evs s s' ∧ Still s s') (Unexcused s) s

theorem Still.refl : Still s s := ⟨rfl, fun _ _ => rfl⟩

theorem Still.trans (h₁ : Still s s₁) (h₂ : Still s₁ s₂) : Still s s₂ :=
  ⟨h₂.memPools.trans h₁.memPools, fun i b => (h₂.numFree i b).trans (h₁.numFree i b)⟩

theorem Emits.refl : Emits [] s s :=
  ⟨rfl, by simp, rfl, rfl, id, fun _ _ => ⟨rfl, rfl⟩⟩

theorem Emits.trans (h₁ : Emits evs₁ s s₁) (h₂ : Emits evs₂ s₁ s₂) :
    Emits (evs₂ ++ evs₁) s s₂ where
  log := by rw [h₂.log, h₁.log, List.append_assoc]
  plain e he := (List.mem_append.1 he).elim (h₂.plain e) (h₁.plain e)
  grArgs := h₂.grArgs.trans h₁.grArgs
  isInit := h₂.isInit.trans h₁.isInit
  low h := h₂.low (h₁.low h)
  water i b := ⟨(h₂.water i b).1.trans (h₁.water i b).1, (h₂.water i b).2.trans (h₁.water i b).2⟩

theorem Unexcused.refl {e : Halt} : Unexcused s e s := ⟨[], by simp, rfl⟩

theorem Unexcused.of_log {e : Halt} (h : s'.log = s.log) : Unexcused s e s' := ⟨[], by simp, h⟩

theorem Emits.unexcused {e : Halt} (h₁ : Emits evs s s₁) (h₂ : Unexcused s₁ e s₂) :
    Unexcused s e s₂ := by
  obtain ⟨evs₂, hplain, hlog⟩ := h₂
  exact ⟨evs₂ ++ evs, fun e he => (List.mem_append.1 he).elim (hplain e) (h₁.plain e),
    by rw [hlog, h₁.log, List.append_assoc]⟩

/-! ## The events of the primitive steps -/

theorem logs_pure {a : α} : Logs [] (pure a : M α) := fun _ => wp_pure ⟨.refl, .refl⟩

theorem logs_throw {e : Halt} : Logs evs (throw e : M α) := fun _ => wp_throw .refl

theorem Logs.bind (hm : Logs evs₁ m) (hf : ∀ a, Logs evs₂ (f a)) :
    Logs (evs₂ ++ evs₁) (m >>= f) := by
  intro s
  refine wp_bind (wp_mono (hm s) (fun a s₁ h₁ => ?_) fun _ _ hE => hE)
  refine wp_mono (hf a s₁) (fun _ s₂ h₂ => ?_) fun _ _ hE => h₁.1.unexcused hE
  exact ⟨h₁.1.trans h₂.1, h₁.2.trans h₂.2⟩

/-- A first step without events. -/
theorem Logs.seq (hm : Logs [] m) (hf : ∀ a, Logs evs (f a)) : Logs evs (m >>= f) := by
  have h := hm.bind hf
  rwa [List.append_nil] at h

/-- A last step without events. -/
theorem Logs.then (hm : Logs evs m) (hf : ∀ a, Logs [] (f a)) : Logs evs (m >>= f) := hm.bind hf

theorem logs_get {f : Heap → M β} (hf : ∀ s, Logs evs (f s)) : Logs evs (get >>= f) :=
  fun s => wp_bind (wp_get (hf s s))

theorem logs_ite {c : Prop} [Decidable c] {m m' : M α} (hm : c → Logs evs m)
    (hm' : ¬ c → Logs evs m') : Logs evs (if c then m else m') :=
  fun s => wp_ite (fun hc => hm hc s) fun hc => hm' hc s

theorem logs_modify {f : Heap → Heap} (hf : ∀ s, Emits [] s (f s) ∧ Still s (f s)) :
    Logs [] (modify f) :=
  fun s => wp_modify (hf s)

/-- A change of memory, pages or the clock. -/
theorem logs_other {f : Heap → Heap} (hlog : ∀ s, (f s).log = s.log)
    (hpools : ∀ s, (f s).memPools = s.memPools) (hargs : ∀ s, (f s).grArgs = s.grArgs)
    (hinit : ∀ s, (f s).isInit = s.isInit) (hslots : ∀ s, (f s).memSlots = s.memSlots) :
    Logs [] (modify f) := by
  refine logs_modify fun s => ⟨⟨hlog s, by simp, hargs s, hinit s, fun h i => ?_,
    fun i b => ?_⟩, hpools s, fun i b => ?_⟩
  · rw [hslots]
    exact h i
  · simp only [Heap.bin, hslots, and_self]
  · simp only [Heap.bin, hslots]

theorem logs_emit (he : e.Plain) : Logs [e] (emit e) := by
  refine fun s => wp_emit ⟨⟨rfl, ?_, rfl, rfl, id, fun _ _ => ⟨rfl, rfl⟩⟩, rfl, fun _ _ => rfl⟩
  simpa using he

theorem logs_tick : Logs [] tick :=
  fun _ => wp_tick ⟨⟨rfl, by simp, rfl, rfl, id, fun _ _ => ⟨rfl, rfl⟩⟩, rfl, fun _ _ => rfl⟩

theorem logs_grAssert {site : Site} {c : Prop} [Decidable c] : Logs [] (grAssert site c) :=
  logs_ite (fun _ => logs_pure) fun _ => logs_throw

theorem logs_touch : Logs [] (touch a n) :=
  logs_get fun _ => logs_ite (fun _ => logs_pure) fun _ => logs_throw

theorem logs_load64 : Logs [] (load64 a) := logs_touch.seq fun _ => logs_get fun _ => logs_pure

theorem logs_store64 : Logs [] (store64 a v) :=
  logs_touch.seq fun _ =>
    logs_other (fun _ => rfl) (fun _ => rfl) (fun _ => rfl) (fun _ => rfl) fun _ => rfl

theorem logs_ldField {f : Field} : Logs [] (ldField a f) := logs_load64

theorem logs_stField {f : Field} : Logs [] (stField a f v) := logs_store64

theorem logs_memset {b : UInt8} : Logs [] (memset a b n) :=
  logs_touch.seq fun _ =>
    logs_other (fun _ => rfl) (fun _ => rfl) (fun _ => rfl) (fun _ => rfl) fun _ => rfl

theorem logs_memcpy {dst src : ℕ} : Logs [] (memcpy dst src n) :=
  logs_touch.seq fun _ => logs_touch.seq fun _ =>
    logs_other (fun _ => rfl) (fun _ => rfl) (fun _ => rfl) (fun _ => rfl) fun _ => rfl

theorem logs_memcmp {arr : ℕ → UInt8} : Logs [] (memcmp a arr n) :=
  logs_touch.seq fun _ => logs_get fun _ => logs_pure

theorem logs_storeBytes {bytes : List UInt8} : Logs [] (storeBytes a bytes) :=
  logs_touch.seq fun _ =>
    logs_other (fun _ => rfl) (fun _ => rfl) (fun _ => rfl) (fun _ => rfl) fun _ => rfl

theorem logs_storeWords {ws : List ℕ} : Logs [] (storeWords a ws) := by
  induction ws generalizing a with
  | nil => exact logs_pure
  | cons w ws ih => exact logs_store64.seq fun _ => ih

theorem logs_getHead : Logs [] (getHead r) := logs_get fun _ => logs_pure

theorem logs_verifyLocked : Logs [] (verifyLocked l) := logs_get fun _ => logs_pure

theorem logs_mprotect {p : Prot} (henv : env.Granting) : Logs [] (mprotect env a n p) := by
  refine logs_tick.seq fun t => logs_ite (fun _ => ?_) fun hf => absurd (henv.mprotect t) hf
  refine Logs.seq ?_ fun _ => logs_pure
  exact logs_other (fun _ => rfl) (fun _ => rfl) (fun _ => rfl) (fun _ => rfl) fun _ => rfl

theorem Env.Granting.quiet (henv : env.Granting) (hctx : ctx.env = env) {line t : ℕ} :
    ctx.env.sigusr2 line t ≠ true := by
  rw [hctx, henv.calm]
  exact Bool.false_ne_true

theorem logs_poll (hctx : ctx.env = env) (henv : env.Granting) (line : ℕ) :
    Logs [] (ctx.poll line) :=
  logs_get fun _ => logs_ite (fun hsig => absurd hsig (henv.quiet hctx)) fun _ => logs_pure

theorem Emits.updSlot {i : ℕ} {f : MemSlot → MemSlot}
    (hlow : ∀ S : MemSlot, S.Low → (f S).Low)
    (hbin : ∀ (S : MemSlot) b, ((f S).memBins b).lowWater = (S.memBins b).lowWater ∧
      ((f S).memBins b).highWater = (S.memBins b).highWater) :
    Emits [] s (s.updSlot i f) := by
  refine ⟨rfl, by simp, rfl, rfl, fun h j => ?_, fun j b => ?_⟩
  · simp only [Heap.updSlot, Function.update_apply]
    split
    · subst j
      exact hlow _ (h i)
    · exact h j
  · simp only [Heap.bin, Heap.updSlot, Function.update_apply]
    split
    · subst j
      exact hbin _ b
    · exact ⟨rfl, rfl⟩

theorem Emits.updBin {i b : ℕ} {f : MemBin → MemBin}
    (hf : ∀ B : MemBin, (f B).lowWater = B.lowWater ∧ (f B).highWater = B.highWater) :
    Emits [] s (s.updBin i b f) := by
  refine .updSlot (fun _ h => ⟨h.last, h.hwm, h.requested⟩) fun S c => ?_
  simp only [Function.update_apply]
  split
  · subst c
    exact hf _
  · exact ⟨rfl, rfl⟩

theorem Still.updSlot {i : ℕ} {f : MemSlot → MemSlot}
    (hbin : ∀ (S : MemSlot) b, ((f S).memBins b).numFree = (S.memBins b).numFree) :
    Still s (s.updSlot i f) := by
  refine ⟨rfl, fun j b => ?_⟩
  simp only [Heap.bin, Heap.updSlot, Function.update_apply]
  split
  · subst j
    exact hbin _ b
  · rfl

theorem Still.updBin {i b : ℕ} {f : MemBin → MemBin} (hf : ∀ B : MemBin, (f B).numFree = B.numFree) :
    Still s (s.updBin i b f) := by
  refine .updSlot fun S c => ?_
  simp only [Function.update_apply]
  split
  · subst c
    exact hf _
  · rfl

theorem emits_setMutex {m : Mutex} :
    Emits [] s (s.setMutex l m) ∧ Still s (s.setMutex l m) := by
  cases l with
  | slot i =>
      let f : MemSlot → MemSlot := fun S => { S with lock := m }
      exact ⟨.updSlot (f := f) (fun _ h => ⟨h.last, h.hwm, h.requested⟩) fun _ _ => ⟨rfl, rfl⟩,
        .updSlot (f := f) fun _ _ => rfl⟩
  | gMutex => exact ⟨⟨rfl, by simp, rfl, rfl, id, fun _ _ => ⟨rfl, rfl⟩⟩, rfl, fun _ _ => rfl⟩
  | initMutex => exact ⟨⟨rfl, by simp, rfl, rfl, id, fun _ _ => ⟨rfl, rfl⟩⟩, rfl, fun _ _ => rfl⟩

theorem logs_pthreadMutexLock : Logs [.acquired l] (pthreadMutexLock l) := by
  intro s
  refine wp_pthreadMutexLock (fun _ => ?_) fun _ _ => .of_log rfl
  obtain ⟨h, hfree⟩ := emits_setMutex (s := s) (l := l) (m := (s.mutex l).lock)
  exact ⟨⟨rfl, by simp [Event.Plain], h.grArgs, h.isInit, h.low, h.water⟩,
    hfree.memPools, hfree.numFree⟩

theorem logs_pthreadMutexUnlock : Logs [.released l] (pthreadMutexUnlock l) :=
  (logs_modify fun _ => emits_setMutex).seq fun _ => logs_emit (e := .released l) trivial

theorem logs_putHead : Logs [] (putHead r h) := by
  obtain ⟨kind, i, b⟩ := r
  cases kind
  · exact logs_modify fun _ => ⟨.updBin fun _ => ⟨rfl, rfl⟩, .updBin fun _ => rfl⟩
  · exact logs_modify fun _ => ⟨.updBin fun _ => ⟨rfl, rfl⟩, .updBin fun _ => rfl⟩

/-! ## Lists -/

theorem logs_insertElmHead (hctx : ctx.env = env) (henv : env.Granting) :
    Logs [.linked r h] (insertElmHead ctx r h) := by
  have hpoll := logs_poll hctx henv
  unfold insertElmHead
  refine logs_getHead.seq fun head => ?_
  extract_lets rest
  have hrest : ∀ u, Logs [.linked r h] (rest u) := fun _ => by
    refine (hpoll _).seq fun _ => logs_getHead.seq fun _ => logs_stField.seq fun _ => ?_
    refine (hpoll _).seq fun _ => logs_stField.seq fun _ => (hpoll _).seq fun _ => ?_
    exact logs_putHead.seq fun _ => logs_emit (e := .linked r h) trivial
  refine logs_ite (fun _ => ?_) fun _ => hrest ()
  exact (hpoll _).seq fun _ => logs_getHead.seq fun _ => logs_stField.seq fun _ => hrest ()

theorem logs_rmElm (hctx : ctx.env = env) (henv : env.Granting) :
    Logs [.unlinked r h] (rmElm ctx r h) := by
  have hpoll := logs_poll hctx henv
  unfold rmElm
  refine logs_getHead.seq fun head => ?_
  extract_lets rest₃ rest₂ rest₁
  have hrest₃ : ∀ u, Logs [.unlinked r h] (rest₃ u) := fun _ => by
    refine (logs_emit (e := .unlinked r h) trivial).then fun _ => ?_
    exact (hpoll _).seq fun _ => logs_stField.seq fun _ => (hpoll _).seq fun _ => logs_stField
  have hrest₂ : ∀ u, Logs [.unlinked r h] (rest₂ u) := fun _ => by
    refine (hpoll _).seq fun _ => logs_ldField.seq fun _ => logs_ite (fun _ => ?_) fun _ => hrest₃ ()
    exact (hpoll _).seq fun _ => logs_ldField.seq fun _ => logs_ldField.seq fun _ =>
      logs_stField.seq fun _ => hrest₃ ()
  have hrest₁ : ∀ u, Logs [.unlinked r h] (rest₁ u) := fun _ => by
    refine (hpoll _).seq fun _ => logs_ldField.seq fun _ => logs_ite (fun _ => ?_) fun _ => hrest₂ ()
    exact (hpoll _).seq fun _ => logs_ldField.seq fun _ => logs_ldField.seq fun _ =>
      logs_stField.seq fun _ => hrest₂ ()
  refine logs_ite (fun _ => ?_) fun _ => hrest₁ ()
  exact (hpoll _).seq fun _ => logs_ldField.seq fun _ => logs_putHead.seq fun _ => hrest₁ ()

/-! ## Pools and refills -/

/-- A step that is followed by others: what it has logged so far is kept in mind. -/
theorem Emits.bind {Q : β → Heap → Prop} {s₀ : Heap} (h₀ : Emits evs₁ s₀ s) (hm : Logs evs m)
    (hf : ∀ a s', Emits (evs ++ evs₁) s₀ s' → Still s s' → wp (f a) Q (Unexcused s₀) s') :
    wp (m >>= f) Q (Unexcused s₀) s :=
  wp_bind (wp_mono (hm s) (fun a s' h => hf a s' (h₀.trans h.1) h.2) fun _ _ hE => h₀.unexcused hE)

def Heap.budget (s : Heap) : ℕ :=
  match s.memPools with
  | [P] => if P.totalSizeBytes ≤ 2 ^ 32 then P.remainingSizeBytes else 0
  | _ => 0

theorem Heap.budget_le (s : Heap) : s.budget ≤ s.remaining := by
  unfold Heap.budget Heap.remaining
  rcases s.memPools with - | ⟨P, - | ⟨Q, Ps⟩⟩
  · exact le_rfl
  · dsimp only
    split
    · exact le_rfl
    · exact Nat.zero_le _
  · exact Nat.zero_le _

theorem budget_congr (h : s'.memPools = s.memPools) : s'.budget = s.budget := by
  rw [Heap.budget, h, Heap.budget]

theorem Still.budget (h : Still s s') : s'.budget = s.budget := budget_congr h.memPools

/-- A history that has not grown. -/
theorem Emits.eq_nil (h : Emits evs s s) : evs = [] := List.self_eq_append_left.1 h.log

theorem emits_bump : Emits [] s (s.bump n) := by
  unfold Heap.bump
  cases s.memPools with
  | nil => exact .refl
  | cons P Ps => exact ⟨rfl, by simp, rfl, rfl, id, fun _ _ => ⟨rfl, rfl⟩⟩

theorem bump_numFree (i b : ℕ) : ((s.bump n).bin i b).numFree = (s.bin i b).numFree := by
  unfold Heap.bump
  cases s.memPools <;> rfl

theorem bump_budget : (s.bump n).budget = s.budget - n := by
  unfold Heap.bump Heap.budget
  rcases h : s.memPools with - | ⟨P, - | ⟨Q, Ps⟩⟩
  · simp [h]
  · dsimp only
    split
    · rfl
    · rw [Nat.zero_sub]
  · simp

theorem logs_putGuard (hctx : ctx.env = env) (henv : env.Granting) :
    Logs [] (putGuard ctx h n) := by
  unfold putGuard
  refine logs_grAssert.seq fun _ => ?_
  extract_lets guardStart
  refine logs_grAssert.seq fun _ => logs_store64.seq fun _ => Logs.seq ?_ fun _ => logs_grAssert
  exact hctx ▸ logs_mprotect (hctx ▸ henv)

/-- While the current pool lasts no other is mapped. -/
theorem getFromPool_emits (hctx : ctx.env = env) (henv : env.Granting)
    (hrem : n + guardSize ≤ s.budget) :
    wp (getFromPool ctx n)
      (fun _ s' => (∃ evs, Emits evs s s') ∧ s'.budget + (n + guardSize) = s.budget ∧
        ∀ i b, (s'.bin i b).numFree = (s.bin i b).numFree)
      (Unexcused s) s := by
  unfold getFromPool
  extract_lets binTotalSize rest
  have hsize : binTotalSize = n + guardSize := rfl
  clear_value binTotalSize
  refine Emits.refl.bind logs_pthreadMutexLock fun _ s₁ h₁ hs₁ => ?_
  have hrem₁ : s₁.budget = s.budget := hs₁.budget
  have hle := s₁.budget_le
  refine wp_bind (wp_get (wp_ite (fun h => absurd h (by omega)) fun _ => wp_bind (wp_pure ?_)))
  refine wp_ite (fun h => absurd rfl h) fun _ => wp_bind (wp_get ?_)
  extract_lets hdr
  refine h₁.bind logs_grAssert fun _ s₂ h₂ hs₂ => wp_bind (wp_set ?_)
  have h₃ := h₁.trans (emits_bump (n := binTotalSize))
  refine h₃.bind (logs_putGuard hctx henv) fun _ s₄ h₄ hs₄ => ?_
  refine h₄.bind (logs_emit (e := .carved hdr n) trivial) fun _ s₅ h₅ hs₅ => ?_
  refine h₅.bind logs_pthreadMutexUnlock fun _ s₆ h₆ hs₆ => wp_pure ⟨⟨_, h₆⟩, ?_, fun i b => ?_⟩
  · have := ((hs₄.trans hs₅).trans hs₆).budget
    rw [bump_budget] at this
    omega
  · rw [((hs₄.trans hs₅).trans hs₆).numFree, bump_numFree, hs₁.numFree]

def refillSize (b : ℕ) : ℕ := 200 * (2 ^ b + guardSize)

structure Refills (i b k : ℕ) (s s' : Heap) : Prop where
  emits : ∃ evs, Emits evs s s'
  budget : s.budget ≤ s'.budget + k * (2 ^ b + guardSize)
  numFree : ∀ j c, (j, c) ≠ (i, b) → (s'.bin j c).numFree = (s.bin j c).numFree

theorem Refills.step {i b k : ℕ} (hcut : s₁.budget + (2 ^ b + guardSize) = s.budget)
    (hfree : ∀ j c, (j, c) ≠ (i, b) → (s₁.bin j c).numFree = (s.bin j c).numFree)
    (he : Emits evs s s₁) (h : Refills i b k s₁ s') : Refills i b (k + 1) s s' where
  emits := h.emits.imp' _ fun _ h => he.trans h
  budget := by
    have := h.budget
    rw [Nat.succ_mul]
    omega
  numFree j c hne := (h.numFree j c hne).trans (hfree j c hne)

theorem replenishLoop_emits (hctx : ctx.env = env) (henv : env.Granting) {i b : ℕ} (fuel k : ℕ)
    (hk : 1 ≤ k) (hfuel : k ≤ fuel) (hnum : (s.bin i b).numFree + k < 2 ^ 64)
    (hhigh : (s.bin i b).highWater ≤ (s.bin i b).numFree + k)
    (hrem : k * (2 ^ b + guardSize) ≤ s.budget) :
    wp (replenishLoop ctx i b fuel) (fun _ s' => Refills i b k s s') (Unexcused s) s := by
  induction fuel generalizing s k with
  | zero => omega
  | succ fuel ih =>
      obtain ⟨k, rfl⟩ : ∃ j, k = j + 1 := ⟨k - 1, by omega⟩
      rw [Nat.succ_mul] at hrem
      unfold replenishLoop
      refine Emits.refl.bind (logs_poll hctx henv _) fun _ s₁ h₁ hs₁ => ?_
      have hfit : 2 ^ b + guardSize ≤ s₁.budget := by
        rw [hs₁.budget]
        exact (Nat.le_add_left _ _).trans hrem
      refine wp_bind (wp_mono (getFromPool_emits hctx henv hfit) ?_ fun _ _ hE => h₁.unexcused hE)
      rintro hdr s₂ ⟨⟨evs, he⟩, hrem₂, hfree₂⟩
      have h₂ := h₁.trans he
      rw [hs₁.budget] at hrem₂
      refine h₂.bind (logs_poll hctx henv _) fun _ s₃ h₃ hs₃ => ?_
      have hcut : s₃.budget + (2 ^ b + guardSize) = s.budget := hs₃.budget ▸ hrem₂
      refine wp_ite (fun _ => wp_pure ⟨⟨_, h₃⟩, ?_, fun j c _ => ?_⟩) fun _ => ?_
      · rw [Nat.succ_mul]
        omega
      · rw [hs₃.numFree, hfree₂, hs₁.numFree]
      refine h₃.bind (logs_poll hctx henv _) fun _ s₄ h₄ hs₄ => ?_
      refine h₄.bind logs_stField fun _ s₅ h₅ hs₅ => ?_
      refine h₅.bind (logs_poll hctx henv _) fun _ s₆ h₆ hs₆ => ?_
      refine h₆.bind logs_stField fun _ s₇ h₇ hs₇ => ?_
      refine h₇.bind (logs_poll hctx henv _) fun _ s₈ h₈ hs₈ => ?_
      refine h₈.bind logs_stField fun _ s₉ h₉ hs₉ => ?_
      refine h₉.bind (logs_emit (e := .labelled hdr i b) trivial) fun _ s₁₀ h₁₀ hs₁₀ => ?_
      refine h₁₀.bind (logs_poll hctx henv _) fun _ s₁₁ h₁₁ hs₁₁ => ?_
      refine h₁₁.bind (logs_insertElmHead hctx henv) fun _ s₁₂ h₁₂ hs₁₂ => ?_
      refine h₁₂.bind (logs_poll hctx henv _) fun _ s₁₃ h₁₃ hs₁₃ => ?_
      have hs : Still s₃ s₁₃ := ((((((((hs₄.trans hs₅).trans hs₆).trans hs₇).trans hs₈).trans
        hs₉).trans hs₁₀).trans hs₁₁).trans hs₁₂).trans hs₁₃
      have hfree : ∀ j c, (s₁₃.bin j c).numFree = (s.bin j c).numFree := fun j c => by
        rw [hs.numFree, hs₃.numFree, hfree₂, hs₁.numFree]
      rw [← hs.budget] at hcut
      obtain ⟨s₁₄, hs₁₄⟩ : ∃ s₁₄, s₁₄ = s₁₃.updBin i b fun B =>
        { B with numFree := (B.numFree + 1) % 2 ^ 64 } := ⟨_, rfl⟩
      have h₁₄ : Emits [] s₁₃ s₁₄ := hs₁₄ ▸ .updBin fun _ => ⟨rfl, rfl⟩
      have hnum₁₄ : (s₁₄.bin i b).numFree = ((s.bin i b).numFree + 1) % 2 ^ 64 := by
        rw [hs₁₄, bin_updBin, if_pos ⟨rfl, rfl⟩, hfree]
      have hfree₁₄ : ∀ j c, (j, c) ≠ (i, b) → (s₁₄.bin j c).numFree = (s.bin j c).numFree := by
        intro j c hne
        rw [hs₁₄, bin_updBin, if_neg (by simpa using hne), hfree]
      have hrem₁₄ : s₁₄.budget + (2 ^ b + guardSize) = s.budget := hs₁₄ ▸ hcut
      refine wp_bind (wp_modify ?_)
      rw [← hs₁₄]
      have he₁₄ := h₁₃.trans h₁₄
      have hwater := (he₁₄.water i b).2
      clear hs₁₄ h₁₄ hcut hfree
      refine he₁₄.bind (logs_poll hctx henv _) fun _ s₁₅ h₁₅ hs₁₅ => wp_bind (wp_get ?_)
      extract_lets bin
      have hbin : bin.numFree = (s.bin i b).numFree + 1 := by
        change (s₁₅.bin i b).numFree = _
        rw [hs₁₅.numFree, hnum₁₄, Nat.mod_eq_of_lt (by omega)]
      have hhigh₁₅ : bin.highWater = (s.bin i b).highWater := (h₁₅.water i b).2
      have hrem₁₅ : s₁₅.budget + (2 ^ b + guardSize) = s.budget := hs₁₅.budget ▸ hrem₁₄
      have hfree₁₅ : ∀ j c, (j, c) ≠ (i, b) → (s₁₅.bin j c).numFree = (s.bin j c).numFree :=
        fun j c hne => (hs₁₅.numFree j c).trans (hfree₁₄ j c hne)
      refine wp_ite (fun hlt => ?_) fun _ => ?_
      · have hk' : 1 ≤ k := by omega
        have hnum' : (s₁₅.bin i b).numFree + k < 2 ^ 64 := by
          rw [show (s₁₅.bin i b).numFree = _ from hbin, Nat.add_assoc, Nat.add_comm 1]
          exact hnum
        have hhigh' : (s₁₅.bin i b).highWater ≤ (s₁₅.bin i b).numFree + k := by
          rw [show (s₁₅.bin i b).numFree = _ from hbin, Nat.add_assoc, Nat.add_comm 1]
          exact hhigh₁₅.trans_le hhigh
        have hrem' : k * (2 ^ b + guardSize) ≤ s₁₅.budget := by
          refine Nat.le_of_add_le_add_right (b := 2 ^ b + guardSize) ?_
          rw [hrem₁₅]
          exact hrem
        have hloop := ih k hk' (Nat.le_of_succ_le_succ hfuel) hnum' hhigh' hrem'
        exact wp_mono hloop (fun _ _ h => .step hrem₁₅ hfree₁₅ h₁₅ h) fun _ _ hE => h₁₅.unexcused hE
      · refine h₁₅.bind (logs_poll hctx henv _) fun _ s₁₆ h₁₆ hs₁₆ => wp_pure ⟨⟨_, h₁₆⟩, ?_, ?_⟩
        · rw [hs₁₆.budget, Nat.succ_mul]
          omega
        · exact fun j c hne => (hs₁₆.numFree j c).trans (hfree₁₅ j c hne)

def Heap.Marked (s : Heap) : Prop := ∀ i b, (s.bin i b).highWater ≤ 200

theorem replenishBin_emits (hctx : ctx.env = env) (henv : env.Granting) {i b : ℕ}
    (hnum : (s.bin i b).numFree < 2 ^ 63) (hmarked : s.Marked)
    (hrem : pageSize ≤ 2 ^ b → 200 * (2 ^ b + guardSize) ≤ s.budget) :
    wp (replenishBin ctx i b)
      (fun _ s' => if 2 ^ b < pageSize then (∃ evs, Emits evs s s') ∧ Still s s'
        else Refills i b 200 s s')
      (Unexcused s) s := by
  unfold replenishBin
  refine Emits.refl.bind (logs_poll hctx henv _) fun _ s₁ h₁ hs₁ => ?_
  refine h₁.bind logs_verifyLocked fun _ s₂ h₂ hs₂ => ?_
  refine h₂.bind logs_grAssert fun _ s₃ h₃ hs₃ => ?_
  have hs : Still s s₃ := (hs₁.trans hs₂).trans hs₃
  clear hs₁ hs₂ hs₃ h₁ h₂
  refine wp_ite (fun _ => wp_throw (h₃.unexcused .refl)) fun _ => ?_
  by_cases hsmall : 2 ^ b < pageSize
  · rw [if_pos hsmall]
    exact wp_pure (by rw [if_pos hsmall]; exact ⟨⟨_, h₃⟩, hs⟩)
  rw [if_neg hsmall]
  simp only [if_neg hsmall]
  refine h₃.bind (logs_poll hctx henv _) fun _ s₄ h₄ hs₄ => wp_bind (wp_get ?_)
  have hs₀₄ := hs.trans hs₄
  refine wp_ite (fun _ => ?_) fun _ => ?_
  · have hwater := (h₄.water i b).2
    have hfree := hs₀₄.numFree i b
    have hloop := replenishLoop_emits hctx henv (i := i) (b := b) (s := s₄) (2 ^ 64) 200 (by decide)
      (Nat.le_of_ble_eq_true rfl) (by omega) (by have := hmarked i b; omega)
      (by rw [hs₀₄.budget]; exact hrem (not_lt.1 hsmall))
    refine wp_mono hloop (fun _ s' h => ⟨h.emits.imp' _ fun _ h => h₄.trans h, ?_, ?_⟩)
      fun _ _ hE => h₄.unexcused hE
    · rw [← hs₀₄.budget]
      exact h.budget
    · exact fun j c hne => (h.numFree j c hne).trans (hs₀₄.numFree j c)
  · refine h₄.bind (logs_poll hctx henv _) fun _ s₅ h₅ hs₅ => wp_pure ⟨⟨_, h₅⟩, ?_, ?_⟩
    · rw [(hs₀₄.trans hs₅).budget]
      exact Nat.le_add_right _ _
    · exact fun j c _ => (hs₀₄.trans hs₅).numFree j c

/-- A bin that has a free block and no low-water mark is left alone. -/
theorem replenishBin_skips (hctx : ctx.env = env) (henv : env.Granting) {i b : ℕ}
    (hhead : (s.bin i b).headFree ≠ 0) (hlow : (s.bin i b).lowWater = 0) :
    wp (replenishBin ctx i b) (fun ret s' => ret = 0 ∧ s' = s) (Unexcused s) s := by
  have hpoll : ∀ {line s}, ctx.env.sigusr2 line s ≠ true := henv.quiet hctx
  unfold replenishBin
  refine wp_bind (wp_poll ?_ fun h => absurd h hpoll)
  refine wp_bind (wp_verifyLocked (wp_bind (wp_grAssert (fun _ => ?_) fun _ => .refl)))
  refine wp_ite (fun _ => wp_throw .refl) fun _ => ?_
  refine wp_ite (fun _ => wp_pure ⟨rfl, rfl⟩) fun _ => ?_
  refine wp_bind (wp_poll ?_ fun h => absurd h hpoll)
  refine wp_bind (wp_get (wp_ite (fun h => ?_) fun _ => ?_))
  · rcases h with h | h
    · exact absurd h hhead
    · rw [hlow] at h
      exact absurd h (Nat.not_lt_zero _)
  · exact wp_bind (wp_poll (wp_pure ⟨rfl, rfl⟩) fun h => absurd h hpoll)

/-- The next block of the bin is at its head. -/
structure Heap.Reuses (s : Heap) (i b : ℕ) : Prop where
  headFree : (s.bin i b).headFree ≠ 0
  lowWater : (s.bin i b).lowWater = 0

/-- What a step may take from the current pool for a block of class `b`. -/
structure Paid (b : ℕ) (s s' : Heap) : Prop where
  refill : s.budget ≤ s'.budget + refillSize b
  reuse : s.Reuses 0 b → s.budget ≤ s'.budget

theorem Paid.congr {b : ℕ} (h : Paid b s s₁) (hr : s₁.budget = s'.budget) : Paid b s s' :=
  ⟨hr ▸ h.refill, hr ▸ h.reuse⟩

/-- A refill costs what its high-water mark says, and nothing when there is a block. -/
theorem replenishBin_costs (hctx : ctx.env = env) (henv : env.Granting) {i b : ℕ}
    (hnum : (s.bin i b).numFree < 2 ^ 63) (hmarked : s.Marked)
    (hrem : s.Reuses i b ∨ refillSize b ≤ s.budget) :
    wp (replenishBin ctx i b)
      (fun ret s' => (∃ evs, Emits evs s s') ∧ s.budget ≤ s'.budget + refillSize b ∧
        (s.Reuses i b → ret = 0 ∧ s' = s))
      (Unexcused s) s := by
  by_cases hr : s.Reuses i b
  · refine wp_mono (replenishBin_skips hctx henv hr.headFree hr.lowWater) ?_ fun _ _ hE => hE
    rintro ret s' ⟨hret, rfl⟩
    exact ⟨⟨[], .refl⟩, Nat.le_add_right _ _, fun _ => ⟨hret, rfl⟩⟩
  · have hroom : refillSize b ≤ s.budget := hrem.resolve_left hr
    refine wp_mono (replenishBin_emits hctx henv hnum hmarked fun _ => hroom) ?_ fun _ _ hE => hE
    intro ret s' h
    split at h
    · exact ⟨h.1, by rw [h.2.budget]; exact Nat.le_add_right _ _, fun h => absurd h hr⟩
    · exact ⟨h.emits, h.budget, fun h => absurd h hr⟩

/-! ## Taking a block -/

theorem takeBlock_emits (hctx : ctx.env = env) (henv : env.Granting) {i b : ℕ} :
    wp (takeBlock ctx i b)
      (fun hdr s' => hdr = s.head ⟨.free, i, b⟩ ∧ s'.memPools = s.memPools ∧
        Emits [.linked ⟨.inUse, i, b⟩ hdr, .unlinked ⟨.free, i, b⟩ hdr] s s')
      (Unexcused s) s := by
  have hpoll : ∀ {line s}, ctx.env.sigusr2 line s ≠ true := henv.quiet hctx
  unfold takeBlock
  refine wp_bind (wp_poll ?_ fun h => absurd h hpoll)
  refine wp_bind (wp_bind (wp_get (wp_pure ?_)))
  obtain ⟨hdr, hhdr⟩ : ∃ hdr, hdr = s.head ⟨.free, i, b⟩ := ⟨_, rfl⟩
  rw [← hhdr]
  refine Emits.refl.bind (logs_poll hctx henv _) fun _ s₁ h₁ hs₁ => ?_
  refine h₁.bind (logs_rmElm hctx henv) fun _ s₂ h₂ hs₂ => ?_
  refine h₂.bind (logs_poll hctx henv _) fun _ s₃ h₃ hs₃ => ?_
  refine h₃.bind (logs_insertElmHead hctx henv) fun _ s₄ h₄ hs₄ => ?_
  refine h₄.bind (logs_poll hctx henv _) fun _ s₅ h₅ hs₅ => ?_
  refine wp_bind (wp_modify (wp_pure ⟨rfl, ?_, ?_⟩))
  · exact ((((hs₁.trans hs₂).trans hs₃).trans hs₄).trans hs₅).memPools
  · have h₆ : Emits [] s₅ (s₅.updBin i b fun b => { b with numFree := sub64 b.numFree 1 }) :=
      .updBin fun _ => ⟨rfl, rfl⟩
    exact h₅.trans h₆

theorem logs_countAlloc (hctx : ctx.env = env) (henv : env.Granting) {i b k : ℕ} {q : Request} :
    Logs [.counted i q] (countAlloc ctx i b k q) := by
  have hpoll := logs_poll hctx henv
  unfold countAlloc
  refine (hpoll _).seq fun _ => Logs.seq (logs_modify fun s => ⟨?_, ?_⟩) fun _ => ?_
  · exact .updBin fun _ => ⟨rfl, rfl⟩
  · exact .updBin fun _ => rfl
  refine (hpoll _).seq fun _ => logs_grAssert.seq fun _ => (hpoll _).seq fun _ => ?_
  refine Logs.seq ?_ fun _ => (hpoll _).seq fun _ => Logs.seq (logs_modify fun s => ⟨?_, ?_⟩) fun _ => ?_
  · exact logs_other (fun _ => rfl) (fun _ => rfl) (fun _ => rfl) (fun _ => rfl) fun _ => rfl
  · exact .updSlot (fun S h => ⟨h.last, h.hwm, Nat.mod_lt _ (by norm_num)⟩) fun _ _ => ⟨rfl, rfl⟩
  · exact .updSlot fun _ _ => rfl
  refine (logs_emit (e := .counted i q) trivial).then fun _ => (hpoll _).seq fun _ => ?_
  refine logs_modify fun s => ⟨?_, ?_⟩
  · exact .updSlot (fun S h => ⟨h.last, max_lt h.hwm (Nat.mod_lt _ (by norm_num)), h.requested⟩)
      fun _ _ => ⟨rfl, rfl⟩
  · exact .updSlot fun _ _ => rfl

theorem Env.Undisturbed.within (henv : env.Undisturbed) (hlow : s.Low) (hargs : s.grArgs = env.args)
    (i : ℕ) : s.Within i := by
  have hS := hlow i
  have hhwm := hS.hwm
  have hreq := hS.requested
  unfold Heap.Within
  rw [hS.last, hargs, henv.interval, henv.limit]
  omega

/-- The block that is claimed takes slot 0 to no limit. -/
def Unlimited (ctx : Ctx) (bt : List ℕ) (b usrSize : ℕ) (s : Heap) : Prop :=
  wp (claimBuf ctx bt b usrSize) (fun r s' => r.2 ≠ none → s'.Within 0) (fun _ _ => True) s

theorem emits_lockHeap : Emits [.acquired l] s (s.lockHeap l) := by
  obtain ⟨h, -⟩ := emits_setMutex (s := s) (l := l) (m := (s.mutex l).lock)
  exact ⟨rfl, by simp [Event.Plain], h.grArgs, h.isInit, h.low, h.water⟩

theorem pickSlot_emits (henv : env.Granting) (hargs : s.grArgs = env.args) :
    wp (pickSlot ctx n) (fun i s' => i = 0 ∧ ∃ t, s' = { s with clock := t }) (Unexcused s) s := by
  unfold pickSlot
  refine wp_ite (fun _ => wp_bind (wp_tick ?_)) fun _ => wp_pure ⟨rfl, s.clock, rfl⟩
  refine wp_bind (wp_get ?_)
  extract_lets numSlots
  have hone : numSlots = 1 := by
    rw [← henv.numSlots, ← hargs]
  rw [hone]
  exact wp_ite nofun fun _ => wp_pure ⟨Nat.mod_one _, _, rfl⟩

def bufEvents (bt : List ℕ) (usrSize b hdr : ℕ) : List Event :=
  [.released (.slot 0), .counted 0 ⟨hdr, usrSize, bt⟩, .linked ⟨.inUse, 0, b⟩ hdr,
    .unlinked ⟨.free, 0, b⟩ hdr]

def claimEvents (bt : List ℕ) (usrSize b hdr : ℕ) : List Event :=
  [.counted 0 ⟨hdr, usrSize, bt⟩, .linked ⟨.inUse, 0, b⟩ hdr, .unlinked ⟨.free, 0, b⟩ hdr]

theorem claimBuf_emits (hctx : ctx.env = env) (henv : env.Granting) {bt : List ℕ} {usrSize b : ℕ}
    (hnum : (s.bin 0 b).numFree < 2 ^ 63) (hmarked : s.Marked) (hargs : s.grArgs = env.args)
    (hrem : s.Reuses 0 b ∨ refillSize b ≤ s.budget) :
    wp (claimBuf ctx bt b usrSize)
      (fun r s' => r.1 = 0 ∧ Paid b s s' ∧ match r.2 with
        | none => ¬ s.Reuses 0 b ∧ ∃ evs, Emits evs s s'
        | some hdr => ∃ evs, Emits (claimEvents bt usrSize b hdr ++ evs) s s' ∧
            (s.Reuses 0 b → hdr = s.head ⟨.free, 0, b⟩ ∧ evs = [.acquired (.slot 0)]))
      (Unexcused s) s := by
  have hpoll : ∀ {line s}, ctx.env.sigusr2 line s ≠ true := henv.quiet hctx
  unfold claimBuf
  refine wp_bind (wp_poll ?_ fun h => absurd h hpoll)
  refine wp_bind_of (pickSlot_emits henv hargs) ?_
  rintro i s₁ ⟨rfl, t, rfl⟩
  refine wp_bind (wp_poll ?_ fun h => absurd h hpoll)
  refine wp_bind (wp_pthreadMutexLock (fun _ => ?_) fun _ _ => .of_log rfl)
  have h₁ : Emits [] s { s with clock := t } := ⟨rfl, by simp, rfl, rfl, id, fun _ _ => ⟨rfl, rfl⟩⟩
  have h₂ := h₁.trans (emits_lockHeap (l := .slot 0))
  obtain ⟨s₂, hs₂⟩ : ∃ s₂, s₂ = ({ s with clock := t } : Heap).lockHeap (.slot 0) := ⟨_, rfl⟩
  have hbin : ∀ c, s₂.bin 0 c = s.bin 0 c := fun c => by
    rw [hs₂]
    rfl
  have hrem₂ : s₂.budget = s.budget := budget_congr (by rw [hs₂]; rfl)
  have hhead₂ : s₂.head ⟨.free, 0, b⟩ = s.head ⟨.free, 0, b⟩ := by
    rw [hs₂]
    rfl
  rw [← hs₂] at h₂ ⊢
  clear hs₂ h₁
  have hreuse : s₂.Reuses 0 b ↔ s.Reuses 0 b := by
    constructor
    · exact fun h => ⟨hbin _ ▸ h.headFree, hbin _ ▸ h.lowWater⟩
    · exact fun h => ⟨(hbin _).symm ▸ h.headFree, (hbin _).symm ▸ h.lowWater⟩
  have hmarked₂ : s₂.Marked := fun i c => by
    rw [(h₂.water i c).2]
    exact hmarked i c
  refine wp_bind (wp_poll ?_ fun h => absurd h hpoll)
  refine wp_bind (wp_mono (replenishBin_costs hctx henv (by rw [hbin]; exact hnum) hmarked₂
    (by rw [hreuse, hrem₂]; exact hrem)) ?_ fun _ _ hE => h₂.unexcused hE)
  rintro ret s₃ ⟨⟨evs, he⟩, hrem₃, hr₃⟩
  rw [hreuse] at hr₃
  rw [hrem₂] at hrem₃
  have hpaid : Paid b s s₃ := ⟨hrem₃, fun hr => (hr₃ hr).2 ▸ hrem₂.ge⟩
  have h₃ := h₂.trans he
  refine wp_bind (wp_poll (wp_ite (fun hret => wp_pure ?_) fun _ => ?_) fun h => absurd h hpoll)
  · exact ⟨rfl, hpaid, fun hr => hret (hr₃ hr).1, _, h₃⟩
  · refine wp_bind (wp_mono (takeBlock_emits hctx henv) ?_ fun _ _ hE => h₃.unexcused hE)
    rintro hdr s₄ ⟨hhead, hpools₄, he₄⟩
    have h₄ := h₃.trans he₄
    refine h₄.bind (logs_countAlloc hctx henv) fun _ s₅ h₅ hs₅ => wp_pure ⟨rfl, ?_, _, h₅, fun hr => ?_⟩
    · exact (hpaid.congr (budget_congr hpools₄).symm).congr hs₅.budget.symm
    · obtain ⟨-, rfl⟩ := hr₃ hr
      rw [he.eq_nil]
      exact ⟨hhead.trans hhead₂, rfl⟩

/-- A block is handed out without a dump. -/
theorem handOut_emits (hctx : ctx.env = env) (henv : env.Granting) {i b hdr : ℕ} (hin : s.Within i) :
    wp (handOut ctx b (i, some hdr))
      (fun p s' => p = (hdr, hdr + 2 ^ b) ∧ Emits [.released (.slot i)] s s' ∧ Still s s')
      (Unexcused s) s := by
  refine wp_bind_of (limitDumps_within hctx (henv.calm.calmFrom 0) (Nat.zero_le _) hin) ?_
  rintro _ s₁ rfl
  refine Emits.refl.bind (logs_poll hctx henv _) fun _ s₂ h₂ hs₂ => ?_
  refine h₂.bind logs_pthreadMutexUnlock fun _ s₃ h₃ hs₃ => ?_
  refine h₃.bind (logs_poll hctx henv _) fun _ s₄ h₄ hs₄ => h₄.bind logs_ldField fun _ s₅ h₅ hs₅ => ?_
  refine h₅.bind logs_grAssert fun _ s₆ h₆ hs₆ => ?_
  refine h₆.bind (logs_poll hctx henv _) fun _ s₇ h₇ hs₇ => wp_pure ⟨rfl, h₇, ?_⟩
  exact ((((hs₂.trans hs₃).trans hs₄).trans hs₅).trans hs₆).trans hs₇

theorem getBuf_emits (hctx : ctx.env = env) (henv : env.Granting) {bt : List ℕ}
    {allocSize usrSize b : ℕ} (hb : b = log2fast (max pageSize allocSize))
    (hnum : (s.bin 0 b).numFree < 2 ^ 63) (hmarked : s.Marked)
    (hin : Unlimited ctx bt b usrSize s)
    (hargs : s.grArgs = env.args) (hrem : s.Reuses 0 b ∨ refillSize b ≤ s.budget) :
    wp (getBuf ctx bt allocSize usrSize)
      (fun ret s' => Paid b s s' ∧
        ((ret.1 = 0 ∧ ¬ s.Reuses 0 b ∧ ∃ evs, Emits evs s s') ∨
          ret.2 = ret.1 + 2 ^ b ∧ ∃ evs, Emits (bufEvents bt usrSize b ret.1 ++ evs) s s' ∧
            (s.Reuses 0 b → ret.1 = s.head ⟨.free, 0, b⟩ ∧ evs = [.acquired (.slot 0)])))
      (Unexcused s) s := by
  rw [getBuf_eq, ← hb]
  refine wp_bind (wp_mono (wp_and (claimBuf_emits hctx henv hnum hmarked hargs hrem) hin) ?_
    fun _ _ hE => hE.1)
  rintro ⟨i, r⟩ s₁ ⟨⟨h0, hpaid, h₁⟩, hin₁⟩
  obtain rfl : i = 0 := h0
  cases r with
  | none =>
      obtain ⟨hn, evs, h₁⟩ := h₁
      refine h₁.bind logs_pthreadMutexUnlock fun _ s₂ h₂ hs₂ => ?_
      refine h₂.bind (logs_poll hctx henv _) fun _ s₃ h₃ hs₃ => wp_pure ⟨?_, .inl ⟨rfl, hn, _, h₃⟩⟩
      exact hpaid.congr (hs₂.trans hs₃).budget.symm
  | some hdr =>
      obtain ⟨evs, h₁, hr⟩ := h₁
      refine wp_mono (handOut_emits hctx henv (hin₁ nofun)) ?_ fun _ _ hE => h₁.unexcused hE
      rintro _ s₂ ⟨rfl, h₂, hs₂⟩
      exact ⟨hpaid.congr hs₂.budget.symm, .inr ⟨rfl, evs, h₁.trans h₂, hr⟩⟩

/-- Without limits a block is handed out without a dump. -/
theorem Env.Undisturbed.claims (henv : env.Undisturbed) (hctx : ctx.env = env) {bt : List ℕ}
    {usrSize b : ℕ} (hnum : (s.bin 0 b).numFree < 2 ^ 63) (hmarked : s.Marked) (hlow : s.Low)
    (hargs : s.grArgs = env.args) (hrem : s.Reuses 0 b ∨ refillSize b ≤ s.budget) :
    Unlimited ctx bt b usrSize s := by
  refine wp_mono (claimBuf_emits hctx henv.toGranting hnum hmarked hargs hrem) ?_ fun _ _ _ => trivial
  rintro ⟨i, r⟩ s₁ ⟨-, -, h₁⟩
  obtain ⟨evs, he⟩ : ∃ evs, Emits evs s s₁ := by
    cases r with
    | none => exact h₁.2
    | some hdr => exact ⟨_, h₁.choose_spec.1⟩
  exact fun _ => henv.within (he.low hlow) (he.grArgs.trans hargs) 0

/-! ## Allocation -/

theorem logs_putTrace {bt : List ℕ} {site : Site} : Logs [] (putTrace bt site a n) :=
  logs_memset.seq fun _ => Logs.seq (logs_storeWords.seq fun _ => logs_pure) fun _ => logs_grAssert

/-- The allocation that a block ending at `endBuf` is laid out for. -/
def allocAt (hdr endBuf alignment usrSize : ℕ) (bt : List ℕ) : Alloc :=
  let misalignment := if alignment > 1 then (endBuf - usrSize) % alignment else 0
  ⟨hdr, endBuf - usrSize - misalignment, usrSize, misalignment, bt⟩

theorem fillBlock_emits {bt : List ℕ} {alignment usrSize buf endBuf : ℕ} :
    wp (fillBlock bt alignment usrSize buf endBuf)
      (fun p s' => p = (allocAt buf endBuf alignment usrSize bt).ptr ∧
        Emits [.filled (allocAt buf endBuf alignment usrSize bt)] s s' ∧ Still s s')
      (Unexcused s) s := by
  unfold fillBlock
  refine wp_bind (wp_get ?_)
  extract_lets args misalignment usrData rest₄ rest₃ rest₂
  let Q : ℕ → Heap → Prop := fun p s' => p = usrData ∧
    Emits [.filled ⟨buf, usrData, usrSize, misalignment, bt⟩] s s' ∧ Still s s'
  have hrest₄ : ∀ u s₁, Emits [.filled ⟨buf, usrData, usrSize, misalignment, bt⟩] s s₁ →
      Still s s₁ → wp (rest₄ u) Q (Unexcused s) s₁ := fun _ _ h hs => wp_pure ⟨rfl, h, hs⟩
  have hrest₃ : ∀ u s₁, Emits [] s s₁ → Still s s₁ → wp (rest₃ u) Q (Unexcused s) s₁ := by
    intro _ s₁ h₁ hs₁
    refine h₁.bind logs_store64 fun _ s₂ h₂ hs₂ => h₂.bind logs_stField fun _ s₃ h₃ hs₃ => ?_
    refine h₃.bind logs_stField fun _ s₄ h₄ hs₄ => ?_
    refine h₄.bind (logs_emit (e := .filled ⟨buf, usrData, usrSize, misalignment, bt⟩) trivial)
      fun _ s₅ h₅ hs₅ => ?_
    have hs := (((hs₁.trans hs₂).trans hs₃).trans hs₄).trans hs₅
    refine wp_ite (fun _ => ?_) fun _ => hrest₄ () _ h₅ hs
    exact h₅.bind logs_memset fun _ s₆ h₆ hs₆ => hrest₄ () _ h₆ (hs.trans hs₆)
  have hrest₂ : ∀ u s₁, Emits [] s s₁ → Still s s₁ → wp (rest₂ u) Q (Unexcused s) s₁ := by
    intro _ s₁ h₁ hs₁
    refine h₁.bind logs_ldField fun _ s₂ h₂ hs₂ => h₂.bind logs_grAssert fun _ s₃ h₃ hs₃ => ?_
    refine h₃.bind logs_stField fun _ s₄ h₄ hs₄ => h₄.bind logs_stField fun _ s₅ h₅ hs₅ => ?_
    refine h₅.bind logs_grAssert fun _ s₆ h₆ hs₆ => h₆.bind logs_grAssert fun _ s₇ h₇ hs₇ => ?_
    have hs := (((((hs₁.trans hs₂).trans hs₃).trans hs₄).trans hs₅).trans hs₆).trans hs₇
    refine wp_ite (fun _ => ?_) fun _ => hrest₃ () _ h₇ hs
    refine h₇.bind logs_grAssert fun _ s₈ h₈ hs₈ => h₈.bind logs_memset fun _ s₉ h₉ hs₉ => ?_
    exact hrest₃ () _ h₉ ((hs.trans hs₈).trans hs₉)
  refine wp_ite (fun _ => ?_) fun _ => hrest₂ () _ .refl .refl
  exact Emits.refl.bind logs_putTrace fun _ s₁ h₁ hs₁ => hrest₂ () _ h₁ hs₁

/-- The allocations of a well-behaved process succeed while the current pool lasts. -/
theorem memalignInt_emits (hctx : ctx.env = env) (henv : env.Granting) {bt : List ℕ}
    {alignment usrSize b : ℕ} (hb : b = classOf env.args alignment usrSize)
    (hinit : s.isInit = true) (hnum : (s.bin 0 b).numFree < 2 ^ 63) (hmarked : s.Marked)
    (hin : Unlimited ctx bt b usrSize s)
    (hargs : s.grArgs = env.args)
    (hrem : s.Reuses 0 b ∨ refillSize b ≤ s.budget) :
    wp (memalignInt ctx bt alignment usrSize)
      (fun p s' => Paid b s s' ∧ (∃ evs, Emits evs s s') ∧
        (s.Reuses 0 b → ∃ hdr, hdr = s.head ⟨.free, 0, b⟩ ∧
          p = (allocAt hdr (hdr + 2 ^ b) alignment usrSize bt).ptr ∧
          Emits (.filled (allocAt hdr (hdr + 2 ^ b) alignment usrSize bt) ::
            bufEvents bt usrSize b hdr ++ [.acquired (.slot 0)]) s s'))
      (Unexcused s) s := by
  unfold memalignInt
  refine wp_bind (wp_get ?_)
  extract_lets allocSize rest
  refine wp_bind (wp_get (wp_ite (fun h => absurd (hinit.symm.trans h) nofun) fun _ => ?_))
  have hb' : b = log2fast (max pageSize allocSize) := by
    rw [hb, classOf, ← hargs]
  refine wp_bind_of (getBuf_emits hctx henv hb' hnum hmarked hin hargs hrem) ?_
  rintro ⟨buf, endBuf⟩ s₁ ⟨hpaid, h₁⟩
  have hsome : ∃ evs, Emits evs s s₁ := by
    rcases h₁ with ⟨-, -, h⟩ | ⟨-, evs, h, -⟩
    · exact h
    · exact ⟨_, h⟩
  have hreuse : s.Reuses 0 b → buf = s.head ⟨.free, 0, b⟩ ∧ endBuf = buf + 2 ^ b ∧
      Emits (bufEvents bt usrSize b buf ++ [.acquired (.slot 0)]) s s₁ := by
    intro hr
    rcases h₁ with ⟨-, hn, -⟩ | ⟨hend, evs, h, hx⟩
    · exact absurd hr hn
    · obtain ⟨hbuf, rfl⟩ := hx hr
      exact ⟨hbuf, hend, h⟩
  obtain ⟨evs, he⟩ := hsome
  have hnone : buf = 0 → ¬ s.Reuses 0 b := fun h0 hr => hr.headFree ((hreuse hr).1.symm.trans h0)
  refine wp_ite (fun h0 => ?_) fun _ => ?_
  · refine wp_bind (wp_get (wp_ite (fun _ => wp_throw (he.unexcused .refl)) fun _ => wp_pure ?_))
    exact ⟨hpaid, ⟨_, he⟩, fun hr => absurd hr (hnone h0)⟩
  · refine wp_mono fillBlock_emits ?_ fun _ _ hE => he.unexcused hE
    rintro p s₂ ⟨hp, hf, hs⟩
    refine ⟨hpaid.congr hs.budget.symm, ⟨_, he.trans hf⟩, fun hr => ?_⟩
    obtain ⟨hbuf, rfl, h⟩ := hreuse hr
    exact ⟨buf, hbuf, hp, h.trans hf⟩

/-! ## Release -/

theorem logs_checkSlop : Logs [] (checkSlop h) := by
  unfold checkSlop
  refine logs_ldField.seq fun misalignment => logs_ite (fun _ => ?_) fun _ => logs_pure
  exact logs_ldField.seq fun _ => logs_ldField.seq fun _ => logs_get fun _ =>
    logs_memcmp.seq fun _ => logs_grAssert

theorem logs_countFree (hctx : ctx.env = env) (henv : env.Granting) {i : ℕ} :
    Logs [.uncounted i h] (countFree ctx i h) := by
  have hpoll := logs_poll hctx henv
  unfold countFree
  refine (hpoll _).seq fun _ => logs_ldField.seq fun size => (hpoll _).seq fun _ => ?_
  refine logs_grAssert.seq fun _ => (hpoll _).seq fun _ => Logs.seq ?_ fun _ => ?_
  · exact logs_other (fun _ => rfl) (fun _ => rfl) (fun _ => rfl) (fun _ => rfl) fun _ => rfl
  refine (hpoll _).seq fun _ => logs_ldField.seq fun size => ?_
  refine Logs.seq (logs_modify fun s => ⟨?_, ?_⟩) fun _ => logs_emit (e := .uncounted i h) trivial
  · exact .updSlot (fun S h => ⟨h.last, h.hwm, h.requested⟩) fun _ _ => ⟨rfl, rfl⟩
  · exact .updSlot fun _ _ => rfl

def freeEvents (i b hdr : ℕ) : List Event :=
  [.released (.slot i), .linked ⟨.free, i, b⟩ hdr, .unlinked ⟨.inUse, i, b⟩ hdr, .uncounted i hdr,
    .acquired (.slot i), .freeing hdr]

/-- Without the ring a release costs no pool memory. -/
theorem dropBlock_emits (hctx : ctx.env = env) (henv : env.Granting) {i b : ℕ}
    (hdelay : s.grArgs.useDelay = false) :
    wp (dropBlock ctx i b h) (fun _ s' => s'.memPools = s.memPools ∧
        Emits [.linked ⟨.free, i, b⟩ h, .unlinked ⟨.inUse, i, b⟩ h] s s')
      (Unexcused s) s := by
  unfold dropBlock
  refine Emits.refl.bind (logs_poll hctx henv _) fun _ s₁ h₁ hs₁ => ?_
  refine h₁.bind (logs_rmElm hctx henv) fun _ s₂ h₂ hs₂ => ?_
  refine h₂.bind (logs_poll hctx henv _) fun _ s₃ h₃ hs₃ => ?_
  refine wp_bind (wp_get ?_)
  extract_lets rest
  refine wp_ite (fun hd => ?_) fun _ => ?_
  · rw [h₃.grArgs, hdelay] at hd
    exact absurd hd nofun
  refine h₃.bind (logs_poll hctx henv _) fun _ s₄ h₄ hs₄ => ?_
  refine h₄.bind (logs_insertElmHead hctx henv) fun _ s₅ h₅ hs₅ => ?_
  refine h₅.bind (logs_poll hctx henv _) fun _ s₆ h₆ hs₆ => wp_bind (wp_modify ?_)
  have h₇ : Emits [] s₆ (s₆.updBin i b fun b => { b with numFree := (b.numFree + 1) % 2 ^ 64 }) :=
    .updBin fun _ => ⟨rfl, rfl⟩
  have hpools := (((((hs₁.trans hs₂).trans hs₃).trans hs₄).trans hs₅).trans hs₆).memPools
  refine (h₆.trans h₇).bind (logs_poll hctx henv _) fun _ s₈ h₈ hs₈ => wp_modify ⟨?_, ?_⟩
  · exact hs₈.memPools.trans hpools
  · have h₉ : Emits [] s₈ (s₈.updBin i b fun b => { b with frees := (b.frees + 1) % 2 ^ 64 }) :=
      .updBin fun _ => ⟨rfl, rfl⟩
    exact h₈.trans h₉

def Plainly (m : M α) : Prop :=
  ∀ s, wp m (fun _ s' => s'.memPools = s.memPools ∧ ∃ evs, Emits evs s s') (Unexcused s) s

theorem Logs.plainly (hm : Logs evs m) : Plainly m :=
  fun s => wp_mono (hm s) (fun _ _ h => ⟨h.2.memPools, _, h.1⟩) fun _ _ h => h

theorem Plainly.bind (hm : Plainly m) (hf : ∀ a, Plainly (f a)) : Plainly (m >>= f) := by
  intro s
  refine wp_bind (wp_mono (hm s) ?_ fun _ _ hE => hE)
  rintro a s₁ ⟨hpools, evs, h₁⟩
  refine wp_mono (hf a s₁) ?_ fun _ _ hE => h₁.unexcused hE
  rintro _ s₂ ⟨hpools₂, evs₂, h₂⟩
  exact ⟨hpools₂.trans hpools, _, h₁.trans h₂⟩

theorem plainly_ite {c : Prop} [Decidable c] {m' : M α} (hm : Plainly m) (hm' : Plainly m') :
    Plainly (if c then m else m') :=
  fun s => wp_ite (fun _ => hm s) fun _ => hm' s

theorem plainly_get {f : Heap → M β} (hf : ∀ s, Plainly (f s)) : Plainly (get >>= f) :=
  fun s => wp_bind (wp_get (hf s s))

theorem plainly_updBin {i b : ℕ} {f : MemBin → MemBin}
    (hf : ∀ B : MemBin, (f B).lowWater = B.lowWater ∧ (f B).highWater = B.highWater) :
    Plainly (modify fun s => s.updBin i b f) :=
  fun _ => wp_modify ⟨rfl, [], .updBin hf⟩

theorem logs_updDelay {i : ℕ} {f : MemFreeDelay → MemFreeDelay} :
    Logs [] (modify fun s => s.updDelay i f) :=
  logs_modify fun _ => ⟨.updSlot (fun _ h => ⟨h.last, h.hwm, h.requested⟩) fun _ _ => ⟨rfl, rfl⟩,
    .updSlot fun _ _ => rfl⟩

theorem logs_circCount {i : ℕ} : Logs [] (circCount i) :=
  logs_get fun _ => logs_ite (fun _ => logs_pure) fun _ => logs_grAssert.seq fun _ => logs_pure

theorem logs_circPut {i : ℕ} : Logs [.delayed i h] (circPut i h) :=
  logs_get fun _ => logs_grAssert.seq fun _ => logs_updDelay.seq fun _ => logs_ldField.seq fun _ =>
    logs_updDelay.seq fun _ => logs_emit (e := .delayed i h) trivial

theorem plainly_circGet (hctx : ctx.env = env) (henv : env.Granting) {i : ℕ} :
    Plainly (circGet ctx i) := by
  subst hctx
  refine plainly_get fun _ => logs_grAssert.plainly.bind fun _ => logs_updDelay.plainly.bind fun _ => ?_
  refine logs_grAssert.plainly.bind fun _ => logs_updDelay.plainly.bind fun _ => ?_
  refine (logs_mprotect henv).plainly.bind fun _ => logs_grAssert.plainly.bind fun _ => ?_
  refine logs_ldField.plainly.bind fun _ => logs_updDelay.plainly.bind fun _ => ?_
  exact (logs_emit (e := .drained _ _) trivial).plainly.bind fun _ => logs_pure.plainly

theorem plainly_delayFreeLoop (hctx : ctx.env = env) (henv : env.Granting) {i : ℕ} (fuel : ℕ) :
    Plainly (delayFreeLoop ctx i fuel) := by
  induction fuel with
  | zero => exact (logs_throw : Logs [] _).plainly
  | succ fuel ih =>
      refine logs_circCount.plainly.bind fun _ => plainly_ite (Plainly.bind ?_ fun _ => ih) logs_pure.plainly
      refine (plainly_circGet hctx henv).bind fun hdr => logs_ldField.plainly.bind fun b => ?_
      refine plainly_ite (logs_throw : Logs [] _).plainly ?_
      extract_lets rest
      have hrest : ∀ u, Plainly (rest u) := fun _ =>
        (logs_insertElmHead hctx henv).plainly.bind fun _ => plainly_updBin fun _ => ⟨rfl, rfl⟩
      refine plainly_ite ?_ (hrest ())
      exact (hctx ▸ logs_mprotect henv).plainly.bind fun _ => logs_grAssert.plainly.bind hrest

/-- With the ring it costs none either. -/
theorem plainly_dropBlock (hctx : ctx.env = env) (henv : env.Granting) {i b : ℕ} :
    Plainly (dropBlock ctx i b h) := by
  have hpoll := fun line => (logs_poll hctx henv line).plainly
  refine (hpoll _).bind fun _ => (logs_rmElm hctx henv).plainly.bind fun _ => (hpoll _).bind fun _ => ?_
  refine plainly_get fun _ => ?_
  extract_lets rest
  have hrest : ∀ u, Plainly (rest u) := fun _ =>
    (hpoll _).bind fun _ => plainly_updBin fun _ => ⟨rfl, rfl⟩
  refine plainly_ite ((hpoll _).bind fun _ => Plainly.bind ?_ hrest) ?_
  · refine logs_verifyLocked.plainly.bind fun _ => logs_grAssert.plainly.bind fun _ => ?_
    refine logs_circCount.plainly.bind fun _ => ?_
    extract_lets put
    have hput : ∀ u, Plainly (put u) := fun _ => logs_circPut.plainly.bind fun _ =>
      logs_ldField.plainly.bind fun _ => (hctx ▸ logs_mprotect henv).plainly.bind fun _ =>
        logs_grAssert.plainly
    exact plainly_ite ((plainly_delayFreeLoop hctx henv _).bind hput) (hput ())
  · refine (hpoll _).bind fun _ => (logs_insertElmHead hctx henv).plainly.bind fun _ => ?_
    refine (hpoll _).bind fun _ => Plainly.bind ?_ hrest
    exact plainly_updBin fun _ => ⟨rfl, rfl⟩

/-- A release adds to the history what `dropBlock` adds, and five events of its own. -/
theorem putBuf_emits {P : ℕ → ℕ → List Event → Prop} (hctx : ctx.env = env) (henv : env.Granting)
    (hdrop : ∀ i b s₁, s₁.grArgs = s.grArgs → wp (dropBlock ctx i b h)
      (fun _ s' => s'.memPools = s₁.memPools ∧ ∃ evs, P i b evs ∧ Emits evs s₁ s') (Unexcused s₁) s₁) :
    wp (putBuf ctx h) (fun _ s' => s'.memPools = s.memPools ∧ ∃ i b evs, P i b evs ∧
        Emits (.released (.slot i) :: evs ++ [.uncounted i h, .acquired (.slot i), .freeing h]) s s')
      (Unexcused s) s := by
  unfold putBuf
  refine Emits.refl.bind (logs_poll hctx henv _) fun _ s₁ h₁ hs₁ => ?_
  refine h₁.bind logs_ldField fun _ s₂ h₂ hs₂ => h₂.bind logs_grAssert fun _ s₃ h₃ hs₃ => ?_
  refine h₃.bind (logs_poll hctx henv _) fun _ s₄ h₄ hs₄ => ?_
  refine h₄.bind logs_stField fun _ s₅ h₅ hs₅ => ?_
  refine h₅.bind (logs_emit (e := .freeing h) trivial) fun _ s₆ h₆ hs₆ => ?_
  refine h₆.bind (logs_poll hctx henv _) fun _ s₇ h₇ hs₇ => ?_
  refine h₇.bind logs_ldField fun i s₈ h₈ hs₈ => ?_
  refine wp_ite (fun _ => wp_throw (h₈.unexcused .refl)) fun _ => ?_
  refine h₈.bind (logs_poll hctx henv _) fun _ s₉ h₉ hs₉ => ?_
  refine h₉.bind logs_pthreadMutexLock fun _ s₁₀ h₁₀ hs₁₀ => ?_
  refine h₁₀.bind (logs_poll hctx henv _) fun _ s₁₁ h₁₁ hs₁₁ => ?_
  refine h₁₁.bind logs_ldField fun b s₁₂ h₁₂ hs₁₂ => ?_
  refine wp_ite (fun _ => wp_throw (h₁₂.unexcused .refl)) fun _ => ?_
  refine h₁₂.bind (logs_countFree hctx henv) fun _ s₁₃ h₁₃ hs₁₃ => ?_
  have hpools := ((((((((((((hs₁.trans hs₂).trans hs₃).trans hs₄).trans hs₅).trans hs₆).trans
    hs₇).trans hs₈).trans hs₉).trans hs₁₀).trans hs₁₁).trans hs₁₂).trans hs₁₃).memPools
  refine wp_bind (wp_mono (hdrop i b s₁₃ h₁₃.grArgs) ?_ fun _ _ hE => h₁₃.unexcused hE)
  rintro _ s₁₄ ⟨hpools₁₄, evs, hevs, he₁₄⟩
  refine (h₁₃.trans he₁₄).bind (logs_poll hctx henv _) fun _ s₁₅ h₁₅ hs₁₅ => ?_
  refine h₁₅.bind logs_pthreadMutexUnlock fun _ s₁₆ h₁₆ hs₁₆ => ?_
  exact wp_mono (logs_poll hctx henv _ s₁₆) (fun _ s₁₇ h => ⟨((hs₁₅.trans hs₁₆).trans h.2).memPools.trans
    (hpools₁₄.trans hpools), i, b, evs, hevs, h₁₆.trans h.1⟩) fun _ _ hE => h₁₆.unexcused hE

theorem free_emits_of {P : ℕ → ℕ → List Event → Prop} (hctx : ctx.env = env) (henv : env.Granting)
    {bt : List ℕ} {ptr hdr : ℕ} (hptr : ptr ≠ 0) (hhdr : hdr = word s.mem (sub64 ptr 8))
    (hdrop : ∀ i b s₁, s₁.grArgs = s.grArgs → wp (dropBlock ctx i b hdr)
      (fun _ s' => s'.memPools = s₁.memPools ∧ ∃ evs, P i b evs ∧ Emits evs s₁ s') (Unexcused s₁) s₁) :
    wp (free ctx bt ptr) (fun _ s' => s'.memPools = s.memPools ∧ ∃ i b evs, P i b evs ∧
        Emits (.released (.slot i) :: evs ++ [.uncounted i hdr, .acquired (.slot i), .freeing hdr]) s s')
      (Unexcused s) s := by
  unfold free
  refine wp_ite (fun h => absurd h hptr) fun _ => wp_bind (wp_load64 (fun _ => ?_) fun _ => .refl)
  rw [← hhdr]
  refine Emits.refl.bind logs_ldField fun _ s₁ h₁ hs₁ => h₁.bind logs_grAssert fun _ s₂ h₂ hs₂ => ?_
  refine h₂.bind logs_checkSlop fun _ s₃ h₃ hs₃ => wp_bind (wp_get ?_)
  extract_lets args rest
  have hrest : ∀ u s₄, Emits [] s s₄ → Still s s₄ → wp (rest u) (fun _ s' => s'.memPools = s.memPools ∧
      ∃ i b evs, P i b evs ∧
        Emits (.released (.slot i) :: evs ++ [.uncounted i hdr, .acquired (.slot i), .freeing hdr]) s s')
      (Unexcused s) s₄ := by
    intro _ s₄ h₄ hs₄
    refine wp_mono (putBuf_emits hctx henv fun i b s₁ hargs => hdrop i b s₁ (hargs.trans h₄.grArgs)) ?_
      fun _ _ hE => h₄.unexcused hE
    rintro _ s₅ ⟨hpools, i, b, evs, hevs, he⟩
    have h₅ := h₄.trans he
    rw [List.append_nil] at h₅
    exact ⟨hpools.trans hs₄.memPools, i, b, evs, hevs, h₅⟩
  have hs := (hs₁.trans hs₂).trans hs₃
  refine wp_ite (fun _ => ?_) fun _ => hrest () _ h₃ hs
  exact h₃.bind logs_putTrace fun _ s₄ h₄ hs₄ => hrest () _ h₄ (hs.trans hs₄)

theorem free_emits (hctx : ctx.env = env) (henv : env.Granting) {bt : List ℕ} {ptr : ℕ}
    (hdelay : s.grArgs.useDelay = false) (hptr : ptr ≠ 0) :
    wp (free ctx bt ptr) (fun _ s' => s'.memPools = s.memPools ∧
        ∃ i b, Emits (freeEvents i b (word s.mem (sub64 ptr 8))) s s')
      (Unexcused s) s := by
  generalize hhdr : word s.mem (sub64 ptr 8) = hdr
  refine wp_mono (free_emits_of (P := fun i b evs =>
    evs = [.linked ⟨.free, i, b⟩ hdr, .unlinked ⟨.inUse, i, b⟩ hdr]) hctx henv hptr hhdr.symm ?_) ?_
    fun _ _ h => h
  · intro i b s₁ hargs
    refine wp_mono (dropBlock_emits hctx henv (hargs ▸ hdelay)) ?_ fun _ _ h => h
    exact fun _ _ h => ⟨h.1, _, rfl, h.2⟩
  · rintro _ s' ⟨hpools, i, b, _, rfl, he⟩
    exact ⟨hpools, i, b, he⟩

theorem free_plain (hctx : ctx.env = env) (henv : env.Granting) {bt : List ℕ} {ptr : ℕ} (hptr : ptr ≠ 0) :
    wp (free ctx bt ptr) (fun _ s' => s'.memPools = s.memPools ∧ ∃ evs, Emits evs s s')
      (Unexcused s) s := by
  refine wp_mono (free_emits_of (P := fun _ _ _ => True) hctx henv hptr rfl fun i b s₁ _ => ?_) ?_
    fun _ _ h => h
  · refine wp_mono (plainly_dropBlock hctx henv s₁) ?_ fun _ _ h => h
    exact fun _ _ ⟨hpools, evs, he⟩ => ⟨hpools, evs, trivial, he⟩
  · exact fun _ _ ⟨hpools, i, b, evs, _, he⟩ => ⟨hpools, _, he⟩

/-! ## The constructor -/

theorem Env.Granting.unsignalled (henv : env.Granting) : env.unsignalled.Granting :=
  { henv with calm := env.unsignalled_calm }

def initCost (b : ℕ) : ℕ := if 2 ^ b < pageSize then 0 else refillSize b

theorem replenishBins_emits (hctx : ctx.env = env) (henv : env.Granting) {i : ℕ} {bins : List ℕ}
    (hnodup : bins.Nodup) (hnum : ∀ b ∈ bins, (s.bin i b).numFree = 0) (hmarked : s.Marked)
    (hrem : (bins.map initCost).sum ≤ s.budget) :
    wp (replenishBins ctx i bins)
      (fun _ s' => (∃ evs, Emits evs s s') ∧ s.budget ≤ s'.budget + (bins.map initCost).sum)
      (Unexcused s) s := by
  induction bins generalizing s with
  | nil => exact wp_pure ⟨⟨[], .refl⟩, Nat.le_add_right _ _⟩
  | cons b bins ih =>
      rw [List.nodup_cons] at hnodup
      rw [List.map_cons, List.sum_cons] at hrem ⊢
      unfold replenishBins
      have hb : (s.bin i b).numFree < 2 ^ 63 := by
        rw [hnum b List.mem_cons_self]
        decide
      have hroom : pageSize ≤ 2 ^ b → 200 * (2 ^ b + guardSize) ≤ s.budget := by
        intro hp
        rw [initCost, if_neg (not_lt.2 hp)] at hrem
        exact (Nat.le_add_right _ _).trans hrem
      refine wp_bind (wp_mono (replenishBin_emits hctx henv hb hmarked hroom) ?_ fun _ _ hE => hE)
      intro ret s₁ h
      have h₁ : (∃ evs, Emits evs s s₁) ∧ s.budget ≤ s₁.budget + initCost b ∧
          ∀ c, c ≠ b → (s₁.bin i c).numFree = (s.bin i c).numFree := by
        unfold initCost
        by_cases hsmall : 2 ^ b < pageSize
        · rw [if_pos hsmall] at h ⊢
          exact ⟨h.1, h.2.budget.ge, fun c _ => h.2.numFree i c⟩
        · rw [if_neg hsmall] at h ⊢
          exact ⟨h.emits, h.budget, fun c hne => h.numFree i c (by simpa using hne)⟩
      obtain ⟨⟨evs, he⟩, hrem₁, hnum₁⟩ := h₁
      refine wp_ite (fun _ => wp_pure ⟨⟨_, he⟩, by omega⟩) fun _ => ?_
      refine wp_mono (ih hnodup.2 (fun c hc => ?_) (fun j c => ?_) (by omega)) ?_
        fun _ _ hE => he.unexcused hE
      · rw [hnum₁ c fun h => hnodup.1 (h ▸ hc), hnum c (List.mem_cons_of_mem _ hc)]
      · rw [(he.water j c).2]
        exact hmarked j c
      · rintro ret s₂ ⟨⟨evs₂, h₂⟩, hrem₂⟩
        exact ⟨⟨_, he.trans h₂⟩, by omega⟩

theorem mmap_emits (henv : env.Granting) (hpools : s.memPools = []) (hfit : n + 4096 ≤ 2 ^ 32) :
    wp (mmap env n) (fun ret s' => ret = some topRegion ∧ Emits [] s s' ∧ Still s s') (Unexcused s) s := by
  unfold mmap
  refine wp_bind (wp_tick (wp_bind (wp_get ?_)))
  rw [henv.mmap]
  refine wp_ite (fun _ => wp_bind (wp_set (wp_pure ⟨rfl, ?_, rfl, fun _ _ => rfl⟩))) fun h => ?_
  · exact ⟨rfl, by simp, rfl, rfl, id, fun _ _ => ⟨rfl, rfl⟩⟩
  · refine absurd ⟨by decide, rfl, by unfold topRegion; omega, fun P hP => ?_⟩ h
    change P ∈ s.memPools at hP
    rw [hpools] at hP
    exact absurd hP List.not_mem_nil

theorem mlock_emits (henv : env.Granting) :
    wp (mlock env) (fun ret s' => ret = 0 ∧ Emits [] s s' ∧ Still s s') (Unexcused s) s := by
  refine wp_bind_of (logs_tick s) fun t s₁ h₁ => ?_
  exact wp_ite (fun _ => wp_pure ⟨rfl, h₁⟩) fun hf => absurd (henv.mlock t) hf

/-- The first pool. -/
theorem addNewMemPool_emits (hctx : ctx.env = env) (henv : env.Granting)
    (hpools : s.memPools = []) (hfit : n + 2 * 4096 ≤ 2 ^ 32) :
    wp (addNewMemPool ctx n)
      (fun _ s' => Emits [] s s' ∧ n ≤ s'.budget ∧
        ∀ i b, (s'.bin i b).numFree = (s.bin i b).numFree)
      (Unexcused s) s := by
  unfold addNewMemPool
  extract_lets poolSize
  have hlo : n ≤ poolSize := by
    change n ≤ (n / 4096 + 1) * 4096
    omega
  have hhi : poolSize ≤ n + 4096 := by
    change (n / 4096 + 1) * 4096 ≤ n + 4096
    omega
  clear_value poolSize
  refine wp_bind (wp_get (wp_bind (wp_grAssert (fun _ => ?_) fun _ => .refl)))
  refine wp_bind (wp_grAssert (fun _ => ?_) fun _ => .refl)
  rw [hctx]
  refine wp_bind_of (mmap_emits henv hpools (by omega)) ?_
  rintro _ s₁ ⟨rfl, h₁, hs₁⟩
  refine h₁.bind logs_grAssert fun _ s₂ h₂ hs₂ => ?_
  extract_lets rest
  have hrest : ∀ u s₃, Emits [] s s₃ → Still s s₃ → wp (rest u) (fun _ s' => Emits [] s s' ∧
      n ≤ s'.budget ∧ ∀ i b, (s'.bin i b).numFree = (s.bin i b).numFree) (Unexcused s) s₃ := by
    intro _ s₃ h₃ hs₃
    refine wp_bind (wp_get (wp_ite (fun hmax => absurd ?_ hmax) fun _ => wp_bind (wp_set (wp_pure ?_))))
    · rw [hs₃.memPools, hpools]
      decide
    · have h₄ : Emits [] s₃ { s₃ with memPools := ⟨poolSize, poolSize, topRegion, topRegion, topRegion + poolSize - 1⟩ ::
          s₃.memPools } := ⟨rfl, by simp, rfl, rfl, id, fun _ _ => ⟨rfl, rfl⟩⟩
      refine ⟨h₃.trans h₄, ?_, hs₃.numFree⟩
      unfold Heap.budget
      dsimp only
      rw [hs₃.memPools, hpools]
      dsimp only
      rw [if_pos (hhi.trans (by omega))]
      exact hlo
  have hs := hs₁.trans hs₂
  refine wp_ite (fun _ => ?_) fun _ => hrest () _ h₂ hs
  refine wp_bind (wp_mono (mlock_emits henv) ?_ fun _ _ hE => h₂.unexcused hE)
  rintro _ s₃ ⟨rfl, h₃, hs₃⟩
  exact wp_ite (fun h => absurd rfl h) fun _ => hrest () _ (h₂.trans h₃) (hs.trans hs₃)

/-- A heap whose past excuses nothing, with memory left in the current pool. -/
structure Heap.Pristine (env : Env) (room : ℕ) (s : Heap) : Prop where
  plain : ∀ e ∈ s.log, e.Plain
  grArgs : s.grArgs = env.args
  low : s.Low
  marked : s.Marked
  lowWater : ∀ i b, 18 ≤ b → (s.bin i b).lowWater = 0
  room : room ≤ s.budget

theorem Heap.Pristine.emits {room room' : ℕ} (hp : s.Pristine env room) (he : Emits evs s s')
    (hroom : room' ≤ s'.budget) : s'.Pristine env room' where
  plain e h := by
    rw [he.log] at h
    exact (List.mem_append.1 h).elim (he.plain e) (hp.plain e)
  grArgs := he.grArgs.trans hp.grArgs
  low := he.low hp.low
  marked i b := (he.water i b).2 ▸ hp.marked i b
  lowWater i b hb := (he.water i b).1.trans (hp.lowWater i b hb)
  room := hroom

/-- A slot as `initBinsMeta` leaves it. -/
theorem initSlot_blank (c : Prop) [Decidable c] (b : ℕ) :
    (if c then initSlot {} else {} : MemSlot).Low ∧
      ((if c then initSlot {} else {} : MemSlot).memBins b).highWater ≤ 200 ∧
      (18 ≤ b → ((if c then initSlot {} else {} : MemSlot).memBins b).lowWater = 0) ∧
      ((if c then initSlot {} else {} : MemSlot).memBins b).numFree = 0 := by
  by_cases hc : c
  · rw [if_pos hc]
    refine ⟨⟨rfl, by decide, by decide⟩, ?_⟩
    by_cases hb : b ∈ markedBins
    · have hlt : b < 18 := List.mem_range.1 (List.mem_of_mem_filter hb)
      simp only [initSlot, if_pos hb]
      exact ⟨le_rfl, fun h => absurd hlt (not_lt.2 h), trivial⟩
    · simp only [initSlot, if_neg hb]
      exact ⟨Nat.zero_le _, fun _ => trivial, trivial⟩
  · rw [if_neg hc]
    exact ⟨⟨rfl, by decide, by decide⟩, Nat.zero_le _, fun _ => rfl, rfl⟩

/-- The library is loaded, and half of the first pool is left. -/
theorem boot_emits (henv : env.Granting) {depth : ℕ} :
    wp (boot env depth) (fun _ s => s.Pristine env slotInitSize) (Unexcused Heap.static)
      Heap.static := by
  have hctx : (ctxOf env.unsignalled depth).env = env.unsignalled := (ctxOf_ok _ depth).env_eq
  have henv' := henv.unsignalled
  unfold boot grInitialize
  rw [hctx]
  refine wp_bind (wp_get (wp_ite nofun fun _ => ?_))
  refine wp_bind (wp_grAssert_of (by decide) (wp_bind (wp_grAssert_of (by decide) ?_)))
  refine wp_bind (wp_modify (wp_bind (wp_pthreadMutexLock (fun _ => ?_) nofun)))
  refine wp_bind (wp_bind (wp_modify (wp_bind (wp_get (wp_pure ?_)))))
  extract_lets initSize
  have hsize : initSize = 2 * slotInitSize := by
    change 2 * (env.unsignalled.args.numSlots * slotInitSize) = _
    rw [henv'.numSlots, Nat.one_mul]
  clear_value initSize
  refine wp_bind (wp_pthreadMutexLock (fun _ => ?_) nofun)
  refine wp_bind_of (Q := fun _ s => s.memPools = [] ∧ s.Pristine env 0 ∧
    ∀ i b, (s.bin i b).numFree = 0) (wp_modify ?_) ?_
  · refine ⟨rfl, ⟨?_, rfl, ?_, ?_, ?_, Nat.zero_le _⟩, ?_⟩
    · change ∀ e ∈ [Event.acquired .gMutex, .acquired .initMutex], e.Plain
      simp [Event.Plain]
    · exact fun i => (initSlot_blank (i < env.args.numSlots) 0).1
    · exact fun i b => (initSlot_blank (i < env.args.numSlots) b).2.1
    · exact fun i b => (initSlot_blank (i < env.args.numSlots) b).2.2.1
    · exact fun i b => (initSlot_blank (i < env.args.numSlots) b).2.2.2
  rintro _ s₁ ⟨hpools₁, hp₁, hnum₁⟩
  have hun : ∀ {e s'}, Unexcused s₁ e s' → Unexcused Heap.static e s' := by
    rintro e s' ⟨evs, hplain, hlog⟩
    refine ⟨evs ++ s₁.log, fun e he => (List.mem_append.1 he).elim (hplain e) (hp₁.plain e), ?_⟩
    rw [hlog]
    exact (List.append_nil _).symm
  refine wp_mono (Q := fun _ s => s.Pristine env slotInitSize) (E := Unexcused s₁) ?_
    (fun _ _ h => h) fun _ _ hE => hun hE
  have hfit : initSize + 2 * 4096 ≤ 2 ^ 32 := by
    rw [hsize]
    decide
  refine wp_bind (wp_mono (addNewMemPool_emits hctx henv' hpools₁ hfit) ?_ fun _ _ hE => hE)
  rintro ret s₂ ⟨h₂, hrem₂, hnum₂⟩
  refine h₂.bind logs_grAssert fun _ s₃ h₃ hs₃ => ?_
  refine h₃.bind logs_pthreadMutexUnlock fun _ s₄ h₄ hs₄ => ?_
  have hs := hs₃.trans hs₄
  rw [henv'.numSlots]
  have hloop : wp (replenishSlots (ctxOf env.unsignalled depth) [0])
      (fun _ s' => (∃ evs, Emits evs s₁ s') ∧ slotInitSize ≤ s'.budget) (Unexcused s₁) s₄ := by
    unfold replenishSlots
    refine h₄.bind logs_pthreadMutexLock fun _ s₅ h₅ hs₅ => ?_
    refine h₅.bind logs_verifyLocked fun _ s₆ h₆ hs₆ => h₆.bind logs_grAssert fun _ s₇ h₇ hs₇ => ?_
    have hs₂₇ := ((hs.trans hs₅).trans hs₆).trans hs₇
    have hrem₇ : 2 * slotInitSize ≤ s₇.budget := by
      rw [hs₂₇.budget, ← hsize]
      exact hrem₂
    have hcost : ((List.range maxPreallocPower).map initCost).sum = slotInitSize := by decide
    refine wp_bind (wp_mono (replenishBins_emits hctx henv' List.nodup_range (fun b _ => ?_)
      (fun i b => ?_) ?_) ?_ fun _ _ hE => h₇.unexcused hE)
    · rw [hs₂₇.numFree, hnum₂, hnum₁]
    · rw [(h₇.water i b).2]
      exact hp₁.marked i b
    · rw [hcost]
      omega
    rintro ret s₈ ⟨⟨evs, he₈⟩, hrem₈⟩
    rw [hcost] at hrem₈
    refine (h₇.trans he₈).bind logs_pthreadMutexUnlock fun _ s₉ h₉ hs₉ => wp_pure ⟨⟨_, h₉⟩, ?_⟩
    rw [hs₉.budget]
    omega
  refine wp_bind_of hloop ?_
  rintro _ s₅ ⟨⟨evs, he₅⟩, hrem₅⟩
  refine wp_bind (wp_modify (wp_pthreadMutexUnlock ?_))
  have hp₅ : s₅.Pristine env slotInitSize := hp₁.emits he₅ hrem₅
  refine ⟨?_, hp₅.grArgs, hp₅.low, hp₅.marked, hp₅.lowWater, hp₅.room⟩
  intro e he
  rcases List.mem_cons.1 he with rfl | he
  · trivial
  · exact hp₅.plain e he

end GuardRails
