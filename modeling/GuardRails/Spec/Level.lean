import GuardRails.Spec.Inert

/-!
# Between requests

Most of what the allocator does neither counts a request nor starts a dump. Such a step is
`Flat`: the high-water marks stay as they are, and no block is cut off without room for it in
a pool. When no signal arrives, a function is level if all its steps are flat and it leaves
`gMutex` as it found it.
-/

namespace GuardRails

open StateHoare

variable {s s' s₁ s₂ : Heap} {α β : Type} {m : M α} {f : α → M β} {ctx : Ctx} {a n h i b : ℕ}
  {r : HeadRef} {e : Event} {E : Halt → Heap → Prop}

/-- The event counts no request, and begins and ends no dump. -/
def Event.Flat : Event → Prop
  | .counted _ _ | .uncounted _ _ | .dumpBegun | .dumpEnded => False
  | _ => True

def carvedBytes : List Event → ℕ
  | .carved _ size :: log => size + guardSize + carvedBytes log
  | _ :: log => carvedBytes log
  | [] => 0

/-- The blocks of the history have their room in the pools, and `k` bytes more are cut off. -/
structure Stocked (k : ℕ) (s : Heap) : Prop where
  gMutex : s.gMutex.recursive = false ∧ s.gMutex.count = 0
  carved : carvedBytes s.log + k ≤ poolsUsed s.memPools
  length_le : s.memPools.length ≤ maxMemPools
  pool : ∀ P ∈ s.memPools, P.remainingSizeBytes ≤ P.totalSizeBytes ∧ P.totalSizeBytes ≤ 2 ^ 47

/-- No block is cut off, and the pools are the same. -/
theorem Stocked.same {k : ℕ} (h : Stocked k s) (hcarved : carvedBytes s'.log = carvedBytes s.log)
    (hpools : s'.memPools = s.memPools) (hg : s'.gMutex = s.gMutex) : Stocked k s' :=
  ⟨hg ▸ h.gMutex, by rw [hcarved, hpools]; exact h.carved, hpools ▸ h.length_le, hpools ▸ h.pool⟩

/-- From `s` to `s'` no request was counted and no dump began or ended. -/
structure Flat (s s' : Heap) : Prop where
  marks : ∀ i, (s'.memSlots i).marks = (s.memSlots i).marks
  log : ∃ evs, s'.log = evs ++ s.log ∧ ∀ e ∈ evs, e.Flat
  stocked : ∀ k, Stocked k s → Stocked k s'

structure Level (s s' : Heap) : Prop extends Flat s s' where
  gMutex : ∀ k, Stocked k s → s'.gMutex.locked = s.gMutex.locked

def Levels (m : M α) : Prop := ∀ s, wp m (fun _ s' => Level s s') (fun _ s' => Flat s s') s

theorem Flat.trans (h₁ : Flat s s₁) (h₂ : Flat s₁ s₂) : Flat s s₂ where
  marks i := (h₂.marks i).trans (h₁.marks i)
  log := by
    obtain ⟨evs₁, hlog₁, hevs₁⟩ := h₁.log
    obtain ⟨evs₂, hlog₂, hevs₂⟩ := h₂.log
    refine ⟨evs₂ ++ evs₁, by rw [hlog₂, hlog₁, List.append_assoc], fun e he => ?_⟩
    exact (List.mem_append.1 he).elim (hevs₂ e) (hevs₁ e)
  stocked k h := h₂.stocked k (h₁.stocked k h)

theorem Level.refl : Level s s := ⟨⟨fun _ => rfl, ⟨[], rfl, by simp⟩, fun _ => id⟩, fun _ _ => rfl⟩

theorem Level.trans (h₁ : Level s s₁) (h₂ : Level s₁ s₂) : Level s s₂ :=
  ⟨h₁.toFlat.trans h₂.toFlat, fun k h => (h₂.gMutex k (h₁.stocked k h)).trans (h₁.gMutex k h)⟩

theorem Flat.refl : Flat s s := Level.refl.toFlat

/-- A change that nothing of this is about. -/
theorem Level.of_same (hmarks : ∀ i, (s'.memSlots i).marks = (s.memSlots i).marks)
    (hlog : s'.log = s.log) (hpools : s'.memPools = s.memPools)
    (hg : s'.gMutex = s.gMutex) : Level s s' where
  marks := hmarks
  log := ⟨[], hlog, by simp⟩
  stocked _ h := h.same (congrArg carvedBytes hlog) hpools hg
  gMutex _ _ := by rw [hg]

/-- One more flat event; a block that is cut off is another matter. -/
theorem Level.emit (he : e.Flat) (hc : ∀ h n, e ≠ .carved h n) :
    Level s { s with log := e :: s.log } where
  marks _ := rfl
  log := ⟨[e], rfl, by simpa using he⟩
  stocked k h := by
    refine ⟨h.gMutex, ?_, h.length_le, h.pool⟩
    change carvedBytes (e :: s.log) + k ≤ _
    cases e with
    | carved x n => exact absurd rfl (hc x n)
    | _ => exact h.carved
  gMutex _ _ := rfl

theorem Level.clock (t : ℕ) : Level s { s with clock := t } :=
  .of_same (fun _ => rfl) rfl rfl rfl

theorem Level.setMutex {l : LockId} (hl : l ≠ .gMutex) (lock : Mutex) : Level s (s.setMutex l lock) := by
  cases l with
  | slot i => exact .of_same (marks_updSlot (g := fun S => { S with lock := lock }) fun _ => rfl) rfl rfl rfl
  | gMutex => exact absurd rfl hl
  | initMutex => exact .of_same (fun _ => rfl) rfl rfl rfl

theorem level_inert : Inert Level where
  inside h := .of_same h.marks h.log h.memPools h.gMutex
  trans := .trans
  event {_ e} he := .emit (by cases e <;> trivial) (by rintro _ _ rfl; cases he)

theorem Moves.levels (hm : Moves Level m) : Levels m :=
  fun s => wp_mono (hm s) (fun _ _ h => h) fun _ _ h => h.toFlat

/-! ## Rules -/

theorem Levels.bind (hm : Levels m) (hf : ∀ x, Levels (f x)) : Levels (m >>= f) := by
  intro s
  refine wp_bind (wp_mono (hm s) (fun x s₁ h₁ => ?_) fun _ _ h => h)
  refine wp_mono (hf x s₁) (fun _ _ h₂ => h₁.trans h₂) fun _ _ h₂ => h₁.toFlat.trans h₂

theorem levels_pure {x : α} : Levels (pure x : M α) := fun _ => wp_pure .refl

theorem levels_get {g : Heap → M β} (hg : ∀ s, Levels (g s)) : Levels (get >>= g) :=
  fun s => wp_bind (wp_get (hg s s))

theorem levels_modify {g : Heap → Heap} (hg : ∀ s, Level s (g s)) : Levels (modify g : M Unit) :=
  fun s => wp_modify (hg s)

theorem levels_emit (he : e.Flat) (hc : ∀ h n, e ≠ .carved h n) : Levels (emit e) :=
  fun _ => wp_emit (.emit he hc)

theorem levels_updSlot {g : MemSlot → MemSlot} (hg : ∀ S, (g S).marks = S.marks) :
    Levels (modify fun s => s.updSlot i g : M Unit) := (level_inert.moves_updSlot hg).levels

theorem levels_updHisto {k : ℕ} {g : MemHisto → MemHisto} :
    Levels (modify fun s => s.updHisto i k g : M Unit) := level_inert.moves_updHisto.levels

/-! ## Primitive steps -/

theorem levels_grAssert {site : Site} {c : Prop} [Decidable c] : Levels (grAssert site c) :=
  level_inert.moves_grAssert.levels

theorem levels_touch : Levels (touch a n) := level_inert.moves_touch.levels

theorem levels_load64 : Levels (load64 a) := level_inert.moves_load64.levels

theorem levels_ldField {fld : Field} : Levels (ldField h fld) := level_inert.moves_ldField.levels

theorem levels_stField {fld : Field} {v : ℕ} : Levels (stField h fld v) :=
  level_inert.moves_stField.levels

theorem levels_memset {v : UInt8} : Levels (memset a v n) := level_inert.moves_memset.levels

theorem levels_memcpy {src : ℕ} : Levels (memcpy a src n) := level_inert.moves_memcpy.levels

theorem levels_storeBytes {bytes : List UInt8} : Levels (storeBytes a bytes) :=
  level_inert.moves_storeBytes.levels

theorem Level.lockHeap {l : LockId} (hl : l ≠ .gMutex) : Level s (s.lockHeap l) := by
  have hset : Level s { (s.setMutex l (s.mutex l).lock) with clock := s.clock + 1 } :=
    (Level.setMutex hl _).trans (.clock _)
  have hemit := hset.trans (.emit (e := .acquired l) trivial nofun)
  cases l <;> exact hemit

theorem levels_lock {l : LockId} (hl : l ≠ .gMutex) : Levels (pthreadMutexLock l) :=
  fun _ => wp_pthreadMutexLock (fun _ => .lockHeap hl) fun _ _ => (Level.clock _).toFlat

theorem levels_unlock {l : LockId} (hl : l ≠ .gMutex) : Levels (pthreadMutexUnlock l) :=
  (levels_modify fun _ => .setMutex hl _).bind fun _ => levels_emit (e := .released l) trivial nofun

theorem levels_verifyLocked {l : LockId} : Levels (verifyLocked l) :=
  level_inert.moves_verifyLocked.levels

theorem levels_poll (hcalm : ctx.env.Calm) {line : ℕ} : Levels (ctx.poll line) :=
  (level_inert.moves_poll hcalm).levels

/-! ## Pools and refills -/

theorem levels_putGuard : Levels (putGuard ctx h n) := level_inert.moves_putGuard.levels

theorem wp_lastDump {site : Site} {k : PUnit → M α} {Q : α → Heap → Prop}
    (h : wp (do ctx.printf; ctx.onExitHelper false 0) (fun _ s' => ∀ site, E (.abort site) s') E s) :
    wp (do ctx.printf; ctx.onExitHelper false 0; let r ← throw (.abort site); k r) Q E s := by
  have key := wp_bind_of (R := Q) (f := fun _ => do let r ← throw (.abort site); k r) h
    fun _ s' hE => wp_bind (wp_throw (hE site))
  simpa only [bind_assoc] using key

theorem Level.newPool (hlen : s.memPools.length < maxMemPools) (hle : n ≤ 2 ^ 47) :
    Level s { s with
      memPools :=
        { totalSizeBytes := n
          remainingSizeBytes := n
          start := a
          startFree := a
          endAddr := a + n - 1 } :: s.memPools } where
  marks _ := rfl
  log := ⟨[], rfl, by simp⟩
  stocked _ h :=
    { gMutex := h.gMutex
      carved := by simpa [poolsUsed] using h.carved
      length_le := hlen
      pool := List.forall_mem_cons.2 ⟨⟨le_rfl, hle⟩, h.pool⟩ }
  gMutex _ _ := rfl

/-- `addNewMemPool`, called in `s`, gives up in `s'`: the kernel has refused it memory. -/
structure GivesUp (env : Env) (s s' : Heap) : Prop extends Level s s' where
  rep : ∀ off, Rep env off s → Rep env off s'
  ledger : GuardRails.ledger s'.log = GuardRails.ledger s.log
  isInit : s'.isInit = s.isInit

theorem GivesUp.tick {env : Env} (h : GivesUp env s s') (t : ℕ) : GivesUp env s { s' with clock := t } :=
  ⟨h.toLevel.trans (.clock t), fun off hR => (h.rep off hR).tick t, h.ledger, h.isInit⟩

/-- The event of a refusal. -/
theorem GivesUp.neutral {env : Env} (hl : Level s s₁) (hrep : ∀ off, Rep env off s → Rep env off s₁)
    (hlog : s₁.log = s.log) (hinit : s₁.isInit = s.isInit) (he : e.Neutral) (hflat : e.Flat)
    (hc : ∀ h n, e ≠ .carved h n) (t : ℕ) :
    GivesUp env s { s₁ with log := e :: s₁.log, clock := t } where
  toLevel := (hl.trans (.clock t)).trans (.emit hflat hc)
  rep off hR := (hrep off hR).neutral he t
  ledger := by
    change GuardRails.ledger (e :: s₁.log) = _
    rw [GuardRails.ledger, he.step, hlog]
  isInit := hinit

/-- `addNewMemPool` either dumps and aborts or is level. -/
theorem addNewMemPool_level (hE : ∀ halt s', Flat s s' → E halt s')
    (habort : ∀ s₁, GivesUp ctx.env s s₁ → wp (do ctx.printf; ctx.onExitHelper false 0)
      (fun _ s' => ∀ site, E (.abort site) s') E s₁) :
    wp (addNewMemPool ctx n) (fun _ s' => Level s s') E s := by
  unfold addNewMemPool
  extract_lets poolSize
  have hal : poolSize % 4096 = 0 := Nat.mul_mod_left _ _
  refine wp_bind (wp_get (wp_bind (wp_grAssert (fun _ => ?_) fun _ => hE _ _ .refl)))
  refine wp_bind (wp_grAssert (fun _ => wp_bind (wp_mmap ?_ fun a hga => ?_)) fun _ => hE _ _ .refl)
  · have h₁ : GivesUp ctx.env s { s with clock := s.clock + 1, log := .mmapFailed :: s.log } :=
      .neutral (e := .mmapFailed) .refl (fun _ hR => hR) rfl rfl trivial trivial nofun (s.clock + 1)
    dsimp -zeta only
    refine wp_bind (wp_tick ?_)
    extract_lets limit
    have h₂ := h₁.tick (s.clock + 1 + 1)
    exact wp_ite (fun _ => wp_lastDump (habort _ h₂)) fun _ => wp_pure h₂.toLevel
  · have hrep : ∀ off t, Rep ctx.env off s → Rep ctx.env off { s with
        clock := t
        mem := ByteMemory.update s.mem a poolSize fun _ => 0
        pages := protectPages s.pages a poolSize .readWrite } := fun off t hR =>
      ⟨hR.log_ok, (hR.shape.mapped hR.log_ok.lawful.sound hga hal).setLog s.log t⟩
    generalize ByteMemory.update s.mem a poolSize (fun _ => 0) = mem at hrep ⊢
    generalize protectPages s.pages a poolSize .readWrite = pages at hrep ⊢
    obtain ⟨s₁, hs₁⟩ : ∃ s₁ : Heap, s₁ = { s with clock := s.clock + 1, mem := mem, pages := pages } :=
      ⟨_, rfl⟩
    have h₁ : Level s s₁ := hs₁ ▸ .of_same (fun _ => rfl) rfl rfl rfl
    have hlog : s₁.log = s.log := by rw [hs₁]
    have hinit : s₁.isInit = s.isInit := by rw [hs₁]
    have hrep : ∀ off, Rep ctx.env off s → Rep ctx.env off s₁ := fun off hR => hs₁ ▸ hrep off _ hR
    have hle : poolSize ≤ 2 ^ 47 := (Nat.le_add_left _ _).trans hga.2.2.1
    clear_value poolSize
    rw [← hs₁]
    dsimp -zeta only
    refine wp_bind (wp_grAssert (fun _ => ?_) fun _ => hE _ _ h₁.toFlat)
    extract_lets rest
    -- the region becomes the current pool
    have hrest : ∀ s₂, Level s s₂ → wp (rest ()) (fun _ s' => Level s s') E s₂ := by
      intro s₂ h₂
      refine wp_bind (wp_get (wp_ite (fun _ => ?_) fun hlen => ?_))
      · have h₃ := h₂.trans (.emit (e := .poolsExhausted) trivial nofun)
        exact wp_bind (wp_emit (wp_bind (wp_throw (hE _ _ h₃.toFlat))))
      · exact wp_bind (wp_set (wp_pure (h₂.trans (.newPool (not_not.1 hlen) hle))))
    refine wp_ite (fun _ => wp_bind (wp_mlock ?_ ?_)) fun _ => hrest s₁ h₁
    · exact wp_ite (fun h0 => absurd rfl h0) fun _ => hrest _ (h₁.trans (.clock _))
    · refine wp_ite (fun _ => wp_lastDump (habort _ ?_)) fun h0 => absurd (by decide) h0
      exact .neutral (e := .mlockFailed) h₁ hrep hlog hinit trivial trivial nofun (s₁.clock + 1)

/-- Who gets `gMutex` found it free. -/
theorem Stocked.free {k : ℕ} (h : Stocked k s)
    (hl : s.gMutex.locked = true → s.gMutex.recursive = true) : s.gMutex.locked = false := by
  by_contra hlocked
  exact absurd ((hl (by simpa using hlocked)).symm.trans h.gMutex.1) nofun

theorem Stocked.lock {k : ℕ} (h : Stocked k s)
    (hl : s.gMutex.locked = true → s.gMutex.recursive = true) : Stocked k (s.lockHeap .gMutex) where
  gMutex := by
    change s.gMutex.lock.recursive = false ∧ s.gMutex.lock.count = 0
    simp [Mutex.lock, h.free hl, h.gMutex.1]
  carved := h.carved
  length_le := h.length_le
  pool := h.pool

theorem Stocked.unlock {k : ℕ} (h : Stocked k s) :
    Stocked k (s.unlockHeap .gMutex) ∧ (s.unlockHeap .gMutex).gMutex.locked = false := by
  have hm : (s.unlockHeap .gMutex).gMutex = s.gMutex.unlock := rfl
  rw [Mutex.unlock, h.gMutex.2, if_neg (by decide)] at hm
  exact ⟨⟨by rw [hm]; exact ⟨h.gMutex.1, rfl⟩, h.carved, h.length_le, h.pool⟩, by rw [hm]⟩

/-- Whatever happens while `gMutex` is held, it is free again in the end. -/
theorem Level.bracket (hl : s.gMutex.locked = true → s.gMutex.recursive = true)
    (h : Flat (s.lockHeap .gMutex) s') : Level s (s'.unlockHeap .gMutex) where
  marks := h.marks
  log := by
    obtain ⟨evs, hlog, hevs⟩ := h.log
    refine ⟨.released .gMutex :: (evs ++ [.acquired .gMutex]), ?_, fun e he => ?_⟩
    · rw [unlockHeap_log, hlog, lockHeap_log]
      simp
    · simp only [List.mem_cons, List.mem_append, List.not_mem_nil, or_false] at he
      rcases he with rfl | he | rfl
      · trivial
      · exact hevs e he
      · trivial
  stocked k hs := ((h.stocked k (hs.lock hl)).unlock).1
  gMutex k hs := by
    rw [((h.stocked k (hs.lock hl)).unlock).2]
    exact (hs.free hl).symm

theorem Stocked.bump {k : ℕ} (h : Stocked k s) (hle : n ≤ s.remaining) :
    Stocked (k + n) (s.bump n) := by
  unfold Heap.bump Heap.remaining at *
  cases hp : s.memPools with
  | nil =>
      rw [hp] at hle
      obtain rfl := Nat.le_zero.1 hle
      exact h
  | cons P Ps =>
      rw [hp] at hle
      have hle : n ≤ P.remainingSizeBytes := hle
      have hpool := h.pool
      have hcarved := h.carved
      have hlen := h.length_le
      rw [hp] at hpool hcarved hlen
      obtain ⟨hP, hPs⟩ := List.forall_mem_cons.1 hpool
      simp only [poolsUsed, List.map_cons, List.sum_cons] at hcarved
      refine ⟨h.gMutex, ?_, hlen, List.forall_mem_cons.2 ⟨⟨?_, hP.2⟩, hPs⟩⟩
      · simp only [poolsUsed, List.map_cons, List.sum_cons]
        omega
      · exact (Nat.sub_le _ _).trans hP.1

theorem Flat.bump (hle : n ≤ s.remaining) : Flat s (s.bump n) where
  marks i := by
    unfold Heap.bump
    cases s.memPools <;> rfl
  log := by
    refine ⟨[], ?_, by simp⟩
    unfold Heap.bump
    cases s.memPools <;> rfl
  stocked k h := { (h.bump hle) with carved := (Nat.add_le_add_left (Nat.le_add_right k n) _).trans (h.bump hle).carved }

/-- The block that is cut off is as large as what was set aside for it. -/
theorem Flat.carved (hle : n + guardSize ≤ s.remaining) (h₁ : Flat (s.bump (n + guardSize)) s₁) :
    Flat s { s₁ with log := .carved h n :: s₁.log } where
  marks i := (h₁.marks i).trans ((Flat.bump hle).marks i)
  log := by
    obtain ⟨evs, hlog, hevs⟩ := ((Flat.bump hle).trans h₁).log
    exact ⟨.carved h n :: evs, congrArg (List.cons _) hlog, List.forall_mem_cons.2 ⟨trivial, hevs⟩⟩
  stocked k hs := by
    have hs₁ := h₁.stocked _ (hs.bump hle)
    refine ⟨hs₁.gMutex, ?_, hs₁.length_le, hs₁.pool⟩
    have hcarved := hs₁.carved
    change n + guardSize + carvedBytes s₁.log + k ≤ _
    change _ ≤ poolsUsed s₁.memPools
    omega

/-- A level step, when it does not matter how a call halts. -/
theorem Levels.through {Q : β → Heap → Prop} (hm : Levels m)
    (hf : ∀ x s₁, Level s s₁ → wp (f x) Q (fun _ _ => True) s₁) :
    wp (m >>= f) Q (fun _ _ => True) s :=
  wp_bind (wp_mono (hm s) hf fun _ _ _ => trivial)

theorem Flat.lock (hl : s.gMutex.locked = true → s.gMutex.recursive = true) :
    Flat s (s.lockHeap .gMutex) where
  marks _ := rfl
  log := ⟨[.acquired .gMutex], rfl, by simp [Event.Flat]⟩
  stocked _ h := h.lock hl

/-- A refusal of memory while `gMutex` is held is the only way to a dump. -/
theorem getFromPool_level (hE : ∀ halt s', Flat s s' → E halt s')
    (habort : (s.gMutex.locked = true → s.gMutex.recursive = true) → ∀ s₁,
      GivesUp ctx.env (s.lockHeap .gMutex) s₁ → wp (do ctx.printf; ctx.onExitHelper false 0)
        (fun _ s' => ∀ site, E (.abort site) s') E s₁) :
    wp (getFromPool ctx n) (fun _ s' => Level s s') E s := by
  unfold getFromPool
  extract_lets binTotalSize rest
  have hbts : binTotalSize = n + guardSize := rfl
  clear_value binTotalSize
  refine wp_bind (wp_pthreadMutexLock (fun hl => ?_) fun _ _ => hE _ _ (Level.clock _).toFlat)
  have hlock := Flat.lock hl
  have habort := habort hl
  obtain ⟨s₁, hs₁⟩ : ∃ s₁, s₁ = s.lockHeap .gMutex := ⟨_, rfl⟩
  have hrest : ∀ ret s₂, Flat s₁ s₂ → wp (rest ret) (fun _ s' => Level s s') E s₂ := by
    intro ret s₂ h₂
    refine wp_ite (fun _ => ?_) fun _ => wp_bind (wp_get (wp_bind (wp_grAssert (fun hle => ?_) fun _ => ?_)))
    · exact wp_bind (wp_pthreadMutexUnlock (wp_pure (.bracket hl (hs₁ ▸ h₂))))
    · rw [hbts] at hle ⊢
      refine wp_bind (wp_set (wp_bind (wp_mono (levels_putGuard _) (fun _ s₃ h₃ => ?_) fun _ _ h₃ => ?_)))
      · refine wp_bind (wp_emit (wp_bind (wp_pthreadMutexUnlock (wp_pure (.bracket hl ?_)))))
        exact (hs₁ ▸ h₂).trans (.carved hle h₃.toFlat)
      · exact hE _ _ (((hs₁ ▸ hlock).trans h₂).trans ((Flat.bump hle).trans h₃))
    · exact hE _ _ ((hs₁ ▸ hlock).trans h₂)
  rw [← hs₁] at hlock habort ⊢
  refine wp_bind (wp_get (wp_ite (fun _ => wp_bind ?_) fun _ => wp_bind (wp_pure (hrest _ s₁ .refl))))
  exact wp_mono (addNewMemPool_level (fun e s' h => hE e s' (hlock.trans h)) habort)
    (fun ret s₂ h₂ => hrest ret s₂ h₂.toFlat) fun _ _ h => h

theorem levels_labelBlock (hcalm : ctx.env.Calm) : Levels (labelBlock ctx i b h) :=
  (level_inert.moves_labelBlock hcalm).levels

theorem replenishLoop_level (hcalm : ctx.env.Calm) (fuel : ℕ) :
    wp (replenishLoop ctx i b fuel) (fun _ s' => Level s s') (fun _ _ => True) s := by
  induction fuel generalizing s with
  | zero => exact wp_throw trivial
  | succ fuel ih =>
      rw [replenishLoop_succ]
      refine (levels_poll hcalm).through fun _ s₁ h₁ => ?_
      refine wp_bind_of (getFromPool_level (fun _ _ _ => trivial) fun _ _ _ =>
        wp_mono (wp_trivial _) (fun _ _ _ _ => trivial) fun _ _ h => h) fun hdr s₂ h₂ => ?_
      refine (levels_poll hcalm).through fun _ s₃ h₃ => ?_
      have h₃ := (h₁.trans h₂).trans h₃
      refine wp_ite (fun _ => wp_pure h₃) fun _ => ?_
      refine (levels_labelBlock hcalm).through fun _ s₄ h₄ => wp_bind (wp_get ?_)
      have h₄ := h₃.trans h₄
      refine wp_ite (fun _ => wp_mono ih (fun _ _ h => h₄.trans h) fun _ _ h => h) fun _ => ?_
      exact (levels_poll hcalm).through fun _ s₅ h₅ => wp_pure (h₄.trans h₅)

theorem replenishBin_level (hcalm : ctx.env.Calm) :
    wp (replenishBin ctx i b) (fun _ s' => Level s s') (fun _ _ => True) s := by
  unfold replenishBin
  refine (levels_poll hcalm).through fun _ s₁ h₁ => levels_verifyLocked.through fun _ s₂ h₂ => ?_
  refine levels_grAssert.through fun _ s₃ h₃ => ?_
  have h₃ := (h₁.trans h₂).trans h₃
  refine wp_ite (fun _ => wp_throw trivial) fun _ => wp_ite (fun _ => wp_pure h₃) fun _ => ?_
  refine (levels_poll hcalm).through fun _ s₄ h₄ => wp_bind (wp_get ?_)
  have h₄ := h₃.trans h₄
  refine wp_ite (fun _ => ?_) fun _ => (levels_poll hcalm).through fun _ _ h₅ => wp_pure (h₄.trans h₅)
  exact wp_mono (replenishLoop_level hcalm _) (fun _ _ h => h₄.trans h) fun _ _ h => h

/-! ## Setting up -/

theorem replenishBins_level (hcalm : ctx.env.Calm) {bs : List ℕ} :
    wp (replenishBins ctx i bs) (fun _ s' => Level s s') (fun _ _ => True) s := by
  induction bs generalizing s with
  | nil => exact wp_pure .refl
  | cons b bs ih =>
      refine wp_bind_of (replenishBin_level hcalm) fun ret s₁ h₁ => wp_ite (fun _ => wp_pure h₁) fun _ => ?_
      exact wp_mono ih (fun _ _ h => h₁.trans h) fun _ _ h => h

theorem replenishSlots_level (hcalm : ctx.env.Calm) {is : List ℕ} :
    wp (replenishSlots ctx is) (fun _ s' => Level s s') (fun _ _ => True) s := by
  induction is generalizing s with
  | nil => exact wp_pure .refl
  | cons i is ih =>
      refine (levels_lock (l := .slot i) nofun).through fun _ s₁ h₁ => ?_
      refine levels_verifyLocked.through fun _ s₂ h₂ => levels_grAssert.through fun _ s₃ h₃ => ?_
      refine wp_bind_of (replenishBins_level hcalm) fun _ s₄ h₄ => ?_
      refine (levels_unlock (l := .slot i) nofun).through fun _ s₅ h₅ => ?_
      exact wp_mono ih (fun _ _ h => ((((h₁.trans h₂).trans h₃).trans h₄).trans h₅).trans h)
        fun _ _ h => h

theorem levels_initBinsMeta : Levels initBinsMeta := by
  refine Levels.bind (levels_modify fun s => .of_same (fun i => ?_) rfl rfl rfl) fun _ =>
    levels_get fun _ => levels_pure
  dsimp only
  split <;> rfl

theorem grInitialize_level (hcalm : ctx.env.Calm) :
    wp (grInitialize ctx) (fun _ s' => Level s s') (fun _ _ => True) s := by
  unfold grInitialize
  refine wp_bind (wp_get (wp_ite (fun _ => wp_pure .refl) fun _ => ?_))
  refine levels_grAssert.through fun _ s₁ h₁ => levels_grAssert.through fun _ s₂ h₂ => ?_
  have hargs : ∀ s, Level s { s with grArgs := ctx.env.args } := fun _ =>
    .of_same (fun _ => rfl) rfl rfl rfl
  refine (levels_modify hargs).through fun _ s₃ h₃ => ?_
  refine (levels_lock (l := .initMutex) nofun).through fun _ s₄ h₄ => ?_
  refine levels_initBinsMeta.through fun size s₅ h₅ => ?_
  have h₅ := (((h₁.trans h₂).trans h₃).trans h₄).trans h₅
  refine wp_bind (wp_pthreadMutexLock (fun hl => ?_) fun _ _ => trivial)
  have hslop : ∀ s, Level s { s with slopValArr := fun _ => magicSlop } := fun _ =>
    .of_same (fun _ => rfl) rfl rfl rfl
  refine (levels_modify hslop).through fun _ s₆ h₆ => ?_
  refine wp_bind_of (addNewMemPool_level (fun _ _ _ => trivial) fun _ _ =>
    wp_mono (wp_trivial _) (fun _ _ _ _ => trivial) fun _ _ h => h) fun ret s₇ h₇ => ?_
  have h₇ := h₆.trans h₇
  refine wp_bind (wp_grAssert (fun _ => wp_bind (wp_pthreadMutexUnlock ?_)) fun _ => trivial)
  have h₈ := h₅.trans (Level.bracket hl h₇.toFlat)
  refine wp_bind_of (replenishSlots_level hcalm) fun _ s₉ h₉ => ?_
  have hinit : ∀ s, Level s { s with isInit := true } := fun _ => .of_same (fun _ => rfl) rfl rfl rfl
  refine (levels_modify hinit).through fun _ s₁₀ h₁₀ => ?_
  refine wp_mono (levels_unlock (l := .initMutex) nofun _) (fun _ _ h => ?_) fun _ _ _ => trivial
  exact ((h₈.trans h₉).trans h₁₀).trans h

/-! ## Allocation and release -/

theorem levels_putTrace {bt : List ℕ} {site : Site} : Levels (putTrace bt site a n) :=
  level_inert.moves_putTrace.levels

theorem levels_pickSlot : Levels (pickSlot ctx n) := level_inert.moves_pickSlot.levels

theorem levels_takeBlock (hcalm : ctx.env.Calm) : Levels (takeBlock ctx i b) :=
  (level_inert.moves_takeBlock hcalm).levels

theorem levels_fillBlock {bt : List ℕ} {endBuf : ℕ} : Levels (fillBlock bt a n h endBuf) :=
  level_inert.moves_fillBlock.levels

theorem levels_checkSlop : Levels (checkSlop h) := level_inert.moves_checkSlop.levels

theorem levels_dropBlock (hcalm : ctx.env.Calm) : Levels (dropBlock ctx i b h) :=
  (level_inert.moves_dropBlock hcalm).levels

def CountsOff (s s' : Heap) : Prop :=
  ∃ s₁ i h, Level s s₁ ∧ Level { s₁ with log := .uncounted i h :: s₁.log } s'

/-- The request is counted off at the end. -/
theorem countFree_off (hcalm : ctx.env.Calm) :
    wp (countFree ctx i h)
      (fun _ s' => ∃ s₁, Level s s₁ ∧ s' = { s₁ with log := .uncounted i h :: s₁.log })
      (fun _ s' => Flat s s') s := by
  have hlast : countFree ctx i h = ((do
      ctx.poll 412
      let usrSizeBin := log2fast (← ldField h .usrDataSize)
      ctx.poll 413
      grAssert (.guardRails 413) (usrSizeBin < maxAllocPower)
      ctx.poll 414
      modify fun s => s.updHisto i usrSizeBin fun h => { h with frees := (h.frees + 1) % 2 ^ 64 }
      ctx.poll 415
      let usrDataSize ← ldField h .usrDataSize
      modify fun s => s.updSlot i fun S =>
        { S with totalUserFreedBytes := (S.totalUserFreedBytes + usrDataSize) % 2 ^ 64 }) >>=
      fun _ => emit (.uncounted i h)) := by
    simp only [countFree, bind_assoc]
  have hpoll : ∀ line, Levels (ctx.poll line) := fun _ => levels_poll hcalm
  rw [hlast]
  refine wp_bind (wp_mono (Q := fun _ s' => Level s s') ?_ (fun _ s₁ h₁ => wp_emit ⟨s₁, h₁, rfl⟩)
    fun _ _ h => h)
  refine Levels.bind (hpoll _) (fun _ => levels_ldField.bind fun _ => (hpoll _).bind fun _ => ?_) s
  refine levels_grAssert.bind fun _ => (hpoll _).bind fun _ => levels_updHisto.bind fun _ => ?_
  exact (hpoll _).bind fun _ => levels_ldField.bind fun _ => levels_updSlot fun _ => rfl

/-- A call may halt before or after the request is counted off. -/
def HaltsOff (s s' : Heap) : Prop :=
  Flat s s' ∨ ∃ s₁ i h, Level s s₁ ∧ Flat { s₁ with log := .uncounted i h :: s₁.log } s'

theorem Level.countsOff (h₁ : Level s s₁) {m : M α}
    (hm : wp m (fun _ s' => CountsOff s₁ s') (fun _ s' => HaltsOff s₁ s') s₁) :
    wp m (fun _ s' => CountsOff s s') (fun _ s' => HaltsOff s s') s₁ := by
  refine wp_mono hm ?_ ?_
  · rintro _ s' ⟨s₂, i, h, h₂, h'⟩
    exact ⟨s₂, i, h, h₁.trans h₂, h'⟩
  · rintro _ s' (h' | ⟨s₂, i, h, h₂, h'⟩)
    · exact .inl (h₁.toFlat.trans h')
    · exact .inr ⟨s₂, i, h, h₁.trans h₂, h'⟩

/-- Level steps before the request is counted off. -/
theorem Levels.countsOff (hm : Levels m)
    (hf : ∀ x s₁, wp (f x) (fun _ s' => CountsOff s₁ s') (fun _ s' => HaltsOff s₁ s') s₁) :
    wp (m >>= f) (fun _ s' => CountsOff s s') (fun _ s' => HaltsOff s s') s :=
  wp_bind (wp_mono (hm s) (fun x s₁ h₁ => h₁.countsOff (hf x s₁)) fun _ _ h => .inl h)

theorem putBuf_countsOff (hcalm : ctx.env.Calm) :
    wp (putBuf ctx h) (fun _ s' => CountsOff s s') (fun _ s' => HaltsOff s s') s := by
  have hpoll : ∀ line, Levels (ctx.poll line) := fun _ => levels_poll hcalm
  unfold putBuf
  refine (hpoll _).countsOff fun _ _ => levels_ldField.countsOff fun _ _ => ?_
  refine levels_grAssert.countsOff fun _ _ => (hpoll _).countsOff fun _ _ => ?_
  refine levels_stField.countsOff fun _ _ => ?_
  refine (levels_emit (e := .freeing h) trivial nofun).countsOff fun _ _ => (hpoll _).countsOff fun _ _ => ?_
  refine levels_ldField.countsOff fun i _ => wp_ite (fun _ => wp_throw (.inl .refl)) fun _ => ?_
  refine (hpoll _).countsOff fun _ _ => (levels_lock (l := .slot i) nofun).countsOff fun _ _ => ?_
  refine (hpoll _).countsOff fun _ _ => levels_ldField.countsOff fun b s₁ => ?_
  refine wp_ite (fun _ => wp_throw (.inl .refl)) fun _ => wp_bind (wp_mono (countFree_off hcalm) ?_ fun _ _ => .inl)
  rintro _ _ ⟨s₂, h₂, rfl⟩
  have hlast : Levels (do dropBlock ctx i b h; ctx.poll 428; pthreadMutexUnlock (.slot i); ctx.poll 429) :=
    (levels_dropBlock hcalm).bind fun _ => (hpoll _).bind fun _ => (levels_unlock (l := .slot i) nofun).bind fun _ => hpoll _
  exact wp_mono (hlast _) (fun _ s' h' => ⟨s₂, i, h, h₂, h'⟩) fun _ s' h' => .inr ⟨s₂, i, h, h₂, h'⟩

theorem free_countsOff (hcalm : ctx.env.Calm) {bt : List ℕ} (h0 : a ≠ 0) :
    wp (free ctx bt a) (fun _ s' => CountsOff s s') (fun _ s' => HaltsOff s s') s := by
  unfold free
  refine wp_ite (fun h => absurd h h0) fun _ => levels_load64.countsOff fun hdr _ => ?_
  refine levels_ldField.countsOff fun _ _ => levels_grAssert.countsOff fun _ _ => ?_
  refine levels_checkSlop.countsOff fun _ _ => wp_bind (wp_get ?_)
  extract_lets args
  refine wp_ite (fun _ => levels_putTrace.countsOff fun _ _ => ?_) fun _ => ?_ <;>
  exact putBuf_countsOff hcalm

end GuardRails
