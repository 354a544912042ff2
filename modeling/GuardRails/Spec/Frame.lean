import GuardRails.Spec.Primitive

/-!
# Frame, locks and nested calls

`Keeps` composes, and a function that ends with the locks it began with keeps them.
`InCall` is what holds at a point of a function that began in the state `s₀`. A dump
that starts at a statement boundary leaves it as it is (`wp_poll_safe`); where the
lists are half way no signal may arrive (`wp_poll_critical`).
-/

namespace GuardRails

open ByteMemory StateHoare

variable {env : Env} {off : Off} {L : Ledger} {s s' s₀ s₁ : Heap} {X Y : Set ℕ} {F G : Prop}
  {h : ℕ} {B : Block} {e : Event} {l l' : LockId}

/-! ## The frame -/

theorem Extends.refl {log : List Event} : Extends log log := ⟨List.suffix_refl _, le_rfl⟩

theorem Extends.trans {log log' log'' : List Event} (h₁ : Extends log log')
    (h₂ : Extends log' log'') : Extends log log'' :=
  ⟨h₁.suffix.trans h₂.suffix, h₁.dumps.trans h₂.dumps⟩

theorem Extends.cons {log : List Event} (he : e ≠ .dumpEnded) : Extends log (e :: log) where
  suffix := List.suffix_cons e log
  dumps := by
    cases e with
    | dumpBegun => exact Nat.le_succ _
    | dumpEnded => exact absurd rfl he
    | _ => exact le_rfl

theorem Block.settled_of_not_fixed (hB : ¬ B.Fixed) : B.Settled := by
  unfold Block.Fixed at hB
  unfold Block.Settled
  cases hp : B.place with
  | on k => cases k <;> simp_all
  | _ => simp_all

theorem settledAt_of_not_fixed (hblock : (ledger s'.log).block h = (ledger s.log).block h)
    (hF : ∀ B, (ledger s.log).block h = some B → ¬ B.Fixed) : SettledAt s' h :=
  fun _ hB => Block.settled_of_not_fixed (hF _ (hblock ▸ hB))

theorem Keeps.refl : Keeps X s s :=
  ⟨rfl, fun _ => rfl, .refl, le_rfl, fun _ _ _ h _ => h, fun _ _ _ _ _ _ _ _ _ => rfl,
    fun _ _ => settledAt_of_not_fixed rfl⟩

/-- What is settled stays settled. -/
theorem Keeps.settledAt (hK : Keeps X s s') (hX : h ∉ X) (hs : SettledAt s h) : SettledAt s' h := by
  by_cases hF : ∀ B, (ledger s.log).block h = some B → ¬ B.Fixed
  · exact hK.settled h hX hF
  · simp only [not_forall, not_not] at hF
    obtain ⟨B, hB, hF⟩ := hF
    intro B' hB'
    obtain rfl := Option.some.inj ((hK.block h B hX hB hF).symm.trans hB')
    exact hs _ hB

theorem Keeps.trans (h₁ : Keeps X s₀ s₁) (h₂ : Keeps X s₁ s) : Keeps X s₀ s where
  isInit := h₂.isInit.trans h₁.isInit
  mutex l := (h₂.mutex l).trans (h₁.mutex l)
  log := h₁.log.trans h₂.log
  used := h₁.used.trans h₂.used
  block h B hX hB hF := h₂.block h B hX (h₁.block h B hX hB hF) hF
  mem h B hX hB hF x hx hx' hlink :=
    (h₂.mem h B hX (h₁.block h B hX hB hF) hF x hx hx' hlink).trans
      (h₁.mem h B hX hB hF x hx hx' hlink)
  settled h hX hF := h₂.settledAt hX (h₁.settled h hX hF)

/-- A block that was not to be left alone, and is settled now, can be taken out of the
exceptions. -/
theorem Keeps.drop (hK : Keeps X s s')
    (hX : ∀ h B, h ∈ X → h ∉ Y → (ledger s.log).block h = some B → ¬ B.Fixed)
    (hS : ∀ h, h ∈ X → h ∉ Y → SettledAt s' h) : Keeps Y s s' :=
  { hK with
    block := fun h B hY hB hF => hK.block h B (fun hx => hX h B hx hY hB hF) hB hF
    mem := fun h B hY hB hF => hK.mem h B (fun hx => hX h B hx hY hB hF) hB hF
    settled := fun h hY hF => by
      by_cases hx : h ∈ X
      · exact hS h hx hY
      · exact hK.settled h hx hF }

theorem Keeps.mono (hK : Keeps X s s') (hXY : X ⊆ Y) : Keeps Y s s' :=
  hK.drop (fun _ _ hx hy => absurd (hXY hx) hy) fun _ hx hy => absurd (hXY hx) hy

theorem Block.Settled.live (hs : B.Settled) (hp : B.place = .on .inUse) : B.live = true := by
  rcases hs with hs | hs | ⟨-, hs⟩
  · simp [hp] at hs
  · simp [hp] at hs
  · exact hs

/-- The blocks that somebody is filling stay the same, those in `X` apart. -/
theorem Roomy.keeps (hr : Roomy env s) (hK : Keeps X s s')
    (hX : ∀ h ∈ X, ∀ B, (ledger s'.log).block h = some B →
      B.Settled ∨ elmHdrSz env.args ≤ B.size) :
    Roomy env s' := by
  intro hbig hcalm h B hB hp hlive
  by_cases hx : h ∈ X
  · exact (hX h hx B hB).resolve_left fun hs => absurd ((hs.live hp).symm.trans hlive) nofun
  by_cases hF : ∀ A, (ledger s.log).block h = some A → ¬ A.Fixed
  · exact absurd (((hK.settled h hx hF B hB).live hp).symm.trans hlive) nofun
  · simp only [not_forall, not_not] at hF
    obtain ⟨A, hA, hfix⟩ := hF
    obtain rfl := Option.some.inj ((hK.block h A hx hA hfix).symm.trans hB)
    exact hr hbig hcalm h A hA hp hlive

theorem SetUp.keeps (hset : SetUp env s) (hK : Keeps X s s') (hX : ∀ h ∈ X, SettledAt s' h) :
    SetUp env s' :=
  ⟨hK.isInit.trans hset.isInit, hset.roomy.keeps hK fun h hx B hB => .inl (hX h hx B hB)⟩

theorem Trouble.mono {log log' : List Event} (hT : Trouble env log) (hlog : Extends log log') :
    Trouble env log' := by
  rcases hT with ⟨h0, hfit⟩ | ⟨e, he, hex⟩
  · exact .inl ⟨h0.trans_le hlog.dumps, hfit⟩
  · exact .inr ⟨e, hlog.suffix.subset he, hex⟩

theorem trouble_cons {log : List Event} (he : e.Excuse) : Trouble env (e :: log) :=
  .inr ⟨e, List.mem_cons_self, he⟩

theorem Ready.mono (hr : Ready env F s) (hinit : s'.isInit = s.isInit)
    (hmutex : ∀ l, s'.mutex l = s.mutex l) (hlog : Extends s.log s'.log) : Ready env F s' where
  gMutex hF hg := by
    rw [show s'.gMutex = s.gMutex from hmutex .gMutex] at hg
    exact (hr.gMutex hF hg).mono hlog
  init := by
    rw [hinit, show s'.initMutex = s.initMutex from hmutex .initMutex]
    exact hr.init
  calm hF := by
    rw [hinit]
    exact (hr.calm hF).imp_right (Or.imp_right fun hT => hT.mono hlog)

/-- After trouble any dump may begin. -/
theorem Ready.of_trouble (hT : Trouble env s.log)
    (hinit : s.isInit = true ∨ s.initMutex.locked = true) : Ready env F s :=
  ⟨fun _ _ => hT, hinit, fun _ => .inr (.inr hT)⟩

theorem Halted.weaken {e : Halt} {F' G' : Prop} (hE : Halted env F' G' e s) (hF : F → F')
    (hG : G → G') : Halted env F G e s :=
  ⟨hE.log_ok, fun h => hE.excuse (hF h), hE.barred, fun hfits h => hE.bounds hfits (hG h)⟩

/-- A halt after trouble. -/
theorem Halted.of_trouble {e : Halt} (hl : LogOk env s.log) (hT : F → Trouble env s.log)
    (he : ¬ e.Barred) (hb : e ≠ .outOfBounds) : Halted env F G e s :=
  ⟨hl, fun hF => .inl (hT hF), he, fun _ _ => hb⟩

/-! ## Events that move no block -/

def Event.Neutral : Event → Prop
  | .dumpBegun | .limitReached | .mmapFailed | .mlockFailed | .mprotectFailed => True
  | .poolsExhausted | .acquired _ | .released _ => True
  | _ => False

theorem Event.Neutral.step (he : e.Neutral) : L.step e = L := by
  cases e <;> first | rfl | exact he.elim

theorem Event.Neutral.ne_ended (he : e.Neutral) : e ≠ .dumpEnded := by
  rintro rfl
  exact he

theorem Event.Neutral.legal (he : e.Neutral) : L.Legal e := by
  cases e <;> trivial

theorem DumpsOk.cons {log : List Event} (hD : DumpsOk env log) (he : ∀ d, e ≠ .dumped d) :
    DumpsOk env (e :: log) := by
  intro hq d pre hpre
  rcases List.suffix_cons_iff.1 hpre with heq | hsuf
  · exact absurd (List.cons.inj heq).1.symm (he d)
  · exact hD hq d pre hsuf

theorem LogOk.neutral {log : List Event} (hl : LogOk env log) (he : e.Neutral) :
    LogOk env (e :: log) where
  lawful := ⟨hl.lawful, he.legal⟩
  dumps := hl.dumps.cons fun d hd => by simp [hd, Event.Neutral] at he

/-- The history and the clock are not part of the shape. -/
theorem Shape.setLog (hS : Shape env off L s) (log : List Event) (t : ℕ) :
    Shape env off L { s with log := log, clock := t } :=
  { env_ok := hS.env_ok, args_eq := hS.args_eq, slop_eq := hS.slop_eq, layout := hS.layout
    pages := hS.pages, fresh := hS.fresh, blocks := hS.blocks
    lists := fun r => by cases r; exact hS.lists _
    rings := hS.rings
    counts := hS.counts.congr rfl rfl rfl rfl
    locks := ⟨hS.locks.slot, hS.locks.gMutex, hS.locks.initMutex⟩ }

/-- A halt right after the system has refused something. -/
theorem LogOk.refused {halt : Halt} (hl : LogOk env s.log) (he : e.Neutral) (hx : e.Excuse)
    (hlog : s'.log = e :: s.log) (hhalt : ¬ halt.Barred)
    (hb : halt ≠ .outOfBounds) : Halted env F G halt s' where
  log_ok := hlog ▸ hl.neutral he
  excuse _ := .inl (hlog ▸ trouble_cons hx)
  barred := hhalt
  bounds _ _ := hb

theorem Rep.tick (hR : Rep env off s) (t : ℕ) : Rep env off { s with clock := t } :=
  ⟨hR.log_ok, hR.shape.setLog s.log t⟩

theorem Rep.neutral (hR : Rep env off s) (he : e.Neutral) (t : ℕ) :
    Rep env off { s with log := e :: s.log, clock := t } where
  log_ok := hR.log_ok.neutral he
  shape := by
    rw [ledger, he.step]
    exact hR.shape.setLog _ t

theorem Keeps.neutral (he : e.Neutral) (t : ℕ) :
    Keeps X s { s with log := e :: s.log, clock := t } where
  isInit := rfl
  mutex l := by cases l <;> rfl
  log := .cons he.ne_ended
  used := le_rfl
  block h B _ hB _ := by
    rw [ledger, he.step]
    exact hB
  mem _ _ _ _ _ _ _ _ _ := rfl
  settled h _ := settledAt_of_not_fixed (by rw [ledger, he.step])

theorem Keeps.tick (t : ℕ) : Keeps X s { s with clock := t } :=
  ⟨rfl, fun l => by cases l <;> rfl, .refl, le_rfl, fun _ _ _ h _ => h,
    fun _ _ _ _ _ _ _ _ _ => rfl, fun _ _ => settledAt_of_not_fixed rfl⟩

theorem Rep.bin_lt (hR : Rep env off s) (hB : (ledger s.log).block h = some B)
    (hraw : B.place ≠ .raw) : B.bin < maxAllocPower := by
  have hsize := (hR.log_ok.lawful.sound.block_ok h B hB).size_eq hraw
  obtain ⟨k, -, hk, hk'⟩ := (hR.shape.layout.block h B hB).size_pow
  obtain rfl : B.bin = k := Nat.pow_right_injective le_rfl (hsize.symm.trans hk')
  exact hk

/-! ## Locks -/

theorem Mutex.Ok.lock {m : Mutex} {r : Bool} (hm : m.Ok r)
    (hl : m.locked = true → m.recursive = true) : m.lock.Ok r := by
  obtain ⟨rfl, hc⟩ := hm
  unfold Mutex.lock
  cases hl : m.locked <;> cases hr : m.recursive <;> constructor <;> simp_all

theorem Mutex.Ok.unlock {m : Mutex} {r : Bool} (hm : m.Ok r) : m.unlock.Ok r := by
  obtain ⟨rfl, hc⟩ := hm
  unfold Mutex.unlock
  by_cases h1 : 1 < m.count
  · rw [if_pos h1]
    refine ⟨rfl, ?_⟩
    have := hc.1 (by omega)
    simp only [this, and_self, iff_true]
    omega
  · rw [if_neg h1]
    exact ⟨rfl, by simp⟩

/-- Unlocking undoes locking. -/
theorem Mutex.Ok.unlock_lock {m : Mutex} {r : Bool} (hm : m.Ok r)
    (hl : m.locked = true → m.recursive = true) : m.lock.unlock = m := by
  obtain ⟨rfl, hc⟩ := hm
  obtain ⟨r, k, c⟩ := m
  unfold Mutex.lock Mutex.unlock
  cases k <;> cases r <;> simp_all

theorem mutex_setMutex (s : Heap) (l l' : LockId) (m : Mutex) :
    (s.setMutex l m).mutex l' = if l' = l then m else s.mutex l' := by
  cases l <;> cases l' <;> simp [Heap.setMutex, Heap.mutex, Heap.updSlot, Function.update_apply]
  split <;> rfl

theorem bin_setMutex (s : Heap) (l : LockId) (m : Mutex) (i b : ℕ) :
    (s.setMutex l m).bin i b = s.bin i b := by
  cases l <;> simp only [Heap.setMutex, Heap.bin, Heap.updSlot, Function.update_apply]
  split <;> simp_all

theorem head_setMutex (s : Heap) (l : LockId) (m : Mutex) (r : HeadRef) :
    (s.setMutex l m).head r = s.head r := by
  simp only [Heap.head, bin_setMutex]

theorem sameSlots_setMutex (s : Heap) (l : LockId) (m : Mutex) (i : ℕ) :
    ∃ m', (s.setMutex l m).memSlots i = { s.memSlots i with lock := m' } := by
  cases l <;> simp only [Heap.setMutex, Heap.updSlot, Function.update_apply]
  · split
    · exact ⟨m, by simp_all⟩
    · exact ⟨(s.memSlots i).lock, rfl⟩
  all_goals exact ⟨(s.memSlots i).lock, rfl⟩

/-- A change of a mutex is seen by the lock invariant only. -/
theorem Shape.setMutex (hS : Shape env off L s) {m : Mutex}
    (hm : ∀ r, (s.mutex l).Ok r → m.Ok r) : Shape env off L (s.setMutex l m) := by
  have hslot := sameSlots_setMutex s l m
  have hsame : ∀ i, (s.setMutex l m).memSlots i = { s.memSlots i with
      lock := ((s.setMutex l m).memSlots i).lock } := by
    intro i
    obtain ⟨m', hm'⟩ := hslot i
    rw [hm']
  have hother : (s.setMutex l m).mem = s.mem ∧ (s.setMutex l m).pages = s.pages ∧
      (s.setMutex l m).memPools = s.memPools ∧ (s.setMutex l m).memHisto = s.memHisto ∧
      (s.setMutex l m).grArgs = s.grArgs ∧ (s.setMutex l m).slopValArr = s.slopValArr := by
    cases l <;> exact ⟨rfl, rfl, rfl, rfl, rfl, rfl⟩
  obtain ⟨hmem, hpages, hpools, hhisto, hargs, hslop⟩ := hother
  refine
    { env_ok := hS.env_ok
      args_eq := hargs.trans hS.args_eq
      slop_eq := hslop ▸ hS.slop_eq
      layout := hpools ▸ hS.layout
      pages := by rw [hpools, hpages]; exact hS.pages
      fresh := by rw [hpools, hmem]; exact hS.fresh
      blocks := hmem ▸ hS.blocks
      lists := fun r => by rw [hmem, head_setMutex]; exact hS.lists r
      rings := fun i => by rw [hsame i]; exact hS.rings i
      counts := ?_
      locks := ?_ }
  · have hC := hS.counts
    refine
      { modEq := fun c => ?_
        bytes_off := hC.bytes_off
        numFree_lt := fun i b => by rw [bin_setMutex]; exact hC.numFree_lt i b
        allocs_lt := fun i b => by rw [bin_setMutex]; exact hC.allocs_lt i b
        frees_lt := fun i b => by rw [bin_setMutex]; exact hC.frees_lt i b
        histo_lt := fun i k => by rw [hhisto]; exact hC.histo_lt i k
        bytes_lt := fun i => by rw [hsame i]; exact hC.bytes_lt i }
    have hc := hC.modEq c
    cases c with
    | free i b => simpa only [heapCount, bin_setMutex] using hc
    | inUse i b => simpa only [heapCount, bin_setMutex] using hc
    | histo i k => simpa only [heapCount, hhisto] using hc
    | bytes i =>
        simp only [heapCount] at hc ⊢
        rw [hsame i]
        exact hc
  · have hK := hS.locks
    have hget : ∀ l', ∀ r, (s.mutex l').Ok r → ((s.setMutex l m).mutex l').Ok r := by
      intro l' r hr
      rw [mutex_setMutex]
      split
      · rename_i hll
        exact hm r (hll ▸ hr)
      · exact hr
    exact
      { slot := fun i => hargs ▸ hget (.slot i) _ (hK.slot i)
        gMutex := hget .gMutex false hK.gMutex
        initMutex := hget .initMutex false hK.initMutex }

theorem Rep.lockHeap (hR : Rep env off s)
    (hl : (s.mutex l).locked = true → (s.mutex l).recursive = true) :
    Rep env off (s.lockHeap l) where
  log_ok := hR.log_ok.neutral (e := .acquired l) trivial
  shape := (hR.shape.setMutex fun _ hm => hm.lock hl).setLog (.acquired l :: s.log) (s.clock + 1)

theorem Rep.unlockHeap (hR : Rep env off s) : Rep env off (s.unlockHeap l) where
  log_ok := hR.log_ok.neutral (e := .released l) trivial
  shape := (hR.shape.setMutex fun _ hm => hm.unlock).setLog (.released l :: s.log) _

theorem mutex_lockHeap : (s.lockHeap l).mutex l' =
    if l' = l then (s.mutex l).lock else s.mutex l' := by
  rw [← mutex_setMutex s l l' (s.mutex l).lock]
  cases l <;> cases l' <;> rfl

theorem mutex_unlockHeap : (s.unlockHeap l).mutex l' =
    if l' = l then (s.mutex l).unlock else s.mutex l' := by
  rw [← mutex_setMutex s l l' (s.mutex l).unlock]
  cases l <;> cases l' <;> rfl

@[simp] theorem lockHeap_mem : (s.lockHeap l).mem = s.mem := by cases l <;> rfl

@[simp] theorem lockHeap_memPools : (s.lockHeap l).memPools = s.memPools := by cases l <;> rfl

@[simp] theorem lockHeap_isInit : (s.lockHeap l).isInit = s.isInit := by cases l <;> rfl

@[simp] theorem lockHeap_log : (s.lockHeap l).log = .acquired l :: s.log := rfl

@[simp] theorem unlockHeap_mem : (s.unlockHeap l).mem = s.mem := by cases l <;> rfl

@[simp] theorem unlockHeap_memPools : (s.unlockHeap l).memPools = s.memPools := by
  cases l <;> rfl

@[simp] theorem unlockHeap_isInit : (s.unlockHeap l).isInit = s.isInit := by cases l <;> rfl

@[simp] theorem unlockHeap_log : (s.unlockHeap l).log = .released l :: s.log := rfl

@[simp] theorem ledger_acquired (log : List Event) : ledger (.acquired l :: log) = ledger log :=
  rfl

@[simp] theorem ledger_released (log : List Event) : ledger (.released l :: log) = ledger log :=
  rfl

theorem Ready.lockHeap (hr : Ready env F s) (i : ℕ) : Ready env F (s.lockHeap (.slot i)) where
  gMutex hF hg := (hr.gMutex hF hg).mono (.cons (e := .acquired (.slot i)) nofun)
  init := hr.init
  calm hF := (hr.calm hF).imp_right (Or.imp_right fun hT =>
    hT.mono (.cons (e := .acquired (.slot i)) nofun))

theorem SetUp.lockHeap (hset : SetUp env s) : SetUp env (s.lockHeap l) :=
  ⟨(lockHeap_isInit (s := s)).trans hset.isInit, hset.roomy⟩

theorem locked_lockHeap : ((s.lockHeap l).mutex l).locked = true := by
  rw [mutex_lockHeap, if_pos rfl, Mutex.lock]
  split
  · rename_i h
    exact h
  · rfl

/-- A function that locks and in the end unlocks keeps the locks. -/
theorem Keeps.bracket (hK : Keeps X (s.lockHeap l) s') {r : Bool} (hm : (s.mutex l).Ok r)
    (hl : (s.mutex l).locked = true → (s.mutex l).recursive = true) :
    Keeps X s (s'.unlockHeap l) where
  isInit := by rw [unlockHeap_isInit, hK.isInit, lockHeap_isInit]
  mutex l' := by
    rw [mutex_unlockHeap, hK.mutex, hK.mutex, mutex_lockHeap, mutex_lockHeap]
    split
    · rename_i hll
      subst hll
      rw [if_pos rfl, hm.unlock_lock hl]
    · rfl
  log := by
    have hlog := hK.log
    rw [lockHeap_log] at hlog
    exact (Extends.cons (e := .acquired l) nofun).trans (hlog.trans (.cons (e := .released l) nofun))
  used := by
    have hused := hK.used
    rw [lockHeap_memPools] at hused
    rwa [unlockHeap_memPools]
  block h B hX hB hF := hK.block h B hX hB hF
  mem h B hX hB hF x hx hx' hlink := by
    rw [unlockHeap_mem, hK.mem h B hX hB hF x hx hx' hlink, lockHeap_mem]
  settled h hX hF := hK.settled h hX hF

/-! ## Inside a function -/

/-- The state `s` at a point of a function that began in `s₀`. -/
structure InCall (env : Env) (F : Prop) (off : Off) (X : Set ℕ) (s₀ s : Heap) : Prop where
  rep : Rep env off s
  ready : Ready env F s
  keeps : Keeps X s₀ s

theorem InCall.refl (hR : Rep env off s) (hr : Ready env F s) : InCall env F off X s s :=
  ⟨hR, hr, .refl⟩

theorem InCall.mono (hc : InCall env F off X s₀ s) (hXY : X ⊆ Y) : InCall env F off Y s₀ s :=
  ⟨hc.rep, hc.ready, hc.keeps.mono hXY⟩

theorem InCall.trouble (hc : InCall env F off X s₀ s) (hT : Trouble env s₀.log) : Trouble env s.log :=
  hT.mono hc.keeps.log

theorem InCall.trans {off' : Off} (h₁ : InCall env F off X s₀ s₁) (hR : Rep env off' s)
    (hK : Keeps X s₁ s) : InCall env F off' X s₀ s :=
  ⟨hR, h₁.ready.mono hK.isInit hK.mutex hK.log, h₁.keeps.trans hK⟩

theorem Keeps.sameFrame (hF : SameFrame s s') (hmem : s'.mem = s.mem) (hlog : s'.log = s.log)
    (hinit : s'.isInit = s.isInit) : Keeps X s s' where
  isInit := hinit
  mutex := hF.lock
  log := hlog ▸ .refl
  used := by rw [hF.pools]
  block _ _ _ hB _ := by rwa [hlog]
  mem _ _ _ _ _ x _ _ _ := by rw [hmem]
  settled _ _ := settledAt_of_not_fixed (by rw [hlog])

/-- A block that was free or not there before, and is settled now, is nobody's business. -/
theorem Keeps.absorb (hK : Keeps {h} s s')
    (hnew : ∀ A, (ledger s.log).block h = some A → ¬ A.Fixed) (hset : SettledAt s' h) :
    Keeps ∅ s s' := by
  refine hK.drop (fun y A hy _ hA => ?_) fun y hy _ => ?_
  · obtain rfl : y = h := hy
    exact hnew A hA
  · obtain rfl : y = h := hy
    exact hset

theorem InCall.absorb {off' : Off} (hc : InCall env F off ∅ s₀ s)
    (hc' : InCall env F off' {h} s s') (hnew : ∀ A, (ledger s₀.log).block h = some A → ¬ A.Fixed)
    (hset : SettledAt s' h) : InCall env F off' ∅ s₀ s' :=
  ⟨hc'.rep, hc'.ready, ((hc.mono (Set.empty_subset {h})).keeps.trans hc'.keeps).absorb hnew hset⟩

theorem SettledAt.of_block (hB : (ledger s.log).block h = some B) (hset : B.Settled) :
    SettledAt s h := by
  intro A hA
  obtain rfl := Option.some.inj (hB.symm.trans hA)
  exact hset

/-- An event of a block that the function may change, with a write into the block and a
change of counters. -/
theorem InCall.update {off' : Off} {B' : Block} (hc : InCall env F off X s₀ s) (hX : h ∈ X)
    (hB : (ledger s.log).block h = some B) (hlegal : (ledger s.log).Legal e)
    (hdump : ∀ d, e ≠ .dumped d) (hended : e ≠ .dumpEnded) (hF : SameFrame s s')
    (hlog : s'.log = e :: s.log) (hinit : s'.isInit = s.isInit)
    (hblock : ((ledger s.log).step e).block = Function.update (ledger s.log).block h (some B'))
    (hlist : ((ledger s.log).step e).list = (ledger s.log).list)
    (hrings : ((ledger s.log).step e).ring = (ledger s.log).ring)
    (hsize : B'.size = B.size) (hring : B'.place = .ring ↔ B.place = .ring)
    (hout : ∀ x, x < h ∨ h + B.size ≤ x → s'.mem x = s.mem x)
    (hlinks : (∃ k, B.place = .on k) → ∀ x, h + 48 ≤ x → x < h + 64 → s'.mem x = s.mem x)
    (hhdr : B'.place ≠ .raw → HeaderOk env.args s'.mem h B')
    (hcounts : CountsOk off' s' ((ledger s.log).step e)) :
    InCall env F off' X s₀ s' ∧ (ledger s'.log).block h = some B' := by
  have hS := hc.rep.shape
  have hL := hc.rep.log_ok.lawful.sound
  refine ⟨hc.trans ⟨?_, ?_⟩ ?_, ?_⟩
  · rw [hlog]
    exact ⟨⟨hc.rep.log_ok.lawful, hlegal⟩, hc.rep.log_ok.dumps.cons hdump⟩
  · rw [hlog]
    exact hS.update hL hF hB hblock hlist hrings hsize hring hout hlinks hhdr hcounts
  · exact
      { isInit := hinit
        mutex := hF.lock
        log := hlog ▸ .cons hended
        used := by rw [hF.pools]
        block := fun y A hy hA _ => by
          have hne : y ≠ h := fun hyh => hy (hyh ▸ hX)
          rw [hlog, ledger, hblock, Function.update_of_ne hne, hA]
        mem := fun y A hy hA _ z hz hz' _ => by
          have hne : y ≠ h := fun hyh => hy (hyh ▸ hX)
          have := hS.layout.notMem hB hA hne hz (by omega)
          exact hout z (by omega)
        settled := fun y hy => by
          have hne : y ≠ h := fun hyh => hy (hyh ▸ hX)
          exact settledAt_of_not_fixed (by rw [hlog, ledger, hblock, Function.update_of_ne hne]) }
  · rw [hlog, ledger, hblock, Function.update_self]

/-- A change of counters inside a function. -/
theorem InCall.setCounts {off' : Off} (hc : InCall env F off X s₀ s) (hF : SameFrame s s')
    (hmem : s'.mem = s.mem) (hlog : s'.log = s.log) (hinit : s'.isInit = s.isInit)
    (hcounts : CountsOk off' s' (ledger s.log)) : InCall env F off' X s₀ s' := by
  refine hc.trans ⟨hlog ▸ hc.rep.log_ok, ?_⟩ (.sameFrame hF hmem hlog hinit)
  rw [hlog]
  exact hc.rep.shape.setCounts hF hmem hcounts

theorem wp_count {f : Heap → Heap} {off' : Off} {Q : Unit → Heap → Prop}
    {E : Halt → Heap → Prop} (hc : InCall env F off X s₀ s) (hF : SameFrame s (f s))
    (hmem : (f s).mem = s.mem) (hlog : (f s).log = s.log) (hinit : (f s).isInit = s.isInit)
    (hcounts : CountsOk off' (f s) (ledger s.log))
    (hq : ∀ s', InCall env F off' X s₀ s' → Keeps ∅ s s' → s'.log = s.log → Q () s') :
    wp (modify f) Q E s :=
  wp_modify (hq _ (hc.setCounts hF hmem hlog hinit hcounts) (.sameFrame hF hmem hlog hinit) hlog)

/-- What a function in a context may call: a dump, and formatted output after something
has gone wrong. -/
structure Ctx.Ok (env : Env) (ctx : Ctx) : Prop where
  env_eq : ctx.env = env
  dump : ∀ F G off s b hwm, Rep env off s → Ready env F s → (env.Calm → off = 0) →
    (F → SetUp env s ∨ Trouble env s.log) →
    wp (ctx.onExitHelper b hwm) (fun _ s' => Rep env off s' ∧ Keeps ∅ s s') (Halted env F G) s
  printf : ∀ F G off s, Rep env off s → Ready env F s → (env.Calm → off = 0) →
    (F → Trouble env s.log) →
    wp ctx.printf (fun _ s' => Rep env off s' ∧ Keeps ∅ s s') (Halted env F G) s

variable {ctx : Ctx} {α : Type}

/-- A safe boundary: whatever a signal does here, the function can go on. -/
theorem wp_poll_calm {line : ℕ} {Q : Unit → Heap → Prop} (hctx : ctx.Ok env)
    (hc : InCall env F off X s₀ s)
    (h : ∀ s', InCall env F off X s₀ s' → Keeps ∅ s s' → (env.Calm → s' = s) → Q () s') :
    wp (ctx.poll line) Q (Halted env F G) s := by
  refine wp_poll (h s hc .refl fun _ => rfl) fun hsig => ?_
  have hcalm : ¬ env.Calm := fun hcalm => by
    rw [hctx.env_eq, hcalm] at hsig
    exact absurd hsig Bool.false_ne_true
  refine wp_mono (hctx.dump F G off s true 0 hc.rep hc.ready (fun hc => absurd hc hcalm) fun hF =>
    ((hc.ready.calm hF).resolve_left hcalm).imp_left fun h => ⟨h, fun _ hc => absurd hc hcalm⟩) ?_ fun _ _ hE => hE
  rintro _ s' ⟨hR, hK⟩
  exact h s' (hc.trans hR (hK.mono (Set.empty_subset X))) hK fun h => absurd h hcalm

theorem wp_poll_safe {line : ℕ} {Q : Unit → Heap → Prop} (hctx : ctx.Ok env)
    (hc : InCall env F off X s₀ s)
    (h : ∀ s', InCall env F off X s₀ s' → Keeps ∅ s s' → Q () s') :
    wp (ctx.poll line) Q (Halted env F G) s :=
  wp_poll_calm hctx hc fun s' hc' hK _ => h s' hc' hK

/-- A safe boundary, for a function that has a block in its hands or in use. -/
theorem wp_poll_block {line : ℕ} {Q : Unit → Heap → Prop} (hctx : ctx.Ok env)
    (hc : InCall env F off X s₀ s) (hB : (ledger s.log).block h = some B) (hf : B.Fixed)
    (hq : ∀ s', InCall env F off X s₀ s' → (ledger s'.log).block h = some B → Q () s') :
    wp (ctx.poll line) Q (Halted env F G) s :=
  wp_poll_safe hctx hc fun s' hc' hK => hq s' hc' (hK.block h B (Set.notMem_empty h) hB hf)

/-- A critical boundary: no signal arrives. -/
theorem wp_poll_critical {line : ℕ} {Q : Unit → Heap → Prop} {E : Halt → Heap → Prop}
    (hctx : ctx.Ok env) (henv : env.Ok) (hline : line ∈ criticalLines) (h : Q () s) :
    wp (ctx.poll line) Q E s := by
  refine wp_poll h fun hsig => ?_
  rw [hctx.env_eq, henv.signals line hline] at hsig
  exact absurd hsig Bool.false_ne_true

def Env.CalmFrom (env : Env) (t : ℕ) : Prop := ∀ line t', t ≤ t' → env.sigusr2 line t' = false

theorem wp_poll_calmFrom {t line : ℕ} {Q : Unit → Heap → Prop} {E : Halt → Heap → Prop}
    (hctx : ctx.env = env) (hcalm : env.CalmFrom t) (ht : t ≤ s.clock) (h : Q () s) :
    wp (ctx.poll line) Q E s := by
  refine wp_poll h fun hsig => ?_
  rw [hctx, hcalm line _ ht] at hsig
  exact absurd hsig nofun

theorem Env.Calm.calmFrom (h : env.Calm) (t : ℕ) : env.CalmFrom t := fun line t' _ => h line t'

end GuardRails
