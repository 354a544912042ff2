import GuardRails.Model.Run
import GuardRails.Spec.Dump

/-!
# Setting up the heap

`grInitialize` turns the statically initialised variables into a heap that satisfies the
representation invariant. The handler of `SIGUSR2` is installed at its end, so no signal
arrives while it runs.
-/

namespace GuardRails

open ByteMemory StateHoare

variable {env : Env} {off : Off} {s s' s₀ : Heap} {F G : Prop} {ctx : Ctx} {slotNum binNum : ℕ}

theorem Env.unsignalled_calm (env : Env) : env.unsignalled.Calm := fun _ _ => rfl

theorem Env.Ok.unsignalled (henv : env.Ok) : env.unsignalled.Ok :=
  ⟨henv.args, henv.stdio, fun _ _ _ => rfl⟩

theorem DumpOk.signalled {L : Ledger} {d : Dump} (hd : DumpOk env.unsignalled L d) :
    DumpOk env L d :=
  ⟨hd.records, hd.bytes, fun _ => hd.binLines env.unsignalled_calm,
    fun _ => hd.histoLines env.unsignalled_calm⟩

theorem Rep.signalled (henv : env.Ok) (hR : Rep env.unsignalled off s) : Rep env off s where
  log_ok := ⟨hR.log_ok.lawful, fun hq d pre hpre => (hR.log_ok.dumps hq d pre hpre).signalled⟩
  shape := { hR.shape with env_ok := henv }

/-! ## The bins of a slot -/

theorem replenishBin_small (hctx : ctx.Ok env) (hbin : binNum < 12)
    (hslot : slotNum < env.args.numSlots) (hlock : (s.mutex (.slot slotNum)).locked = true)
    (hc : InCall env F off ∅ s₀ s) :
    wp (replenishBin ctx slotNum binNum) (fun _ s' => InCall env F off ∅ s₀ s' ∧
      s'.mutex (.slot slotNum) = s.mutex (.slot slotNum)) (Halted env F G) s := by
  unfold replenishBin
  refine wp_bind (wp_poll_safe hctx hc fun s₁ hc₁ hK₁ => wp_bind (wp_verifyLocked ?_))
  have hcount : 0 < (s₁.mutex (.slot slotNum)).count := by
    have hm := (hc.rep.shape.locks.slot slotNum).count
    rw [hc.rep.shape.args_eq] at hm
    rw [hK₁.mutex]
    exact hm.2 ⟨hlock, decide_eq_true hslot⟩
  refine wp_bind (wp_grAssert_of (decide_eq_true hcount) ?_)
  have hpage : 2 ^ binNum < 2 ^ 12 := Nat.pow_lt_pow_right (by decide) hbin
  refine wp_ite (fun h => absurd h ?_) fun _ => ?_
  · exact not_le.2 (lt_trans hbin (by decide))
  · exact wp_ite (fun _ => wp_pure ⟨hc₁, hK₁.mutex _⟩) fun h => absurd hpage h

theorem replenishBins_spec (hctx : ctx.Ok env) (hoff : env.Calm → off = 0) {bins : List ℕ}
    (hbins : ∀ b ∈ bins, b < 40) (hslot : slotNum < env.args.numSlots)
    (hlock : (s.mutex (.slot slotNum)).locked = true) (hc : InCall env F off ∅ s₀ s) :
    wp (replenishBins ctx slotNum bins) (fun _ s' => InCall env F off ∅ s₀ s')
      (Halted env F G) s := by
  induction bins generalizing s with
  | nil => exact wp_pure hc
  | cons b bins ih =>
      have hb : b < 40 := hbins b List.mem_cons_self
      have hstep : wp (replenishBin ctx slotNum b) (fun _ s' => InCall env F off ∅ s₀ s' ∧
          s'.mutex (.slot slotNum) = s.mutex (.slot slotNum)) (Halted env F G) s := by
        by_cases hsmall : b < 12
        · exact replenishBin_small hctx hsmall hslot hlock hc
        · have hc' : InCall env F off ∅ s s := .refl hc.rep hc.ready
          refine wp_mono (replenishBin_spec hctx hoff (not_lt.1 hsmall) (fun _ => .inl hb)
            (fun _ => .inl hslot) (fun _ _ => hb) hlock hc') ?_ fun _ _ hE => hE
          rintro ret s' ⟨-, -, hr⟩
          exact ⟨hc.trans hr.call.rep hr.call.keeps, hr.call.keeps.mutex _⟩
      unfold replenishBins
      refine wp_bind_of hstep ?_
      rintro ret s₁ ⟨hc₁, hm⟩
      refine wp_ite (fun _ => wp_pure hc₁) fun _ => ?_
      exact ih (fun b hb => hbins b (List.mem_cons_of_mem _ hb)) (hm ▸ hlock) hc₁

theorem replenishSlots_spec (hctx : ctx.Ok env) (hoff : env.Calm → off = 0) {slots : List ℕ}
    (hslots : ∀ i ∈ slots, i < env.args.numSlots) (hc : InCall env F off ∅ s₀ s) :
    wp (replenishSlots ctx slots) (fun _ s' => InCall env F off ∅ s₀ s') (Halted env F G) s := by
  induction slots generalizing s with
  | nil => exact wp_pure hc
  | cons i slots ih =>
      have hi := hslots i List.mem_cons_self
      have hm : (s.mutex (.slot i)).Ok true := by
        have hm := hc.rep.shape.locks.slot i
        rwa [hc.rep.shape.args_eq, decide_eq_true hi] at hm
      unfold replenishSlots
      refine wp_bind (wp_pthreadMutexLock (fun hl => ?_) fun _ hrec => ?_)
      case refine_2 => exact absurd (hm.kind.symm.trans hrec) (by decide)
      have hc₁ : InCall env F off ∅ (s.lockHeap (.slot i)) (s.lockHeap (.slot i)) :=
        .refl (hc.rep.lockHeap hl) (hc.ready.lockHeap i)
      have hlocked : ((s.lockHeap (.slot i)).mutex (.slot i)).locked = true := locked_lockHeap
      have hcount : 0 < ((s.lockHeap (.slot i)).mutex (.slot i)).count := by
        rw [mutex_lockHeap, if_pos rfl] at hlocked ⊢
        exact (hm.lock hl).count.2 ⟨hlocked, rfl⟩
      obtain ⟨s₁, hs₁⟩ : ∃ s₁, s₁ = s.lockHeap (.slot i) := ⟨_, rfl⟩
      rw [← hs₁] at hc₁ hlocked hcount ⊢
      refine wp_bind (wp_verifyLocked (wp_bind (wp_grAssert_of (decide_eq_true hcount) ?_)))
      refine wp_bind_of (replenishBins_spec hctx hoff (fun b hb => ?_) hi hlocked hc₁) ?_
      · exact (List.mem_range.1 hb).trans (by decide)
      intro _ s₂ hc₂
      refine wp_bind (wp_pthreadMutexUnlock (ih (fun i hi => hslots i (List.mem_cons_of_mem _ hi)) ?_))
      exact hc.trans hc₂.rep.unlockHeap ((hs₁ ▸ hc₂.keeps).bracket hm hl)

/-! ## The constructor -/

theorem bin_initSlot (c : Prop) [Decidable c] (b : ℕ) :
    ∃ low high, (if c then initSlot {} else {} : MemSlot).memBins b =
      { lowWater := low, highWater := high } := by
  by_cases hc : c
  · by_cases hb : b ∈ markedBins
    · exact ⟨100, 200, by simp [hc, hb, initSlot]⟩
    · exact ⟨0, 0, by simp [hc, hb, initSlot]⟩
  · exact ⟨0, 0, by simp [hc]⟩

/-- Slots set up, no pool yet. -/
theorem Shape.blank (henv : env.Ok) (hargs : s.grArgs = env.args)
    (hslop : ∀ i, s.slopValArr i = magicSlop) (hpools : s.memPools = [])
    (hpages : ∀ k, s.pages k = .none)
    (hslots : ∀ i, s.memSlots i = if i < env.args.numSlots then initSlot {} else {})
    (hhisto : ∀ i k, s.memHisto i k = {}) (hg : s.gMutex.Ok false) (hi : s.initMutex.Ok false) :
    Shape env 0 {} s := by
  have hbin : ∀ i b, ∃ low high, s.bin i b = { lowWater := low, highWater := high } := by
    intro i b
    obtain ⟨low, high, h⟩ := bin_initSlot (i < env.args.numSlots) b
    exact ⟨low, high, by rw [Heap.bin, hslots, h]⟩
  have hslot : ∀ i, ∃ bins m, s.memSlots i = { memBins := bins, lock := m } := by
    intro i
    rw [hslots]
    by_cases h : i < env.args.numSlots
    · exact ⟨_, _, by rw [if_pos h, initSlot]⟩
    · exact ⟨_, _, by rw [if_neg h]⟩
  refine
    { env_ok := henv
      args_eq := hargs
      slop_eq := hslop
      layout := ?_
      pages := ?_
      fresh := fun P hP => by simp [hpools] at hP
      blocks := fun h B hB => by simp at hB
      lists := fun r => ?_
      rings := fun i => ?_
      counts := ?_
      locks := ⟨fun i => ?_, hg, hi⟩ }
  · rw [hpools]
    exact ⟨by simp, .nil, Nat.zero_le _, by simp, by simp⟩
  · rw [hpools]
    exact ⟨by simp, by simp, by simp, by simp, fun k hk => absurd (hpages k) hk⟩
  · obtain ⟨low, high, h⟩ := hbin r.slot r.bin
    obtain ⟨kind, i, b⟩ := r
    cases kind
    · change HeaderList s.mem (s.bin i b).headFree []
      rw [h]
      exact IntrusiveList.IsList.nil
    · change HeaderList s.mem (s.bin i b).headInUse []
      rw [h]
      exact IntrusiveList.IsList.nil
  · obtain ⟨bins, m, h⟩ := hslot i
    rw [h]
    exact ⟨show 0 < maxDelayElms by decide, by simp, rfl, rfl, rfl, fun _ => ⟨rfl, fun _ _ => rfl⟩⟩
  · have hb : ∀ i b, (s.bin i b).numFree = 0 ∧ (s.bin i b).allocs = 0 ∧ (s.bin i b).frees = 0 := by
      intro i b
      obtain ⟨low, high, h⟩ := hbin i b
      rw [h]
      exact ⟨rfl, rfl, rfl⟩
    have hs : ∀ i, (s.memSlots i).totalUserRequestedBytes = 0 ∧
        (s.memSlots i).totalUserFreedBytes = 0 := by
      intro i
      obtain ⟨bins, m, h⟩ := hslot i
      rw [h]
      exact ⟨rfl, rfl⟩
    exact
      { modEq := fun c => by cases c <;> simp [heapCount, Ledger.count, hb, hs, hhisto]
        bytes_off := fun _ => rfl
        numFree_lt := fun i b => by simp [hb]
        allocs_lt := fun i b => by simp [hb]
        frees_lt := fun i b => by simp [hb]
        histo_lt := fun i k => by simp [hhisto]
        bytes_lt := fun i => by simp [hs] }
  · rw [hslots, hargs]
    by_cases h : i < env.args.numSlots
    · rw [if_pos h, decide_eq_true h]
      exact ⟨rfl, by simp [initSlot]⟩
    · rw [if_neg h, decide_eq_false h]
      exact ⟨rfl, by simp⟩

theorem Shape.setInit {L : Ledger} (hS : Shape env off L s) (b : Bool) :
    Shape env off L { s with isInit := b } :=
  { hS with
    lists := fun r => by cases r; exact hS.lists _
    counts := hS.counts.congr rfl rfl rfl rfl
    locks := ⟨hS.locks.slot, hS.locks.gMutex, hS.locks.initMutex⟩ }

theorem Mutex.ok_locked : ({ locked := true } : Mutex).Ok false := ⟨rfl, by simp⟩

theorem logOk_nil : LogOk env [] :=
  ⟨trivial, fun _ _ _ h => by simp at h⟩

/-- The constructor ends with a heap in order, and nothing but trouble with the system
keeps it from its end. -/
theorem grInitialize_spec (hctx : ctx.Ok env) (hcalm : env.Calm) (henv : env.Ok) :
    wp (grInitialize ctx)
      (fun _ s => Rep env 0 s ∧ s.isInit = true ∧ s.gMutex.locked = false ∧ ∀ h, SettledAt s h)
      (Halted env True G) Heap.static := by
  unfold grInitialize
  rw [hctx.env_eq]
  refine wp_bind (wp_get (wp_ite nofun fun _ => ?_))
  refine wp_bind (wp_grAssert_of (by decide) (wp_bind (wp_grAssert_of (by decide) ?_)))
  refine wp_bind (wp_modify (wp_bind (wp_pthreadMutexLock (fun _ => ?_) nofun)))
  refine wp_bind (wp_bind (wp_modify (wp_bind (wp_get (wp_pure ?_)))))
  extract_lets initSize
  clear_value initSize
  refine wp_bind (wp_pthreadMutexLock (fun _ => ?_) nofun)
  refine wp_bind_of (Q := fun _ s => Rep env 0 s ∧ s.isInit = false ∧
    s.initMutex = { locked := true } ∧ s.gMutex = { locked := true } ∧ ∀ h, SettledAt s h)
    (wp_modify ?_) ?_
  · refine ⟨⟨?_, ?_⟩, rfl, rfl, rfl, fun h B hB => nomatch hB⟩
    · exact (logOk_nil.neutral (e := .acquired .initMutex) trivial).neutral
        (e := .acquired .gMutex) trivial
    · refine .blank henv rfl (fun _ => rfl) rfl (fun _ => rfl) (fun _ => rfl) (fun _ _ => rfl) ?_ ?_
      · exact Mutex.ok_locked
      · exact Mutex.ok_locked
  rintro _ s₁ ⟨hR₁, -, hi₁, hg₁, hset₁⟩
  have hinit₁ : s₁.initMutex.locked = true := by rw [hi₁]
  refine wp_bind_of (addNewMemPool_spec hctx hR₁ (by rw [hg₁]) (.inr hinit₁) fun _ => rfl) ?_
  rintro ret s₂ ⟨hR₂, hK₂, hret⟩
  refine wp_bind (wp_grAssert (fun _ => ?_) fun h0 => (.of_trouble hR₂.log_ok (fun _ => ?_) nofun nofun))
  case refine_2 =>
    rcases hret with ⟨h, -⟩ | ⟨-, hT⟩
    · exact absurd h h0
    · exact hT
  have hi₂ : s₂.initMutex = { locked := true } := (hK₂.mutex .initMutex).trans hi₁
  have hg₂ : s₂.gMutex = { locked := true } := (hK₂.mutex .gMutex).trans hg₁
  obtain ⟨s₃, hs₃⟩ : ∃ s₃, s₃ = s₂.unlockHeap .gMutex := ⟨_, rfl⟩
  refine wp_bind (wp_pthreadMutexUnlock ?_)
  rw [← hs₃]
  have hg₃ : s₃.gMutex.locked = false := by
    change (s₃.mutex .gMutex).locked = false
    rw [hs₃, mutex_unlockHeap, if_pos rfl]
    change s₂.gMutex.unlock.locked = false
    rw [hg₂]
    rfl
  have hinit₃ : s₃.initMutex.locked = true := by
    change (s₃.mutex .initMutex).locked = true
    rw [hs₃, mutex_unlockHeap, if_neg (by decide)]
    change s₂.initMutex.locked = true
    rw [hi₂]
  have hset₃ : ∀ h, SettledAt s₃ h := fun h => by
    have hset₂ := hK₂.settledAt (Set.notMem_empty h) (hset₁ h)
    rw [hs₃]
    exact hset₂
  have hc₃ : InCall env True 0 ∅ s₃ s₃ :=
    .refl (hs₃ ▸ hR₂.unlockHeap) ⟨fun _ h => absurd h (by simp [hg₃]), .inr hinit₃, fun _ => .inl hcalm⟩
  refine wp_bind_of (replenishSlots_spec hctx (fun _ => rfl) (fun i hi => List.mem_range.1 hi) hc₃) ?_
  intro _ s₄ hc₄
  refine wp_bind (wp_modify (wp_pthreadMutexUnlock ⟨?_, rfl, ?_, ?_⟩))
  · refine Rep.unlockHeap ⟨hc₄.rep.log_ok, ?_⟩
    exact hc₄.rep.shape.setInit true
  · change s₄.gMutex.locked = false
    rw [show s₄.gMutex = s₃.gMutex from hc₄.keeps.mutex .gMutex]
    exact hg₃
  · exact fun h => hc₄.keeps.settledAt (Set.notMem_empty h) (hset₃ h)

end GuardRails
