import GuardRails.Invariant.Pools
import GuardRails.Spec.Frame

/-!
# `addNewMemPool` and `getFromPool`

When the kernel grants memory the pool is large enough for the block that is asked for,
so the assertion behind `addNewMemPool` holds; a block that `getFromPool` returns is new,
zero and not labelled yet.
-/

namespace GuardRails

open ByteMemory StateHoare

variable {env : Env} {off : Off} {s s' s₀ : Heap} {X : Set ℕ} {F G : Prop} {ctx : Ctx}

/-- A message, a dump and the end. -/
theorem wp_dump_abort {α : Type} {site : Site} {k : PUnit → M α} {Q : α → Heap → Prop}
    (hctx : ctx.Ok env) (hR : Rep env off s) (hinit : s.isInit = true ∨ s.initMutex.locked = true)
    (hoff : env.Calm → off = 0) (hT : Trouble env s.log) (hsite : ¬ Halt.Barred (.abort site)) :
    wp (do ctx.printf; ctx.onExitHelper false 0; let r ← throw (.abort site); k r)
      Q (Halted env F G) s := by
  refine wp_bind_of (hctx.printf F G off s hR (.of_trouble hT hinit) hoff fun _ => hT) ?_
  rintro _ s₁ ⟨hR₁, hK₁⟩
  have hinit₁ : s₁.isInit = true ∨ s₁.initMutex.locked = true := by
    rw [hK₁.isInit, show s₁.initMutex = s.initMutex from hK₁.mutex .initMutex]
    exact hinit
  have hT₁ := hT.mono hK₁.log
  refine wp_bind_of (hctx.dump F G off s₁ false 0 hR₁ (.of_trouble hT₁ hinit₁) hoff fun _ => .inr hT₁) ?_
  rintro _ s₂ ⟨hR₂, hK₂⟩
  exact wp_bind (wp_throw (.of_trouble hR₂.log_ok (fun _ => hT₁.mono hK₂.log)
    hsite nofun))

def poolSizeOf (poolSizeReq : ℕ) : ℕ := (poolSizeReq / 4096 + 1) * 4096

/-- The page that `addNewMemPool` adds pays for the guard page of a block. -/
theorem add_guard_le_poolSizeOf {n m : ℕ} (hn : n % 4096 = 0) (hm : n ≤ m) :
    n + 4096 ≤ poolSizeOf m := by
  unfold poolSizeOf
  omega

theorem poolsUsed_newPool (a n : ℕ) (pools : List MemPool) :
    poolsUsed (newPool a n :: pools) = poolsUsed pools := by
  simp [poolsUsed, newPool]

/-- A change that touches no block keeps the blocks. -/
theorem Keeps.outside (hmutex : ∀ l, s'.mutex l = s.mutex l) (hinit : s'.isInit = s.isInit)
    (hlog : s'.log = s.log) (hused : poolsUsed s.memPools ≤ poolsUsed s'.memPools)
    (hmem : ∀ y A, (ledger s.log).block y = some A → ∀ z, y ≤ z → z < y + A.size →
      s'.mem z = s.mem z) : Keeps X s s' where
  isInit := hinit
  mutex := hmutex
  log := hlog ▸ .refl
  used := hused
  block y A _ hA _ := by
    rw [hlog]
    exact hA
  mem y A _ hA _ z hz hz' _ := hmem y A hA z hz hz'
  settled _ _ := settledAt_of_not_fixed (by rw [hlog])

theorem addNewMemPool_spec {req : ℕ} (hctx : ctx.Ok env) (hR : Rep env off s)
    (hg : s.gMutex.locked = true) (hinit : s.isInit = true ∨ s.initMutex.locked = true)
    (hoff : env.Calm → off = 0) :
    wp (addNewMemPool ctx req)
      (fun ret s' => Rep env off s' ∧ Keeps ∅ s s' ∧
        (ret = 0 ∧ (∃ a, s'.memPools = newPool a (poolSizeOf req) :: s.memPools) ∨
          ret = -1 ∧ Trouble env s'.log))
      (Halted env F G) s := by
  have hL := hR.log_ok.lawful.sound
  unfold addNewMemPool
  extract_lets poolSize
  have hps : poolSize = poolSizeOf req := rfl
  have hal : poolSize % 4096 = 0 := by
    rw [hps, poolSizeOf]
    omega
  clear_value poolSize
  refine wp_bind (wp_get (wp_bind (wp_grAssert_of hg (wp_bind (wp_grAssert_of hal ?_)))))
  refine wp_bind (wp_mmap ?_ fun a hga => ?_)
  · -- no memory
    have hR₁ := hR.neutral (e := .mmapFailed) trivial (s.clock + 1)
    have hK₁ : Keeps ∅ s _ := Keeps.neutral (e := .mmapFailed) trivial (s.clock + 1)
    have hT₁ : Trouble env (.mmapFailed :: s.log) := trouble_cons trivial
    dsimp -zeta only
    refine wp_bind (wp_tick ?_)
    extract_lets limit
    refine wp_ite (fun _ => ?_) fun _ => ?_
    · exact wp_dump_abort hctx (hR₁.tick _) hinit hoff hT₁ (by decide)
    · exact wp_pure ⟨hR₁.tick _, hK₁.trans (.tick _), .inr ⟨rfl, hT₁⟩⟩
  · have hmem : ∀ y A, (ledger s.log).block y = some A → ∀ z, y ≤ z → z < y + A.size →
        ByteMemory.update s.mem a poolSize (fun _ => 0) z = s.mem z := by
      intro y A hA z hz hz'
      exact update_of_notMem (hga.notMem hR.shape.layout hA hz (by omega))
    obtain ⟨s₁, hs₁⟩ : ∃ s₁ : Heap, s₁ = { s with
      clock := s.clock + 1
      mem := ByteMemory.update s.mem a poolSize fun _ => 0
      pages := protectPages s.pages a poolSize .readWrite } := ⟨_, rfl⟩
    have hR₁ : Rep env off s₁ := by
      rw [hs₁]
      exact ⟨hR.log_ok, (hR.shape.mapped hL hga hal).setLog s.log (s.clock + 1)⟩
    have hK₁ : Keeps ∅ s s₁ := by
      rw [hs₁]
      exact .outside (fun l => by cases l <;> rfl) rfl rfl le_rfl hmem
    have hpools : s₁.memPools = s.memPools := by rw [hs₁]
    have hacc : Accessible s₁.pages a poolSize := by
      rw [hs₁]
      exact .of_protect hga.2.1 (by simp)
    have hzero : ∀ x, a ≤ x → x < a + poolSize → s₁.mem x = 0 := by
      intro x hx hx'
      rw [hs₁]
      exact update_of_mem (f := fun _ => 0) hx hx'
    rw [← hs₁]
    clear hs₁
    have hinit₁ : s₁.isInit = true ∨ s₁.initMutex.locked = true := by
      rw [hK₁.isInit, show s₁.initMutex = s.initMutex from hK₁.mutex .initMutex]
      exact hinit
    dsimp -zeta only
    refine wp_bind (wp_grAssert_of hga.2.1 ?_)
    extract_lets rest
    -- the region becomes the current pool
    have hrest : ∀ t, wp (rest ())
        (fun ret s' => Rep env off s' ∧ Keeps ∅ s s' ∧
          (ret = 0 ∧ (∃ a, s'.memPools = newPool a (poolSizeOf req) :: s.memPools) ∨
            ret = -1 ∧ Trouble env s'.log))
        (Halted env F G) { s₁ with clock := t } := by
      intro t
      refine wp_bind (wp_get ?_)
      extract_lets push
      refine wp_ite (fun hlen => ?_) fun hlen => ?_
      · refine wp_bind (wp_emit (wp_bind (wp_throw (.of_trouble ?_ (fun _ => trouble_cons (e := .poolsExhausted) trivial) nofun nofun))))
        exact hR₁.log_ok.neutral (e := .poolsExhausted) trivial
      · refine wp_bind (wp_set (wp_pure ⟨⟨hR₁.log_ok, ?_⟩, ?_, .inl ⟨rfl, a, ?_⟩⟩))
        · exact (hR₁.shape.pushPool (hpools ▸ hga) hal (not_not.1 hlen) hacc hzero).setLog
            s₁.log t
        · refine hK₁.trans (.outside (fun l => by cases l <;> rfl) rfl rfl ?_ fun _ _ _ _ _ _ => rfl)
          exact (poolsUsed_newPool a poolSize s₁.memPools).ge
        · rw [← hps, ← hpools]
          rfl
    refine wp_ite (fun _ => ?_) fun _ => hrest s₁.clock
    refine wp_bind (wp_mlock ?_ ?_)
    · exact wp_ite (fun h0 => absurd rfl h0) fun _ => hrest (s₁.clock + 1)
    · refine wp_ite (fun _ => ?_) fun h0 => absurd (by decide) h0
      exact wp_dump_abort hctx (hR₁.neutral (e := .mlockFailed) trivial _) hinit₁ hoff
        (trouble_cons trivial) (by decide)

/-- What `getFromPool` has done when it returns a block: the block is cut off the current
pool and behind its bytes lies its guard page. -/
structure Carved (env : Env) (off : Off) (s s' : Heap) (h n : ℕ) : Prop where
  rep : Rep env off s'
  keeps : Keeps {h} s s'
  new : ∀ B, (ledger s.log).block h = some B → ¬ B.Fixed
  block : (ledger s'.log).block h = some { size := n }
  zero : ∀ x, h ≤ x → x < h + n → s'.mem x = 0
  used : poolsUsed s.memPools + n + 4096 ≤ poolsUsed s'.memPools

theorem carve_spec {P : MemPool} {Ps : List MemPool} {k n : ℕ} (hctx : ctx.Ok env)
    (hR : Rep env off s) (hpools : s.memPools = P :: Ps) (hk : 12 ≤ k) (hk' : k < 40)
    (hn : n = 2 ^ k) (hrem : n + 4096 ≤ P.remainingSizeBytes) :
    wp (do
        set (s.bump (n + guardSize))
        putGuard ctx s.startFree n
        emit (.carved s.startFree n))
      (fun _ s' => Carved env off s s' s.startFree n)
      (Halted env F G) s := by
  have hL := hR.log_ok.lawful.sound
  have hY := hR.shape.layout
  have hpages := hR.shape.pages
  have hfresh := hR.shape.fresh
  rw [hpools] at hY hpages hfresh
  have hPok := hY.pool P List.mem_cons_self
  have hal := hPok.startFree_aligned
  have hn' : n % 4096 = 0 := by
    rw [hn]
    exact Nat.mod_eq_zero_of_dvd (pow_dvd_pow 2 hk : 2 ^ 12 ∣ 2 ^ k)
  have hguard : guardSize = 4096 := rfl
  have hsf : s.startFree = P.startFree := by rw [Heap.startFree, hpools]
  have hbump : s.bump (n + guardSize) = { s with memPools := P.cut (n + guardSize) :: Ps } := by
    rw [Heap.bump, hpools]
    rfl
  have hnone := hY.block_startFree rfl (by omega)
  rw [hsf, hbump]
  refine wp_bind (wp_set ?_)
  unfold putGuard
  simp only [bind_assoc]
  refine wp_bind (wp_grAssert_of hal (wp_bind (wp_grAssert_of ?_ ?_)))
  · change (P.startFree + n) % 4096 = 0
    omega
  refine wp_bind (wp_store64_of ?_ ?_)
  · exact Accessible.mono (hpages.rest P rfl) (Nat.le_add_right _ _) (by omega)
  rw [hctx.env_eq]
  refine wp_bind (wp_mprotect ?_ ?_)
  · refine wp_bind (wp_grAssert_of rfl (wp_emit ?_))
    exact
      { rep :=
          { log_ok :=
              { lawful := ⟨hR.log_ok.lawful, hnone⟩
                dumps := hR.log_ok.dumps.cons (by simp) }
            shape := (hR.shape.carve hL hpools hk hk' hn (congrArg _ hguard)
              (by omega)).setLog _ _ }
        keeps :=
          { isInit := rfl
            mutex := fun l => by cases l <;> rfl
            log := .cons nofun
            used := by
              rw [hpools]
              simp only [poolsUsed, List.map_cons, List.sum_cons, MemPool.cut]
              omega
            block := fun y A _ hA _ => by
              change Function.update (ledger s.log).block P.startFree _ y = some A
              rw [Function.update_of_ne, hA]
              rintro rfl
              rw [hnone] at hA
              cases hA
            mem := fun y A _ hA _ z hz hz' _ => by
              have := hY.block_rest hA rfl
              exact setWord_of_notMem (by omega)
            settled := fun y hy => settledAt_of_not_fixed (Function.update_of_ne hy ..) }
        new := fun B hB => by simp [hnone] at hB
        block := Function.update_self ..
        zero := fun x hx hx' => by
          refine (setWord_of_notMem (by omega)).trans ?_
          exact hfresh P rfl x hx (by omega)
        used := by
          have h1 := hPok.startFree_eq
          have h2 := hPok.start_le
          rw [hpools]
          simp only [poolsUsed, List.map_cons, List.sum_cons, MemPool.cut]
          omega }
  · refine wp_bind (wp_grAssert (fun h0 => absurd h0 (by decide)) fun _ => ?_)
    exact hR.log_ok.refused (e := .mprotectFailed) trivial trivial rfl nofun nofun

/-- Locks taken around the cut do not matter. -/
theorem Carved.bracket {h n : ℕ} {l : LockId} (hC : Carved env off (s.lockHeap l) s' h n)
    {r : Bool} (hm : (s.mutex l).Ok r)
    (hl : (s.mutex l).locked = true → (s.mutex l).recursive = true) :
    Carved env off s (s'.unlockHeap l) h n where
  rep := hC.rep.unlockHeap
  keeps := hC.keeps.bracket hm hl
  new := hC.new
  block := hC.block
  zero x hx hx' := by
    rw [unlockHeap_mem]
    exact hC.zero x hx hx'
  used := by
    have := hC.used
    rw [lockHeap_memPools] at this
    rwa [unlockHeap_memPools]

theorem Carved.trans {s₁ : Heap} {h n : ℕ} (hK : Keeps ∅ s s₁) (hC : Carved env off s₁ s' h n) :
    Carved env off s s' h n :=
  { hC with
    keeps := (hK.mono (Set.empty_subset {h})).trans hC.keeps
    new := fun B hB hF => hC.new B (hK.block h B (Set.notMem_empty h) hB hF) hF
    used := (Nat.add_le_add_right (Nat.add_le_add_right hK.used n) 4096).trans hC.used }

theorem getFromPool_spec {k : ℕ} (hctx : ctx.Ok env) (hR : Rep env off s) (hr : Ready env F s)
    (hoff : env.Calm → off = 0) (hk : 12 ≤ k) (hk' : k < 40) :
    wp (getFromPool ctx (2 ^ k))
      (fun h s' => (h ≠ 0 ∧ Carved env off s s' h (2 ^ k)) ∨
        (h = 0 ∧ Rep env off s' ∧ Keeps ∅ s s' ∧ Trouble env s'.log))
      (Halted env F G) s := by
  obtain ⟨n, hn⟩ : ∃ n, n = 2 ^ k := ⟨_, rfl⟩
  rw [← hn]
  have hm := hR.shape.locks.gMutex
  have hguard : guardSize = 4096 := rfl
  unfold getFromPool
  extract_lets binTotalSize rest
  have hbts : binTotalSize = n + guardSize := rfl
  clear_value binTotalSize
  refine wp_bind (wp_pthreadMutexLock (fun hl' => ?_) fun hl _ => ?_)
  · have hR₁ : Rep env off (s.lockHeap .gMutex) := hR.lockHeap hl'
    -- the pool is large enough, or there was no memory
    have hrest : ∀ ret s₂, Rep env off s₂ → Keeps ∅ (s.lockHeap .gMutex) s₂ →
        (ret = 0 ∧ n + 4096 ≤ s₂.remaining) ∨ (ret = -1 ∧ Trouble env s₂.log) →
        wp (rest ret) (fun h s' => (h ≠ 0 ∧ Carved env off s s' h n) ∨
          (h = 0 ∧ Rep env off s' ∧ Keeps ∅ s s' ∧ Trouble env s'.log)) (Halted env F G) s₂ := by
      rintro ret s₂ hR₂ hK₂ (⟨rfl, hrem⟩ | ⟨rfl, hT⟩)
      · refine wp_ite (fun h0 => absurd rfl h0) fun _ => wp_bind (wp_get ?_)
        extract_lets hdr
        obtain ⟨P, Ps, hpools⟩ : ∃ P Ps, s₂.memPools = P :: Ps := by
          cases hp : s₂.memPools with
          | nil =>
              rw [Heap.remaining, hp] at hrem
              simp at hrem
          | cons P Ps => exact ⟨P, Ps, rfl⟩
        have hrem' : n + 4096 ≤ P.remainingSizeBytes := by
          rwa [Heap.remaining, hpools] at hrem
        refine wp_bind (wp_grAssert_of (by omega) ?_)
        rw [hbts]
        have key := wp_bind_of (E := Halted env F G) (carve_spec hctx hR₂ hpools hk hk' hn hrem')
          (f := fun _ => do pthreadMutexUnlock .gMutex; pure hdr)
          (R := fun h s' => (h ≠ 0 ∧ Carved env off s s' h n) ∨
            (h = 0 ∧ Rep env off s' ∧ Keeps ∅ s s' ∧ Trouble env s'.log)) ?_
        · simpa only [bind_assoc] using key
        · intro _ s₃ hC
          have hC' := (hC.trans hK₂).bracket hm hl'
          refine wp_bind (wp_pthreadMutexUnlock (wp_pure (.inl ⟨?_, hC'⟩)))
          exact (hC'.rep.shape.layout.block_bounds hC'.block).1.ne'
      · refine wp_ite (fun _ => ?_) fun h0 => absurd (by decide) h0
        refine wp_bind (wp_pthreadMutexUnlock (wp_pure (.inr ⟨rfl, hR₂.unlockHeap, ?_, ?_⟩)))
        · exact hK₂.bracket hm hl'
        · exact hT.mono (.cons nofun)
    refine wp_bind (wp_get (wp_ite (fun hlt => ?_) fun hge => ?_))
    · have hinit : (s.lockHeap .gMutex).isInit = true ∨
          (s.lockHeap .gMutex).initMutex.locked = true := hr.init
      refine wp_bind (wp_mono (addNewMemPool_spec hctx hR₁ (locked_lockHeap (l := .gMutex)) hinit hoff) ?_
        fun _ _ hE => hE)
      rintro ret s₂ ⟨hR₂, hK₂, ⟨rfl, a, hpools⟩ | ⟨rfl, hT⟩⟩
      · refine hrest 0 s₂ hR₂ hK₂ (.inl ⟨rfl, ?_⟩)
        rw [Heap.remaining, hpools]
        refine add_guard_le_poolSizeOf ?_ (le_max_right _ n)
        rw [hn]
        exact Nat.mod_eq_zero_of_dvd (pow_dvd_pow 2 hk : 2 ^ 12 ∣ 2 ^ k)
      · exact hrest (-1) s₂ hR₂ hK₂ (.inr ⟨rfl, hT⟩)
    · refine wp_bind (wp_pure (hrest 0 _ hR₁ .refl (.inl ⟨rfl, ?_⟩)))
      omega
  · exact .of_trouble hR.log_ok (fun hF => hr.gMutex hF hl) nofun nofun

end GuardRails
