import GuardRails.Spec.Drain
import GuardRails.Spec.Refill

/-!
# A refill meets the water marks

`replenishBin` either returns, and has then carved just the blocks that the marks ask for, or
it ends the process; but for one case: the dump that `addNewMemPool` starts for lack of memory
runs while `gMutex` is held, and a request that it makes may need this mutex again.
-/

namespace GuardRails

open ByteMemory StateHoare

variable {env : Env} {ctx : Ctx} {s s' : Heap} {i b : ℕ} {hs : List ℕ} {ret : ℤ}

def Halt.Ends (e : Halt) : Prop := e ≠ .deadlock ∧ e ≠ .hang

/-- A call of `replenishBin` that returned `ret` has carved the blocks `hs`, the last one first. -/
structure RefilledBy (s : Heap) (i b : ℕ) (hs : List ℕ) (ret : ℤ) (s' : Heap) : Prop where
  result : ret = 0 ∨ ret = -1
  /-- Blocks are carved only if the list was empty or shorter than the low-water mark. -/
  due : hs ≠ [] → (s.bin i b).headFree = 0 ∨ (s.bin i b).numFree < (s.bin i b).lowWater
  number : ret = 0 → hs.length = if s.Refills i b then
    max 1 ((s.bin i b).highWater - (s.bin i b).numFree) else 0
  label : ∀ h ∈ hs, fld s'.mem h .slotNum = i ∧ fld s'.mem h .binNum = b ∧
    fld s'.mem h .magic = magicFree
  drawn : poolsUsed s'.memPools = poolsUsed s.memPools + hs.length * (2 ^ b + guardSize)
  /-- The list of the bin grows by these blocks, the other lists stay. -/
  lists : ∀ r xs, HeaderList s.mem (s.head r) xs →
    HeaderList s'.mem (s'.head r) (if r = ⟨.free, i, b⟩ then hs ++ xs else xs)
  /-- Nothing else in the bins and slots changes. -/
  others : s'.memSlots = (s.addFree i b hs).memSlots
  ready : ret = 0 → (s'.bin i b).headFree ≠ 0 ∧
    ((s.bin i b).lowWater ≤ (s.bin i b).highWater → (s.bin i b).lowWater ≤ (s'.bin i b).numFree)

theorem list_refusalEvents {log : List Event} (r : HeadRef) :
    (ledger (refusalEvents ++ log)).list r = (ledger log).list r := rfl

/-- What the history and the pools say of a refill is what it has done. -/
theorem refilledBy (evs : List Event) (hR : Rep env 0 s) (hR' : Rep env 0 s') {p : Supply}
    (hD : Drawn p (evs ++ hs.flatMap (blockEvents i b)) (s.addFree i b hs) s')
    (hlist : ∀ log r, (ledger (evs ++ log)).list r = (ledger log).list r)
    (hused : poolsUsed p.pools = poolsUsed s.memPools + hs.length * (2 ^ b + guardSize))
    (hdue : hs ≠ [] → s.Refills i b) (hresult : ret = 0 ∨ ret = -1)
    (hnumber : ret = 0 → hs.length = if s.Refills i b then
      max 1 ((s.bin i b).highWater - (s.bin i b).numFree) else 0)
    (hhead : ret = 0 → (s'.bin i b).headFree ≠ 0) : RefilledBy s i b hs ret s' := by
  have hlog : s'.log = evs ++ hs.flatMap (blockEvents i b) ++ s.log := by
    obtain ⟨m, pages, rfl⟩ := hD
    rfl
  have hslots : s'.memSlots = (s.addFree i b hs).memSlots := by
    obtain ⟨m, pages, rfl⟩ := hD
    rfl
  have hlists : ∀ r, (ledger s'.log).list r =
      if r = ⟨.free, i, b⟩ then hs ++ (ledger s.log).list r else (ledger s.log).list r := by
    intro r
    rw [hlog, List.append_assoc, hlist, list_blockEvents]
  have hbin : (s'.bin i b).numFree = (s.bin i b).numFree + hs.length := by
    rw [hD.bin, bin_addFree]
  refine ⟨hresult, hdue, hnumber, fun h hh => ?_, ?_, fun r xs hxs => ?_, hslots, fun h0 => ⟨hhead h0, ?_⟩⟩
  · have hmem : h ∈ (ledger s'.log).list ⟨.free, i, b⟩ := by
      rw [hlists, if_pos rfl]
      exact List.mem_append_left _ hh
    have hL := hR'.log_ok.lawful.sound
    obtain ⟨B, hB, hplace, hslot, hbinNum⟩ := (hL.mem_list ⟨.free, i, b⟩ h).1 hmem
    have hok : HeaderOk env.args s'.mem h B := hR'.shape.blocks h B hB (by simp [hplace])
    have hlive : B.live ≠ true := fun hlive => by
      obtain ⟨-, q, -, hq, -⟩ := (hL.block_ok h B hB).live_owner hlive
      have := (hL.block_ok h B hB).request_place (by simp [hq])
      rw [hplace] at this
      cases this
    have hmagic := hok.magic
    rw [if_neg hlive] at hmagic
    exact ⟨hok.slotNum.trans hslot, hok.binNum.trans hbinNum, hmagic⟩
  · rw [← hused, ← hD.supply]
    rfl
  · have hr := hR'.shape.lists r
    rw [hlists] at hr
    rwa [hxs.unique (hR.shape.lists r)]
  · intro hle
    have hnum := hnumber h0
    rw [hbin]
    by_cases hrf : s.Refills i b
    · rw [if_pos hrf] at hnum
      omega
    · have : ¬ (s.bin i b).numFree < (s.bin i b).lowWater := fun h => hrf (.inr h)
      omega

theorem RefilledBy.refl (hR : Rep env 0 s) (hrf : ¬ s.Refills i b) : RefilledBy s i b [] 0 s := by
  have hD : Drawn s.supply ([] ++ ([] : List ℕ).flatMap (blockEvents i b)) (s.addFree i b []) s := by
    rw [addFree_nil]
    exact ⟨s.mem, s.pages, rfl⟩
  have hused : poolsUsed s.supply.pools = poolsUsed s.memPools + 0 * (2 ^ b + guardSize) := by
    rw [Nat.zero_mul]
    rfl
  exact refilledBy [] hR hR hD (fun _ _ => rfl) hused (absurd rfl) (.inl rfl)
    (fun _ => (if_neg hrf).symm) fun _ h0 => hrf (.inl h0)

/-- A call that returns has done what the marks ask for; one that halts has failed an assertion
or is in the dump for lack of memory. -/
theorem replenishBin_refilledBy (hctx : ctx.Ok env) (hcalm : env.CalmFrom s.clock) (hR : Rep env 0 s)
    (hinit : s.isInit = true ∨ s.initMutex.locked = true) (hb : 12 ≤ b) (hb' : b < 40)
    (hi : i < env.args.numSlots) (hlock : (s.mutex (.slot i)).locked = true)
    (hg : s.gMutex.locked = false) :
    wp (replenishBin ctx i b)
      (fun ret s' => (∃ hs, RefilledBy s i b hs ret s') ∧ s.refillDump ctx i b = none)
      (fun e s' => StopsAs ctx (s.refillDump ctx i b) e s' ∧
        (¬ s.RefillDumps env i b → s.refillDump ctx i b = none)) s := by
  have hn : 2 ^ b % 4096 = 0 := Nat.mod_eq_zero_of_dvd (pow_dvd_pow 2 hb : 2 ^ 12 ∣ 2 ^ b)
  have hr : Ready env False s := ⟨nofun, hinit, nofun⟩
  have hc : InCall env False 0 ∅ s s := .refl hR hr
  have hspec := replenishBin_spec (G := False) hctx (fun _ => rfl) hb nofun nofun nofun hlock hc
  refine wp_mono (wp_and hspec (replenishBin_run hctx hcalm le_rfl hb hb' hi hg hlock hc)) ?_
    fun _ _ h => h.2.2.2
  rintro ret s' ⟨⟨-, -, hrefilled⟩, hdone, hfull, hdump⟩
  have hR' : Rep env 0 s' := hrefilled.call.rep
  refine ⟨?_, hdump⟩
  by_cases hrf : s.Refills i b
  · have hIs := hdone hrf
    unfold Heap.refillAt at hIs
    cases hans : Supply.fill env (2 ^ b) (max 1 ((s.bin i b).highWater - (s.bin i b).numFree))
        ⟨s.memPools, s.clock⟩ with
    | granted hs p =>
        rw [hans] at hIs
        obtain ⟨rfl, hhead, hD⟩ := hIs
        obtain ⟨hlen, htaken⟩ := Supply.fill_taken hn hR.sane hans
        refine ⟨hs, refilledBy [] hR hR' hD (fun _ _ => rfl) ?_ (fun _ => hrf) (.inl rfl)
          (fun _ => ?_) fun _ => hhead⟩
        · rw [hlen]
          exact htaken.used
        · rw [if_pos hrf, hlen]
    | refused hs p =>
        rw [hans] at hIs
        obtain ⟨rfl, hD⟩ := hIs
        obtain ⟨-, hused⟩ := Supply.fill_refused_used hn hR.sane hans
        exact ⟨hs, refilledBy refusalEvents hR hR' hD (fun _ => list_refusalEvents) hused
          (fun _ => hrf) (.inr rfl) nofun nofun⟩
    | stopped =>
        rw [hans] at hIs
        exact hIs.elim
  · obtain ⟨rfl, rfl⟩ := hfull hrf
    exact ⟨[], .refl hR hrf⟩

def oomDump (ctx : Ctx) : M Unit := do
  ctx.printf
  ctx.onExitHelper false 0

theorem outOfMemory_eq (site : Site) : outOfMemory ctx site = (do oomDump ctx; throw (.abort site)) := by
  simp only [outOfMemory, oomDump, bind_assoc]

/-- A refill ends when the dump for lack of memory ends, if it comes to that. -/
theorem replenishBin_ends_iff (hctx : ctx.Ok env) (hcalm : env.CalmFrom s.clock) (hR : Rep env 0 s)
    (hinit : s.isInit = true ∨ s.initMutex.locked = true) (hb : 12 ≤ b) (hb' : b < 40)
    (hi : i < env.args.numSlots) (hlock : (s.mutex (.slot i)).locked = true) :
    wp (replenishBin ctx i b) (fun ret s' => ∃ hs, RefilledBy s i b hs ret s') (fun e _ => e.Ends) s ↔
      (s.Refills i b → s.gMutex.locked = false ∧ ∀ x, s.refillDump ctx i b = some x →
        wp (oomDump ctx) (fun _ _ => True) (fun e _ => e.Ends) x) := by
  have hends : ∀ site, (Halt.abort site).Ends := fun _ => ⟨nofun, nofun⟩
  constructor
  · intro hwp hrf
    have hg : s.gMutex.locked = false := by
      refine Bool.eq_false_iff.2 fun hg => ?_
      obtain ⟨e, s', hrun, rfl⟩ := wp_halts (replenishBin_held hctx.env_eq hcalm hb hb' hi hlock hR hrf hg)
      exact (wp_error hwp hrun).1 rfl
    refine ⟨hg, fun x hx => wp_run (fun _ _ _ => trivial) fun e s' hrun => ?_⟩
    have hspec := wp_and hwp (replenishBin_refilledBy hctx hcalm hR hinit hb hb' hi hlock hg)
    rw [hx] at hspec
    cases hcall : replenishBin ctx i b s with
    | ok ret s'' => exact absurd (wp_ok hspec hcall).2.2 nofun
    | error e' s'' =>
        obtain ⟨hends', ⟨site, hsite⟩, -⟩ := wp_error hspec hcall
        rw [outOfMemory_eq, run_bind_error hrun] at hsite
        cases hsite
        exact hends'
  · intro hcond
    by_cases hrf : s.Refills i b
    · obtain ⟨hg, hdump⟩ := hcond hrf
      refine wp_mono (replenishBin_refilledBy hctx hcalm hR hinit hb hb' hi hlock hg)
        (fun _ _ h => h.1) fun e s' ⟨hstops, _⟩ => ?_
      cases hx : s.refillDump ctx i b with
      | none =>
          rw [hx] at hstops
          obtain ⟨site, rfl⟩ := hstops
          exact hends site
      | some x =>
          rw [hx] at hstops
          obtain ⟨site, hsite⟩ := hstops
          have hall : wp (outOfMemory ctx site) (fun _ _ => True) (fun e _ => e.Ends) x := by
            rw [outOfMemory_eq]
            exact wp_bind_of (hdump x hx) fun _ _ _ => wp_throw (hends site)
          have hend := wp_error hall hsite
          exact hend
    · refine wp_replenishBin hctx.env_eq hcalm le_rfl hb hb' hi hlock hR (fun h => absurd h hrf) fun _ => ?_
      exact ⟨[], .refl hR hrf⟩

theorem refillDump_none (hctx : ctx.Ok env) (hcalm : env.CalmFrom s.clock) (hR : Rep env 0 s)
    (hinit : s.isInit = true ∨ s.initMutex.locked = true) (hb : 12 ≤ b) (hb' : b < 40)
    (hi : i < env.args.numSlots) (hlock : (s.mutex (.slot i)).locked = true)
    (hg : s.gMutex.locked = false) (hno : ¬ s.RefillDumps env i b) : s.refillDump ctx i b = none := by
  have hspec := replenishBin_refilledBy hctx hcalm hR hinit hb hb' hi hlock hg
  cases hrun : replenishBin ctx i b s with
  | ok ret s' => exact (wp_ok hspec hrun).2
  | error e s' => exact (wp_error hspec hrun).2 hno

/-- A refill that is due needs `gMutex`, and is done or ends the process unless `-a` or `-m` asks
for a dump when a pool is refused or cannot be locked in memory. -/
theorem refill_meets_marks (hctx : ctx.Ok env) (hcalm : env.CalmFrom s.clock) (hR : Rep env 0 s)
    (hinit : s.isInit = true ∨ s.initMutex.locked = true) (hb : 12 ≤ b) (hb' : b < 40)
    (hi : i < env.args.numSlots) (hlock : (s.mutex (.slot i)).locked = true) :
    ((s.Refills i b → s.gMutex.locked = false ∧ ¬ s.RefillDumps env i b) →
      wp (replenishBin ctx i b) (fun ret s' => ∃ hs, RefilledBy s i b hs ret s')
        (fun e _ => e.Ends) s) ∧
    (wp (replenishBin ctx i b) (fun ret s' => ∃ hs, RefilledBy s i b hs ret s') (fun e _ => e.Ends) s →
      s.Refills i b → s.gMutex.locked = false) := by
  have hiff := replenishBin_ends_iff hctx hcalm hR hinit hb hb' hi hlock
  refine ⟨fun hcond => hiff.2 fun hrf => ?_, fun hwp hrf => (hiff.1 hwp hrf).1⟩
  obtain ⟨hg, hno⟩ := hcond hrf
  have hnone := refillDump_none hctx hcalm hR hinit hb hb' hi hlock hg hno
  exact ⟨hg, fun x hx => absurd (hnone.symm.trans hx) nofun⟩

/-- A slot is locked between two calls. -/
theorem Proc.Idle.lockSlot {room : ℕ} {st : Proc} (h : st.Idle env room)
    (hslots : 0 < env.args.numSlots) : ∃ s, s = st.heap.lockHeap (.slot 0) ∧ Rep env 0 s ∧
      s.isInit = true ∧ (s.mutex (.slot 0)).locked = true ∧ s.gMutex.locked = false ∧
      ∀ c, s.bin 0 c = st.heap.bin 0 c := by
  have hR := h.inv.rep
  have hkind := (hR.shape.locks.slot 0).kind
  rw [hR.shape.args_eq, decide_eq_true hslots] at hkind
  exact ⟨_, rfl, hR.lockHeap fun _ => hkind, h.inv.isInit, locked_lockHeap, h.inv.gMutex,
    bin_lockHeap _ _ _⟩

theorem refill_meets_marks_low : ∃ s, s.Refills 0 17 ∧
    wp (replenishBin (ctxOf (Env.still .defaults) 1) 0 17)
      (fun ret s' => ∃ hs, RefilledBy s 0 17 hs ret s') (fun e _ => e.Ends) s := by
  obtain ⟨st, P, -, hdry, hnum, -⟩ := exists_drained 1
  obtain ⟨s, -, hR, hinit, hlock, hg, hbin⟩ := hdry.idle.lockSlot (by decide)
  have hrf : s.Refills 0 17 := by
    have hmark : (st.heap.bin 0 17).lowWater = 100 := hdry.booted.lowWater 17
    refine .inr ?_
    rw [hbin]
    omega
  exact ⟨s, hrf, (refill_meets_marks (ctxOf_ok _ 1) (fun _ _ _ => rfl) hR (.inl hinit) (by decide)
    (by decide) (by decide) hlock).1 fun _ => ⟨hg, fun h => Supply.not_fillDumps rfl rfl h.2⟩⟩

/-! ## A dump that needs `gMutex` -/

/-- The dump asks first for a block of a bin that is due for a refill. -/
theorem oomDump_held {depth alignment usrSize : ℕ} {bt : List ℕ} {calls : List StdioCall}
    (hcalm : env.Calm) (hquiet : env.Quiet)
    (hfile : env.fileIO (s.clock + 1) = .alloc bt alignment usrSize :: calls) (hR : Rep env 0 s)
    (hinit : s.isInit = true) (hg : s.gMutex.locked = true) (hslots : 0 < env.args.numSlots)
    (hb : b = classOf env.args alignment usrSize) (hb₂ : b < 40)
    (hrefill : s.Refills (env.slotFor (s.clock + 2) usrSize) b) :
    wp (oomDump (ctxOf env (depth + 1))) (fun _ _ => False) (fun e _ => e = .deadlock) s := by
  have hctx : (ctxOf env depth).env = env := (ctxOf_ok env depth).env_eq
  have hheld := memalignInt_held bt hctx hcalm
    (hR.neutral (e := .dumpBegun) trivial (s.clock + 2)) hinit hg hslots hb hb₂ hrefill
  unfold oomDump
  refine wp_bind (wp_bind (wp_tick ?_))
  rw [hctx, hquiet]
  refine wp_pure (wp_bind (wp_emit (wp_bind ?_)))
  unfold onExitHelperBody
  refine wp_bind (wp_bind (wp_tick ?_))
  rw [hctx]
  dsimp only
  rw [hfile]
  exact wp_bind (wp_mono hheld (fun _ _ h => h.elim) fun _ _ h => h)

/-- A system with 4 GiB of memory, in which a dump opens a file through a buffered stream. -/
def Env.oom : Env :=
  { Env.still { GRArgs.defaults with abortOnOOM := true } with
    rlimAs := fun _ => 2 ^ 64 - 1
    fileIO := fun _ => [.alloc [] 16 552] }

theorem Env.oom_ok : Env.oom.Ok where
  args := ⟨by decide, by decide, by decide⟩
  stdio t c hc := by
    obtain rfl : c = .alloc [] 16 552 := by simpa [Env.oom, Env.still] using hc
    exact ⟨by decide, by decide⟩
  signals _ _ _ := rfl

theorem Env.oom_undisturbed : Env.oom.Undisturbed where
  calm _ _ := rfl
  mmap _ := rfl
  mlock _ := rfl
  mprotect _ := rfl
  numSlots := rfl
  interval := rfl
  limit := rfl

/-- A client has made so many small allocations that their bin is one below its low-water mark. -/
theorem exists_low : ∃ st P, Reachable Env.oom 1 st ∧ st.Dry Env.oom P ∧
    (st.heap.bin 0 12).numFree = 99 := by
  have hu := Env.oom_undisturbed
  have hfits : (Call.malloc 24).Fits Env.oom.args := fun n hn => by
    have h : (Call.malloc 24).Fits (Env.still .defaults).args := fits_defaults (by decide)
    exact ⟨(h n hn).slots, (h n hn).size⟩
  have hclass : 12 = classOf Env.oom.args (Call.malloc 24).alignment 24 := by decide
  obtain ⟨s, P, hs, h, hroom⟩ := boot_dry Env.oom_ok hu.toGranting 1
  have hr : Reachable Env.oom 1 ⟨s, []⟩ := ⟨s, [], hs, .refl⟩
  obtain ⟨st₁, Q, hr₁, hdry, hnum, -, hheld⟩ := h.stock hr hu (by decide) hfits hclass (by decide) hroom
  obtain ⟨st₂, hr₂, hdry₂, hnum₂, -⟩ :=
    hdry.lower hr₁ hu (by decide) hfits hclass (by decide) hnum hheld
  exact ⟨st₂, Q, hr₂, hdry₂, hnum₂⟩

/-- The refill of a bin of large blocks starts its dump at once. -/
theorem refillDump_oom (hR : Rep Env.oom 0 s) (hone : s.OnePool) (hhigh : (s.bin 0 39).highWater = 0) :
    s.refillDump (ctxOf Env.oom 1) 0 39 = some
      { s.lockHeap .gMutex with
        clock := (s.lockHeap .gMutex).clock + 2
        log := .mmapFailed :: (s.lockHeap .gMutex).log } := by
  have hrf : s.Refills 0 39 := .inl (hR.headFree_large hone (by decide))
  have hroom : s.remaining < 2 ^ 39 + guardSize := lt_of_le_of_lt (hR.remaining_le hone) (by decide)
  have hoffer : (s.lockHeap .gMutex).supply.offer Env.oom
      (poolSizeOf (max mempoolMinExpandSize (2 ^ 39))) = none := by
    refine Option.filter_some_neg ?_
    have hnot : ¬ Granted (s.lockHeap .gMutex).supply.pools topRegion
        (poolSizeOf (max mempoolMinExpandSize (2 ^ 39))) := fun ⟨_, _, hle, _⟩ => absurd hle (by decide)
    simpa using hnot
  have hdraw : s.drawDump Env.oom (2 ^ 39) = some
      { s.lockHeap .gMutex with
        clock := (s.lockHeap .gMutex).clock + 2
        log := .mmapFailed :: (s.lockHeap .gMutex).log } := by
    unfold Heap.drawDump
    have hlimit : max mempoolMinExpandSize (2 ^ 39) < 2 ^ 64 - 1 := by decide
    rw [if_pos hroom, dumpAt_none hoffer, if_pos ⟨rfl, hlimit⟩]
  have henv : (ctxOf Env.oom 1).env = Env.oom := rfl
  unfold Heap.refillDump
  rw [if_pos hrf, hhigh, Nat.zero_sub, max_eq_left (Nat.zero_le 1), Heap.fillDump, henv, hdraw]

/-- A client with 101 small allocations asks for `2 ^ 38` bytes; the dump that follows needs a
block of the bin that it has drained. -/
theorem refill_hangs : ∃ st s', Reachable Env.oom 1 st ∧
    replenishBin (ctxOf Env.oom 1) 0 39 (st.heap.lockHeap (.slot 0)) = .error .deadlock s' := by
  have hu := Env.oom_undisturbed
  obtain ⟨st, P, hr, hdry, hnum⟩ := exists_low
  obtain ⟨s, hs, hR, hinit, hlock, hg, hbin⟩ := hdry.idle.lockSlot (by decide)
  have hone : s.OnePool := by
    rw [hs]
    exact hdry.onePool
  have hhigh : (s.bin 0 39).highWater = 0 := by
    rw [hbin]
    exact hdry.booted.highWater 39
  have hlow : s.Refills 0 12 := by
    have hmark : (st.heap.bin 0 12).lowWater = 100 := hdry.booted.lowWater 12
    refine .inr ?_
    rw [hbin]
    omega
  have hheld' : (s.lockHeap .gMutex).gMutex.locked = true := locked_lockHeap (l := .gMutex)
  have hRx := (hR.lockHeap (l := .gMutex) fun h => absurd (hg.symm.trans h) nofun).neutral
    (e := .mmapFailed) trivial ((s.lockHeap .gMutex).clock + 2)
  have hheld : wp (oomDump (ctxOf Env.oom (0 + 1))) _ _
      { s.lockHeap .gMutex with
        clock := (s.lockHeap .gMutex).clock + 2
        log := .mmapFailed :: (s.lockHeap .gMutex).log } :=
    oomDump_held hu.calm (fun _ => rfl) rfl hRx hinit hheld' (by decide)
      (by decide : 12 = classOf Env.oom.args 16 552) (by decide) hlow
  obtain ⟨e, x', hdump, rfl⟩ := wp_halts hheld
  have hspec := replenishBin_refilledBy (ctxOf_ok Env.oom 1) (fun _ _ _ => rfl) hR (.inl hinit)
    (by decide : 12 ≤ 39) (by decide) (by decide) hlock hg
  rw [refillDump_oom hR hone hhigh] at hspec
  cases hrun : replenishBin (ctxOf Env.oom 1) 0 39 s with
  | ok ret s' => exact absurd (wp_ok hspec hrun).2 nofun
  | error e s' =>
      obtain ⟨⟨site, hsite⟩, -⟩ := wp_error hspec hrun
      rw [outOfMemory_eq, run_bind_error hdump] at hsite
      cases hsite
      exact ⟨st, x', hr, hs ▸ hrun⟩

end GuardRails
