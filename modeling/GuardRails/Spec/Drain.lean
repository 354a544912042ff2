import GuardRails.Spec.Exhausted
import GuardRails.Spec.Marks
import GuardRails.Spec.Shortage

/-!
# Running a pool dry

In an undisturbed system an allocation takes a block from the free list of its bin, or what
the refill cuts off the current pool. Requests of one class after the other use up the pool.
-/

namespace GuardRails

open ByteMemory StateHoare

variable {env : Env} {off : Off} {s s' : Heap} {ctx : Ctx} {bt : List ℕ} {i b m n usrSize depth : ℕ}
  {hs : List ℕ} {p : Supply} {evs : List Event} {P : MemPool} {st : Proc}

/-! ## What one pool supplies -/

theorem MemPool.cut_remaining (P : MemPool) (k : ℕ) :
    (P.cut k).remainingSizeBytes = P.remainingSizeBytes - k := rfl

theorem MemPool.cut_total (P : MemPool) (k : ℕ) :
    (P.cut k).totalSizeBytes = P.totalSizeBytes := rfl

theorem MemPool.cut_start (P : MemPool) (k : ℕ) : (P.cut k).start = P.start := rfl

def MemPool.cuts (P : MemPool) (k : ℕ) : ℕ → MemPool
  | 0 => P
  | m + 1 => (P.cut k).cuts k m

theorem MemPool.cuts_start (P : MemPool) (k m : ℕ) : (P.cuts k m).start = P.start := by
  induction m generalizing P with
  | zero => rfl
  | succ m ih =>
      rw [cuts, ih, cut_start]

theorem MemPool.cuts_total (P : MemPool) (k m : ℕ) :
    (P.cuts k m).totalSizeBytes = P.totalSizeBytes := by
  induction m generalizing P with
  | zero => rfl
  | succ m ih =>
      rw [cuts, ih, cut_total]

theorem MemPool.cuts_remaining (P : MemPool) (k m : ℕ) :
    (P.cuts k m).remainingSizeBytes = P.remainingSizeBytes - m * k := by
  induction m generalizing P with
  | zero => rw [cuts, Nat.zero_mul, Nat.sub_zero]
  | succ m ih =>
      rw [cuts, ih, cut_remaining, Nat.succ_mul]
      omega

theorem Supply.take_of_room (hprot : ∀ t, env.mprotect t = true) {t : ℕ} {Ps : List MemPool}
    (hroom : ¬ P.remainingSizeBytes < n + guardSize) :
    Supply.take env n ⟨P :: Ps, t⟩ =
      .granted P.startFree ⟨P.cut (n + guardSize) :: Ps, t + 1 + 1⟩ := by
  unfold Supply.take Supply.cut
  simp only [List.head?_cons, Option.elim_some, hroom, hprot, if_true, if_false]

/-- There is room for the row in the current pool. -/
theorem Supply.fill_of_room (hprot : ∀ t, env.mprotect t = true) {t : ℕ} {Ps : List MemPool}
    (hroom : m * (n + guardSize) ≤ P.remainingSizeBytes) :
    ∃ hs t', Supply.fill env n m ⟨P :: Ps, t⟩ =
      .granted hs ⟨P.cuts (n + guardSize) m :: Ps, t'⟩ ∧ hs.length = m := by
  induction m generalizing P t with
  | zero => exact ⟨[], t, rfl, rfl⟩
  | succ m ih =>
      have htake : ∀ t, ¬ P.remainingSizeBytes < n + guardSize → Supply.take env n ⟨P :: Ps, t⟩ =
          .granted P.startFree ⟨P.cut (n + guardSize) :: Ps, t + 1 + 1⟩ :=
        fun t => take_of_room hprot
      generalize n + guardSize = k at *
      rw [Nat.succ_mul] at hroom
      have hroom' : m * k ≤ (P.cut k).remainingSizeBytes := by
        rw [MemPool.cut_remaining]
        omega
      obtain ⟨hs, t', hfill, hlen⟩ := ih (t := t + 1 + 1) hroom'
      refine ⟨hs ++ [P.startFree], t', ?_, by simp [hlen]⟩
      rw [Supply.fill, htake t (by omega)]
      dsimp only
      rw [hfill]
      rfl

/-- There is no room for the row, and no other pool to be had. -/
theorem Supply.fill_short (hprot : ∀ t, env.mprotect t = true)
    (hoom : env.args.abortOnOOM = false) {t : ℕ} {Ps : List MemPool}
    (hoffer : ∀ (Q : MemPool) (t size : ℕ), Q.start = P.start →
      Q.totalSizeBytes = P.totalSizeBytes → 0 < size → Supply.offer env size ⟨Q :: Ps, t⟩ = none)
    (hroom : P.remainingSizeBytes < m * (n + guardSize)) :
    ∃ hs q, Supply.fill env n m ⟨P :: Ps, t⟩ = .refused hs q ∧
      (n + guardSize ≤ P.remainingSizeBytes → hs ≠ []) := by
  induction m generalizing P t with
  | zero =>
      rw [Nat.zero_mul] at hroom
      exact absurd hroom (Nat.not_lt_zero _)
  | succ m ih =>
      by_cases hlt : P.remainingSizeBytes < n + guardSize
      · have hnone := hoffer P (t + 1) (poolSizeOf (max mempoolMinExpandSize n)) rfl rfl
          (by unfold poolSizeOf; omega)
        refine ⟨[], ⟨P :: Ps, t + 1 + 2⟩, ?_, fun hle => absurd hlt (not_lt.2 hle)⟩
        rw [Supply.fill]
        unfold Supply.take Supply.grow
        simp only [List.head?_cons, Option.elim_some, hlt, hnone, hoom, if_true]
        rfl
      · rw [Supply.fill, take_of_room hprot hlt]
        dsimp only
        have hroom' : (P.cut (n + guardSize)).remainingSizeBytes < m * (n + guardSize) := by
          rw [MemPool.cut_remaining]
          rw [Nat.succ_mul] at hroom
          omega
        have hoffer' : ∀ (Q : MemPool) (t size : ℕ), Q.start = (P.cut (n + guardSize)).start →
            Q.totalSizeBytes = (P.cut (n + guardSize)).totalSizeBytes → 0 < size →
            Supply.offer env size ⟨Q :: Ps, t⟩ = none := fun Q t size hQ hQ' =>
          hoffer Q t size (hQ.trans (P.cut_start _)) (hQ'.trans (P.cut_total _))
        obtain ⟨hs, q, hfill, -⟩ := ih (t := t + 1 + 1) hoffer' hroom'
        rw [hfill]
        exact ⟨hs ++ [P.startFree], q, rfl, fun _ =>
          List.append_ne_nil_of_right_ne_nil hs (List.cons_ne_nil _ _)⟩

/-- The system has one region for pools only. -/
theorem Env.Undisturbed.offer (henv : env.Undisturbed) {t size : ℕ} {Ps : List MemPool}
    (hstart : P.start = topRegion) (htotal : 0 < P.totalSizeBytes) (hsize : 0 < size) :
    Supply.offer env size ⟨P :: Ps, t⟩ = none := by
  unfold Supply.offer
  rw [henv.mmap]
  refine Option.filter_some_neg (decide_eq_false fun hg => ?_)
  rcases hg.2.2.2 P List.mem_cons_self with h | h
  · omega
  · omega

/-! ## An allocation that draws on the pool -/

/-- The refill for a request of `usrSize` bytes gets the blocks `hs`, or none are needed. -/
def Heap.Draws (env : Env) (s : Heap) (b usrSize : ℕ) (hs : List ℕ) (p : Supply) : Prop :=
  (s.Refills 0 b ∧ s.refillAt env 0 b (slotTime s.clock usrSize + 1) = .granted hs p) ∨
    (¬ s.Refills 0 b ∧ hs = [] ∧ p.pools = s.memPools)

theorem plain_blockEvents : ∀ e ∈ hs.flatMap (blockEvents i b), e.Plain := by
  intro e he
  obtain ⟨h, -, hmem⟩ := List.mem_flatMap.1 he
  simp only [blockEvents, List.mem_cons, List.not_mem_nil, or_false] at hmem
  rcases hmem with rfl | rfl | rfl | rfl | rfl <;> trivial

theorem Drawn.emits (h : Drawn p evs (s.addFree i b hs) s') (hplain : ∀ e ∈ evs, e.Plain) :
    Emits evs s s' := by
  have hfree : Emits [] s (s.addFree i b hs) := .updBin fun _ => ⟨rfl, rfl⟩
  obtain ⟨m, pages, rfl⟩ := h
  rw [← List.append_nil evs]
  refine hfree.trans ⟨?_, hplain, rfl, rfl, id, fun _ _ => ⟨rfl, rfl⟩⟩
  rw [List.append_nil]
  rfl

/-- A request for which the bin has a block, or gets one. -/
theorem claimBuf_draws (hctx : ctx.Ok env) (henv : env.Granting) (hR : Rep env 0 s)
    (hr : Ready env False s) (hg : s.gMutex.locked = false) (hb : 12 ≤ b) (hb' : b < 40)
    (hdraws : s.Draws env b usrSize hs p) :
    wp (claimBuf ctx bt b usrSize)
      (fun r s' => s'.memPools = p.pools ∧ ∃ hdr, r = (0, some hdr) ∧
        Emits (claimEvents bt usrSize b hdr ++ (hs.flatMap (blockEvents 0 b) ++ [.acquired (.slot 0)]))
          s s')
      (Unexcused s) s := by
  have hctx' := hctx.env_eq
  have hpoll : ∀ {line s}, ctx.env.sigusr2 line s ≠ true := henv.quiet hctx'
  have hslots : 0 < env.args.numSlots := by
    rw [henv.numSlots]
    decide
  have hslot : env.slotFor s.clock usrSize = 0 := by
    unfold Env.slotFor
    rw [henv.numSlots, Nat.mod_one, ite_self]
  unfold claimBuf
  refine wp_bind (wp_poll ?_ fun h => absurd h hpoll)
  refine wp_bind_of (pickSlot_run hctx' hR.shape.args_eq hslots) ?_
  rintro _ s₁ ⟨rfl, hs₁⟩
  rw [hslot]
  have hR₁ : Rep env 0 s₁ := hs₁ ▸ hR.tick _
  have hr₁ : Ready env False s₁ := by
    subst hs₁
    exact ⟨hr.gMutex, hr.init, hr.calm⟩
  have h₁ : Emits [] s s₁ := by
    rw [hs₁]
    exact ⟨rfl, by simp, rfl, rfl, id, fun _ _ => ⟨rfl, rfl⟩⟩
  refine wp_bind (wp_poll ?_ fun h => absurd h hpoll)
  refine wp_bind (wp_pthreadMutexLock (fun hl => ?_) fun _ _ => h₁.unexcused (.of_log rfl))
  have h₂ := h₁.trans (emits_lockHeap (l := .slot 0))
  have hclock₂ : (s₁.lockHeap (.slot 0)).clock = slotTime s.clock usrSize + 1 := by
    rw [hs₁]
    rfl
  have hpools₂ : (s₁.lockHeap (.slot 0)).memPools = s.memPools := by
    rw [hs₁]
    rfl
  have hbin₂ : (s₁.lockHeap (.slot 0)).bin 0 b = s.bin 0 b := by
    rw [bin_lockHeap, hs₁]
  have hrefills : (s₁.lockHeap (.slot 0)).Refills 0 b ↔ s.Refills 0 b := by
    unfold Heap.Refills
    rw [hbin₂]
  have hrefill : (s₁.lockHeap (.slot 0)).refillAt env 0 b (s₁.lockHeap (.slot 0)).clock =
      s.refillAt env 0 b (slotTime s.clock usrSize + 1) := by
    unfold Heap.refillAt
    rw [hbin₂, hclock₂, hpools₂]
  have hg₂ : (s₁.lockHeap (.slot 0)).gMutex.locked = false := by
    rw [hs₁]
    exact hg
  have hc₂ : InCall env False 0 ∅ (s₁.lockHeap (.slot 0)) (s₁.lockHeap (.slot 0)) :=
    .refl (hR₁.lockHeap hl) (hr₁.lockHeap 0)
  refine wp_bind (wp_poll ?_ fun h => absurd h hpoll)
  have hrun := replenishBin_run hctx (fun line t _ => henv.calm line t) le_rfl hb hb' hslots
    hg₂ locked_lockHeap hc₂
  rw [hrefills, hrefill] at hrun
  refine wp_bind (wp_mono hrun ?_ ?_)
  case refine_2 =>
    rintro _ _ ⟨hrf, hstop, -⟩
    rcases hdraws with ⟨-, hgr⟩ | ⟨hn, -⟩
    · rw [hgr] at hstop
      cases hstop
    · exact absurd hrf hn
  rintro ret s₃ ⟨hdone, hfull, -⟩
  have h₃ : ret = 0 ∧ s₃.memPools = p.pools ∧
      Emits (hs.flatMap (blockEvents 0 b)) (s₁.lockHeap (.slot 0)) s₃ := by
    rcases hdraws with ⟨hrf, hgr⟩ | ⟨hn, rfl, hp⟩
    · have hIs := hdone hrf
      rw [hgr] at hIs
      obtain ⟨rfl, -, hD⟩ := hIs
      exact ⟨rfl, congrArg Supply.pools hD.supply, hD.emits plain_blockEvents⟩
    · obtain ⟨rfl, rfl⟩ := hfull hn
      exact ⟨rfl, hpools₂.trans hp.symm, .refl⟩
  obtain ⟨rfl, hpools₃, he₃⟩ := h₃
  have h₃ := h₂.trans he₃
  refine wp_bind (wp_poll (wp_ite (fun h => absurd rfl h) fun _ => ?_) fun h => absurd h hpoll)
  refine wp_bind (wp_mono (takeBlock_emits hctx' henv) ?_ fun _ _ hE => h₃.unexcused hE)
  rintro hdr s₄ ⟨-, hpools₄, he₄⟩
  refine (h₃.trans he₄).bind (logs_countAlloc hctx' henv) fun _ s₅ h₅ hs₅ => wp_pure ⟨?_, hdr, rfl, h₅⟩
  rw [hs₅.memPools, hpools₄, hpools₃]

theorem getBuf_draws (hctx : ctx.Ok env) (henv : env.Granting) {allocSize : ℕ}
    (hR : Rep env 0 s) (hr : Ready env False s) (hg : s.gMutex.locked = false)
    (hin : Unlimited ctx bt b usrSize s)
    (halloc : allocSize < 2 ^ 64) (hb : b = log2fast (max pageSize allocSize)) (hb' : b < 40)
    (hdraws : s.Draws env b usrSize hs p) :
    wp (getBuf ctx bt allocSize usrSize)
      (fun r s' => r.2 = r.1 + 2 ^ b ∧ s'.memPools = p.pools ∧
        Emits (bufEvents bt usrSize b r.1 ++ (hs.flatMap (blockEvents 0 b) ++ [.acquired (.slot 0)]))
          s s')
      (Unexcused s) s := by
  have hb12 : 12 ≤ b := by
    have : max pageSize allocSize = max 4096 allocSize := rfl
    rw [hb]
    exact le_log2fast_page (by omega) (by omega)
  rw [getBuf_eq, ← hb]
  refine wp_bind (wp_mono (wp_and (claimBuf_draws hctx henv hR hr hg hb12 hb' hdraws) hin) ?_
    fun _ _ hE => hE.1)
  rintro _ s₁ ⟨⟨hpools, hdr, rfl, h₁⟩, hin₁⟩
  refine wp_mono (handOut_emits hctx.env_eq henv (hin₁ nofun)) ?_ fun _ _ hE => h₁.unexcused hE
  rintro _ s₂ ⟨rfl, h₂, hs₂⟩
  exact ⟨rfl, hs₂.memPools.trans hpools, h₁.trans h₂⟩

/-- Without limits nothing is dumped. -/
theorem Env.Undisturbed.draws (henv : env.Undisturbed) (hctx : ctx.Ok env) (hR : Rep env 0 s)
    (hr : Ready env False s) (hg : s.gMutex.locked = false) (hlow : s.Low) (hb : 12 ≤ b) (hb' : b < 40)
    (hdraws : s.Draws env b usrSize hs p) : Unlimited ctx bt b usrSize s := by
  refine wp_mono (claimBuf_draws hctx henv.toGranting hR hr hg hb hb' hdraws) ?_ fun _ _ _ => trivial
  rintro _ s₁ ⟨-, hdr, rfl, he⟩ -
  exact henv.within (he.low hlow) (he.grArgs.trans hR.shape.args_eq) 0

/-- The history of an allocation that gets a block, or stops before it is filled in. -/
def drawEvents (bt : List ℕ) (usrSize b hdr : ℕ) (hs : List ℕ) : List Event :=
  bufEvents bt usrSize b hdr ++ (hs.flatMap (blockEvents 0 b) ++ [.acquired (.slot 0)])

theorem memalignInt_draws (hctx : ctx.Ok env) (henv : env.Granting) {alignment : ℕ}
    (hR : Rep env 0 s) (hinit : s.isInit = true) (hg : s.gMutex.locked = false)
    (hin : Unlimited ctx bt b usrSize s)
    (hb : b = classOf env.args alignment usrSize) (hb' : b < 40)
    (hdraws : s.Draws env b usrSize hs p) :
    wp (memalignInt ctx bt alignment usrSize)
      (fun _ s' => s'.memPools = p.pools ∧ ∃ hdr evs, (evs = [] ∨ ∃ a, evs = [.filled a]) ∧
        Emits (evs ++ drawEvents bt usrSize b hdr hs) s s')
      (Unexcused s) s := by
  have hr : Ready env False s := ⟨nofun, .inl hinit, nofun⟩
  unfold memalignInt
  refine wp_bind (wp_get ?_)
  extract_lets allocSize rest
  refine wp_bind (wp_get (wp_ite (fun h => absurd (hinit.symm.trans h) nofun) fun _ => ?_))
  have halloc : allocSize < 2 ^ 64 := Nat.mod_lt _ (by norm_num)
  have hclass : b = log2fast (max pageSize allocSize) := by
    rw [hb, classOf, ← hR.shape.args_eq]
  refine wp_bind_of (getBuf_draws hctx henv hR hr hg hin halloc hclass hb' hdraws) ?_
  rintro ⟨buf, endBuf⟩ s₁ ⟨-, hpools, he⟩
  refine wp_ite (fun h0 => ?_) fun _ => ?_
  · refine wp_bind (wp_get (wp_ite (fun _ => wp_throw (he.unexcused .refl)) fun _ => ?_))
    exact wp_pure ⟨hpools, buf, [], .inl rfl, he⟩
  · refine wp_mono fillBlock_emits ?_ fun _ _ hE => he.unexcused hE
    rintro _ s₂ ⟨-, hf, hs⟩
    exact ⟨hs.memPools.trans hpools, buf, _, .inr ⟨_, rfl⟩, he.trans hf⟩

theorem list_drawEvents {log evs : List Event} {hdr : ℕ} (hevs : evs = [] ∨ ∃ a, evs = [.filled a])
    (c : ℕ) : (ledger (evs ++ drawEvents bt usrSize b hdr hs ++ log)).list ⟨.free, 0, c⟩ =
      if c = b then (hs ++ (ledger log).list ⟨.free, 0, c⟩).erase hdr
      else (ledger log).list ⟨.free, 0, c⟩ := by
  have hfilled : (ledger (evs ++ drawEvents bt usrSize b hdr hs ++ log)).list ⟨.free, 0, c⟩ =
      (ledger (drawEvents bt usrSize b hdr hs ++ log)).list ⟨.free, 0, c⟩ := by
    rcases hevs with rfl | ⟨a, rfl⟩ <;> rfl
  have hlog : drawEvents bt usrSize b hdr hs ++ log = bufEvents bt usrSize b hdr ++
      (hs.flatMap (blockEvents 0 b) ++ (.acquired (.slot 0) :: log)) := by
    simp only [drawEvents, List.append_assoc, List.cons_append, List.nil_append]
  have hbuf : ∀ log' : List Event, (ledger (bufEvents bt usrSize b hdr ++ log')).list ⟨.free, 0, c⟩ =
      if c = b then ((ledger log').list ⟨.free, 0, c⟩).erase hdr
      else (ledger log').list ⟨.free, 0, c⟩ := by
    intro log'
    by_cases hc : c = b
    · subst hc
      simp [bufEvents, ledger, Ledger.step, Ledger.updBlock, Ledger.updList, Ledger.updCounted]
    · simp [bufEvents, ledger, Ledger.step, Ledger.updBlock, Ledger.updList, Ledger.updCounted, hc]
  rw [hfilled, hlog, hbuf, list_blockEvents, ledger_acquired]
  by_cases hc : c = b
  · rw [if_pos hc, if_pos hc, if_pos (by rw [hc])]
  · rw [if_neg hc, if_neg hc, if_neg (by simpa using hc)]

/-- The block that is taken was on the free list. -/
theorem mem_of_drawEvents {log evs : List Event} {hdr : ℕ} (hevs : evs = [] ∨ ∃ a, evs = [.filled a])
    (hl : Lawful (evs ++ drawEvents bt usrSize b hdr hs ++ log)) :
    hdr ∈ hs ++ (ledger log).list ⟨.free, 0, b⟩ := by
  have hlog : drawEvents bt usrSize b hdr hs ++ log = bufEvents bt usrSize b hdr ++
      (hs.flatMap (blockEvents 0 b) ++ (.acquired (.slot 0) :: log)) := by
    simp only [drawEvents, List.append_assoc, List.cons_append, List.nil_append]
  have hbuf : Lawful (bufEvents bt usrSize b hdr ++
      (hs.flatMap (blockEvents 0 b) ++ (.acquired (.slot 0) :: log))) := by
    rw [← hlog]
    rcases hevs with rfl | ⟨a, rfl⟩
    · exact hl
    · exact hl.1
  obtain ⟨⟨⟨⟨hrest, B, hB, hplace, hslot, hbin, -⟩, -⟩, -⟩, -⟩ := hbuf
  have hmem := (hrest.sound.mem_list ⟨.free, 0, b⟩ hdr).2 ⟨B, hB, hplace, hslot, hbin⟩
  change hdr ∈ (ledger (hs.flatMap (blockEvents 0 b) ++ (.acquired (.slot 0) :: log))).list _ at hmem
  rwa [list_blockEvents, if_pos rfl] at hmem

/-- A served request of class `b` leaves the bin with one block less than it had after the
refill, and the other bins as they were. -/
structure Drew (b : ℕ) (hs : List ℕ) (p : Supply) (s s' : Heap) : Prop where
  memPools : s'.memPools = p.pools
  numFree : (s'.bin 0 b).numFree + 1 = (s.bin 0 b).numFree + hs.length
  others : ∀ c ≠ b, (s'.bin 0 c).numFree = (s.bin 0 c).numFree
  water : ∀ c, (s'.bin 0 c).lowWater = (s.bin 0 c).lowWater ∧
    (s'.bin 0 c).highWater = (s.bin 0 c).highWater

theorem Proc.Idle.draws (h : st.Idle env 0) (depth : ℕ) (hu : env.Granting) (husr : usrSize < 2 ^ 64)
    (hfits : (Call.malloc usrSize).Fits env.args)
    (hb : b = classOf env.args (Call.malloc usrSize).alignment usrSize)
    (hin : Unlimited (ctxOf env depth) [] b usrSize st.heap)
    (hdraws : st.heap.Draws env b usrSize hs p) :
    ∃ ptr s', Step env depth st (.malloc usrSize) ⟨s', (ptr, usrSize) :: st.held⟩ ∧
      Proc.Idle env 0 ⟨s', (ptr, usrSize) :: st.held⟩ ∧ Drew b hs p st.heap s' ∧
      ∃ hdr evs, (evs = [] ∨ ∃ a, evs = [.filled a]) ∧
        s'.log = evs ++ drawEvents [] usrSize b hdr hs ++ st.heap.log := by
  have hp := h.pristine
  have hfit := hfits usrSize rfl
  obtain ⟨halign, -⟩ := Call.args_lt (show (Call.malloc usrSize).Ok st.held from husr) rfl
  have hspec : wp (memalignInt (ctxOf env depth) [] (Call.malloc usrSize).alignment usrSize) _
      (Halted env True True) st.heap :=
    memalignInt_outcome h.inv halign husr (fun _ => hfit) fun _ => hfit.class_lt
  obtain ⟨ptr, s', hrun, ho, hpools, hdr, evs, hevs, he⟩ := completes hp.plain hspec
    (memalignInt_draws (ctxOf_ok env depth) hu h.inv.rep h.inv.isInit h.inv.gMutex hin hb
      (hb ▸ hfit.class_lt) hdraws)
  have hp' : s'.Pristine env 0 := hp.emits he (Nat.zero_le _)
  have h0 : ptr ≠ 0 := by
    rintro rfl
    rcases ho with ⟨-, -, hT⟩ | ⟨h0, -⟩
    · exact absurd hT (not_trouble hp'.plain)
    · exact h0 rfl
  have hbook : (Call.malloc usrSize).book st.held ptr = (ptr, usrSize) :: st.held := if_neg h0
  have hinv := (h.inv.allocated (c := .malloc usrSize) ho rfl rfl).1
  have hstep : Step env depth st (.malloc usrSize) ⟨s', (Call.malloc usrSize).book st.held ptr⟩ :=
    ⟨husr, hrun⟩
  rw [hbook] at hinv hstep
  have hnum : ∀ c, (s'.bin 0 c).numFree = if c = b then
      ((hs ++ (ledger st.heap.log).list ⟨.free, 0, c⟩).erase hdr).length
      else ((ledger st.heap.log).list ⟨.free, 0, c⟩).length := by
    intro c
    rw [hinv.rep.numFree_eq rfl, he.log, list_drawEvents hevs]
    split <;> rfl
  refine ⟨ptr, s', hstep, ⟨hinv, hp'⟩, ⟨hpools, ?_, fun c hc => ?_, fun c => he.water 0 c⟩,
    hdr, evs, hevs, he.log⟩
  · have hmem : hdr ∈ hs ++ (ledger st.heap.log).list ⟨.free, 0, b⟩ :=
      mem_of_drawEvents hevs (he.log ▸ hinv.rep.log_ok.lawful)
    rw [hnum, if_pos rfl, List.length_erase_of_mem hmem, h.inv.rep.numFree_eq rfl,
      List.length_append]
    have := List.length_pos_of_mem hmem
    rw [List.length_append] at this
    omega
  · rw [hnum, if_neg hc, h.inv.rep.numFree_eq rfl]

/-! ## One pool -/

theorem Rep.headFree_eq_zero_iff (hR : Rep env 0 s) :
    (s.bin i b).headFree = 0 ↔ (s.bin i b).numFree = 0 := by
  rw [hR.numFree_eq rfl, List.length_eq_zero_iff]
  exact (hR.shape.lists ⟨.free, i, b⟩).head_eq_zero_iff

/-- A process between two calls that has one pool only. -/
structure Proc.Dry (env : Env) (P : MemPool) (st : Proc) : Prop where
  idle : st.Idle env 0
  pools : st.heap.memPools = [P]
  total : 0 < P.totalSizeBytes
  booted : st.heap.AsBooted

theorem Proc.Dry.start (h : st.Dry env P) : P.start = topRegion :=
  h.booted.start P (h.pools ▸ List.mem_singleton_self P)

theorem Proc.Dry.onePool (h : st.Dry env P) : st.heap.OnePool := by
  have hok := h.idle.inv.rep.shape.layout.pool P (h.pools ▸ List.mem_singleton_self P)
  have hend := hok.bounded
  have hstart := h.start
  unfold topRegion at hstart
  exact ⟨P, h.pools, by omega⟩

theorem boot_dry (henv : env.Ok) (hu : env.Granting) (depth : ℕ) :
    ∃ s P, boot env depth Heap.static = .ok () s ∧ Proc.Dry env P ⟨s, []⟩ ∧
      slotInitSize ≤ P.remainingSizeBytes := by
  obtain ⟨s, hs, hidle⟩ := boot_completes henv hu depth
  have hp := hidle.pristine
  have hpos : 0 < s.budget := lt_of_lt_of_le (by decide) hp.room
  obtain ⟨P, hP, -⟩ := Heap.onePool hpos
  have hrem : slotInitSize ≤ P.remainingSizeBytes := by
    have hle := hp.room.trans s.budget_le
    rwa [Heap.remaining, hP] at hle
  have hok := hidle.inv.rep.shape.layout.pool P (hP ▸ List.mem_singleton_self P)
  have htotal : 0 < P.totalSizeBytes := by
    have h1 := hok.startFree_eq
    have h2 := hok.start_le
    have h3 : 0 < slotInitSize := by decide
    omega
  refine ⟨s, P, hs, ⟨⟨hidle.inv, ?_⟩, hP, htotal, ?_⟩, hrem⟩
  · exact { hp with room := Nat.zero_le _ }
  · exact wp_ok (boot_asBooted hu) hs

structure Took (b k : ℕ) (st st' : Proc) : Prop where
  numFree : (st'.heap.bin 0 b).numFree + 1 = (st.heap.bin 0 b).numFree + k
  others : ∀ c ≠ b, (st'.heap.bin 0 c).numFree = (st.heap.bin 0 c).numFree
  held : st'.held ≠ []

/-- A served request leaves one pool. -/
theorem Proc.Dry.drew {Q : MemPool} {st' : Proc} (h : st.Dry env P) (hidle : st'.Idle env 0)
    (hd : Drew b hs p st.heap st'.heap) (hp : p.pools = [Q]) (hstart : Q.start = P.start)
    (htotal : Q.totalSizeBytes = P.totalSizeBytes) : st'.Dry env Q := by
  have hpools : st'.heap.memPools = [Q] := hd.memPools.trans hp
  refine ⟨hidle, hpools, htotal ▸ h.total, fun R hR => ?_, fun c => ?_, fun c => ?_⟩
  · obtain rfl := List.mem_singleton.1 (hpools ▸ hR)
    exact hstart.trans h.start
  · exact (hd.water c).1.trans (h.booted.lowWater c)
  · exact (hd.water c).2.trans (h.booted.highWater c)

theorem Proc.Dry.malloc {Q : MemPool} (h : st.Dry env P) (depth : ℕ) (hu : env.Granting)
    (husr : usrSize < 2 ^ 64) (hfits : (Call.malloc usrSize).Fits env.args)
    (hb : b = classOf env.args (Call.malloc usrSize).alignment usrSize)
    (hin : Unlimited (ctxOf env depth) [] b usrSize st.heap)
    (hdraws : st.heap.Draws env b usrSize hs p) (hp : p.pools = [Q]) (hstart : Q.start = P.start)
    (htotal : Q.totalSizeBytes = P.totalSizeBytes) :
    ∃ st', Step env depth st (.malloc usrSize) st' ∧ st'.Dry env Q ∧
      Took b hs.length st st' := by
  obtain ⟨ptr, s', hstep, hidle, hd, -⟩ := h.idle.draws depth hu husr hfits hb hin hdraws
  exact ⟨_, hstep, h.drew hidle hd hp hstart htotal, hd.numFree, hd.others, List.cons_ne_nil _ _⟩

theorem Proc.Dry.unlimited (h : st.Dry env P) (depth : ℕ) (hu : env.Undisturbed)
    (hfits : (Call.malloc usrSize).Fits env.args)
    (hb : b = classOf env.args (Call.malloc usrSize).alignment usrSize)
    (hdraws : st.heap.Draws env b usrSize hs p) : Unlimited (ctxOf env depth) bt b usrSize st.heap := by
  have hinv := h.idle.inv
  exact hu.draws (ctxOf_ok env depth) hinv.rep ⟨nofun, .inl hinv.isInit, nofun⟩ hinv.gMutex
    h.idle.pristine.low (hb ▸ le_classOf _ _ _) (hb ▸ (hfits usrSize rfl).class_lt) hdraws

/-- The bin has enough blocks. -/
theorem Proc.Dry.reuse (h : st.Dry env P) (depth : ℕ) (hu : env.Undisturbed)
    (husr : usrSize < 2 ^ 64) (hfits : (Call.malloc usrSize).Fits env.args)
    (hb : b = classOf env.args (Call.malloc usrSize).alignment usrSize)
    (hn : ¬ st.heap.Refills 0 b) :
    ∃ st', Step env depth st (.malloc usrSize) st' ∧ st'.Dry env P ∧
      Took b 0 st st' :=
  have hdraws : st.heap.Draws env b usrSize [] st.heap.supply := .inr ⟨hn, rfl, rfl⟩
  h.malloc depth hu.toGranting husr hfits hb (h.unlimited depth hu hfits hb hdraws) hdraws h.pools
    rfl rfl

/-- The only pool has enough room for the refill. -/
theorem Heap.draws_refill (hu : env.Granting) (hP : s.memPools = [P]) (hrf : s.Refills 0 b)
    (hm : m = max 1 ((s.bin 0 b).highWater - (s.bin 0 b).numFree))
    (hroom : m * (2 ^ b + guardSize) ≤ P.remainingSizeBytes) :
    ∃ hs t, hs.length = m ∧ s.Draws env b usrSize hs ⟨[P.cuts (2 ^ b + guardSize) m], t⟩ := by
  have hgranted : ∃ hs t, Supply.fill env (2 ^ b) m ⟨[P], slotTime s.clock usrSize + 1⟩ =
      .granted hs ⟨[P.cuts (2 ^ b + guardSize) m], t⟩ ∧ hs.length = m :=
    Supply.fill_of_room hu.mprotect hroom
  obtain ⟨hs, t, hfill, hlen⟩ := hgranted
  refine ⟨hs, t, hlen, .inl ⟨hrf, ?_⟩⟩
  unfold Heap.refillAt
  rw [← hm, hP]
  exact hfill

/-- A request of a class without water marks takes at most one block off the pool. -/
theorem Heap.draws_one (hu : env.Granting) (hP : s.memPools = [P]) (hhigh : (s.bin 0 b).highWater = 0)
    (hroom : 2 ^ b + guardSize ≤ P.remainingSizeBytes) :
    ∃ hs p Q, s.Draws env b usrSize hs p ∧ p.pools = [Q] ∧ Q.start = P.start ∧
      Q.totalSizeBytes = P.totalSizeBytes ∧
      P.remainingSizeBytes - (2 ^ b + guardSize) ≤ Q.remainingSizeBytes := by
  by_cases hrf : s.Refills 0 b
  · obtain ⟨hs, t, -, hdraws⟩ : ∃ hs t, hs.length = 1 ∧
        s.Draws env b usrSize hs ⟨[P.cuts (2 ^ b + guardSize) 1], t⟩ :=
      Heap.draws_refill hu hP hrf (by rw [hhigh, Nat.zero_sub]; rfl) (by rwa [Nat.one_mul])
    refine ⟨hs, _, _, hdraws, rfl, P.cuts_start _ _, P.cuts_total _ _, ?_⟩
    rw [MemPool.cuts_remaining, Nat.one_mul]
  · exact ⟨[], s.supply, P, .inr ⟨hrf, rfl, rfl⟩, hP, rfl, rfl, Nat.sub_le _ _⟩

theorem Proc.Dry.drawsOne (h : st.Dry env P) (hu : env.Granting) (hmark : b ∉ markedBins)
    (hroom : 2 ^ b + guardSize ≤ P.remainingSizeBytes) :
    ∃ hs p Q, st.heap.Draws env b usrSize hs p ∧ p.pools = [Q] ∧ Q.start = P.start ∧
      Q.totalSizeBytes = P.totalSizeBytes ∧
      P.remainingSizeBytes - (2 ^ b + guardSize) ≤ Q.remainingSizeBytes :=
  Heap.draws_one hu h.pools ((h.booted.highWater b).trans (if_neg hmark)) hroom

theorem Proc.Dry.refill (h : st.Dry env P) (depth : ℕ) (hu : env.Undisturbed)
    (husr : usrSize < 2 ^ 64) (hfits : (Call.malloc usrSize).Fits env.args)
    (hb : b = classOf env.args (Call.malloc usrSize).alignment usrSize)
    (hrf : st.heap.Refills 0 b)
    (hm : m = max 1 ((st.heap.bin 0 b).highWater - (st.heap.bin 0 b).numFree))
    (hroom : m * (2 ^ b + guardSize) ≤ P.remainingSizeBytes) :
    ∃ st', Step env depth st (.malloc usrSize) st' ∧
      st'.Dry env (P.cuts (2 ^ b + guardSize) m) ∧ Took b m st st' := by
  obtain ⟨hs, t, rfl, hdraws⟩ : ∃ hs t, hs.length = m ∧
      st.heap.Draws env b usrSize hs ⟨[P.cuts (2 ^ b + guardSize) m], t⟩ :=
    Heap.draws_refill hu.toGranting h.pools hrf hm hroom
  exact h.malloc depth hu.toGranting husr hfits hb (h.unlimited depth hu hfits hb hdraws) hdraws rfl
    (P.cuts_start _ _) (P.cuts_total _ _)

/-! ## A pool that is nearly empty -/

theorem fits_defaults (hsize : 64 + 8 + usrSize + 16 ≤ 2 ^ 39) :
    (Call.malloc usrSize).Fits (Env.still .defaults).args := by
  rintro n hn
  obtain rfl := Option.some.inj hn
  refine ⟨by decide, le_trans ?_ hsize⟩
  change elmHdrSz GRArgs.defaults + 8 + usrSize + (if (if usrSize > 8 then 16 else 8) > 1 then
    (if usrSize > 8 then 16 else 8) else 0) ≤ _
  rw [elmHdrSz_eq GRArgs.defaults_ok]
  change 64 + 0 * 8 + 0 * 8 + 8 + usrSize + _ ≤ _
  split <;> split <;> omega

/-- Blocks of class 23 are requested until the pool is low. The bin has no water marks, so that
a refill gets one block. -/
theorem Proc.Dry.drain {low : ℕ} (hr : Reachable (Env.still .defaults) depth st)
    (h : st.Dry (Env.still .defaults) P) (hle : 2 ^ 23 + guardSize ≤ low)
    (hroom : low ≤ P.remainingSizeBytes + (2 ^ 23 + guardSize)) (hheld : st.held ≠ []) :
    ∃ st' Q, Reachable (Env.still .defaults) depth st' ∧ st'.Dry (Env.still .defaults) Q ∧
      Q.remainingSizeBytes < low ∧ low ≤ Q.remainingSizeBytes + (2 ^ 23 + guardSize) ∧
      (st'.heap.bin 0 17).numFree = (st.heap.bin 0 17).numFree ∧ st'.held ≠ [] := by
  have hu := Env.still_undisturbed
  have hfits : (Call.malloc 5000000).Fits (Env.still .defaults).args := fits_defaults (by decide)
  have hclass : 23 = classOf GRArgs.defaults (Call.malloc 5000000).alignment 5000000 := by decide
  obtain ⟨k, hk⟩ : ∃ k, k = P.remainingSizeBytes + (st.heap.bin 0 23).numFree := ⟨_, rfl⟩
  induction k using Nat.strong_induction_on generalizing st P with
  | _ k ih =>
      by_cases hlow : P.remainingSizeBytes < low
      · exact ⟨st, P, hr, h, hlow, hroom, rfl, hheld⟩
      have hhigh : (st.heap.bin 0 23).highWater = 0 := h.booted.highWater 23
      have hmark : (st.heap.bin 0 23).lowWater = 0 := h.booted.lowWater 23
      by_cases hrf : st.heap.Refills 0 23
      · have hnum : (st.heap.bin 0 23).numFree = 0 := by
          refine h.idle.inv.rep.headFree_eq_zero_iff.1 (hrf.resolve_right fun hlt => ?_)
          rw [hmark] at hlt
          exact absurd hlt (Nat.not_lt_zero _)
        have hone : 1 * (2 ^ 23 + guardSize) ≤ P.remainingSizeBytes := by omega
        obtain ⟨st', hstep, hdry, htook⟩ := h.refill depth hu (by decide) hfits hclass hrf
          (by rw [hhigh]; omega) hone
        have hless := htook.numFree
        have hrem := P.cuts_remaining (2 ^ 23 + guardSize) 1
        obtain ⟨st'', Q, hr'', hdry'', hlow'', hrest'', heq, hheld''⟩ :=
          ih _ (by omega) (hr.step hstep) hdry (by omega) htook.held rfl
        exact ⟨st'', Q, hr'', hdry'', hlow'', hrest'', heq.trans (htook.others 17 (by decide)), hheld''⟩
      · obtain ⟨st', hstep, hdry, htook⟩ := h.reuse depth hu (by decide) hfits hclass hrf
        have hless := htook.numFree
        obtain ⟨st'', Q, hr'', hdry'', hlow'', hrest'', heq, hheld''⟩ :=
          ih _ (by omega) (hr.step hstep) hdry hroom htook.held rfl
        exact ⟨st'', Q, hr'', hdry'', hlow'', hrest'', heq.trans (htook.others 17 (by decide)), hheld''⟩

/-- A first request fills a bin with water marks. -/
theorem Proc.Dry.stock (hr : Reachable env depth st) (h : st.Dry env P) (hu : env.Undisturbed)
    (husr : usrSize < 2 ^ 64) (hfits : (Call.malloc usrSize).Fits env.args)
    (hb : b = classOf env.args (Call.malloc usrSize).alignment usrSize) (hmark : b ∈ markedBins)
    (hroom : slotInitSize ≤ P.remainingSizeBytes) :
    ∃ st' Q, Reachable env depth st' ∧ st'.Dry env Q ∧ 99 ≤ (st'.heap.bin 0 b).numFree ∧
      P.remainingSizeBytes ≤ Q.remainingSizeBytes + 200 * (2 ^ b + guardSize) ∧ st'.held ≠ [] := by
  have hlow : (st.heap.bin 0 b).lowWater = 100 := (h.booted.lowWater b).trans (if_pos hmark)
  have hhigh : (st.heap.bin 0 b).highWater = 200 := (h.booted.highWater b).trans (if_pos hmark)
  by_cases hrf : st.heap.Refills 0 b
  · have hsize : ∀ c ∈ markedBins, 200 * (2 ^ c + guardSize) ≤ slotInitSize := by decide
    obtain ⟨m, hm⟩ : ∃ m, m = max 1 ((st.heap.bin 0 b).highWater - (st.heap.bin 0 b).numFree) :=
      ⟨_, rfl⟩
    have hcost : m * (2 ^ b + guardSize) ≤ 200 * (2 ^ b + guardSize) :=
      Nat.mul_le_mul_right _ (by omega)
    obtain ⟨st', hstep, hdry, htook⟩ := h.refill depth hu husr hfits hb hrf hm
      (hcost.trans ((hsize b hmark).trans hroom))
    have hmore := htook.numFree
    have hrem := P.cuts_remaining (2 ^ b + guardSize) m
    exact ⟨st', _, hr.step hstep, hdry, by omega, by omega, htook.held⟩
  · obtain ⟨st', hstep, hdry, htook⟩ := h.reuse depth hu husr hfits hb hrf
    have hless := htook.numFree
    have hge : ¬ (st.heap.bin 0 b).numFree < (st.heap.bin 0 b).lowWater := fun hlt => hrf (.inr hlt)
    exact ⟨st', P, hr.step hstep, hdry, by omega, Nat.le_add_right _ _, htook.held⟩

/-- Blocks are requested until a bin with water marks is one below the lower one. -/
theorem Proc.Dry.lower (hr : Reachable env depth st) (h : st.Dry env P) (hu : env.Undisturbed)
    (husr : usrSize < 2 ^ 64) (hfits : (Call.malloc usrSize).Fits env.args)
    (hb : b = classOf env.args (Call.malloc usrSize).alignment usrSize) (hmark : b ∈ markedBins)
    (hnum : 99 ≤ (st.heap.bin 0 b).numFree) (hheld : st.held ≠ []) :
    ∃ st', Reachable env depth st' ∧ st'.Dry env P ∧ (st'.heap.bin 0 b).numFree = 99 ∧
      st'.held ≠ [] := by
  obtain ⟨k, hk⟩ : ∃ k, (st.heap.bin 0 b).numFree = 99 + k := ⟨_, (Nat.add_sub_of_le hnum).symm⟩
  induction k generalizing st with
  | zero => exact ⟨st, hr, h, hk, hheld⟩
  | succ k ih =>
      have hlow : (st.heap.bin 0 b).lowWater = 100 := (h.booted.lowWater b).trans (if_pos hmark)
      have hrf : ¬ st.heap.Refills 0 b := by
        rintro (h0 | hlt)
        · have := h.idle.inv.rep.headFree_eq_zero_iff.1 h0
          omega
        · omega
      obtain ⟨st', hstep, hdry, htook⟩ := h.reuse depth hu husr hfits hb hrf
      have hless := htook.numFree
      exact ih (hr.step hstep) hdry (by omega) htook.held (by omega)

/-- The bin of class 17 has 99 free blocks, one less than its low-water mark. In the pool there is
room for another, but not for a refill. -/
structure Proc.Drained (env : Env) (P : MemPool) (st : Proc) : Prop where
  dry : st.Dry env P
  numFree : (st.heap.bin 0 17).numFree = 99
  one : 2 ^ 17 + guardSize ≤ P.remainingSizeBytes
  few : P.remainingSizeBytes < 101 * (2 ^ 17 + guardSize)
  held : st.held ≠ []

theorem exists_drained (depth : ℕ) : ∃ st P, Reachable (Env.still .defaults) depth st ∧
    st.Drained (Env.still .defaults) P := by
  have hu := Env.still_undisturbed
  have hfits : (Call.malloc 100000).Fits (Env.still .defaults).args := fits_defaults (by decide)
  have hclass : 17 = classOf GRArgs.defaults (Call.malloc 100000).alignment 100000 := by decide
  obtain ⟨s, P, hs, h, hroom⟩ := boot_dry (Env.still_ok GRArgs.defaults_ok) hu.toGranting depth
  have hr : Reachable (Env.still .defaults) depth ⟨s, []⟩ := ⟨s, [], hs, .refl⟩
  obtain ⟨st₁, Q, hr₁, hdry, hnum, hrest, hheld₁⟩ :=
    h.stock hr hu (by decide) hfits hclass (by decide) hroom
  have hsize : 301 * (2 ^ 17 + guardSize) ≤ slotInitSize := by decide
  have hguard : guardSize = 4096 := rfl
  obtain ⟨low, hlow⟩ : ∃ low, low = 101 * (2 ^ 17 + guardSize) := ⟨_, rfl⟩
  have hle : 2 ^ 23 + guardSize ≤ low := hlow ▸ (by decide)
  obtain ⟨st₂, R, hr₂, hdry₂, hfew, hmore, heq, hheld₂⟩ := hdry.drain hr₁ hle (by omega) hheld₁
  obtain ⟨st₃, hr₃, hdry₃, hnum₃, hheld₃⟩ :=
    hdry₂.lower hr₂ hu (by decide) hfits hclass (by decide) (heq ▸ hnum) hheld₂
  exact ⟨st₃, R, hr₃, hdry₃, hnum₃, by omega, hlow ▸ hfew, hheld₃⟩

/-- In the drained state the refill of the bin of class 17 gets a block, and then is refused memory. -/
theorem Proc.Drained.short (h : st.Drained (Env.still .defaults) P) (usrSize : ℕ) :
    (st.heap.bin 0 17).headFree ≠ 0 ∧
      ∃ hs p, hs ≠ [] ∧ st.heap.Short (Env.still .defaults) 17 usrSize hs p := by
  have hdry := h.dry
  have hnum := h.numFree
  have hmark : (st.heap.bin 0 17).lowWater = 100 := hdry.booted.lowWater 17
  have hhigh : (st.heap.bin 0 17).highWater = 200 := hdry.booted.highWater 17
  have hslot : (Env.still .defaults).slotFor st.heap.clock usrSize = 0 := by
    unfold Env.slotFor
    split
    · exact Nat.mod_one _
    · rfl
  refine ⟨fun h0 => ?_, ?_⟩
  · have := hdry.idle.inv.rep.headFree_eq_zero_iff.1 h0
    omega
  · have hcount : max 1 ((st.heap.bin 0 17).highWater - (st.heap.bin 0 17).numFree) = 101 := by
      rw [hhigh, hnum]
      rfl
    have hrefused : ∃ hs p, Supply.fill (Env.still .defaults) (2 ^ 17) 101
        ⟨[P], slotTime st.heap.clock usrSize + 1⟩ = .refused hs p ∧
          (2 ^ 17 + guardSize ≤ P.remainingSizeBytes → hs ≠ []) := by
      refine Supply.fill_short (fun _ => rfl) rfl (fun Q t size hstart htotal hsize => ?_) h.few
      exact Env.still_undisturbed.offer (hstart.trans hdry.start) (htotal ▸ hdry.total) hsize
    obtain ⟨hs, p, hfill, hne⟩ := hrefused
    refine ⟨hs, p, hne h.one, by decide, ?_, ?_⟩
    · rw [hslot]
      exact .inr (by omega)
    · rw [hslot]
      unfold Heap.refillAt
      rw [hcount, hdry.pools]
      exact hfill

end GuardRails
