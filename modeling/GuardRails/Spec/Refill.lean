import GuardRails.Spec.Shortage

/-!
# What a refill takes, and how it stops

A row of blocks takes from the pools what the blocks and their guard pages measure. A refill
that does not return was stopped by an assertion or is in the dump that `addNewMemPool` starts
for lack of memory.
-/

namespace GuardRails

open ByteMemory StateHoare

variable {env : Env} {off : Off} {ctx : Ctx} {s s' s₀ s₁ s₂ x : Heap} {h i b m n req : ℕ} {hs : List ℕ}
  {p q : Supply}

/-! ## The bytes that are taken -/

/-- No pool has more bytes left than it has. -/
def Supply.Sane (p : Supply) : Prop := ∀ P ∈ p.pools, P.remainingSizeBytes ≤ P.totalSizeBytes

theorem Rep.sane (hR : Rep env off s) : s.supply.Sane := by
  intro P hP
  have hok := hR.shape.layout.pool P hP
  have hstart := hok.startFree_eq
  have hle := hok.start_le
  omega

/-- `q` is what `p` is after `k` bytes have been taken. -/
structure Supply.Taken (p q : Supply) (k : ℕ) : Prop where
  sane : q.Sane
  used : poolsUsed q.pools = poolsUsed p.pools + k

theorem Supply.Taken.refl (hp : p.Sane) : p.Taken p 0 := ⟨hp, rfl⟩

theorem Supply.Taken.trans {r : Supply} {k l : ℕ} (h₁ : p.Taken q k) (h₂ : q.Taken r l) :
    p.Taken r (k + l) :=
  ⟨h₂.sane, by rw [h₂.used, h₁.used, Nat.add_assoc]⟩

theorem Supply.cut_taken (hp : p.Sane)
    (hroom : n + guardSize ≤ p.pools.head?.elim 0 MemPool.remainingSizeBytes)
    (hcut : p.cut env n = .granted h q) : p.Taken q (n + guardSize) := by
  unfold Supply.cut at hcut
  split at hcut
  · cases hcut
  · rename_i P Ps hpools
    rw [hpools] at hroom
    have hroom' : n + guardSize ≤ P.remainingSizeBytes := hroom
    have hP : P.remainingSizeBytes ≤ P.totalSizeBytes := hp P (hpools ▸ List.mem_cons_self)
    split at hcut
    · obtain ⟨-, rfl⟩ := Answer.granted.inj hcut
      constructor
      · intro Q hQ
        rcases List.mem_cons.1 hQ with rfl | hQ'
        · unfold MemPool.cut
          dsimp only
          omega
        · exact hp Q (hpools ▸ List.mem_cons_of_mem P hQ')
      · rw [hpools]
        simp only [poolsUsed, MemPool.cut, List.map_cons, List.sum_cons]
        omega
    · cases hcut

theorem Supply.grow_taken {u : Unit} (hp : p.Sane) (hgrow : p.grow env req = .granted u q) :
    p.Taken q 0 ∧ q.pools.head?.elim 0 MemPool.remainingSizeBytes = poolSizeOf req := by
  unfold Supply.grow at hgrow
  split at hgrow
  · split at hgrow <;> cases hgrow
  · rename_i a _
    split at hgrow
    · cases hgrow
    · split at hgrow
      · obtain ⟨-, rfl⟩ := Answer.granted.inj hgrow
        refine ⟨⟨?_, poolsUsed_newPool a _ _⟩, rfl⟩
        intro Q hQ
        rcases List.mem_cons.1 hQ with rfl | hQ'
        · exact le_rfl
        · exact hp Q hQ'
      · cases hgrow

theorem Supply.take_taken (hn : n % 4096 = 0) (hp : p.Sane) (htake : p.take env n = .granted h q) :
    p.Taken q (n + guardSize) := by
  unfold Supply.take at htake
  extract_lets p' at htake
  split at htake
  · split at htake
    · rename_i r hgrow
      obtain ⟨hr, hhead⟩ := Supply.grow_taken (p := p') hp hgrow
      have hroom : n + guardSize ≤ poolSizeOf (max mempoolMinExpandSize n) :=
        add_guard_le_poolSizeOf hn (le_max_right _ n)
      have hcut := Supply.cut_taken hr.sane (hhead ▸ hroom) htake
      have htrans := hr.trans hcut
      rw [Nat.zero_add] at htrans
      exact ⟨htrans.sane, htrans.used⟩
    · cases htake
    · cases htake
  · rename_i hroom
    have hcut := Supply.cut_taken (p := p') hp (not_lt.1 hroom) htake
    exact ⟨hcut.sane, hcut.used⟩

/-- A full row is as long as it should be. -/
theorem Supply.fill_taken (hn : n % 4096 = 0) (hp : p.Sane) (hfill : p.fill env n m = .granted hs q) :
    hs.length = m ∧ p.Taken q (m * (n + guardSize)) := by
  induction m generalizing p hs with
  | zero =>
      obtain ⟨rfl, rfl⟩ := Answer.granted.inj hfill
      rw [Nat.zero_mul]
      exact ⟨rfl, .refl hp⟩
  | succ m ih =>
      rw [Supply.fill] at hfill
      split at hfill
      · rename_i k r htake
        have hr := Supply.take_taken hn hp htake
        cases hrest : r.fill env n m with
        | granted ks q' =>
            rw [hrest] at hfill
            obtain ⟨rfl, rfl⟩ := Answer.granted.inj hfill
            obtain ⟨hlen, hq⟩ := ih hr.sane hrest
            constructor
            · rw [List.length_append, hlen, List.length_singleton]
            · rw [Nat.succ_mul, Nat.add_comm]
              exact hr.trans hq
        | refused =>
            rw [hrest] at hfill
            cases hfill
        | stopped =>
            rw [hrest] at hfill
            cases hfill
      · cases hfill
      · cases hfill

/-- A row that is cut short is shorter. -/
theorem Supply.fill_refused_used (hn : n % 4096 = 0) (hp : p.Sane) (hfill : p.fill env n m = .refused hs q) :
    hs.length < m ∧ poolsUsed q.pools = poolsUsed p.pools + hs.length * (n + guardSize) := by
  constructor
  · induction m generalizing p hs with
    | zero => cases hfill
    | succ m ih =>
        rw [Supply.fill] at hfill
        split at hfill
        · rename_i k r htake
          cases hrest : r.fill env n m with
          | refused ks q' =>
              rw [hrest] at hfill
              obtain ⟨rfl, rfl⟩ := Answer.refused.inj hfill
              have hlt := ih (Supply.take_taken hn hp htake).sane hrest
              rw [List.length_append, List.length_singleton]
              omega
          | granted =>
              rw [hrest] at hfill
              cases hfill
          | stopped =>
              rw [hrest] at hfill
              cases hfill
        · obtain ⟨rfl, rfl⟩ := Answer.refused.inj hfill
          exact Nat.succ_pos m
        · cases hfill
  · obtain ⟨r, hr, hpools⟩ := Supply.fill_refused hfill
    rw [hpools]
    exact (Supply.fill_taken hn hp hr).2.used

/-! ## How a refill stops -/

/-- A refill that is due does not return while the thread holds `gMutex`. -/
theorem replenishBin_held (hctx : ctx.env = env) (hcalm : env.CalmFrom s.clock) (hb : 12 ≤ b)
    (hb' : b < 40) (hi : i < env.args.numSlots) (hlock : (s.mutex (.slot i)).locked = true)
    (hR : Rep env off s) (hrefill : s.Refills i b) (hg : s.gMutex.locked = true) :
    wp (replenishBin ctx i b) (fun _ _ => False) (fun e _ => e = .deadlock) s := by
  have hkind : s.gMutex.recursive = false := hR.shape.locks.gMutex.kind
  refine wp_replenishBin hctx hcalm le_rfl hb hb' hi hlock hR (fun _ => ?_) fun h => absurd hrefill h
  obtain ⟨fuel, hfuel⟩ : ∃ fuel, 2 ^ 64 = fuel + 1 := ⟨2 ^ 64 - 1, by norm_num⟩
  rw [hfuel, replenishLoop_succ]
  refine wp_bind (wp_poll_calmFrom hctx hcalm le_rfl (wp_bind ?_))
  unfold getFromPool
  extract_lets binTotalSize rest
  refine wp_bind (wp_pthreadMutexLock (fun h => ?_) fun _ _ => rfl)
  exact absurd ((h hg).symm.trans hkind) nofun

theorem getBuf_held {allocSize usrSize : ℕ} {bt : List ℕ} (hctx : ctx.env = env) (hcalm : env.Calm)
    (hR : Rep env off s) (hg : s.gMutex.locked = true) (hslots : 0 < env.args.numSlots)
    (hb : b = log2fast (max pageSize allocSize)) (hb₁ : 12 ≤ b) (hb₂ : b < 40)
    (hrefill : s.Refills (env.slotFor s.clock usrSize) b) :
    wp (getBuf ctx bt allocSize usrSize) (fun _ _ => False) (fun e _ => e = .deadlock) s := by
  have hcalmFrom : ∀ t, env.CalmFrom t := fun _ line t _ => hcalm line t
  have hpoll : ∀ {s : Heap} {line : ℕ} {Q : Unit → Heap → Prop} {E : Halt → Heap → Prop},
      Q () s → wp (ctx.poll line) Q E s := wp_poll_calmFrom hctx (hcalmFrom 0) (Nat.zero_le _)
  obtain ⟨i, hi⟩ : ∃ i, i = env.slotFor s.clock usrSize := ⟨_, rfl⟩
  unfold getBuf
  extract_lets reqSize binNum usrSizeBin
  obtain rfl : binNum = b := hb.symm
  clear_value binNum
  refine wp_bind (hpoll (wp_bind_of (pickSlot_run hctx hR.shape.args_eq hslots) ?_))
  rintro _ s₁ ⟨rfl, rfl⟩
  rw [← hi] at hrefill ⊢
  have hR₁ := hR.tick (slotTime s.clock usrSize)
  refine wp_bind (hpoll (wp_bind (wp_pthreadMutexLock (fun hl => ?_) fun _ _ => rfl)))
  refine wp_bind (hpoll (wp_bind (wp_mono (replenishBin_held hctx (hcalmFrom _) hb₁ hb₂
    (hi ▸ slotFor_lt hslots) locked_lockHeap (hR₁.lockHeap hl) ?_ ?_) (fun _ _ h => h.elim)
    fun _ _ h => h)))
  · unfold Heap.Refills at hrefill ⊢
    rwa [bin_lockHeap]
  · exact hg

/-- A request for a block of a bin that is due for a refill does not return while the thread
holds `gMutex`. -/
theorem memalignInt_held {alignment usrSize : ℕ} (bt : List ℕ) (hctx : ctx.env = env)
    (hcalm : env.Calm) (hR : Rep env off s) (hinit : s.isInit = true) (hg : s.gMutex.locked = true)
    (hslots : 0 < env.args.numSlots) (hb : b = classOf env.args alignment usrSize) (hb₂ : b < 40)
    (hrefill : s.Refills (env.slotFor s.clock usrSize) b) :
    wp (memalignInt ctx bt alignment usrSize) (fun _ _ => False) (fun e _ => e = .deadlock) s := by
  unfold memalignInt
  refine wp_bind (wp_get ?_)
  extract_lets allocSize rest
  refine wp_bind (wp_get (wp_ite (fun h => absurd (hinit.symm.trans h) nofun) fun _ => ?_))
  have hb' : b = log2fast (max pageSize allocSize) := by
    rw [hb, classOf, ← hR.shape.args_eq]
  exact wp_bind (wp_mono (getBuf_held hctx hcalm hR hg hslots hb' (hb ▸ le_classOf _ _ _) hb₂ hrefill)
    (fun _ _ h => h.elim) fun _ _ h => h)

end GuardRails
