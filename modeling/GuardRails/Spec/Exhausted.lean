import GuardRails.Spec.Complete

/-!
# Requests that are refused

In an undisturbed system there is room for the first pool only, and no block of `2 ^ 32`
bytes or more: such a request is answered with `NULL`.
-/

namespace GuardRails

open ByteMemory StateHoare

variable {env : Env} {off : Off} {ctx : Ctx} {s : Heap} {depth room i b n : ℕ} {st : Proc}
  {bt : List ℕ} {E : Halt → Heap → Prop}

/-! ## No block is large -/

def Heap.OnePool (s : Heap) : Prop := ∃ P, s.memPools = [P] ∧ P.totalSizeBytes ≤ 2 ^ 32

theorem Heap.onePool (hs : 0 < s.budget) : s.OnePool := by
  unfold Heap.budget at hs
  split at hs
  · rename_i P hP
    split at hs
    · rename_i hle
      exact ⟨P, hP, hle⟩
    · exact absurd hs (lt_irrefl 0)
  · exact absurd hs (lt_irrefl 0)

theorem Rep.remaining_le (hR : Rep env off s) (hs : s.OnePool) : s.remaining ≤ 2 ^ 32 := by
  obtain ⟨P, hP, hle⟩ := hs
  have hok := hR.shape.layout.pool P (hP ▸ List.mem_singleton_self P)
  have heq := hok.startFree_eq
  have hstart := hok.start_le
  rw [Heap.remaining, hP]
  dsimp only
  omega

/-- Every block lies in the only pool. -/
theorem Rep.block_small {h : ℕ} {B : Block} (hR : Rep env off s) (hs : s.OnePool)
    (hB : (ledger s.log).block h = some B) : B.size < 2 ^ 32 := by
  obtain ⟨P, hP, hle⟩ := hs
  obtain ⟨Q, hQ, hstart, hend⟩ := (hR.shape.layout.block h B hB).inPool
  have hQok := hR.shape.layout.pool Q hQ
  have heq := hQok.startFree_eq
  obtain rfl := List.mem_singleton.1 (hP ▸ hQ)
  omega

theorem Rep.headFree_large (hR : Rep env off s) (hs : s.OnePool) (hb : 32 ≤ b) :
    (s.bin i b).headFree = 0 := by
  have hl := hR.shape.lists ⟨.free, i, b⟩
  have hL := hR.log_ok.lawful.sound
  cases hxs : (ledger s.log).list ⟨.free, i, b⟩ with
  | nil =>
      rw [hxs] at hl
      exact hl
  | cons x xs =>
      obtain ⟨B, hB, hp, -, hbin⟩ := (hL.mem_list ⟨.free, i, b⟩ x).1 (by simp [hxs])
      have hsize := (hL.block_ok x B hB).size_eq (by simp [hp])
      have hsmall := hR.block_small hs hB
      rw [hsize, hbin] at hsmall
      exact absurd hsmall (not_lt.2 (Nat.pow_le_pow_right (by decide) hb))

/-! ## The refusal -/

theorem mmap_refused (henv : env.Granting) (hn : 2 ^ 32 < n) :
    wp (mmap env n) (fun ret s' => ret = none ∧ s'.grArgs = s.grArgs) E s := by
  unfold mmap
  refine wp_bind (wp_tick (wp_bind (wp_get ?_)))
  rw [henv.mmap]
  refine wp_ite (fun hg => ?_) fun _ => wp_bind (wp_emit (wp_pure ⟨rfl, rfl⟩))
  obtain ⟨-, -, hle, -⟩ := hg
  unfold topRegion at hle
  omega

theorem addNewMemPool_refused (hctx : ctx.env = env) (henv : env.Granting)
    (hoom : env.args.abortOnOOM = false) (hargs : s.grArgs = env.args) (hn : 2 ^ 32 ≤ n) :
    wp (addNewMemPool ctx n) (fun ret s' => ret = -1 ∧ s'.grArgs = env.args) (Unexcused s) s := by
  unfold addNewMemPool
  extract_lets poolSize
  have hlo : 2 ^ 32 < poolSize := by
    change 2 ^ 32 < (n / 4096 + 1) * 4096
    omega
  clear_value poolSize
  refine wp_bind (wp_get (wp_bind (wp_grAssert (fun _ => ?_) fun _ => .refl)))
  refine wp_bind (wp_grAssert (fun _ => ?_) fun _ => .refl)
  rw [hctx]
  refine wp_bind_of (mmap_refused henv hlo) ?_
  rintro _ s₁ ⟨rfl, hargs₁⟩
  refine wp_bind (wp_tick ?_)
  rw [hargs, hoom]
  exact wp_ite (fun h => absurd h (by simp)) fun _ => wp_pure ⟨rfl, hargs₁.trans hargs⟩

theorem getFromPool_refused (hctx : ctx.env = env) (henv : env.Granting)
    (hoom : env.args.abortOnOOM = false) (hargs : s.grArgs = env.args) (hn : 2 ^ 32 ≤ n)
    (hrem : s.remaining < n + guardSize) :
    wp (getFromPool ctx n) (fun ret s' => ret = 0 ∧ s'.grArgs = env.args) (Unexcused s) s := by
  unfold getFromPool
  extract_lets binTotalSize rest
  refine Emits.refl.bind logs_pthreadMutexLock fun _ s₁ h₁ hs₁ => ?_
  have hrem₁ : s₁.remaining < binTotalSize := by
    rw [Heap.remaining, hs₁.memPools]
    exact hrem
  refine wp_bind (wp_get (wp_ite (fun _ => ?_) fun h => absurd hrem₁ h))
  have hmax : 2 ^ 32 ≤ max mempoolMinExpandSize n := hn.trans (le_max_right _ _)
  refine wp_bind (wp_mono (addNewMemPool_refused hctx henv hoom (h₁.grArgs.trans hargs) hmax) ?_
    fun _ _ hE => h₁.unexcused hE)
  rintro _ s₂ ⟨rfl, hargs₂⟩
  refine wp_ite (fun _ => ?_) fun h => absurd (by decide) h
  refine wp_bind (wp_pthreadMutexUnlock (wp_pure ⟨rfl, ?_⟩))
  exact hargs₂

theorem replenishBin_refused (hctx : ctx.env = env) (henv : env.Granting)
    (hoom : env.args.abortOnOOM = false) (hargs : s.grArgs = env.args) (hb : 32 ≤ b) (hb' : b < 40)
    (hhead : (s.bin i b).headFree = 0) (hrem : s.remaining < 2 ^ b + guardSize) :
    wp (replenishBin ctx i b) (fun ret s' => ret ≠ 0 ∧ s'.grArgs = env.args) (Unexcused s) s := by
  have hpoll : ∀ {line s}, ctx.env.sigusr2 line s ≠ true := henv.quiet hctx
  have hpow : 2 ^ 32 ≤ 2 ^ b := Nat.pow_le_pow_right (by decide) hb
  unfold replenishBin
  refine wp_bind (wp_poll ?_ fun h => absurd h hpoll)
  refine wp_bind (wp_verifyLocked (wp_bind (wp_grAssert (fun _ => ?_) fun _ => .refl)))
  refine wp_ite (fun h => absurd hb' (not_lt.2 h)) fun _ => ?_
  refine wp_ite (fun h => absurd h (not_lt.2 (le_trans (by decide) hpow))) fun _ => ?_
  refine wp_bind (wp_poll ?_ fun h => absurd h hpoll)
  refine wp_bind (wp_get (wp_ite (fun _ => ?_) fun h => absurd (.inl hhead) h))
  -- the first block cannot be cut, so the loop ends at once
  unfold replenishLoop
  refine wp_bind (wp_poll ?_ fun h => absurd h hpoll)
  refine wp_bind_of (getFromPool_refused hctx henv hoom hargs hpow hrem) ?_
  rintro _ s₁ ⟨rfl, hargs₁⟩
  refine wp_bind (wp_poll ?_ fun h => absurd h hpoll)
  exact wp_ite (fun _ => wp_pure ⟨by decide, hargs₁⟩) fun h => absurd rfl h

theorem getBuf_refused (hctx : ctx.env = env) (henv : env.Granting)
    (hoom : env.args.abortOnOOM = false) (hargs : s.grArgs = env.args) {allocSize usrSize : ℕ}
    (hb : b = log2fast (max pageSize allocSize)) (hb₁ : 32 ≤ b) (hb₂ : b < 40)
    (hhead : (s.bin 0 b).headFree = 0) (hrem : s.remaining < 2 ^ b + guardSize) :
    wp (getBuf ctx bt allocSize usrSize) (fun ret s' => ret.1 = 0 ∧ s'.grArgs = env.args)
      (Unexcused s) s := by
  have hpoll : ∀ {line s}, ctx.env.sigusr2 line s ≠ true := henv.quiet hctx
  unfold getBuf
  extract_lets reqSize binNum usrSizeBin
  obtain rfl : binNum = b := hb.symm
  clear_value binNum
  refine wp_bind (wp_poll ?_ fun h => absurd h hpoll)
  refine wp_bind_of (pickSlot_emits henv hargs) ?_
  rintro _ s₁ ⟨rfl, t, rfl⟩
  refine wp_bind (wp_poll ?_ fun h => absurd h hpoll)
  refine wp_bind (wp_pthreadMutexLock (fun _ => ?_) fun _ _ => .of_log rfl)
  have h₁ : Emits [] s { s with clock := t } := ⟨rfl, by simp, rfl, rfl, id, fun _ _ => ⟨rfl, rfl⟩⟩
  have h₂ := h₁.trans (emits_lockHeap (l := .slot 0))
  refine wp_bind (wp_poll ?_ fun h => absurd h hpoll)
  refine wp_bind (wp_mono (replenishBin_refused hctx henv hoom hargs hb₁ hb₂ hhead hrem) ?_
    fun _ _ hE => h₂.unexcused hE)
  rintro ret s₃ ⟨hret, hargs₃⟩
  refine wp_bind (wp_poll (wp_ite (fun _ => ?_) fun h => absurd hret h) fun h => absurd h hpoll)
  refine wp_bind (wp_pthreadMutexUnlock (wp_bind (wp_poll ?_ fun h => absurd h hpoll)))
  exact wp_pure ⟨rfl, hargs₃⟩

theorem memalignInt_refused (hctx : ctx.env = env) (henv : env.Granting)
    (hoom : env.args.abortOnOOM = false) (hnull : env.args.abortOnNull = false)
    {alignment usrSize : ℕ} (hb : b = classOf env.args alignment usrSize) (hb₁ : 32 ≤ b)
    (hb₂ : b < 40) (hinit : s.isInit = true) (hargs : s.grArgs = env.args)
    (hhead : (s.bin 0 b).headFree = 0) (hrem : s.remaining < 2 ^ b + guardSize) :
    wp (memalignInt ctx bt alignment usrSize) (fun p _ => p = 0) (Unexcused s) s := by
  unfold memalignInt
  refine wp_bind (wp_get ?_)
  extract_lets allocSize rest
  refine wp_bind (wp_get (wp_ite (fun h => absurd (hinit.symm.trans h) nofun) fun _ => ?_))
  have hb' : b = log2fast (max pageSize allocSize) := by
    rw [hb, classOf, ← hargs]
  refine wp_bind_of (getBuf_refused hctx henv hoom hargs hb' hb₁ hb₂ hhead hrem) ?_
  rintro ⟨buf, endBuf⟩ s₁ ⟨rfl, hargs₁⟩
  refine wp_ite (fun _ => wp_bind (wp_get (wp_ite (fun h => ?_) fun _ => wp_pure rfl)))
    fun h => absurd rfl h
  rw [hargs₁, hnull] at h
  exact absurd h (by simp)

/-- A request for a block of 4 GiB or more returns `NULL`. -/
theorem Proc.Inv.refused (hst : st.Inv env) (henv : env.Granting)
    (hplain : ∀ e ∈ st.heap.log, e.Plain) (hbudget : 0 < st.heap.budget)
    (hoom : env.args.abortOnOOM = false) (hnull : env.args.abortOnNull = false)
    {alignment usrSize : ℕ} (halign : alignment < 2 ^ 64) (husr : usrSize < 2 ^ 64)
    (hfits : Fits env.args alignment usrSize) (hb : 32 ≤ classOf env.args alignment usrSize)
    (depth : ℕ) (bt : List ℕ) :
    ∃ s', memalignInt (ctxOf env depth) bt alignment usrSize st.heap = .ok 0 s' := by
  have hctx : (ctxOf env depth).env = env := (ctxOf_ok env depth).env_eq
  have hrem : st.heap.remaining < 2 ^ classOf env.args alignment usrSize + guardSize := by
    have hpow : 2 ^ 32 ≤ 2 ^ classOf env.args alignment usrSize := Nat.pow_le_pow_right (by decide) hb
    have hle : st.heap.remaining ≤ 2 ^ 32 := hst.rep.remaining_le (Heap.onePool hbudget)
    exact lt_of_le_of_lt (hle.trans hpow) (Nat.lt_add_of_pos_right (by decide))
  obtain ⟨p, s', hrun, -, rfl⟩ := completes hplain
    (memalignInt_outcome (F := True) (G := True) hst halign husr (fun _ => hfits)
      fun _ => hfits.class_lt)
    (memalignInt_refused hctx henv hoom hnull rfl hb hfits.class_lt hst.isInit
      hst.rep.shape.args_eq (hst.rep.headFree_large (Heap.onePool hbudget) hb) hrem)
  exact ⟨s', hrun⟩

end GuardRails
