import GuardRails.Result.Conservation

/-!
# Separation of blocks

Every block lies on a page boundary in one pool, its guard page behind it, and apart from
all other blocks and guard pages. The guard pages stay without access rights; the blocks
on the lists of the bins may be accessed to their last byte.
-/

namespace GuardRails

open ByteMemory StateHoare

variable {env : Env} {off : Off} {depth : ℕ} {st : Proc} {s : Heap} {ctx : Ctx} {log : List Event}

def carvedBlocks : List Event → List (ℕ × ℕ)
  | [] => []
  | .carved h size :: log => (h, size) :: carvedBlocks log
  | _ :: log => carvedBlocks log

theorem mem_carvedBlocks {h size : ℕ} : (h, size) ∈ carvedBlocks log ↔ .carved h size ∈ log := by
  induction log with
  | nil => simp [carvedBlocks]
  | cons e log ih => cases e <;> simp [carvedBlocks, ih]

/-- No block is cut off twice. -/
theorem Lawful.nodup_carved (hl : Lawful log) : ((carvedBlocks log).map Prod.fst).Nodup := by
  induction log with
  | nil => exact .nil
  | cons e log ih =>
      have hn := ih hl.1
      cases e with
      | carved h size =>
          refine List.nodup_cons.2 ⟨fun hmem => ?_, hn⟩
          obtain ⟨⟨h', size'⟩, hin, rfl⟩ := List.mem_map.1 hmem
          obtain ⟨B, hB, -⟩ := hl.1.block_of_carved (mem_carvedBlocks.1 hin)
          exact absurd (hl.2.symm.trans hB) nofun
      | _ => exact hn

/-- The blocks with their guard pages in the pools, and who may access what. -/
structure Separated (s : Heap) : Prop where
  pools : ∀ P ∈ s.memPools, P.start % pageSize = 0 ∧ P.remainingSizeBytes ≤ P.totalSizeBytes ∧
    P.startFree = P.start + P.totalSizeBytes - P.remainingSizeBytes
  disjoint : s.memPools.Pairwise fun P Q => Apart P.start P.totalSizeBytes Q.start Q.totalSizeBytes
  inPool : ∀ h size, .carved h size ∈ s.log → h % pageSize = 0 ∧
    ∃ P ∈ s.memPools, P.start ≤ h ∧ h + size + guardSize ≤ P.startFree
  size : ∀ h size, .carved h size ∈ s.log → size = 2 ^ fld s.mem h .binNum
  apart : (carvedBlocks s.log).Pairwise fun b c =>
    Apart b.1 (b.2 + guardSize) c.1 (c.2 + guardSize)
  guard : ∀ h size, .carved h size ∈ s.log → ∀ x, h + size ≤ x → x < h + size + guardSize →
    s.pages (x / pageSize) = .none
  listed : ∀ r xs, HeaderList s.mem (s.head r) xs → ∀ h ∈ xs,
    Accessible s.pages h (2 ^ fld s.mem h .binNum)

theorem putGuard_site {h n : ℕ} :
    wp (putGuard ctx h n) (fun _ _ => True) (fun e _ => e ≠ .abort (.guardRails 220)) s := by
  unfold putGuard
  refine wp_bind (wp_grAssert (fun _ => ?_) fun _ => by decide)
  extract_lets guardStart
  refine wp_bind (wp_grAssert (fun _ => ?_) fun _ => by decide)
  refine wp_bind (wp_store64 (fun _ => ?_) fun _ => by simp)
  refine wp_bind (wp_mprotect ?_ ?_)
  · exact wp_grAssert (fun _ => trivial) fun _ => by decide
  · exact wp_grAssert (fun _ => trivial) fun _ => by decide

/-- A new pool is large enough for the block that asked for it, whatever its size. -/
theorem getFromPool_grows {k : ℕ} (hctx : ctx.Ok env) (hR : Rep env 0 s)
    (hr : Ready env False s) (hk : 12 ≤ k) :
    wp (getFromPool ctx (2 ^ k)) (fun _ _ => True) (fun e _ => e ≠ .abort (.guardRails 220)) s := by
  obtain ⟨n, hn⟩ : ∃ n, n = 2 ^ k := ⟨_, rfl⟩
  have hal : n % 4096 = 0 := by
    rw [hn]
    exact Nat.mod_eq_zero_of_dvd (pow_dvd_pow 2 hk : 2 ^ 12 ∣ 2 ^ k)
  rw [← hn]
  unfold getFromPool
  extract_lets binTotalSize rest
  have hrest : ∀ ret s₁, (ret = 0 → binTotalSize ≤ s₁.remaining) →
      wp (rest ret) (fun _ _ => True) (fun e _ => e ≠ .abort (.guardRails 220)) s₁ := by
    intro ret s₁ hrem
    refine wp_ite (fun _ => wp_bind (wp_pthreadMutexUnlock (wp_pure trivial))) fun h0 => ?_
    refine wp_bind (wp_get (wp_bind (wp_grAssert (fun _ => ?_) fun h => absurd (hrem (not_not.1 h0)) h)))
    refine wp_bind (wp_set (wp_bind_of putGuard_site fun _ s₂ _ => ?_))
    exact wp_bind (wp_emit (wp_bind (wp_pthreadMutexUnlock (wp_pure trivial))))
  refine wp_bind (wp_pthreadMutexLock (fun hl => ?_) fun _ _ => by simp)
  refine wp_bind (wp_get (wp_ite (fun _ => ?_) fun hge => ?_))
  · have hinit : (s.lockHeap .gMutex).isInit = true ∨
        (s.lockHeap .gMutex).initMutex.locked = true := hr.init
    refine wp_bind (wp_mono (addNewMemPool_spec (F := False) (G := False) hctx (hR.lockHeap hl)
      (locked_lockHeap (l := .gMutex)) hinit fun _ => rfl) ?_ fun _ _ hE h => hE.barred (.inl h))
    rintro ret s₁ ⟨-, -, ⟨rfl, a, hpools⟩ | ⟨rfl, -⟩⟩
    · refine hrest 0 s₁ fun _ => ?_
      rw [Heap.remaining, hpools]
      exact add_guard_le_poolSizeOf hal (le_max_right _ n)
    · exact hrest (-1) s₁ fun h0 => absurd h0 (by decide)
  · exact wp_bind (wp_pure (hrest 0 _ fun _ => not_lt.1 hge))

theorem Rep.separated (hR : Rep env off s) (hset : ∀ h, SettledAt s h) : Separated s := by
  have hS := hR.shape
  have hlaw := hR.log_ok.lawful
  have hL := hlaw.sound
  have hbin : ∀ h B, (ledger s.log).block h = some B → B.size = 2 ^ fld s.mem h .binNum :=
    fun h B hB => (hR.pow_binNum hB (Block.Settled.not_raw (hset h B hB))).symm
  refine ⟨fun P hP => ?_, hS.layout.apart, fun h size hc => ?_, fun h size hc => ?_, ?_,
    fun h size hc => ?_, fun r xs hxs h hmem => ?_⟩
  · have hP := hS.layout.pool P hP
    have h1 := hP.startFree_eq
    have h2 := hP.start_le
    exact ⟨hP.start_aligned, by omega, by omega⟩
  · obtain ⟨B, hB, rfl⟩ := hlaw.block_of_carved hc
    exact ⟨(hS.layout.block h B hB).aligned, (hS.layout.block h B hB).inPool⟩
  · obtain ⟨B, hB, rfl⟩ := hlaw.block_of_carved hc
    exact hbin h B hB
  · refine (List.pairwise_map.1 hlaw.nodup_carved).imp_of_mem ?_
    rintro ⟨h, n⟩ ⟨h', n'⟩ hb hc hne
    obtain ⟨B, hB, rfl⟩ := hlaw.block_of_carved (mem_carvedBlocks.1 hb)
    obtain ⟨C, hC, rfl⟩ := hlaw.block_of_carved (mem_carvedBlocks.1 hc)
    exact hS.layout.sep h h' B C hB hC hne
  · obtain ⟨B, hB, rfl⟩ := hlaw.block_of_carved hc
    exact hS.pages.guard h B hB
  · obtain rfl := IntrusiveList.IsList.unique hxs (hS.lists r)
    obtain ⟨B, hB, hp, -⟩ := (hL.mem_list r h).1 hmem
    rw [← hbin h B hB]
    exact hS.pages.opened h B hB (by simp [hp])

/-- Blocks and guard pages keep apart, in every state between two calls; a new pool is
never too small. -/
theorem blocks_separated (henv : env.Ok) (hr : Reachable env depth st) :
    Separated st.heap ∧
      (∀ k e s', 12 ≤ k → getFromPool (ctxOf env depth) (2 ^ k) st.heap = .error e s' →
        e ≠ .abort (.guardRails 220)) ∧
      ∀ (c : Call) bt e s', c.Ok st.held → c.exec (ctxOf env depth) bt st.heap = .error e s' →
        e ≠ .abort (.guardRails 220) := by
  have hst := hr.inv henv
  refine ⟨hst.rep.separated hst.settled, fun k e s' hk he => ?_, fun c bt e s' hok he => ?_⟩
  · have hne := wp_error (getFromPool_grows (ctxOf_ok env depth) hst.rep hst.ready hk) he
    exact hne
  · exact fun h => (wp_error (exec_spec hst hok) he).barred (.inl h)

theorem blocks_separated_malloc : ∃ st a, Reachable (Env.still .defaults) 1 st ∧
    st.held = [(a, 1000)] ∧ Separated st.heap := by
  obtain ⟨st, a, B, hr, -, hheld, -⟩ := exists_served 1 1000 (by decide) rfl (by decide)
  exact ⟨st, a.ptr, hr, hheld, (blocks_separated (Env.still_ok GRArgs.defaults_ok) hr).1⟩

end GuardRails
