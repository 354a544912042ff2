import GuardRails.Invariant.Basic

/-!
# Changing one block

What a write into one block, a change of its entry in the ledger, or a change of a
counter leaves of the invariant. Blocks lie apart from each other and from the rest
of the current pool, so such a change is seen by this block only.
-/

namespace GuardRails

open ByteMemory

variable {env : Env} {off off' : Off} {L L' : Ledger} {s s' : Heap} {h h' : ℕ} {B B' : Block}

/-! ## Where blocks lie -/

theorem Accessible.mono {pages : ℕ → Prot} {a n b k : ℕ} (h : Accessible pages a n)
    (hab : a ≤ b) (hle : b + k ≤ a + n) : Accessible pages b k := by
  intro i hi
  have := h (b - a + i) (by omega)
  rwa [show a + (b - a + i) = b + i by omega] at this

theorem BlockIn.size_ge {pools : List MemPool} {h size : ℕ} (hb : BlockIn pools h size) :
    4096 ≤ size := by
  obtain ⟨k, hk, -, rfl⟩ := hb.size_pow
  calc 4096 = 2 ^ 12 := by norm_num
    _ ≤ 2 ^ k := Nat.pow_le_pow_right (by decide) hk

theorem BlockIn.size_le {pools : List MemPool} {h size : ℕ} (hb : BlockIn pools h size) :
    size ≤ 2 ^ 39 := by
  obtain ⟨k, -, hk, rfl⟩ := hb.size_pow
  exact Nat.pow_le_pow_right (by decide) (by omega)

theorem BlockIn.size_aligned {pools : List MemPool} {h size : ℕ} (hb : BlockIn pools h size) :
    size % 4096 = 0 := by
  obtain ⟨k, hk, -, rfl⟩ := hb.size_pow
  exact Nat.mod_eq_zero_of_dvd (pow_dvd_pow 2 hk : 2 ^ 12 ∣ 2 ^ k)

theorem Layout.block_bounds {pools : List MemPool} (hY : Layout pools L) (hB : L.block h = some B) :
    0 < h ∧ h % 4096 = 0 ∧ 4096 ≤ B.size ∧ B.size % 4096 = 0 ∧ h + B.size + 4096 ≤ 2 ^ 47 := by
  have hb := hY.block h B hB
  obtain ⟨P, hP, hPh, hhP⟩ := hb.inPool
  have hPok := hY.pool P hP
  have h1 := hPok.start_pos
  have h2 := hPok.startFree_eq
  have h3 := hPok.bounded
  exact ⟨by omega, hb.aligned, hb.size_ge, hb.size_aligned, by omega⟩

/-- The bytes of two blocks are apart. -/
theorem Layout.notMem {pools : List MemPool} (hY : Layout pools L) (hB : L.block h = some B)
    (hB' : L.block h' = some B') (hne : h' ≠ h) {x : ℕ} (hx : h' ≤ x)
    (hx' : x < h' + B'.size + 4096) : x < h ∨ h + B.size + 4096 ≤ x := by
  have h1 := hY.sep h' h B' B hB' hB hne
  unfold Apart at h1
  omega

/-- A block lies below or above the rest of the current pool. -/
theorem Layout.block_rest {pools : List MemPool} (hY : Layout pools L) (hB : L.block h = some B)
    {P : MemPool} (hP : pools.head? = some P) :
    h + B.size + 4096 ≤ P.startFree ∨ P.startFree + P.remainingSizeBytes ≤ h := by
  obtain ⟨Q, hQ, hQh, hhQ⟩ := (hY.block h B hB).inPool
  have happ := hY.apart
  have hpool := hY.pool
  cases pools with
  | nil => cases hP
  | cons P' Ps =>
      obtain rfl := Option.some.inj hP
      have h1 := (hpool P' List.mem_cons_self).startFree_eq
      have h2 := (hpool P' List.mem_cons_self).start_le
      rcases List.mem_cons.1 hQ with rfl | hQ
      · exact .inl hhQ
      · have h3 := (List.pairwise_cons.1 happ).1 Q hQ
        have h4 := (hpool Q (List.mem_cons_of_mem P' hQ)).startFree_eq
        unfold Apart at h3
        omega

/-! ## The parts of the invariant -/

theorem Layout.update {pools : List MemPool} (hY : Layout pools L) (hB : L.block h = some B)
    (hblock : L'.block = Function.update L.block h (some B')) (hsize : B'.size = B.size) :
    Layout pools L' := by
  have hget : ∀ x A', L'.block x = some A' → ∃ A, L.block x = some A ∧ A.size = A'.size := by
    intro x A' hx
    rw [hblock, Function.update_apply] at hx
    split at hx
    · rename_i hxh
      exact ⟨B, hxh ▸ hB, by rw [← Option.some.inj hx, hsize]⟩
    · exact ⟨A', hx, rfl⟩
  refine { hY with block := fun x A' hx => ?_, sep := fun x y A' C' hx hy hne => ?_ }
  · obtain ⟨A, hA, hAs⟩ := hget x A' hx
    exact hAs ▸ hY.block x A hA
  · obtain ⟨A, hA, hAs⟩ := hget x A' hx
    obtain ⟨C, hC, hCs⟩ := hget y C' hy
    exact hAs ▸ hCs ▸ hY.sep x y A C hA hC hne

theorem PagesOk.update {pages : ℕ → Prot} {pools : List MemPool} (hP : PagesOk pages pools L)
    (hB : L.block h = some B) (hblock : L'.block = Function.update L.block h (some B'))
    (hsize : B'.size = B.size) (hring : B'.place = .ring ↔ B.place = .ring) :
    PagesOk pages pools L' := by
  have hget : ∀ x A', L'.block x = some A' →
      ∃ A, L.block x = some A ∧ A.size = A'.size ∧ (A'.place = .ring ↔ A.place = .ring) := by
    intro x A' hx
    rw [hblock, Function.update_apply] at hx
    split at hx
    · rename_i hxh
      obtain rfl := Option.some.inj hx
      exact ⟨B, hxh ▸ hB, hsize.symm, hring⟩
    · exact ⟨A', hx, rfl, Iff.rfl⟩
  refine { hP with opened := fun x A' hx hp => ?_, shut := fun x A' hx hp => ?_,
                   guard := fun x A' hx => ?_ }
  · obtain ⟨A, hA, hAs, hAp⟩ := hget x A' hx
    exact hAs ▸ hP.opened x A hA fun he => hp (hAp.2 he)
  · obtain ⟨A, hA, hAs, hAp⟩ := hget x A' hx
    exact hAs ▸ hP.shut x A hA (hAp.1 hp)
  · obtain ⟨A, hA, hAs, -⟩ := hget x A' hx
    exact hAs ▸ hP.guard x A hA

theorem FreshOk.update {m' : Mem} (hF : FreshOk s.mem s.memPools) (hY : Layout s.memPools L)
    (hB : L.block h = some B) (hout : ∀ x, x < h ∨ h + B.size ≤ x → m' x = s.mem x) :
    FreshOk m' s.memPools := by
  intro P hP x hx hx'
  have h1 := hY.block_rest hB hP
  rw [hout x (by omega)]
  exact hF P hP x hx hx'

theorem BlocksOk.update {m' : Mem} (hH : BlocksOk env.args s.mem L) (ha : env.args.Ok)
    (hY : Layout s.memPools L) (hB : L.block h = some B)
    (hblock : L'.block = Function.update L.block h (some B'))
    (hout : ∀ x, x < h ∨ h + B.size ≤ x → m' x = s.mem x)
    (hhdr : B'.place ≠ .raw → HeaderOk env.args m' h B') : BlocksOk env.args m' L' := by
  intro x A hx hp
  rw [hblock, Function.update_apply] at hx
  split at hx
  · rename_i hxh
    obtain rfl := Option.some.inj hx
    exact hxh ▸ hhdr hp
  · rename_i hxh
    refine (hH x A hx hp).congr ha (hY.block_bounds hx).2.2.1 fun y hy hy' _ => ?_
    have := hY.notMem hB hx hxh hy (by omega)
    exact hout y (by omega)

theorem HeaderList.congr {m m' : Mem} {head : ℕ} {xs : List ℕ} (hl : HeaderList m head xs)
    (hm : ∀ x ∈ xs, ∀ y, x + 48 ≤ y → y < x + 64 → m' y = m y) : HeaderList m' head xs := by
  refine IntrusiveList.IsList.congr hl (fun x hx => ?_) fun x hx => ?_
  · exact fld_congr fun y hy hy' => hm x hx y hy (lt_of_lt_of_le hy' (by simp [Field.off]))
  · exact fld_congr fun y hy hy' => hm x hx y (le_trans (by simp [Field.off]) hy) hy'

theorem ListsOk.update {m' : Mem} {head : HeadRef → ℕ} (hl : ListsOk s.mem head L) (hL : L.Sound)
    (hY : Layout s.memPools L) (hB : L.block h = some B) (hlist : L'.list = L.list)
    (hout : ∀ x, x < h ∨ h + B.size ≤ x → m' x = s.mem x)
    (hlinks : (∃ k, B.place = .on k) → ∀ x, h + 48 ≤ x → x < h + 64 → m' x = s.mem x) :
    ListsOk m' head L' := by
  intro r
  rw [hlist]
  refine (hl r).congr fun x hx y hy hy' => ?_
  obtain ⟨A, hA, hp, -⟩ := (hL.mem_list r x).1 hx
  by_cases hxh : x = h
  · subst x
    obtain rfl := Option.some.inj (hA.symm.trans hB)
    exact hlinks ⟨_, hp⟩ y hy hy'
  · have h1 := hY.block_bounds hA
    have h2 := hY.notMem hB hA hxh (x := y) (by omega) (by omega)
    exact hout y (by omega)

theorem RingOk.congr {d : MemFreeDelay} {xs : List ℕ} (hR : RingOk L d xs)
    (hsize : ∀ x ∈ xs, L'.sizeOf x = L.sizeOf x) : RingOk L' d xs :=
  { hR with bytes := by rw [hR.bytes, List.map_congr_left hsize] }

theorem sizeOf_update (hB : L.block h = some B)
    (hblock : L'.block = Function.update L.block h (some B')) (hsize : B'.size = B.size) (x : ℕ) :
    L'.sizeOf x = L.sizeOf x := by
  unfold Ledger.sizeOf
  rw [hblock, Function.update_apply]
  split
  · rename_i hxh
    subst x
    simp [hB, hsize]
  · rfl

/-! ## One block, or counters -/

/-- What a write into a block and a change of counters leave as it was. -/
structure SameFrame (s s' : Heap) : Prop where
  args : s'.grArgs = s.grArgs
  slop : s'.slopValArr = s.slopValArr
  pools : s'.memPools = s.memPools
  pages : s'.pages = s.pages
  head : ∀ r, s'.head r = s.head r
  delay : ∀ i, (s'.memSlots i).delay = (s.memSlots i).delay
  lock : ∀ l, s'.mutex l = s.mutex l

theorem SameFrame.setLog (hF : SameFrame s s') (log : List Event) :
    SameFrame s { s' with log := log } where
  args := hF.args
  slop := hF.slop
  pools := hF.pools
  pages := hF.pages
  head := hF.head
  delay := hF.delay
  lock l := by
    rw [← hF.lock l]
    cases l <;> rfl

theorem LocksOk.congr (hK : LocksOk s) (hargs : s'.grArgs = s.grArgs)
    (hlock : ∀ l, s'.mutex l = s.mutex l) : LocksOk s' where
  slot i := by
    rw [show (s'.memSlots i).lock = (s.memSlots i).lock from hlock (.slot i), hargs]
    exact hK.slot i
  gMutex := by
    rw [show s'.gMutex = s.gMutex from hlock .gMutex]
    exact hK.gMutex
  initMutex := by
    rw [show s'.initMutex = s.initMutex from hlock .initMutex]
    exact hK.initMutex

/-- A change of counters. -/
theorem Shape.setCounts (hS : Shape env off L s) (hF : SameFrame s s') (hmem : s'.mem = s.mem)
    (hcounts : CountsOk off' s' L) : Shape env off' L s' where
  env_ok := hS.env_ok
  args_eq := hF.args.trans hS.args_eq
  slop_eq := hF.slop ▸ hS.slop_eq
  layout := hF.pools ▸ hS.layout
  pages := by
    rw [hF.pools, hF.pages]
    exact hS.pages
  fresh := by
    rw [hF.pools, hmem]
    exact hS.fresh
  blocks := hmem ▸ hS.blocks
  lists r := by
    rw [hmem, hF.head]
    exact hS.lists r
  rings i := by
    rw [hF.delay]
    exact hS.rings i
  counts := hcounts
  locks := hS.locks.congr hF.args hF.lock

/-- A write into a block and a change of what the ledger says of it, with counters
changed at the same time. -/
theorem Shape.update (hS : Shape env off L s) (hL : L.Sound) (hF : SameFrame s s')
    (hB : L.block h = some B) (hblock : L'.block = Function.update L.block h (some B'))
    (hlist : L'.list = L.list) (hrings : L'.ring = L.ring)
    (hsize : B'.size = B.size) (hring : B'.place = .ring ↔ B.place = .ring)
    (hout : ∀ x, x < h ∨ h + B.size ≤ x → s'.mem x = s.mem x)
    (hlinks : (∃ k, B.place = .on k) → ∀ x, h + 48 ≤ x → x < h + 64 → s'.mem x = s.mem x)
    (hhdr : B'.place ≠ .raw → HeaderOk env.args s'.mem h B')
    (hcounts : CountsOk off' s' L') : Shape env off' L' s' where
  env_ok := hS.env_ok
  args_eq := hF.args.trans hS.args_eq
  slop_eq := hF.slop ▸ hS.slop_eq
  layout := by
    rw [hF.pools]
    exact hS.layout.update hB hblock hsize
  pages := by
    rw [hF.pools, hF.pages]
    exact hS.pages.update hB hblock hsize hring
  fresh := by
    rw [hF.pools]
    exact hS.fresh.update hS.layout hB hout
  blocks := hS.blocks.update hS.env_ok.args hS.layout hB hblock hout hhdr
  lists := by
    have hhead : s'.head = s.head := funext hF.head
    rw [hhead]
    exact hS.lists.update hL hS.layout hB hlist hout hlinks
  rings i := by
    rw [hF.delay, hrings]
    exact (hS.rings i).congr fun x _ => sizeOf_update hB hblock hsize x
  counts := hcounts
  locks := hS.locks.congr hF.args hF.lock

theorem CountsOk.congr (hC : CountsOk off s L) (hslots : s'.memSlots = s.memSlots)
    (hhisto : s'.memHisto = s.memHisto) (hlist : L'.list = L.list)
    (hcounted : L'.counted = L.counted) : CountsOk off s' L' where
  modEq c := by
    have hheap : heapCount s' c = heapCount s c := by
      cases c <;> simp [heapCount, Heap.bin, hslots, hhisto]
    have hled : L'.count c = L.count c := by
      cases c <;> simp [Ledger.count, hlist, hcounted]
    rw [hheap, hled]
    exact hC.modEq c
  bytes_off := hC.bytes_off
  numFree_lt i b := by simpa [Heap.bin, hslots] using hC.numFree_lt i b
  allocs_lt i b := by simpa [Heap.bin, hslots] using hC.allocs_lt i b
  frees_lt i b := by simpa [Heap.bin, hslots] using hC.frees_lt i b
  histo_lt i k := by simpa [hhisto] using hC.histo_lt i k
  bytes_lt i := by simpa [hslots] using hC.bytes_lt i

/-- A write into a block. -/
theorem Shape.write (hS : Shape env off L s) (hL : L.Sound) (hB : L.block h = some B) {m' : Mem}
    (hout : ∀ x, x < h ∨ h + B.size ≤ x → m' x = s.mem x)
    (hlinks : (∃ k, B.place = .on k) → ∀ x, h + 48 ≤ x → x < h + 64 → m' x = s.mem x)
    (hhdr : B.place ≠ .raw → HeaderOk env.args m' h B) :
    Shape env off L { s with mem := m' } :=
  hS.update hL
    ⟨rfl, rfl, rfl, rfl, fun r => by cases r; rfl, fun _ => rfl, fun l => by cases l <;> rfl⟩ hB
    (by rw [← hB, Function.update_eq_self]) rfl rfl rfl Iff.rfl hout hlinks hhdr
    (hS.counts.congr rfl rfl rfl rfl)

end GuardRails
