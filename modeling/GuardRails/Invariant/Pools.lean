import GuardRails.Invariant.Shape
import GuardRails.Model.Pool

/-!
# New pools and new blocks

A region that `mmap` grants lies apart from every pool, so mapping it and making it the
current pool disturb no block. Cutting a block off the current pool takes its bytes from
the rest of the pool, which is open and zero, and closes the page behind them.
-/

namespace GuardRails

open ByteMemory

variable {env : Env} {off : Off} {L : Ledger} {s : Heap} {h : ℕ} {B : Block}
  {pages : ℕ → Prot} {pools : List MemPool} {p : Prot} {a n x : ℕ}

/-! ## Pages -/

theorem protectPages_of_mem (ha : a % 4096 = 0) (hx : a ≤ x) (hx' : x < a + n) :
    protectPages pages a n p (x / 4096) = p := by
  refine if_pos ⟨Nat.div_le_div_right hx, ?_⟩
  change x / 4096 * 4096 < a + n
  omega

theorem protectPages_of_notMem (ha : a % 4096 = 0) (hn : n % 4096 = 0)
    (hx : x < a ∨ a + n ≤ x) : protectPages pages a n p (x / 4096) = pages (x / 4096) := by
  refine if_neg ?_
  change ¬ (a / 4096 ≤ x / 4096 ∧ x / 4096 * 4096 < a + n)
  omega

/-- Protection with rights only opens pages. -/
theorem protectPages_ne_none (hp : p ≠ .none) {k : ℕ} (hk : pages k ≠ .none) :
    protectPages pages a n p k ≠ .none := by
  unfold protectPages
  split
  · exact hp
  · exact hk

theorem Accessible.protect {b k : ℕ} (hacc : Accessible pages b k) (ha : a % 4096 = 0)
    (hn : n % 4096 = 0) (hout : Apart b k a n) :
    Accessible (protectPages pages a n p) b k := by
  intro i hi
  have h := hacc i hi
  unfold Apart at hout
  rw [show (b + i) / pageSize = (b + i) / 4096 from rfl] at h ⊢
  rwa [protectPages_of_notMem ha hn (by omega)]

theorem Accessible.of_protect (ha : a % 4096 = 0) (hp : p ≠ .none) :
    Accessible (protectPages pages a n p) a n := by
  intro i hi
  rw [show (a + i) / pageSize = (a + i) / 4096 from rfl,
    protectPages_of_mem ha (by omega) (by omega)]
  exact hp

/-! ## A new pool -/

theorem Granted.block_apart (hg : Granted s.memPools a n) (hY : Layout s.memPools L)
    (hB : L.block h = some B) : Apart h (B.size + 4096) a n := by
  obtain ⟨P, hP, hPh, hhP⟩ := (hY.block h B hB).inPool
  have h1 := hg.2.2.2 P hP
  have h2 := (hY.pool P hP).startFree_eq
  unfold Apart
  omega

theorem Granted.rest_apart (hg : Granted s.memPools a n) (hY : Layout s.memPools L) {P : MemPool}
    (hP : P ∈ s.memPools) : Apart P.startFree P.remainingSizeBytes a n := by
  have h1 := hg.2.2.2 P hP
  have h2 := (hY.pool P hP).startFree_eq
  have h3 := (hY.pool P hP).start_le
  unfold Apart
  omega

theorem Granted.notMem (hg : Granted s.memPools a n) (hY : Layout s.memPools L)
    (hB : L.block h = some B) (hx : h ≤ x) (hx' : x < h + B.size + 4096) : x < a ∨ a + n ≤ x := by
  have := hg.block_apart hY hB
  unfold Apart at this
  omega

theorem PagesOk.mapped (hP : PagesOk s.pages s.memPools L) (hg : Granted s.memPools a n)
    (hY : Layout s.memPools L) (hn : n % 4096 = 0) :
    PagesOk (protectPages s.pages a n .readWrite) s.memPools L where
  opened y A hA hp i hi := protectPages_ne_none (by simp) (hP.opened y A hA hp i hi)
  shut y A hA hp z hz hz' := by
    rw [protectPages_of_notMem hg.2.1 hn (hg.notMem hY hA hz (by omega))]
    exact hP.shut y A hA hp z hz hz'
  guard y A hA z hz hz' := by
    rw [protectPages_of_notMem hg.2.1 hn (hg.notMem hY hA (by omega) hz')]
    exact hP.guard y A hA z hz hz'
  rest P hP' i hi := protectPages_ne_none (by simp) (hP.rest P hP' i hi)
  low k hk := by
    by_cases hmem : a / pageSize ≤ k ∧ k * pageSize < a + n
    · have h1 : k * 4096 < a + n := hmem.2
      have h2 := hg.2.2.1
      omega
    · refine hP.low k fun h0 => hk ?_
      rw [← h0]
      exact if_neg hmem

/-- A write outside the blocks and outside the rest of the current pool. -/
theorem Shape.setMem_outside (hS : Shape env off L s) (hL : L.Sound) {m' : Mem}
    (hblock : ∀ y A, L.block y = some A → ∀ z, y ≤ z → z < y + A.size → m' z = s.mem z)
    (hfresh : FreshOk m' s.memPools) : Shape env off L { s with mem := m' } where
  env_ok := hS.env_ok
  args_eq := hS.args_eq
  slop_eq := hS.slop_eq
  layout := hS.layout
  pages := hS.pages
  fresh := hfresh
  blocks y A hA hp := by
    refine (hS.blocks y A hA hp).congr hS.env_ok.args (hS.layout.block_bounds hA).2.2.1 ?_
    exact fun z hz hz' _ => hblock y A hA z hz hz'
  lists r := by
    refine HeaderList.congr (m := s.mem) (by cases r; exact hS.lists _) fun y hy z hz hz' => ?_
    obtain ⟨A, hA, -⟩ := (hL.mem_list r y).1 hy
    have h1 := hS.layout.block_bounds hA
    exact hblock y A hA z (by omega) (by omega)
  rings := hS.rings
  counts := hS.counts.congr rfl rfl rfl rfl
  locks := ⟨hS.locks.slot, hS.locks.gMutex, hS.locks.initMutex⟩

/-- A change of protections. -/
theorem Shape.setPages (hS : Shape env off L s) {pages' : ℕ → Prot}
    (hP : PagesOk pages' s.memPools L) : Shape env off L { s with pages := pages' } where
  env_ok := hS.env_ok
  args_eq := hS.args_eq
  slop_eq := hS.slop_eq
  layout := hS.layout
  pages := hP
  fresh := hS.fresh
  blocks := hS.blocks
  lists r := by cases r; exact hS.lists _
  rings := hS.rings
  counts := hS.counts.congr rfl rfl rfl rfl
  locks := ⟨hS.locks.slot, hS.locks.gMutex, hS.locks.initMutex⟩

/-- A granted region is mapped. -/
theorem Shape.mapped (hS : Shape env off L s) (hL : L.Sound) (hg : Granted s.memPools a n)
    (hn : n % 4096 = 0) :
    Shape env off L { s with
      mem := ByteMemory.update s.mem a n fun _ => 0
      pages := protectPages s.pages a n .readWrite } := by
  have hm : ∀ z, z < a ∨ a + n ≤ z → ByteMemory.update s.mem a n (fun _ => 0) z = s.mem z :=
    fun z hz => update_of_notMem hz
  refine (hS.setMem_outside hL (fun y A hA z hz hz' => ?_) fun P hP z hz hz' => ?_).setPages ?_
  · exact hm z (hg.notMem hS.layout hA hz (by omega))
  · have h1 := hg.rest_apart hS.layout (List.mem_of_mem_head? hP)
    unfold Apart at h1
    exact (hm z (by omega)).trans (hS.fresh P hP z hz hz')
  · exact hS.pages.mapped hg hS.layout hn

def newPool (a n : ℕ) : MemPool :=
  { totalSizeBytes := n
    remainingSizeBytes := n
    start := a
    startFree := a
    endAddr := a + n - 1 }

/-- A mapped region becomes the current pool. -/
theorem Shape.pushPool (hS : Shape env off L s) (hg : Granted s.memPools a n) (hn : n % 4096 = 0)
    (hlen : s.memPools.length < maxMemPools) (hacc : Accessible s.pages a n)
    (hzero : ∀ x, a ≤ x → x < a + n → s.mem x = 0) :
    Shape env off L { s with memPools := newPool a n :: s.memPools } where
  env_ok := hS.env_ok
  args_eq := hS.args_eq
  slop_eq := hS.slop_eq
  layout :=
    { pool := fun P hP => by
        rcases List.mem_cons.1 hP with rfl | hP
        · exact
            { start_pos := hg.1
              start_aligned := hg.2.1
              total_aligned := hn
              remaining_aligned := hn
              startFree_eq := rfl
              start_le := le_rfl
              bounded := hg.2.2.1 }
        · exact hS.layout.pool P hP
      apart := List.pairwise_cons.2 ⟨fun P hP => hg.2.2.2 P hP, hS.layout.apart⟩
      length_le := hlen
      block := fun y A hA => by
        have hb := hS.layout.block y A hA
        obtain ⟨P, hP, hPy⟩ := hb.inPool
        exact { hb with inPool := ⟨P, List.mem_cons_of_mem _ hP, hPy⟩ }
      sep := hS.layout.sep }
  pages := { hS.pages with
    rest := fun P hP => by
      obtain rfl := Option.some.inj hP
      exact hacc }
  fresh := fun P hP x hx hx' => by
    obtain rfl := Option.some.inj hP
    exact hzero x hx hx'
  blocks := hS.blocks
  lists := fun r => by cases r; exact hS.lists _
  rings := hS.rings
  counts := hS.counts.congr rfl rfl rfl rfl
  locks := ⟨hS.locks.slot, hS.locks.gMutex, hS.locks.initMutex⟩

/-! ## A new block -/

/-- The next block does not exist yet. -/
theorem Layout.block_startFree {P : MemPool} (hY : Layout pools L)
    (hP : pools.head? = some P) (hpos : 0 < P.remainingSizeBytes) :
    L.block P.startFree = none := by
  cases hB : L.block P.startFree with
  | none => rfl
  | some B =>
      have h1 := hY.block_rest hB hP
      omega

def MemPool.cut (P : MemPool) (n : ℕ) : MemPool :=
  { P with startFree := P.startFree + n, remainingSizeBytes := P.remainingSizeBytes - n }

theorem carved_block {y : ℕ} {A : Block} (hA : (L.step (.carved h n)).block y = some A) :
    (y = h ∧ A = { size := n }) ∨ (y ≠ h ∧ L.block y = some A) := by
  change Function.update L.block h (some { size := n }) y = some A at hA
  rw [Function.update_apply] at hA
  split at hA
  · rename_i hy
    exact .inl ⟨hy, (Option.some.inj hA).symm⟩
  · rename_i hy
    exact .inr ⟨hy, hA⟩

section Carve

variable {P : MemPool} {Ps : List MemPool} {k t : ℕ}

theorem PoolOk.cut (hP : PoolOk P) (ht : t % 4096 = 0) (hrem : t ≤ P.remainingSizeBytes) :
    PoolOk (P.cut t) := by
  have h1 := hP.remaining_aligned
  have h2 := hP.startFree_eq
  have h3 := hP.start_le
  exact
    { start_pos := hP.start_pos
      start_aligned := hP.start_aligned
      total_aligned := hP.total_aligned
      remaining_aligned := by
        change (P.remainingSizeBytes - t) % 4096 = 0
        omega
      startFree_eq := by
        change P.startFree + t + (P.remainingSizeBytes - t) = P.start + P.totalSizeBytes
        omega
      start_le := Nat.le_trans h3 (Nat.le_add_right P.startFree t)
      bounded := hP.bounded }

theorem PoolOk.startFree_aligned (hP : PoolOk P) : P.startFree % 4096 = 0 := by
  have h1 := hP.start_aligned
  have h2 := hP.total_aligned
  have h3 := hP.remaining_aligned
  have h4 := hP.startFree_eq
  omega

theorem Layout.next_apart (hY : Layout (P :: Ps) L) (hB : L.block h = some B)
    (ht : t = n + 4096) (hrem : t ≤ P.remainingSizeBytes) :
    Apart P.startFree (n + 4096) h (B.size + 4096) := by
  rcases hY.block_rest hB rfl with h1 | h1
  · exact .inr ((Nat.add_assoc h B.size 4096).symm.trans_le h1)
  · exact .inl (by omega)

theorem Layout.carve (hY : Layout (P :: Ps) L) (hk : 12 ≤ k) (hk' : k < 40) (hn : n = 2 ^ k)
    (hn' : n % 4096 = 0) (ht : t = n + 4096) (hrem : t ≤ P.remainingSizeBytes) :
    Layout (P.cut t :: Ps) (L.step (.carved P.startFree n)) := by
  have hPok := hY.pool P List.mem_cons_self
  have hcut : (P.cut t).startFree = P.startFree + t := rfl
  have hnew : BlockIn (P.cut t :: Ps) P.startFree n :=
    ⟨hPok.startFree_aligned, ⟨k, hk, hk', hn⟩, P.cut t, List.mem_cons_self, hPok.start_le, by
      rw [hcut]
      omega⟩
  refine
    { pool := fun Q hQ => ?_
      apart := List.pairwise_cons.2 (List.pairwise_cons.1 hY.apart)
      length_le := hY.length_le
      block := fun y A hA => ?_
      sep := fun y z A C hA hC hne => ?_ }
  · rcases List.mem_cons.1 hQ with rfl | hQ
    · exact hPok.cut (by omega) hrem
    · exact hY.pool Q (List.mem_cons_of_mem P hQ)
  · rcases carved_block hA with ⟨rfl, rfl⟩ | ⟨hy, hA⟩
    · exact hnew
    · have hb := hY.block y A hA
      obtain ⟨Q, hQ, hQy, hyQ⟩ := hb.inPool
      refine { hb with inPool := ?_ }
      rcases List.mem_cons.1 hQ with rfl | hQ
      · exact ⟨Q.cut t, List.mem_cons_self, hQy, hyQ.trans (Nat.le_add_right Q.startFree t)⟩
      · exact ⟨Q, List.mem_cons_of_mem _ hQ, hQy, hyQ⟩
  · rcases carved_block hA with ⟨rfl, rfl⟩ | ⟨hy, hA⟩ <;>
      rcases carved_block hC with ⟨rfl, rfl⟩ | ⟨hz, hC⟩
    · exact absurd rfl hne
    · exact hY.next_apart hC ht hrem
    · exact (hY.next_apart hA ht hrem).symm
    · exact hY.sep y z A C hA hC hne

theorem PagesOk.carve (hP : PagesOk pages (P :: Ps) L) (hY : Layout (P :: Ps) L)
    (hn : n % 4096 = 0) (ht : t = n + 4096) (hrem : t ≤ P.remainingSizeBytes) :
    PagesOk (protectPages pages (P.startFree + n) guardSize .none) (P.cut t :: Ps)
      (L.step (.carved P.startFree n)) := by
  have hPok := hY.pool P List.mem_cons_self
  have hal := hPok.startFree_aligned
  have hga : (P.startFree + n) % 4096 = 0 := by omega
  have hgs : guardSize = 4096 := rfl
  have hgs' : guardSize % 4096 = 0 := rfl
  have hrest := hP.rest P rfl
  refine
    { opened := fun y A hA hp => ?_
      shut := fun y A hA hp z hz hz' => ?_
      guard := fun y A hA z hz hz' => ?_
      rest := fun Q hQ => ?_
      low := fun j hj => hP.low j fun h0 => hj ?_ }
  · rcases carved_block hA with ⟨rfl, rfl⟩ | ⟨hy, hA⟩
    · refine (Accessible.mono hrest le_rfl ?_).protect hga hgs' (.inl le_rfl)
      change P.startFree + n ≤ P.startFree + P.remainingSizeBytes
      omega
    · refine (hP.opened y A hA hp).protect hga hgs' ?_
      have h1 := hY.block_rest hA rfl
      unfold Apart
      omega
  · rcases carved_block hA with ⟨rfl, rfl⟩ | ⟨hy, hA⟩
    · simp at hp
    · have := hY.block_rest hA rfl
      rw [protectPages_of_notMem hga hgs' (by omega)]
      exact hP.shut y A hA hp z hz hz'
  · rcases carved_block hA with ⟨rfl, rfl⟩ | ⟨hy, hA⟩
    · exact protectPages_of_mem hga hz hz'
    · have := hY.block_rest hA rfl
      rw [protectPages_of_notMem hga hgs' (by omega)]
      exact hP.guard y A hA z hz hz'
  · obtain rfl := Option.some.inj hQ
    change Accessible _ (P.startFree + t) (P.remainingSizeBytes - t)
    refine (Accessible.mono hrest (by omega) (by omega)).protect hga hgs' (.inr (by omega))
  · unfold protectPages
    rw [h0, ite_self]

end Carve

/-- A block of `n` bytes and its guard page are cut off the current pool. -/
theorem Shape.carve {P : MemPool} {Ps : List MemPool} {k t : ℕ} (hS : Shape env off L s)
    (hL : L.Sound) (hpools : s.memPools = P :: Ps) (hk : 12 ≤ k) (hk' : k < 40) (hn : n = 2 ^ k)
    (ht : t = n + 4096) (hrem : t ≤ P.remainingSizeBytes) :
    Shape env off (L.step (.carved P.startFree n)) { s with
      memPools := P.cut t :: Ps
      mem := setWord s.mem (P.startFree + n) magicGuard
      pages := protectPages s.pages (P.startFree + n) guardSize .none } := by
  have hY := hS.layout
  have hP := hS.pages
  have hF := hS.fresh
  rw [hpools] at hY hP hF
  have hn' : n % 4096 = 0 := by
    rw [hn]
    exact Nat.mod_eq_zero_of_dvd (pow_dvd_pow 2 hk : 2 ^ 12 ∣ 2 ^ k)
  have hnone := hY.block_startFree rfl (by omega)
  have hm : ∀ z, z < P.startFree + n ∨ P.startFree + n + 4096 ≤ z →
      setWord s.mem (P.startFree + n) magicGuard z = s.mem z :=
    fun z hz => setWord_of_notMem (by omega)
  have hold : ∀ y A, L.block y = some A → ∀ z, y ≤ z → z < y + A.size →
      setWord s.mem (P.startFree + n) magicGuard z = s.mem z := by
    intro y A hA z hz hz'
    have := hY.block_rest hA rfl
    exact hm z (by omega)
  refine
    { env_ok := hS.env_ok
      args_eq := hS.args_eq
      slop_eq := hS.slop_eq
      layout := hY.carve hk hk' hn hn' ht hrem
      pages := hP.carve hY hn' ht hrem
      fresh := fun Q hQ z hz hz' => ?_
      blocks := fun y A hA hp => ?_
      lists := fun r => ?_
      rings := fun i => ?_
      counts := hS.counts.congr rfl rfl rfl rfl
      locks := ⟨hS.locks.slot, hS.locks.gMutex, hS.locks.initMutex⟩ }
  · obtain rfl := Option.some.inj hQ
    change P.startFree + t ≤ z at hz
    change z < P.startFree + t + (P.remainingSizeBytes - t) at hz'
    exact (hm z (by omega)).trans (hF P rfl z (by omega) (by omega))
  · rcases carved_block hA with ⟨rfl, rfl⟩ | ⟨hy, hA⟩
    · exact absurd rfl hp
    · refine (hS.blocks y A hA hp).congr hS.env_ok.args (hY.block_bounds hA).2.2.1 ?_
      exact fun z hz hz' _ => hold y A hA z hz hz'
  · refine HeaderList.congr (m := s.mem) (by cases r; exact hS.lists _) fun y hy z hz hz' => ?_
    obtain ⟨A, hA, -⟩ := (hL.mem_list r y).1 hy
    have h1 := hY.block_bounds hA
    exact hold y A hA z (by omega) (by omega)
  · refine (hS.rings i).congr fun y hy => ?_
    obtain ⟨A, hA, -⟩ := (hL.mem_ring i y).1 hy
    have hne : y ≠ P.startFree := fun h0 => by simp [← h0, hA] at hnone
    change ((Function.update L.block P.startFree _ y).map Block.size).getD 0 = L.sizeOf y
    rw [Function.update_of_ne hne, Ledger.sizeOf]

end GuardRails
