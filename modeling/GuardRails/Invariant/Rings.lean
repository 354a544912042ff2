import GuardRails.Invariant.Links
import GuardRails.Invariant.Pools
import GuardRails.Model.DelayFree
import Mathlib.Algebra.Order.BigOperators.Group.List

/-!
# In and out of the delay ring

A block that enters or leaves the ring changes its pages with its place. The ring of
`DelayFree.c` is a queue; its counts do not overflow because it holds at most half of
`MAX_DELAY_ELMS` blocks and one more.
-/

namespace GuardRails

open ByteMemory

variable {env : Env} {off : Off} {L L' : Ledger} {s s' : Heap} {h i : ℕ} {B B' : Block}
  {p : Place} {pages pages' : ℕ → Prot} {pools : List MemPool} {d : MemFreeDelay} {xs : List ℕ}

/-! ## Pages -/

theorem PagesOk.setPlace (hP : PagesOk pages pools L) (hY : Layout pools L)
    (hB : L.block h = some B)
    (hblock : L'.block = Function.update L.block h (some { B with place := p }))
    (hout : ∀ x, x < h ∨ h + B.size ≤ x → pages' (x / 4096) = pages (x / 4096))
    (hin : ∀ x, h ≤ x → x < h + B.size → (pages' (x / 4096) = .none ↔ p = .ring)) :
    PagesOk pages' pools L' := by
  have hh := hY.block_bounds hB
  have hget : ∀ x A', L'.block x = some A' →
      (x = h ∧ A' = { B with place := p }) ∨ (x ≠ h ∧ L.block x = some A') := by
    intro x A' hx
    rw [hblock, Function.update_apply] at hx
    split at hx
    · rename_i hxh
      exact .inl ⟨hxh, (Option.some.inj hx).symm⟩
    · rename_i hxh
      exact .inr ⟨hxh, hx⟩
  refine
    { opened := fun x A hx hp i hi => ?_
      shut := fun x A hx hp y hy hy' => ?_
      guard := fun x A hx y hy hy' => ?_
      rest := fun P hP' i hi => ?_
      low := fun k hk => ?_ }
  · rcases hget x A hx with ⟨rfl, rfl⟩ | ⟨hxh, hx⟩
    · exact fun hn => hp ((hin _ (by omega) (Nat.add_lt_add_left hi x)).1 hn)
    · have := hY.notMem hB hx hxh (x := x + i) (by omega) (by omega)
      rw [show (x + i) / pageSize = (x + i) / 4096 from rfl, hout _ (by omega)]
      exact hP.opened x A hx hp i hi
  · rcases hget x A hx with ⟨rfl, rfl⟩ | ⟨hxh, hx⟩
    · exact (hin y hy hy').2 hp
    · have := hY.notMem hB hx hxh hy (by omega)
      rw [hout _ (by omega)]
      exact hP.shut x A hx hp y hy hy'
  · rcases hget x A hx with ⟨rfl, rfl⟩ | ⟨hxh, hx⟩
    · rw [hout _ (.inr hy)]
      exact hP.guard x B hB y hy hy'
    · have := hY.notMem hB hx hxh (x := y) (by omega) hy'
      rw [hout _ (by omega)]
      exact hP.guard x A hx y hy hy'
  · have := hY.block_rest hB hP'
    rw [show (P.startFree + i) / pageSize = (P.startFree + i) / 4096 from rfl, hout _ (by omega)]
    exact hP.rest P hP' i hi
  · by_cases hkb : h ≤ k * 4096 ∧ k * 4096 < h + B.size
    · omega
    · have h1 := hout (k * 4096) (by omega)
      rw [Nat.mul_div_cancel _ (by norm_num)] at h1
      exact hP.low k (h1 ▸ hk)

/-- The pages of a block after `mprotect` without rights. -/
theorem shut_protect {n : ℕ} (hh : h % 4096 = 0) (x : ℕ) (hx : h ≤ x) (hx' : x < h + n) :
    protectPages pages h n .none (x / 4096) = .none ↔ Place.ring = .ring :=
  iff_of_true (protectPages_of_mem hh hx hx') rfl

/-! ## The queue -/

def MemFreeDelay.ring (d : MemFreeDelay) : RingBuffer.Ring ℕ :=
  ⟨d.elms, d.head, d.tail, d.numDelayed, d.bytesDelayed⟩

theorem RingOk.holds (hR : RingOk L d xs) : d.ring.Holds maxDelayElms L.sizeOf xs :=
  ⟨hR.tail_lt, hR.head_eq, hR.count, hR.contents, hR.bytes⟩

theorem Layout.sizeOf_le {pools : List MemPool} (hY : Layout pools L) (x : ℕ) :
    L.sizeOf x ≤ 2 ^ 39 := by
  unfold Ledger.sizeOf
  cases hx : L.block x with
  | none => simp
  | some A => exact (hY.block x A hx).size_le

theorem Layout.sum_sizeOf_le {pools : List MemPool} (hY : Layout pools L) (xs : List ℕ) :
    (xs.map L.sizeOf).sum ≤ xs.length * 2 ^ 39 := by
  have hle := List.sum_le_card_nsmul (xs.map L.sizeOf) (2 ^ 39) fun y hy => by
    obtain ⟨x, -, rfl⟩ := List.mem_map.1 hy
    exact hY.sizeOf_le x
  rwa [List.length_map, Nat.nsmul_eq_mul] at hle

theorem RingOk.put {n : ℕ} (hR : RingOk L d xs) (hlen : xs.length ≤ maxDelayElms / 2)
    (hY : Layout pools L) (hn : n = L.sizeOf h) :
    RingOk L
      { d with
        elms := Function.update d.elms d.head h
        head := (d.head + 1) % maxDelayElms
        numDelayed := (d.numDelayed + 1) % 2 ^ 64
        bytesDelayed := (d.bytesDelayed + n) % 2 ^ 64 } (xs ++ [h]) := by
  have hlen' : xs.length ≤ 16384 := hlen
  have hsum := hY.sum_sizeOf_le xs
  have hsize := hY.sizeOf_le h
  have hlt : xs.length < maxDelayElms := lt_of_le_of_lt hlen (by decide)
  have hput : (d.ring.append maxDelayElms h (L.sizeOf h)).Holds maxDelayElms L.sizeOf (xs ++ [h]) :=
    hR.holds.append hlt
  refine ⟨hput.tail_lt, hput.head_eq, ?_, hput.contents_eq, ?_, fun hyoung => ?_⟩
  · have hcount : d.numDelayed + 1 = (xs ++ [h]).length := hput.count_eq
    change (d.numDelayed + 1) % 2 ^ 64 = _
    rw [hR.count, Nat.mod_eq_of_lt (by omega), ← hR.count, hcount]
  · have hbytes : d.bytesDelayed + L.sizeOf h = ((xs ++ [h]).map L.sizeOf).sum := hput.weight_eq
    change (d.bytesDelayed + n) % 2 ^ 64 = _
    rw [hn, Nat.mod_eq_of_lt (by rw [hR.bytes]; omega), hbytes]
  · rw [List.length_append, List.length_singleton] at hyoung
    have hyoung' : xs.length + 1 < 8192 := hyoung
    obtain ⟨htail, hnull⟩ := hR.young ((Nat.lt_succ_self _).trans hyoung)
    have hhead : d.head = xs.length := by
      rw [hR.head_eq, htail, Nat.zero_add]
      exact Nat.mod_eq_of_lt hlt
    refine ⟨htail, fun j hj => ?_⟩
    have hj' : (d.head + 1) % 32768 ≤ j := hj
    exact (Function.update_of_ne (by omega) _ _).trans (hnull j (by omega))

theorem RingOk.get {n x : ℕ} (hR : RingOk L d (x :: xs)) (hlen : xs.length < maxDelayElms)
    (hmany : maxDelayElms / 4 ≤ xs.length) (hY : Layout pools L) (hn : n = L.sizeOf x) :
    RingOk L
      { d with
        tail := (d.tail + 1) % maxDelayElms
        numDelayed := d.numDelayed - 1
        bytesDelayed := sub64 d.bytesDelayed n } xs := by
  have hlen' : xs.length < 32768 := hlen
  have hsum := hY.sum_sizeOf_le xs
  have hsize := hY.sizeOf_le x
  have hget : (d.ring.remove maxDelayElms (L.sizeOf x)).Holds maxDelayElms L.sizeOf xs := hR.holds.remove
  refine ⟨hget.tail_lt, hget.head_eq, hget.count_eq, hget.contents_eq, ?_,
    fun hyoung => absurd hmany (not_le.2 hyoung)⟩
  change sub64 d.bytesDelayed n = _
  rw [hR.bytes, List.map_cons, List.sum_cons, sub64, hn]
  omega

/-! ## The shape -/

theorem RingOk.setBlock (hR : RingOk L d xs) (hB : L.block h = some B)
    (hblock : L'.block = Function.update L.block h (some B')) (hsize : B'.size = B.size) :
    RingOk L' d xs :=
  hR.congr fun x _ => sizeOf_update hB hblock hsize x

theorem slot_updDelay (s : Heap) (i : ℕ) (f : MemFreeDelay → MemFreeDelay) (j : ℕ) :
    (s.updDelay i f).memSlots j = { s.memSlots j with
      delay := if j = i then f (s.memSlots i).delay else (s.memSlots j).delay } := by
  simp only [Heap.updDelay, Heap.updSlot, Function.update_apply]
  split
  · rename_i hj
    rw [hj]
  · rfl

theorem head_updDelay (s : Heap) (i : ℕ) (f : MemFreeDelay → MemFreeDelay) (r : HeadRef) :
    (s.updDelay i f).head r = s.head r := by
  simp only [Heap.head, Heap.bin, slot_updDelay]

theorem mutex_updDelay (s : Heap) (i : ℕ) (f : MemFreeDelay → MemFreeDelay) (l : LockId) :
    (s.updDelay i f).mutex l = s.mutex l := by
  cases l <;> simp only [Heap.mutex, slot_updDelay] <;> rfl

theorem CountsOk.updDelay {f : MemFreeDelay → MemFreeDelay} (hC : CountsOk off s L)
    (hlist : L'.list = L.list) (hcounted : L'.counted = L.counted) :
    CountsOk off (s.updDelay i f) L' := by
  have hbin : ∀ j b, (s.updDelay i f).bin j b = s.bin j b := fun j b => by
    simp only [Heap.bin, slot_updDelay]
  refine
    { modEq := fun c => ?_
      bytes_off := hC.bytes_off
      numFree_lt := fun j b => hbin j b ▸ hC.numFree_lt j b
      allocs_lt := fun j b => hbin j b ▸ hC.allocs_lt j b
      frees_lt := fun j b => hbin j b ▸ hC.frees_lt j b
      histo_lt := hC.histo_lt
      bytes_lt := fun j => by
        rw [slot_updDelay]
        exact hC.bytes_lt j }
  have hcount : L'.count c = L.count c := by
    cases c <;> simp only [Ledger.count, hlist, hcounted]
  have hmod := hC.modEq c
  rw [hcount]
  cases c with
  | free j b => simpa only [heapCount, hbin] using hmod
  | inUse j b => simpa only [heapCount, hbin] using hmod
  | histo j k => exact hmod
  | bytes j =>
      simp only [heapCount, slot_updDelay]
      exact hmod

/-- A block goes into the ring of a slot or comes out of it. -/
theorem Shape.ring {xs' : List ℕ} {f : MemFreeDelay → MemFreeDelay} (hS : Shape env off L s)
    (hB : L.block h = some B) (hraw : B.place ≠ .raw)
    (hblock : L'.block = Function.update L.block h (some { B with place := p }))
    (hlist : L'.list = L.list) (hcounted : L'.counted = L.counted)
    (hrings : L'.ring = Function.update L.ring i xs')
    (hring : RingOk L (f (s.memSlots i).delay) xs')
    (hout : ∀ x, x < h ∨ h + B.size ≤ x → pages' (x / 4096) = s.pages (x / 4096))
    (hin : ∀ x, h ≤ x → x < h + B.size → (pages' (x / 4096) = .none ↔ p = .ring)) :
    Shape env off L' { (s.updDelay i f) with pages := pages' } where
  env_ok := hS.env_ok
  args_eq := hS.args_eq
  slop_eq := hS.slop_eq
  layout := hS.layout.update hB hblock rfl
  pages := hS.pages.setPlace hS.layout hB hblock hout hin
  fresh := hS.fresh
  blocks := hS.blocks.setPlace hB hraw hblock
  lists r := by
    rw [hlist]
    have hl := hS.lists r
    rw [← head_updDelay s i f r] at hl
    cases r
    exact hl
  rings j := by
    have hj : ((s.updDelay i f).memSlots j).delay =
        if j = i then f (s.memSlots i).delay else (s.memSlots j).delay := by rw [slot_updDelay]
    rw [hrings, Function.update_apply]
    change RingOk L' ((s.updDelay i f).memSlots j).delay _
    rw [hj]
    split
    · exact hring.setBlock hB hblock rfl
    · exact (hS.rings j).setBlock hB hblock rfl
  counts := by
    have hC := hS.counts.updDelay (i := i) (f := f) hlist hcounted
    exact hC.congr rfl rfl rfl rfl
  locks := hS.locks.congr rfl fun l => by
    rw [← mutex_updDelay s i f l]
    cases l <;> rfl

end GuardRails
