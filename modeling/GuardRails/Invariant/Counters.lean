import GuardRails.Invariant.Links

/-!
# Counters

Each change of a counter moves one figure by one, modulo `2 ^ 64`, and nothing else.
-/

namespace GuardRails

open ByteMemory

variable {env : Env} {off : Off} {L : Ledger} {s s' : Heap} {i b k : ℕ}

/-- The bounds of the counters, which are words. -/
structure CountsLt (s : Heap) : Prop where
  numFree_lt : ∀ i b, (s.bin i b).numFree < 2 ^ 64
  allocs_lt : ∀ i b, (s.bin i b).allocs < 2 ^ 64
  frees_lt : ∀ i b, (s.bin i b).frees < 2 ^ 64
  histo_lt : ∀ i k, (s.memHisto i k).allocs < 2 ^ 64 ∧ (s.memHisto i k).frees < 2 ^ 64
  bytes_lt : ∀ i, (s.memSlots i).totalUserRequestedBytes < 2 ^ 64 ∧
    (s.memSlots i).totalUserFreedBytes < 2 ^ 64

theorem CountsOk.lt (hC : CountsOk off s L) : CountsLt s :=
  ⟨hC.numFree_lt, hC.allocs_lt, hC.frees_lt, hC.histo_lt, hC.bytes_lt⟩

/-- One figure moves by `z`. -/
theorem CountsOk.add (hC : CountsOk off s L) {c : Counter} {z : ℤ} (hlt : CountsLt s')
    (hc : ∀ i, c ≠ .bytes i)
    (hcount : ∀ c', heapCount s' c' ≡ heapCount s c' + (if c' = c then z else 0) [ZMOD 2 ^ 64]) :
    CountsOk (off.add c z) s' L where
  modEq c' := by
    refine (hcount c').trans ?_
    rw [Off.add_apply, ← add_assoc]
    exact (hC.modEq c').add_right _
  bytes_off i := by rw [Off.add_apply, if_neg (hc i).symm, hC.bytes_off i, Int.add_zero]
  numFree_lt := hlt.numFree_lt
  allocs_lt := hlt.allocs_lt
  frees_lt := hlt.frees_lt
  histo_lt := hlt.histo_lt
  bytes_lt := hlt.bytes_lt

theorem succ_modEq (n : ℕ) : (((n + 1) % 2 ^ 64 : ℕ) : ℤ) ≡ n + 1 [ZMOD 2 ^ 64] := by
  push_cast
  exact Int.mod_modEq _ _

theorem pred_modEq {n : ℕ} : ((sub64 n 1 : ℕ) : ℤ) ≡ n + -1 [ZMOD 2 ^ 64] := by
  have h : sub64 n 1 = (n + (2 ^ 64 - 1)) % 2 ^ 64 := by
    unfold sub64
    omega
  rw [h, Int.ModEq]
  omega

/-- A change of one bin that is not a change of list heads. -/
structure BinStep (f : MemBin → MemBin) : Prop where
  headFree : ∀ B, (f B).headFree = B.headFree
  headInUse : ∀ B, (f B).headInUse = B.headInUse

theorem updBin_slot (s : Heap) (i b : ℕ) (f : MemBin → MemBin) (j : ℕ) :
    ∃ bins, (s.updBin i b f).memSlots j = { s.memSlots j with memBins := bins } := by
  simp only [Heap.updBin, Heap.updSlot, Function.update_apply]
  split
  · rename_i hj
    exact ⟨_, by rw [hj]⟩
  · exact ⟨(s.memSlots j).memBins, rfl⟩

theorem SameFrame.updBin {f : MemBin → MemBin} (hf : BinStep f) :
    SameFrame s (s.updBin i b f) where
  args := rfl
  slop := rfl
  pools := rfl
  pages := rfl
  head r := by
    obtain ⟨kind, j, c⟩ := r
    have hbin : ((s.updBin i b f).bin j c).headFree = (s.bin j c).headFree ∧
        ((s.updBin i b f).bin j c).headInUse = (s.bin j c).headInUse := by
      rw [bin_updBin]
      split
      · rename_i hjc
        rw [hjc.1, hjc.2]
        exact ⟨hf.headFree _, hf.headInUse _⟩
      · exact ⟨rfl, rfl⟩
    cases kind
    · exact hbin.1
    · exact hbin.2
  delay j := by
    obtain ⟨bins, hs⟩ := updBin_slot s i b f j
    rw [hs]
  lock l := by
    cases l with
    | slot j =>
        obtain ⟨bins, hs⟩ := updBin_slot s i b f j
        simp only [Heap.mutex, hs]
    | gMutex => rfl
    | initMutex => rfl

/-- One figure of one bin moves. -/
theorem CountsOk.updBin {f : MemBin → MemBin} {c : Counter} {z : ℤ} (hC : CountsOk off s L)
    (hlt : (f (s.bin i b)).numFree < 2 ^ 64 ∧ (f (s.bin i b)).allocs < 2 ^ 64 ∧
      (f (s.bin i b)).frees < 2 ^ 64)
    (hfree : ((f (s.bin i b)).numFree : ℤ) ≡
      (s.bin i b).numFree + (if .free i b = c then z else 0) [ZMOD 2 ^ 64])
    (hinUse : ((f (s.bin i b)).allocs : ℤ) - (f (s.bin i b)).frees ≡
      ((s.bin i b).allocs - (s.bin i b).frees) + (if .inUse i b = c then z else 0) [ZMOD 2 ^ 64])
    (hc : c = .free i b ∨ c = .inUse i b) :
    CountsOk (off.add c z) (s.updBin i b f) L := by
  have hbytes : ∀ j, ((s.updBin i b f).memSlots j).totalUserRequestedBytes =
      (s.memSlots j).totalUserRequestedBytes ∧
      ((s.updBin i b f).memSlots j).totalUserFreedBytes =
        (s.memSlots j).totalUserFreedBytes := by
    intro j
    obtain ⟨bins, hs⟩ := updBin_slot s i b f j
    rw [hs]
    exact ⟨rfl, rfl⟩
  refine hC.add ?_ (by rcases hc with rfl | rfl <;> simp) fun c' => ?_
  · refine ⟨fun j d => ?_, fun j d => ?_, fun j d => ?_, hC.histo_lt, fun j => ?_⟩
    · rw [bin_updBin]
      split
      · exact hlt.1
      · exact hC.numFree_lt j d
    · rw [bin_updBin]
      split
      · exact hlt.2.1
      · exact hC.allocs_lt j d
    · rw [bin_updBin]
      split
      · exact hlt.2.2
      · exact hC.frees_lt j d
    · rw [(hbytes j).1, (hbytes j).2]
      exact hC.bytes_lt j
  · cases c' with
    | free j d =>
        simp only [heapCount, bin_updBin]
        by_cases hjd : j = i ∧ d = b
        · obtain ⟨rfl, rfl⟩ := hjd
          simpa using hfree
        · have hne : Counter.free j d ≠ c := by
            rcases hc with rfl | rfl <;> simp [hjd]
          simp [hjd, hne]
    | inUse j d =>
        simp only [heapCount, bin_updBin]
        by_cases hjd : j = i ∧ d = b
        · obtain ⟨rfl, rfl⟩ := hjd
          simpa using hinUse
        · have hne : Counter.inUse j d ≠ c := by
            rcases hc with rfl | rfl <;> simp [hjd]
          simp [hjd, hne]
    | histo j d =>
        have hne : Counter.histo j d ≠ c := by rcases hc with rfl | rfl <;> simp
        simp only [heapCount, if_neg hne, Int.add_zero]
        rfl
    | bytes j =>
        have hne : Counter.bytes j ≠ c := by rcases hc with rfl | rfl <;> simp
        simp only [heapCount, if_neg hne, Int.add_zero, (hbytes j).1, (hbytes j).2]
        rfl

theorem CountsOk.numFree_succ (hC : CountsOk off s L) :
    CountsOk (off.add (.free i b) 1)
      (s.updBin i b fun B => { B with numFree := (B.numFree + 1) % 2 ^ 64 }) L := by
  refine hC.updBin ⟨Nat.mod_lt _ (by norm_num), hC.allocs_lt i b, hC.frees_lt i b⟩ ?_ ?_ (.inl rfl)
  · rw [if_pos rfl]
    exact succ_modEq _
  · simp

theorem CountsOk.numFree_pred (hC : CountsOk off s L) :
    CountsOk (off.add (.free i b) (-1))
      (s.updBin i b fun B => { B with numFree := sub64 B.numFree 1 }) L := by
  refine hC.updBin ⟨Nat.mod_lt _ (by norm_num), hC.allocs_lt i b, hC.frees_lt i b⟩ ?_ ?_ (.inl rfl)
  · rw [if_pos rfl]
    exact pred_modEq
  · simp

theorem CountsOk.allocs_succ (hC : CountsOk off s L) :
    CountsOk (off.add (.inUse i b) 1)
      (s.updBin i b fun B => { B with allocs := (B.allocs + 1) % 2 ^ 64 }) L := by
  refine hC.updBin ⟨hC.numFree_lt i b, Nat.mod_lt _ (by norm_num), hC.frees_lt i b⟩ ?_ ?_ (.inr rfl)
  · simp
  · rw [if_pos rfl, sub_add_eq_add_sub]
    exact (succ_modEq _).sub_right _

theorem CountsOk.frees_succ (hC : CountsOk off s L) :
    CountsOk (off.add (.inUse i b) (-1))
      (s.updBin i b fun B => { B with frees := (B.frees + 1) % 2 ^ 64 }) L := by
  refine hC.updBin ⟨hC.numFree_lt i b, hC.allocs_lt i b, Nat.mod_lt _ (by norm_num)⟩ ?_ ?_ (.inr rfl)
  · simp
  · rw [if_pos rfl, show ((s.bin i b).allocs : ℤ) - (s.bin i b).frees + -1 =
      (s.bin i b).allocs - ((s.bin i b).frees + 1) by ring]
    exact (succ_modEq _).sub_left _

theorem SameFrame.updHisto {f : MemHisto → MemHisto} : SameFrame s (s.updHisto i k f) :=
  ⟨rfl, rfl, rfl, rfl, fun r => by cases r; rfl, fun _ => rfl, fun l => by cases l <;> rfl⟩

theorem histo_updHisto (s : Heap) (i k : ℕ) (f : MemHisto → MemHisto) (j d : ℕ) :
    (s.updHisto i k f).memHisto j d =
      if j = i ∧ d = k then f (s.memHisto i k) else s.memHisto j d := by
  simp only [Heap.updHisto, Function.update_apply]
  by_cases hj : j = i
  · subst hj
    by_cases hd : d = k
    · simp [hd]
    · simp [hd]
  · simp [hj]

/-- One figure of the histogram moves. -/
theorem CountsOk.updHisto {f : MemHisto → MemHisto} {z : ℤ} (hC : CountsOk off s L)
    (hlt : (f (s.memHisto i k)).allocs < 2 ^ 64 ∧ (f (s.memHisto i k)).frees < 2 ^ 64)
    (hmod : ((f (s.memHisto i k)).allocs : ℤ) - (f (s.memHisto i k)).frees ≡
      (s.memHisto i k).allocs - (s.memHisto i k).frees + z [ZMOD 2 ^ 64]) :
    CountsOk (off.add (.histo i k) z) (s.updHisto i k f) L := by
  refine hC.add ⟨hC.numFree_lt, hC.allocs_lt, hC.frees_lt, fun j d => ?_, hC.bytes_lt⟩ (by simp)
    fun c' => ?_
  · rw [histo_updHisto]
    split
    · exact hlt
    · exact hC.histo_lt j d
  · cases c' with
    | histo j d =>
        simp only [heapCount, histo_updHisto]
        by_cases hjd : j = i ∧ d = k
        · obtain ⟨rfl, rfl⟩ := hjd
          simpa using hmod
        · simp [hjd]
    | free j d => simp [heapCount, Heap.updHisto, Heap.bin]
    | inUse j d => simp [heapCount, Heap.updHisto, Heap.bin]
    | bytes j => simp [heapCount, Heap.updHisto]

theorem CountsOk.histo_allocs (hC : CountsOk off s L) :
    CountsOk (off.add (.histo i k) 1)
      (s.updHisto i k fun h => { h with allocs := (h.allocs + 1) % 2 ^ 64 }) L := by
  refine hC.updHisto ⟨Nat.mod_lt _ (by norm_num), (hC.histo_lt i k).2⟩ ?_
  rw [sub_add_eq_add_sub]
  exact (succ_modEq _).sub_right _

theorem CountsOk.histo_frees (hC : CountsOk off s L) :
    CountsOk (off.add (.histo i k) (-1))
      (s.updHisto i k fun h => { h with frees := (h.frees + 1) % 2 ^ 64 }) L := by
  refine hC.updHisto ⟨(hC.histo_lt i k).1, Nat.mod_lt _ (by norm_num)⟩ ?_
  rw [show ((s.memHisto i k).allocs : ℤ) - (s.memHisto i k).frees + -1 =
    (s.memHisto i k).allocs - ((s.memHisto i k).frees + 1) by ring]
  exact (succ_modEq _).sub_left _

/-! ## Requested bytes -/

theorem SameFrame.updSlot {f : MemSlot → MemSlot} (hbins : ∀ S, (f S).memBins = S.memBins)
    (hdelay : ∀ S, (f S).delay = S.delay) (hlock : ∀ S, (f S).lock = S.lock) :
    SameFrame s (s.updSlot i f) where
  args := rfl
  slop := rfl
  pools := rfl
  pages := rfl
  head r := by
    have hbin : (s.updSlot i f).bin r.slot r.bin = s.bin r.slot r.bin := by
      simp only [Heap.bin, Heap.updSlot, Function.update_apply]
      split
      · rename_i hj
        rw [hbins, hj]
      · rfl
    simp only [Heap.head, hbin]
  delay j := by
    simp only [Heap.updSlot, Function.update_apply]
    split
    · rename_i hj
      rw [hdelay, hj]
    · rfl
  lock l := by
    cases l with
    | slot j =>
        simp only [Heap.mutex, Heap.updSlot, Function.update_apply]
        split
        · rename_i hj
          rw [hlock, hj]
        · rfl
    | gMutex => rfl
    | initMutex => rfl

/-- A change of a slot that is not a change of its bins moves its bytes only. -/
theorem CountsOk.updSlot {f : MemSlot → MemSlot} {L' : Ledger} {off' : Off}
    (hC : CountsOk off s L) (hbins : ∀ S, (f S).memBins = S.memBins)
    (hlt : (f (s.memSlots i)).totalUserRequestedBytes < 2 ^ 64 ∧
      (f (s.memSlots i)).totalUserFreedBytes < 2 ^ 64)
    (hbytes : ((f (s.memSlots i)).totalUserRequestedBytes : ℤ) -
      (f (s.memSlots i)).totalUserFreedBytes ≡ L'.count (.bytes i) + off' (.bytes i) [ZMOD 2 ^ 64])
    (hother : ∀ c, c ≠ .bytes i → L'.count c + off' c = L.count c + off c)
    (hoff : ∀ j, off' (.bytes j) = off (.bytes j)) : CountsOk off' (s.updSlot i f) L' := by
  have hbin : ∀ j b, (s.updSlot i f).bin j b = s.bin j b := by
    intro j b
    simp only [Heap.bin, Heap.updSlot, Function.update_apply]
    split
    · rename_i hj
      rw [hbins, hj]
    · rfl
  have hslot : ∀ j, (s.updSlot i f).memSlots j =
      if j = i then f (s.memSlots i) else s.memSlots j := fun j => by
    simp only [Heap.updSlot, Function.update_apply]
  refine
    { modEq := fun c => ?_
      bytes_off := fun j => (hoff j).trans (hC.bytes_off j)
      numFree_lt := fun j b => hbin j b ▸ hC.numFree_lt j b
      allocs_lt := fun j b => hbin j b ▸ hC.allocs_lt j b
      frees_lt := fun j b => hbin j b ▸ hC.frees_lt j b
      histo_lt := hC.histo_lt
      bytes_lt := fun j => ?_ }
  · by_cases hc : c = .bytes i
    · subst hc
      simpa only [heapCount, hslot, if_pos] using hbytes
    · rw [hother c hc]
      have := hC.modEq c
      cases c with
      | free j b => simpa only [heapCount, hbin] using this
      | inUse j b => simpa only [heapCount, hbin] using this
      | histo j k => exact this
      | bytes j =>
          have hj : j ≠ i := fun hj => hc (hj ▸ rfl)
          simpa only [heapCount, hslot, if_neg hj] using this
  · rw [hslot]
    split
    · exact hlt
    · exact hC.bytes_lt j

theorem Ledger.count_counted (L : Ledger) (i : ℕ) (q : Request) (c : Counter) :
    (L.step (.counted i q)).count c = L.count c +
      ((if c = .histo i (log2fast q.size) then 1 else 0) + if c = .bytes i then (q.size : ℤ) else 0) := by
  have hcounted : ∀ j, (L.step (.counted i q)).counted j =
      if j = i then q :: L.counted i else L.counted j := fun j => by
    simp only [Ledger.step, Ledger.updCounted, Ledger.updBlock, Function.update_apply]
  cases c with
  | free j b => simp [Ledger.count, Ledger.step, Ledger.updCounted, Ledger.updBlock]
  | inUse j b => simp [Ledger.count, Ledger.step, Ledger.updCounted, Ledger.updBlock]
  | histo j k =>
      simp only [Ledger.count, hcounted]
      by_cases hj : j = i
      · subst hj
        by_cases hk : log2fast q.size = k
        · simp [hk]
        · simp [hk, Ne.symm hk]
      · simp [hj]
  | bytes j =>
      simp only [Ledger.count, hcounted]
      by_cases hj : j = i
      · subst hj
        simp [add_comm]
      · simp [hj]

/-- The counted requests are that of a block and the others. -/
theorem Ledger.Sound.counted_perm {h : ℕ} {B : Block} {q : Request} (hL : L.Sound)
    (hB : L.block h = some B) (hq : B.request = some q) :
    (L.counted B.slot).Perm (q :: (L.counted B.slot).filter fun q => q.hdr ≠ h) := by
  have hqh : q.hdr = h := (hL.block_ok h B hB).request_hdr q hq
  have hmem : q ∈ L.counted B.slot := (hL.mem_counted_iff (hqh ▸ hB) _).2 ⟨rfl, hq⟩
  have hnd := hL.nodup_counted B.slot
  have hfil : (L.counted B.slot).filter (fun q => q.hdr ≠ h) = (L.counted B.slot).erase q := by
    rw [(hnd.of_map _).erase_eq_filter]
    refine List.filter_congr fun x hx => ?_
    have hiff : x.hdr = h ↔ x = q := by
      constructor
      · intro hxh
        exact List.inj_on_of_nodup_map hnd hx hmem (hxh.trans hqh.symm)
      · rintro rfl
        exact hqh
    simp [hiff, bne, beq_eq_decide]
  rw [hfil]
  exact List.perm_cons_erase hmem

theorem Ledger.count_uncounted {h : ℕ} {B : Block} {q : Request} (hL : L.Sound)
    (hB : L.block h = some B) (hq : B.request = some q) (c : Counter) :
    (L.step (.uncounted B.slot h)).count c +
      ((if c = .histo B.slot (log2fast q.size) then 1 else 0) +
        if c = .bytes B.slot then (q.size : ℤ) else 0) = L.count c := by
  have hperm := hL.counted_perm hB hq
  have hcounted : ∀ j, (L.step (.uncounted B.slot h)).counted j =
      if j = B.slot then (L.counted B.slot).filter (fun q => q.hdr ≠ h) else L.counted j :=
    fun j => by
      simp only [Ledger.step, Ledger.updCounted, Ledger.updBlock, Function.update_apply]
  cases c with
  | free j b => simp [Ledger.count, Ledger.step, Ledger.updCounted, Ledger.updBlock]
  | inUse j b => simp [Ledger.count, Ledger.step, Ledger.updCounted, Ledger.updBlock]
  | histo j k =>
      simp only [Ledger.count, hcounted]
      by_cases hj : j = B.slot
      · subst hj
        rw [if_pos rfl, hperm.countP_eq, List.countP_cons]
        by_cases hk : log2fast q.size = k
        · simp [hk]
        · simp [hk, Ne.symm hk]
      · simp [hj]
  | bytes j =>
      simp only [Ledger.count, hcounted]
      by_cases hj : j = B.slot
      · subst hj
        rw [if_pos rfl, (hperm.map Request.size).sum_eq, List.map_cons, List.sum_cons]
        simp [add_comm]
      · simp [hj]

theorem CountsOk.bytes_add {q : Request} (hC : CountsOk off s L) :
    CountsOk (off.add (.histo i (log2fast q.size)) (-1))
      (s.updSlot i fun S => { S with
        totalUserRequestedBytes := (S.totalUserRequestedBytes + q.size) % 2 ^ 64 })
      (L.step (.counted i q)) := by
  refine hC.updSlot (fun _ => rfl) ⟨Nat.mod_lt _ (by norm_num), (hC.bytes_lt i).2⟩ ?_
    (fun c hc => ?_) fun j => by rw [Off.add_apply, if_neg (by simp), Int.add_zero]
  · rw [L.count_counted, Off.add_apply, if_neg (by simp), if_pos rfl, if_neg (by simp)]
    have := hC.modEq (.bytes i)
    simp only [heapCount, Int.ModEq] at this ⊢
    push_cast
    omega
  · rw [L.count_counted, Off.add_apply, if_neg hc]
    split <;> omega

theorem CountsOk.bytes_sub {h : ℕ} {B : Block} {q : Request} (hC : CountsOk off s L)
    (hL : L.Sound) (hB : L.block h = some B) (hq : B.request = some q) :
    CountsOk (off.add (.histo B.slot (log2fast q.size)) 1)
      (s.updSlot B.slot fun S => { S with
        totalUserFreedBytes := (S.totalUserFreedBytes + q.size) % 2 ^ 64 })
      (L.step (.uncounted B.slot h)) := by
  have hcount := Ledger.count_uncounted hL hB hq
  refine hC.updSlot (fun _ => rfl) ⟨(hC.bytes_lt _).1, Nat.mod_lt _ (by norm_num)⟩ ?_
    (fun c hc => ?_) fun j => by rw [Off.add_apply, if_neg (by simp), Int.add_zero]
  · rw [Off.add_apply, if_neg (by simp)]
    have h1 := hcount (.bytes B.slot)
    rw [if_neg (by simp), if_pos rfl] at h1
    have := hC.modEq (.bytes B.slot)
    simp only [heapCount, Int.ModEq] at this ⊢
    push_cast
    omega
  · have h1 := hcount c
    rw [if_neg hc] at h1
    rw [Off.add_apply]
    split
    · simp_all
      omega
    · simp_all

end GuardRails
