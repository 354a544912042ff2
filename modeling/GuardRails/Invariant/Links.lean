import GuardRails.Invariant.Shape

/-!
# Moving a block into and out of a list

Between lists a block is held. Linking it in front of a list and taking it out of one
write link words only; the invariant follows from the two facts about intrusive lists,
and the counter of the list falls behind the ledger by one step.
-/

namespace GuardRails

open ByteMemory IntrusiveList

variable {env : Env} {off : Off} {L : Ledger} {s : Heap} {h : ℕ} {B : Block} {m' : Mem}

def HeadRef.counter : HeadRef → Counter
  | ⟨.free, i, b⟩ => .free i b
  | ⟨.inUse, i, b⟩ => .inUse i b

def Off.add (off : Off) (c : Counter) (z : ℤ) : Off := Function.update off c (off c + z)

@[simp] theorem Off.add_add (off : Off) (c : Counter) (z w : ℤ) :
    (off.add c z).add c w = off.add c (z + w) := by
  simp [Off.add, add_assoc]

@[simp] theorem Off.add_zero (off : Off) (c : Counter) : off.add c 0 = off := by
  simp [Off.add]

theorem Off.add_comm (off : Off) (c d : Counter) (z w : ℤ) :
    (off.add c z).add d w = (off.add d w).add c z := by
  by_cases hcd : c = d
  · simp [hcd, Int.add_comm]
  · funext x
    simp only [Off.add, Function.update_apply]
    grind

theorem Off.add_apply (off : Off) (c c' : Counter) (z : ℤ) :
    off.add c z c' = off c' + if c' = c then z else 0 := by
  unfold Off.add
  rw [Function.update_apply]
  split
  · rename_i hc
    rw [hc]
  · rw [Int.add_zero]

/-- Two memories differ at most in the link words of blocks. -/
def LinksOnly (L : Ledger) (m m' : Mem) : Prop :=
  ∀ x, (∀ y A, L.block y = some A → x < y + 48 ∨ y + 64 ≤ x) → m' x = m x

theorem HeaderList.erase {m : Mem} {head : ℕ} {xs : List ℕ} (hl : HeaderList m head xs)
    (hd : xs.Nodup) (h0 : h ≠ 0)
    (hn : ∀ x ∈ xs, x ≠ h →
      fld m' x .next = if fld m x .next = h then fld m h .next else fld m x .next)
    (hp : ∀ x ∈ xs, x ≠ h →
      fld m' x .prev = if fld m x .prev = h then fld m h .prev else fld m x .prev) :
    HeaderList m' (if head = h then fld m h .next else head) (xs.erase h) := by
  have key := IsList.erase hl hd h0 hn hp
  exact key

theorem HeaderOk.setPlace {args : GRArgs} {m : Mem} (hH : HeaderOk args m h B) (p : Place) :
    HeaderOk args m h { B with place := p } :=
  { slotNum := hH.slotNum, binNum := hH.binNum, magic := hH.magic, slot_lt := hH.slot_lt
    fresh := hH.fresh
    owner := fun a ha =>
      { hH.owner a ha with fits := (hH.owner a ha).fits, slop := (hH.owner a ha).slop } }

theorem HeaderOk.setRequest {args : GRArgs} {m : Mem} (hH : HeaderOk args m h B)
    (q : Option Request) : HeaderOk args m h { B with request := q } :=
  { slotNum := hH.slotNum, binNum := hH.binNum, magic := hH.magic, slot_lt := hH.slot_lt
    fresh := hH.fresh
    owner := fun a ha =>
      { hH.owner a ha with fits := (hH.owner a ha).fits, slop := (hH.owner a ha).slop } }

theorem FreshOk.links (hF : FreshOk s.mem s.memPools) (hY : Layout s.memPools L)
    (hm : LinksOnly L s.mem m') : FreshOk m' s.memPools := by
  intro P hP x hx hx'
  rw [hm x fun y A hA => ?_]
  · exact hF P hP x hx hx'
  · have h1 := hY.block_rest hA hP
    have h2 := hY.block_bounds hA
    omega

theorem BlocksOk.links (hH : BlocksOk env.args s.mem L) (ha : env.args.Ok)
    (hY : Layout s.memPools L) (hm : LinksOnly L s.mem m') : BlocksOk env.args m' L := by
  intro x A hx hp
  refine (hH x A hx hp).congr ha (hY.block_bounds hx).2.2.1 fun y hy hy' hlink => ?_
  refine hm y fun z C hz => ?_
  by_cases hzx : z = x
  · exact hzx ▸ hlink
  · have h1 := hY.notMem hz hx (Ne.symm hzx) hy (by omega)
    have h2 := hY.block_bounds hz
    omega

/-- A held block is moved to a place that is not the ring. -/
theorem BlocksOk.setPlace {L' : Ledger} {m : Mem} {p : Place} (hH : BlocksOk env.args m L)
    (hB : L.block h = some B) (hraw : B.place ≠ .raw)
    (hblock : L'.block = Function.update L.block h (some { B with place := p })) :
    BlocksOk env.args m L' := by
  intro x A hx hp
  rw [hblock, Function.update_apply] at hx
  split at hx
  · rename_i hxh
    obtain rfl := Option.some.inj hx
    exact hxh ▸ (hH h B hB hraw).setPlace p
  · exact hH x A hx hp

theorem bin_updBin (s : Heap) (i b : ℕ) (f : MemBin → MemBin) (j c : ℕ) :
    (s.updBin i b f).bin j c = if j = i ∧ c = b then f (s.bin i b) else s.bin j c := by
  simp only [Heap.updBin, Heap.updSlot, Heap.bin, Function.update_apply]
  by_cases hj : j = i
  · subst hj
    by_cases hc : c = b
    · simp [hc]
    · simp [hc]
  · simp [hj]

theorem head_setHead (s : Heap) (r r' : HeadRef) (x : ℕ) :
    (s.setHead r x).head r' = if r' = r then x else s.head r' := by
  obtain ⟨k, i, b⟩ := r
  obtain ⟨k', j, c⟩ := r'
  simp only [Heap.setHead, Heap.head, bin_updBin, HeadRef.mk.injEq]
  by_cases hjc : j = i ∧ c = b
  · obtain ⟨rfl, rfl⟩ := hjc
    cases k <;> cases k' <;> simp
  · cases k <;> cases k' <;> simp [hjc]

theorem slot_setHead (s : Heap) (r : HeadRef) (x i : ℕ) :
    ∃ bins, (s.setHead r x).memSlots i = { s.memSlots i with memBins := bins } := by
  simp only [Heap.setHead, Heap.updBin, Heap.updSlot, Function.update_apply]
  split
  · rename_i hi
    exact ⟨_, by rw [hi]⟩
  · exact ⟨(s.memSlots i).memBins, rfl⟩

/-- Writing a list head changes no counter. -/
theorem bin_setHead (s : Heap) (r : HeadRef) (x i b : ℕ) :
    ∃ hf hu, (s.setHead r x).bin i b = { s.bin i b with headFree := hf, headInUse := hu } := by
  simp only [Heap.setHead, bin_updBin]
  split
  · rename_i hib
    obtain ⟨rfl, rfl⟩ := hib
    cases r.kind
    · exact ⟨x, _, rfl⟩
    · exact ⟨_, x, rfl⟩
  · exact ⟨_, _, rfl⟩

theorem heapCount_setHead (s : Heap) (r : HeadRef) (x : ℕ) (c : Counter) :
    heapCount (s.setHead r x) c = heapCount s c := by
  cases c with
  | free i b =>
      obtain ⟨hf, hu, hbin⟩ := bin_setHead s r x i b
      simp only [heapCount, hbin]
  | inUse i b =>
      obtain ⟨hf, hu, hbin⟩ := bin_setHead s r x i b
      simp only [heapCount, hbin]
  | histo i k => rfl
  | bytes i =>
      obtain ⟨bins, hslot⟩ := slot_setHead s r x i
      simp only [heapCount, hslot]

/-- The length of one list changes. -/
theorem CountsOk.relist {L' : Ledger} {r : HeadRef} {x : ℕ} {z : ℤ} (hC : CountsOk off s L)
    (hcounted : L'.counted = L.counted)
    (hother : ∀ r', r' ≠ r → L'.list r' = L.list r')
    (hlen : ((L'.list r).length : ℤ) = (L.list r).length + z) {s' : Heap}
    (hslots : s'.memSlots = (s.setHead r x).memSlots) (hhisto : s'.memHisto = s.memHisto) :
    CountsOk (off.add r.counter (-z)) s' L' := by
  have hcount : ∀ c, L'.count c = L.count c + if c = r.counter then z else 0 := by
    have hlist : ∀ r' : HeadRef, ((L'.list r').length : ℤ) =
        (L.list r').length + if r' = r then z else 0 := by
      intro r'
      by_cases hr : r' = r
      · rw [hr, if_pos rfl, hlen]
      · rw [if_neg hr, hother r' hr, Int.add_zero]
    intro c
    obtain ⟨k, i, b⟩ := r
    cases c with
    | free j c =>
        have := hlist ⟨.free, j, c⟩
        cases k <;> simpa [Ledger.count, HeadRef.counter] using this
    | inUse j c =>
        have := hlist ⟨.inUse, j, c⟩
        cases k <;> simpa [Ledger.count, HeadRef.counter] using this
    | histo j k' => cases k <;> simp [Ledger.count, HeadRef.counter, hcounted]
    | bytes j => cases k <;> simp [Ledger.count, HeadRef.counter, hcounted]
  have hheap : ∀ c, heapCount s' c = heapCount s c := by
    intro c
    rw [← heapCount_setHead s r x c]
    cases c <;> simp only [heapCount, Heap.bin, hslots, hhisto]
    rfl
  have hbin : ∀ i b, ∃ hf hu, s'.bin i b = { s.bin i b with headFree := hf, headInUse := hu } := by
    intro i b
    have := bin_setHead s r x i b
    unfold Heap.bin at this ⊢
    rwa [hslots]
  refine
    { modEq := fun c => ?_
      bytes_off := fun i => ?_
      numFree_lt := fun i b => ?_
      allocs_lt := fun i b => ?_
      frees_lt := fun i b => ?_
      histo_lt := fun i k => hhisto ▸ hC.histo_lt i k
      bytes_lt := fun i => ?_ }
  · rw [hheap, hcount, Off.add_apply]
    have := hC.modEq c
    split
    · convert this using 1
      ring
    · simpa using this
  · have hne : Counter.bytes i ≠ r.counter := by
      obtain ⟨k, j, b⟩ := r
      cases k <;> simp [HeadRef.counter]
    rw [Off.add_apply, if_neg hne, hC.bytes_off i, Int.add_zero]
  · obtain ⟨hf, hu, hb⟩ := hbin i b
    rw [hb]
    exact hC.numFree_lt i b
  · obtain ⟨hf, hu, hb⟩ := hbin i b
    rw [hb]
    exact hC.allocs_lt i b
  · obtain ⟨hf, hu, hb⟩ := hbin i b
    rw [hb]
    exact hC.frees_lt i b
  · obtain ⟨bins, hslot⟩ := slot_setHead s r x i
    rw [hslots, hslot]
    exact hC.bytes_lt i

theorem mutex_setHead (s : Heap) (r : HeadRef) (x : ℕ) (l : LockId) :
    (s.setHead r x).mutex l = s.mutex l := by
  cases l with
  | slot i =>
      obtain ⟨bins, hslot⟩ := slot_setHead s r x i
      simp only [Heap.mutex, hslot]
  | gMutex => rfl
  | initMutex => rfl

/-- A list is changed: the block that moves, the links and the head. -/
theorem Shape.relist {L' : Ledger} {r : HeadRef} {x : ℕ} {p : Place} {z : ℤ}
    (hS : Shape env off L s) (hB : L.block h = some B) (hraw : B.place ≠ .raw)
    (hring : B.place ≠ .ring) (hp : p ≠ .ring)
    (hblock : L'.block = Function.update L.block h (some { B with place := p }))
    (hrings : L'.ring = L.ring) (hcounted : L'.counted = L.counted)
    (hother : ∀ r', r' ≠ r → L'.list r' = L.list r')
    (hlen : ((L'.list r).length : ℤ) = (L.list r).length + z)
    (hm : LinksOnly L s.mem m')
    (hlist : ∀ r', HeaderList m' (if r' = r then x else s.head r') (L'.list r')) :
    Shape env (off.add r.counter (-z)) L' { (s.setHead r x) with mem := m' } where
  env_ok := hS.env_ok
  args_eq := hS.args_eq
  slop_eq := hS.slop_eq
  layout := hS.layout.update hB hblock rfl
  pages := hS.pages.update hB hblock rfl (by simp [hp, hring])
  fresh := hS.fresh.links hS.layout hm
  blocks := (hS.blocks.links hS.env_ok.args hS.layout hm).setPlace hB hraw hblock
  lists r' := by
    have := hlist r'
    rw [← head_setHead] at this
    cases r'
    exact this
  rings i := by
    obtain ⟨bins, hslot⟩ := slot_setHead s r x i
    change RingOk L' ((s.setHead r x).memSlots i).delay (L'.ring i)
    rw [hrings, hslot]
    exact (hS.rings i).congr fun y _ => sizeOf_update hB hblock rfl y
  counts := hS.counts.relist hcounted hother hlen rfl rfl
  locks := hS.locks.congr rfl fun l => by
    rw [← mutex_setHead s r x l]
    cases l <;> rfl

/-- Two lists share no block. -/
theorem Ledger.Sound.list_apart (hL : L.Sound) {r r' : HeadRef} (hne : r' ≠ r) {x : ℕ}
    (hx : x ∈ L.list r') : x ∉ L.list r := by
  intro hx'
  obtain ⟨A, hA, hp, hs, hb⟩ := (hL.mem_list r' x).1 hx
  obtain ⟨hp', hs', hb'⟩ := (hL.mem_list_iff hA r).1 hx'
  refine hne ?_
  cases r
  cases r'
  simp_all

/-- A held block is put in front of a list. -/
theorem Shape.link {r : HeadRef} (hS : Shape env off L s) (hL : L.Sound)
    (hB : L.block h = some B) (hp : B.place = .held) (hm : LinksOnly L s.mem m')
    (hnext : ∀ x A, L.block x = some A →
      fld m' x .next = if x = h then s.head r else fld s.mem x .next)
    (hprev : ∀ x A, L.block x = some A →
      fld m' x .prev = if x = h then 0 else if x = s.head r then h else fld s.mem x .prev) :
    Shape env (off.add r.counter (-1)) (L.step (.linked r h))
      { (s.setHead r h) with mem := m' } := by
  have hnl : ∀ r, h ∉ L.list r := fun r hr => by simp [hL.mem_list_iff hB, hp] at hr
  have hbounds := hS.layout.block_bounds hB
  have hget : ∀ r x, x ∈ L.list r → ∃ A, L.block x = some A ∧ x ≠ h := by
    intro r x hx
    obtain ⟨A, hA, -⟩ := (hL.mem_list r x).1 hx
    exact ⟨A, hA, fun hxh => hnl r (hxh ▸ hx)⟩
  have hlist : ∀ r', (L.step (.linked r h)).list r' =
      if r' = r then h :: L.list r else L.list r' := fun r' => Function.update_apply ..
  refine hS.relist (p := .on r.kind) (z := 1) hB (by simp [hp]) (by simp [hp]) (by simp)
    (Ledger.block_updBlock hB _) rfl rfl (fun r' hr => by rw [hlist, if_neg hr])
    (by rw [hlist, if_pos rfl]; simp) hm fun r' => ?_
  rw [hlist]
  by_cases hr : r' = r
  · rw [if_pos hr, if_pos hr]
    refine IsList.insert (hS.lists r) (hnl r) (by omega) (hL.nodup_list r) ?_ ?_ ?_ ?_ ?_
    · rw [hnext h B hB, if_pos rfl]
    · rw [hprev h B hB, if_pos rfl]
    · intro h0
      obtain ⟨A, hA, hne⟩ := hget r _ ((hS.lists r).head_mem h0)
      rw [hprev _ A hA, if_neg hne, if_pos rfl]
    · intro x hx
      obtain ⟨A, hA, hne⟩ := hget r x hx
      rw [hnext x A hA, if_neg hne]
    · intro x hx hxh
      obtain ⟨A, hA, hne⟩ := hget r x hx
      rw [hprev x A hA, if_neg hne, if_neg hxh]
  · rw [if_neg hr, if_neg hr]
    refine IsList.congr (hS.lists r') (fun x hx => ?_) fun x hx => ?_
    · obtain ⟨A, hA, hne⟩ := hget r' x hx
      rw [hnext x A hA, if_neg hne]
    · obtain ⟨A, hA, hne⟩ := hget r' x hx
      have hxh : x ≠ s.head r := by
        rintro rfl
        have h0 := (hS.layout.block_bounds hA).1
        exact hL.list_apart hr hx ((hS.lists r).head_mem (by omega))
      rw [hprev x A hA, if_neg hne, if_neg hxh]

/-- A block is taken out of its list and held. -/
theorem Shape.unlink {r : HeadRef} (hS : Shape env off L s) (hL : L.Sound)
    (hB : L.block h = some B) (hmem : h ∈ L.list r) (hm : LinksOnly L s.mem m')
    (hnext : ∀ x A, L.block x = some A → fld m' x .next =
      if x = fld s.mem h .prev then fld s.mem h .next else fld s.mem x .next)
    (hprev : ∀ x A, L.block x = some A → fld m' x .prev =
      if x = fld s.mem h .next then fld s.mem h .prev else fld s.mem x .prev) :
    Shape env (off.add r.counter 1) (L.step (.unlinked r h))
      { (s.setHead r (if s.head r = h then fld s.mem h .next else s.head r)) with mem := m' } := by
  obtain ⟨hp, -, -⟩ := (hL.mem_list_iff hB r).1 hmem
  have hbounds := hS.layout.block_bounds hB
  have hnd := hL.nodup_list r
  have hl : HeaderList s.mem (s.head r) (L.list r) := hS.lists r
  have hlist : ∀ r', (L.step (.unlinked r h)).list r' =
      if r' = r then (L.list r).erase h else L.list r' := fun r' => Function.update_apply ..
  have hget : ∀ r x, x ∈ L.list r → ∃ A, L.block x = some A ∧ x ≠ 0 := by
    intro r x hx
    obtain ⟨A, hA, -⟩ := (hL.mem_list r x).1 hx
    have := hS.layout.block_bounds hA
    exact ⟨A, hA, by omega⟩
  have hpos := List.length_pos_of_mem hmem
  rw [show (1 : ℤ) = -(-1) from rfl]
  refine hS.relist (p := .held) (z := -1) hB (by simp [hp]) (by simp [hp]) (by simp)
    (Ledger.block_updBlock hB _) rfl rfl (fun r' hr => by rw [hlist, if_neg hr])
    (by rw [hlist, if_pos rfl, List.length_erase_of_mem hmem]; omega) hm fun r' => ?_
  rw [hlist]
  by_cases hr : r' = r
  · rw [if_pos hr, if_pos hr]
    refine hl.erase hnd (by omega) (fun x hx hxh => ?_) fun x hx hxh => ?_
    · obtain ⟨A, hA, -⟩ := hget r x hx
      rw [hnext x A hA]
      refine if_congr ?_ rfl rfl
      rw [Chain.next_eq_iff hl hnd hl.zero_notMem hx hmem]
      exact eq_comm
    · obtain ⟨A, hA, -⟩ := hget r x hx
      rw [hprev x A hA]
      refine if_congr ?_ rfl rfl
      rw [← Chain.next_eq_iff hl hnd hl.zero_notMem hmem hx]
      exact eq_comm
  · rw [if_neg hr, if_neg hr]
    refine IsList.congr (hS.lists r') (fun x hx => ?_) fun x hx => ?_
    · obtain ⟨A, hA, h0⟩ := hget r' x hx
      have hne : x ≠ fld s.mem h .prev := by
        intro hxp
        rcases hl.prev_mem hmem with hz | hz
        · exact h0 (hxp.trans hz)
        · exact hL.list_apart hr hx (hxp ▸ hz)
      rw [hnext x A hA, if_neg hne]
    · obtain ⟨A, hA, h0⟩ := hget r' x hx
      have hne : x ≠ fld s.mem h .next := by
        intro hxp
        rcases hl.next_mem hmem with hz | hz
        · exact h0 (hxp.trans hz)
        · exact hL.list_apart hr hx (hxp ▸ hz)
      rw [hprev x A hA, if_neg hne]

end GuardRails
