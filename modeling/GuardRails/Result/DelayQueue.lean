import GuardRails.Spec.Complete

/-!
# The delay ring is a bounded queue

What `delayPut` does to the ring of a slot is a sequence of insertions and removals. The
header that goes in is the last of the queue between `tail` and `head`, the one that comes out
is the first, and since `delayPut` drains a ring that is more than half full, it never runs full.
Between two of these steps the rest of the heap may change.
-/

namespace GuardRails

open ByteMemory StateHoare

inductive RingOp
  | put (h : ℕ)
  | get

variable {env : Env} {ctx : Ctx} {s s' s₁ : Heap} {h i b : ℕ} {q : List ℕ} {ops : List RingOp}

def RingOp.run : List ℕ → RingOp → List ℕ
  | q, put h => q ++ [h]
  | q, get => q.tail

structure ZeroRing (i : ℕ) (s : Heap) : Prop where
  head : (s.memSlots i).delay.head = 0
  tail : (s.memSlots i).delay.tail = 0
  num : (s.memSlots i).delay.numDelayed = 0
  bytes : (s.memSlots i).delay.bytesDelayed = 0
  heads : ∀ b, (s.bin i b).headFree % pageSize = 0

/-- The heap changes elsewhere: not in the ring of the slot nor in the bins of its headers. -/
structure Elsewhere (i : ℕ) (s s' : Heap) : Prop where
  ring : (s'.memSlots i).delay = (s.memSlots i).delay
  bins : ∀ h ∈ (s.memSlots i).delay.ring.queue maxDelayElms,
    fld s'.mem h .binNum = fld s.mem h .binNum
  heads : ∀ b, (s'.bin i b).headFree % pageSize = 0

/-- The ring of a slot after some operations, from a zeroed ring on: a header goes in while the
ring is at most half full, and one comes out while it is more than a quarter full. -/
inductive RingRun (ctx : Ctx) (i : ℕ) : List RingOp → Heap → Prop
  | zero {s : Heap} (hzero : ZeroRing i s) : RingRun ctx i [] s
  | put {ops : List RingOp} {s s' : Heap} {h : ℕ} (hrun : RingRun ctx i ops s)
      (hal : h % pageSize = 0) (hbin : fld s.mem h .binNum < maxAllocPower)
      (hroom : (s.memSlots i).delay.numDelayed ≤ maxDelayElms / 2)
      (hput : circPut i h s = .ok () s') : RingRun ctx i (ops ++ [.put h]) s'
  | get {ops : List RingOp} {s s' : Heap} {h : ℕ} (hrun : RingRun ctx i ops s)
      (hmany : maxDelayElms / 4 < (s.memSlots i).delay.numDelayed)
      (hget : circGet ctx i s = .ok h s') : RingRun ctx i (ops ++ [.get]) s'
  | other {ops : List RingOp} {s s' : Heap} (hrun : RingRun ctx i ops s)
      (helse : Elsewhere i s s') : RingRun ctx i ops s'

def drains (n : ℕ) : ℕ := if maxDelayElms / 2 < n then n - maxDelayElms / 4 else 0

def delayOps (n h : ℕ) : List RingOp := List.replicate (drains n) .get ++ [.put h]

/-- The ring of a slot after some calls of `delayPut`, from a zeroed ring on, and the operations
that they come to. -/
inductive DelayRun (ctx : Ctx) (i : ℕ) : List RingOp → Heap → Prop
  | zero {s : Heap} (hzero : ZeroRing i s) : DelayRun ctx i [] s
  | call {ops : List RingOp} {s s' : Heap} {h : ℕ} (hrun : DelayRun ctx i ops s)
      (hal : h % pageSize = 0) (hbin : fld s.mem h .binNum < maxAllocPower)
      (hput : delayPut ctx i h s = .ok () s') :
      DelayRun ctx i (ops ++ delayOps (ops.foldl RingOp.run []).length h) s'
  | other {ops : List RingOp} {s s' : Heap} (hrun : DelayRun ctx i ops s)
      (helse : Elsewhere i s s') : DelayRun ctx i ops s'

def Heap.binBytes (s : Heap) (h : ℕ) : ℕ := 2 ^ fld s.mem h .binNum

structure Queued (s : Heap) (i : ℕ) (q : List ℕ) : Prop where
  holds : (s.memSlots i).delay.ring.Holds maxDelayElms s.binBytes q
  le : q.length ≤ maxDelayElms / 2 + 1
  aligned : ∀ h ∈ q, h % pageSize = 0
  bin_lt : ∀ h ∈ q, fld s.mem h .binNum < maxAllocPower
  heads : ∀ b, (s.bin i b).headFree % pageSize = 0

namespace Queued

theorem lt (hQ : Queued s i q) : q.length < maxDelayElms := lt_of_le_of_lt hQ.le (by decide)

theorem count (hQ : Queued s i q) : (s.memSlots i).delay.numDelayed = q.length := hQ.holds.count_eq

theorem bytes_le (hQ : Queued s i q) : (s.memSlots i).delay.bytesDelayed ≤ q.length * 2 ^ 39 := by
  have hsum : (s.memSlots i).delay.bytesDelayed = (q.map s.binBytes).sum := hQ.holds.weight_eq
  have hle := List.sum_le_card_nsmul (q.map s.binBytes) (2 ^ 39) fun y hy => by
    obtain ⟨h, hh, rfl⟩ := List.mem_map.1 hy
    exact Nat.pow_le_pow_right (by decide) (Nat.le_of_lt_succ (hQ.bin_lt h hh))
  rw [List.length_map, Nat.nsmul_eq_mul] at hle
  exact hsum ▸ hle

theorem other (hQ : Queued s i q) (hring : (s'.memSlots i).delay = (s.memSlots i).delay)
    (hbins : ∀ h ∈ q, fld s'.mem h .binNum = fld s.mem h .binNum)
    (hheads : ∀ b, (s'.bin i b).headFree % pageSize = 0) : Queued s' i q where
  holds := by
    rw [hring]
    exact hQ.holds.congr fun h hh => congrArg (2 ^ ·) (hbins h hh)
  le := hQ.le
  aligned := hQ.aligned
  bin_lt h hh := by
    rw [hbins h hh]
    exact hQ.bin_lt h hh
  heads := hheads

end Queued

theorem bin_updDelay (s : Heap) (i : ℕ) (f : MemFreeDelay → MemFreeDelay) (j b : ℕ) :
    (s.updDelay i f).bin j b = s.bin j b := by
  simp only [Heap.bin, slot_updDelay]

/-! ## The operations -/

/-- The ring after `circPut`. -/
theorem ring_put (hQ : Queued s i q) (hroom : q.length ≤ maxDelayElms / 2)
    (hb : b < maxAllocPower) : ((s.memSlots i).delay.put h b).ring =
      (s.memSlots i).delay.ring.append maxDelayElms h (2 ^ b) := by
  have hcount := hQ.count
  have hbytes := hQ.bytes_le
  have hpow : 2 ^ b ≤ 2 ^ 39 := Nat.pow_le_pow_right (by decide) (Nat.le_of_lt_succ hb)
  have hroom' : q.length ≤ 16384 := hroom
  have hnum : ((s.memSlots i).delay.numDelayed + 1) % 2 ^ 64 = (s.memSlots i).delay.numDelayed + 1 :=
    Nat.mod_eq_of_lt (by omega)
  have hweight : ((s.memSlots i).delay.bytesDelayed + 2 ^ b) % 2 ^ 64 =
      (s.memSlots i).delay.bytesDelayed + 2 ^ b := Nat.mod_eq_of_lt (by omega)
  unfold MemFreeDelay.put MemFreeDelay.ring RingBuffer.Ring.append
  dsimp only
  rw [hnum, hweight]

theorem Queued.put (hQ : Queued s i q) (hroom : q.length ≤ maxDelayElms / 2) (hal : h % pageSize = 0)
    (hb : fld s.mem h .binNum = b) (hb' : b < maxAllocPower) (log : List Event) :
    Queued { (s.updDelay i fun d => d.put h b) with log := log } i (q ++ [h]) where
  holds := by
    have hw : s.binBytes h = 2 ^ b := congrArg (2 ^ ·) hb
    have happend : ((s.memSlots i).delay.ring.append maxDelayElms h (s.binBytes h)).Holds
        maxDelayElms s.binBytes (q ++ [h]) := hQ.holds.append hQ.lt
    rw [hw, ← ring_put hQ hroom hb'] at happend
    change (((s.updDelay i fun d => d.put h b).memSlots i).delay).ring.Holds _ _ _
    rw [slot_updDelay]
    dsimp only
    rw [if_pos rfl]
    exact happend
  le := by
    rw [List.length_append, List.length_singleton]
    exact Nat.succ_le_succ hroom
  aligned k hk := (List.mem_append.1 hk).elim (hQ.aligned k) fun hk => by
    rwa [List.mem_singleton.1 hk]
  bin_lt k hk := (List.mem_append.1 hk).elim (hQ.bin_lt k) fun hk => by
    obtain rfl := List.mem_singleton.1 hk
    exact hb.trans_lt hb'
  heads c := by
    change ((s.updDelay i fun d => d.put h b).bin i c).headFree % pageSize = 0
    rw [bin_updDelay]
    exact hQ.heads c

/-- The ring after `circGet`; the subtraction does not wrap. -/
theorem ring_get (hQ : Queued s i (h :: q)) (hb : fld s.mem h .binNum = b) :
    ((s.memSlots i).delay.get b).ring =
      (s.memSlots i).delay.ring.remove maxDelayElms (s.binBytes h) := by
  have hw : s.binBytes h = 2 ^ b := congrArg (2 ^ ·) hb
  have hle : s.binBytes h ≤ (s.memSlots i).delay.bytesDelayed := hQ.holds.weight_le List.mem_cons_self
  have hbytes := hQ.bytes_le
  have hlt : (h :: q).length ≤ 16385 := hQ.le
  rw [hw] at hle ⊢
  have hsub : sub64 (s.memSlots i).delay.bytesDelayed (2 ^ b) =
      (s.memSlots i).delay.bytesDelayed - 2 ^ b := by
    unfold sub64
    omega
  unfold MemFreeDelay.get MemFreeDelay.ring RingBuffer.Ring.remove
  dsimp only
  rw [hsub]

theorem Queued.get (hQ : Queued s i (h :: q)) (hb : fld s.mem h .binNum = b) (pages : ℕ → Prot)
    (t : ℕ) (log : List Event) :
    Queued { (s.updDelay i fun d => d.get b) with pages := pages, clock := t, log := log } i q where
  holds := by
    have hremove := hQ.holds.remove
    rw [← ring_get hQ hb] at hremove
    change (((s.updDelay i fun d => d.get b).memSlots i).delay).ring.Holds _ _ _
    rw [slot_updDelay]
    dsimp only
    rw [if_pos rfl]
    exact hremove
  le := (Nat.le_succ _).trans hQ.le
  aligned k hk := hQ.aligned k (List.mem_cons_of_mem h hk)
  bin_lt k hk := hQ.bin_lt k (List.mem_cons_of_mem h hk)
  heads c := by
    change ((s.updDelay i fun d => d.get b).bin i c).headFree % pageSize = 0
    rw [bin_updDelay]
    exact hQ.heads c

/-- An assertion on the counts of a ring fails, or the ring is drained for ever. -/
def Halt.RingAssert (e : Halt) : Prop :=
  e = .hang ∨ e = .abort (.delayFree 41) ∨ e = .abort (.delayFree 47) ∨ e = .abort (.delayFree 59) ∨
    e = .abort (.delayFree 62)

theorem Queued.circCount (hQ : Queued s i q) : circCount i s = .ok q.length s := by
  have hrun : wp (GuardRails.circCount i) (fun n s' => n = q.length ∧ s' = s) (fun _ _ => False) s :=
    wp_circCount hQ.holds hQ.lt ⟨rfl, rfl⟩
  obtain ⟨n, s', hn, rfl, rfl⟩ := wp_returns hrun
  exact hn

theorem Queued.circPut (hQ : Queued s i q) (hroom : q.length ≤ maxDelayElms / 2)
    (hal : h % pageSize = 0) (hb : fld s.mem h .binNum < maxAllocPower) :
    wp (circPut i h) (fun _ s' => Queued s' i (q ++ [h]) ∧ s'.mem = s.mem)
      (fun e _ => ¬ e.RingAssert) s := by
  have hlt : q.length + 1 < maxDelayElms := lt_of_le_of_lt (Nat.succ_le_succ hroom) (by decide)
  refine wp_circPut hQ.holds hlt rfl (fun _ _ => ?_) ⟨hQ.put hroom hal rfl hb _, rfl⟩
  simp [Halt.RingAssert]

theorem Queued.circGet (hQ : Queued s i (h :: q)) :
    wp (circGet ctx i)
      (fun k s' => k = h ∧ Queued s' i q ∧ s'.mem = s.mem ∧ Accessible s'.pages h pageSize)
      (fun e _ => ¬ e.RingAssert) s := by
  have hal : h % 4096 = 0 := hQ.aligned h List.mem_cons_self
  refine wp_circGet hQ.holds hQ.lt hal rfl ⟨rfl, hQ.get rfl _ _ _, rfl, ?_⟩ fun _ _ => ?_
  · exact .of_protect hal (by simp)
  · simp [Halt.RingAssert]

/-- The queue is what the operations make of it. -/
theorem RingRun.queued (hrun : RingRun ctx i ops s) : Queued s i (ops.foldl RingOp.run []) := by
  induction hrun with
  | zero hzero =>
      refine ⟨⟨?_, ?_, hzero.num, rfl, hzero.bytes⟩, Nat.zero_le _, by simp, by simp, hzero.heads⟩
      · exact hzero.tail.trans_lt (by decide)
      · change MemFreeDelay.head _ = (MemFreeDelay.tail _ + 0) % _
        rw [hzero.head, hzero.tail]
        rfl
  | put hrun hal hbin hroom hput ih =>
      rw [List.foldl_append]
      rw [ih.count] at hroom
      exact (wp_ok (ih.circPut hroom hal hbin) hput).1
  | get hrun hmany hget ih =>
      rw [List.foldl_append]
      rw [ih.count] at hmany
      generalize List.foldl RingOp.run [] _ = q at ih hmany
      cases q with
      | nil => exact absurd hmany (Nat.not_lt_zero _)
      | cons k q => exact (wp_ok ih.circGet hget).2.1
  | other hrun helse ih =>
      have hbins := helse.bins
      rw [ih.holds.queue_eq ih.lt] at hbins
      exact ih.other helse.ring hbins helse.heads

/-! ## Calls of `delayPut` -/

/-- Nothing happens to the ring of the slot, and page-aligned headers keep their bins. -/
structure Aside (i : ℕ) (s s' : Heap) : Prop where
  ring : (s'.memSlots i).delay = (s.memSlots i).delay
  bins : ∀ h, h % pageSize = 0 → fld s'.mem h .binNum = fld s.mem h .binNum
  heads : (∀ b, (s.bin i b).headFree % pageSize = 0) → ∀ b, (s'.bin i b).headFree % pageSize = 0

theorem RingRun.aside (hrun : RingRun ctx i ops s) (ha : Aside i s s') : RingRun ctx i ops s' := by
  have hQ := hrun.queued
  refine hrun.other ⟨ha.ring, fun h hh => ha.bins h ?_, ha.heads hQ.heads⟩
  rw [hQ.holds.queue_eq hQ.lt] at hh
  exact hQ.aligned h hh

theorem Aside.trans (h₁ : Aside i s s₁) (h₂ : Aside i s₁ s') : Aside i s s' where
  ring := h₂.ring.trans h₁.ring
  bins h hh := (h₂.bins h hh).trans (h₁.bins h hh)
  heads hb := h₂.heads (h₁.heads hb)

theorem delay_updBin (s : Heap) (i b : ℕ) (f : MemBin → MemBin) (j : ℕ) :
    ((s.updBin i b f).memSlots j).delay = (s.memSlots j).delay := by
  simp only [Heap.updBin, Heap.updSlot, Function.update_apply]
  split
  · rename_i hj
    rw [hj]
  · rfl

/-- The header goes to the head of a free list of the slot. -/
theorem insertElmHead_aside (hctx : ctx.Ok env) (henv : env.Ok) (hal : h % pageSize = 0)
    (hhead : (s.bin i b).headFree % pageSize = 0) :
    wp (insertElmHead ctx ⟨.free, i, b⟩ h) (fun _ s' => Aside i s s') (fun e _ => ¬ e.RingAssert) s := by
  have hfault : ∀ {a : ℕ}, ¬ (Halt.fault a).RingAssert := by simp [Halt.RingAssert]
  have hpoll : ∀ {line : ℕ}, line ∈ criticalLines → ∀ {s : Heap} {Q : Unit → Heap → Prop}
      {E : Halt → Heap → Prop}, Q () s → wp (ctx.poll line) Q E s :=
    fun hline => wp_poll_critical hctx henv hline
  -- a link of a page-aligned header is not the bin of another
  have hlink : ∀ {k v : ℕ} {f : Field} {Q : Unit → Heap → Prop} {s : Heap}, k % pageSize = 0 →
      f ≠ .binNum → (∀ m', (∀ x, x % pageSize = 0 → fld m' x .binNum = fld s.mem x .binNum) →
        Q () { s with mem := m' }) →
      wp (stField k f v) Q (fun e _ => ¬ e.RingAssert) s := by
    intro k v f Q s hk hf hq
    refine wp_store64 (fun _ => hq _ fun x hx => ?_) fun _ => hfault
    rw [fld_setWord hk hx, if_neg fun h => hf h.2.symm]
  unfold insertElmHead
  refine wp_bind (wp_getHead ?_)
  extract_lets rest
  have hrest : ∀ m', (∀ x, x % pageSize = 0 → fld m' x .binNum = fld s.mem x .binNum) →
      wp (rest ()) (fun _ s' => Aside i s s') (fun e _ => ¬ e.RingAssert) { s with mem := m' } := by
    intro m' hm'
    refine wp_bind (hpoll (by decide) (wp_bind (wp_getHead ?_)))
    refine wp_bind (hlink hal nofun fun m₁ hm₁ => wp_bind (hpoll (by decide) ?_))
    refine wp_bind (hlink hal nofun fun m₂ hm₂ => wp_bind (hpoll (by decide) ?_))
    refine wp_bind (wp_putHead (wp_emit ⟨?_, fun x hx => ?_, fun hheads c => ?_⟩))
    · have hring : ((s.setHead ⟨.free, i, b⟩ h).memSlots i).delay = (s.memSlots i).delay :=
        delay_updBin s i b _ i
      exact hring
    · exact (hm₂ x hx).trans ((hm₁ x hx).trans (hm' x hx))
    · have hset : ((s.setHead ⟨.free, i, b⟩ h).head ⟨.free, i, c⟩) % pageSize = 0 := by
        rw [head_setHead]
        split
        · exact hal
        · exact hheads c
      exact hset
  refine wp_ite (fun h0 => ?_) fun _ => hrest s.mem fun _ _ => rfl
  refine wp_bind (hpoll (by decide) (wp_bind (wp_getHead ?_)))
  exact wp_bind (hlink hhead nofun hrest)

/-- One block is drained. -/
theorem delayFreeOne_aside (hctx : ctx.Ok env) (henv : env.Ok) (hrun : RingRun ctx i ops s)
    (hmany : maxDelayElms / 4 < (s.memSlots i).delay.numDelayed) :
    wp (delayFreeOne ctx i)
      (fun _ s' => RingRun ctx i (ops ++ [.get]) s' ∧
        ∀ h, h % pageSize = 0 → fld s'.mem h .binNum = fld s.mem h .binNum)
      (fun e _ => ¬ e.RingAssert) s := by
  have hQ := hrun.queued
  have hlen : maxDelayElms / 4 < (ops.foldl RingOp.run []).length := hQ.count ▸ hmany
  generalize ops.foldl RingOp.run [] = q at hQ hlen
  cases q with
  | nil => exact absurd hlen (Nat.not_lt_zero _)
  | cons k q =>
      have hal : k % 4096 = 0 := hQ.aligned k List.mem_cons_self
      have hget : wp (circGet ctx i) _ _ s := wp_run (fun _ _ h => h) fun _ _ h => h
      unfold delayFreeOne
      refine wp_bind (wp_mono (wp_and hget hQ.circGet) ?_ fun _ _ h => h.2)
      rintro _ s₁ ⟨hget, rfl, hQ₁, hmem, hopen⟩
      rename_i k
      have hrun₁ : RingRun ctx i (ops ++ [.get]) s₁ := hrun.get hmany hget
      have hoff : Field.binNum.off = 8 ∧ pageSize = 4096 := ⟨rfl, rfl⟩
      refine wp_bind (wp_ldField (hopen.mono (Nat.le_add_right _ _) (by omega)) fun b hb => ?_)
      refine wp_ite (fun _ => wp_throw (by simp [Halt.RingAssert])) fun _ => ?_
      extract_lets rest
      have hrest : ∀ s₂, Aside i s₁ s₂ → wp (rest ())
          (fun _ s' => RingRun ctx i (ops ++ [.get]) s' ∧
            ∀ h, h % pageSize = 0 → fld s'.mem h .binNum = fld s.mem h .binNum)
          (fun e _ => ¬ e.RingAssert) s₂ := by
        intro s₂ ha
        refine wp_bind_of (insertElmHead_aside hctx henv hal (ha.heads hQ₁.heads b)) fun _ s₃ ha₃ => ?_
        have hlast : Aside i s₁ (s₃.updBin i b fun b => { b with numFree := (b.numFree + 1) % 2 ^ 64 }) := by
          refine (ha.trans ha₃).trans ⟨delay_updBin _ _ _ _ _, fun _ _ => rfl, fun hheads c => ?_⟩
          rw [bin_updBin]
          split
          · exact hheads b
          · exact hheads c
        refine wp_modify ⟨hrun₁.aside hlast, fun h hh => ?_⟩
        rw [hlast.bins h hh, hmem]
      refine wp_ite (fun _ => ?_) fun _ => hrest s₁ ⟨rfl, fun _ _ => rfl, id⟩
      refine wp_bind (wp_mprotect (wp_bind (wp_grAssert_of rfl ?_)) ?_)
      · exact hrest _ ⟨rfl, fun _ _ => rfl, id⟩
      · exact wp_bind (wp_grAssert (fun h0 => absurd h0 (by decide)) fun _ => by simp [Halt.RingAssert])

theorem delayFreeLoop_aside (hctx : ctx.Ok env) (henv : env.Ok) (fuel : ℕ) (hrun : RingRun ctx i ops s)
    (hfuel : (ops.foldl RingOp.run []).length < fuel) :
    wp (delayFreeLoop ctx i fuel)
      (fun _ s' => RingRun ctx i (ops ++ List.replicate
          ((ops.foldl RingOp.run []).length - maxDelayElms / 4) .get) s' ∧
        ∀ h, h % pageSize = 0 → fld s'.mem h .binNum = fld s.mem h .binNum)
      (fun e _ => ¬ e.RingAssert) s := by
  induction fuel generalizing ops s with
  | zero => exact absurd hfuel (Nat.not_lt_zero _)
  | succ fuel ih =>
      have hQ := hrun.queued
      unfold delayFreeLoop
      refine wp_bind (wp_of_ok hQ.circCount (wp_ite (fun hbig => ?_) fun hsmall => wp_pure ⟨?_, fun _ _ => rfl⟩))
      · refine wp_bind_of (delayFreeOne_aside hctx henv hrun (hQ.count ▸ hbig)) ?_
        rintro _ s₁ ⟨hrun₁, hbins₁⟩
        have hlen : ((ops ++ [RingOp.get]).foldl RingOp.run []).length =
            (ops.foldl RingOp.run []).length - 1 := by
          rw [List.foldl_append]
          exact List.length_tail
        have hsub : (ops.foldl RingOp.run []).length - 1 - maxDelayElms / 4 + 1 =
            (ops.foldl RingOp.run []).length - maxDelayElms / 4 := by omega
        refine wp_mono (ih hrun₁ (by omega)) ?_ fun _ _ h => h
        rintro _ s₂ ⟨hrun₂, hbins₂⟩
        refine ⟨?_, fun h hh => (hbins₂ h hh).trans (hbins₁ h hh)⟩
        have hops : ops ++ [.get] ++ List.replicate
            (((ops ++ [RingOp.get]).foldl RingOp.run []).length - maxDelayElms / 4) .get =
            ops ++ List.replicate ((ops.foldl RingOp.run []).length - maxDelayElms / 4) .get := by
          rw [hlen, List.append_assoc, List.singleton_append, ← List.replicate_succ, hsub]
        rwa [hops] at hrun₂
      · rw [Nat.sub_eq_zero_of_le (not_lt.1 hsmall), List.replicate_zero, List.append_nil]
        exact hrun

theorem foldl_get (n : ℕ) (q : List ℕ) : (List.replicate n RingOp.get).foldl RingOp.run q = q.drop n := by
  induction n generalizing q with
  | zero => rfl
  | succ n ih =>
      rw [List.replicate_succ, List.foldl_cons, ih]
      exact List.drop_tail

/-- A call of `delayPut` drains some of the oldest headers and puts the new one behind the others. -/
theorem delayPut_aside (hctx : ctx.Ok env) (henv : env.Ok) (hrun : RingRun ctx i ops s)
    (hal : h % pageSize = 0) (hbin : fld s.mem h .binNum < maxAllocPower) :
    wp (delayPut ctx i h)
      (fun _ s' => RingRun ctx i (ops ++ delayOps (ops.foldl RingOp.run []).length h) s')
      (fun e _ => ¬ e.RingAssert) s := by
  have hQ := hrun.queued
  unfold delayPut
  refine wp_bind (wp_verifyLocked (wp_bind (wp_grAssert (fun _ => ?_) fun _ => ?_)))
  case refine_2 => simp [Halt.RingAssert]
  refine wp_bind (wp_of_ok hQ.circCount ?_)
  extract_lets rest
  -- the ring has room
  have hrest : ∀ ops₁ s₁, RingRun ctx i ops₁ s₁ →
      (ops₁.foldl RingOp.run []).length ≤ maxDelayElms / 2 → fld s₁.mem h .binNum < maxAllocPower →
      wp (rest ()) (fun _ s' => RingRun ctx i (ops₁ ++ [.put h]) s')
        (fun e _ => ¬ e.RingAssert) s₁ := by
    intro ops₁ s₁ hrun₁ hroom hbin₁
    have hput : wp (circPut i h) _ _ s₁ := wp_run (fun _ _ h => h) fun _ _ h => h
    have hspec := hrun₁.queued.circPut hroom hal hbin₁
    refine wp_bind (wp_mono (wp_and hput hspec) ?_ fun _ _ he => he.2)
    rintro _ s₂ ⟨hput, -, -⟩
    have hrun₂ : RingRun ctx i (ops₁ ++ [.put h]) s₂ :=
      hrun₁.put hal hbin₁ (hrun₁.queued.count.trans_le hroom) hput
    refine wp_bind (wp_load64 (fun _ => ?_) fun _ => by simp [Halt.RingAssert])
    refine wp_bind (wp_mprotect (wp_grAssert_of rfl ?_) ?_)
    · exact hrun₂.aside ⟨rfl, fun _ _ => rfl, id⟩
    · exact wp_grAssert (fun h0 => absurd h0 (by decide)) fun _ => by simp [Halt.RingAssert]
  unfold delayOps drains
  refine wp_ite (fun hbig => ?_) fun hsmall => ?_
  · rw [if_pos hbig, ← List.append_assoc]
    unfold delayFreeBatch
    refine wp_bind_of (delayFreeLoop_aside hctx henv maxDelayElms hrun hQ.lt) ?_
    rintro _ s₁ ⟨hrun₁, hbins⟩
    refine hrest _ s₁ hrun₁ ?_ (by rwa [hbins h hal])
    rw [List.foldl_append, foldl_get, List.length_drop]
    have hmax : maxDelayElms = 32768 := rfl
    omega
  · rw [if_neg hsmall]
    exact hrest ops s hrun (not_lt.1 hsmall) hbin

theorem DelayRun.ringRun (hctx : ctx.Ok env) (henv : env.Ok) (hrun : DelayRun ctx i ops s) :
    RingRun ctx i ops s := by
  induction hrun with
  | zero hzero => exact .zero hzero
  | call hrun hal hbin hput ih =>
      have hring := wp_ok (delayPut_aside hctx henv ih hal hbin) hput
      exact hring
  | other hrun helse ih => exact ih.other helse

/-! ## The queue -/

/-- The ring of the slot is the queue `q`: indices and counts are those of `q`, and the assertions
of `circCount`, `circPut` and `circGet` hold. -/
structure Fifo (i : ℕ) (s : Heap) (q : List ℕ) : Prop where
  queue : (s.memSlots i).delay.ring.queue maxDelayElms = q
  head_lt : (s.memSlots i).delay.head < maxDelayElms
  tail_lt : (s.memSlots i).delay.tail < maxDelayElms
  num : (s.memSlots i).delay.numDelayed = q.length
  bytes : (s.memSlots i).delay.bytesDelayed = (q.map s.binBytes).sum
  bytes_le : ∀ h ∈ q, s.binBytes h ≤ (s.memSlots i).delay.bytesDelayed
  count : circCount i s = .ok q.length s
  empty : circEmpty (s.memSlots i).delay = true ↔ q = []
  full : circFull (s.memSlots i).delay = false

theorem Queued.fifo (hQ : Queued s i q) : Fifo i s q where
  queue := hQ.holds.queue_eq hQ.lt
  head_lt := hQ.holds.head_lt
  tail_lt := hQ.holds.tail_lt
  num := hQ.count
  bytes := hQ.holds.weight_eq
  bytes_le _ := hQ.holds.weight_le
  count := hQ.circCount
  empty := beq_iff_eq.trans (hQ.holds.empty_iff hQ.lt)
  full := beq_eq_false_iff_ne.2 (hQ.holds.not_full (lt_of_le_of_lt (Nat.succ_le_succ hQ.le) (by decide)))

/-- After any calls of `delayPut` on a slot the ring is the queue that the operations make, as it
is after each of the operations, and no call fails an assertion on the ring. -/
theorem delay_ring_fifo (hctx : ctx.Ok env) (henv : env.Ok) (hrun : DelayRun ctx i ops s) :
    RingRun ctx i ops s ∧ Fifo i s (ops.foldl RingOp.run []) ∧
      (∀ ops₁ s₁, RingRun ctx i ops₁ s₁ → Fifo i s₁ (ops₁.foldl RingOp.run [])) ∧
      ∀ h, h % pageSize = 0 → fld s.mem h .binNum < maxAllocPower →
        wp (delayPut ctx i h)
          (fun _ s' => DelayRun ctx i (ops ++ delayOps (ops.foldl RingOp.run []).length h) s')
          (fun e _ => ¬ e.RingAssert) s := by
  have hring := hrun.ringRun hctx henv
  refine ⟨hring, hring.queued.fifo, fun _ _ h => h.queued.fifo, fun h hal hbin => ?_⟩
  have hput : wp (delayPut ctx i h) _ _ s := wp_run (fun _ _ h => h) fun _ _ h => h
  refine wp_mono (wp_and hput (delayPut_aside hctx henv hring hal hbin)) ?_ fun _ _ he => he.2
  exact fun _ _ h => hrun.call hal hbin h.1

/-- A heap with one slot, which is locked. -/
def lockedSlot : Heap :=
  { Heap.static with pages := fun _ => .readWrite }.setMutex (.slot 0) ⟨true, true, 1⟩

theorem delayPut_lockedSlot : ∃ s₁ s₂,
    delayPut (ctxOf (Env.still .defaults) 0) 0 4096 lockedSlot = .ok () s₁ ∧
    delayPut (ctxOf (Env.still .defaults) 0) 0 8192 s₁ = .ok () s₂ ∧ s₁.mem = lockedSlot.mem :=
  ⟨_, _, rfl, rfl, rfl⟩

theorem lockedSlot_bin {m : Mem} (hm : m = lockedSlot.mem) (h : ℕ) : fld m h .binNum < maxAllocPower := by
  subst hm
  rw [show fld lockedSlot.mem h .binNum = 0 from word_eq_zero fun _ _ _ => rfl]
  decide

/-- Two headers go in, the one behind the other. -/
theorem delay_ring_fifo_two : ∃ s, DelayRun (ctxOf (Env.still .defaults) 0) 0 [.put 4096, .put 8192] s ∧
    Fifo 0 s [4096, 8192] := by
  have hctx := ctxOf_ok (Env.still .defaults) 0
  have henv := Env.still_ok GRArgs.defaults_ok
  have hzero : ZeroRing 0 lockedSlot := ⟨rfl, rfl, rfl, rfl, fun _ => rfl⟩
  obtain ⟨s₁, s₂, hs₁, hs₂, hmem⟩ := delayPut_lockedSlot
  have hfirst := (delay_ring_fifo hctx henv (.zero hzero)).2.2.2 4096 rfl (lockedSlot_bin rfl _)
  have hrun₁ := wp_ok hfirst hs₁
  have hsecond := (delay_ring_fifo hctx henv hrun₁).2.2.2 8192 rfl (lockedSlot_bin hmem _)
  have hrun₂ := wp_ok hsecond hs₂
  exact ⟨s₂, hrun₂, (delay_ring_fifo hctx henv hrun₂).2.1⟩

end GuardRails
