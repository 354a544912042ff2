import GuardRails.Spec.Level
import GuardRails.Spec.Run
import Mathlib.Order.Interval.Finset.Nat

/-!
# High-water marks

What the two marks of a slot should be can be told from the history: the highest total of
live bytes that the slot has had, and that total at the latest dump that a request of the
slot started. In a run without signals the two marks in memory are kept so.
-/

namespace GuardRails

open StateHoare

variable {env : Env} {s s' : Heap} {ctx : Ctx} {log l : List Event} {e : Event} {q : Request}
  {i j b h : ℕ} {X : Set ℕ}

/-- The highest total of live requested bytes that a slot has had so far. -/
def highWater (i : ℕ) : List Event → ℕ
  | [] => 0
  | e :: log => max (highWater i log) ((ledger (e :: log)).bytes i)

/-- The high-water mark at the latest dump that a request of the slot started. -/
def dumpMark (i : ℕ) : List Event → ℕ
  | .dumpBegun :: .counted j q :: log =>
      if j = i then highWater i (.counted j q :: log) else dumpMark i (.counted j q :: log)
  | _ :: log => dumpMark i log
  | [] => 0

def Rested (log : List Event) : Prop := ∀ i q l, log ≠ .counted i q :: l

/-- The event lets no total of live bytes rise. -/
theorem bytes_cons_le (he : ∀ i q, e ≠ .counted i q) (i : ℕ) :
    (ledger (e :: log)).bytes i ≤ (ledger log).bytes i := by
  cases e with
  | counted j q => exact absurd rfl (he j q)
  | uncounted j h =>
      change ((Function.update (ledger log).counted j _ i).map Request.size).sum ≤ _
      by_cases hj : i = j
      · subst hj
        rw [Function.update_self]
        exact (List.filter_sublist.map _).sum_le_sum fun _ _ => Nat.zero_le _
      · rw [Function.update_of_ne hj]
        exact le_rfl
  | _ => exact le_rfl

theorem bytes_le_highWater (i : ℕ) (log : List Event) : (ledger log).bytes i ≤ highWater i log := by
  cases log with
  | nil => exact le_rfl
  | cons e log => exact le_max_right _ _

theorem highWater_cons (he : ∀ i q, e ≠ .counted i q) (i : ℕ) :
    highWater i (e :: log) = highWater i log :=
  max_eq_left ((bytes_cons_le he i).trans (bytes_le_highWater i log))

theorem bytes_counted (i : ℕ) (q : Request) (log : List Event) :
    (ledger (.counted i q :: log)).bytes i = (ledger log).bytes i + q.size := by
  change ((Function.update (ledger log).counted i _ i).map Request.size).sum = _
  rw [Function.update_self, List.map_cons, List.sum_cons, Nat.add_comm]
  rfl

theorem highWater_counted (i : ℕ) (q : Request) (log : List Event) :
    highWater i (.counted i q :: log) = max (highWater i log) ((ledger log).bytes i + q.size) :=
  congrArg _ (bytes_counted i q log)

theorem highWater_counted_ne (h : i ≠ j) : highWater i (.counted j q :: log) = highWater i log := by
  refine max_eq_left (le_trans (le_of_eq ?_) (bytes_le_highWater i log))
  change ((Function.update (ledger log).counted j _ i).map Request.size).sum = _
  rw [Function.update_of_ne h]
  rfl

/-- The mark is the greatest of all totals so far. -/
theorem isGreatest_highWater (i : ℕ) (log : List Event) :
    IsGreatest {n | ∃ l, l <:+ log ∧ (ledger l).bytes i = n} (highWater i log) := by
  induction log with
  | nil =>
      refine ⟨⟨[], List.suffix_rfl, rfl⟩, ?_⟩
      rintro _ ⟨l, hl, rfl⟩
      rw [List.suffix_nil.1 hl]
      exact le_rfl
  | cons e log ih =>
      refine ⟨?_, ?_⟩
      · rcases le_total (highWater i log) ((ledger (e :: log)).bytes i) with hle | hle
        · exact ⟨e :: log, List.suffix_rfl, (max_eq_right hle).symm⟩
        · obtain ⟨l, hl, heq⟩ := ih.1
          exact ⟨l, hl.trans (List.suffix_cons e log), heq.trans (max_eq_left hle).symm⟩
      · rintro _ ⟨l, hl, rfl⟩
        rcases List.suffix_cons_iff.1 hl with rfl | hl
        · exact le_max_right _ _
        · exact (ih.2 ⟨l, hl, rfl⟩).trans (le_max_left _ _)

theorem dumpMark_counted (i : ℕ) : dumpMark i (.counted j q :: log) = dumpMark i log := rfl

theorem dumpMark_dump (i : ℕ) : dumpMark i (.dumpBegun :: .counted j q :: log) =
    if j = i then highWater i (.counted j q :: log) else dumpMark i log := rfl

theorem dumpMark_cons (h : e ≠ .dumpBegun ∨ Rested log) (i : ℕ) :
    dumpMark i (e :: log) = dumpMark i log := by
  cases e with
  | dumpBegun =>
      cases log with
      | nil => rfl
      | cons e' log =>
          cases e' with
          | counted j q => exact absurd rfl (h.resolve_left (fun h => h rfl) j q log)
          | _ => rfl
  | _ => rfl

theorem bytes_append {evs : List Event} (h : ∀ e ∈ evs, e.Flat) (i : ℕ) (log : List Event) :
    (ledger (evs ++ log)).bytes i = (ledger log).bytes i := by
  induction evs with
  | nil => rfl
  | cons e evs ih =>
      obtain ⟨he, hevs⟩ := List.forall_mem_cons.1 h
      rw [← ih hevs]
      cases e <;> first | exact he.elim | rfl

theorem highWater_append {evs : List Event} (h : ∀ e ∈ evs, e.Flat) (i : ℕ) (log : List Event) :
    highWater i (evs ++ log) = highWater i log := by
  induction evs with
  | nil => rfl
  | cons e evs ih =>
      have he := h e List.mem_cons_self
      rw [List.cons_append, highWater_cons, ih fun e he => h e (List.mem_cons_of_mem _ he)]
      rintro i q rfl
      exact he

/-! ## The marks in memory -/

/-- Each request was followed by a dump just when the high-water mark was then more than `I`
bytes above that at the previous dump of the slot. -/
def Triggered (I : ℕ) (log : List Event) : Prop :=
  ∀ e i q l, e :: .counted i q :: l <:+ log →
    (e = .dumpBegun ↔ dumpMark i l + I < highWater i (.counted i q :: l))

structure Watered (I : ℕ) (log : List Event) (slots : ℕ → MemSlot) : Prop where
  marks : ∀ i, (slots i).marks = (highWater i log, dumpMark i log)
  triggered : Triggered I log
  rested : Rested log
  mark : ∀ i, dumpMark i log = 0 ∨ I < dumpMark i log ∧ dumpMark i log ≤ highWater i log
  bounded : ∀ i, highWater i log ≤ 2 ^ 47

theorem Triggered.cons {I : ℕ} (h : Triggered I log) (hr : Rested log) : Triggered I (e :: log) := by
  intro e' i q l hsuf
  rcases List.suffix_cons_iff.1 hsuf with heq | hsuf
  · exact absurd (List.cons.inj heq).2.symm (hr i q l)
  · exact h e' i q l hsuf

theorem rested_cons (he : ∀ i q, e ≠ .counted i q) : Rested (e :: log) :=
  fun i q _ heq => he i q (List.cons.inj heq).1

/-- Events that are no requests. -/
theorem Watered.cons {I : ℕ} {slots : ℕ → MemSlot} (h : Watered I log slots)
    (he : ∀ i q, e ≠ .counted i q) : Watered I (e :: log) slots where
  marks i := by rw [h.marks i, highWater_cons he, dumpMark_cons (.inr h.rested)]
  triggered := h.triggered.cons h.rested
  rested := rested_cons he
  mark i := by
    rw [highWater_cons he, dumpMark_cons (.inr h.rested)]
    exact h.mark i
  bounded i := by
    rw [highWater_cons he]
    exact h.bounded i

theorem Event.Flat.ne_counted (he : e.Flat) (i : ℕ) (q : Request) : e ≠ .counted i q := by
  rintro rfl
  exact he

theorem Watered.slots {I : ℕ} {slots slots' : ℕ → MemSlot} (h : Watered I log slots)
    (hs : ∀ i, (slots' i).marks = (slots i).marks) : Watered I log slots' :=
  { h with marks := fun i => (hs i).trans (h.marks i) }

theorem Watered.append {I : ℕ} {slots : ℕ → MemSlot} {evs : List Event} (h : Watered I log slots)
    (hevs : ∀ e ∈ evs, e.Flat) : Watered I (evs ++ log) slots := by
  induction evs with
  | nil => exact h
  | cons e evs ih =>
      have he := hevs e List.mem_cons_self
      exact (ih fun e he => hevs e (List.mem_cons_of_mem _ he)).cons he.ne_counted

theorem Watered.flat {I : ℕ} (h : Watered I s.log s.memSlots) (hf : Flat s s') :
    Watered I s'.log s'.memSlots := by
  obtain ⟨evs, hlog, hevs⟩ := hf.log
  rw [hlog]
  exact (h.append hevs).slots hf.marks

/-! ## Requests that are not answered yet -/

/-- A request whose block is not filled in yet fits its block. -/
def Pending (s : Heap) : Prop :=
  ∀ h B q, (ledger s.log).block h = some B → B.live = false → B.request = some q → q.size ≤ B.size

theorem Pending.keeps (hP : Pending s) (hR' : Rep env 0 s') (hK : Keeps X s s')
    (hX : ∀ h ∈ X, ∀ B q, (ledger s'.log).block h = some B → B.live = false →
      B.request = some q → q.size ≤ B.size) : Pending s' := by
  intro h B q hB hlive hreq
  by_cases hx : h ∈ X
  · exact hX h hx B q hB hlive hreq
  have hp : B.place = .on .inUse :=
    (hR'.log_ok.lawful.sound.block_ok h B hB).request_place (by simp [hreq])
  by_cases hF : ∀ A, (ledger s.log).block h = some A → ¬ A.Fixed
  · exact absurd (((hK.settled h hx hF B hB).live hp).symm.trans hlive) nofun
  · simp only [not_forall, not_not] at hF
    obtain ⟨A, hA, hfix⟩ := hF
    obtain rfl := Option.some.inj ((hK.block h A hx hA hfix).symm.trans hB)
    exact hP h A q hA hlive hreq

/-- A block at rest has no request that is still to be filled in. -/
theorem SettledAt.filled (hset : SettledAt s h) (hR : Rep env 0 s) {B : Block}
    (hB : (ledger s.log).block h = some B) (hreq : B.request = some q) : B.live = true := by
  have hp := (hR.log_ok.lawful.sound.block_ok h B hB).request_place (by simp [hreq])
  rcases hset B hB with hf | hf | hf
  · exact absurd (hf.symm.trans hp) nofun
  · exact absurd (hf.symm.trans hp) nofun
  · exact hf.2

/-- Every request fits its block. -/
theorem Pending.size_le (hP : Pending s) (hR : Rep env 0 s) {B : Block}
    (hB : (ledger s.log).block h = some B) (hreq : B.request = some q) : q.size ≤ B.size := by
  by_cases hlive : B.live = true
  · have hok := hR.log_ok.lawful.sound.block_ok h B hB
    have hp := hok.request_place (by simp [hreq])
    obtain ⟨a, q', ho, hq', hsize, -⟩ := hok.live_owner hlive
    obtain rfl := Option.some.inj (hreq.symm.trans hq')
    have := hR.shape.user_bounds hB (by simp [hp]) ho
    omega
  · exact hP h B q hB (by simpa using hlive) hreq

/-- Blocks are apart, so together they are no larger than the address space. -/
theorem Layout.sizes_sum_le {L : Ledger} {pools : List MemPool} (hY : Layout pools L) {xs : List ℕ}
    (hd : xs.Nodup) (hxs : ∀ x ∈ xs, ∃ B, L.block x = some B) : (xs.map L.sizeOf).sum ≤ 2 ^ 47 := by
  have hsize : ∀ {x B}, L.block x = some B → L.sizeOf x = B.size := fun hB => by
    simp [Ledger.sizeOf, hB]
  have hdisj : Set.PairwiseDisjoint (xs.toFinset : Set ℕ) fun x => Finset.Ico x (x + L.sizeOf x) := by
    intro x hx y hy hne
    obtain ⟨B, hB⟩ := hxs x (List.mem_toFinset.1 hx)
    obtain ⟨A, hA⟩ := hxs y (List.mem_toFinset.1 hy)
    refine Finset.disjoint_left.2 fun z hz hz' => ?_
    simp only [Finset.mem_Ico, hsize hB, hsize hA] at hz hz'
    have := hY.sep x y B A hB hA hne
    unfold Apart at this
    omega
  have hsub : xs.toFinset.biUnion (fun x => Finset.Ico x (x + L.sizeOf x)) ⊆ Finset.range (2 ^ 47) := by
    intro z hz
    obtain ⟨x, hx, hz⟩ := Finset.mem_biUnion.1 hz
    obtain ⟨B, hB⟩ := hxs x (List.mem_toFinset.1 hx)
    have := hY.block_bounds hB
    simp only [Finset.mem_Ico, hsize hB] at hz
    exact Finset.mem_range.2 (by omega)
  calc (xs.map L.sizeOf).sum = ∑ x ∈ xs.toFinset, L.sizeOf x := (List.sum_toFinset _ hd).symm
    _ = ∑ x ∈ xs.toFinset, (Finset.Ico x (x + L.sizeOf x)).card :=
        Finset.sum_congr rfl fun x _ => by rw [Nat.card_Ico, Nat.add_sub_cancel_left]
    _ = (xs.toFinset.biUnion fun x => Finset.Ico x (x + L.sizeOf x)).card :=
        (Finset.card_biUnion hdisj).symm
    _ ≤ (Finset.range (2 ^ 47)).card := Finset.card_le_card hsub
    _ = 2 ^ 47 := Finset.card_range _

theorem Pending.bytes_le (hP : Pending s) (hR : Rep env 0 s) (i : ℕ) :
    (ledger s.log).bytes i ≤ 2 ^ 47 := by
  have hL := hR.log_ok.lawful.sound
  have hblock : ∀ q ∈ (ledger s.log).counted i, ∃ B, (ledger s.log).block q.hdr = some B ∧ q.size ≤ B.size := by
    intro q hq
    obtain ⟨B, hB, -, hreq⟩ := (hL.mem_counted i q).1 hq
    exact ⟨B, hB, hP.size_le hR hB hreq⟩
  calc (ledger s.log).bytes i
      ≤ (((ledger s.log).counted i).map fun q => (ledger s.log).sizeOf q.hdr).sum := by
        refine List.sum_le_sum fun q hq => ?_
        obtain ⟨B, hB, hle⟩ := hblock q hq
        simpa [Ledger.sizeOf, hB] using hle
    _ = ((((ledger s.log).counted i).map Request.hdr).map (ledger s.log).sizeOf).sum := by
        rw [List.map_map]
        rfl
    _ ≤ 2 ^ 47 := by
        refine hR.shape.layout.sizes_sum_le (hL.nodup_counted i) fun x hx => ?_
        obtain ⟨q, hq, rfl⟩ := List.mem_map.1 hx
        obtain ⟨B, hB, -⟩ := hblock q hq
        exact ⟨B, hB⟩

/-- The figure in memory is the total of live bytes. -/
theorem Pending.figure (hP : Pending s) (hR : Rep env 0 s) (i : ℕ) :
    sub64 (s.memSlots i).totalUserRequestedBytes (s.memSlots i).totalUserFreedBytes =
      (ledger s.log).bytes i := by
  have hmod := hR.shape.counts.modEq (.bytes i)
  obtain ⟨hreq, hfreed⟩ := hR.shape.counts.bytes_lt i
  have hle := hP.bytes_le hR i
  rw [Pi.zero_apply, Int.add_zero] at hmod
  simp only [heapCount, Ledger.count, Int.ModEq] at hmod
  unfold Ledger.bytes at *
  unfold sub64
  omega

/-! ## One request -/

theorem wp_poll_none {line : ℕ} {Q : Unit → Heap → Prop} {E : Halt → Heap → Prop}
    (hcalm : ctx.env.Calm) (h : Q () s) : wp (ctx.poll line) Q E s :=
  wp_poll h fun hsig => absurd ((hcalm _ _).symm.trans hsig) nofun

/-- In a calm run one request is counted, and the mark of its slot is brought up to date. -/
theorem countAlloc_marks (hcalm : ctx.env.Calm) {k : ℕ} :
    wp (countAlloc ctx i b k q)
      (fun _ s' => s'.log = .counted i q :: s.log ∧ (∀ j, (s'.memSlots j).marks =
        (if j = i then max (s.memSlots i).hwmUsrBytes (sub64 (s'.memSlots i).totalUserRequestedBytes
            (s'.memSlots i).totalUserFreedBytes) else (s.memSlots j).hwmUsrBytes,
          (s.memSlots j).lastHWMUsrBytesDump)) ∧
        s'.memPools = s.memPools ∧ s'.gMutex = s.gMutex)
      (fun _ s' => s'.log = s.log) s := by
  unfold countAlloc
  refine wp_bind (wp_poll_none hcalm (wp_bind (wp_modify (wp_bind (wp_poll_none hcalm (wp_bind ?_))))))
  refine wp_grAssert (fun _ => wp_bind (wp_poll_none hcalm (wp_bind (wp_modify ?_)))) fun _ => rfl
  refine wp_bind (wp_poll_none hcalm (wp_bind (wp_modify (wp_bind (wp_emit ?_)))))
  refine wp_bind (wp_poll_none hcalm (wp_modify ⟨rfl, fun j => ?_, rfl, rfl⟩))
  by_cases hj : j = i
  · subst hj
    simp [MemSlot.marks, Heap.updSlot, Heap.updBin, Heap.updHisto]
  · simp [MemSlot.marks, Heap.updSlot, Heap.updBin, Heap.updHisto, hj]

theorem Triggered.answer {I : ℕ} (h : Triggered I (.counted i q :: l))
    (he : e = .dumpBegun ↔ dumpMark i l + I < highWater i (.counted i q :: l)) :
    Triggered I (e :: .counted i q :: l) := by
  intro e' j q' l' hsuf
  rcases List.suffix_cons_iff.1 hsuf with heq | hsuf
  · obtain ⟨rfl, htail⟩ := List.cons.inj heq
    obtain ⟨hcounted, rfl⟩ := List.cons.inj htail
    obtain ⟨rfl, rfl⟩ := Event.counted.inj hcounted
    exact he
  · exact h e' j q' l' hsuf

/-- The marks after a request is counted and before its slot looks at them. -/
structure Raised (I i : ℕ) (q : Request) (l : List Event) (s : Heap) : Prop where
  log : s.log = .counted i q :: l
  marks : ∀ j, (s.memSlots j).marks = (highWater j s.log, dumpMark j l)
  triggered : Triggered I l
  rested : Rested l
  mark : ∀ j, dumpMark j l = 0 ∨ I < dumpMark j l ∧ dumpMark j l ≤ highWater j l
  bounded : ∀ j, highWater j s.log ≤ 2 ^ 47

theorem highWater_mono (i : ℕ) : highWater i log ≤ highWater i (e :: log) := le_max_left _ _

/-- The sum that the code compares with does not wrap. -/
theorem Raised.trigger {I : ℕ} (h : Raised I i q l s) (hI : I < 2 ^ 64) :
    (s.memSlots i).hwmUsrBytes > ((s.memSlots i).lastHWMUsrBytesDump + I) % 2 ^ 64 ↔
      dumpMark i l + I < highWater i (.counted i q :: l) := by
  obtain ⟨hhwm, hlast⟩ := Prod.mk.inj (h.marks i)
  have hle : dumpMark i l ≤ highWater i (.counted i q :: l) ∨ dumpMark i l = 0 :=
    (h.mark i).symm.imp_left fun hm => hm.2.trans (highWater_mono i)
  have hbound := h.bounded i
  have hmark := h.mark i
  rw [h.log] at hhwm hbound
  rw [hhwm, hlast]
  have hmod : (dumpMark i l + I) % 2 ^ 64 = dumpMark i l + I := Nat.mod_eq_of_lt (by omega)
  rw [hmod]

/-- The request is answered by something else than a dump. -/
theorem Raised.pass {I : ℕ} (h : Raised I i q l s) (he : e ≠ .dumpBegun) (hc : ∀ i q, e ≠ .counted i q)
    (hlow : ¬ dumpMark i l + I < highWater i (.counted i q :: l)) :
    Watered I (e :: s.log) s.memSlots where
  marks j := by
    rw [h.marks j, highWater_cons hc, dumpMark_cons (.inl he), h.log, dumpMark_counted]
  triggered := by
    rw [h.log]
    exact (h.triggered.cons h.rested).answer (iff_of_false he hlow)
  rested := rested_cons hc
  mark j := by
    rw [highWater_cons hc, dumpMark_cons (.inl he), h.log, dumpMark_counted]
    exact (h.mark j).imp_right fun hm => ⟨hm.1, hm.2.trans (highWater_mono j)⟩
  bounded j := by
    rw [highWater_cons hc]
    exact h.bounded j

/-- The request is answered by a dump, and its slot remembers the mark. -/
theorem Raised.dump {I : ℕ} (h : Raised I i q l s)
    (hhigh : dumpMark i l + I < highWater i (.counted i q :: l)) :
    Watered I (.dumpBegun :: s.log)
      (s.updSlot i fun S => { S with lastHWMUsrBytesDump := S.hwmUsrBytes }).memSlots where
  marks j := by
    rw [highWater_cons (e := .dumpBegun) nofun, h.log, dumpMark_dump, ← h.log]
    by_cases hj : j = i
    · subst hj
      have hhwm := congrArg Prod.fst (h.marks j)
      simpa [Heap.updSlot, MemSlot.marks] using hhwm
    · rw [if_neg (Ne.symm hj)]
      simpa [Heap.updSlot, hj] using h.marks j
  triggered := by
    rw [h.log]
    exact (h.triggered.cons h.rested).answer (iff_of_true rfl hhigh)
  rested := rested_cons nofun
  mark j := by
    rw [highWater_cons (e := .dumpBegun) nofun, h.log, dumpMark_dump]
    by_cases hj : i = j
    · subst hj
      rw [if_pos rfl]
      exact .inr ⟨by omega, le_rfl⟩
    · rw [if_neg hj]
      exact (h.mark j).imp_right fun hm => ⟨hm.1, hm.2.trans (highWater_mono j)⟩
  bounded j := by
    rw [highWater_cons (e := .dumpBegun) nofun]
    exact h.bounded j

/-- A slot remembers its mark at a dump. -/
theorem Rep.setLastDump (hR : Rep env 0 s) (i : ℕ) :
    Rep env 0 (s.updSlot i fun S => { S with lastHWMUsrBytesDump := S.hwmUsrBytes }) where
  log_ok := hR.log_ok
  shape :=
    have hcounts := hR.shape.counts
    hR.shape.setCounts (.updSlot (fun _ => rfl) (fun _ => rfl) fun _ => rfl) rfl
      (hcounts.updSlot (fun _ => rfl) (hcounts.bytes_lt i) (hcounts.modEq (.bytes i))
        (fun _ _ => rfl) fun _ => rfl)

theorem Watered.unlock {I : ℕ} (h : Watered I (.released (.slot i) :: s.log) s.memSlots) :
    Watered I (s.unlockHeap (.slot i)).log (s.unlockHeap (.slot i)).memSlots :=
  h.slots (marks_updSlot (g := fun S => { S with lock := (s.mutex (.slot i)).unlock }) fun _ => rfl)

/-- The marks after the request is counted. -/
theorem Watered.raised {I : ℕ} (h : Watered I s.log s.memSlots) (hlog : s'.log = .counted i q :: s.log)
    (hmarks : ∀ j, (s'.memSlots j).marks =
      (if j = i then max (s.memSlots i).hwmUsrBytes ((ledger s'.log).bytes i)
        else (s.memSlots j).hwmUsrBytes, (s.memSlots j).lastHWMUsrBytesDump))
    (hbytes : (ledger s'.log).bytes i ≤ 2 ^ 47) : Raised I i q s.log s' := by
  have hhigh : ∀ j, highWater j s'.log =
      if j = i then max (highWater i s.log) ((ledger s'.log).bytes i) else highWater j s.log := by
    intro j
    rw [hlog]
    by_cases hj : j = i
    · subst hj
      rw [if_pos rfl]
      rfl
    · rw [if_neg hj, highWater_counted_ne hj]
  refine ⟨hlog, fun j => ?_, h.triggered, h.rested, h.mark, fun j => ?_⟩
  · obtain ⟨hhwm, hlast⟩ := Prod.mk.inj (h.marks j)
    rw [hmarks j, hhigh j, hlast]
    by_cases hj : j = i
    · subst hj
      rw [if_pos rfl, if_pos rfl, hhwm]
    · rw [if_neg hj, if_neg hj, hhwm]
  · rw [hhigh j]
    split
    · exact max_le (h.bounded i) hbytes
    · exact h.bounded j

end GuardRails
