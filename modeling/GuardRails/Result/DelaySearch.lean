import GuardRails.Model.Grgdb
import GuardRails.Spec.Complete

/-!
# The search of the delay list

`gr-find-delay-list` starts at the free cell of the ring and counts a whole turn when the
ring is empty, so it never visits the blocks that `DelayFree.c` keeps there.
-/

namespace GuardRails

open ByteMemory StateHoare

variable {env : Env} {L : Ledger} {s : Heap} {d : MemFreeDelay} {depth x : ℕ} {st : Proc}
  {xs : List ℕ}

/-! ## The entries -/

theorem RingOk.entries_nil (hR : RingOk L d []) :
    (delayListEntries d).length = maxDelayElms := by
  have hhead : d.head = d.tail := by
    rw [hR.head_eq, List.length_nil, Nat.add_zero, Nat.mod_eq_of_lt hR.tail_lt]
  rw [delayListEntries, RingBuffer.length_backwards, delayListCount, hhead, if_neg (lt_irrefl _),
    Nat.sub_self, Nat.sub_zero]

/-- The search visits the free cell, and then all blocks of the ring but the oldest. -/
theorem RingOk.entries_cons (hR : RingOk L d (x :: xs)) (hlt : (x :: xs).length < maxDelayElms) :
    delayListEntries d = d.elms d.head :: xs.reverse := by
  have hcount : delayListCount d.head d.tail maxDelayElms = xs.length + 1 :=
    RingBuffer.count_eq hR.tail_lt hlt (Nat.succ_pos _) hR.head_eq
  have hcontents := hR.contents
  rw [List.length_cons, RingBuffer.contents] at hcontents
  have hhead := hR.head_eq
  rw [List.length_cons] at hhead
  rw [delayListEntries, hcount]
  conv_lhs => rw [hhead]
  rw [RingBuffer.backwards_head (by decide), ← hhead, (List.cons.inj hcontents).2]

/-! ## The result -/

structure SearchAgrees (s : Heap) (slot : ℕ) (ring : List ℕ) : Prop where
  visits : delayListEntries (s.memSlots slot).delay = ring.reverse
  reports : ∀ addrToFind, (∃ cursor elmPtr,
      findDelayList s slot addrToFind = .found cursor elmPtr) ↔
    ∃ h ∈ ring, h ≤ addrToFind ∧ addrToFind < h + 2 ^ fld s.mem h .binNum + guardSize

theorem RingOk.entries_ne (hR : RingOk L d xs) (hlt : xs.length < maxDelayElms)
    (hnodup : xs.Nodup) (hpos : ∀ x ∈ xs, x ≠ 0) : delayListEntries d ≠ xs.reverse := by
  intro h
  cases xs with
  | nil =>
      have hlen := hR.entries_nil
      rw [h] at hlen
      exact absurd hlen (by decide)
  | cons x xs =>
      rw [hR.entries_cons hlt, List.reverse_cons] at h
      cases hrev : xs.reverse with
      | nil =>
          -- the first block of all: the next cell has never been written
          obtain rfl : xs = [] := List.reverse_eq_nil_iff.1 hrev
          rw [hrev, List.nil_append] at h
          have hone : [x].length < maxDelayElms / 4 := show 1 < 8192 by decide
          have hnull := (hR.young hone).2 d.head le_rfl
          exact hpos x List.mem_cons_self ((List.cons.inj h).1.symm.trans hnull)
      | cons y ys =>
          rw [hrev, List.cons_append] at h
          have hx : x ∈ xs.reverse := by
            rw [hrev, (List.cons.inj h).2]
            exact List.mem_append_right _ (List.mem_singleton_self x)
          exact (List.nodup_cons.1 hnodup).1 (List.mem_reverse.1 hx)

theorem Rep.search_disagrees (hR : Rep env 0 s) (slot : ℕ) :
    ¬ SearchAgrees s slot ((ledger s.log).ring slot) := by
  have hL := hR.log_ok.lawful.sound
  refine fun h => (hR.shape.rings slot).entries_ne ?_ (hL.nodup_ring slot) (fun x hx => ?_) h.visits
  · exact lt_of_le_of_lt (hL.ring_le slot) (by decide)
  · obtain ⟨B, hB, -⟩ := (hL.mem_ring slot x).1 hx
    exact (hR.shape.layout.block_bounds hB).1.ne'

/-- In no state does the search agree with the ring. -/
theorem delay_search_disagrees (henv : env.Ok) (hr : Reachable env depth st) (slot : ℕ) :
    ¬ SearchAgrees st.heap slot ((ledger st.heap.log).ring slot) :=
  (hr.inv henv).rep.search_disagrees slot

/-- A block that was released in delay mode, when the call returns. -/
theorem Step.waiting {args : GRArgs} {p n : ℕ} {st' : Proc} (hslots : args.numSlots = 1)
    (hdelay : args.useDelay = true) (hst : st.Inv (Env.still args)) (hmem : (p, n) ∈ st.held)
    (hstep : Step (Env.still args) depth st (.free p) st') :
    ∃ a, a.ptr = p ∧ (ledger st.heap.log).Live a ∧ a.hdr ∈ (ledger st'.heap.log).ring 0 := by
  obtain ⟨a, rfl, -, ha⟩ := hst.holds hmem
  refine ⟨a, rfl, ha, ?_⟩
  cases hstep with
  | @mk bt p s' hok hexec =>
      have hspec : wp ((Call.free a.ptr).exec (ctxOf (Env.still args) depth) bt)
          (fun _ s' => InCall (Env.still args) False 0 {a.hdr} st.heap s' ∧
            Released (Env.still args) st.heap s' a.hdr) (fun _ _ => True) st.heap :=
        wp_bind (wp_mono (free_spec (F := False) (G := False) (ctxOf_ok _ depth) hst.rep hst.ready ha)
          (fun _ _ h => wp_pure h) fun _ _ _ => trivial)
      obtain ⟨hc, hreleased⟩ := wp_ok hspec hexec
      have hL := hc.rep.log_ok.lawful.sound
      obtain ⟨B, hB, hp⟩ := hreleased.waits (Env.still_granting hslots).calm hdelay
      refine (hL.mem_ring 0 a.hdr).2 ⟨B, hB, hp, ?_⟩
      have hlt : B.slot < args.numSlots := (hc.rep.shape.blocks _ B hB (by simp [hp])).slot_lt
      omega

/-- Of two blocks the first is released, and waits in the ring. -/
theorem delay_search_disagrees_freed : ∃ st st' a q, Reachable (Env.still .delaying) 1 st ∧
    st.held = [(q, 24), (a.ptr, 24)] ∧ (ledger st.heap.log).Live a ∧
    Step (Env.still .delaying) 1 st (.free a.ptr) st' ∧ a.hdr ∈ (ledger st'.heap.log).ring 0 ∧
    ¬ SearchAgrees st'.heap 0 ((ledger st'.heap.log).ring 0) := by
  have henv := Env.still_ok GRArgs.delaying_ok
  obtain ⟨st, st', p, q, hr, hheld, hstep⟩ := exists_released GRArgs.delaying_ok
    Env.still_undisturbed_delaying 1 24 (b := 12) (by decide) (by decide) (by decide)
  have hp : (p, 24) ∈ st.held := by simp [hheld]
  obtain ⟨a, rfl, ha, hmem⟩ := hstep.waiting rfl rfl (hr.inv henv) hp
  exact ⟨st, st', a, q, hr, hheld, ha, hstep, hmem, delay_search_disagrees henv (hr.step hstep) 0⟩

/-- The ring of a process that has freed nothing. -/
theorem booted_search_disagrees : ∃ s, boot (Env.still .defaults) 1 Heap.static = .ok () s ∧
    ¬ SearchAgrees s 0 ((ledger s.log).ring 0) := by
  obtain ⟨s, hs, hidle⟩ :=
    boot_completes (Env.still_ok GRArgs.defaults_ok) (Env.still_granting rfl) 1
  exact ⟨s, hs, hidle.inv.rep.search_disagrees 0⟩

end GuardRails
