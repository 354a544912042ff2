import GuardRails.Ledger.History
import GuardRails.Ledger.Quarantine
import GuardRails.Spec.Complete
import GuardRails.Spec.Tally

/-!
# Freed blocks wait

In delay mode a block that is freed goes into the ring of its slot. There its pages stay
without rights, and no list and no allocation gets it, until a quarter of the ring has been freed
after it. The blocks come out in the order in which they went in, each onto the free list of its
bin.
-/

namespace GuardRails

open StateHoare

variable {env : Env} {depth i h b : ℕ} {st : Proc} {s s' : Heap} {log since : List Event} {c : Call}

/-- A block that left a ring is put on a free list of the slot before anything else happens. -/
theorem Tidy.relink : ∀ {since : List Event}, Tidy (since ++ .drained i h :: log) →
    ∃ b since', since = since' ++ [.linked ⟨.free, i, b⟩ h]
  | [], ht => by
      cases ht with
      | cons he _ => exact absurd rfl (he i h)
  | [e], ht => by
      cases ht with
      | cons _ hlog =>
          have hlog : Tidy ([] ++ .drained i h :: log) := hlog
          obtain ⟨b, since', hnil⟩ := Tidy.relink hlog
          simp at hnil
      | relinked _ => exact ⟨_, [], rfl⟩
  | e :: e' :: since, ht => by
      cases ht with
      | cons _ hlog =>
          have hlog : Tidy (e' :: since ++ .drained i h :: log) := hlog
          obtain ⟨b, since', heq⟩ := Tidy.relink hlog
          exact ⟨b, e :: since', congrArg (e :: ·) heq⟩
      | relinked hlog =>
          obtain ⟨b, since', rfl⟩ := Tidy.relink hlog
          exact ⟨b, _ :: _ :: since', rfl⟩

/-- The block is in the ring of the slot and out of reach: it is on no list, and its pages have no
rights. -/
structure Confined (s : Heap) (i h : ℕ) : Prop where
  ring : h ∈ (s.memSlots i).delay.ring.queue maxDelayElms
  unlisted : ∀ r, h ∉ (ledger s.log).list r
  shut : ∃ B, (ledger s.log).block h = some B ∧ B.slot = i ∧
    ∀ x, h ≤ x → x < h + 2 ^ B.bin → s.pages (x / 4096) = .none

/-- The ring of the slot as the history has it. -/
structure Quarantine (s : Heap) (i : ℕ) : Prop where
  fifo : delayedIn i s.log = drainedFrom i s.log ++ (s.memSlots i).delay.ring.queue maxDelayElms
  length_le : ((s.memSlots i).delay.ring.queue maxDelayElms).length ≤ maxDelayElms / 2 + 1
  kept : ∀ h since log, s.log = since ++ .delayed i h :: log →
    (delayedIn i since).length < maxDelayElms / 4 →
      Confined s i h ∧ ∀ e ∈ since, e.hdr? ≠ some h
  relinked : ∀ h since log, s.log = since ++ .drained i h :: log → ∃ B since',
    (ledger s.log).block h = some B ∧ since = since' ++ [.linked ⟨.free, i, B.bin⟩ h] ∧
      ∀ later r earlier, since' = later ++ .linked r h :: earlier → ∃ r', .unlinked r' h ∈ earlier
  opened : ∀ b, ∀ h ∈ (ledger s.log).list ⟨.free, i, b⟩, Accessible s.pages h (2 ^ b)

theorem Rep.queue_eq {off : Off} (hR : Rep env off s) :
    (s.memSlots i).delay.ring.queue maxDelayElms = (ledger s.log).ring i :=
  (hR.shape.rings i).holds.queue_eq
    ((hR.log_ok.lawful.sound.ring_le i).trans_lt (by decide))

theorem Rep.confined {off : Off} (hR : Rep env off s) (hmem : h ∈ (ledger s.log).ring i) :
    Confined s i h := by
  have hL := hR.log_ok.lawful.sound
  obtain ⟨B, hB, hp, hs⟩ := (hL.mem_ring i h).1 hmem
  refine ⟨hR.queue_eq.symm ▸ hmem, fun r hr => ?_, B, hB, hs, ?_⟩
  · cases hp.symm.trans ((hL.mem_list_iff hB r).1 hr).1
  · rw [← (hL.block_ok h B hB).size_eq (by simp [hp])]
    exact hR.shape.pages.shut h B hB hp

theorem Rep.quarantine {off : Off} (hR : Rep env off s) (ht : Tidy s.log) : Quarantine s i where
  fifo := hR.queue_eq ▸ hR.log_ok.lawful.ring_fifo
  length_le := hR.queue_eq ▸ hR.log_ok.lawful.sound.ring_le i
  kept h since log hlog hn := by
    have hl := hR.log_ok.lawful
    rw [hlog] at hl
    obtain ⟨xs, hxs⟩ := hl.ring_since hn
    refine ⟨hR.confined ?_, fun e he => hl.quiet_since hn he⟩
    rw [hlog, hxs]
    exact List.mem_append_right xs List.mem_cons_self
  relinked h since log hlog := by
    have hl := hR.log_ok.lawful
    obtain ⟨b, since', rfl⟩ := Tidy.relink (hlog ▸ ht)
    rw [List.append_assoc] at hlog
    have hmem : .linked ⟨.free, i, b⟩ h ∈ s.log := hlog ▸ List.mem_append_right _ List.mem_cons_self
    obtain ⟨B, hB, -, -, hb⟩ := hl.block_of_linked hmem
    refine ⟨B, since', hB, by rw [hb], fun later r earlier hsince => ?_⟩
    rw [hlog, hsince, List.append_assoc] at hl
    exact (hl.of_append later).unlinked_between
  opened b h hmem := by
    have hL := hR.log_ok.lawful.sound
    obtain ⟨B, hB, hp, -, rfl⟩ := (hL.mem_list _ h).1 hmem
    rw [← (hL.block_ok h B hB).size_eq (by simp [hp])]
    exact hR.shape.pages.opened h B hB (by simp [hp])

/-- The call releases the allocation at `ptr`, if it returns `p`. -/
def Call.Releases (ptr p : ℕ) : Call → Prop
  | .free q => q = ptr
  | .realloc q _ => q = ptr ∧ p ≠ 0
  | _ => False

/-- In delay mode what a call releases goes into the ring. -/
theorem exec_delays {bt : List ℕ} {p : ℕ} {a : Alloc} (hst : st.Inv env) (hok : c.Ok st.held)
    (hdelay : env.args.useDelay = true) (ha : (ledger st.heap.log).Live a)
    (hexec : c.exec (ctxOf env depth) bt st.heap = .ok p s') (hc : c.Releases a.ptr p) :
    ∃ i log, .delayed i a.hdr :: log <:+ s'.log ∧ st.heap.log <:+ log := by
  cases c with
  | free q =>
      obtain rfl : q = a.ptr := hc
      have hspec : wp ((Call.free a.ptr).exec (ctxOf env depth) bt)
          (fun _ s' => Released env st.heap s' a.hdr) (fun _ _ => True) st.heap := by
        refine wp_bind (wp_mono (free_spec (F := False) (G := False) (ctxOf_ok env depth) hst.rep
          hst.ready ha) ?_ fun _ _ _ => trivial)
        exact fun _ _ h => wp_pure h.2
      exact (wp_ok hspec hexec).delayed hdelay
  | realloc q n =>
      obtain ⟨rfl, hp⟩ := hc
      have hspec : wp ((Call.realloc a.ptr n).exec (ctxOf env depth) bt)
          (fun p s' => p = 0 ∨ Released env st.heap s' a.hdr) (fun _ _ => True) st.heap := by
        refine wp_mono (realloc_spec (F := False) (G := False) (ctxOf_ok env depth) hst.rep hst.ready
          (fun _ => rfl) nofun hok.1 nofun (fun _ => nofun) ha) ?_ fun _ _ _ => trivial
        rintro p s' (⟨h0, -⟩ | ⟨-, hreleased, -⟩)
        · exact .inl h0
        · exact .inr hreleased
      exact ((wp_ok hspec hexec).resolve_left hp).delayed hdelay
  | _ => exact hc.elim

/-- What is freed in delay mode waits in the ring of its slot. -/
theorem freed_blocks_wait (henv : env.Ok) (hdelay : env.args.useDelay = true)
    (hr : Reachable env depth st) : (∀ i, Quarantine st.heap i) ∧
      ∀ c bt p s' a, Call.Ok st.held c → c.exec (ctxOf env depth) bt st.heap = .ok p s' →
        (ledger st.heap.log).Live a → c.Releases a.ptr p →
        ∃ i log, .delayed i a.hdr :: log <:+ s'.log ∧ st.heap.log <:+ log := by
  have hst := hr.inv henv
  obtain ⟨evs, hgrows⟩ := hr.grows henv
  refine ⟨fun i => hst.rep.quarantine (hgrows.tidy .nil), ?_⟩
  exact fun c bt p s' a hok hexec ha hc => exec_delays hst hok hdelay ha hexec hc

/-- A client makes two allocations and releases both: they wait in the ring in this order. -/
theorem freed_blocks_wait_two : ∃ (st₀ st₁ st₂ : Proc) (a b : Alloc),
    Reachable (Env.still .delaying) 1 st₀ ∧ Step (Env.still .delaying) 1 st₀ (.free a.ptr) st₁ ∧
    Step (Env.still .delaying) 1 st₁ (.free b.ptr) st₂ ∧ a.hdr ≠ b.hdr ∧
    (∀ i, Quarantine st₂.heap i) ∧
    ∃ i log j log', .delayed j b.hdr :: log' <:+ st₂.heap.log ∧ .delayed i a.hdr :: log <:+ log' ∧
      st₀.heap.log <:+ log := by
  have henv := Env.still_ok GRArgs.delaying_ok
  have hu := Env.still_undisturbed_delaying
  obtain ⟨st₀, p, q, hr₀, hidle₀, hheld, hne⟩ := exists_pair GRArgs.delaying_ok hu 1 24 (b := 12)
    (by decide) (by decide) (by decide)
  have hp : (p, 24) ∈ st₀.held := by simp [hheld]
  have hq : (q, 24) ∈ st₀.held := by simp [hheld]
  obtain ⟨a, rfl, -, ha⟩ := hidle₀.inv.holds hp
  obtain ⟨b, rfl, -, hb⟩ := hidle₀.inv.holds hq
  have hhdr : a.hdr ≠ b.hdr := by
    intro heq
    obtain ⟨A, hA, -, hoA, -⟩ := ha
    obtain ⟨B, hB, -, hoB, -⟩ := hb
    obtain rfl := Option.some.inj (hA.symm.trans (heq ▸ hB))
    exact hne (congrArg Alloc.ptr (Option.some.inj (hoA.symm.trans hoB)))
  obtain ⟨s₁, hstep₁, hidle₁⟩ := hidle₀.release 1 hu.toGranting hp
  have hr₁ := hr₀.step hstep₁
  obtain ⟨s₂, hstep₂, -⟩ := hidle₁.release 1 (p := b.ptr) (n := 24) hu.toGranting
    (by simp [hheld, hne.symm])
  refine ⟨st₀, _, _, a, b, hr₀, hstep₁, hstep₂, hhdr,
    (freed_blocks_wait henv rfl (hr₁.step hstep₂)).1, ?_⟩
  cases hstep₁ with
  | @mk bt₁ p₁ _ hok₁ hexec₁ =>
      cases hstep₂ with
      | @mk bt₂ p₂ _ hok₂ hexec₂ =>
          have hb₁ := ((wp_ok (exec_spec hidle₀.inv hok₁) hexec₁).2.others b hb
            fun h => hne (Option.some.inj h)).1
          obtain ⟨i, log, hlog, hlog₀⟩ :=
            (freed_blocks_wait henv rfl hr₀).2 _ _ _ _ a hok₁ hexec₁ ha rfl
          obtain ⟨j, log', hlog', hlog₁⟩ :=
            (freed_blocks_wait henv rfl hr₁).2 _ _ _ _ b hok₂ hexec₂ hb₁ rfl
          exact ⟨i, log, j, log', hlog', hlog.trans hlog₁, hlog₀⟩

end GuardRails
