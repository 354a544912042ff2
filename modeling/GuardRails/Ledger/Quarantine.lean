import GuardRails.Ledger.History

/-!
# The history of a delay ring

What went into the ring of a slot is what came out of it, in the same order, followed by what
is in it. A block that went in is behind all that were there, and it leaves only while more than
a quarter of the ring is in use. Until then no other event is legal for it.
-/

namespace GuardRails

variable {log since : List Event} {i h : ℕ} {e : Event}

/-- The block that the event takes up, moves, hands out or takes back. -/
def Event.hdr? : Event → Option ℕ
  | .carved h _ | .labelled h _ _ | .linked _ h | .unlinked _ h => some h
  | .counted _ q => some q.hdr
  | .filled a => some a.hdr
  | .uncounted _ h | .freeing h | .delayed _ h | .drained _ h => some h
  | _ => none

def Event.delayed? (i : ℕ) : Event → Option ℕ
  | .delayed j h => if j = i then some h else none
  | _ => none

def Event.drained? (i : ℕ) : Event → Option ℕ
  | .drained j h => if j = i then some h else none
  | _ => none

def delayedIn (i : ℕ) (log : List Event) : List ℕ := log.reverse.filterMap (Event.delayed? i)

def drainedFrom (i : ℕ) (log : List Event) : List ℕ := log.reverse.filterMap (Event.drained? i)

theorem delayedIn_cons : delayedIn i (e :: log) = delayedIn i log ++ (e.delayed? i).toList := by
  unfold delayedIn
  rw [List.reverse_cons, List.filterMap_append]
  cases he : e.delayed? i <;> simp [he]

theorem drainedFrom_cons : drainedFrom i (e :: log) = drainedFrom i log ++ (e.drained? i).toList := by
  unfold drainedFrom
  rw [List.reverse_cons, List.filterMap_append]
  cases he : e.drained? i <;> simp [he]

/-- What a legal event does to a ring. -/
theorem Ledger.ring_step {L : Ledger} (hl : L.Legal e) :
    L.ring i ++ (e.delayed? i).toList = (e.drained? i).toList ++ (L.step e).ring i := by
  cases e with
  | delayed j h =>
      change _ = Function.update L.ring j (L.ring j ++ [h]) i
      by_cases hj : j = i
      · simp [Event.delayed?, hj]
      · simp [Event.delayed?, hj, Ne.symm hj]
  | drained j h =>
      change _ = _ ++ Function.update L.ring j (L.ring j).tail i
      by_cases hj : j = i
      · obtain ⟨xs, hxs⟩ := List.head?_eq_some_iff.1 hl.1
        simp [Event.delayed?, Event.drained?, ← hj, hxs]
      · simp [Event.delayed?, Event.drained?, hj, Ne.symm hj]
  | _ => exact List.append_nil _

/-- The ring is a queue. -/
theorem Lawful.ring_fifo (hl : Lawful log) :
    delayedIn i log = drainedFrom i log ++ (ledger log).ring i := by
  induction log with
  | nil => rfl
  | cons e log ih =>
      rw [delayedIn_cons, drainedFrom_cons, ih hl.1, List.append_assoc, List.append_assoc,
        Ledger.ring_step hl.2]
      rfl

theorem Ledger.drained_long {L : Ledger} {k : ℕ} (hl : L.Legal e) (he : e.drained? i = some k) :
    maxDelayElms / 4 < (L.ring i).length := by
  cases e with
  | drained j h =>
      have hj : j = i := by
        by_contra hj
        simp [Event.drained?, hj] at he
      exact hj ▸ hl.2
  | _ => cases he

/-- A block stays in the ring while fewer than a quarter of the ring went in behind it. -/
theorem Lawful.ring_since (hl : Lawful (since ++ .delayed i h :: log))
    (hn : (delayedIn i since).length < maxDelayElms / 4) :
    ∃ xs, (ledger (since ++ .delayed i h :: log)).ring i = xs ++ h :: delayedIn i since := by
  induction since with
  | nil => exact ⟨(ledger log).ring i, Function.update_self i _ _⟩
  | cons e since ih =>
      obtain ⟨hl, hlegal⟩ : Lawful (since ++ .delayed i h :: log) ∧
        (ledger (since ++ .delayed i h :: log)).Legal e := hl
      rw [delayedIn_cons, List.length_append] at hn
      obtain ⟨xs, hxs⟩ := ih hl (by omega)
      have hlong := fun k => Ledger.drained_long (i := i) (k := k) hlegal
      have hstep := Ledger.ring_step (i := i) hlegal
      rw [hxs] at hlong hstep
      rw [delayedIn_cons]
      change ∃ xs, ((ledger (since ++ .delayed i h :: log)).step e).ring i = _
      cases he : e.drained? i with
      | none =>
          rw [he] at hstep
          exact ⟨xs, by simpa using hstep.symm⟩
      | some k =>
          rw [he] at hstep
          cases xs with
          | cons x xs => exact ⟨xs, by simpa using (List.cons.inj hstep).2.symm⟩
          | nil =>
              -- the block is the oldest, and too few are behind it
              have hlen := hlong k he
              rw [List.nil_append, List.length_cons] at hlen
              omega

/-- Of a block in a ring only its leaving is legal. -/
theorem Ledger.Sound.ring_quiet {L : Ledger} (hS : L.Sound) (hl : L.Legal e) (hmem : h ∈ L.ring i)
    (he : e.hdr? = some h) : e = .drained i h := by
  have hblock : ∀ {A}, L.block h = some A → A.place = .ring ∧ A.slot = i ∧ A.request = none := by
    intro A hA
    obtain ⟨hp, hs⟩ := (hS.mem_ring_iff hA i).1 hmem
    refine ⟨hp, hs, ?_⟩
    by_contra hq
    cases hp.symm.trans ((hS.block_ok h A hA).request_place hq)
  cases e with
  | drained j k =>
      obtain rfl := Option.some.inj he
      obtain ⟨A, hA, -, hj⟩ := (hS.mem_ring j k).1 (List.mem_of_mem_head? hl.1)
      rw [← hj, (hblock hA).2.1]
  | carved k size =>
      obtain rfl := Option.some.inj he
      obtain ⟨A, hA, -⟩ := (hS.mem_ring i k).1 hmem
      cases Eq.trans (Eq.symm hl) hA
  | labelled k slot bin =>
      obtain rfl := Option.some.inj he
      obtain ⟨A, hA, hraw, -⟩ := hl
      cases (hblock hA).1.symm.trans hraw
  | linked r k =>
      obtain rfl := Option.some.inj he
      obtain ⟨A, hA, hheld, -⟩ := hl
      cases (hblock hA).1.symm.trans hheld
  | unlinked r k =>
      obtain rfl := Option.some.inj he
      obtain ⟨A, hA, hon, -⟩ := hl
      cases (hblock hA).1.symm.trans hon
  | counted j q =>
      obtain rfl := Option.some.inj he
      obtain ⟨A, hA, hon, -⟩ := hl
      cases (hblock hA).1.symm.trans hon
  | uncounted j k =>
      obtain rfl := Option.some.inj he
      obtain ⟨A, hA, -, -, hq⟩ := hl
      exact absurd (hblock hA).2.2 hq
  | filled a =>
      obtain rfl := Option.some.inj he
      obtain ⟨A, q, hA, -, hq, -⟩ := hl
      cases (hblock hA).2.2.symm.trans hq
  | freeing k =>
      obtain rfl := Option.some.inj he
      obtain ⟨A, hA, hlive⟩ := hl
      obtain ⟨a, q, -, hq, -⟩ := (hS.block_ok k A hA).live_owner hlive
      cases (hblock hA).2.2.symm.trans hq
  | delayed j k =>
      obtain rfl := Option.some.inj he
      obtain ⟨-, A, hA, hheld, -⟩ := hl
      cases (hblock hA).1.symm.trans hheld
  | _ => cases he

/-- Nothing happens to it in the meantime. -/
theorem Lawful.quiet_since (hl : Lawful (since ++ .delayed i h :: log))
    (hn : (delayedIn i since).length < maxDelayElms / 4) (he : e ∈ since) : e.hdr? ≠ some h := by
  intro hh
  induction since with
  | nil => cases he
  | cons e' since ih =>
      obtain ⟨xs', hxs'⟩ := hl.ring_since hn
      have hmem' : h ∈ (ledger (e' :: since ++ .delayed i h :: log)).ring i := by
        rw [hxs']
        exact List.mem_append_right xs' List.mem_cons_self
      have hsound := hl.sound
      obtain ⟨hl, hlegal⟩ : Lawful (since ++ .delayed i h :: log) ∧
        (ledger (since ++ .delayed i h :: log)).Legal e' := hl
      rw [delayedIn_cons, List.length_append] at hn
      rcases List.mem_cons.1 he with rfl | hmem
      · obtain ⟨xs, hxs⟩ := hl.ring_since (by omega)
        have hmem : h ∈ (ledger (since ++ .delayed i h :: log)).ring i := by simp [hxs]
        -- it has left the ring
        obtain rfl := hl.sound.ring_quiet hlegal hmem hh
        obtain ⟨B, hB, hp, -⟩ := (hsound.mem_ring i h).1 hmem'
        obtain ⟨A, hA, -⟩ := (hl.sound.mem_ring i h).1 hmem
        have hheld := Ledger.block_updBlock hA fun B => { B with place := .held }
        have hB' := (congrFun hheld h).symm.trans hB
        rw [Function.update_self] at hB'
        cases (congrArg Block.place (Option.some.inj hB')).trans hp
      · exact ih hl (by omega) hmem

/-! ## Lists -/

theorem Ledger.place_updBlock {L : Ledger} {x : ℕ} {f : Block → Block} {p : Place}
    (hB : ∃ B, L.block h = some B ∧ B.place = p)
    (hf : x = h → ∀ B, L.block h = some B → (f B).place = B.place) :
    ∃ B, (L.updBlock x f).block h = some B ∧ B.place = p := by
  obtain ⟨B, hB, hp⟩ := hB
  by_cases hx : x = h
  · subst x
    exact ⟨f B, by rw [block_updBlock hB, Function.update_self], (hf rfl B hB).trans hp⟩
  · exact ⟨B, (Function.update_of_ne (Ne.symm hx) _ _).trans hB, hp⟩

/-- A block stays on its list until it is taken out. -/
theorem Ledger.Sound.on_step {L : Ledger} {kind : ListKind} (hS : L.Sound) (hl : L.Legal e)
    (hB : ∃ B, L.block h = some B ∧ B.place = .on kind) (he : ∀ r, e ≠ .unlinked r h) :
    ∃ B, (L.step e).block h = some B ∧ B.place = .on kind := by
  have hon : ∀ {A}, L.block h = some A → A.place = .on kind := by
    obtain ⟨B, hB, hp⟩ := hB
    exact fun hA => Option.some.inj (hA.symm.trans hB) ▸ hp
  cases e with
  | carved x size =>
      obtain ⟨B, hB, hp⟩ := hB
      have hx : h ≠ x := by
        rintro rfl
        cases Eq.trans (Eq.symm hl) hB
      exact ⟨B, (Function.update_of_ne hx _ _).trans hB, hp⟩
  | labelled x slot bin =>
      refine place_updBlock hB ?_
      rintro rfl
      obtain ⟨A, hA, hraw, -⟩ := hl
      cases (hon hA).symm.trans hraw
  | linked r x =>
      refine place_updBlock hB ?_
      rintro rfl
      obtain ⟨A, hA, hheld, -⟩ := hl
      cases (hon hA).symm.trans hheld
  | unlinked r x =>
      refine place_updBlock hB ?_
      rintro rfl
      exact absurd rfl (he r)
  | delayed j x =>
      refine place_updBlock hB ?_
      rintro rfl
      obtain ⟨-, A, hA, hheld, -⟩ := hl
      cases (hon hA).symm.trans hheld
  | drained j x =>
      refine place_updBlock hB ?_
      rintro rfl
      obtain ⟨A, hA, hring, -⟩ := (hS.mem_ring j x).1 (List.mem_of_mem_head? hl.1)
      cases (hon hA).symm.trans hring
  | counted | uncounted | filled | freeing | overrun => exact place_updBlock hB fun _ _ _ => rfl
  | _ => exact hB

theorem Lawful.on_since {r : HeadRef} (hl : Lawful (since ++ .linked r h :: log))
    (hout : ∀ r', .unlinked r' h ∉ since) :
    ∃ B, (ledger (since ++ .linked r h :: log)).block h = some B ∧ B.place = .on r.kind := by
  induction since with
  | nil =>
      obtain ⟨A, hA, -⟩ := hl.2
      exact ⟨_, (congrFun (Ledger.block_updBlock hA _) h).trans (Function.update_self h _ _), rfl⟩
  | cons e since ih =>
      obtain ⟨hl, hlegal⟩ : Lawful (since ++ .linked r h :: log) ∧
        (ledger (since ++ .linked r h :: log)).Legal e := hl
      have hon := ih hl fun r' hmem => hout r' (List.mem_cons_of_mem e hmem)
      refine hl.sound.on_step hlegal hon fun r' he => hout r' ?_
      rw [he]
      exact List.mem_cons_self

/-- A block that is on a list is not put on one again before it is taken out. -/
theorem Lawful.unlinked_between {r r' : HeadRef}
    (hl : Lawful (.linked r' h :: (since ++ .linked r h :: log))) :
    ∃ r'', .unlinked r'' h ∈ since := by
  by_contra hout
  obtain ⟨B, hB, hon⟩ := hl.1.on_since fun r'' hmem => hout ⟨r'', hmem⟩
  obtain ⟨A, hA, hheld, -⟩ := hl.2
  obtain rfl := Option.some.inj (hA.symm.trans hB)
  cases hheld.symm.trans hon

/-! ## Blocks out of use -/

/-- The event takes the block off its list or out of its ring. -/
def Event.Fetches (h : ℕ) : Event → Prop
  | .unlinked _ x | .drained _ x => x = h
  | _ => False

theorem Ledger.Sound.waits_step {L : Ledger} {B : Block} (hS : L.Sound) (hl : L.Legal e)
    (hB : L.block h = some B) (hp : B.place = .on .free ∨ B.place = .ring) (hn : ¬ e.Fetches h) :
    ∃ B', (L.step e).block h = some B' ∧ B'.place = B.place ∧ B'.owner = B.owner := by
  have hreq : B.request = none := by
    by_contra hq
    have hon := (hS.block_ok h B hB).request_place hq
    rcases hp with hp | hp <;> cases hp.symm.trans hon
  have hlive : B.live = false := by
    by_contra hlive
    obtain ⟨-, q, -, hq, -⟩ := (hS.block_ok h B hB).live_owner (by simpa using hlive)
    cases hreq.symm.trans hq
  have hne : ∀ {x A}, L.block x = some A → (x = h → A = B → False) → h ≠ x := by
    rintro x A hA hfalse rfl
    exact hfalse rfl (Option.some.inj (hA.symm.trans hB))
  have hkeep : ∀ {x : ℕ} {f : Block → Block} {L' : Ledger}, h ≠ x → L'.block = (L.updBlock x f).block →
      ∃ B', L'.block h = some B' ∧ B'.place = B.place ∧ B'.owner = B.owner := by
    intro x f L' hx hL'
    exact ⟨B, by rw [hL']; exact (Function.update_of_ne hx _ _).trans hB, rfl, rfl⟩
  cases e with
  | carved x size =>
      have hx : h ≠ x := by
        rintro rfl
        cases hB.symm.trans hl
      exact ⟨B, (Function.update_of_ne hx _ _).trans hB, rfl, rfl⟩
  | labelled x slot bin =>
      obtain ⟨A, hA, hraw, -⟩ := hl
      refine hkeep (hne hA ?_) rfl
      rintro - rfl
      rcases hp with hp | hp <;> cases hp.symm.trans hraw
  | linked r x =>
      obtain ⟨A, hA, hheld, -⟩ := hl
      refine hkeep (hne hA ?_) rfl
      rintro - rfl
      rcases hp with hp | hp <;> cases hp.symm.trans hheld
  | unlinked r x | drained r x => exact hkeep (Ne.symm hn) rfl
  | counted i q =>
      obtain ⟨A, hA, hon, -⟩ := hl
      refine hkeep (hne hA ?_) rfl
      rintro - rfl
      rcases hp with hp | hp <;> cases hp.symm.trans hon
  | uncounted i x =>
      obtain ⟨A, hA, -, -, hq⟩ := hl
      refine hkeep (hne hA ?_) rfl
      rintro - rfl
      exact hq hreq
  | filled a =>
      obtain ⟨A, q, hA, -, hq, -⟩ := hl
      refine hkeep (hne hA ?_) rfl
      rintro - rfl
      cases hreq.symm.trans hq
  | freeing x =>
      obtain ⟨A, hA, hA'⟩ := hl
      refine hkeep (hne hA ?_) rfl
      rintro - rfl
      cases hlive.symm.trans hA'
  | overrun x =>
      by_cases hx : h = x
      · subst hx
        have hset := congrFun (Ledger.block_updBlock hB fun B => { B with intact := false }) h
        rw [Function.update_self] at hset
        exact ⟨_, hset, rfl, rfl⟩
      · exact hkeep hx rfl
  | delayed i x =>
      obtain ⟨-, A, hA, hheld, -⟩ := hl
      refine hkeep (hne hA ?_) rfl
      rintro - rfl
      rcases hp with hp | hp <;> cases hp.symm.trans hheld
  | _ => exact ⟨B, hB, rfl, rfl⟩

/-- A block that is out of use waits until it is taken off its list or out of its ring. -/
theorem Lawful.waits_since {B : Block} (hl : Lawful (since ++ log)) (hB : (ledger log).block h = some B)
    (hp : B.place = .on .free ∨ B.place = .ring) (hn : ∀ e ∈ since, ¬ e.Fetches h) :
    ∃ B', (ledger (since ++ log)).block h = some B' ∧ B'.place = B.place ∧ B'.owner = B.owner := by
  induction since with
  | nil => exact ⟨B, hB, rfl, rfl⟩
  | cons e since ih =>
      obtain ⟨hl, hlegal⟩ : Lawful (since ++ log) ∧ (ledger (since ++ log)).Legal e := hl
      obtain ⟨A, hA, hplace, howner⟩ := ih hl fun e he => hn e (List.mem_cons_of_mem _ he)
      obtain ⟨B', hB', hplace', howner'⟩ :=
        hl.sound.waits_step hlegal hA (hplace ▸ hp) (hn e List.mem_cons_self)
      exact ⟨B', hB', hplace'.trans hplace, howner'.trans howner⟩

end GuardRails
