import GuardRails.Spec.Complete
import GuardRails.Spec.Relink

/-!
# The lists of headers are sequences

Any number of lists of headers share a memory. `insertElmHead` and `rmElm` do to one of them
what `cons` and `erase` do to its sequence; the other lists and the other fields of all headers
are as they were.
-/

namespace GuardRails

open ByteMemory IntrusiveList StateHoare

variable {s : Heap} {m m' : Mem} {h k head : ℕ} {ctx : Ctx} {r r' : HeadRef} {xs : List ℕ}
  {headers : Set ℕ} {R : Set HeadRef} {lists : HeadRef → List ℕ} {E : Halt → Heap → Prop}

/-- The lists with heads in `R` are well formed and share no header. -/
structure Linked (headers : Set ℕ) (R : Set HeadRef) (lists : HeadRef → List ℕ) (s : Heap) : Prop where
  list : ∀ r ∈ R, HeaderList s.mem (s.head r) (lists r)
  mem : ∀ r ∈ R, ∀ h ∈ lists r, h ∈ headers
  disjoint : ∀ r ∈ R, ∀ r' ∈ R, r ≠ r' → (lists r).Disjoint (lists r')

def Unlinked (R : Set HeadRef) (lists : HeadRef → List ℕ) (h : ℕ) : Prop := ∀ r ∈ R, h ∉ lists r

/-- A change to the links of the list `r`: in memory nothing changes but `prev` and `next` of
headers, and those of the headers on other lists stay. -/
structure LinksOf (headers : Set ℕ) (R : Set HeadRef) (lists : HeadRef → List ℕ) (r : HeadRef)
    (m m' : Mem) : Prop where
  bytes : ∀ z, (∀ k ∈ headers, z < k + 48 ∨ k + 64 ≤ z) → m' z = m z
  fields : ∀ k ∈ headers, ∀ f, f ≠ .next → f ≠ .prev → fld m' k f = fld m k f
  others : ∀ r' ∈ R, r' ≠ r → ∀ k ∈ lists r', ∀ f, fld m' k f = fld m k f

theorem Linked.head_mem (hl : Linked headers R lists s) (hr : r ∈ R) (h0 : s.head r ≠ 0) :
    s.head r ∈ lists r :=
  (hl.list r hr).head_mem h0

/-- One list has become another. -/
theorem Linked.update (hl : Linked headers R lists s) (hxs : HeaderList m' head xs)
    (hmem : ∀ k ∈ xs, k ∈ headers) (hd : ∀ r' ∈ R, r' ≠ r → xs.Disjoint (lists r'))
    (hothers : ∀ r' ∈ R, r' ≠ r → ∀ k ∈ lists r', ∀ f, fld m' k f = fld s.mem k f) (log : List Event) :
    Linked headers R (Function.update lists r xs) { (s.setHead r head) with mem := m', log := log } where
  list r' hr' := by
    change HeaderList m' ((s.setHead r head).head r') _
    rw [head_setHead]
    by_cases hrr : r' = r
    · rw [if_pos hrr, hrr, Function.update_self]
      exact hxs
    · rw [if_neg hrr, Function.update_of_ne hrr]
      exact IsList.congr (hl.list r' hr') (fun k hk => hothers r' hr' hrr k hk _)
        fun k hk => hothers r' hr' hrr k hk _
  mem r' hr' k hk := by
    by_cases hrr : r' = r
    · rw [hrr, Function.update_self] at hk
      exact hmem k hk
    · rw [Function.update_of_ne hrr] at hk
      exact hl.mem r' hr' k hk
  disjoint r₁ hr₁ r₂ hr₂ hrr := by
    by_cases h₁ : r₁ = r
    · subst h₁
      rw [Function.update_self, Function.update_of_ne hrr.symm]
      exact hd r₂ hr₂ hrr.symm
    · by_cases h₂ : r₂ = r
      · subst h₂
        rw [Function.update_self, Function.update_of_ne hrr]
        exact (hd r₁ hr₁ hrr).symm
      · rw [Function.update_of_ne h₁, Function.update_of_ne h₂]
        exact hl.disjoint r₁ hr₁ r₂ hr₂ hrr

/-- The header is put in front. -/
theorem Linked.insert (hH : HeadersOk headers s) (hl : Linked headers R lists s) (hr : r ∈ R)
    (hh : h ∈ headers) (hout : Unlinked R lists h) (log : List Event) :
    LinksOf headers R lists r s.mem (linkMem s.mem (s.head r) h) ∧
      Linked headers R (Function.update lists r (h :: lists r))
        { (s.setHead r h) with mem := linkMem s.mem (s.head r) h, log := log } := by
  have hlist := hl.list r hr
  have hhead : s.head r ≠ 0 → s.head r ∈ headers := fun h0 => hl.mem r hr _ (hl.head_mem hr h0)
  have hne : ∀ r' ∈ R, ∀ k ∈ lists r', k ≠ h := fun r' hr' k hk heq => hout r' hr' (heq ▸ hk)
  have hh0 : h ≠ s.head r := by
    intro heq
    exact hne r hr _ (hl.head_mem hr (heq ▸ hH.pos h hh)) heq.symm
  have hfld : ∀ {k}, k ∈ headers → ∀ f, fld (linkMem s.mem (s.head r) h) k f = _ := fun hk f =>
    fld_linkMem hH hh hhead hh0 hk f
  have hothers : ∀ r' ∈ R, r' ≠ r → ∀ k ∈ lists r', ∀ f,
      fld (linkMem s.mem (s.head r) h) k f = fld s.mem k f := by
    intro r' hr' hrr k hk f
    have hkh : k ≠ s.head r := fun heq =>
      hl.disjoint r' hr' r hr hrr hk (heq ▸ hl.head_mem hr (heq ▸ hH.pos k (hl.mem r' hr' k hk)))
    rw [hfld (hl.mem r' hr' k hk)]
    simp [hne r' hr' k hk, hkh]
  refine ⟨⟨fun z hz => ?_, fun k hk f hn hp => ?_, hothers⟩,
    hl.update (hlist.insert (hout r hr) (hH.pos h hh) hlist.nodup ?_ ?_ ?_ ?_ ?_) ?_ ?_ hothers log⟩
  · have hzh := hz h hh
    have hoff : Field.next.off = 48 ∧ Field.prev.off = 56 := ⟨rfl, rfl⟩
    rw [linkMem, setWord_of_notMem (by omega), setWord_of_notMem (by omega)]
    exact linkTo_of_notMem (.inr rfl) fun h0 => hz _ (hhead h0)
  · rw [hfld hk]
    simp [hn, hp]
  · simp [hfld hh]
  · simp [hfld hh]
  · intro h0
    simp [hfld (hhead h0), hh0.symm]
  · intro k hk
    simp [hfld (hl.mem r hr k hk), hne r hr k hk]
  · intro k hk hkh
    simp [hfld (hl.mem r hr k hk), hne r hr k hk, hkh]
  · exact List.forall_mem_cons.2 ⟨hh, hl.mem r hr⟩
  · exact fun r' hr' hrr => List.disjoint_cons_left.2 ⟨hout r' hr', hl.disjoint r hr r' hr' hrr.symm⟩

/-! ## Taking a header out -/

/-- A member is taken out, and what was before and behind it follows each other. -/
theorem Linked.erase (hH : HeadersOk headers s) (hl : Linked headers R lists s) (hr : r ∈ R)
    (hh : h ∈ lists r) (log : List Event) :
    LinksOf headers R lists r s.mem (unlinkMem s.mem h) ∧
      Linked headers R (Function.update lists r ((lists r).erase h))
        { (s.setHead r (if s.head r = h then fld s.mem h .next else s.head r)) with
          mem := unlinkMem s.mem h, log := log } := by
  have hlist := hl.list r hr
  have hd : (lists r).Nodup := hlist.nodup
  have hmem := hl.mem r hr
  have hnx := Chain.next_mem hlist hh
  have hpv := Chain.prev_mem hlist hh
  have hfld : ∀ {k}, k ∈ headers → ∀ f, fld (unlinkMem s.mem h) k f = _ := fun hk f =>
    fld_unlinkMem hH (hmem h hh) (fun h0 => hmem _ (hpv.resolve_left h0))
      (fun h0 => hmem _ (hnx.resolve_left h0)) hk f
  have hothers : ∀ r' ∈ R, r' ≠ r → ∀ k ∈ lists r', ∀ f, fld (unlinkMem s.mem h) k f = fld s.mem k f := by
    intro r' hr' hrr k hk f
    have hkr : k ∉ lists r := hl.disjoint r' hr' r hr hrr hk
    have hk0 := hH.pos k (hl.mem r' hr' k hk)
    have hkn : k ≠ fld s.mem h .next := by
      rintro rfl
      exact hnx.elim hk0 hkr
    have hkp : k ≠ fld s.mem h .prev := by
      rintro rfl
      exact hpv.elim hk0 hkr
    have hkh : k ≠ h := fun heq => hkr (heq ▸ hh)
    rw [hfld (hl.mem r' hr' k hk)]
    simp [hkh, hkn, hkp]
  refine ⟨⟨fun z hz => ?_, fun k hk f hn hp => ?_, hothers⟩,
    hl.update (hlist.erase hd (hH.pos h (hmem h hh)) ?_ ?_) ?_ ?_ hothers log⟩
  · have hzh := hz h (hmem h hh)
    have hoff : Field.next.off = 48 ∧ Field.prev.off = 56 := ⟨rfl, rfl⟩
    rw [unlinkMem, setWord_of_notMem (by omega), setWord_of_notMem (by omega),
      linkTo_of_notMem (.inr rfl) fun h0 => hz _ (hmem _ (hnx.resolve_left h0)),
      linkTo_of_notMem (.inl rfl) fun h0 => hz _ (hmem _ (hpv.resolve_left h0))]
  · rw [hfld hk]
    simp [hn, hp]
  · intro k hk hkh
    have hiff := Chain.next_eq_iff hlist hd hlist.zero_notMem hk hh
    rw [hfld (hmem k hk)]
    simp only [hkh, false_and, if_false, and_false, and_true, reduceCtorEq, hiff]
    simp [eq_comm]
  · intro k hk hkh
    have hiff := Chain.next_eq_iff hlist hd hlist.zero_notMem hh hk
    rw [hfld (hmem k hk)]
    simp only [hkh, false_and, if_false, and_false, and_true, reduceCtorEq, ← hiff]
    simp [eq_comm]
  · exact fun k hk => hmem k (List.mem_of_mem_erase hk)
  · exact fun r' hr' hrr k hk hk' =>
      hl.disjoint r hr r' hr' hrr.symm (List.mem_of_mem_erase hk) hk'

/-- `insertElmHead` of a header that is on no list puts it in front of the list, and `rmElm` of a
member takes it out and leaves it without links and on no list; both leave the rest alone. -/
theorem lists_refine (hcalm : ctx.env.Calm) (hH : HeadersOk headers s)
    (hl : Linked headers R lists s) (hr : r ∈ R) :
    (∀ h ∈ headers, Unlinked R lists h →
      wp (insertElmHead ctx r h) (fun _ s' =>
        (∃ m, s' = { (s.setHead r h) with mem := m, log := .linked r h :: s.log }) ∧
        LinksOf headers R lists r s.mem s'.mem ∧
        Linked headers R (Function.update lists r (h :: lists r)) s') (fun _ _ => False) s) ∧
    (∀ h ∈ lists r,
      wp (rmElm ctx r h) (fun _ s' =>
        (∃ x m, s' = { (s.setHead r x) with mem := m, log := .unlinked r h :: s.log }) ∧
        LinksOf headers R lists r s.mem s'.mem ∧
        Linked headers R (Function.update lists r ((lists r).erase h)) s' ∧
        fld s'.mem h .next = 0 ∧ fld s'.mem h .prev = 0 ∧
        Unlinked R (Function.update lists r ((lists r).erase h)) h) (fun _ _ => False) s) := by
  have hmem := hl.mem r hr
  refine ⟨fun h hh hout => ?_, fun h hh => ?_⟩
  · refine wp_mono (insertElmHead_mem rfl (hcalm.calmFrom 0) (Nat.zero_le _) (hH.field hh) fun h0 => hH.field (hmem _ (hl.head_mem hr h0)))
      ?_ fun _ _ h => h
    rintro _ s' rfl
    obtain ⟨hlinks, hlists⟩ := hl.insert hH hr hh hout (.linked r h :: s.log)
    exact ⟨⟨_, rfl⟩, hlinks, hlists⟩
  · have hlist := hl.list r hr
    have hnx := fun h0 => hmem _ ((Chain.next_mem hlist hh).resolve_left h0)
    have hpv := fun h0 => hmem _ ((Chain.prev_mem hlist hh).resolve_left h0)
    refine wp_mono (rmElm_mem rfl (hcalm.calmFrom 0) (Nat.zero_le _) hH (hmem h hh) hpv hnx) ?_ fun _ _ h => h
    rintro _ s' rfl
    obtain ⟨hlinks, hlists⟩ := hl.erase hH hr hh (.unlinked r h :: s.log)
    have hfld := fld_unlinkMem hH (hmem h hh) hpv hnx (hmem h hh)
    refine ⟨⟨_, _, rfl⟩, hlinks, hlists, ?_, ?_, fun r' hr' => ?_⟩
    · exact (hfld .next).trans (by simp)
    · exact (hfld .prev).trans (by simp)
    · by_cases hrr : r' = r
      · rw [hrr, Function.update_self]
        exact hlist.nodup.not_mem_erase
      · rw [Function.update_of_ne hrr]
        exact hl.disjoint r hr r' hr' (Ne.symm hrr) hh

/-- A heap of two headers; the first is the free list of bin `12`. -/
def twoHeaders : Heap :=
  Heap.setHead { Heap.static with pages := fun _ => .readWrite } ⟨.free, 0, 12⟩ 4096

theorem twoHeaders_ok : HeadersOk {4096, 8192} twoHeaders where
  pos h hh := by
    rintro rfl
    exact absurd hh (by simp)
  lt h hh := by
    rcases hh with rfl | rfl <;> decide
  apart h hh k hk hne := by
    rcases hh with rfl | rfl <;> rcases hk with rfl | rfl <;> first | exact absurd rfl hne | omega
  accessible _ _ _ _ := nofun

theorem twoHeaders_linked : Linked {4096, 8192} {⟨.free, 0, 12⟩} (fun _ => [4096]) twoHeaders where
  list r hr := by
    obtain rfl : r = ⟨.free, 0, 12⟩ := hr
    have hzero : ∀ h f, fld twoHeaders.mem h f = 0 := fun h f => word_eq_zero fun _ _ _ => rfl
    exact ⟨by decide, by decide, hzero _ _, hzero _ _⟩
  mem _ _ h hh := .inl (List.mem_singleton.1 hh)
  disjoint r hr r' hr' hne := absurd (Eq.trans hr (Eq.symm hr')) hne

theorem lists_refine_two : ∃ s', insertElmHead (ctxOf (Env.still .defaults) 0) ⟨.free, 0, 12⟩ 8192 twoHeaders =
    .ok () s' ∧ HeaderList s'.mem (s'.head ⟨.free, 0, 12⟩) [8192, 4096] := by
  have hout : Unlinked {⟨.free, 0, 12⟩} (fun _ => [4096]) 8192 := fun _ _ h =>
    absurd (List.mem_singleton.1 h) (by decide)
  have hcalm : (ctxOf (Env.still .defaults) 0).env.Calm := fun _ _ => rfl
  obtain ⟨_, s', hexec, -, -, hl⟩ := wp_returns
    ((lists_refine hcalm twoHeaders_ok twoHeaders_linked rfl).1 8192 (.inr rfl) hout)
  have hlist := hl.list ⟨.free, 0, 12⟩ rfl
  rw [Function.update_self] at hlist
  exact ⟨s', hexec, hlist⟩

end GuardRails
