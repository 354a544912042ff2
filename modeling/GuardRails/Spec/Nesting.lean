import GuardRails.Spec.Afloat
import Mathlib.Algebra.BigOperators.Group.Finset.Piecewise
import Mathlib.Algebra.Order.BigOperators.Group.Finset

/-!
# Dumps within dumps

A request starts a dump when it takes the mark of its slot more than the interval above that at
the latest dump of the slot, and the two marks are then the same again. So every such dump uses
up the interval of what requests have added to the distances of all slots, and where each dump
requests less than the interval there are few dumps, nested or not.
-/

namespace GuardRails

open StateHoare

variable {env : Env} {log base evs : List Event} {e : Event} {q : Request}
  {B I S i j k o o' d n : ℕ} {u : Want} {Q Q' : List Event → Prop}

/-! ## The distances -/

/-- How far the mark of a slot is above that at the latest dump, as far as it matters. -/
def gap (I i : ℕ) (log : List Event) : ℕ := min (highWater i log - dumpMark i log) (I + 1)

def slack (S I : ℕ) (log : List Event) : ℕ := ∑ i ∈ Finset.range S, gap I i log

theorem slack_le (S I : ℕ) (log : List Event) : slack S I log ≤ S * (I + 1) := by
  refine (Finset.sum_le_card_nsmul _ _ (I + 1) fun i _ => min_le_right _ _).trans ?_
  rw [Finset.card_range, Nat.nsmul_eq_mul]

/-- Events that are no requests, and dumps that no request starts. -/
theorem slack_cons (he : ∀ i q, e ≠ .counted i q) (hd : e ≠ .dumpBegun ∨ Rested log) :
    slack S I (e :: log) = slack S I log := by
  refine Finset.sum_congr rfl fun i _ => ?_
  rw [gap, gap, highWater_cons he, dumpMark_cons hd]

/-- One more at `i` is one more for all. -/
theorem sum_add_at {f : ℕ → ℕ} (c : ℕ) (hi : i < S) :
    ∑ j ∈ Finset.range S, (f j + if i = j then c else 0) = ∑ j ∈ Finset.range S, f j + c := by
  rw [Finset.sum_add_distrib, Finset.sum_ite_eq, if_pos (Finset.mem_range.2 hi)]

theorem gap_counted_ne (h : j ≠ i) : gap I j (.counted i q :: log) = gap I j log := by
  rw [gap, gap, highWater_counted_ne h, dumpMark_counted]

/-- A request adds no more than its size to the distance of its slot. -/
theorem slack_counted : slack S I (.counted i q :: log) ≤ slack S I log + min q.size (I + 1) := by
  by_cases hi : i < S
  · rw [slack, slack, ← sum_add_at (i := i) _ hi]
    refine Finset.sum_le_sum fun j _ => ?_
    by_cases hj : i = j
    · subst hj
      have hbytes := bytes_le_highWater i log
      rw [if_pos rfl, gap, gap, highWater_counted, dumpMark_counted]
      omega
    · rw [if_neg hj, gap_counted_ne (Ne.symm hj), Nat.add_zero]
  · refine (Finset.sum_le_sum fun j hj => ?_).trans (Nat.le_add_right _ _)
    have hne : j ≠ i := by
      rintro rfl
      exact hi (Finset.mem_range.1 hj)
    exact (gap_counted_ne hne).le

/-- A dump that is due uses up the distance of its slot. -/
theorem slack_due (hi : i < S) (hdue : dumpMark i log + I < highWater i (.counted i q :: log)) :
    slack S I (.dumpBegun :: .counted i q :: log) + (I + 1) ≤ slack S I (.counted i q :: log) := by
  rw [slack, slack, ← sum_add_at (i := i) _ hi]
  refine Finset.sum_le_sum fun j _ => ?_
  have hhigh : highWater j (.dumpBegun :: .counted i q :: log) = highWater j (.counted i q :: log) :=
    highWater_cons (e := .dumpBegun) nofun j
  rw [gap, gap, hhigh, dumpMark_dump, dumpMark_counted]
  by_cases hj : i = j
  · subst hj
    rw [if_pos rfl, if_pos rfl]
    omega
  · rw [if_neg hj, if_neg hj, Nat.add_zero]

/-! ## Who requests what -/

/-- The bytes that each dump under way has requested itself, innermost dump first. -/
def spending : List Event → List ℕ
  | [] => []
  | .dumpBegun :: evs => 0 :: spending evs
  | .dumpEnded :: evs => (spending evs).tail
  | .counted _ q :: evs => (spending evs).modifyHead (· + q.size)
  | _ :: evs => spending evs

def begun : List Event → ℕ
  | [] => 0
  | .dumpBegun :: evs => begun evs + 1
  | _ :: evs => begun evs

def outside : List Event → ℕ
  | [] => 0
  | .counted _ _ :: evs => if spending evs = [] then outside evs + 1 else outside evs
  | _ :: evs => outside evs

def inside : List Event → ℕ
  | [] => 0
  | .counted _ q :: evs => if spending evs = [] then inside evs else inside evs + q.size
  | _ :: evs => inside evs

/-- No dump requests more than `B` bytes itself. -/
def Modest (B : ℕ) (evs : List Event) : Prop := ∀ l, l <:+ evs → ∀ n ∈ spending l, n ≤ B

theorem Modest.tail (h : Modest B (e :: evs)) : Modest B evs :=
  fun l hl => h l (hl.trans (List.suffix_cons e evs))

theorem Modest.sum_le (h : Modest B evs) : (spending evs).sum ≤ B * (spending evs).length := by
  rw [Nat.mul_comm, ← Nat.nsmul_eq_mul]
  exact List.sum_le_card_nsmul _ B (h evs List.suffix_rfl)

/-- What the dumps request, those under way apart. -/
theorem Modest.inside_add_le (h : Modest B evs) :
    inside evs + B * (spending evs).length ≤ B * begun evs + (spending evs).sum := by
  induction evs with
  | nil => exact le_rfl
  | cons e evs ih =>
      have ih := ih h.tail
      have hB := h.tail evs List.suffix_rfl
      cases e with
      | dumpBegun =>
          simp only [inside, begun, spending, List.length_cons, List.sum_cons, Nat.mul_add, Nat.mul_one]
          omega
      | dumpEnded =>
          simp only [inside, begun, spending]
          cases hs : spending evs with
          | nil => simpa [hs] using ih
          | cons n ns =>
              have hn : n ≤ B := hB n (hs ▸ List.mem_cons_self)
              simp only [hs, List.length_cons, List.sum_cons, Nat.mul_add, Nat.mul_one] at ih
              simp only [List.tail_cons]
              omega
      | counted i q =>
          simp only [inside, begun, spending]
          cases hs : spending evs with
          | nil => simpa [hs] using ih
          | cons n ns =>
              simp only [hs, List.length_cons, List.sum_cons] at ih
              simp only [List.modifyHead_cons, List.length_cons, List.sum_cons, reduceCtorEq, if_false]
              omega
      | _ => exact ih

theorem Modest.inside_le (h : Modest B evs) : inside evs ≤ B * begun evs := by
  have hin := h.inside_add_le
  have hsum := h.sum_le
  omega

theorem Event.Flat.spending (he : e.Flat) : GuardRails.spending (e :: evs) = GuardRails.spending evs := by
  cases e <;> first | exact he.elim | rfl

theorem Event.Flat.begun (he : e.Flat) : GuardRails.begun (e :: evs) = GuardRails.begun evs := by
  cases e <;> first | exact he.elim | rfl

theorem Event.Flat.outside (he : e.Flat) : GuardRails.outside (e :: evs) = GuardRails.outside evs := by
  cases e <;> first | exact he.elim | rfl

theorem Event.Flat.inside (he : e.Flat) : GuardRails.inside (e :: evs) = GuardRails.inside evs := by
  cases e <;> first | exact he.elim | rfl

/-! ## The watch -/

/-- Since `base` the limit of `-M` was passed, or what has happened is as `Q` says. -/
def Since (base : List Event) (Q : List Event → Prop) (log : List Event) : Prop :=
  ∃ evs, log = evs ++ base ∧ (.limitReached ∈ evs ∨ Q evs)

theorem Since.mono (h : Since base Q log) (hQ : ∀ evs, Q evs → Q' evs) : Since base Q' log := by
  obtain ⟨evs, hlog, h⟩ := h
  exact ⟨evs, hlog, h.imp_right (hQ evs)⟩

theorem Since.cons (h : Since base Q log) (hQ : ∀ evs, log = evs ++ base → Q evs → Q' (e :: evs)) :
    Since base Q' (e :: log) := by
  obtain ⟨evs, rfl, h⟩ := h
  exact ⟨e :: evs, rfl, h.imp (List.mem_cons_of_mem e) (hQ evs rfl)⟩

/-- The dumps since `base` are paid for by the distances at `base` and the requests since, those
outside dumps with a whole interval each; `n` dumps began for another reason. -/
def Funded (S I : ℕ) (base : List Event) (n : ℕ) (evs : List Event) : Prop :=
  (I + 1) * begun evs + slack S I (evs ++ base) ≤
    S * (I + 1) + inside evs + (I + 1) * (outside evs + n)

theorem Funded.nil : Funded S I base 0 [] := by
  have hle := slack_le S I base
  simpa [Funded, begun, inside, outside] using hle

theorem Funded.le {m : ℕ} (h : Funded S I base n evs) (hle : n ≤ m) : Funded S I base m evs :=
  le_trans (α := ℕ) h (Nat.add_le_add_left (Nat.mul_le_mul_left _ (Nat.add_le_add_left hle _)) _)

theorem Funded.flat (h : Funded S I base n evs) (he : e.Flat) : Funded S I base n (e :: evs) := by
  have hslack : slack S I (e :: (evs ++ base)) = slack S I (evs ++ base) :=
    slack_cons he.ne_counted (.inl (by rintro rfl; exact he))
  rw [Funded, he.begun, he.inside, he.outside, List.cons_append, hslack]
  exact h

theorem Funded.counted (h : Funded S I base n evs) : Funded S I base n (.counted i q :: evs) := by
  have hslack : slack S I (.counted i q :: (evs ++ base)) ≤ _ := slack_counted
  have hmul : (I + 1) * (outside evs + n + 1) = (I + 1) * (outside evs + n) + (I + 1) := Nat.mul_succ _ _
  unfold Funded at *
  simp only [begun, inside, outside, List.cons_append]
  split
  · rw [Nat.add_right_comm (outside evs) 1 n]
    omega
  · omega

theorem Funded.due (h : Funded S I base n evs) {l : List Event} (hlog : .counted i q :: l = evs ++ base)
    (hi : i < S) (hdue : dumpMark i l + I < highWater i (.counted i q :: l)) :
    Funded S I base n (.dumpBegun :: evs) := by
  have hslack := slack_due hi hdue
  unfold Funded at *
  rw [← hlog] at h
  simp only [begun, inside, outside, List.cons_append, ← hlog, Nat.mul_add, Nat.mul_one] at *
  omega

/-- A dump that no mark was due for. -/
theorem Funded.undue (h : Funded S I base n evs) (hr : Rested (evs ++ base)) :
    Funded S I base (n + 1) (.dumpBegun :: evs) := by
  have hslack : slack S I (.dumpBegun :: (evs ++ base)) = slack S I (evs ++ base) :=
    slack_cons (e := .dumpBegun) nofun (.inr hr)
  unfold Funded at *
  simp only [begun, inside, outside, List.cons_append, hslack, Nat.mul_add, Nat.mul_one] at *
  omega

theorem Funded.other (h : Funded S I base n evs) (he : ∀ i q, e ≠ .counted i q) (hd : e ≠ .dumpBegun) :
    Funded S I base n (e :: evs) := by
  have hslack : slack S I (e :: (evs ++ base)) = slack S I (evs ++ base) := slack_cons he (.inl hd)
  rw [Funded, List.cons_append, hslack]
  cases e with
  | counted i q => exact absurd rfl (he i q)
  | dumpBegun => exact absurd rfl hd
  | _ => exact h

def Want.dumps : Want → ℕ
  | .dump => 1
  | _ => 0

/-- Inside `d` dumps, after at most `o` requests outside dumps. -/
structure Paced (S I : ℕ) (base : List Event) (o d : ℕ) (u : Want) (evs : List Event) : Prop where
  depth : (spending evs).length = d
  outside : GuardRails.outside evs ≤ o
  funded : Funded S I base u.dumps evs

/-- The watch over a call with `k + 1` requests outside dumps at most. -/
def Watch.pace (env : Env) (base : List Event) (k : ℕ) : Watch env where
  P o d u := Since base (Paced env.args.numSlots env.args.slotHWMDumpIntervalBytes base o d u)
  E := Since base fun evs => GuardRails.outside evs ≤ k + 1 ∧
    Funded env.args.numSlots env.args.slotHWMDumpIntervalBytes base 1 evs
  cap o := o ≤ k + 1
  cap_le := le_trans
  halt {_ _ u _} hcap h := h.mono fun _ hp => ⟨hp.outside.trans hcap, hp.funded.le (by cases u <;> decide)⟩
  le hle h := h.mono fun _ hp => { hp with outside := hp.outside.trans hle }
  flat he h := h.cons fun evs _ hp =>
    ⟨he.spending.symm ▸ hp.depth, he.outside.symm ▸ hp.outside, hp.funded.flat he⟩
  uncounted h := h.cons fun _ _ hp => ⟨hp.depth, hp.outside, hp.funded.other nofun nofun⟩
  counted h := h.cons fun evs _ hp => by
    obtain ⟨rfl, hout, hfunded⟩ := hp
    refine ⟨List.length_modifyHead, ?_, hfunded.counted⟩
    unfold GuardRails.outside outer
    cases spending evs with
    | nil => simpa using hout
    | cons n ns => simpa using hout
  due hi hdue h := h.cons fun _ hlog hp =>
    ⟨congrArg Nat.succ hp.depth, hp.outside, hp.funded.due hlog hi hdue⟩
  limit {o d u log} h := by
    obtain ⟨evs, rfl, -⟩ := h
    exact ⟨.dumpBegun :: .limitReached :: evs, rfl,
      .inl (List.mem_cons_of_mem _ List.mem_cons_self)⟩
  short h := h.mono fun _ hp => { hp with funded := hp.funded }
  last hr h := h.cons fun _ hlog hp =>
    ⟨congrArg Nat.succ hp.depth, hp.outside, hp.funded.undue (hlog ▸ hr)⟩
  ended h := h.cons fun evs _ hp =>
    ⟨by rw [spending, List.length_tail, hp.depth, Nat.add_sub_cancel], hp.outside,
      hp.funded.other nofun nofun⟩

/-- Few dumps begin where each requests less than the interval. -/
theorem Funded.begun_le (h : Funded S I base 1 evs) (hout : outside evs ≤ k) (hB : Modest B evs)
    {J : ℕ} (hJ : J ≤ I) :
    begun evs * (J + 1 - B) ≤ (S + k + 1) * (J + 1) := by
  have hin := hB.inside_le
  have hle : (I + 1) * begun evs ≤ (S + k + 1) * (I + 1) + B * begun evs := by
    have hmul := Nat.mul_le_mul_left (I + 1) (Nat.add_le_add_right hout 1)
    have hexp : (S + k + 1) * (I + 1) = S * (I + 1) + (I + 1) * (k + 1) := by ring
    unfold Funded at h
    omega
  obtain ⟨m, rfl⟩ := Nat.exists_eq_add_of_le hJ
  rcases le_total (begun evs) (S + k + 1) with hfew | hmany
  · exact Nat.mul_le_mul hfew (Nat.sub_le _ _)
  · have hmul := Nat.mul_le_mul_left m hmany
    have hleft : (J + m + 1) * begun evs = begun evs * (J + 1) + m * begun evs := by ring
    have hright : (S + k + 1) * (J + m + 1) = (S + k + 1) * (J + 1) + m * (S + k + 1) := by ring
    rw [Nat.mul_sub, Nat.sub_le_iff_le_add, Nat.mul_comm (begun evs) B]
    omega

end GuardRails
