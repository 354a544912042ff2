import GuardRails.Invariant.Counters
import GuardRails.Ledger.History
import GuardRails.Ledger.Requests

/-!
# Allocated and released so far

The counters come in pairs: what was allocated so far, and what was released so far, of a bin
in blocks, of a class of the histogram in requests, of a slot in bytes. Each event of the
history adds to one side of these accounts, and the difference of the two sides is what the
ledger has.
-/

namespace GuardRails

variable {s s' : Heap} {L : Ledger} {log evs : List Event} {e : Event} {a : Account} {h i j b k n : ℕ}

/-- Two counters, of allocations and of releases. -/
inductive Account
  | bin (i b : ℕ) | histo (i k : ℕ) | bytes (i : ℕ)
  deriving DecidableEq

namespace Account

/-- The share of a block of bin `b` in slot `i`. -/
def block (i b : ℕ) : Account → ℕ
  | .bin j d => if j = i ∧ d = b then 1 else 0
  | _ => 0

def request (i n : ℕ) : Account → ℕ
  | .histo j k => if j = i ∧ k = log2fast n then 1 else 0
  | .bytes j => if j = i then n else 0
  | _ => 0

def share (i b n : ℕ) (a : Account) : ℕ := a.block i b + a.request i n

/-- The figure that is the difference of the two counters. -/
def counter : Account → Counter
  | .bin i b => .inUse i b
  | .histo i k => .histo i k
  | .bytes i => .bytes i

end Account

namespace Heap

def credit (s : Heap) : Account → ℕ
  | .bin i b => (s.bin i b).allocs
  | .histo i k => (s.memHisto i k).allocs
  | .bytes i => (s.memSlots i).totalUserRequestedBytes

def debit (s : Heap) : Account → ℕ
  | .bin i b => (s.bin i b).frees
  | .histo i k => (s.memHisto i k).frees
  | .bytes i => (s.memSlots i).totalUserFreedBytes

end Heap

/-- What the event adds to the allocations of an account. -/
def Event.credit (a : Account) : Event → ℕ
  | .linked r _ => if r.kind = .inUse then a.block r.slot r.bin else 0
  | .counted i q => a.request i q.size
  | _ => 0

/-- What the event adds to the releases of an account. -/
def Event.debit (L : Ledger) (a : Account) : Event → ℕ
  | .unlinked r _ => if r.kind = .inUse then a.block r.slot r.bin else 0
  | .uncounted i h => ((L.request h).map fun q => a.request i q.size).getD 0
  | _ => 0

def credited (a : Account) : List Event → ℕ
  | [] => 0
  | e :: log => credited a log + e.credit a

def debited (a : Account) : List Event → ℕ
  | [] => 0
  | e :: log => debited a log + e.debit (ledger log) a

/-- From `s` to `s'` the counters went up as the history says, modulo `2 ^ 64`. -/
structure Posted (s s' : Heap) : Prop where
  credit : ∀ a, (s'.credit a : ℤ) - credited a s'.log ≡ s.credit a - credited a s.log [ZMOD 2 ^ 64]
  debit : ∀ a, (s'.debit a : ℤ) - debited a s'.log ≡ s.debit a - debited a s.log [ZMOD 2 ^ 64]

/-! ## The balance -/

theorem heapCount_counter (s : Heap) (a : Account) :
    heapCount s a.counter = s.credit a - s.debit a := by
  cases a <;> rfl

/-- The length of a list of blocks in use, as the accounts have it. -/
theorem Ledger.count_relist (L L' : Ledger) {r : HeadRef} {xs : List ℕ} {z : ℤ}
    (hlist : L'.list = Function.update L.list r xs) (hcounted : L'.counted = L.counted)
    (hz : (xs.length : ℤ) = (L.list r).length + z) (a : Account) :
    L'.count a.counter =
      L.count a.counter + if r.kind = .inUse then z * a.block r.slot r.bin else 0 := by
  obtain ⟨kind, i, b⟩ := r
  cases a with
  | bin j d =>
      simp only [Account.counter, Ledger.count, hlist, Function.update_apply, HeadRef.mk.injEq]
      cases kind with
      | free => simp
      | inUse =>
          by_cases hjd : j = i ∧ d = b
          · obtain ⟨rfl, rfl⟩ := hjd
            simp [Account.block, hz]
          · simp [Account.block, hjd]
  | histo j k => simp [Account.counter, Ledger.count, hcounted, Account.block]
  | bytes j => simp [Account.counter, Ledger.count, hcounted, Account.block]

theorem Account.request_eq (a : Account) (i n : ℕ) : (a.request i n : ℤ) =
    (if a = .histo i (log2fast n) then 1 else 0) + if a = .bytes i then (n : ℤ) else 0 := by
  cases a <;> simp [Account.request]

/-- The share of a request, on the side of the figures. -/
theorem Account.request_counter (a : Account) (i n : ℕ) : (a.request i n : ℤ) =
    (if a.counter = .histo i (log2fast n) then 1 else 0) +
      if a.counter = .bytes i then (n : ℤ) else 0 := by
  cases a <;> simp [Account.request, Account.counter]

/-- An event moves the figures by what it adds to the accounts. -/
theorem Ledger.count_step (hL : L.Sound) (hl : L.Legal e) (a : Account) :
    (L.step e).count a.counter + e.debit L a = L.count a.counter + e.credit a := by
  cases e with
  | linked r h =>
      have hlen : ((h :: L.list r).length : ℤ) = (L.list r).length + 1 := by simp
      rw [count_relist L (L.step (.linked r h)) rfl rfl hlen a]
      simp only [Event.debit, Event.credit]
      split <;> simp
  | unlinked r h =>
      obtain ⟨B, hB, hp, hs, hb, -, -⟩ := hl
      have hmem : h ∈ L.list r := (hL.mem_list_iff hB r).2 ⟨hp, hs, hb⟩
      have hlen : (((L.list r).erase h).length : ℤ) = (L.list r).length + -1 := by
        rw [List.length_erase_of_mem hmem]
        have := List.length_pos_of_mem hmem
        omega
      rw [count_relist L (L.step (.unlinked r h)) rfl rfl hlen a]
      simp only [Event.debit, Event.credit]
      split <;> simp
  | counted i q =>
      rw [L.count_counted]
      simp only [Event.debit, Event.credit, a.request_counter]
      omega
  | uncounted i h =>
      obtain ⟨B, hB, rfl, -, hreq⟩ := hl
      obtain ⟨q, hq⟩ := Option.ne_none_iff_exists'.1 hreq
      have hr : L.request h = some q := request_eq_some.2 ⟨B, hB, hq⟩
      have hcount := count_uncounted hL hB hq a.counter
      simp only [Event.debit, Event.credit, hr, Option.map_some, Option.getD_some, a.request_counter]
      omega
  | _ => cases a <;> rfl

/-- What was allocated is what is there and what was released. -/
theorem Lawful.balance (hl : Lawful log) (a : Account) :
    (ledger log).count a.counter + debited a log = credited a log := by
  induction log with
  | nil => cases a <;> rfl
  | cons e log ih =>
      have hstep := Ledger.count_step hl.1.sound hl.2 a
      have := ih hl.1
      simp only [ledger, debited, credited]
      omega

theorem Rep.words_lt {env : Env} (hR : Rep env 0 s) (x : Account) : s.credit x < 2 ^ 64 ∧ s.debit x < 2 ^ 64 := by
  have h := hR.shape.counts.lt
  cases x with
  | bin i b => exact ⟨h.allocs_lt i b, h.frees_lt i b⟩
  | histo i k => exact h.histo_lt i k
  | bytes i => exact h.bytes_lt i

/-- What was released follows from what was allocated. -/
theorem CountsOk.debit_modEq (hC : CountsOk 0 s (ledger s.log)) (hl : Lawful s.log) (a : Account) :
    (s.debit a : ℤ) - debited a s.log ≡ s.credit a - credited a s.log [ZMOD 2 ^ 64] := by
  have hcount := hC.modEq a.counter
  rw [heapCount_counter, Pi.zero_apply, add_zero] at hcount
  have hbal := hl.balance a
  have h := (Int.ModEq.refl ((s.credit a : ℤ) - debited a s.log)).sub hcount
  rwa [show (s.credit a : ℤ) - debited a s.log - (s.credit a - s.debit a) =
      s.debit a - debited a s.log by omega,
    show (s.credit a : ℤ) - debited a s.log - (ledger s.log).count a.counter =
      s.credit a - credited a s.log by omega] at h

/-- It is enough that the allocations went up as the history says. -/
theorem Posted.of_credit (hC : CountsOk 0 s (ledger s.log)) (hl : Lawful s.log)
    (hC' : CountsOk 0 s' (ledger s'.log)) (hl' : Lawful s'.log)
    (h : ∀ a, (s'.credit a : ℤ) - credited a s'.log ≡ s.credit a - credited a s.log [ZMOD 2 ^ 64]) :
    Posted s s' :=
  ⟨h, fun a => ((hC'.debit_modEq hl' a).trans (h a)).trans (hC.debit_modEq hl a).symm⟩

/-! ## Changes of the heap -/

theorem credit_updSlot {f : MemSlot → MemSlot}
    (hf : ∀ S, (∀ b, ((f S).memBins b).allocs = (S.memBins b).allocs) ∧
      (f S).totalUserRequestedBytes = S.totalUserRequestedBytes) :
    (s.updSlot i f).credit = s.credit := by
  funext a
  cases a with
  | bin j d =>
      simp only [Heap.credit, Heap.bin, Heap.updSlot, Function.update_apply]
      split
      · rename_i hj
        rw [hj, (hf _).1]
      · rfl
  | histo j k => rfl
  | bytes j =>
      simp only [Heap.credit, Heap.updSlot, Function.update_apply]
      split
      · rename_i hj
        rw [hj, (hf _).2]
      · rfl

theorem credit_updBin {f : MemBin → MemBin} (hf : ∀ B, (f B).allocs = B.allocs) :
    (s.updBin i b f).credit = s.credit := by
  refine credit_updSlot fun S => ⟨fun d => ?_, rfl⟩
  simp only [Function.update_apply]
  split
  · rename_i hd
    rw [hd, hf]
  · rfl

theorem credit_updHisto {f : MemHisto → MemHisto} (hf : ∀ H, (f H).allocs = H.allocs) :
    (s.updHisto i k f).credit = s.credit := by
  funext a
  cases a with
  | histo j d =>
      simp only [Heap.credit, histo_updHisto]
      split
      · rename_i hjd
        rw [hf, hjd.1, hjd.2]
      · rfl
  | _ => rfl

theorem credit_setHead {r : HeadRef} {x : ℕ} : (s.setHead r x).credit = s.credit :=
  credit_updBin fun B => by cases r.kind <;> rfl

theorem credit_setMutex {l : LockId} {m : Mutex} : (s.setMutex l m).credit = s.credit := by
  cases l with
  | slot i => exact credit_updSlot (f := fun S => { S with lock := m }) fun _ => ⟨fun _ => rfl, rfl⟩
  | gMutex => funext a; cases a <;> rfl
  | initMutex => funext a; cases a <;> rfl

/-- One more allocation from a bin. -/
theorem credit_allocs (s : Heap) (i b : ℕ) (a : Account) :
    ((s.updBin i b fun B => { B with allocs := (B.allocs + 1) % 2 ^ 64 }).credit a : ℤ) ≡
      s.credit a + a.block i b [ZMOD 2 ^ 64] := by
  cases a with
  | bin j d =>
      simp only [Heap.credit, bin_updBin, Account.block]
      by_cases hjd : j = i ∧ d = b
      · rw [if_pos hjd, if_pos hjd, hjd.1, hjd.2]
        exact succ_modEq _
      · rw [if_neg hjd, if_neg hjd, Nat.cast_zero, add_zero]
  | histo j k =>
      simp only [Account.block, Nat.cast_zero, add_zero]
      rfl
  | bytes j =>
      obtain ⟨bins, hs⟩ := updBin_slot s i b (fun B => { B with allocs := (B.allocs + 1) % 2 ^ 64 }) j
      simp only [Heap.credit, hs, Account.block, Nat.cast_zero, add_zero]
      rfl

/-- One more request in a class of the histogram. -/
theorem credit_histo (s : Heap) (i k : ℕ) (a : Account) :
    ((s.updHisto i k fun H => { H with allocs := (H.allocs + 1) % 2 ^ 64 }).credit a : ℤ) ≡
      s.credit a + if a = .histo i k then 1 else 0 [ZMOD 2 ^ 64] := by
  cases a with
  | histo j d =>
      simp only [Heap.credit, histo_updHisto, Account.histo.injEq]
      by_cases hjd : j = i ∧ d = k
      · rw [if_pos hjd, if_pos hjd, hjd.1, hjd.2]
        exact succ_modEq _
      · rw [if_neg hjd, if_neg hjd, add_zero]
  | _ => rw [if_neg (by simp), add_zero]; rfl

/-- More bytes requested in a slot. -/
theorem credit_requested (s : Heap) (i n : ℕ) (a : Account) :
    ((s.updSlot i fun S => { S with
        totalUserRequestedBytes := (S.totalUserRequestedBytes + n) % 2 ^ 64 }).credit a : ℤ) ≡
      s.credit a + if a = .bytes i then (n : ℤ) else 0 [ZMOD 2 ^ 64] := by
  simp only [Heap.updSlot]
  cases a with
  | bin j d =>
      simp only [Heap.credit, Heap.bin, Function.update_apply, reduceCtorEq, if_false, add_zero]
      by_cases hj : j = i
      · rw [if_pos hj, hj]
      · rw [if_neg hj]
  | histo j d => simp only [reduceCtorEq, if_false, add_zero]; rfl
  | bytes j =>
      simp only [Heap.credit, Function.update_apply, Account.bytes.injEq]
      by_cases hj : j = i
      · rw [if_pos hj, if_pos hj, hj]
        push_cast
        exact Int.mod_modEq _ _
      · rw [if_neg hj, if_neg hj, add_zero]

/-! ## Histories that go on -/

theorem credited_append (a : Account) (evs log : List Event) :
    credited a (evs ++ log) = credited a log + (evs.map (Event.credit a)).sum := by
  induction evs with
  | nil => rfl
  | cons e evs ih =>
      rw [List.cons_append, credited, ih, List.map_cons, List.sum_cons, Nat.add_assoc,
        Nat.add_comm (e.credit a)]

/-- Events that release nothing. -/
theorem debited_append (h : ∀ e ∈ evs, ∀ L, Event.debit L a e = 0) :
    debited a (evs ++ log) = debited a log := by
  induction evs with
  | nil => rfl
  | cons e evs ih =>
      rw [List.cons_append, debited, ih fun e he => h e (List.mem_cons_of_mem _ he),
        h e List.mem_cons_self, Nat.add_zero]

theorem Ledger.request_congr {L' : Ledger} {x : ℕ} {f : Block → Block}
    (hblock : L'.block = (L.updBlock x f).block) (hf : ∀ B, (f B).request = B.request) :
    L'.request h = L.request h := by
  simp only [Ledger.request, hblock, Ledger.updBlock, Function.update_apply]
  split
  · rename_i hx
    subst hx
    cases L.block h <;> simp [hf]
  · rfl

/-- A request stands until it is counted off. -/
theorem Ledger.request_step {q : Request} (hl : L.Legal e) (hne : ∀ i, e ≠ .uncounted i h)
    (hq : L.request h = some q) : (L.step e).request h = some q := by
  obtain ⟨B, hB, hreq⟩ := request_eq_some.1 hq
  cases e with
  | carved x size =>
      have hx : h ≠ x := by
        rintro rfl
        exact absurd (hB.symm.trans hl) nofun
      exact request_eq_some.2 ⟨B, (Function.update_of_ne hx _ _).trans hB, hreq⟩
  | counted i q' =>
      have hx : h ≠ q'.hdr := by
        rintro rfl
        obtain ⟨A, hA, -, -, -, hnone⟩ := hl
        obtain rfl := Option.some.inj (hA.symm.trans hB)
        exact absurd (hreq.symm.trans hnone) nofun
      exact request_eq_some.2 ⟨B, (Function.update_of_ne hx _ _).trans hB, hreq⟩
  | uncounted i x =>
      have hx : h ≠ x := fun hx => hne i (hx ▸ rfl)
      exact request_eq_some.2 ⟨B, (Function.update_of_ne hx _ _).trans hB, hreq⟩
  | labelled | linked | unlinked | filled | freeing | overrun | delayed | drained =>
      refine Eq.trans (request_congr rfl ?_) hq
      exact fun _ => rfl
  | _ => exact hq

theorem Lawful.request_append (hl : Lawful (evs ++ log)) (hne : ∀ i, .uncounted i h ∉ evs) {q : Request}
    (hq : (ledger log).request h = some q) : (ledger (evs ++ log)).request h = some q := by
  induction evs with
  | nil => exact hq
  | cons e evs ih =>
      refine Ledger.request_step hl.2 (fun i he => hne i (he ▸ List.mem_cons_self)) ?_
      exact ih hl.1 fun i hi => hne i (List.mem_cons_of_mem _ hi)

end GuardRails
