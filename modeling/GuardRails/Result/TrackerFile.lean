import GuardRails.Model.Grdump
import Mathlib.Algebra.BigOperators.Group.Finset.Basic
import Mathlib.Algebra.Order.Ring.Int
import Mathlib.Data.List.Dedup
import Mathlib.Data.List.Perm.Basic

/-!
# Tracker files are read back

The leaks that `grdump.py` reports are the allocations in the tracker file, unless the first
line of the maps file is too long for the buffer of `dumpOffsets`: then it runs into the
first record, and that record is lost.
-/

namespace GuardRails

open PyText

variable {n : ℕ}

/-! ## Records -/

@[ext] structure Traced (n : ℕ) where
  size : ℕ
  frames : List ℕ
  size_lt : size < 2 ^ 64
  length_le : frames.length ≤ n
  frame_ok : ∀ f ∈ frames, f ≠ 0 ∧ f < 2 ^ 64
  deriving DecidableEq

namespace Traced

variable (a : Traced n)

def record : Record := ⟨a.size, a.frames ++ List.replicate (n - a.frames.length) 0⟩

def context (count : ℕ) : Leak where
  count := count
  elmBytes := a.size
  totBytes := count * a.size
  backtrace := a.frames.map hexadecimal

end Traced

def Record.fields (r : Record) : List Text :=
  decimal r.size :: r.frames.map fun f => if f = 0 then [] else hexadecimal f

def Record.line (r : Record) : Text := r.fields.flatMap (· ++ [','])

theorem Record.text_eq (r : Record) : r.text = r.line ++ ['\n'] := by
  have hframes : r.frames.flatMap frameText =
      (r.frames.map fun f => if f = 0 then [] else hexadecimal f).flatMap (· ++ [',']) := by
    rw [List.flatMap_map]
    congr 1
    funext f
    unfold frameText
    split <;> rfl
  rw [Record.text, Record.line, Record.fields, List.flatMap_cons, hframes]

theorem plain_toDigits {b k : ℕ} (hb : 1 < b) (hb' : b ≤ 16) (hk : k < b ^ 64) :
    CsvReader.Plain (Nat.toDigits b k) := by
  have hd : ∀ d < 16, d.digitChar ≠ Char.ofNat 0 ∧ d.digitChar ≠ '\n' ∧ d.digitChar ≠ '\r' ∧
      d.digitChar ≠ '"' ∧ d.digitChar ≠ ',' := by decide
  have hc : ∀ c ∈ Nat.toDigits b k, c ≠ Char.ofNat 0 ∧ c ≠ '\n' ∧ c ≠ '\r' ∧ c ≠ '"' ∧ c ≠ ',' := by
    intro c hc
    obtain ⟨d, hlt, rfl⟩ := mem_toDigits hb hc
    exact hd d (hlt.trans_le hb')
  have hlen : (Nat.toDigits b k).length ≤ 64 := (Nat.length_toDigits_le_iff hb (by decide)).2 hk
  exact
    { noNul := fun h => (hc _ h).1 rfl
      oneLine := ⟨fun h => (hc _ h).2.1 rfl, fun h => (hc _ h).2.2.1 rfl⟩
      noQuote := fun h => (hc _ h).2.2.2.1 rfl
      noComma := fun h => (hc _ h).2.2.2.2 rfl
      length_le := hlen.trans (by decide) }

theorem plain_decimal {k : ℕ} (hk : k < 2 ^ 64) : CsvReader.Plain (decimal k) :=
  plain_toDigits (by decide) (by decide) (hk.trans (by decide))

theorem plain_hexadecimal {k : ℕ} (hk : k < 2 ^ 64) : CsvReader.Plain (hexadecimal k) := by
  have h : CsvReader.Plain (Nat.toDigits 16 k) :=
    plain_toDigits (by decide) (by decide) (hk.trans (by decide))
  have hlen : (Nat.toDigits 16 k).length ≤ 64 :=
    (Nat.length_toDigits_le_iff (by decide) (by decide)).2 (hk.trans (by decide))
  have hmem : ∀ {c : Char}, c ≠ '0' → c ≠ 'x' → c ∈ hexadecimal k → c ∈ Nat.toDigits 16 k :=
    fun h0 hx hc => List.mem_of_ne_of_mem hx (List.mem_of_ne_of_mem h0 hc)
  exact
    { noNul := fun hc => h.noNul (hmem (by decide) (by decide) hc)
      oneLine := ⟨fun hc => h.oneLine.1 (hmem (by decide) (by decide) hc),
        fun hc => h.oneLine.2 (hmem (by decide) (by decide) hc)⟩
      noQuote := fun hc => h.noQuote (hmem (by decide) (by decide) hc)
      noComma := fun hc => h.noComma (hmem (by decide) (by decide) hc)
      length_le := by
        change (Nat.toDigits 16 k).length + 1 + 1 ≤ 131072
        omega }

theorem Traced.plain (a : Traced n) : ∀ f ∈ a.record.fields, CsvReader.Plain f := by
  intro f hf
  rcases List.mem_cons.1 hf with rfl | hf
  · exact plain_decimal a.size_lt
  · obtain ⟨k, hk, rfl⟩ := List.mem_map.1 hf
    rcases List.mem_append.1 hk with hk | hk
    · rw [if_neg (a.frame_ok k hk).1]
      exact plain_hexadecimal (a.frame_ok k hk).2
    · rw [if_pos (List.eq_of_mem_replicate hk)]
      exact .nil

/-! ## Lines -/

theorem oneLine_flatMap {fs : List Text} (h : ∀ f ∈ fs, CsvReader.Plain f) :
    OneLine (fs.flatMap (· ++ [','])) := by
  induction fs with
  | nil => exact ⟨nofun, nofun⟩
  | cons f fs ih =>
      obtain ⟨hf, hfs⟩ := List.forall_mem_cons.1 h
      have hcomma : OneLine [','] := ⟨by decide, by decide⟩
      exact (hf.oneLine.append hcomma).append (ih hfs)

theorem Traced.oneLine (a : Traced n) : OneLine a.record.line := oneLine_flatMap a.plain

/-- The fields that are not empty. -/
theorem Traced.filter_fields (a : Traced n) :
    a.record.fields.filter (· ≠ []) = decimal a.size :: a.frames.map hexadecimal := by
  have hdec : decimal a.size ≠ [] := Nat.toDigits_ne_nil
  have hframes : a.record.frames.map (fun f => if f = 0 then [] else hexadecimal f) =
      a.frames.map hexadecimal ++ List.replicate (n - a.frames.length) [] := by
    rw [record, List.map_append, List.map_replicate, if_pos rfl]
    congr 1
    exact List.map_congr_left fun f hf => if_neg (a.frame_ok f hf).1
  have hne : ∀ f ∈ a.frames.map hexadecimal, decide (f ≠ []) = true := by
    intro f hf
    obtain ⟨k, -, rfl⟩ := List.mem_map.1 hf
    rfl
  have hsize : a.record.size = a.size := rfl
  rw [Record.fields, hframes, List.filter_cons_of_pos (by simpa [hsize] using hdec),
    List.filter_append, List.filter_eq_self.2 hne, List.filter_replicate_of_neg (by simp),
    List.append_nil, hsize]

theorem hexadecimal_injective : Function.Injective hexadecimal := fun _ _ h =>
  toDigits_injective (by decide) (by decide) (List.cons.inj (List.cons.inj h).2).2

/-- Different allocations have different lines. -/
theorem line_injective : Function.Injective fun a : Traced n => a.record.line := by
  intro a b h
  have hrow : ∀ a : Traced n, csvRows [a.record.line] = [some (a.record.fields ++ [[]])] := by
    intro a
    have hplain : ∀ fs ∈ [a.record.fields], fs ≠ [] ∧ ∀ f ∈ fs, CsvReader.Plain f :=
      List.forall_mem_singleton.2 ⟨List.cons_ne_nil _ _, a.plain⟩
    exact csvRows_fields hplain
  have hrows := (hrow a).symm.trans ((congrArg (fun l => csvRows [l]) h).trans (hrow b))
  have hfields : a.record.fields = b.record.fields := by simpa using hrows
  have hfilter := a.filter_fields.symm.trans ((congrArg (List.filter (· ≠ [])) hfields).trans
    b.filter_fields)
  obtain ⟨hsize, hframes⟩ := List.cons.inj hfilter
  exact Traced.ext (toDigits_injective (by decide) (by decide) hsize)
    (List.map_injective_iff.2 hexadecimal_injective hframes)

/-! ## The leaks -/

theorem parseRow_record (a : Traced n) (k : ℕ) :
    parseRow (decimal k :: a.record.fields ++ [[]]) = .ok (a.context k) := by
  have hfilter : (decimal k :: a.record.fields ++ [[]]).filter (· ≠ []) =
      decimal k :: decimal a.size :: a.frames.map hexadecimal := by
    have hdec : decimal k ≠ [] := Nat.toDigits_ne_nil
    rw [List.filter_append, List.filter_cons_of_pos (by simpa using hdec), a.filter_fields,
      List.filter_cons_of_neg (by simp), List.filter_nil, List.append_nil]
  rw [parseRow, hfilter]
  simp only [decimal, int?_toDigits]
  rfl

theorem parseRows_map {α : Type} {f : α → List Text} {g : α → Leak} {xs : List α}
    (h : ∀ x ∈ xs, parseRow (f x) = .ok (g x)) :
    parseRows (xs.map fun x => some (f x)) = .ok (xs.map g, 0) := by
  induction xs with
  | nil => rfl
  | cons x xs ih =>
      obtain ⟨hx, hxs⟩ := List.forall_mem_cons.1 h
      rw [List.map_cons, parseRows, hx, ih hxs]
      rfl

def contexts (as : List (Traced n)) : List Leak := as.dedup.map fun a => a.context (as.count a)

theorem exists_map_of_perm {α β : Type} {f : α → β} {l : List β} {xs : List α}
    (h : l.Perm (xs.map f)) : ∃ q : List α, l = q.map f ∧ q.Perm xs := by
  have hcomp := congrFun (congrFun (List.eq_map_comp_perm f) l) xs
  exact hcomp.mpr h

/-- The entries of the counter come from the allocations. -/
theorem counter_items (ctr : PyCounter) (as : List (Traced n)) :
    ∃ q : List (Traced n), q.Perm as.dedup ∧
      (ctr.items (as.map fun a => a.record.line)).mergeSort (fun x y => decide (y.2 ≤ x.2)) =
        q.map fun a => (a.record.line, as.count a) := by
  have hperm := (List.mergeSort_perm (ctr.items (as.map fun a => a.record.line))
    fun x y => decide (y.2 ≤ x.2)).trans (ctr.perm _)
  rw [List.dedup_map_of_injective line_injective, List.map_map] at hperm
  have hcount : ((fun x => (x, (as.map fun a => a.record.line).count x)) ∘
      fun a : Traced n => a.record.line) = fun a => (a.record.line, as.count a) := by
    funext a
    exact congrArg (Prod.mk _) (List.count_map_of_injective as _ line_injective a)
  rw [hcount] at hperm
  obtain ⟨q, hsort, hq⟩ := exists_map_of_perm hperm
  exact ⟨q, hq, hsort⟩

theorem parseLeaks_lines (ctr : PyCounter) {as : List (Traced n)} (hlen : as.length < 2 ^ 64) :
    ∃ leaks, parseLeaks ctr (as.map fun a => a.record.line) = .ok (leaks, 0) ∧
      leaks.Perm (contexts as) := by
  obtain ⟨q, hq, hsort⟩ := counter_items ctr as
  refine ⟨q.map fun a => a.context (as.count a), ?_, hq.map _⟩
  have hcount : ∀ a, as.count a < 2 ^ 64 := fun a => List.count_le_length.trans_lt hlen
  have hlines : (q.map fun a => (a.record.line, as.count a)).map
      (fun x => decimal x.2 ++ [','] ++ x.1) =
      (q.map fun a => decimal (as.count a) :: a.record.fields).map
        fun fs => fs.flatMap (· ++ [',']) := by
    rw [List.map_map, List.map_map]
    rfl
  have hplain : ∀ fs ∈ q.map fun a => decimal (as.count a) :: a.record.fields,
      fs ≠ [] ∧ ∀ f ∈ fs, CsvReader.Plain f := by
    intro fs hfs
    obtain ⟨a, -, rfl⟩ := List.mem_map.1 hfs
    exact ⟨nofun, List.forall_mem_cons.2 ⟨plain_decimal (hcount a), a.plain⟩⟩
  rw [parseLeaks, hsort, hlines, csvRows_fields hplain, List.map_map]
  exact parseRows_map fun a _ => parseRow_record a _

/-- A sum over the contexts is a sum over the allocations. -/
theorem sum_dedup {α : Type} [BEq α] [LawfulBEq α] [DecidableEq α] (as : List α) (g : α → ℤ) :
    (as.dedup.map fun a => (as.count a : ℤ) * g a).sum = (as.map g).sum := by
  obtain rfl : ‹BEq α› = instBEqOfDecidableEq := lawful_beq_subsingleton _ _
  rw [Finset.sum_list_map_count as g, ← List.sum_toFinset _ as.nodup_dedup]
  refine Finset.sum_congr (Finset.ext fun a => ?_) fun a _ => ?_
  · simp
  · rw [nsmul_eq_mul]

theorem totalLeakCount_contexts (as : List (Traced n)) :
    totalLeakCount (contexts as) = as.length := by
  have h := sum_dedup as fun _ => 1
  rw [List.map_const', List.sum_replicate, nsmul_one] at h
  rw [totalLeakCount, contexts, List.map_map, ← h]
  simp only [mul_one]
  rfl

theorem totalBytesLeaked_contexts (as : List (Traced n)) :
    totalBytesLeaked (contexts as) = (as.map fun a => (a.size : ℤ)).sum := by
  rw [totalBytesLeaked, contexts, List.map_map, ← sum_dedup as]
  rfl

/-! ## The file -/

/-- The first line of a maps file: a start address in hexadecimal and what follows it. -/
structure MapsLine where
  start : Text
  rest : Text
  start_ne : start ≠ []
  start_length : start.length ≤ 16
  start_hex : ∀ c ∈ start, (digit? 16 c).isSome
  noNewline : '\n' ∉ rest
  noNul : Char.ofNat 0 ∉ rest

namespace MapsLine

variable (l : MapsLine)

def text : Text := l.start ++ '-' :: l.rest

theorem notMem_start {c : Char} (hc : (digit? 16 c).isSome = false) : c ∉ l.start :=
  fun h => absurd (l.start_hex c h) (by simp [hc])

theorem notMem_text {c : Char} (hc : (digit? 16 c).isSome = false) (h0 : c ≠ '-')
    (h : c ∉ l.rest) : c ∉ l.text := by
  rw [text, List.mem_append, List.mem_cons, not_or, not_or]
  exact ⟨l.notMem_start hc, h0, h⟩

theorem oneLine (h : '\r' ∉ l.rest) : OneLine l.text :=
  ⟨l.notMem_text (by decide) (by decide) l.noNewline, l.notMem_text (by decide) (by decide) h⟩

/-- The base address can be read from any line that begins like the first. -/
theorem loadData_line {text line : Text} {data : List Text} {x : Text}
    (hlines : splitlines text = line :: data) (hline : line = l.start ++ '-' :: x) :
    ∃ base, loadData text = .ok (base, data) := by
  have hstart : line.takeWhile (· ≠ '-') = l.start := by
    have hne : ∀ c ∈ l.start, decide (c ≠ '-') = true := by
      intro c hc
      have : c ≠ '-' := fun h0 => l.notMem_start (c := '-') (by decide) (h0 ▸ hc)
      simp [this]
    rw [hline, List.takeWhile_append_of_pos hne, List.takeWhile_cons_of_neg (by simp),
      List.append_nil]
  have hint : int? 16 l.start = (digits? 16 0 l.start).map Nat.cast :=
    int?_digits (by decide) l.start_ne l.start_hex (l.notMem_start (by decide))
      (l.notMem_start (by decide))
  obtain ⟨k, hk⟩ := Option.isSome_iff_exists.1 (digits?_isSome (n := 0).2 l.start_hex)
  rw [hk] at hint
  refine ⟨k, ?_⟩
  rw [loadData, hlines]
  simp only [hstart, hint]
  rfl

end MapsLine

theorem fgets_line {t : Text} (ht : '\n' ∉ t) (k : ℕ) (more : Text) :
    fgets k (t ++ '\n' :: more) = (t ++ ['\n']).take k := by
  induction t generalizing k with
  | nil => cases k <;> simp [fgets]
  | cons c cs ih =>
      rw [List.mem_cons, not_or] at ht
      cases k with
      | zero => rfl
      | succ k =>
          rw [List.cons_append, fgets, if_neg (Ne.symm ht.1), ih ht.2]
          rfl

theorem offsetsText_line (l : MapsLine) (more : Text) :
    offsetsText (l.text ++ '\n' :: more) = (l.text ++ ['\n']).take 255 := by
  have hnul : Char.ofNat 0 ∉ (l.text ++ ['\n']).take 255 := fun h =>
    (List.mem_append.1 (List.mem_of_mem_take h)).elim
      (l.notMem_text (by decide) (by decide) l.noNul) (by decide)
  rw [offsetsText, fgets_line (l.notMem_text (by decide) (by decide) l.noNewline),
    List.takeWhile_eq_self_iff.2]
  intro c hc
  have : c ≠ Char.ofNat 0 := fun h0 => hnul (h0 ▸ hc)
  simp [this]

theorem records_text (as : List (Traced n)) :
    (as.map Traced.record).flatMap Record.text =
      (as.map fun a => a.record.line).flatMap (· ++ ['\n']) := by
  rw [List.flatMap_map, List.flatMap_map]
  congr 1
  funext a
  exact a.record.text_eq

theorem splitlines_records (as : List (Traced n)) :
    splitlines ((as.map Traced.record).flatMap Record.text) = as.map fun a => a.record.line := by
  rw [records_text]
  refine splitlines_lines fun t ht => ?_
  obtain ⟨a, -, rfl⟩ := List.mem_map.1 ht
  exact a.oneLine

/-- `grdump.py` reports each allocation in the file, and nothing else. -/
def RoundTrip (ctr : PyCounter) (text : Text) (as : List (Traced n)) : Prop :=
  ∃ leaks, grdump ctr text = .ok (leaks, 0) ∧ leaks.Perm (contexts as) ∧
    totalBytesLeaked leaks = (as.map fun a => (a.size : ℤ)).sum ∧ totalLeakCount leaks = as.length

/-- Whatever the first line, the records behind it are read. -/
theorem grdump_of_lines (ctr : PyCounter) {text line x : Text} {as : List (Traced n)} (l : MapsLine)
    (hlines : splitlines text = line :: as.map fun a => a.record.line)
    (hline : line = l.start ++ '-' :: x) (hlen : as.length < 2 ^ 64) :
    ∃ leaks, grdump ctr text = .ok (leaks, 0) ∧ leaks.Perm (contexts as) := by
  obtain ⟨base, hload⟩ := l.loadData_line hlines hline
  obtain ⟨leaks, hparse, hperm⟩ := parseLeaks_lines ctr hlen
  refine ⟨leaks, ?_, hperm⟩
  rw [grdump, hload]
  exact hparse

theorem totals_of_perm {leaks : List Leak} {as : List (Traced n)} (h : leaks.Perm (contexts as)) :
    totalBytesLeaked leaks = (as.map fun a => (a.size : ℤ)).sum ∧
      totalLeakCount leaks = as.length := by
  rw [← totalBytesLeaked_contexts, ← totalLeakCount_contexts]
  exact ⟨(h.map _).sum_eq, (h.map _).sum_eq⟩

/-- The part of a long first line that is written. -/
theorem MapsLine.take_text (l : MapsLine) (h : 254 < l.text.length) :
    (l.text ++ ['\n']).take 255 = l.text.take 255 ∧
      l.text.take 255 = l.start ++ '-' :: l.rest.take (254 - l.start.length) := by
  have hstart := l.start_length
  refine ⟨List.take_append_of_le_length h, ?_⟩
  have hsucc : 255 - l.start.length = (254 - l.start.length) + 1 := by omega
  rw [text, List.take_append, List.take_of_length_le (by omega), hsucc]
  rfl

/-- A first line that is too long takes the first record with it. -/
theorem record_lost (ctr : PyCounter) (l : MapsLine) (more : Text) {a : Traced n}
    {as : List (Traced n)} (hcr : '\r' ∉ l.rest) (hlong : 254 < l.text.length)
    (hlen : as.length < 2 ^ 64) :
    ∃ leaks, grdump ctr (trackerText (l.text ++ '\n' :: more) ((a :: as).map Traced.record)) =
      .ok (leaks, 0) ∧ leaks.Perm (contexts as) := by
  obtain ⟨htake, hstart⟩ := l.take_text hlong
  have honeLine : OneLine (l.text.take 255) :=
    ⟨fun h => (l.oneLine hcr).1 (List.mem_of_mem_take h),
      fun h => (l.oneLine hcr).2 (List.mem_of_mem_take h)⟩
  have hlines : splitlines (trackerText (l.text ++ '\n' :: more) ((a :: as).map Traced.record)) =
      (l.text.take 255 ++ a.record.line) :: as.map fun a => a.record.line := by
    rw [trackerText, offsetsText_line, htake, List.map_cons, List.flatMap_cons, Record.text_eq,
      List.append_assoc, List.singleton_append, ← List.append_assoc,
      splitlines_line (honeLine.append a.oneLine), splitlines_records]
  rw [hstart, List.append_assoc, List.cons_append] at hlines
  exact grdump_of_lines ctr l hlines rfl hlen

theorem roundTrip_of_fits (ctr : PyCounter) (l : MapsLine) (more : Text) {as : List (Traced n)}
    (hcr : '\r' ∉ l.rest) (hfits : l.text.length < 255 ∨ as = []) (hlen : as.length < 2 ^ 64) :
    RoundTrip ctr (trackerText (l.text ++ '\n' :: more) (as.map Traced.record)) as := by
  obtain ⟨leaks, hgrdump, hperm⟩ : ∃ leaks,
      grdump ctr (trackerText (l.text ++ '\n' :: more) (as.map Traced.record)) = .ok (leaks, 0) ∧
        leaks.Perm (contexts as) := by
    by_cases hshort : l.text.length < 255
    · have hlines : splitlines (trackerText (l.text ++ '\n' :: more) (as.map Traced.record)) =
          l.text :: as.map fun a => a.record.line := by
        rw [trackerText, offsetsText_line, List.take_of_length_le (by rw [List.length_append]; exact hshort),
          List.append_assoc, List.singleton_append, splitlines_line (l.oneLine hcr),
          splitlines_records]
      exact grdump_of_lines ctr l hlines rfl hlen
    · obtain rfl := hfits.resolve_left hshort
      obtain ⟨htake, hstart⟩ := l.take_text (by omega)
      have honeLine : OneLine (l.text.take 255) :=
        ⟨fun h => (l.oneLine hcr).1 (List.mem_of_mem_take h),
          fun h => (l.oneLine hcr).2 (List.mem_of_mem_take h)⟩
      have hlines : splitlines (trackerText (l.text ++ '\n' :: more)
          (([] : List (Traced n)).map Traced.record)) =
          l.text.take 255 :: ([] : List (Traced n)).map fun a => a.record.line := by
        rw [trackerText, offsetsText_line, htake]
        refine (congrArg splitlines (List.append_nil _)).trans (splitlines_last honeLine ?_)
        rw [hstart]
        exact List.append_ne_nil_of_right_ne_nil _ (List.cons_ne_nil _ _)
      exact grdump_of_lines ctr l hlines hstart hlen
  exact ⟨leaks, hgrdump, hperm, totals_of_perm hperm⟩

theorem not_roundTrip (ctr : PyCounter) (l : MapsLine) (more : Text) {a : Traced n}
    {as : List (Traced n)} (hcr : '\r' ∉ l.rest) (hlong : 254 < l.text.length)
    (hlen : as.length < 2 ^ 64) :
    ¬ RoundTrip ctr (trackerText (l.text ++ '\n' :: more) ((a :: as).map Traced.record))
      (a :: as) := by
  rintro ⟨leaks, hrun, -, -, hcount⟩
  obtain ⟨leaks', hrun', hperm⟩ := record_lost ctr l more hcr hlong hlen
  obtain ⟨rfl, -⟩ := Prod.mk.inj (Except.ok.inj (hrun.symm.trans hrun'))
  have hlost := (totals_of_perm hperm).2.symm.trans hcount
  rw [List.length_cons] at hlost
  omega

/-- A tracker file is read back exactly if its first line fits the buffer, or if nothing
comes after that line. -/
theorem tracker_round_trip (ctr : PyCounter) (l : MapsLine) (more : Text) (as : List (Traced n))
    (hcr : '\r' ∉ l.rest) (hlen : as.length < 2 ^ 64) :
    RoundTrip ctr (trackerText (l.text ++ '\n' :: more) (as.map Traced.record)) as ↔
      l.text.length < 255 ∨ as = [] := by
  refine ⟨fun h => ?_, fun hfits => roundTrip_of_fits ctr l more hcr hfits hlen⟩
  by_contra hnot
  obtain ⟨hlong, hne⟩ := not_or.1 hnot
  cases as with
  | nil => exact hne rfl
  | cons a as =>
      have hlen' : as.length < 2 ^ 64 := (Nat.lt_succ_self _).trans hlen
      exact not_roundTrip ctr l more hcr (by omega) hlen' h

/-- The first line of the maps file of a program whose path is `path`. -/
def pathLine (path : Text) (hn : '\n' ∉ path) (h0 : Char.ofNat 0 ∉ path) : MapsLine where
  start := ['0', '0', '4', '0', '0', '0', '0', '0']
  rest := ['0', '0', '4', '0', 'b', '0', '0', '0', ' ', 'r', '-', 'x', 'p', ' '] ++ path
  start_ne := List.cons_ne_nil _ _
  start_length := by decide
  start_hex := List.all_eq_true.1 (by decide)
  noNewline h := (List.mem_append.1 h).elim (by decide) hn
  noNul h := (List.mem_append.1 h).elim (by decide) h0

def PyCounter.ordered : PyCounter where
  items data := data.dedup.map fun x => (x, data.count x)
  perm _ := .refl _

def oneFrame : Traced 1 where
  size := 24
  frames := [4198400]
  size_lt := by decide
  length_le := by decide
  frame_ok := by decide

theorem tracker_round_trip_short :
    RoundTrip PyCounter.ordered (trackerText ((pathLine ['/', 't'] (by decide) (by decide)).text ++
      '\n' :: []) ([oneFrame, oneFrame].map Traced.record)) [oneFrame, oneFrame] :=
  (tracker_round_trip PyCounter.ordered (pathLine ['/', 't'] (by decide) (by decide)) []
    [oneFrame, oneFrame] (by decide) (by decide)).2 (.inl (by decide))

def longLine : MapsLine :=
  pathLine (List.replicate 240 '/') (fun h => absurd (List.eq_of_mem_replicate h) (by decide))
    fun h => absurd (List.eq_of_mem_replicate h) (by decide)

theorem tracker_record_lost :
    ¬ RoundTrip PyCounter.ordered (trackerText (longLine.text ++ '\n' :: [])
      ([oneFrame].map Traced.record)) [oneFrame] := by
  refine not_roundTrip PyCounter.ordered longLine [] (fun h => ?_) ?_ (by decide)
  · rcases List.mem_append.1 h with h | h
    · exact absurd h (by decide)
    · exact absurd (List.eq_of_mem_replicate h) (by decide)
  · simp only [longLine, pathLine, MapsLine.text, List.length_append, List.length_cons,
      List.length_replicate, List.length_nil]
    decide

end GuardRails
