import GuardRails.Result.TrackerFile

/-!
# Partial dumps

What `grdump.py` makes of a tracker file that ends inside a record. A cut inside the size
leaves a smaller number, which is taken for the size; a cut behind the `0x` of an address
leaves nothing that `int` could read, which shows when the addresses are resolved.
-/

namespace GuardRails

open PyText

variable {n : ℕ} {x : Text} {size size' : ℕ} {backtrace backtrace' : List Text}

/-! ## Lines that are read -/

def Leak.of (count size : ℕ) (backtrace : List Text) : Leak where
  count := count
  elmBytes := size
  totBytes := count * size
  backtrace := backtrace

def Reads (x : Text) (size : ℕ) (backtrace : List Text) : Prop :=
  ∃ done last, x = done.flatMap (· ++ [',']) ++ last ∧ (∀ f ∈ done, CsvReader.Plain f) ∧
    CsvReader.Plain last ∧ (done ++ [last]).filter (· ≠ []) = decimal size :: backtrace

theorem decimal_ne_nil (k : ℕ) : decimal k ≠ [] := Nat.toDigits_ne_nil

theorem decimal_injective : Function.Injective decimal :=
  toDigits_injective (by decide) (by decide)

/-- The rows of lines with their counts. -/
theorem csvRows_reads {xs : List Text} (count : Text → ℕ) (done : Text → List Text)
    (last : Text → Text) (hcount : ∀ x, count x < 2 ^ 64)
    (h : ∀ x ∈ xs, x = (done x).flatMap (· ++ [',']) ++ last x ∧
      (∀ f ∈ done x, CsvReader.Plain f) ∧ CsvReader.Plain (last x)) :
    csvRows (xs.map fun x => decimal (count x) ++ [','] ++ x) =
      xs.map fun x => some (decimal (count x) :: done x ++ [last x]) := by
  have hlines : (xs.map fun x => decimal (count x) ++ [','] ++ x) =
      xs.map fun x => (decimal (count x) :: done x).flatMap (· ++ [',']) ++ last x := by
    refine List.map_congr_left fun x hx => ?_
    rw [List.flatMap_cons, List.append_assoc (decimal (count x) ++ [',']), ← (h x hx).1]
  rw [hlines]
  refine csvRows_map fun x hx => ⟨List.cons_ne_nil _ _, ?_, (h x hx).2.2⟩
  exact List.forall_mem_cons.2 ⟨plain_decimal (hcount x), (h x hx).2.1⟩

theorem Reads.unique (h : Reads x size backtrace) (h' : Reads x size' backtrace') :
    size = size' ∧ backtrace = backtrace' := by
  obtain ⟨done, last, hx, hdone, hlast, hfilter⟩ := h
  obtain ⟨done', last', hx', hdone', hlast', hfilter'⟩ := h'
  have hrow : ∀ {done : List Text} {last : Text}, x = done.flatMap (· ++ [',']) ++ last →
      (∀ f ∈ done, CsvReader.Plain f) → CsvReader.Plain last →
      csvRows [decimal 1 ++ [','] ++ x] = [some (decimal 1 :: done ++ [last])] := by
    intro done last hx hdone hlast
    exact csvRows_reads (fun _ => 1) (fun _ => done) (fun _ => last) (fun _ => by decide)
      (List.forall_mem_singleton.2 ⟨hx, hdone, hlast⟩)
  have hrows := (hrow hx hdone hlast).symm.trans (hrow hx' hdone' hlast')
  have hfields : done ++ [last] = done' ++ [last'] := by simpa using hrows
  rw [hfields, hfilter'] at hfilter
  obtain ⟨hsize, htail⟩ := List.cons.inj hfilter
  exact ⟨(decimal_injective hsize).symm, htail.symm⟩

theorem parseRow_reads {done : List Text} {last : Text} (k : ℕ)
    (h : (done ++ [last]).filter (· ≠ []) = decimal size :: backtrace) :
    parseRow (decimal k :: done ++ [last]) = .ok (Leak.of k size backtrace) := by
  have hfilter : (decimal k :: done ++ [last]).filter (· ≠ []) =
      decimal k :: decimal size :: backtrace := by
    rw [List.cons_append, List.filter_cons_of_pos (by simpa using decimal_ne_nil k), h]
  rw [parseRow, hfilter]
  simp only [decimal, int?_toDigits]
  rfl

variable (ctr : PyCounter) {data : List Text} {sizes : Text → ℕ} {backtraces : Text → List Text}

theorem parseLeaks_reads (h : ∀ x ∈ data, Reads x (sizes x) (backtraces x))
    (hlen : data.length < 2 ^ 64) :
    ∃ leaks, parseLeaks ctr data = .ok (leaks, 0) ∧
      leaks.Perm (data.dedup.map fun x => Leak.of (data.count x) (sizes x) (backtraces x)) := by
  have hperm := (List.mergeSort_perm (ctr.items data) fun x y => decide (y.2 ≤ x.2)).trans
    (ctr.perm data)
  obtain ⟨q, hsort, hq⟩ := exists_map_of_perm hperm
  have hmem : ∀ x ∈ q, x ∈ data := fun x hx => List.mem_dedup.1 (hq.mem_iff.1 hx)
  have hcount : ∀ x, data.count x < 2 ^ 64 := fun x => List.count_le_length.trans_lt hlen
  choose! done last hx hdone hlast hfilter using h
  refine ⟨q.map fun x => Leak.of (data.count x) (sizes x) (backtraces x), ?_, hq.map _⟩
  rw [parseLeaks, hsort, List.map_map]
  change parseRows (csvRows (q.map fun x => decimal (data.count x) ++ [','] ++ x)) = _
  rw [csvRows_reads (fun x => data.count x) done last hcount fun x hx' =>
    ⟨hx x (hmem x hx'), hdone x (hmem x hx'), hlast x (hmem x hx')⟩]
  exact parseRows_map fun x hx' => parseRow_reads _ (hfilter x (hmem x hx'))

/-! ## The report -/

def Addressed (backtrace : List Text) : Prop := ∀ y ∈ backtrace, (int? 16 y).isSome

variable (args : GrdumpArgs) (symbols : Symbols) (baseAddr : ℤ) (numContexts : ℕ)

theorem mapM_ok {α β : Type} {f : α → Except PyError β} {xs : List α}
    (h : ∀ x ∈ xs, ∃ y, f x = .ok y) : ∃ ys, xs.mapM f = .ok ys := by
  induction xs with
  | nil => exact ⟨[], rfl⟩
  | cons x xs ih =>
      obtain ⟨⟨y, hy⟩, hxs⟩ := List.forall_mem_cons.1 h
      obtain ⟨ys, hys⟩ := ih hxs
      refine ⟨y :: ys, ?_⟩
      rw [List.mapM_cons, hy, hys]
      rfl

theorem mapM_error {α β : Type} {f : α → Except PyError β} {xs : List α} {x : α} {e : PyError}
    (hx : x ∈ xs) (he : f x = .error e) : ∃ e', xs.mapM f = .error e' := by
  induction xs with
  | nil => exact absurd hx List.not_mem_nil
  | cons y ys ih =>
      rw [List.mapM_cons]
      cases hy : f y with
      | error e' => exact ⟨e', rfl⟩
      | ok z =>
          rcases List.mem_cons.1 hx with rfl | hx
          · rw [he] at hy
            exact absurd hy nofun
          · obtain ⟨e', he'⟩ := ih hx
            exact ⟨e', by rw [he']; rfl⟩

theorem contextText_ok {leak : Leak} (context : ℕ)
    (h : args.binary = [] ∨ Addressed leak.backtrace) :
    ∃ out, contextText args symbols baseAddr numContexts context leak = .ok out := by
  unfold contextText
  split
  · exact ⟨_, rfl⟩
  · rename_i hbinary
    have haddr := h.resolve_left hbinary
    obtain ⟨addrs, hmap⟩ : ∃ addrs, leak.backtrace.mapM (absAddr baseAddr) = .ok addrs := by
      refine mapM_ok fun y hy => ?_
      obtain ⟨addr, hint⟩ := Option.isSome_iff_exists.1 (haddr y hy)
      rw [absAddr, hint]
      exact ⟨_, rfl⟩
    rw [hmap, bind, Monad.toBind, Except.instMonad]
    simp only [Except.bind]
    split
    · exact ⟨_, rfl⟩
    · exact ⟨_, rfl⟩

theorem contextText_error {leak : Leak} (context : ℕ) (hbinary : args.binary ≠ [])
    (h : ¬ Addressed leak.backtrace) :
    ∃ e, contextText args symbols baseAddr numContexts context leak = .error e := by
  obtain ⟨y, hy, hint⟩ : ∃ y ∈ leak.backtrace, int? 16 y = none := by
    by_contra hnone
    refine h fun y hy => Option.isSome_iff_ne_none.2 fun hint => hnone ⟨y, hy, hint⟩
  have haddr : absAddr baseAddr y = .error .valueError := by rw [absAddr, hint]
  obtain ⟨e, he⟩ := mapM_error hy haddr
  unfold contextText
  rw [if_neg hbinary, he]
  exact ⟨e, rfl⟩

theorem printContexts_ok {leaks : List Leak} (context : ℕ)
    (h : args.binary = [] ∨ ∀ leak ∈ leaks, Addressed leak.backtrace) :
    ∃ out, printContexts args symbols baseAddr numContexts context leaks = .ok out := by
  induction leaks generalizing context with
  | nil => exact ⟨[], rfl⟩
  | cons leak leaks ih =>
      have hleak : args.binary = [] ∨ Addressed leak.backtrace :=
        h.imp_right fun h => h leak List.mem_cons_self
      have hleaks : args.binary = [] ∨ ∀ leak ∈ leaks, Addressed leak.backtrace :=
        h.imp_right fun h leak hmem => h leak (List.mem_cons_of_mem _ hmem)
      obtain ⟨out, hout⟩ := contextText_ok args symbols baseAddr numContexts context hleak
      obtain ⟨rest, hrest⟩ := ih (context + 1) hleaks
      rw [printContexts, hout]
      cases out with
      | none => exact ih context hleaks
      | some out =>
          change ∃ out', (if args.top ≤ context + 1 then _ else _) = _
          split
          · exact ⟨out, rfl⟩
          · rw [hrest]
            exact ⟨out ++ rest, rfl⟩

/-- Every context is reached as long as there are not more than are asked for. -/
theorem printContexts_error {leaks : List Leak} {leak : Leak} (context : ℕ)
    (hbinary : args.binary ≠ []) (hmem : leak ∈ leaks) (h : ¬ Addressed leak.backtrace)
    (htop : (context + leaks.length : ℕ) ≤ args.top) :
    ∃ e, printContexts args symbols baseAddr numContexts context leaks = .error e := by
  induction leaks generalizing context with
  | nil => exact absurd hmem List.not_mem_nil
  | cons leak' leaks ih =>
      rw [printContexts]
      cases hout : contextText args symbols baseAddr numContexts context leak' with
      | error e => exact ⟨e, rfl⟩
      | ok out =>
          have hmem' : leak ∈ leaks := by
            rcases List.mem_cons.1 hmem with rfl | hmem
            · obtain ⟨e, he⟩ := contextText_error args symbols baseAddr numContexts context
                hbinary h
              rw [hout] at he
              exact absurd he nofun
            · exact hmem
          have hpos := List.length_pos_of_mem hmem'
          rw [List.length_cons] at htop
          cases out with
          | none => exact ih context hmem' (by omega)
          | some out =>
              obtain ⟨e, he⟩ := ih (context + 1) hmem' (by omega)
              change ∃ e, (if args.top ≤ context + 1 then _ else _) = _
              rw [if_neg (by omega), he]
              exact ⟨e, rfl⟩

def sortedLeaks (leaks : List Leak) : List Leak :=
  leaks.mergeSort fun x y =>
    if args.sortct then decide (y.count ≤ x.count) else decide (y.totBytes ≤ x.totBytes)

theorem sortedLeaks_perm (leaks : List Leak) : (sortedLeaks args leaks).Perm leaks :=
  List.mergeSort_perm _ _

theorem dumper_eq {text : Text} {leaks : List Leak} {skipped : ℕ}
    (hload : loadData text = .ok (baseAddr, data))
    (hparse : parseLeaks ctr data = .ok (leaks, skipped)) :
    dumper args symbols ctr text =
      (printContexts args symbols baseAddr leaks.length 0 (sortedLeaks args leaks)).map
        fun outStr => ⟨totalBytesLeaked leaks, totalLeakCount leaks, leaks.length, outStr⟩ := by
  have hdumper : dumper args symbols ctr text = printLeaks args symbols ctr baseAddr data := by
    rw [dumper, hload]
    rfl
  rw [hdumper, printLeaks, hparse]
  change (printContexts args symbols baseAddr leaks.length 0 (sortedLeaks args leaks)).bind _ = _
  cases printContexts args symbols baseAddr leaks.length 0 (sortedLeaks args leaks) with
  | error e => rfl
  | ok out => rfl

/-- What the report says of lines that can be read. -/
theorem dumper_reads {text : Text} (hload : loadData text = .ok (baseAddr, data))
    (h : ∀ x ∈ data, Reads x (sizes x) (backtraces x)) (hlen : data.length < 2 ^ 63)
    (htop : args.top = maxsize) :
    ((args.binary = [] ∨ ∀ x ∈ data, Addressed (backtraces x)) →
      ∃ report, dumper args symbols ctr text = .ok report ∧
        report.totalBytesLeaked = (data.map fun x => (sizes x : ℤ)).sum ∧
        report.totalLeakCount = data.length) ∧
    (¬ (args.binary = [] ∨ ∀ x ∈ data, Addressed (backtraces x)) →
      ∃ e, dumper args symbols ctr text = .error e) := by
  obtain ⟨leaks, hparse, hperm⟩ := parseLeaks_reads ctr h (hlen.trans (by decide))
  have hbytes : totalBytesLeaked leaks = (data.map fun x => (sizes x : ℤ)).sum := by
    rw [← sum_dedup data, totalBytesLeaked, (hperm.map _).sum_eq, List.map_map]
    rfl
  have hcount : totalLeakCount leaks = data.length := by
    have hsum := sum_dedup data fun _ => 1
    rw [List.map_const', List.sum_replicate, nsmul_one] at hsum
    rw [totalLeakCount, (hperm.map _).sum_eq, List.map_map, ← hsum]
    simp only [mul_one]
    rfl
  have hmem : (∀ leak ∈ sortedLeaks args leaks, Addressed leak.backtrace) ↔
      ∀ x ∈ data, Addressed (backtraces x) := by
    simp only [((sortedLeaks_perm args leaks).trans hperm).mem_iff, List.forall_mem_map,
      List.mem_dedup]
    rfl
  rw [dumper_eq ctr args symbols baseAddr hload hparse, ← hmem]
  constructor
  · intro hok
    obtain ⟨out, hout⟩ := printContexts_ok args symbols baseAddr leaks.length 0 hok
    rw [hout]
    exact ⟨_, rfl, hbytes, hcount⟩
  · intro hno
    obtain ⟨hbinary, hnot⟩ := not_or.1 hno
    obtain ⟨leak, hleak, haddr⟩ : ∃ leak ∈ sortedLeaks args leaks, ¬ Addressed leak.backtrace := by
      by_contra hall
      exact hnot fun leak hleak => by_contra fun haddr => hall ⟨leak, hleak, haddr⟩
    have hlength : leaks.length ≤ data.length := by
      rw [hperm.length_eq, List.length_map]
      exact (List.dedup_sublist data).length_le
    have hsorted := (sortedLeaks_perm args leaks).length_eq
    obtain ⟨e, he⟩ := printContexts_error args symbols baseAddr leaks.length 0 hbinary hleak
      haddr (by rw [htop, maxsize]; omega)
    rw [he]
    exact ⟨e, rfl⟩

/-! ## The record that is cut -/

theorem Traced.reads (a : Traced n) : Reads a.record.line a.size (a.frames.map hexadecimal) := by
  refine ⟨a.record.fields, [], (List.append_nil _).symm, a.plain, .nil, ?_⟩
  rw [List.filter_append, a.filter_fields, List.filter_cons_of_neg (by simp), List.filter_nil,
    List.append_nil]

theorem getLast?_toDigits {b k m : ℕ} (hb : 1 < b) (hb' : b ≤ 16) :
    ((Nat.toDigits b k).take m).getLast? ≠ some 'x' := by
  have hx : ∀ d < 16, d.digitChar ≠ 'x' := by decide
  intro h
  obtain ⟨d, hlt, he⟩ := mem_toDigits hb (List.mem_of_mem_take (List.mem_of_getLast? h))
  exact hx d (hlt.trans_le hb') he.symm

/-- Part of an address can be read unless it is the prefix alone. -/
theorem int?_take_hexadecimal {f j : ℕ} (hj : 0 < j) :
    (int? 16 ((hexadecimal f).take j)).isSome ↔
      ((hexadecimal f).take j).getLast? ≠ some 'x' := by
  rcases j with _ | _ | _ | j
  · exact absurd hj (lt_irrefl 0)
  · have hzero : (hexadecimal f).take 1 = ['0'] := rfl
    rw [hzero]
    decide
  · have hzeroX : (hexadecimal f).take 2 = ['0', 'x'] := rfl
    rw [hzeroX]
    decide
  · refine iff_of_true (int?_prefixed (Nat.succ_pos j)) ?_
    have hcons : (hexadecimal f).take (j + 1 + 1 + 1) =
        ['0', 'x'] ++ (Nat.toDigits 16 f).take (j + 1) := rfl
    have hne : (Nat.toDigits 16 f).take (j + 1) ≠ [] := fun h =>
      (List.take_eq_nil_iff.1 h).elim nofun Nat.toDigits_ne_nil
    rw [hcons, List.getLast?_append_of_ne_nil _ hne]
    exact getLast?_toDigits (by decide) (by decide)

theorem addressed_hexadecimal (frames : List ℕ) : Addressed (frames.map hexadecimal) := by
  intro y hy
  obtain ⟨f, -, rfl⟩ := List.mem_map.1 hy
  have hpos : 0 < (Nat.toDigits 16 f).length := List.length_pos_of_ne_nil Nat.toDigits_ne_nil
  have hall := int?_prefixed (n := f) hpos
  rwa [List.take_length] at hall

theorem getLast?_fields (fs : List Text) : (fs.flatMap (· ++ [','])).getLast? ≠ some 'x' := by
  induction fs with
  | nil => exact nofun
  | cons f fs ih =>
      rw [List.flatMap_cons, List.getLast?_append, List.getLast?_concat]
      cases h : (fs.flatMap (· ++ [','])).getLast? with
      | none => decide
      | some c =>
          rw [h] at ih
          exact ih

def Record.frameFields (r : Record) : List Text :=
  r.frames.map fun f => if f = 0 then [] else hexadecimal f

theorem Record.line_eq (r : Record) :
    r.line = decimal r.size ++ ',' :: r.frameFields.flatMap (· ++ [',']) := by
  rw [Record.line, Record.fields, List.flatMap_cons, List.append_assoc]
  rfl

theorem Traced.take_size (c : Traced n) {k : ℕ} (hle : k ≤ (decimal c.size).length) :
    c.record.line.take k = (decimal c.size).take k := by
  rw [Record.line_eq]
  exact List.take_append_of_le_length hle

/-- The part of a record that ends in its size. -/
theorem Traced.reads_size (c : Traced n) {k : ℕ} (hk : 0 < k) (hle : k ≤ (decimal c.size).length) :
    ∃ m, Reads (c.record.line.take k) m [] ∧ decimal m = (decimal c.size).take k := by
  obtain ⟨m, hm, htake⟩ : ∃ m ≤ c.size, (decimal c.size).take k = decimal m :=
    exists_take_toDigits (by decide) hk
  have hplain := plain_decimal (hm.trans_lt c.size_lt)
  refine ⟨m, ⟨[], decimal m, (c.take_size hle).trans htake, nofun, hplain, ?_⟩, htake.symm⟩
  rw [List.nil_append, List.filter_cons_of_pos (by simpa using decimal_ne_nil m), List.filter_nil]

/-- The part of a record that ends behind its size. -/
theorem Traced.reads_frames (c : Traced n) {k : ℕ} (hk : (decimal c.size).length < k) :
    ∃ bt, Reads (c.record.line.take k) c.size bt ∧
      (Addressed bt ↔ (c.record.line.take k).getLast? ≠ some 'x') := by
  obtain ⟨j, rfl⟩ : ∃ j, k = (decimal c.size).length + (j + 1) :=
    ⟨k - (decimal c.size).length - 1, by omega⟩
  have hline : c.record.line.take ((decimal c.size).length + (j + 1)) =
      decimal c.size ++ ',' :: (c.record.frameFields.flatMap (· ++ [','])).take j := by
    rw [Record.line_eq]
    exact List.take_length_add_append (j + 1)
  have hfield : ∀ g ∈ c.record.frameFields,
      CsvReader.Plain g ∧ (g ≠ [] → ∃ f, g = hexadecimal f) := by
    intro g hg
    refine ⟨c.plain g (List.mem_cons_of_mem _ hg), fun hne => ?_⟩
    obtain ⟨f, -, rfl⟩ := List.mem_map.1 hg
    exact ⟨f, if_neg fun hf => hne (if_pos hf)⟩
  have haddressed : ∀ gs : List Text, (∀ g ∈ gs, g ∈ c.record.frameFields) →
      Addressed (gs.filter (· ≠ [])) := by
    intro gs hgs y hy
    obtain ⟨hmem, hne⟩ := List.mem_filter.1 hy
    obtain ⟨f, rfl⟩ := (hfield y (hgs y hmem)).2 (by simpa using hne)
    exact addressed_hexadecimal [f] _ List.mem_cons_self
  have hsize : decimal c.size ≠ [] := decimal_ne_nil _
  obtain ⟨done, last, htake, hcases⟩ := take_fields c.record.frameFields j
  have htext : c.record.line.take ((decimal c.size).length + (j + 1)) =
      (decimal c.size :: done).flatMap (· ++ [',']) ++ last := by
    rw [hline, htake, List.flatMap_cons, List.append_assoc, List.append_assoc]
    rfl
  have hdone : ∀ g ∈ done, g ∈ c.record.frameFields := by
    rcases hcases with ⟨rfl, -⟩ | ⟨f, rest, i, hfs, -, -⟩
    · exact fun g hg => hg
    · exact fun g hg => hfs ▸ List.mem_append_left _ hg
  have hlast : CsvReader.Plain last := by
    rcases hcases with ⟨-, rfl⟩ | ⟨f, rest, i, hfs, -, rfl⟩
    · exact .nil
    · exact ((hfield f (hfs ▸ List.mem_append_right _ List.mem_cons_self)).1).take i
  refine ⟨(done ++ [last]).filter (· ≠ []),
    ⟨decimal c.size :: done, last, htext, ?_, hlast, ?_⟩, ?_⟩
  · exact List.forall_mem_cons.2 ⟨plain_decimal c.size_lt, fun g hg => (hfield g (hdone g hg)).1⟩
  · rw [List.cons_append, List.filter_cons_of_pos (by simpa using hsize)]
  · rw [htext]
    by_cases hnil : last = []
    · -- The text ends in a comma, and every address is whole.
      subst hnil
      have hall := haddressed done hdone
      refine iff_of_true (by simpa using hall) ?_
      rw [List.append_nil]
      exact getLast?_fields _
    · rcases hcases with ⟨-, rfl⟩ | ⟨f, rest, i, hfs, -, rfl⟩
      · exact absurd rfl hnil
      · obtain ⟨a, rfl⟩ := (hfield f (hfs ▸ List.mem_append_right _ List.mem_cons_self)).2
          fun hf => hnil (by rw [hf, List.take_nil])
        have hi : 0 < i := Nat.pos_of_ne_zero fun h0 => hnil (h0 ▸ rfl)
        rw [List.getLast?_append_of_ne_nil _ hnil, ← int?_take_hexadecimal hi, List.filter_append,
          List.filter_cons_of_pos (by simpa using hnil), List.filter_nil]
        refine ⟨fun h => h _ (List.mem_append_right _ (List.mem_singleton.2 rfl)), fun h y hy => ?_⟩
        rcases List.mem_append.1 hy with hy | hy
        · exact haddressed done hdone y hy
        · rwa [List.mem_singleton.1 hy]

/-- The line that is left of a record, if any. -/
def Traced.cutLines (c : Traced n) (k : ℕ) : List Text :=
  if k = 0 then [] else [c.record.line.take k]

/-- The size of the cut record as it is read, and whether its addresses can be. -/
theorem Traced.reads_cut (c : Traced n) {k : ℕ} (hk : 0 < k) :
    ∃ m bt, Reads (c.record.line.take k) m bt ∧ decimal m = (decimal c.size).take k ∧
      (Addressed bt ↔ (c.record.line.take k).getLast? ≠ some 'x') := by
  by_cases hle : k ≤ (decimal c.size).length
  · obtain ⟨m, hreads, hm⟩ := c.reads_size hk hle
    refine ⟨m, [], hreads, hm, iff_of_true nofun ?_⟩
    rw [c.take_size hle]
    exact getLast?_toDigits (by decide) (by decide)
  · obtain ⟨bt, hreads, haddr⟩ := c.reads_frames (not_le.1 hle)
    exact ⟨c.size, bt, hreads, (List.take_of_length_le (not_le.1 hle).le).symm, haddr⟩

/-! ## The file -/

theorem Traced.splitlines_cut (c : Traced n) (k : ℕ) :
    splitlines (c.record.line.take k) = c.cutLines k := by
  unfold cutLines
  split
  · rename_i h0
    rw [h0]
    rfl
  · rename_i h0
    refine splitlines_last (c.oneLine.take k) fun h => ?_
    rcases List.take_eq_nil_iff.1 h with h | h
    · exact h0 h
    · rw [Record.line_eq] at h
      exact absurd h (List.append_ne_nil_of_right_ne_nil _ (List.cons_ne_nil _ _))

/-- The tracker file cut behind the records `as` and the first `k` bytes of the record of `c`. -/
def truncated (maps : Text) (as : List (Traced n)) (c : Traced n) (rest : List (Traced n))
    (k : ℕ) : Text :=
  (trackerText maps ((as ++ c :: rest).map Traced.record)).take
    ((offsetsText maps).length + ((as.map Traced.record).flatMap Record.text).length + k)

variable (as : List (Traced n)) (c : Traced n) (rest : List (Traced n)) {k : ℕ}

theorem Traced.take_text (hk : k < c.record.text.length) :
    c.record.text.take k = c.record.line.take k := by
  rw [Record.text_eq, List.length_append, List.length_singleton] at hk
  rw [Record.text_eq, List.take_append_of_le_length (Nat.le_of_lt_succ hk)]

theorem truncated_eq (maps : Text) (hk : k < c.record.text.length) :
    truncated maps as c rest k =
      offsetsText maps ++ ((as.map Traced.record).flatMap Record.text ++ c.record.line.take k) := by
  rw [truncated, trackerText, Nat.add_assoc, List.take_length_add_append, List.map_append,
    List.flatMap_append, List.take_length_add_append, List.map_cons, List.flatMap_cons,
    List.take_append_of_le_length hk.le, c.take_text hk]

/-- The report is about the records that are whole, or about these and the one that is cut. -/
def Handled (text : Text) : Prop :=
  ∃ report, dumper args symbols ctr text = .ok report ∧
    ((report.totalBytesLeaked = (as.map fun a => (a.size : ℤ)).sum ∧
        report.totalLeakCount = as.length) ∨
      (report.totalBytesLeaked = (as.map fun a => (a.size : ℤ)).sum + c.size ∧
        report.totalLeakCount = as.length + 1))

/-- What the report says when the lines of `bs` are the data. -/
theorem dumper_whole {text : Text} {bs : List (Traced n)} (hlen : bs.length < 2 ^ 63)
    (htop : args.top = maxsize)
    (hload : loadData text = .ok (baseAddr, bs.map fun b => b.record.line)) :
    ∃ report, dumper args symbols ctr text = .ok report ∧
      report.totalBytesLeaked = (bs.map fun b => (b.size : ℤ)).sum ∧
      report.totalLeakCount = bs.length := by
  have hreads : ∀ x ∈ bs.map (fun b => b.record.line), ∃ (s : ℕ) (frames : List ℕ),
      Reads x s (frames.map hexadecimal) := by
    intro x hx
    obtain ⟨b, -, rfl⟩ := List.mem_map.1 hx
    exact ⟨b.size, b.frames, b.reads⟩
  choose! sizes frames hreads using hreads
  have hsizes : (bs.map fun b => b.record.line).map (fun x => (sizes x : ℤ)) =
      bs.map fun b => (b.size : ℤ) := by
    rw [List.map_map]
    refine List.map_congr_left fun b hb => ?_
    exact congrArg Nat.cast ((hreads _ (List.mem_map_of_mem hb)).unique b.reads).1
  obtain ⟨report, hdumper, hbytes, hcount⟩ := (dumper_reads ctr args symbols baseAddr hload hreads
    (by rwa [List.length_map]) htop).1 (.inr fun x _ => addressed_hexadecimal (frames x))
  refine ⟨report, hdumper, hbytes.trans (congrArg List.sum hsizes), ?_⟩
  rw [hcount, List.length_map]

/-- What the report says when the lines of `bs` and a part of that of `c` are the data. -/
theorem dumper_cut {text : Text} {bs : List (Traced n)} (hk : 0 < k)
    (hlen : bs.length + 1 < 2 ^ 63) (htop : args.top = maxsize)
    (hload : loadData text =
      .ok (baseAddr, bs.map (fun b => b.record.line) ++ [c.record.line.take k])) :
    ∃ m, decimal m = (decimal c.size).take k ∧
      (args.binary = [] ∨ (c.record.line.take k).getLast? ≠ some 'x' →
        ∃ report, dumper args symbols ctr text = .ok report ∧
          report.totalBytesLeaked = (bs.map fun b => (b.size : ℤ)).sum + m ∧
          report.totalLeakCount = bs.length + 1) ∧
      (¬ (args.binary = [] ∨ (c.record.line.take k).getLast? ≠ some 'x') →
        ∃ e, dumper args symbols ctr text = .error e) := by
  obtain ⟨m, bt, hcut, hm, haddr⟩ := c.reads_cut hk
  have hreads : ∀ x ∈ bs.map (fun b => b.record.line) ++ [c.record.line.take k], ∃ s backtrace,
      Reads x s backtrace := by
    intro x hx
    rcases List.mem_append.1 hx with hx | hx
    · obtain ⟨b, -, rfl⟩ := List.mem_map.1 hx
      exact ⟨_, _, b.reads⟩
    · rw [List.mem_singleton.1 hx]
      exact ⟨m, bt, hcut⟩
  choose! sizes backtraces hreads using hreads
  have hline : ∀ b ∈ bs, sizes b.record.line = b.size ∧
      backtraces b.record.line = b.frames.map hexadecimal := fun b hb =>
    (hreads _ (List.mem_append_left _ (List.mem_map_of_mem hb))).unique b.reads
  have hlast := (hreads _ (List.mem_append_right _ (List.mem_singleton.2 rfl))).unique hcut
  have hsizes : ((bs.map (fun b => b.record.line) ++ [c.record.line.take k]).map
      fun x => (sizes x : ℤ)).sum = (bs.map fun b => (b.size : ℤ)).sum + m := by
    rw [List.map_append, List.sum_append, List.map_map, List.map_singleton, List.sum_singleton,
      hlast.1]
    congr 2
    exact List.map_congr_left fun b hb => congrArg Nat.cast (hline b hb).1
  have haddressed : (∀ x ∈ bs.map (fun b => b.record.line) ++ [c.record.line.take k],
      Addressed (backtraces x)) ↔ (c.record.line.take k).getLast? ≠ some 'x' := by
    rw [← haddr, ← hlast.2]
    refine ⟨fun h => h _ (List.mem_append_right _ (List.mem_singleton.2 rfl)), fun h x hx => ?_⟩
    rcases List.mem_append.1 hx with hx | hx
    · obtain ⟨b, hb, rfl⟩ := List.mem_map.1 hx
      rw [(hline b hb).2]
      exact addressed_hexadecimal b.frames
    · rwa [List.mem_singleton.1 hx]
  have hlength : (bs.map (fun b => b.record.line) ++ [c.record.line.take k]).length =
      bs.length + 1 := by
    rw [List.length_append, List.length_map, List.length_singleton]
  obtain ⟨hok, herror⟩ := dumper_reads ctr args symbols baseAddr hload hreads
    (by rwa [hlength]) htop
  rw [haddressed, hsizes, hlength] at hok
  rw [haddressed] at herror
  exact ⟨m, hm, fun h => by simpa using hok h, herror⟩

/-! ## Which cuts are handled -/

/-- The size is there as a whole or not at all, and with `-b` no prefix of an address is the
last that is there. -/
def CleanCut (k : ℕ) : Prop :=
  (k = 0 ∨ (decimal c.size).length ≤ k) ∧
    (args.binary = [] ∨ (c.record.text.take k).getLast? ≠ some 'x')

/-- The records that are whole have the size of the first of them lost, and what is left of
that of `c` stands in for it. -/
def Coincidence (k : ℕ) : Prop :=
  (∃ a ∈ as.head?, (decimal c.size).take k = decimal a.size) ∧
    (args.binary = [] ∨ (c.record.text.take k).getLast? ≠ some 'x')

variable {text : Text}

theorem handled_of_ok {report : Report} (h : dumper args symbols ctr text = .ok report) :
    Handled ctr args symbols as c text ↔
      (report.totalBytesLeaked = (as.map fun a => (a.size : ℤ)).sum ∧
        report.totalLeakCount = as.length) ∨
      (report.totalBytesLeaked = (as.map fun a => (a.size : ℤ)).sum + c.size ∧
        report.totalLeakCount = as.length + 1) := by
  refine ⟨fun ⟨report', h', hcases⟩ => ?_, fun hcases => ⟨report, h, hcases⟩⟩
  obtain rfl := Except.ok.inj (h.symm.trans h')
  exact hcases

theorem not_handled_of_error {e : PyError} (h : dumper args symbols ctr text = .error e) :
    ¬ Handled ctr args symbols as c text := by
  rintro ⟨report, h', -⟩
  rw [h] at h'
  exact absurd h' nofun

theorem decimal_take_eq {m : ℕ} (hm : decimal m = (decimal c.size).take k) :
    m = c.size ↔ (decimal c.size).length ≤ k := by
  rw [← decimal_injective.eq_iff, hm, List.take_eq_self_iff]

theorem handled_short (hk : k < c.record.text.length) (hlen : as.length + 1 < 2 ^ 63)
    (htop : args.top = maxsize)
    (hload : loadData text = .ok (baseAddr, as.map (fun a => a.record.line) ++ c.cutLines k)) :
    Handled ctr args symbols as c text ↔ CleanCut args c k := by
  rw [CleanCut, c.take_text hk]
  rcases Nat.eq_zero_or_pos k with rfl | hpos
  · rw [Traced.cutLines, if_pos rfl, List.append_nil] at hload
    obtain ⟨report, hdumper, hbytes, hcount⟩ := dumper_whole ctr args symbols baseAddr
      (Nat.lt_of_succ_lt hlen) htop hload
    exact iff_of_true ((handled_of_ok ctr args symbols as c hdumper).2 (.inl ⟨hbytes, hcount⟩))
      ⟨.inl rfl, .inr nofun⟩
  · rw [Traced.cutLines, if_neg hpos.ne'] at hload
    obtain ⟨m, hm, hok, herror⟩ := dumper_cut ctr args symbols baseAddr c hpos hlen htop hload
    by_cases hread : args.binary = [] ∨ (c.record.line.take k).getLast? ≠ some 'x'
    · obtain ⟨report, hdumper, hbytes, hcount⟩ := hok hread
      rw [handled_of_ok ctr args symbols as c hdumper, hbytes, hcount]
      have hsize := decimal_take_eq c hm
      have hk0 := hpos.ne'
      constructor
      · rintro (⟨-, h⟩ | ⟨h, -⟩)
        · omega
        · exact ⟨.inr (hsize.1 (by omega)), hread⟩
      · rintro ⟨h | h, -⟩
        · exact absurd h hk0
        · exact .inr ⟨by rw [hsize.2 h], rfl⟩
    · obtain ⟨e, he⟩ := herror hread
      exact iff_of_false (not_handled_of_error ctr args symbols as c he) fun h => hread h.2

theorem handled_long (a : Traced n) (hk : k < c.record.text.length)
    (hlen : as.length + 1 < 2 ^ 63) (htop : args.top = maxsize)
    (hload : loadData text = .ok (baseAddr, as.map (fun a => a.record.line) ++ c.cutLines k)) :
    Handled ctr args symbols (a :: as) c text ↔ Coincidence args (a :: as) c k := by
  rw [Coincidence, c.take_text hk]
  rcases Nat.eq_zero_or_pos k with rfl | hpos
  · rw [Traced.cutLines, if_pos rfl, List.append_nil] at hload
    obtain ⟨report, hdumper, hbytes, hcount⟩ := dumper_whole ctr args symbols baseAddr
      (Nat.lt_of_succ_lt hlen) htop hload
    rw [handled_of_ok ctr args symbols (a :: as) c hdumper, hcount, List.length_cons]
    refine iff_of_false (by omega) ?_
    rintro ⟨⟨b, -, hb⟩, -⟩
    exact decimal_ne_nil b.size hb.symm
  · rw [Traced.cutLines, if_neg hpos.ne'] at hload
    obtain ⟨m, hm, hok, herror⟩ := dumper_cut ctr args symbols baseAddr c hpos hlen htop hload
    by_cases hread : args.binary = [] ∨ (c.record.line.take k).getLast? ≠ some 'x'
    · obtain ⟨report, hdumper, hbytes, hcount⟩ := hok hread
      have hfirst : (∃ b ∈ (a :: as).head?, (decimal c.size).take k = decimal b.size) ↔
          m = a.size := by
        rw [← hm]
        simp [decimal_injective.eq_iff]
      rw [handled_of_ok ctr args symbols (a :: as) c hdumper, hbytes, hcount, hfirst,
        List.map_cons, List.sum_cons, List.length_cons]
      constructor
      · rintro (⟨h, -⟩ | ⟨-, h⟩)
        · exact ⟨by omega, hread⟩
        · omega
      · rintro ⟨rfl, -⟩
        exact .inl ⟨add_comm _ _, by omega⟩
    · obtain ⟨e, he⟩ := herror hread
      exact iff_of_false (not_handled_of_error ctr args symbols _ c he) fun h => hread h.2

/-! ## The cut file -/

theorem loadData_short (l : MapsLine) (hcr : '\r' ∉ l.rest) (hfits : l.text.length < 255) :
    ∃ baseAddr, loadData ((l.text ++ ['\n']).take 255 ++
        ((as.map fun a => a.record.line).flatMap (· ++ ['\n']) ++ c.record.line.take k)) =
      .ok (baseAddr, as.map (fun a => a.record.line) ++ c.cutLines k) := by
  have hline : l.text = l.start ++ '-' :: l.rest := rfl
  refine l.loadData_line ?_ hline
  rw [List.take_of_length_le (by rw [List.length_append]; exact hfits), List.append_assoc,
    List.singleton_append, splitlines_line (l.oneLine hcr), splitlines_append, c.splitlines_cut]
  exact List.forall_mem_map.2 fun a _ => a.oneLine

theorem loadData_long (l : MapsLine) (a : Traced n) (hcr : '\r' ∉ l.rest)
    (hlong : 255 ≤ l.text.length) :
    ∃ baseAddr, loadData ((l.text ++ ['\n']).take 255 ++
        (((a :: as).map fun a => a.record.line).flatMap (· ++ ['\n']) ++ c.record.line.take k)) =
      .ok (baseAddr, as.map (fun a => a.record.line) ++ c.cutLines k) := by
  obtain ⟨htake, hstart⟩ := l.take_text hlong
  have hline : (l.text.take 255 ++ a.record.line) =
      l.start ++ '-' :: (l.rest.take (254 - l.start.length) ++ a.record.line) := by
    rw [hstart, List.append_assoc, List.cons_append]
  have hassoc : l.text.take 255 ++
      (((a :: as).map fun a => a.record.line).flatMap (· ++ ['\n']) ++ c.record.line.take k) =
      (l.text.take 255 ++ a.record.line) ++
        '\n' :: ((as.map fun a => a.record.line).flatMap (· ++ ['\n']) ++ c.record.line.take k) := by
    simp only [List.map_cons, List.flatMap_cons, List.append_assoc, List.cons_append,
      List.nil_append]
  refine l.loadData_line ?_ hline
  rw [htake, hassoc, splitlines_line (((l.oneLine hcr).take 255).append a.oneLine),
    splitlines_append, c.splitlines_cut]
  exact List.forall_mem_map.2 fun a _ => a.oneLine

/-- A cut in a first record that is in the first line. -/
theorem loadData_first (l : MapsLine) (hcr : '\r' ∉ l.rest) (hlong : 255 ≤ l.text.length) :
    ∃ baseAddr, loadData ((l.text ++ ['\n']).take 255 ++ c.record.line.take k) =
      .ok (baseAddr, []) := by
  obtain ⟨htake, hstart⟩ := l.take_text hlong
  have hline : (l.text.take 255 ++ c.record.line.take k) =
      l.start ++ '-' :: (l.rest.take (254 - l.start.length) ++ c.record.line.take k) := by
    rw [hstart, List.append_assoc, List.cons_append]
  refine l.loadData_line ?_ hline
  rw [htake]
  refine splitlines_last (((l.oneLine hcr).take 255).append (c.oneLine.take k)) ?_
  rw [hline]
  exact List.append_ne_nil_of_right_ne_nil _ (List.cons_ne_nil _ _)

/-- A cut tracker file is handled exactly if its first line fits the buffer and the cut is
clean, or if the line is too long and nothing was lost with it, or nothing that shows. -/
theorem partial_dump_handled (htop : args.top = maxsize) (l : MapsLine) (more : Text)
    (hcr : '\r' ∉ l.rest) (hk : k < c.record.text.length) (hlen : as.length + 1 < 2 ^ 63) :
    Handled ctr args symbols as c (truncated (l.text ++ '\n' :: more) as c rest k) ↔
      (l.text.length < 255 ∧ CleanCut args c k) ∨
        (255 ≤ l.text.length ∧ (as = [] ∨ Coincidence args as c k)) := by
  rw [truncated_eq as c rest _ hk, offsetsText_line, records_text]
  by_cases hshort : l.text.length < 255
  · obtain ⟨baseAddr, hload⟩ := loadData_short as c l hcr hshort
    rw [handled_short ctr args symbols baseAddr as c hk hlen htop hload]
    simp [hshort, not_le.2 hshort]
  · have hlong := not_lt.1 hshort
    cases as with
    | nil =>
        obtain ⟨baseAddr, hload⟩ := loadData_first c l hcr hlong
        have hnone : loadData ((l.text ++ ['\n']).take 255 ++ c.record.line.take k) =
          .ok (baseAddr, ([] : List (Traced n)).map fun b => b.record.line) := hload
        obtain ⟨report, hdumper, hbytes, hcount⟩ :=
          dumper_whole ctr args symbols baseAddr (Nat.lt_of_succ_lt hlen) htop hnone
        refine iff_of_true ?_ (.inr ⟨hlong, .inl rfl⟩)
        exact (handled_of_ok ctr args symbols [] c hdumper).2 (.inl ⟨hbytes, hcount⟩)
    | cons a as =>
        obtain ⟨baseAddr, hload⟩ := loadData_long as c l a hcr hlong
        rw [handled_long ctr args symbols baseAddr as c a hk (Nat.lt_of_succ_lt hlen) htop hload]
        simp [hshort, hlong]

def Symbols.none : Symbols where
  addr2line _ _ := []
  blist := []

def shortLine : MapsLine := pathLine ['/', 't'] (by decide) (by decide)

theorem partial_dump_handled_clean :
    Handled PyCounter.ordered { binary := ['t'] } Symbols.none [oneFrame] oneFrame
      (truncated (shortLine.text ++ '\n' :: []) [oneFrame] oneFrame [] 2) :=
  (partial_dump_handled PyCounter.ordered { binary := ['t'] } Symbols.none [oneFrame] oneFrame []
    rfl shortLine [] (by decide) (by decide) (by decide)).2
    (.inl ⟨by decide, .inr (by decide), .inr (by decide)⟩)

/-- Of the size 24 the digit 2 is left. -/
theorem partial_dump_misread :
    ¬ Handled PyCounter.ordered {} Symbols.none [] oneFrame
      (truncated (shortLine.text ++ '\n' :: []) [] oneFrame [] 1) := by
  rw [truncated_eq [] oneFrame [] _ (by decide), offsetsText_line]
  obtain ⟨baseAddr, hload⟩ := loadData_short (k := 1) [] oneFrame shortLine (by decide) (by decide)
  refine fun h => ?_
  have hclean := (handled_short PyCounter.ordered {} Symbols.none baseAddr [] oneFrame (by decide)
    (by decide) rfl hload).1 h
  exact absurd hclean.1 (by decide)

end GuardRails
