import GuardRails.Result.TrackerFile
import GuardRails.Spec.Complete
import GuardRails.Spec.Debugger

/-!
# Core files are not read

`grcoreheap.sh` writes records and nothing else, while `grdump.py` takes the first line for
the base address: it raises an exception on every file that the script writes.
-/

namespace GuardRails

open ByteMemory PyText

variable {env : Env} {s : Heap} {st : Proc} {B : Block} {h x p : ℕ} {lines : List Text}

/-! ## The lines of a core file -/

def CsvLine (l : Text) : Prop := ∃ k csv, k < 2 ^ 64 ∧ OneLine csv ∧ l = decimal k ++ ',' :: csv

theorem CsvLine.oneLine {l : Text} (h : CsvLine l) : OneLine l := by
  obtain ⟨k, csv, hk, hcsv, rfl⟩ := h
  have hcomma : OneLine [','] := ⟨by decide, by decide⟩
  exact (plain_decimal hk).oneLine.append (hcomma.append hcsv)

/-- There is no base address in such a line. -/
theorem CsvLine.int_eq_none {l : Text} (h : CsvLine l) :
    int? 16 (l.takeWhile (· ≠ '-')) = none := by
  obtain ⟨k, csv, -, -, rfl⟩ := h
  have hd : ∀ d < 10, d.digitChar ≠ '-' := by decide
  have hdigits : ∀ c ∈ decimal k, decide (c ≠ '-') = true := by
    intro c hc
    obtain ⟨d, hlt, rfl⟩ := mem_toDigits (by decide) hc
    exact decide_eq_true (hd d hlt)
  refine int?_comma (by decide) ?_
  rw [List.takeWhile_append_of_pos hdigits, List.takeWhile_cons_of_pos (by decide)]
  exact List.mem_append_right _ List.mem_cons_self

theorem peek_lt {a w : ℕ} (h : s.peek a = some w) : w < 2 ^ 64 := by
  unfold Heap.peek at h
  split at h
  · exact Option.some.inj h ▸ word_lt
  · exact absurd h nofun

theorem frameFields_oneLine {trace maxFrames : ℕ} {csv : Text}
    (h : frameFields s trace maxFrames = some csv) : OneLine csv := by
  induction maxFrames generalizing trace csv with
  | zero =>
      obtain rfl := Option.some.inj h
      exact ⟨nofun, nofun⟩
  | succ maxFrames ih =>
      obtain ⟨w, hw, h⟩ := Option.bind_eq_some_iff.1 h
      obtain ⟨ret, hret, h⟩ := Option.bind_eq_some_iff.1 h
      obtain rfl := Option.some.inj h
      have hcomma : OneLine [','] := ⟨by decide, by decide⟩
      refine OneLine.append ?_ (ih hret)
      split
      · exact (plain_hexadecimal (peek_lt hw)).oneLine.append hcomma
      · exact hcomma

theorem inFlightLines_csv {frames fuel hdr : ℕ}
    (h : inFlightLines s frames fuel hdr = some lines) : ∀ l ∈ lines, CsvLine l := by
  induction fuel generalizing hdr lines with
  | zero =>
      unfold inFlightLines at h
      split at h
      · obtain rfl := Option.some.inj h
        exact fun l hl => absurd hl List.not_mem_nil
      · exact absurd h nofun
  | succ fuel ih =>
      unfold inFlightLines at h
      split at h
      · obtain rfl := Option.some.inj h
        exact fun l hl => absurd hl List.not_mem_nil
      · obtain ⟨csv, hcsv, h⟩ := Option.bind_eq_some_iff.1 h
        obtain ⟨k, hk, h⟩ := Option.bind_eq_some_iff.1 h
        obtain ⟨next, -, h⟩ := Option.bind_eq_some_iff.1 h
        obtain ⟨rest, hrest, h⟩ := Option.bind_eq_some_iff.1 h
        obtain rfl := Option.some.inj h
        have honeLine : OneLine csv := by
          unfold getTraceCsv at hcsv
          split at hcsv
          · exact absurd hcsv nofun
          · exact frameFields_oneLine hcsv
        exact List.forall_mem_cons.2 ⟨⟨k, csv, peek_lt hk, honeLine, by simp⟩, ih hrest⟩

theorem forall_mem_flatten {α : Type} {f : α → Option (List Text)} {p : Text → Prop}
    (hf : ∀ x ls, f x = some ls → ∀ l ∈ ls, p l) {xs : List α} {lss : List (List Text)}
    (h : xs.mapM f = some lss) : ∀ l ∈ lss.flatten, p l := by
  induction xs generalizing lss with
  | nil =>
      obtain rfl := Option.some.inj h
      exact fun l hl => absurd hl List.not_mem_nil
  | cons x xs ih =>
      rw [List.mapM_cons] at h
      obtain ⟨ls, hls, h⟩ := Option.bind_eq_some_iff.1 h
      obtain ⟨lss', hlss, h⟩ := Option.bind_eq_some_iff.1 h
      obtain rfl := Option.some.inj h
      rw [List.flatten_cons]
      exact fun l hl => (List.mem_append.1 hl).elim (hf x ls hls l) (ih hlss l)

theorem dumpInFlight_csv (h : dumpInFlight s = some lines) : ∀ l ∈ lines, CsvLine l := by
  obtain ⟨lss, hlss, h⟩ := Option.bind_eq_some_iff.1 h
  obtain rfl := Option.some.inj h
  exact forall_mem_flatten (fun x ls hls => inFlightLines_csv hls) hlss

/-! ## The file -/

/-- What the debugger prints before the command: some lines, none of them like the marker. -/
structure Banner where
  lines : List Text
  ne_nil : lines ≠ []
  noMarker : ∀ l ∈ lines, startTraces.isPrefixOf l = false

theorem sedAfter_banner (b : Banner) (traces : List Text) :
    sedAfter startTraces (b.lines ++ startTraces :: traces) = traces := by
  have hmarker : (!startTraces.isPrefixOf startTraces) = false := by decide
  have hbanner : ∀ l ∈ b.lines.drop 1, (!startTraces.isPrefixOf l) = true := by
    intro l hl
    rw [b.noMarker l (List.mem_of_mem_drop hl)]
    rfl
  have hlen : 1 ≤ b.lines.length := List.length_pos_of_ne_nil b.ne_nil
  rw [sedAfter, List.drop_append_of_le_length hlen, List.dropWhile_append_of_pos hbanner,
    List.dropWhile_cons, if_neg (by simp [hmarker])]
  rfl

/-- `grdump.py` raises an exception. -/
theorem grdump_core (ctr : PyCounter) (hlines : ∀ l ∈ lines, CsvLine l) :
    ∃ e, grdump ctr (lines.flatMap (· ++ ['\n'])) = .error e := by
  have hsplit := splitlines_lines fun l hl => (hlines l hl).oneLine
  cases lines with
  | nil => exact ⟨.indexError, rfl⟩
  | cons l ls =>
      refine ⟨.valueError, ?_⟩
      rw [grdump, loadData, hsplit]
      simp only [(hlines l List.mem_cons_self).int_eq_none]
      rfl

/-! ## The records of a core file -/

theorem frameFields_eq {n : ℕ} (hpeek : ∀ j < n, s.peek (x + 8 * j) = some (word s.mem (x + 8 * j))) :
    frameFields s x n =
      some (((List.range n).map fun j => word s.mem (x + 8 * j)).flatMap frameText) := by
  induction n generalizing x with
  | zero => rfl
  | succ n ih =>
      have h0 := hpeek 0 (Nat.succ_pos n)
      have hrest := ih (x := x + 8) fun j hj => by
        have h := hpeek (j + 1) (Nat.succ_lt_succ hj)
        rwa [show x + 8 * (j + 1) = x + 8 + 8 * j by omega] at h
      rw [Nat.mul_zero, Nat.add_zero] at h0
      rw [frameFields, h0, hrest, List.range_succ_eq_map, List.map_cons, List.map_map,
        List.flatMap_cons]
      have hfield : frameText (word s.mem x) = if word s.mem x ≠ 0 then
          hexadecimal (word s.mem x) ++ [','] else [','] := by
        rw [frameText, ite_not]
      have htail : ((fun j => word s.mem (x + 8 * j)) ∘ Nat.succ) =
          fun j => word s.mem (x + 8 + 8 * j) := by
        funext j
        exact congrArg (word s.mem) (by rw [Nat.succ_eq_add_one]; omega)
      rw [htail]
      simp only [Nat.mul_zero, Nat.add_zero, hfield]
      rfl

/-- The line of a block in use is that of its record. -/
theorem Proc.Inv.inFlightLines (hst : st.Inv env) (ht : 0 < env.args.maxTrackFrames) {fuel : ℕ}
    {xs : List ℕ}
    (hxs : ∀ x ∈ xs, ∃ B, (ledger st.heap.log).block x = some B ∧ B.place = .on .inUse)
    (hc : IntrusiveList.Chain (fld st.heap.mem · .next) (fld st.heap.mem · .prev) p h xs)
    (hfuel : xs.length ≤ fuel) :
    GuardRails.inFlightLines st.heap env.args.maxTrackFrames fuel h =
      some (xs.map fun x => ((ledger st.heap.log).record env.args x).line) := by
  have hS := hst.rep.shape
  induction xs generalizing fuel h p with
  | nil =>
      obtain rfl : h = 0 := hc
      unfold GuardRails.inFlightLines
      exact if_pos rfl
  | cons x xs ih =>
      obtain ⟨rfl, h0, -, hrest⟩ := hc
      obtain ⟨B, hB, hp⟩ := hxs h List.mem_cons_self
      obtain ⟨fuel, rfl⟩ : ∃ k, fuel = k + 1 := ⟨fuel - 1, by rw [List.length_cons] at hfuel; omega⟩
      have hsettled := hst.settled h B hB
      have hlive : B.live = true := by simpa [Block.Settled, hp] using hsettled
      obtain ⟨a, q, ho, -⟩ := (hst.rep.log_ok.lawful.sound.block_ok h B hB).live_owner hlive
      have hO := (hS.blocks h B hB (by simp [hp])).owner a ho
      have habove := hO.above
      have hfits := hO.fits
      have hsize : elmHdrSz env.args = 64 + env.args.maxTrackFrames * 8 +
          env.args.maxTrackFreeFrames * 8 := elmHdrSz_eq hS.env_ok.args
      have hge := (hS.layout.block h B hB).size_ge
      have hpeek : ∀ y, h ≤ y → y < h + B.size → st.heap.peek y = some (word st.heap.mem y) :=
        fun y hle hlt => hS.layout.peek hB hle (Nat.lt_add_right _ hlt)
      have htrace : getTraceCsv st.heap (h + allocBtOff) env.args.maxTrackFrames =
          some ((traceOf a.bt env.args.maxTrackFrames).flatMap frameText) := by
        have hoff : allocBtOff = 64 := rfl
        have hframes : ((List.range env.args.maxTrackFrames).map fun j =>
            word st.heap.mem (h + allocBtOff + 8 * j)) = traceOf a.bt env.args.maxTrackFrames :=
          List.map_congr_left fun j hj => hO.frames j (List.mem_range.1 hj)
        rw [getTraceCsv, if_neg ht.ne', frameFields_eq fun j hj => hpeek _ (by omega) (by omega),
          hframes]
      have hrecord : (ledger st.heap.log).record env.args h =
          ⟨a.size, traceOf a.bt env.args.maxTrackFrames⟩ := by
        rw [Ledger.record, hB, Option.bind_some, ho]
      have hline : decimal a.size ++ [','] ++ (traceOf a.bt env.args.maxTrackFrames).flatMap frameText =
          ((ledger st.heap.log).record env.args h).line := by
        rw [hrecord]
        have htext := Record.text_eq ⟨a.size, traceOf a.bt env.args.maxTrackFrames⟩
        exact List.append_cancel_right htext
      have hnext := ih (fun y hy => hxs y (List.mem_cons_of_mem h hy)) hrest
        (Nat.le_of_succ_le_succ hfuel)
      have hsz : st.heap.peek (h + Field.usrDataSize.off) = some a.size :=
        (hpeek _ (by simp [Field.off]) (by simp [Field.off]; omega)).trans
          (congrArg some hO.usrDataSize)
      have hnx : st.heap.peek (h + Field.next.off) = some (fld st.heap.mem h .next) :=
        hpeek _ (by simp [Field.off]) (by simp [Field.off]; omega)
      unfold GuardRails.inFlightLines
      rw [if_neg h0]
      simp only [htrace, hsz, hnx, hnext, Option.bind_eq_bind, Option.bind_some, Option.pure_def,
        List.map_cons, hline]

/-- The file holds the records that a dump would write, and nothing in front of them. -/
theorem Proc.Inv.dumpInFlight (hst : st.Inv env) (ht : 0 < env.args.maxTrackFrames) :
    GuardRails.dumpInFlight st.heap = some (((List.range env.args.numSlots).flatMap
      ((ledger st.heap.log).records env.args)).map Record.line) := by
  have hS := hst.rep.shape
  have hL := hst.rep.log_ok.lawful.sound
  have hbin : ∀ x : ℕ × ℕ, GuardRails.inFlightLines st.heap env.args.maxTrackFrames
      st.heap.walkFuel (st.heap.bin x.1 x.2).headInUse =
      some (((ledger st.heap.log).list ⟨.inUse, x.1, x.2⟩).map fun h =>
        ((ledger st.heap.log).record env.args h).line) := by
    intro x
    have hxs : ∀ h ∈ (ledger st.heap.log).list ⟨.inUse, x.1, x.2⟩, ∃ B,
        (ledger st.heap.log).block h = some B ∧ B.place = .on .inUse := by
      intro h hh
      obtain ⟨B, hB, hp, -⟩ := (hL.mem_list _ h).1 hh
      exact ⟨B, hB, hp⟩
    refine hst.inFlightLines ht hxs (hS.lists ⟨.inUse, x.1, x.2⟩) ?_
    refine hS.layout.length_le_walkFuel (hL.nodup_list _) fun h hh => ?_
    obtain ⟨B, hB, -⟩ := hxs h hh
    exact ⟨B, hB⟩
  have hmapM : ∀ xs : List (ℕ × ℕ), (xs.mapM fun x => GuardRails.inFlightLines st.heap
      env.args.maxTrackFrames st.heap.walkFuel (st.heap.bin x.1 x.2).headInUse) =
      some (xs.map fun x => ((ledger st.heap.log).list ⟨.inUse, x.1, x.2⟩).map fun h =>
        ((ledger st.heap.log).record env.args h).line) := by
    intro xs
    induction xs with
    | nil => rfl
    | cons x xs ih =>
        rw [List.mapM_cons, hbin, ih]
        rfl
  rw [GuardRails.dumpInFlight, hS.args_eq, hmapM]
  refine congrArg some ?_
  rw [List.flatten_eq_flatMap, List.flatMap_map, List.product, List.flatMap_assoc, List.map_flatMap]
  refine List.flatMap_congr fun i _ => ?_
  rw [List.flatMap_map, Ledger.records, List.map_flatMap]
  refine List.flatMap_congr fun b _ => ?_
  rw [List.map_map]
  rfl

theorem Proc.Inv.grcoreheap (hst : st.Inv env) (ht : 0 < env.args.maxTrackFrames) (b : Banner) :
    GuardRails.grcoreheap b.lines st.heap = some (((List.range env.args.numSlots).flatMap
      ((ledger st.heap.log).records env.args)).flatMap Record.text) := by
  rw [GuardRails.grcoreheap, hst.dumpInFlight ht, Option.bind_eq_bind, Option.bind_some,
    sedAfter_banner, List.flatMap_map]
  refine congrArg some (List.flatMap_congr fun r _ => ?_)
  exact r.text_eq.symm

/-! ## The result -/

theorem grcoreheap_rejected (ctr : PyCounter) (b : Banner) {text : Text}
    (h : grcoreheap b.lines s = some text) : ∃ e, grdump ctr text = .error e := by
  obtain ⟨traces, htraces, h⟩ := Option.bind_eq_some_iff.1 h
  obtain rfl := Option.some.inj h
  rw [sedAfter_banner]
  exact grdump_core ctr (dumpInFlight_csv htraces)

/-- The output of `grcoreheap.sh` is as good as the tracker file of a dump in this state. -/
def Interchangeable (env : Env) (depth : ℕ) (ctr : PyCounter) (maps : Text) (b : Banner)
    (s : Heap) : Prop :=
  ∃ text s' evs evs' d leaks leaks', grcoreheap b.lines s = some text ∧
    (ctxOf env depth).onExitHelper true 0 s = .ok () s' ∧
    s'.log = evs ++ .dumped d :: evs' ++ s.log ∧ (∀ d', .dumped d' ∉ evs) ∧
    grdump ctr text = .ok (leaks, 0) ∧
    grdump ctr (d.trackerText maps s.grArgs.numSlots) = .ok (leaks', 0) ∧ leaks.Perm leaks'

theorem core_file_rejected (env : Env) (depth : ℕ) (ctr : PyCounter) (maps : Text) (b : Banner)
    (s : Heap) : ¬ Interchangeable env depth ctr maps b s := by
  rintro ⟨text, s', evs, evs', d, leaks, leaks', hcore, -, -, -, hgrdump, -⟩
  obtain ⟨e, he⟩ := grcoreheap_rejected ctr b hcore
  exact absurd (hgrdump.symm.trans he) nofun

def coreBanner : Banner where
  lines := [['C', 'o', 'r', 'e']]
  ne_nil := List.cons_ne_nil _ _
  noMarker := by decide

/-- The core file of a process that holds 24 bytes. -/
theorem core_file_rejected_held : ∃ st p text, Reachable (Env.still (.tracing 1 0)) 1 st ∧
    (p, 24) ∈ st.held ∧ grcoreheap coreBanner.lines st.heap = some text ∧ text ≠ [] ∧
    ∀ maps, ¬ Interchangeable (Env.still (.tracing 1 0)) 1 PyCounter.ordered maps coreBanner st.heap := by
  have hargs : (GRArgs.tracing 1 0).Ok := GRArgs.tracing_ok (by decide) (by decide)
  obtain ⟨st, a, -, hr, -, hheld, hlive, -⟩ := exists_served_with hargs
    (Env.still_undisturbed_tracing 1 0) 1 24 (by decide) rfl (by decide)
  have hst := hr.inv (Env.still_ok hargs)
  obtain ⟨B, hB, -, -, hp⟩ := hst.rep.log_ok.lawful.sound.live_inUse hlive
  have hfile := hst.grcoreheap (show (0 : ℕ) < _ by decide) coreBanner
  refine ⟨st, a.ptr, _, hr, by simp [hheld], hfile, fun hnil => ?_, fun maps => ?_⟩
  · -- the record of the block makes a line
    have hmem : a.hdr ∈ (ledger st.heap.log).list ⟨.inUse, B.slot, B.bin⟩ :=
      (hst.rep.log_ok.lawful.sound.mem_list_iff hB _).2 ⟨hp, rfl, rfl⟩
    have hslot := (hst.rep.shape.blocks _ B hB (by simp [hp])).slot_lt
    have hbin := hst.rep.bin_lt hB (by simp [hp])
    have hrec : (ledger st.heap.log).record (GRArgs.tracing 1 0) a.hdr ∈
        (ledger st.heap.log).records (GRArgs.tracing 1 0) B.slot :=
      List.mem_flatMap.2 ⟨B.bin, List.mem_range.2 hbin, List.mem_map_of_mem hmem⟩
    have hline := List.flatMap_eq_nil_iff.1 hnil _
      (List.mem_flatMap.2 ⟨B.slot, List.mem_range.2 hslot, hrec⟩)
    rw [Record.text_eq] at hline
    exact List.append_ne_nil_of_right_ne_nil _ (List.cons_ne_nil _ _) hline
  · rintro ⟨text, s', evs, evs', d, leaks, leaks', hcore, -, -, -, hgrdump, -⟩
    obtain ⟨e, he⟩ := grcoreheap_rejected PyCounter.ordered coreBanner hcore
    exact absurd (hgrdump.symm.trans he) nofun

end GuardRails
