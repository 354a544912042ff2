import GuardRails.Result.LeakReport

/-!
# The leak report with a list of names to skip

With `-b` a context is left out of the report when a search of `blist.txt` finds one of its frames.
Such a context takes no number and does not count for `-t`; in the totals it still counts. What is
printed of a tracker file is the first part of the ranking with these contexts taken out.
-/

namespace GuardRails

open PyText

variable {n : ℕ} {args : GrdumpArgs} {symbols : Symbols} {baseAddr : ℤ} {xs : List Leak}
  {numContexts context : ℕ} {text : ℕ → Leak → Text} {keep : Leak → Bool}

def frameNames (symbols : Symbols) (binary : Text) (baseAddr : ℤ) (leak : Leak) : List Text :=
  match leak.backtrace.mapM (absAddr baseAddr) with
  | .ok addrs => (symLines symbols binary addrs).map (shorten [])
  | .error _ => []

/-- No search of the list finds any of the names. -/
def Symbols.passes (symbols : Symbols) (names : List Text) : Bool :=
  !names.any fun sym => symbols.blist.any fun search => search sym

/-- What `printContexts` has printed when it gets to the end or to the number asked for. -/
theorem printContexts_filter (h : ∀ context, ∀ leak ∈ xs,
      contextText args symbols baseAddr numContexts context leak =
        .ok (if keep leak then some (text context leak) else none))
    (htop : (context : ℤ) < args.top) :
    printContexts args symbols baseAddr numContexts context xs =
      .ok (contextTexts args text context (xs.filter keep)) := by
  induction xs generalizing context with
  | nil => simp [printContexts, contextTexts]
  | cons leak xs ih =>
      have hxs : ∀ context, ∀ leak ∈ xs, contextText args symbols baseAddr numContexts context leak =
          .ok (if keep leak then some (text context leak) else none) := fun context leak hmem =>
        h context leak (List.mem_cons_of_mem _ hmem)
      rw [printContexts, h context leak List.mem_cons_self]
      cases hkeep : keep leak with
      | false =>
          rw [List.filter_cons_of_neg (by simp [hkeep])]
          exact ih hxs htop
      | true =>
          rw [List.filter_cons_of_pos hkeep]
          change (if args.top ≤ context + 1 then _ else _) = _
          obtain ⟨k, hk⟩ : ∃ k, args.top.toNat - context = k + 1 := ⟨args.top.toNat - context - 1, by omega⟩
          have hk' : args.top.toNat - (context + 1) = k := by omega
          have hcons : contextTexts args text context (leak :: xs.filter keep) =
              text context leak ++ contextTexts args text (context + 1) (xs.filter keep) := by
            rw [contextTexts, contextTexts, hk, hk', List.take_succ_cons, List.zipIdx_cons,
              List.flatMap_cons]
          rw [hcons]
          split
          case isTrue hlast =>
            have hnone : contextTexts args text (context + 1) (xs.filter keep) = [] := by
              rw [contextTexts, Nat.sub_eq_zero_of_le (by omega), List.take_zero]
              rfl
            rw [hnone, List.append_nil]
            rfl
          case isFalse hmore =>
            rw [ih hxs (by push_cast; omega)]
            rfl

/-- A context with addresses that can be read is printed, unless one of its frames is skipped. -/
theorem contextText_passes (hbinary : args.binary ≠ []) {leak : Leak} (haddr : Addressed leak.backtrace) :
    contextText args symbols baseAddr numContexts context leak =
      .ok (if symbols.passes (frameNames symbols args.binary baseAddr leak) then
        some (contextHeader context numContexts leak ++
          frameLines (frameNames symbols args.binary baseAddr leak)) else none) := by
  obtain ⟨addrs, hmap, -⟩ := absAddrs_words baseAddr haddr
  have hnames : frameNames symbols args.binary baseAddr leak =
      (symLines symbols args.binary addrs).map (shorten []) := by
    rw [frameNames, hmap]
  rw [contextText, if_neg hbinary, hmap, hnames, Symbols.passes]
  change (if ((symLines symbols args.binary addrs).map (shorten [])).any _ = true then Except.ok none
    else Except.ok (some (_ ++ frameLines ((symLines symbols args.binary addrs).map (shorten []))))) = _
  generalize (symLines symbols args.binary addrs).map (shorten []) = names
  cases names.any fun sym => symbols.blist.any fun search => search sym <;> rfl

theorem splitlines_trackerText (l : MapsLine) (more : Text) (hcr : '\r' ∉ l.rest)
    (hfits : l.text.length < 255) (as : List (Traced n)) :
    splitlines (trackerText (l.text ++ '\n' :: more) (as.map Traced.record)) =
      l.text :: as.map fun a => a.record.line := by
  rw [trackerText, offsetsText_line, List.take_of_length_le (by rw [List.length_append]; exact hfits),
    List.append_assoc, List.singleton_append, splitlines_line (l.oneLine hcr), splitlines_records]

/-- With `-b`, of the tracker file of any allocations and whatever `addr2line` answers: the script
comes to its end, lists the first contexts of the ranking that pass, and sums up all of them. -/
theorem filtered_report (symbols : Symbols) (ctr : PyCounter) (l : MapsLine) (more : Text)
    {as : List (Traced n)} (hcr : '\r' ∉ l.rest) (hfits : l.text.length < 255) (hlen : as.length < 2 ^ 64)
    (htop : 1 ≤ args.top) (hbinary : args.binary ≠ []) {file : Text}
    (hfile : file = trackerText (l.text ++ '\n' :: more) (as.map Traced.record)) :
    ∃ baseAddr data xs r, loadData file = .ok (baseAddr, data) ∧ Ranked args (contexts as) xs ∧
      dumper args symbols ctr file = .ok r ∧
      r.totalBytesLeaked = (as.map fun a => (a.size : ℤ)).sum ∧ r.totalLeakCount = as.length ∧
      r.outStr = listing args xs.length (frameNames symbols args.binary baseAddr)
        (xs.filter fun leak => symbols.passes (frameNames symbols args.binary baseAddr leak)) := by
  obtain ⟨baseAddr, hload⟩ := l.loadData_line (hfile ▸ splitlines_trackerText l more hcr hfits as) rfl
  obtain ⟨leaks, hparse, hperm⟩ := parseLeaks_lines ctr hlen
  obtain ⟨hbytes, hcount⟩ := totals_of_perm hperm
  have hranked := ranked_sortedLeaks args leaks
  have haddr : ∀ leak ∈ sortedLeaks args leaks, Addressed leak.backtrace := fun leak hmem =>
    addressed_contexts (hperm.mem_iff.1 (hranked.perm.mem_iff.1 hmem))
  have hloop : printContexts args symbols baseAddr leaks.length 0 (sortedLeaks args leaks) =
      .ok (listing args leaks.length (frameNames symbols args.binary baseAddr)
        ((sortedLeaks args leaks).filter fun leak =>
          symbols.passes (frameNames symbols args.binary baseAddr leak))) :=
    printContexts_filter (fun _ leak hmem => contextText_passes hbinary (haddr leak hmem)) htop
  refine ⟨baseAddr, _, sortedLeaks args leaks, _, hload, ⟨hranked.perm.trans hperm, hranked.pairwise⟩,
    (dumper_eq ctr args symbols baseAddr hload hparse).trans (congrArg (Except.map _) hloop), hbytes,
    hcount, ?_⟩
  rw [hranked.perm.length_eq]

/-- The list has one search, and it finds the only frame. -/
def Symbols.echoSkipping : Symbols := { Symbols.echo with blist := [fun sym => sym = ("0x1000").toList] }

theorem filtered_report_oneFrame : ∃ baseAddr data xs r,
    loadData (trackerText (shortLine.text ++ '\n' :: []) ([oneFrame].map Traced.record)) =
      .ok (baseAddr, data) ∧ Ranked { binary := ['t'] } (contexts [oneFrame]) xs ∧
    dumper { binary := ['t'] } .echoSkipping PyCounter.ordered
      (trackerText (shortLine.text ++ '\n' :: []) ([oneFrame].map Traced.record)) = .ok r ∧
    r.totalBytesLeaked = 24 ∧ r.totalLeakCount = 1 ∧
    r.outStr = listing { binary := ['t'] } xs.length (frameNames .echoSkipping ['t'] baseAddr)
      (xs.filter fun leak => Symbols.echoSkipping.passes (frameNames .echoSkipping ['t'] baseAddr leak)) :=
  filtered_report .echoSkipping PyCounter.ordered shortLine [] (by decide) (by decide) (by decide)
    (by decide) (by decide) rfl

end GuardRails
