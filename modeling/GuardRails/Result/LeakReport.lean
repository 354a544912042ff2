import GuardRails.Result.PartialDump

/-!
# The leak report

`printLeaks` lists the contexts in the order of the chosen key, up to the number asked for.
With `-b` each context has its header and its frames; without `-b` the header is put together
and not printed.
-/

namespace GuardRails

open PyText

variable {args : GrdumpArgs} {symbols : Symbols} {ctr : PyCounter} {baseAddr : ℤ} {data : List Text}
  {leaks xs : List Leak} {skipped numContexts context : ℕ} {binary : Text} {lines : Leak → List Text}
  {text : ℕ → Leak → Text}

def GrdumpArgs.key (args : GrdumpArgs) (leak : Leak) : ℤ :=
  if args.sortct then leak.count else leak.totBytes

/-- What is printed of the contexts from number `context` on, up to the number asked for. -/
def contextTexts (args : GrdumpArgs) (text : ℕ → Leak → Text) (context : ℕ) (xs : List Leak) : Text :=
  ((xs.take (args.top.toNat - context)).zipIdx context).flatMap fun x => text x.2 x.1

def listing (args : GrdumpArgs) (numContexts : ℕ) (lines : Leak → List Text) (xs : List Leak) : Text :=
  contextTexts args (fun context leak => contextHeader context numContexts leak ++ frameLines (lines leak))
    0 xs

def Report.Lists (args : GrdumpArgs) (xs : List Leak) (r : Report) : Prop :=
  ∃ lines : Leak → List Text, (∀ leak ∈ xs, (lines leak).length = leak.backtrace.length) ∧
    r.outStr = listing args xs.length lines xs

/-- The contexts in non-increasing order of the key. -/
structure Ranked (args : GrdumpArgs) (leaks xs : List Leak) : Prop where
  perm : xs.Perm leaks
  pairwise : xs.Pairwise fun x y => args.key y ≤ args.key x

/-- With `-b` and without, the same contexts are listed. -/
def SameReport (args : GrdumpArgs) (symbols : Symbols) (ctr : PyCounter) (baseAddr : ℤ)
    (data : List Text) (binary : Text) (leaks : List Leak) : Prop :=
  ∃ xs r r', Ranked args leaks xs ∧
    printLeaks { args with binary := binary } symbols ctr baseAddr data = .ok r ∧ r.Lists args xs ∧
    printLeaks { args with binary := [] } symbols ctr baseAddr data = .ok r' ∧ r'.Lists args xs

def IsWord (a : Text) : Prop := a ≠ [] ∧ ' ' ∉ a ∧ '\n' ∉ a

def symLines (symbols : Symbols) (binary : Text) (addrs : List Text) : List Text :=
  ((symbols.addr2line binary ([' '].intercalate addrs)).splitOn '\n').filter (· ≠ [])

def Symbols.LinePerAddress (symbols : Symbols) (binary : Text) : Prop :=
  ∀ addrs : List Text, (∀ a ∈ addrs, IsWord a) → (symLines symbols binary addrs).length = addrs.length

/-! ## The loop -/

theorem ranked_sortedLeaks (args : GrdumpArgs) (leaks : List Leak) :
    Ranked args leaks (sortedLeaks args leaks) where
  perm := sortedLeaks_perm args leaks
  pairwise := by
    have hle : (fun x y : Leak => if args.sortct then decide (y.count ≤ x.count)
        else decide (y.totBytes ≤ x.totBytes)) = fun x y => decide (args.key y ≤ args.key x) := by
      funext x y
      unfold GrdumpArgs.key
      cases args.sortct <;> rfl
    unfold sortedLeaks
    rw [hle]
    let le : Leak → Leak → Bool := fun x y => decide (args.key y ≤ args.key x)
    have htrans : ∀ x y z, le x y → le y z → le x z := fun x y z hxy hyz =>
      decide_eq_true ((of_decide_eq_true hyz).trans (of_decide_eq_true hxy))
    have htotal : ∀ x y, le x y || le y x := fun x y => by
      rw [Bool.or_eq_true, decide_eq_true_iff, decide_eq_true_iff]
      exact le_total _ _
    exact (List.pairwise_mergeSort htrans htotal leaks).imp of_decide_eq_true

/-- The loop stops behind the last context that is asked for. -/
theorem printContexts_some (h : ∀ context, ∀ leak ∈ xs,
      contextText args symbols baseAddr numContexts context leak = .ok (some (text context leak)))
    (htop : (context : ℤ) < args.top) :
    printContexts args symbols baseAddr numContexts context xs = .ok (contextTexts args text context xs) := by
  induction xs generalizing context with
  | nil => simp [printContexts, contextTexts]
  | cons leak xs ih =>
      have hxs : ∀ context, ∀ leak ∈ xs, contextText args symbols baseAddr numContexts context leak =
          .ok (some (text context leak)) := fun context leak hmem =>
        h context leak (List.mem_cons_of_mem _ hmem)
      have hcons : contextTexts args text context (leak :: xs) =
          text context leak ++ contextTexts args text (context + 1) xs := by
        obtain ⟨k, hk⟩ : ∃ k, args.top.toNat - context = k + 1 := ⟨args.top.toNat - context - 1, by omega⟩
        have hk' : args.top.toNat - (context + 1) = k := by omega
        rw [contextTexts, contextTexts, hk, hk', List.take_succ_cons, List.zipIdx_cons, List.flatMap_cons]
      rw [printContexts, h context leak List.mem_cons_self, hcons]
      change (if args.top ≤ context + 1 then _ else _) = _
      by_cases hlast : args.top ≤ context + 1
      · rw [if_pos hlast]
        have hnone : contextTexts args text (context + 1) xs = [] := by
          rw [contextTexts, Nat.sub_eq_zero_of_le (by omega), List.take_zero]
          rfl
        rw [hnone, List.append_nil]
        rfl
      · rw [if_neg hlast, ih hxs (by push_cast; omega)]
        rfl

theorem printLeaks_eq (hparse : parseLeaks ctr data = .ok (leaks, skipped)) :
    printLeaks args symbols ctr baseAddr data =
      (printContexts args symbols baseAddr leaks.length 0 (sortedLeaks args leaks)).map
        fun outStr => ⟨totalBytesLeaked leaks, totalLeakCount leaks, leaks.length, outStr⟩ := by
  rw [printLeaks, hparse]
  change (printContexts args symbols baseAddr leaks.length 0 (sortedLeaks args leaks)).bind _ = _
  cases printContexts args symbols baseAddr leaks.length 0 (sortedLeaks args leaks) with
  | error e => rfl
  | ok out => rfl

/-! ## Without symbols -/

def plainLine (addr : Text) : Text := addr ++ (" (No symbols, see -b option)").toList

/-- Without `-b` the frames are printed, and nothing else. -/
theorem printLeaks_plain (symbols : Symbols) (baseAddr : ℤ)
    (hparse : parseLeaks ctr data = .ok (leaks, skipped)) (htop : 1 ≤ args.top) :
    ∃ r, printLeaks { args with binary := [] } symbols ctr baseAddr data = .ok r ∧
      r.outStr = contextTexts args (fun _ leak => frameLines (leak.backtrace.map plainLine)) 0
        (sortedLeaks args leaks) := by
  have hloop : printContexts { args with binary := [] } symbols baseAddr leaks.length 0
      (sortedLeaks args leaks) =
        .ok (contextTexts { args with binary := [] }
          (fun _ leak => frameLines (leak.backtrace.map plainLine)) 0 (sortedLeaks args leaks)) :=
    printContexts_some (fun _ _ _ => rfl) htop
  have hsorted : sortedLeaks { args with binary := [] } leaks = sortedLeaks args leaks := rfl
  rw [printLeaks_eq hparse, hsorted, hloop]
  exact ⟨_, rfl, rfl⟩

theorem head?_frameLines (ts : List Text) : (frameLines ts).head? = none ∨
    (frameLines ts).head? = some '#' := by
  cases ts with
  | nil => exact .inl rfl
  | cons t ts => exact .inr rfl

theorem head?_plain (context : ℕ) (xs : List Leak) :
    (contextTexts args (fun _ leak => frameLines (lines leak)) context xs).head? ≠ some '=' := by
  unfold contextTexts
  generalize args.top.toNat - context = k
  induction xs generalizing context k with
  | nil => simp
  | cons leak xs ih =>
      cases k with
      | zero => simp
      | succ k =>
          rw [List.take_succ_cons, List.zipIdx_cons, List.flatMap_cons, List.head?_append]
          rcases head?_frameLines (lines leak) with h | h
          · rw [h]
            exact ih (context + 1) k
          · rw [h, Option.some_or]
            exact fun heq => absurd (Option.some.inj heq) (by decide)

/-- A listing begins with the header of its first context. -/
theorem head?_listing (htop : 1 ≤ args.top) (hne : xs ≠ []) :
    (listing args numContexts lines xs).head? = some '=' := by
  obtain ⟨leak, xs, rfl⟩ := List.exists_cons_of_ne_nil hne
  obtain ⟨k, hk⟩ : ∃ k, args.top.toNat - 0 = k + 1 := ⟨args.top.toNat - 1, by omega⟩
  rw [listing, contextTexts, hk, List.take_succ_cons, List.zipIdx_cons, List.flatMap_cons]
  rfl

/-! ## With symbols -/

theorem isWord_hex (n : ℤ) (long : Bool) : IsWord (hex n long) := by
  have hdigit : ∀ c, c = ' ' ∨ c = '\n' → c ∉ hexadecimal n.natAbs := by
    rintro c hc hmem
    have hx : ∀ d < 16, d.digitChar ≠ ' ' ∧ d.digitChar ≠ '\n' := by decide
    rw [hexadecimal, List.mem_cons, List.mem_cons] at hmem
    rcases hmem with rfl | rfl | hmem
    · exact absurd hc (by decide)
    · exact absurd hc (by decide)
    · obtain ⟨d, hd, rfl⟩ := mem_toDigits (by decide) hmem
      exact hc.elim (hx d hd).1 (hx d hd).2
  have hnot : ∀ c, c = ' ' ∨ c = '\n' → c ∉ hex n long := by
    intro c hc hmem
    rw [hex, List.mem_append, List.mem_append] at hmem
    rcases hmem with (hmem | hmem) | hmem
    · split at hmem
      · rw [List.mem_singleton.1 hmem] at hc
        exact absurd hc (by decide)
      · exact absurd hmem List.not_mem_nil
    · exact hdigit c hc hmem
    · split at hmem
      · rw [List.mem_singleton.1 hmem] at hc
        exact absurd hc (by decide)
      · exact absurd hmem List.not_mem_nil
  exact ⟨by simp [hex, hexadecimal], hnot _ (.inl rfl), hnot _ (.inr rfl)⟩

/-- The addresses of a context that can be read, as `addr2line` gets them. -/
theorem absAddrs_words (baseAddr : ℤ) {backtrace : List Text} (h : Addressed backtrace) :
    ∃ addrs, backtrace.mapM (absAddr baseAddr) = .ok addrs ∧ (∀ a ∈ addrs, IsWord a) ∧
      addrs.length = backtrace.length := by
  induction backtrace with
  | nil => exact ⟨[], rfl, by simp, rfl⟩
  | cons y ys ih =>
      obtain ⟨hy, hys⟩ := List.forall_mem_cons.1 h
      obtain ⟨a, ha, hword⟩ : ∃ a, absAddr baseAddr y = .ok a ∧ IsWord a := by
        obtain ⟨addr, haddr⟩ := Option.isSome_iff_exists.1 hy
        rw [absAddr, haddr]
        exact ⟨_, rfl, isWord_hex _ _⟩
      obtain ⟨addrs, hmap, hwords, hlen⟩ := ih hys
      refine ⟨a :: addrs, ?_, List.forall_mem_cons.2 ⟨hword, hwords⟩, congrArg Nat.succ hlen⟩
      rw [List.mapM_cons, ha, hmap]
      rfl

/-- With `-b` the report is as it should be when the addresses can be read. -/
theorem printLeaks_symbols (baseAddr : ℤ) (hparse : parseLeaks ctr data = .ok (leaks, skipped)) (htop : 1 ≤ args.top)
    (hbinary : binary ≠ []) (hblist : symbols.blist = []) (hlines : symbols.LinePerAddress binary)
    (haddr : ∀ leak ∈ leaks, Addressed leak.backtrace) :
    ∃ r, printLeaks { args with binary := binary } symbols ctr baseAddr data = .ok r ∧
      r.Lists args (sortedLeaks args leaks) := by
  have hmem : ∀ leak ∈ sortedLeaks args leaks, leak ∈ leaks := fun leak h =>
    (sortedLeaks_perm args leaks).mem_iff.1 h
  choose! addrs hmap hwords hlen using fun leak (h : leak ∈ leaks) =>
    absAddrs_words baseAddr (haddr leak h)
  obtain ⟨lines, hdef⟩ : ∃ lines : Leak → List Text, ∀ leak,
      lines leak = (symLines symbols binary (addrs leak)).map (shorten []) := ⟨_, fun _ => rfl⟩
  have hcontext : ∀ context, ∀ leak ∈ sortedLeaks args leaks,
      contextText { args with binary := binary } symbols baseAddr leaks.length context leak =
        .ok (some (contextHeader context leaks.length leak ++ frameLines (lines leak))) := by
    intro context leak h
    rw [contextText, if_neg hbinary, hmap leak (hmem leak h), hdef, hblist]
    change (if (symLines symbols binary (addrs leak)).map (shorten []) |>.any _ then _ else _) = _
    simp only [List.any_nil, List.any_eq_true, and_false, exists_false, if_false, Bool.false_eq_true]
    rfl
  have hloop : printContexts { args with binary := binary } symbols baseAddr leaks.length 0
      (sortedLeaks args leaks) = .ok (listing args leaks.length lines (sortedLeaks args leaks)) :=
    printContexts_some hcontext htop
  have hsorted : sortedLeaks { args with binary := binary } leaks = sortedLeaks args leaks := rfl
  rw [printLeaks_eq hparse, hsorted, hloop]
  refine ⟨_, rfl, lines, fun leak h => ?_, ?_⟩
  · rw [hdef, List.length_map, hlines _ (hwords leak (hmem leak h)), hlen leak (hmem leak h)]
  · rw [(sortedLeaks_perm args leaks).length_eq]

/-! ## The two reports -/

/-- Without `-b` the header of the first context is missing. -/
theorem SameReport.eq_nil (h : SameReport args symbols ctr baseAddr data binary leaks)
    (hparse : parseLeaks ctr data = .ok (leaks, skipped)) (htop : 1 ≤ args.top) : leaks = [] := by
  obtain ⟨xs, _, r, hxs, -, -, hr, lines, -, hlist⟩ := h
  obtain ⟨r', hr', hout⟩ := printLeaks_plain symbols baseAddr hparse htop
  obtain rfl := Except.ok.inj (hr'.symm.trans hr)
  by_contra hne
  have hxs' : xs ≠ [] := fun h => hne (List.perm_nil.1 (h ▸ hxs.perm).symm)
  have hhead : (listing args xs.length lines xs).head? = some '=' := head?_listing htop hxs'
  rw [← hlist, hout] at hhead
  exact head?_plain 0 (sortedLeaks args leaks) hhead

/-- With `-b` and addresses that can be read the contexts are listed as they should be; without
`-b` the frames of the same contexts follow each other without their headers, so the reports
are the same only where there is nothing to report. -/
theorem leak_reports (hparse : parseLeaks ctr data = .ok (leaks, skipped)) (htop : 1 ≤ args.top)
    (hbinary : binary ≠ []) (hblist : symbols.blist = []) (hlines : symbols.LinePerAddress binary) :
    ((∀ leak ∈ leaks, Addressed leak.backtrace) →
      ∃ xs r, Ranked args leaks xs ∧
        printLeaks { args with binary := binary } symbols ctr baseAddr data = .ok r ∧ r.Lists args xs) ∧
    (∃ xs r, Ranked args leaks xs ∧
      printLeaks { args with binary := [] } symbols ctr baseAddr data = .ok r ∧
      r.outStr = contextTexts args (fun _ leak => frameLines (leak.backtrace.map plainLine)) 0 xs) ∧
    (SameReport args symbols ctr baseAddr data binary leaks ↔ leaks = []) := by
  have hranked := ranked_sortedLeaks args leaks
  obtain ⟨r', hr', hout⟩ := printLeaks_plain symbols baseAddr hparse htop
  refine ⟨fun haddr => ?_, ⟨_, r', hranked, hr', hout⟩, ⟨fun h => h.eq_nil hparse htop, ?_⟩⟩
  · obtain ⟨r, hr, hlists⟩ := printLeaks_symbols baseAddr hparse htop hbinary hblist hlines haddr
    exact ⟨_, r, hranked, hr, hlists⟩
  · rintro rfl
    obtain ⟨r, hr, hlists⟩ := printLeaks_symbols baseAddr hparse htop hbinary hblist hlines (by simp)
    have hnil : sortedLeaks args [] = [] := List.perm_nil.1 (sortedLeaks_perm args [])
    rw [hnil] at hranked hlists hout
    refine ⟨[], r, r', hranked, hr, hlists, hr', fun _ => [], by simp, hout.trans ?_⟩
    simp [listing, contextTexts]

/-- A line for each address with the address itself. -/
def Symbols.echo : Symbols where
  addr2line _ addrs := addrs.map fun c => if c = ' ' then '\n' else c
  blist := []

theorem symLines_echo {addrs : List Text} (h : ∀ a ∈ addrs, IsWord a) :
    symLines .echo binary addrs = addrs := by
  have hword : ∀ {a : Text}, ' ' ∉ a → (a.map fun c => if c = ' ' then '\n' else c) = a := by
    intro a ha
    have hsame : ∀ c ∈ a, (if c = ' ' then '\n' else c) = id c := fun c hc =>
      if_neg fun heq : c = ' ' => ha (heq ▸ hc)
    exact (List.map_congr_left hsame).trans (List.map_id a)
  have hmap : ([' '].intercalate addrs).map (fun c => if c = ' ' then '\n' else c) =
      ['\n'].intercalate addrs := by
    induction addrs with
    | nil => rfl
    | cons a addrs ih =>
        obtain ⟨ha, haddrs⟩ := List.forall_mem_cons.1 h
        cases addrs with
        | nil =>
            rw [List.intercalate_singleton, List.intercalate_singleton]
            exact hword ha.2.1
        | cons b addrs =>
            rw [List.intercalate_cons_cons, List.intercalate_cons_cons, List.map_append, List.map_append,
              hword ha.2.1, ih haddrs]
            rfl
  change ((([' '].intercalate addrs).map _).splitOn '\n').filter _ = addrs
  rw [hmap]
  cases addrs with
  | nil => rfl
  | cons a addrs =>
      rw [List.splitOn_intercalate '\n' (fun a ha => (h a ha).2.2) (List.cons_ne_nil a addrs)]
      exact List.filter_eq_self.2 fun a ha => by simpa using (h a ha).1

theorem Symbols.echo_lines (binary : Text) : Symbols.echo.LinePerAddress binary := fun _ h =>
  congrArg List.length (symLines_echo h)

/-- A tracker file with one record. -/
theorem parseLeaks_oneFrame : ∃ leaks, leaks ≠ [] ∧
    parseLeaks PyCounter.ordered [oneFrame.record.line] = .ok (leaks, 0) := by
  obtain ⟨leaks, hparse, hperm⟩ := parseLeaks_lines PyCounter.ordered
    (show [oneFrame].length < 2 ^ 64 by decide)
  refine ⟨leaks, fun hnil => ?_, hparse⟩
  have hlen := hperm.length_eq
  rw [hnil] at hlen
  exact absurd hlen (by decide)

theorem addressed_contexts {n : ℕ} {as : List (Traced n)} {leak : Leak} (h : leak ∈ contexts as) :
    Addressed leak.backtrace := by
  obtain ⟨a, -, rfl⟩ := List.mem_map.1 h
  exact addressed_hexadecimal a.frames

def pageFrames : Traced 2 where
  size := 4096
  frames := [4198400, 4198464]
  size_lt := by decide
  length_le := by decide
  frame_ok := by decide

def smallFrames : Traced 2 where
  size := 32
  frames := [4198464]
  size_lt := by decide
  length_le := by decide
  frame_ok := by decide

/-- Two pages and a small block are two contexts. -/
theorem leak_reports_two : ∃ leaks xs r xs' r',
    parseLeaks PyCounter.ordered
      ([pageFrames, smallFrames, pageFrames].map fun a => a.record.line) = .ok (leaks, 0) ∧
    leaks.length = 2 ∧ Ranked {} leaks xs ∧
    printLeaks { binary := ['t'] } .echo PyCounter.ordered 0
      ([pageFrames, smallFrames, pageFrames].map fun a => a.record.line) = .ok r ∧ r.Lists {} xs ∧
    Ranked {} leaks xs' ∧
    printLeaks {} .echo PyCounter.ordered 0
      ([pageFrames, smallFrames, pageFrames].map fun a => a.record.line) = .ok r' ∧
    r'.outStr = contextTexts {} (fun _ leak => frameLines (leak.backtrace.map plainLine)) 0 xs' ∧
    (SameReport {} .echo PyCounter.ordered 0
      ([pageFrames, smallFrames, pageFrames].map fun a => a.record.line) ['t'] leaks ↔ leaks = []) := by
  obtain ⟨leaks, hparse, hperm⟩ := parseLeaks_lines PyCounter.ordered
    (show [pageFrames, smallFrames, pageFrames].length < 2 ^ 64 by decide)
  have htop : 1 ≤ ({} : GrdumpArgs).top := by decide
  obtain ⟨hnamed, hplain, hsame⟩ := leak_reports hparse htop (List.cons_ne_nil 't' []) rfl
    (Symbols.echo_lines ['t'])
  obtain ⟨xs, r, hxs, hr, hlists⟩ := hnamed fun leak hmem => addressed_contexts (hperm.mem_iff.1 hmem)
  obtain ⟨xs', r', hxs', hr', hout⟩ := hplain
  exact ⟨leaks, xs, r, xs', r', hparse, hperm.length_eq, hxs, hr, hlists, hxs', hr', hout, hsame⟩

/-- Of a single leak the report without `-b` has the frames only. -/
theorem leak_header_lost : ∃ leaks, parseLeaks PyCounter.ordered [oneFrame.record.line] = .ok (leaks, 0) ∧
    ¬ SameReport {} .echo PyCounter.ordered 0 [oneFrame.record.line] ['t'] leaks := by
  obtain ⟨leaks, hne, hparse⟩ := parseLeaks_oneFrame
  exact ⟨leaks, hparse, fun h => hne (h.eq_nil hparse (by decide))⟩

end GuardRails
