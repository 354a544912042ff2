import GuardRails.Spec.ParseArgs

/-!
# The documented options

The options as the manual lists them, the ways to write a line of them, and what the line
means: the options change the defaults from left to right. The code takes every line that
does without `-m`, which the option string declares without an argument.
-/

namespace GuardRails

open CommandLine PyText

/-! ## The manual -/

inductive Flag
  | abortOnOOM | abortOnNull | useDelay | verbose

inductive NumOption
  | hwmInterval | maxMemPct | maxRequested | poisonVal | numSlots | trackFrames | trackFreeFrames
  deriving DecidableEq

def Flag.char : Flag → Char
  | abortOnOOM => 'a'
  | abortOnNull => 'A'
  | useDelay => 'd'
  | verbose => 'v'

def NumOption.char : NumOption → Char
  | hwmInterval => 'D'
  | maxMemPct => 'm'
  | maxRequested => 'M'
  | poisonVal => 'p'
  | numSlots => 's'
  | trackFrames => 't'
  | trackFreeFrames => 'T'

inductive DocOption
  | flag (f : Flag)
  | num (o : NumOption) (digits : Text)

/-- What an option changes. Sizes are given in units of `2 ^ 20` bytes. -/
def DocOption.apply (args : GRArgs) : DocOption → GRArgs
  | flag .abortOnOOM => { args with abortOnOOM := true }
  | flag .abortOnNull => { args with abortOnNull := true }
  | flag .useDelay => { args with useDelay := true }
  | flag .verbose => { args with verbose := true }
  | num o digits =>
      let n := leadingDigits 0 digits
      match o with
      | .hwmInterval => { args with slotHWMDumpIntervalBytes := n * 2 ^ 20 % 2 ^ 64 }
      | .maxMemPct => { args with maxMemPct := n }
      | .maxRequested => { args with maxRequestedBytes := n * 2 ^ 20 % 2 ^ 64 }
      | .poisonVal => { args with poisonVal := UInt8.ofNat n, poison := true }
      | .numSlots => { args with numSlots := n }
      | .trackFrames => { args with maxTrackFrames := n }
      | .trackFreeFrames => { args with maxTrackFreeFrames := n }

def NumOption.bound : NumOption → ℕ
  | hwmInterval => 2 ^ 64
  | maxMemPct => 101
  | maxRequested => 2 ^ 64
  | poisonVal => 256
  | _ => 2 ^ 31

def DocOption.Ok : DocOption → Prop
  | flag _ => True
  | num o digits => Decimal digits ∧ leadingDigits 0 digits < o.bound

/-- Flags behind one dash, and perhaps an option with its number, which is attached to it or
stands on its own. -/
structure OptionWord where
  flags : List Flag
  last : Option (NumOption × Text × Bool)
  nonempty : flags ≠ [] ∨ last ≠ none

def OptionWord.options (w : OptionWord) : List DocOption :=
  w.flags.map .flag ++
    match w.last with
    | none => []
    | some (o, digits, _) => [.num o digits]

def OptionWord.tokens (w : OptionWord) : List Text :=
  match w.last with
  | none => ['-' :: w.flags.map Flag.char]
  | some (o, digits, true) => ['-' :: (w.flags.map Flag.char ++ o.char :: digits)]
  | some (o, digits, false) => ['-' :: (w.flags.map Flag.char ++ [o.char]), digits]

/-! ## What `getopt` returns -/

def DocOption.opt : DocOption → Opt
  | flag f => ⟨f.char, none⟩
  | num o digits => ⟨o.char, some digits⟩

theorem takesArg_flag (f : Flag) : takesArg optstring f.char = some false := by
  cases f <;> decide

theorem takesArg_num {o : NumOption} (h : o ≠ .maxMemPct) :
    takesArg optstring o.char = some true := by
  cases o <;> first | exact absurd rfl h | decide

theorem element_flags (fs : List Flag) (rest : Text) :
    element optstring (fs.map Flag.char ++ rest) =
      (fs.map (fun f => ⟨f.char, none⟩) ++ (element optstring rest).1,
        (element optstring rest).2) := by
  induction fs with
  | nil => rfl
  | cons f fs ih =>
      rw [List.map_cons, List.cons_append, element, takesArg_flag f, ih]
      rfl

theorem Flag.char_ne_dash (f : Flag) : f.char ≠ '-' := by
  cases f <;> decide

theorem NumOption.char_ne_dash (o : NumOption) : o.char ≠ '-' := by
  cases o <;> decide

variable (posixlyCorrect : Bool)

/-- The first character behind a dash. -/
theorem exists_head (fs : List Flag) (o : NumOption) (rest : Text) :
    ∃ c cs, fs.map Flag.char ++ o.char :: rest = c :: cs ∧ c ≠ '-' := by
  cases fs with
  | nil => exact ⟨_, _, rfl, o.char_ne_dash⟩
  | cons f fs => exact ⟨_, _, rfl, f.char_ne_dash⟩

theorem getopt_flags {fs : List Flag} (h : fs ≠ []) (ts : List Text) :
    getopt posixlyCorrect optstring (('-' :: fs.map Flag.char) :: ts) =
      fs.map (fun f => ⟨f.char, none⟩) ++ getopt posixlyCorrect optstring ts := by
  obtain ⟨f, fs, rfl⟩ := List.exists_cons_of_ne_nil h
  have helem := element_flags (f :: fs) []
  rw [List.append_nil] at helem
  rw [List.map_cons] at helem ⊢
  rw [getopt_complete f.char_ne_dash helem, element, List.append_nil]

theorem getopt_attached (fs : List Flag) {o : NumOption} (h : o ≠ .maxMemPct) {digits : Text}
    (hd : digits ≠ []) (ts : List Text) :
    getopt posixlyCorrect optstring (('-' :: (fs.map Flag.char ++ o.char :: digits)) :: ts) =
      fs.map (fun f => ⟨f.char, none⟩) ++
        ⟨o.char, some digits⟩ :: getopt posixlyCorrect optstring ts := by
  have helem : element optstring (o.char :: digits) = ([⟨o.char, some digits⟩], none) := by
    simp only [element, takesArg_num h, if_neg hd]
  have hword := element_flags fs (o.char :: digits)
  obtain ⟨c, cs, hcs, hdash⟩ := exists_head fs o digits
  rw [helem, hcs] at hword
  rw [hcs, getopt_complete hdash hword, List.append_assoc]
  rfl

theorem getopt_separate (fs : List Flag) {o : NumOption} (h : o ≠ .maxMemPct) (digits : Text)
    (ts : List Text) :
    getopt posixlyCorrect optstring
        (('-' :: (fs.map Flag.char ++ [o.char])) :: digits :: ts) =
      fs.map (fun f => ⟨f.char, none⟩) ++
        ⟨o.char, some digits⟩ :: getopt posixlyCorrect optstring ts := by
  have helem : element optstring [o.char] = ([], some o.char) := by
    simp only [element, takesArg_num h, if_true]
  have hword := element_flags fs [o.char]
  obtain ⟨c, cs, hcs, hdash⟩ := exists_head fs o []
  rw [helem, hcs, List.append_nil] at hword
  rw [hcs, getopt_pending hdash hword]

/-- `-m` comes without its argument. -/
theorem getopt_maxMemPct (fs : List Flag) (rest : Text) (ts : List Text) :
    ∃ os, getopt posixlyCorrect optstring
        (('-' :: (fs.map Flag.char ++ NumOption.maxMemPct.char :: rest)) :: ts) =
      fs.map (fun f => ⟨f.char, none⟩) ++ ⟨'m', none⟩ :: os := by
  have htakes : takesArg optstring NumOption.maxMemPct.char = some false := by decide
  have hword := element_flags fs (NumOption.maxMemPct.char :: rest)
  obtain ⟨c, cs, hcs, hdash⟩ := exists_head fs .maxMemPct rest
  obtain ⟨os, hos⟩ : ∃ os, getopt posixlyCorrect optstring (('-' :: c :: cs) :: ts) =
      (element optstring (c :: cs)).1 ++ os := getopt_prefix hdash
  rw [element, htakes, hcs] at hword
  rw [hcs, hos, hword]
  exact ⟨_, List.append_assoc _ _ _⟩

/-- The words of a line without `-m`. -/
theorem getopt_word {w : OptionWord} (hok : ∀ o ∈ w.options, o.Ok)
    (hm : ∀ digits, DocOption.num .maxMemPct digits ∉ w.options) (ts : List Text) :
    getopt posixlyCorrect optstring (w.tokens ++ ts) =
      w.options.map DocOption.opt ++ getopt posixlyCorrect optstring ts := by
  obtain ⟨fs, last, hne⟩ := w
  have hflags : fs.map (fun f => (⟨f.char, none⟩ : Opt)) =
      (fs.map DocOption.flag).map DocOption.opt := by
    rw [List.map_map]
    rfl
  rcases last with - | ⟨o, digits, attached⟩
  · have hfs : fs ≠ [] := hne.resolve_right fun h => h rfl
    rw [OptionWord.options, List.append_nil, ← hflags]
    exact getopt_flags posixlyCorrect hfs ts
  · have ho : o ≠ .maxMemPct := by
      rintro rfl
      exact hm digits (List.mem_append_right _ (List.mem_singleton_self _))
    obtain ⟨⟨hd, -⟩, -⟩ := hok (.num o digits) (List.mem_append_right _ (List.mem_singleton_self _))
    rw [OptionWord.options, List.map_append, ← hflags, List.append_assoc]
    cases attached with
    | true => exact getopt_attached posixlyCorrect fs ho hd ts
    | false => exact getopt_separate posixlyCorrect fs ho digits ts

/-- All the words of such a line. -/
theorem getopt_words {ws : List OptionWord} (hok : ∀ o ∈ ws.flatMap OptionWord.options, o.Ok)
    (hm : ∀ digits, DocOption.num .maxMemPct digits ∉ ws.flatMap OptionWord.options)
    (ts : List Text) :
    getopt posixlyCorrect optstring (ws.flatMap OptionWord.tokens ++ ts) =
      (ws.flatMap OptionWord.options).map DocOption.opt ++
        getopt posixlyCorrect optstring ts := by
  induction ws with
  | nil => rfl
  | cons w ws ih =>
      rw [List.flatMap_cons] at hok hm
      have hw := getopt_word posixlyCorrect (fun o ho => hok o (List.mem_append_left _ ho))
        (fun digits h => hm digits (List.mem_append_left _ h)) (ws.flatMap OptionWord.tokens ++ ts)
      have hws := ih (fun o ho => hok o (List.mem_append_right _ ho))
        fun digits h => hm digits (List.mem_append_right _ h)
      rw [List.flatMap_cons, List.append_assoc, hw, hws, List.flatMap_cons, List.map_append,
        List.append_assoc]

/-- The first `-m` of a line. -/
theorem split_at_maxMemPct {ws : List OptionWord} {digits : Text}
    (h : DocOption.num .maxMemPct digits ∈ ws.flatMap OptionWord.options) :
    ∃ before w after, ws = before ++ w :: after ∧
      (∀ digits, DocOption.num .maxMemPct digits ∉ before.flatMap OptionWord.options) ∧
      ∃ digits attached, w.last = some (.maxMemPct, digits, attached) := by
  induction ws with
  | nil => exact absurd h List.not_mem_nil
  | cons w ws ih =>
      by_cases hw : ∃ digits attached, w.last = some (.maxMemPct, digits, attached)
      · exact ⟨[], w, ws, rfl, fun _ => List.not_mem_nil, hw⟩
      have hnone : ∀ digits, DocOption.num .maxMemPct digits ∉ w.options := by
        intro digits hmem
        unfold OptionWord.options at hmem
        rcases List.mem_append.1 hmem with hflag | hlast
        · obtain ⟨f, -, hf⟩ := List.mem_map.1 hflag
          exact absurd hf nofun
        · split at hlast
          · exact absurd hlast List.not_mem_nil
          · rename_i o digits' attached hl
            obtain ⟨rfl, rfl⟩ := DocOption.num.inj (List.mem_singleton.1 hlast)
            exact hw ⟨_, _, hl⟩
      rw [List.flatMap_cons, List.mem_append] at h
      obtain ⟨before, w', after, rfl, hbefore, hlast⟩ := ih (h.resolve_left (hnone digits))
      refine ⟨w :: before, w', after, rfl, fun digits hmem => ?_, hlast⟩
      rw [List.flatMap_cons, List.mem_append] at hmem
      exact hmem.elim (hnone digits) (hbefore digits)

/-! ## The fold -/

theorem sizeOfInt_natCast {n : ℕ} (h : n < 2 ^ 64) : sizeOfInt n = n := by
  unfold sizeOfInt
  omega

/-- The `switch` does what the manual says. -/
theorem setOption_opt {o : DocOption} (hok : o.Ok) (args : GRArgs) :
    setOption args o.opt = .ok (o.apply args) := by
  cases o with
  | flag f => cases f <;> rfl
  | num o digits =>
      obtain ⟨hdec, hlt⟩ := hok
      have hbytes : ∀ n : ℕ, n * 1024 * 1024 = n * 2 ^ 20 := fun n => Nat.mul_assoc n 1024 1024
      have hull := hdec.strtoull_eq
      have hint := hdec.atoi_eq
      have hsize := sizeOfInt_natCast (n := leadingDigits 0 digits)
      generalize hn : leadingDigits 0 digits = n at hlt hull hint hsize
      cases o with
      | hwmInterval =>
          change Except.ok _ = Except.ok _
          rw [hull hlt, hbytes]
          simp only [DocOption.apply, hn]
      | maxRequested =>
          change Except.ok _ = Except.ok _
          rw [hull hlt, hbytes]
          simp only [DocOption.apply, hn]
      | maxMemPct =>
          have h : n < 101 := hlt
          simp only [setOption, DocOption.opt, NumOption.char, deref, bind, Except.bind, pure,
            Except.pure, hint (by omega), hsize (by omega), argAssert, DocOption.apply, hn]
          rw [if_pos (by omega)]
      | poisonVal =>
          have h : n < 256 := hlt
          simp only [setOption, DocOption.opt, NumOption.char, deref, bind, Except.bind, pure,
            Except.pure, hint (by omega), hsize (by omega), argAssert, DocOption.apply, hn]
          rw [if_pos (by omega)]
      | numSlots =>
          have h : n < 2 ^ 31 := hlt
          simp only [setOption, DocOption.opt, NumOption.char, deref, bind, Except.bind, pure,
            Except.pure, hint h, hsize (by omega), DocOption.apply, hn]
      | trackFrames =>
          have h : n < 2 ^ 31 := hlt
          simp only [setOption, DocOption.opt, NumOption.char, deref, bind, Except.bind, pure,
            Except.pure, hint h, hsize (by omega), DocOption.apply, hn]
      | trackFreeFrames =>
          have h : n < 2 ^ 31 := hlt
          simp only [setOption, DocOption.opt, NumOption.char, deref, bind, Except.bind, pure,
            Except.pure, hint h, hsize (by omega), DocOption.apply, hn]

theorem setOptions {os : List DocOption} (hok : ∀ o ∈ os, o.Ok) (args : GRArgs) :
    (os.map DocOption.opt).foldlM setOption args = .ok (os.foldl DocOption.apply args) := by
  induction os generalizing args with
  | nil => rfl
  | cons o os ih =>
      obtain ⟨ho, hos⟩ := List.forall_mem_cons.1 hok
      rw [List.map_cons, List.foldlM_cons, setOption_opt ho]
      exact ih hos _

/-- A null argument is read. -/
theorem setOptions_maxMemPct {os : List DocOption} (hok : ∀ o ∈ os, o.Ok) (args : GRArgs)
    (rest : List Opt) :
    (os.map DocOption.opt ++ ⟨'m', none⟩ :: rest).foldlM setOption args = .error (.fault 0) := by
  rw [List.foldlM_append, setOptions hok]
  rfl

theorem getopt_faults {ws : List OptionWord} (hok : ∀ o ∈ ws.flatMap OptionWord.options, o.Ok)
    {digits : Text} (h : DocOption.num .maxMemPct digits ∈ ws.flatMap OptionWord.options)
    (args : GRArgs) :
    (getopt posixlyCorrect optstring (ws.flatMap OptionWord.tokens)).foldlM setOption args =
      .error (.fault 0) := by
  obtain ⟨before, w, after, rfl, hbefore, digits, attached, hlast⟩ := split_at_maxMemPct h
  rw [List.flatMap_append] at hok ⊢
  have hokb : ∀ o ∈ before.flatMap OptionWord.options, o.Ok := fun o ho =>
    hok o (List.mem_append_left _ ho)
  have hprefix : ∀ o ∈ before.flatMap OptionWord.options ++ w.flags.map .flag, o.Ok := by
    intro o ho
    rcases List.mem_append.1 ho with ho | ho
    · exact hokb o ho
    · obtain ⟨f, -, rfl⟩ := List.mem_map.1 ho
      trivial
  obtain ⟨rest, ts, htokens⟩ : ∃ rest ts, w.tokens ++ after.flatMap OptionWord.tokens =
      ('-' :: (w.flags.map Flag.char ++ NumOption.maxMemPct.char :: rest)) :: ts := by
    unfold OptionWord.tokens
    rw [hlast]
    cases attached with
    | true => exact ⟨digits, _, rfl⟩
    | false => exact ⟨[], _, rfl⟩
  obtain ⟨os, hos⟩ := getopt_maxMemPct posixlyCorrect w.flags rest ts
  rw [List.flatMap_cons, getopt_words posixlyCorrect hokb hbefore, htokens, hos,
    ← List.append_assoc]
  have hflags : w.flags.map (fun f => (⟨f.char, none⟩ : Opt)) =
      (w.flags.map DocOption.flag).map DocOption.opt := by
    rw [List.map_map]
    rfl
  rw [hflags, ← List.map_append]
  exact setOptions_maxMemPct hprefix args os

/-! ## The line -/

variable {text : Text} {hlen : text.length ≤ argMaxBytes - 1} {ws : List OptionWord}

theorem parseArgs_line (hline : (ArgFile.content text hlen).tokens = ws.flatMap OptionWord.tokens)
    (hfit : (ws.flatMap OptionWord.tokens).length ≤ argMaxNum - 2) :
    parseArgs posixlyCorrect (.content text hlen) = (do
      let args ← (getopt posixlyCorrect optstring (ws.flatMap OptionWord.tokens)).foldlM setOption
        (defaultArgs (.content text hlen))
      argAssert 530 (args.numSlots < maxSlots)
      pure (args, (ws.flatMap OptionWord.tokens).length + 1)) := by
  rw [← hline] at hfit ⊢
  exact parseArgs_eq posixlyCorrect (show (ArgFile.content text hlen).Readable from trivial)
    (hfit.trans (by decide))

/-- A line of documented options with numbers in range, within the limits of the parser. -/
theorem option_line_parsed
    (hline : (ArgFile.content text hlen).tokens = ws.flatMap OptionWord.tokens)
    (hfit : (ws.flatMap OptionWord.tokens).length ≤ argMaxNum - 2)
    (hok : ∀ o ∈ ws.flatMap OptionWord.options, o.Ok)
    (hslots : ((ws.flatMap OptionWord.options).foldl DocOption.apply
      (defaultArgs (.content text hlen))).numSlots < maxSlots) :
    (∃ argc, parseArgs posixlyCorrect (.content text hlen) =
      .ok ((ws.flatMap OptionWord.options).foldl DocOption.apply
        (defaultArgs (.content text hlen)), argc)) ↔
      ∀ digits, DocOption.num .maxMemPct digits ∉ ws.flatMap OptionWord.options := by
  constructor
  · rintro ⟨argc, hargs⟩ digits hmem
    rw [parseArgs_line posixlyCorrect hline hfit, getopt_faults posixlyCorrect hok hmem] at hargs
    exact absurd hargs nofun
  · intro hm
    have hgetopt := getopt_words posixlyCorrect hok hm []
    rw [List.append_nil, getopt, List.append_nil] at hgetopt
    rw [parseArgs_line posixlyCorrect hline hfit, hgetopt, setOptions hok]
    simp only [bind, Except.bind, argAssert, if_pos hslots]
    exact ⟨_, rfl⟩

def shippedLine : List OptionWord :=
  [⟨[.useDelay, .verbose], none, .inl nofun⟩,
    ⟨[], some (.trackFrames, ['3', '0'], false), .inr nofun⟩,
    ⟨[], some (.trackFreeFrames, ['3', '0'], false), .inr nofun⟩,
    ⟨[], some (.numSlots, ['1'], false), .inr nofun⟩,
    ⟨[], some (.poisonVal, ['9', '0'], false), .inr nofun⟩]

theorem option_line_parsed_shipped :
    ∃ argc, parseArgs false (.content ("-dv -t 30 -T 30 -s 1 -p 90\n").toList (by decide)) =
      .ok ((shippedLine.flatMap OptionWord.options).foldl DocOption.apply
        (defaultArgs (.content ("-dv -t 30 -T 30 -s 1 -p 90\n").toList (by decide))), argc) := by
  apply (option_line_parsed false _ _ _ _).2
  · intro digits h
    simp [shippedLine, OptionWord.options] at h
  · decide
  · decide
  · intro o ho
    simp only [shippedLine, OptionWord.options, List.flatMap_cons, List.flatMap_nil, List.map_cons,
      List.map_nil, List.append_nil, List.nil_append, List.cons_append, List.mem_cons,
      List.not_mem_nil, or_false] at ho
    rcases ho with rfl | rfl | rfl | rfl | rfl | rfl
    · trivial
    · trivial
    · exact ⟨by decide, by decide⟩
    · exact ⟨by decide, by decide⟩
    · exact ⟨by decide, by decide⟩
    · exact ⟨by decide, by decide⟩
  · decide

def percentLine : List OptionWord := [⟨[], some (.maxMemPct, ['5', '0'], false), .inr nofun⟩]

theorem option_line_faults :
    parseArgs false (.content ("-m 50\n").toList (by decide)) = .error (.fault 0) := by
  have hok : ∀ o ∈ percentLine.flatMap OptionWord.options, o.Ok := by
    rintro o ho
    obtain rfl := List.mem_singleton.1 ho
    exact ⟨by decide, by decide⟩
  have hmem : DocOption.num .maxMemPct ['5', '0'] ∈ percentLine.flatMap OptionWord.options :=
    List.mem_singleton_self _
  have hline : (ArgFile.content ("-m 50\n").toList (by decide)).tokens =
      percentLine.flatMap OptionWord.tokens := by decide
  rw [parseArgs_line false hline (by decide), getopt_faults false hok hmem]
  rfl

end GuardRails
