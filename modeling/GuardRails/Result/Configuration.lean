import GuardRails.Spec.Complete
import GuardRails.Spec.Fill
import GuardRails.Spec.ParseArgs

/-!
# Accepted configurations

What `parseArgs` and `initialize` let through: no slots at all, which leaves `getBuf` without
a slot to choose, and traces that do not fit into the first page of a block, since the size of
the header is checked before the options are read.
-/

namespace GuardRails

open ByteMemory CommandLine StateHoare

variable {posixlyCorrect : Bool} {file : ArgFile} {args args' : GRArgs} {argc : ℕ} {o : Opt}
  {os : List Opt}

/-! ## The options that count -/

/-- What the last option `c` of a line sets; without one, `n`. -/
def lastValue (c : Char) (n : ℕ) (os : List Opt) : ℕ :=
  os.foldl (fun n o => if o.char = c then sizeOfInt (atoi (o.optarg.getD [])) else n) n

/-- The three fields that the options `s`, `t` and `T` set. -/
structure Sets (args args' : GRArgs) (os : List Opt) : Prop where
  numSlots : args'.numSlots = lastValue 's' args.numSlots os
  maxTrackFrames : args'.maxTrackFrames = lastValue 't' args.maxTrackFrames os
  maxTrackFreeFrames : args'.maxTrackFreeFrames = lastValue 'T' args.maxTrackFreeFrames os

theorem deref_bind {α : Type} {optarg : Option PyText.Text} {f : PyText.Text → Except Halt α} {x : α}
    (h : (deref optarg >>= f) = .ok x) : f (optarg.getD []) = .ok x := by
  cases optarg with
  | none => exact absurd h nofun
  | some t => exact h

theorem argAssert_bind {α : Type} {line : ℕ} {c : Prop} [Decidable c]
    {f : Unit → Except Halt α} {x : α} (h : (argAssert line c >>= f) = .ok x) :
    c ∧ f () = .ok x := by
  by_cases hc : c
  · rw [argAssert, if_pos hc] at h
    exact ⟨hc, h⟩
  · rw [argAssert, if_neg hc] at h
    exact absurd h nofun

theorem setOption_sets (h : setOption args o = .ok args') : Sets args args' [o] := by
  obtain ⟨c, optarg⟩ := o
  unfold setOption at h
  dsimp only at h
  split at h
  -- the options without an argument, and an element that is no option
  case h_1 | h_2 | h_3 | h_11 =>
    obtain rfl := Except.ok.inj h
    exact ⟨rfl, rfl, rfl⟩
  case h_12 => exact absurd h nofun
  -- the numbers that are checked
  case h_5 | h_7 =>
    have hset := (argAssert_bind (deref_bind h)).2
    obtain rfl := Except.ok.inj hset
    exact ⟨rfl, rfl, rfl⟩
  case h_4 | h_6 | h_8 | h_9 | h_10 =>
    have hset := deref_bind h
    obtain rfl := Except.ok.inj hset
    exact ⟨rfl, rfl, rfl⟩

theorem setOptions_sets (h : os.foldlM setOption args = .ok args') : Sets args args' os := by
  induction os generalizing args with
  | nil =>
      obtain rfl := Except.ok.inj h
      exact ⟨rfl, rfl, rfl⟩
  | cons o os ih =>
      rw [List.foldlM_cons] at h
      cases ho : setOption args o with
      | error e =>
          rw [ho] at h
          exact absurd h nofun
      | ok args₁ =>
          rw [ho] at h
          obtain ⟨h1, h2, h3⟩ := setOption_sets ho
          obtain ⟨g1, g2, g3⟩ := ih h
          exact ⟨g1.trans (congrArg (lastValue 's' · os) h1),
            g2.trans (congrArg (lastValue 't' · os) h2),
            g3.trans (congrArg (lastValue 'T' · os) h3)⟩

/-- A file that `parseArgs` accepts stays within its limits. -/
theorem ArgFile.inLimits_of_parseArgs (h : parseArgs posixlyCorrect file = .ok (args, argc)) :
    file.Readable ∧ file.tokens.length ≤ argMaxNum - 1 := by
  rw [parseArgs] at h
  by_cases hread : file.Readable
  · rw [argVector_eq hread] at h
    split at h
    · rename_i hlen
      exact ⟨hread, hlen⟩
    · cases h
  · rw [argVector, readArgStr_unreadable hread] at h
    cases h

/-- `parseArgs` returns what the options make of the defaults. -/
theorem parseArgs_options (h : parseArgs posixlyCorrect file = .ok (args, argc)) :
    (file.options posixlyCorrect).foldlM setOption (defaultArgs file) = .ok args ∧
      args.numSlots < maxSlots := by
  obtain ⟨hread, hlen⟩ := ArgFile.inLimits_of_parseArgs h
  rw [parseArgs_eq posixlyCorrect hread hlen] at h
  cases hset : (file.options posixlyCorrect).foldlM setOption (defaultArgs file) with
  | error e =>
      rw [hset] at h
      exact absurd h nofun
  | ok args₁ =>
      rw [hset] at h
      obtain ⟨hlt, heq⟩ := argAssert_bind h
      obtain ⟨rfl, -⟩ := Prod.mk.inj (Except.ok.inj heq)
      exact ⟨rfl, hlt⟩

/-- What `parseArgs` returns, in terms of the line. -/
theorem parseArgs_sets (h : parseArgs posixlyCorrect file = .ok (args, argc)) :
    Sets (defaultArgs file) args (file.options posixlyCorrect) ∧ args.numSlots < maxSlots :=
  (parseArgs_options h).imp_left setOptions_sets

/-- A line with a single option and its number. -/
theorem parseArgs_number {c : Char} {digits : PyText.Text} (hread : file.Readable)
    (htokens : file.tokens = [['-', c], digits]) (htakes : takesArg optstring c = some true)
    (hset : setOption (defaultArgs file) ⟨c, some digits⟩ = .ok args)
    (hslots : args.numSlots < maxSlots) : parseArgs posixlyCorrect file = .ok (args, 3) := by
  have hlen : file.tokens.length ≤ argMaxNum - 1 := htokens ▸ (by decide : 2 ≤ 63)
  have hdash : c ≠ '-' := by
    rintro rfl
    exact absurd htakes (by decide)
  have helem : element optstring [c] = ([], some c) := by
    simp only [element, htakes, if_true]
  rw [parseArgs_eq posixlyCorrect hread hlen, ArgFile.options, htokens,
    getopt_pending hdash helem, getopt, List.nil_append, List.foldlM_cons, hset]
  simp only [bind, Except.bind, List.foldlM_nil, pure, Except.pure, argAssert, if_pos hslots]
  rfl

/-! ## The slot -/

structure MemSlot.Initialised (S : MemSlot) : Prop where
  recursive : S.lock.recursive = true
  marks : ∀ b ∈ markedBins, (S.memBins b).lowWater = 100 ∧ (S.memBins b).highWater = 200

/-- Whatever the size of a request and the counter that is read, `getBuf` chooses a slot that
is in use and set up. -/
def UsableSlot (args : GRArgs) : Prop :=
  ∀ (ctx : Ctx) (usrSize : ℕ) (s : Heap), s.grArgs = args →
    ∃ i s', pickSlot ctx usrSize s = .ok i s' ∧ i < args.numSlots ∧ i < maxSlots ∧
      ∀ s₀ n s₁, s₀.grArgs = args → initBinsMeta s₀ = .ok n s₁ → (s₁.memSlots i).Initialised

theorem initSlot_initialised (S : MemSlot) : (initSlot S).Initialised := by
  refine ⟨rfl, fun b hb => ?_⟩
  simp only [initSlot, if_pos hb, and_self]

theorem initBinsMeta_initialised {i n : ℕ} {s₀ s₁ : Heap} (hi : i < s₀.grArgs.numSlots)
    (h : initBinsMeta s₀ = .ok n s₁) : (s₁.memSlots i).Initialised := by
  have hwp : wp initBinsMeta (fun _ s => (s.memSlots i).Initialised) (fun _ _ => True) s₀ := by
    refine wp_bind (wp_modify (wp_bind (wp_get (wp_pure ?_))))
    dsimp only
    rw [if_pos hi]
    exact initSlot_initialised _
  exact wp_ok hwp h

theorem pickSlot_lt {ctx : Ctx} {usrSize : ℕ} {s : Heap} (h : 0 < s.grArgs.numSlots) :
    ∃ i s', pickSlot ctx usrSize s = .ok i s' ∧ i < s.grArgs.numSlots := by
  have hwp : wp (pickSlot ctx usrSize) (fun i _ => i < s.grArgs.numSlots) (fun _ _ => False) s := by
    unfold pickSlot
    refine wp_ite (fun _ => wp_bind (wp_tick (wp_bind (wp_get ?_)))) fun _ => wp_pure h
    exact wp_ite (fun h0 => absurd h0 h.ne') fun _ => wp_pure (Nat.mod_lt _ h)
  exact wp_returns hwp

/-- The slot is one in use unless the last `-s` of the line asks for none. -/
theorem usable_slot (h : parseArgs posixlyCorrect file = .ok (args, argc)) :
    UsableSlot args ↔ lastValue 's' 1 (file.options posixlyCorrect) ≠ 0 := by
  obtain ⟨hsets, hmax⟩ := parseArgs_sets h
  rw [show 1 = (defaultArgs file).numSlots from rfl, ← hsets.numSlots]
  constructor
  · intro husable h0
    obtain ⟨i, -, -, hi, -⟩ := husable (ctxOf (Env.still args) 0) 0 { grArgs := args } rfl
    exact absurd hi (h0 ▸ Nat.not_lt_zero i)
  · rintro hne ctx usrSize s rfl
    obtain ⟨i, s', hrun, hi⟩ := pickSlot_lt (Nat.pos_of_ne_zero hne)
    refine ⟨i, s', hrun, hi, hi.trans hmax, fun s₀ n s₁ hargs hinit => ?_⟩
    exact initBinsMeta_initialised (hargs ▸ hi) hinit

theorem setOption_slots {digits : PyText.Text} {n : ℕ} (hn : sizeOfInt (atoi digits) = n) :
    setOption GRArgs.defaults ⟨'s', some digits⟩ = .ok { GRArgs.defaults with numSlots := n } :=
  hn ▸ rfl

/-- Four slots. -/
theorem usable_slot_four : ∃ args argc,
    parseArgs false (.content ("-s 4\n").toList (by decide)) = .ok (args, argc) ∧
      UsableSlot args := by
  have hset : setOption GRArgs.defaults ⟨'s', some ['4']⟩ = _ :=
    setOption_slots (by decide : sizeOfInt (atoi ['4']) = 4)
  have hparse : parseArgs false (.content ("-s 4\n").toList (by decide)) = _ :=
    parseArgs_number trivial (by decide) (by decide) hset (by decide)
  exact ⟨_, _, hparse, (usable_slot hparse).2 (by decide)⟩

/-- With `-s 0` the first small request divides by zero, and a large one goes to a slot that is
not in use. -/
theorem no_usable_slot : ∃ args argc,
    parseArgs false (.content ("-s 0\n").toList (by decide)) = .ok (args, argc) ∧
      pickSlot (ctxOf (Env.still args) 0) 1 { grArgs := args } =
        .error .divByZero { grArgs := args, clock := 1 } ∧
      ¬ UsableSlot args := by
  have hset : setOption GRArgs.defaults ⟨'s', some ['0']⟩ = _ :=
    setOption_slots (by decide : sizeOfInt (atoi ['0']) = 0)
  have hparse : parseArgs false (.content ("-s 0\n").toList (by decide)) = _ :=
    parseArgs_number trivial (by decide) (by decide) hset (by decide)
  refine ⟨_, _, hparse, rfl, fun husable => ?_⟩
  obtain ⟨i, -, -, hi, -⟩ := husable (ctxOf (Env.still GRArgs.defaults) 0) 1
    { grArgs := { GRArgs.defaults with numSlots := 0 } } rfl
  exact absurd hi (Nat.not_lt_zero i)

/-! ## The header -/

/-- From `s` to `s'` the words from `a` on are filled with the trace, and only bytes of the page at
`hdr` change. -/
structure OnPage (hdr a n : ℕ) (bt : List ℕ) (s s' : Heap) : Prop where
  words : ∀ j < n, word s'.mem (a + 8 * j) = bt.getD j 0 % 2 ^ 64
  page : ∀ x, x < hdr ∨ hdr + pageSize ≤ x → s'.mem x = s.mem x

/-- The header is smaller than a page, and the traces that `memalignInt` and `free` write into a
block lie on its first page. -/
structure HeaderFits (args : GRArgs) : Prop where
  size_lt : allocBtOff + 8 * (args.maxTrackFrames + args.maxTrackFreeFrames) < pageSize
  allocTrace : ∀ ctx bt alignment usrSize s p s',
    memalignInt ctx bt alignment usrSize s = .ok p s' → p ≠ 0 →
      ∃ s₀ hdr endBuf s₁,
        getBuf ctx bt (allocSizeOf s.grArgs alignment usrSize) usrSize s₀ = .ok (hdr, endBuf) s₁ ∧
        fillBlock bt alignment usrSize hdr endBuf s₁ = .ok p s' ∧
        (s₁.grArgs = args → ∃ s₂,
          putTrace bt (.guardRails 630) (hdr + allocBtOff) args.maxTrackFrames s₁ = .ok () s₂ ∧
          OnPage hdr (hdr + allocBtOff) args.maxTrackFrames bt s₁ s₂)
  freeTrace : ∀ ctx bt ptr s s', free ctx bt ptr s = .ok () s' → ptr ≠ 0 → s.grArgs = args →
    ∃ hdr s₁, hdr = word s.mem (sub64 ptr 8) ∧
      putTrace bt (.guardRails 742) (hdr + allocBtOff + 8 * args.maxTrackFrames)
        args.maxTrackFreeFrames s = .ok () s₁ ∧
      OnPage hdr (hdr + allocBtOff + 8 * args.maxTrackFrames) args.maxTrackFreeFrames bt s s₁ ∧
      putBuf ctx hdr s₁ = .ok () s'

theorem putTrace_onPage {bt : List ℕ} {site : Site} {hdr a n : ℕ} {s s' : Heap}
    (hle : hdr + allocBtOff ≤ a) (hend : a + 8 * n ≤ hdr + pageSize)
    (h : putTrace bt site a n s = .ok () s') : OnPage hdr a n bt s s' := by
  have hpage : pageSize = 4096 := rfl
  have hwp : wp (putTrace bt site a n) (fun _ s' => OnPage hdr a n bt s s') (fun _ _ => True) s := by
    refine wp_putTrace (by omega) (fun _ => ⟨fun j hj => word_traceMem hj, fun x hx => ?_⟩)
      fun _ => trivial
    exact traceMem_of_notMem (by omega)
  have hpage := wp_ok hwp h
  exact hpage

/-- No frames are asked for. -/
theorem putTrace_zero {bt : List ℕ} {site : Site} {a : ℕ} {s : Heap} :
    putTrace bt site a 0 s = .ok () s := by
  have hacc : Accessible s.pages a (8 * 0) := fun k hk => absurd hk (Nat.not_lt_zero k)
  have hwp : wp (putTrace bt site a 0) (fun _ s' => s' = s) (fun _ _ => False) s := by
    refine wp_putTrace (by decide) (fun _ => ?_) fun hn => hn hacc
    rw [traceMem_zero]
  obtain ⟨_, s', hrun, rfl⟩ := wp_returns hwp
  exact hrun

/-- `fillBlock` begins with the trace. -/
theorem fillBlock_putTrace {bt : List ℕ} {alignment usrSize buf endBuf p : ℕ} {s s' : Heap}
    (h : fillBlock bt alignment usrSize buf endBuf s = .ok p s') :
    ∃ s₁, putTrace bt (.guardRails 630) (buf + allocBtOff) s.grArgs.maxTrackFrames s = .ok () s₁ := by
  have hwp : wp (fillBlock bt alignment usrSize buf endBuf)
      (fun _ _ => ∃ s₁, putTrace bt (.guardRails 630) (buf + allocBtOff) s.grArgs.maxTrackFrames s =
        .ok () s₁) (fun _ _ => True) s := by
    unfold fillBlock
    refine wp_bind (wp_get ?_)
    extract_lets args rest
    refine wp_ite (fun _ => ?_) fun h0 => ?_
    · exact wp_bind (wp_run (fun _ s₁ hs₁ => wp_run (fun _ _ _ => ⟨s₁, hs₁⟩) fun _ _ _ => trivial)
        fun _ _ _ => trivial)
    · have hnone : args.maxTrackFrames = 0 := by omega
      refine wp_run (fun _ _ _ => ⟨s, ?_⟩) fun _ _ _ => trivial
      exact hnone ▸ putTrace_zero
  exact wp_ok hwp h

/-- An allocation fills in the block that it got. -/
theorem memalignInt_fillBlock {ctx : Ctx} {bt : List ℕ} {alignment usrSize p : ℕ} {s s' : Heap}
    (h : memalignInt ctx bt alignment usrSize s = .ok p s') (h0 : p ≠ 0) :
    ∃ s₀ hdr endBuf s₁,
      getBuf ctx bt (allocSizeOf s.grArgs alignment usrSize) usrSize s₀ = .ok (hdr, endBuf) s₁ ∧
      fillBlock bt alignment usrSize hdr endBuf s₁ = .ok p s' := by
  have hwp : wp (memalignInt ctx bt alignment usrSize) (fun p s' => p ≠ 0 → ∃ s₀ hdr endBuf s₁,
      getBuf ctx bt (allocSizeOf s.grArgs alignment usrSize) usrSize s₀ = .ok (hdr, endBuf) s₁ ∧
      fillBlock bt alignment usrSize hdr endBuf s₁ = .ok p s') (fun _ _ => True) s := by
    unfold memalignInt
    refine wp_bind (wp_get ?_)
    extract_lets allocSize done rest
    have hrest : ∀ s₀, wp (rest ()) (fun p s' => p ≠ 0 → ∃ s₀ hdr endBuf s₁,
        getBuf ctx bt allocSize usrSize s₀ = .ok (hdr, endBuf) s₁ ∧
        fillBlock bt alignment usrSize hdr endBuf s₁ = .ok p s') (fun _ _ => True) s₀ := by
      refine fun s₀ => wp_bind (wp_run (fun buf s₁ hget => ?_) fun _ _ _ => trivial)
      obtain ⟨hdr, endBuf⟩ := buf
      refine wp_ite (fun _ => wp_bind (wp_get ?_)) fun _ => wp_run (fun p s' hfill _ => ?_)
        fun _ _ _ => trivial
      · exact wp_ite (fun _ => wp_bind (wp_throw trivial)) fun _ => wp_pure fun h => absurd rfl h
      · exact ⟨s₀, hdr, endBuf, s₁, hget, hfill⟩
    refine wp_bind (wp_get (wp_ite (fun _ => ?_) fun _ => hrest s))
    exact wp_bind (wp_run (fun _ s₀ _ => hrest s₀) fun _ _ _ => trivial)
  exact wp_ok hwp h h0

theorem checkSlop_reads {hdr : ℕ} {s : Heap} :
    wp (checkSlop hdr) (fun _ s₁ => s₁ = s) (fun _ _ => True) s := by
  have hcmp : ∀ {a n : ℕ} {arr : ℕ → UInt8},
      wp (memcmp a arr n) (fun _ s₁ => s₁ = s) (fun _ _ => True) s :=
    wp_bind (wp_touch (fun _ => wp_bind (wp_get (wp_pure rfl))) fun _ => trivial)
  unfold checkSlop
  refine wp_bind (wp_load64_eq (fun _ mis _ => ?_) fun _ => trivial)
  refine wp_ite (fun _ => ?_) fun _ => wp_pure rfl
  refine wp_bind (wp_load64_eq (fun _ usrData _ => ?_) fun _ => trivial)
  refine wp_bind (wp_load64_eq (fun _ usrDataSize _ => ?_) fun _ => trivial)
  refine wp_bind (wp_get (wp_bind_of hcmp ?_))
  rintro same _ rfl
  exact wp_grAssert (fun _ => rfl) fun _ => trivial

/-- The checks of `free` come first, then the trace, and then the block is given back. -/
theorem free_putTrace {ctx : Ctx} {bt : List ℕ} {ptr : ℕ} {s s' : Heap}
    (h : free ctx bt ptr s = .ok () s') (h0 : ptr ≠ 0) : ∃ hdr s₁, hdr = word s.mem (sub64 ptr 8) ∧
      putTrace bt (.guardRails 742) (hdr + allocBtOff + 8 * s.grArgs.maxTrackFrames)
        s.grArgs.maxTrackFreeFrames s = .ok () s₁ ∧
      putBuf ctx hdr s₁ = .ok () s' := by
  have hwp : wp (free ctx bt ptr) (fun _ s' => ∃ hdr s₁, hdr = word s.mem (sub64 ptr 8) ∧
      putTrace bt (.guardRails 742) (hdr + allocBtOff + 8 * s.grArgs.maxTrackFrames)
        s.grArgs.maxTrackFreeFrames s = .ok () s₁ ∧
      putBuf ctx hdr s₁ = .ok () s') (fun _ _ => True) s := by
    unfold free
    refine wp_ite (fun hnull => absurd hnull h0) fun _ => ?_
    refine wp_bind (wp_load64_eq (fun _ hdr hhdr => ?_) fun _ => trivial)
    refine wp_bind (wp_load64_eq (fun _ magic _ => ?_) fun _ => trivial)
    refine wp_bind (wp_grAssert (fun _ => wp_bind_of checkSlop_reads ?_) fun _ => trivial)
    rintro _ _ rfl
    refine wp_bind (wp_get ?_)
    extract_lets args rest
    refine wp_ite (fun _ => ?_) fun hnone => ?_
    · exact wp_bind (wp_run (fun _ s₁ hs₁ => wp_run (fun _ _ hput => ⟨hdr, s₁, hhdr, hs₁, hput⟩)
        fun _ _ _ => trivial) fun _ _ _ => trivial)
    · have hzero : args.maxTrackFreeFrames = 0 := by omega
      refine wp_run (fun _ _ hput => ⟨hdr, _, hhdr, ?_, hput⟩) fun _ _ _ => trivial
      exact hzero ▸ putTrace_zero
  have hrun := wp_ok hwp h
  exact hrun

/-- The header fits when at most 503 frames are asked for. -/
theorem header_fits (h : parseArgs posixlyCorrect file = .ok (args, argc)) :
    HeaderFits args ↔
      lastValue 't' 0 (file.options posixlyCorrect) +
        lastValue 'T' 0 (file.options posixlyCorrect) ≤ 503 := by
  obtain ⟨hsets, -⟩ := parseArgs_sets h
  have ht : args.maxTrackFrames = lastValue 't' 0 (file.options posixlyCorrect) :=
    hsets.maxTrackFrames
  have hT : args.maxTrackFreeFrames = lastValue 'T' 0 (file.options posixlyCorrect) :=
    hsets.maxTrackFreeFrames
  rw [← ht, ← hT]
  have hsize : allocBtOff + 8 * (args.maxTrackFrames + args.maxTrackFreeFrames) < pageSize ↔
      args.maxTrackFrames + args.maxTrackFreeFrames ≤ 503 := by
    change 64 + _ < 4096 ↔ _
    omega
  refine ⟨fun hfits => hsize.1 hfits.size_lt, fun hle => ?_⟩
  have hlt := hsize.2 hle
  refine ⟨hlt, fun ctx bt alignment usrSize s p s' hrun hp => ?_,
    fun ctx bt ptr s s' hrun hptr hargs => ?_⟩
  · obtain ⟨s₀, hdr, endBuf, s₁, hget, hfill⟩ := memalignInt_fillBlock hrun hp
    refine ⟨s₀, hdr, endBuf, s₁, hget, hfill, fun hargs => ?_⟩
    obtain ⟨s₂, hput⟩ := fillBlock_putTrace hfill
    rw [hargs] at hput
    exact ⟨s₂, hput, putTrace_onPage le_rfl (by omega) hput⟩
  · obtain ⟨hdr, s₁, hhdr, hput, hrest⟩ := free_putTrace hrun hptr
    rw [hargs] at hput
    exact ⟨hdr, s₁, hhdr, hput, putTrace_onPage (by omega) (by omega) hput, hrest⟩

theorem setOption_frames {digits : PyText.Text} {n : ℕ} (hn : sizeOfInt (atoi digits) = n) :
    setOption GRArgs.defaults ⟨'t', some digits⟩ =
      .ok { GRArgs.defaults with maxTrackFrames := n } :=
  hn ▸ rfl

theorem header_fits_thirty : ∃ args argc,
    parseArgs false (.content ("-t 30\n").toList (by decide)) = .ok (args, argc) ∧
      HeaderFits args := by
  have hset : setOption GRArgs.defaults ⟨'t', some ['3', '0']⟩ = _ :=
    setOption_frames (by decide : sizeOfInt (atoi ['3', '0']) = 30)
  have hparse : parseArgs false (.content ("-t 30\n").toList (by decide)) = _ :=
    parseArgs_number trivial (by decide) (by decide) hset (by decide)
  exact ⟨_, _, hparse, (header_fits hparse).2 (by decide)⟩

/-- A thousand frames pass the check, which is made before the options are known. -/
theorem header_overflows : ∃ args argc s,
    parseArgs false (.content ("-t 1000\n").toList (by decide)) = .ok (args, argc) ∧
      boot (Env.still args) 1 Heap.static = .ok () s ∧ ¬ HeaderFits args := by
  have hset : setOption GRArgs.defaults ⟨'t', some ['1', '0', '0', '0']⟩ = _ :=
    setOption_frames (by decide : sizeOfInt (atoi ['1', '0', '0', '0']) = 1000)
  have hparse : parseArgs false (.content ("-t 1000\n").toList (by decide)) = _ :=
    parseArgs_number trivial (by decide) (by decide) hset (by decide)
  have hargs : { GRArgs.defaults with maxTrackFrames := 1000 }.Ok := ⟨by decide, by decide, by decide⟩
  obtain ⟨s, hboot, -⟩ := boot_completes (Env.still_ok hargs) (Env.still_granting rfl) 1
  exact ⟨_, _, s, hparse, hboot, fun hfits => absurd hfits.size_lt (by decide)⟩

end GuardRails
