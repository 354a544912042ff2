import GuardRails.Result.Configuration
import GuardRails.Result.HighWater
import GuardRails.Spec.Plunge

/-!
# Nested dumps end

A dump allocates, and with `-D` what it allocates may start the next dump. Where every dump
requests less than the interval, only so many begin in one call, however deep they may nest.
There is no such bound with an interval of zero, which is what `-D 0` means, and neither with
every multiple of `2 ^ 44`, whose interval wraps to zero.
-/

namespace GuardRails

open CommandLine StateHoare

variable {env : Env} {st : Proc} {posixlyCorrect : Bool} {file : ArgFile} {args args' : GRArgs}
  {o : Opt} {os : List Opt} {bt : List ℕ} {argc depth a b k n I : ℕ}

/-! ## The interval -/

/-- An interval that `-D` can set: whole mebibytes, or the default. -/
def Mebibytes (I : ℕ) : Prop := I < 2 ^ 64 ∧ (2 ^ 20 ∣ I ∨ I = 2 ^ 64 - 1)

theorem Mebibytes.le (h : Mebibytes I) (h0 : I ≠ 0) : 2 ^ 20 ≤ I :=
  h.2.elim (fun hdvd => Nat.le_of_dvd (Nat.pos_of_ne_zero h0) hdvd) fun h => h ▸ (by decide : 2 ^ 20 ≤ 2 ^ 64 - 1)

theorem setOption_interval (h : setOption args o = .ok args')
    (hI : Mebibytes args.slotHWMDumpIntervalBytes) : Mebibytes args'.slotHWMDumpIntervalBytes := by
  obtain ⟨c, optarg⟩ := o
  unfold setOption at h
  dsimp only at h
  split at h
  case h_1 | h_2 | h_3 | h_11 =>
    obtain rfl := Except.ok.inj h
    exact hI
  case h_12 => exact absurd h nofun
  case h_5 | h_7 =>
    have hset := (argAssert_bind (deref_bind h)).2
    obtain rfl := Except.ok.inj hset
    exact hI
  case h_6 | h_8 | h_9 | h_10 =>
    have hset := deref_bind h
    obtain rfl := Except.ok.inj hset
    exact hI
  -- `-D`
  case h_4 =>
    have hset := deref_bind h
    obtain rfl := Except.ok.inj hset
    refine ⟨Nat.mod_lt _ (by norm_num), .inl ?_⟩
    refine (Nat.dvd_mod_iff (by norm_num : 2 ^ 20 ∣ 2 ^ 64)).2 ?_
    exact ⟨strtoull (optarg.getD []), by ring⟩

theorem setOptions_interval (h : os.foldlM setOption args = .ok args')
    (hI : Mebibytes args.slotHWMDumpIntervalBytes) : Mebibytes args'.slotHWMDumpIntervalBytes := by
  induction os generalizing args with
  | nil =>
      obtain rfl := Except.ok.inj h
      exact hI
  | cons o os ih =>
      rw [List.foldlM_cons] at h
      cases ho : setOption args o with
      | error e =>
          rw [ho] at h
          exact absurd h nofun
      | ok args₁ =>
          rw [ho] at h
          exact ih h (setOption_interval ho hI)

/-- Whatever the line says. -/
theorem parseArgs_interval (h : parseArgs posixlyCorrect file = .ok (args, argc)) :
    Mebibytes args.slotHWMDumpIntervalBytes := by
  refine setOptions_interval (parseArgs_options h).1 ⟨?_, .inr rfl⟩
  change 2 ^ 64 - 1 < 2 ^ 64
  norm_num

/-! ## The bound -/

/-- Unless the limit of `-M` is passed, few dumps begin between `s` and `s'` if each of them
requests less than a mebibyte. -/
def DumpsEnd (S k : ℕ) (s s' : Heap) : Prop :=
  ∃ evs, s'.log = evs ++ s.log ∧ (.limitReached ∉ evs → ∀ B, Modest B evs →
    begun evs * (2 ^ 20 + 1 - B) ≤ (S + k + 2) * (2 ^ 20 + 1))

theorem dumpsEnd_of_funded {s s' : Heap} (hI : 2 ^ 20 ≤ I)
    (h : Since s.log (fun evs => outside evs ≤ k + 1 ∧ Funded n I s.log 1 evs) s'.log) :
    DumpsEnd n k s s' := by
  obtain ⟨evs, hlog, h⟩ := h
  refine ⟨evs, hlog, fun hlimit B hB => ?_⟩
  obtain ⟨hout, hfunded⟩ := h.resolve_left hlimit
  exact hfunded.begun_le hout hB hI

/-- However deep `getBuf`, `onExitHelper` and the allocations of stdio may call each other, with
an interval other than zero a request begins so few dumps. -/
theorem nested_dumps_end (hargs : parseArgs posixlyCorrect file = .ok (env.args, argc))
    (hI : env.args.slotHWMDumpIntervalBytes ≠ 0) (henv : env.Ok) (hcalm : env.Calm)
    (hfits : env.StdioFits) (hk : ∀ t, requests (env.fmtIO t) ≤ k) (hr : Reachable env depth st)
    (hn : elmHdrSz env.args + 8 + n + 16 < 2 ^ 64) (depth' : ℕ) (bt : List ℕ) :
    wp ((Call.malloc n).exec (ctxOf env depth') bt)
      (fun _ s' => DumpsEnd env.args.numSlots k st.heap s')
      (fun _ s' => DumpsEnd env.args.numSlots k st.heap s') st.heap := by
  obtain ⟨hlt, hmeb⟩ := parseArgs_interval hargs
  have hle := Mebibytes.le ⟨hlt, hmeb⟩ hI
  have hm := hr.marked henv hcalm hlt
  have hstart : Afloat (.pace env st.heap.log k) 0 0 .no st.heap := (hr.inv henv).afloat
    { stocked := hm.stocked
      held := fun h => absurd rfl h
      watch := ⟨[], rfl, .inr ⟨rfl, le_rfl, .nil⟩⟩
      watered := hm.watered }
  have hroom : Headroom (.pace env st.heap.log k) 0 0 .no :=
    ⟨Nat.le_add_left _ k, fun _ t => (Nat.zero_add _).trans_le ((hk t).trans (Nat.le_succ k))⟩
  have hsnug : Snug (.pace env st.heap.log k) (classOf env.args (if n > 8 then 16 else 8) n) n :=
    .inr (le_pow_classOf (by split <;> simp <;> omega))
  have hspec : wp ((Call.malloc n).exec (ctxOf env depth') bt) _ _ st.heap :=
    memalignInt_afloat (ctxOf_ok env depth') (ctxOf_waters hcalm hlt (.inr hfits) depth') hcalm hlt hroom
      hstart hsnug
  refine wp_mono hspec (fun _ s' hmarked => ?_) fun _ s' hE => dumpsEnd_of_funded hle hE
  exact dumpsEnd_of_funded hle ((Watch.pace env st.heap.log k).halt hroom.request hmarked.watch)

theorem setOption_dump {digits : PyText.Text} (hn : strtoull digits * 1024 * 1024 % 2 ^ 64 = I) :
    setOption GRArgs.defaults ⟨'D', some digits⟩ =
      .ok { GRArgs.defaults with slotHWMDumpIntervalBytes := I } := by
  subst hn
  rfl

/-- A dump for two megabytes after half a megabyte. -/
theorem nested_dumps_end_crossed : ∃ st st', Reachable (Env.still .mebibyte) 1 st ∧
    .dumpBegun ∉ st.heap.log ∧ Step (Env.still .mebibyte) 1 st (.malloc 2000000) st' ∧
    .dumpBegun ∈ st'.heap.log ∧ DumpsEnd 1 0 st.heap st'.heap := by
  obtain ⟨st₀, st₁, st₂, hr, hstep₁, hno, hstep₂, hbegun⟩ := exists_crossing
  have hset : setOption GRArgs.defaults ⟨'D', some ['1']⟩ = .ok GRArgs.mebibyte :=
    setOption_dump (by decide)
  have hparse : parseArgs false (.content ("-D 1\n").toList (by decide)) = .ok (GRArgs.mebibyte, 3) :=
    parseArgs_number trivial (by decide) (by decide) hset (by decide)
  have hr₁ := hr.step hstep₁
  refine ⟨st₁, st₂, hr₁, hno, hstep₂, hbegun, ?_⟩
  have hends : ∀ bt, wp ((Call.malloc 2000000).exec (ctxOf (Env.still .mebibyte) 1) bt) _ _ st₁.heap :=
    nested_dumps_end hparse (by decide) Env.still_mebibyte (fun _ _ => rfl)
      (fun _ _ _ _ h => absurd h List.not_mem_nil) (fun _ => le_rfl) hr₁ (by decide) 1
  cases hstep₂ with
  | @mk bt p s' hok hexec =>
      have hrun := wp_ok (hends bt) hexec
      exact hrun

/-! ## No bound -/

/-- Each dump requests a buffer of 128 KiB for its file. -/
def Env.buffering (args : GRArgs) : Env :=
  { Env.still args with fileIO := fun _ => [.alloc [] 16 (2 ^ 17), .free [] 0] }

/-- What `parseArgs` finds in the line `-D 0`. -/
def GRArgs.eager : GRArgs := { GRArgs.defaults with slotHWMDumpIntervalBytes := 0 }

theorem Env.buffering_ok : (Env.buffering .eager).Ok where
  args := ⟨by decide, by decide, by decide⟩
  stdio _ c hc := by
    have hc : c = .alloc [] 16 (2 ^ 17) ∨ c = .free [] 0 := by
      simpa [Env.buffering, Env.still] using hc
    rcases hc with rfl | rfl
    · exact ⟨by decide, by decide⟩
    · trivial
  signals _ _ _ := rfl

/-- Where such a buffer takes more than the interval, the dumps nest as deep as they may. -/
theorem malloc_plunges {P : MemPool} {s : Heap} (hr : Reachable env depth ⟨s, []⟩) (henv : env.Ok)
    (hu : env.Granting) (hdry : Proc.Dry env P ⟨s, []⟩) (hfirst : highWater 0 s.log = (ledger s.log).bytes 0)
    (hI : env.args.slotHWMDumpIntervalBytes < n) (hb : b = classOf env.args 16 n)
    (hb' : b < 40) (hmark : b ∉ markedBins) (hfit : n ≤ 2 ^ b) (h8 : 8 < n)
    (hbuf : env.Buffers [] 16 n) (hroom : (k + 1) * (2 ^ b + guardSize) ≤ P.remainingSizeBytes) :
    ∃ s' evs, (Call.malloc n).exec (ctxOf env k) [] s = .error .hang s' ∧ s'.log = evs ++ s.log ∧
      Fallen n (k + 1) evs := by
  have hI' := hI.trans (size_lt_of_fit hb' hfit)
  have hfloat := hdry.idle.inv.afloat (hr.marked henv hu.calm hI')
  have hbrim : Brimming b (k + 1) s :=
    { pool := ⟨P, hdry.pools, hroom⟩
      unmarked := (hdry.booted.highWater b).trans (if_neg hmark)
      unlocked := hdry.idle.inv.gMutex
      brim := hfirst }
  have hW : (ctxOf env k).Waters (.idle env) := ctxOf_waters hu.calm hI' (.inl fun _ => trivial) k
  have hrun : wp (memalignInt (ctxOf env k) [] 16 n) _ _ s :=
    memalignInt_plunges (ctxOf_ok env k) hW hu hI hb hb' hfit hfloat hbrim
      fun hwm s₁ hout hbrim₁ ⟨hdr, new, hlog, hnew⟩ => by
        have hfall := (Poised.nil.append hnew).counted (i := 0) (q := ⟨hdr, n, []⟩) (B := n) le_rfl
        rw [List.append_nil] at hfall
        exact onExitHelper_plunges hu hI hbuf hb hb' hfit hout hbrim₁ hlog hfall
  have hexec : (Call.malloc n).exec (ctxOf env k) [] s = memalignInt (ctxOf env k) [] 16 n s := by
    change memalignInt _ _ (if n > 8 then 16 else 8) n s = _
    rw [if_pos h8]
  rw [hexec]
  cases hm : memalignInt (ctxOf env k) [] 16 n s with
  | ok p s' => exact (wp_ok hrun hm).elim
  | error e s' =>
      obtain ⟨rfl, evs, hlog, hfall⟩ := wp_error hrun hm
      rw [Nat.zero_add] at hfall
      exact ⟨s', evs, rfl, hlog, hfall⟩

/-- With `-D 0` a request starts as many dumps as there may be, each of which requests 128 KiB. -/
theorem nested_dumps_plunge : ∃ argc st,
    parseArgs false (.content ("-D 0\n").toList (by decide)) = .ok ((Env.buffering .eager).args, argc) ∧
    Reachable (.buffering .eager) 1 st ∧
    (∀ k ≤ 200, ∃ s' evs, (Call.malloc (2 ^ 17)).exec (ctxOf (.buffering .eager) k) [] st.heap =
      .error .hang s' ∧ s'.log = evs ++ st.heap.log ∧ begun evs = k + 1 ∧ Modest (2 ^ 17) evs ∧
      .limitReached ∉ evs) ∧
    ¬ ∀ depth', wp ((Call.malloc (2 ^ 17)).exec (ctxOf (.buffering .eager) depth') [])
      (fun _ s' => DumpsEnd 1 0 st.heap s') (fun _ s' => DumpsEnd 1 0 st.heap s') st.heap := by
  have henv := Env.buffering_ok
  have hu : (Env.buffering .eager).Granting := ⟨fun _ _ => rfl, fun _ => rfl, fun _ => rfl, fun _ => rfl, rfl⟩
  have hset : setOption GRArgs.defaults ⟨'D', some ['0']⟩ = .ok GRArgs.eager := setOption_dump (by decide)
  have hparse : parseArgs false (.content ("-D 0\n").toList (by decide)) = .ok (GRArgs.eager, 3) :=
    parseArgs_number trivial (by decide) (by decide) hset (by decide)
  obtain ⟨s₀, P, hboot, hdry, hroom⟩ := boot_dry henv hu 1
  have hr : Reachable (.buffering .eager) 1 ⟨s₀, []⟩ := ⟨s₀, [], hboot, .refl⟩
  have hfirst : highWater 0 s₀.log = (ledger s₀.log).bytes 0 :=
    (boot_requests hboot 0).1.trans (boot_requests hboot 0).2.symm
  have hplunge : ∀ k ≤ 200, ∃ s' evs, (Call.malloc (2 ^ 17)).exec (ctxOf (.buffering .eager) k) [] s₀ =
      .error .hang s' ∧ s'.log = evs ++ s₀.log ∧ Fallen (2 ^ 17) (k + 1) evs := by
    intro k hk
    refine malloc_plunges (b := 18) hr henv hu hdry hfirst (by decide) (by decide) (by decide) (by decide)
      (by decide) (by decide) (fun _ => ⟨_, rfl⟩) (le_trans ?_ hroom)
    exact (Nat.mul_le_mul_right _ (Nat.succ_le_succ hk)).trans (by decide)
  refine ⟨3, _, hparse, hr, fun k hk => ?_, fun hends => ?_⟩
  · obtain ⟨s', evs, hrun, hlog, hfall⟩ := hplunge k hk
    exact ⟨s', evs, hrun, hlog, hfall.begun, hfall.modest, hfall.limit⟩
  · obtain ⟨s', evs, hrun, hlog, hfall⟩ := hplunge 3 (by decide)
    obtain ⟨evs', hlog', hfew⟩ := wp_error (hends 3) hrun
    obtain rfl := List.append_cancel_right (hlog.symm.trans hlog')
    have hle := hfew hfall.limit _ hfall.modest
    rw [hfall.begun] at hle
    exact absurd hle (by decide)

end GuardRails
