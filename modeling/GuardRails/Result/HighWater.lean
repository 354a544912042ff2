import GuardRails.Spec.Quiet

/-!
# Dumps at high-water marks

With `-D` a slot starts a dump when its high-water mark has grown by more than the interval
since its latest such dump; it has no dump for growth by the interval itself.
-/

namespace GuardRails

open StateHoare

variable {env : Env} {depth : ℕ} {st : Proc} {log l : List Event} {i I : ℕ} {q : Request}

/-- An allocation takes the mark of its slot to just `I` bytes above that at the latest dump. -/
def Tight (I : ℕ) (log : List Event) : Prop :=
  ∃ i q l, .counted i q :: l <:+ log ∧
    max (highWater i l) ((ledger l).bytes i + q.size) = dumpMark i l + I

/-- Each allocation that takes the mark of its slot to at least `I` bytes above that at the
latest dump is followed by a dump, and no other is. -/
def DumpsAt (I : ℕ) (log : List Event) : Prop :=
  ∀ e i q l, e :: .counted i q :: l <:+ log →
    (e = .dumpBegun ↔ dumpMark i l + I ≤ highWater i (.counted i q :: l))

/-- An allocation that is not the latest event has an answer. -/
theorem Rested.next (h : Rested log) (hsuf : .counted i q :: l <:+ log) :
    ∃ e, e :: .counted i q :: l <:+ log := by
  obtain ⟨evs, rfl⟩ := hsuf
  rcases evs.eq_nil_or_concat with rfl | ⟨evs, e, rfl⟩
  · exact absurd rfl (h i q l)
  · exact ⟨e, evs, by simp⟩

theorem Triggered.dumpsAt_iff (h : Triggered I log) (hr : Rested log) : DumpsAt I log ↔ ¬ Tight I log := by
  constructor
  · rintro hd ⟨i, q, l, hsuf, heq⟩
    obtain ⟨e, he⟩ := hr.next hsuf
    rw [← highWater_counted] at heq
    have hmark := (h e i q l he).symm.trans (hd e i q l he)
    omega
  · intro hn e i q l he
    rw [h e i q l he]
    have hne : highWater i (.counted i q :: l) ≠ dumpMark i l + I := by
      rw [highWater_counted]
      exact fun heq => hn ⟨i, q, l, (List.suffix_cons _ _).trans he, heq⟩
    omega

/-- After every run of allocations and frees, `hwmUsrBytes` is the greatest total of live bytes
that the slot has had, and the dumps are at a growth of at least the interval just when no growth
was of the interval itself. -/
theorem high_water_dumps (henv : env.Ok) (hcalm : env.Calm)
    (hI : env.args.slotHWMDumpIntervalBytes < 2 ^ 64) (hr : Reachable env depth st) :
    (∀ i, IsGreatest {n | ∃ l, l <:+ st.heap.log ∧ (ledger l).bytes i = n}
      (st.heap.memSlots i).hwmUsrBytes) ∧
    (DumpsAt env.args.slotHWMDumpIntervalBytes st.heap.log ↔
      ¬ Tight env.args.slotHWMDumpIntervalBytes st.heap.log) := by
  have hw := (hr.marked henv hcalm hI).watered
  refine ⟨fun i => ?_, hw.triggered.dumpsAt_iff hw.rested⟩
  have hhwm : (st.heap.memSlots i).hwmUsrBytes = highWater i st.heap.log := congrArg Prod.fst (hw.marks i)
  rw [hhwm]
  exact isGreatest_highWater i st.heap.log

/-- What `parseArgs` finds in the line `-D 1`. -/
def GRArgs.mebibyte : GRArgs := { GRArgs.defaults with slotHWMDumpIntervalBytes := 2 ^ 20 }

theorem Env.still_mebibyte : (Env.still .mebibyte).Ok :=
  Env.still_ok ⟨by decide, by decide, by decide⟩

/-! ## Growth by the interval itself -/

/-- The latest rise of a mark is at an allocation. -/
theorem exists_counted (h : 0 < highWater i log) : ∃ q l, .counted i q :: l <:+ log ∧
    highWater i (.counted i q :: l) = highWater i log := by
  induction log with
  | nil => exact absurd h (lt_irrefl 0)
  | cons e log ih =>
      by_cases heq : highWater i (e :: log) = highWater i log
      · rw [heq] at h ⊢
        obtain ⟨q, l, hsuf, hq⟩ := ih h
        exact ⟨q, l, hsuf.trans (List.suffix_cons e log), hq⟩
      · by_cases he : ∃ q, e = .counted i q
        · obtain ⟨q, rfl⟩ := he
          exact ⟨q, log, List.suffix_rfl, rfl⟩
        · refine absurd ?_ heq
          cases e with
          | counted j q => exact highWater_counted_ne fun hj => he ⟨q, hj ▸ rfl⟩
          | _ => exact highWater_cons (fun _ _ h => Event.noConfusion h) i

theorem dumpMark_eq_zero (h : .dumpBegun ∉ log) (i : ℕ) : dumpMark i log = 0 := by
  induction log with
  | nil => rfl
  | cons e log ih =>
      rw [List.mem_cons, not_or] at h
      rw [dumpMark_cons (.inl (Ne.symm h.1)), ih h.2]

/-- The first request of at most the interval starts no dump. -/
theorem Afloat.unlimited {ctx : Ctx} {bt hs : List ℕ} {b n : ℕ} {p : Supply} {s : Heap}
    (h : Afloat (.idle env) 0 1 .no s) (hctx : ctx.Ok env) (hW : ctx.Waters (.idle env))
    (hu : env.Granting) (hI : env.args.slotHWMDumpIntervalBytes < 2 ^ 64)
    (hmax : env.args.maxRequestedBytes = 2 ^ 64 - 1) (hb : 12 ≤ b) (hb' : b < 40) (hfit : n ≤ 2 ^ b)
    (hn : n ≤ env.args.slotHWMDumpIntervalBytes) (hfirst : highWater 0 s.log = 0)
    (hg : s.gMutex.locked = false) (hdraws : s.Draws env b n hs p) : Unlimited ctx bt b n s := by
  have hclaims : wp (claimBuf ctx bt b n) _ _ s :=
    claimBuf_draws hctx hu h.rep h.ready hg hb hb' hdraws
  refine wp_mono (wp_and (claimBuf_afloat hctx hW hu.calm Watch.headroom_idle h hb) hclaims) ?_
    fun _ _ _ => trivial
  rintro _ s₁ ⟨hclaim, -, hdr, rfl, -⟩ -
  obtain ⟨evs, hflat, hraised⟩ := (hclaim.2 hfit).raised
  have hrep := (hclaim.2 hfit).rep
  have hlow : ¬ dumpMark 0 (evs ++ s.log) + env.args.slotHWMDumpIntervalBytes <
      highWater 0 (.counted 0 ⟨hdr, n, bt⟩ :: (evs ++ s.log)) := by
    have hhigh : highWater 0 (evs ++ s.log) = 0 := (highWater_append hflat 0 s.log).trans hfirst
    have hbytes := bytes_le_highWater 0 (evs ++ s.log)
    rw [highWater_counted]
    dsimp only
    omega
  obtain ⟨hreq, -⟩ := hrep.shape.counts.bytes_lt 0
  unfold Heap.Within
  rw [hrep.shape.args_eq, hmax]
  exact ⟨not_lt.1 fun hgt => hlow ((hraised.trigger hI).1 hgt), by omega⟩

theorem Ledger.Sound.size_le_bytes {L : Ledger} {a : Alloc} (hL : L.Sound) (ha : L.Live a) :
    ∃ i, a.size ≤ L.bytes i := by
  obtain ⟨B, hB, hlive, ho, -⟩ := hL.live_inUse ha
  obtain ⟨_, q, ho', hq, hsize, -⟩ := (hL.block_ok a.hdr B hB).live_owner hlive
  obtain rfl := Option.some.inj (ho.symm.trans ho')
  have hhdr := (hL.block_ok a.hdr B hB).request_hdr q hq
  have hmem : q ∈ L.counted B.slot := (hL.mem_counted B.slot q).2 ⟨B, hhdr ▸ hB, rfl, hq⟩
  exact ⟨B.slot, hsize ▸ List.single_le_sum (fun _ _ => Nat.zero_le _) _ (List.mem_map_of_mem hmem)⟩

/-- A history without dumps is not that of a slot whose mark has reached the interval. -/
theorem not_dumpsAt (hr : Rested log) (hd : .dumpBegun ∉ log) (hI : 0 < I) (hI' : I ≤ highWater i log) :
    ¬ DumpsAt I log := by
  intro hdumps
  obtain ⟨q, l, hsuf, hhigh⟩ := exists_counted (hI.trans_le hI')
  obtain ⟨e, he⟩ := hr.next hsuf
  have hmark : dumpMark i l = 0 := dumpMark_eq_zero
    (fun h => hd (hsuf.subset (List.mem_cons_of_mem _ h))) i
  have hbegun : e = .dumpBegun := (hdumps e i q l he).2 (by omega)
  exact hd (he.subset (hbegun ▸ List.mem_cons_self))

/-- The constructor counts no request. -/
theorem boot_requests (h : boot env depth Heap.static = .ok () s) (i : ℕ) :
    highWater i s.log = 0 ∧ (ledger s.log).bytes i = 0 := by
  have hcalm : (ctxOf env.unsignalled depth).env.Calm :=
    (ctxOf_ok _ depth).env_eq ▸ env.unsignalled_calm
  obtain ⟨evs, hlog, hflat⟩ := (wp_ok (grInitialize_level hcalm) h).log
  rw [hlog]
  exact ⟨highWater_append hflat i [], bytes_append hflat i []⟩

/-- With `-D 1` a first allocation of one mebibyte takes the mark to the interval, and no dump
follows. -/
theorem high_water_dump_missed : ∃ st, Reachable (Env.still .mebibyte) 1 st ∧
    ¬ DumpsAt (2 ^ 20) st.heap.log := by
  have henv := Env.still_mebibyte
  have hu : (Env.still .mebibyte).Granting := Env.still_granting rfl
  have hW : (ctxOf (Env.still .mebibyte) 1).Waters (.idle _) :=
    ctxOf_waters hu.calm (by decide) (.inl fun _ => trivial) 1
  obtain ⟨s₀, P, hboot, hdry, hroom⟩ := boot_dry henv hu 1
  have hr₀ : Reachable (Env.still .mebibyte) 1 ⟨s₀, []⟩ := ⟨s₀, [], hboot, .refl⟩
  have hfloat := hdry.idle.inv.afloat (hr₀.marked henv hu.calm (by decide))
  have hfirst : highWater 0 s₀.log = 0 := (boot_requests hboot 0).1
  obtain ⟨hs, p, -, hdraws, -⟩ : ∃ hs p Q, s₀.Draws (Env.still .mebibyte) 21 (2 ^ 20) hs p ∧ _ :=
    hdry.drawsOne hu (by decide) (le_trans (by decide) hroom)
  have hclass : 21 = classOf (Env.still .mebibyte).args 16 (2 ^ 20) := by decide
  have hfits : (Call.malloc (2 ^ 20)).Fits (Env.still .mebibyte).args :=
    .of_size rfl ⟨by decide, by decide⟩
  have hin : Unlimited (ctxOf (Env.still .mebibyte) 1) [] 21 (2 ^ 20) s₀ :=
    hfloat.unlimited (ctxOf_ok _ 1) hW hu (by decide) rfl (by decide) (by decide) (by decide) le_rfl hfirst
      hdry.idle.inv.gMutex hdraws
  obtain ⟨ptr, s, hstep, hidle, -⟩ := hdry.idle.draws 1 hu (by decide) hfits hclass hin hdraws
  have hr := hr₀.step hstep
  obtain ⟨a, -, hsize, ha⟩ := hidle.inv.held (ptr, 2 ^ 20) List.mem_cons_self
  obtain ⟨i, hi⟩ := hidle.inv.rep.log_ok.lawful.sound.size_le_bytes ha
  refine ⟨_, hr, not_dumpsAt (i := i) (hr.marked henv hu.calm (by decide)).watered.rested
    (fun h => hidle.pristine.plain _ h) (by decide) ?_⟩
  exact hsize.ge.trans (hi.trans (bytes_le_highWater i _))

/-! ## Growth by more than the interval -/

/-- A request of more than the interval starts a dump. -/
theorem Afloat.crosses {bt hs : List ℕ} {b n : ℕ} {p : Supply} {s : Heap}
    (h : Afloat (.idle env) 0 1 .no s) (henv : env.Ok) (hu : env.Granting) (hI : env.args.slotHWMDumpIntervalBytes < 2 ^ 64)
    (hmax : env.args.maxRequestedBytes = 2 ^ 64 - 1) (hb : 12 ≤ b) (hb' : b < 40) (hfit : n ≤ 2 ^ b)
    (hn : env.args.slotHWMDumpIntervalBytes < n) (hplain : ∀ e ∈ s.log, e.Plain)
    (hg : s.gMutex.locked = false) (hdraws : s.Draws env b n hs p) (hcred : s.Credited)
    (hweighty : ∀ s', (∀ a, s'.credit a = (credited a s.log + a.share 0 b n) % 2 ^ 64) →
      Weighty env.args.numSlots s') :
    wp (claimBuf (ctxOf env depth) bt b n)
      (fun r s' => ∃ hdr, r = (0, some hdr) ∧ Crossing env 0 s') Brisk s := by
  have hctx := ctxOf_ok env depth
  have htame : Tame s.log := by
    refine ⟨?_, fun e he => (hplain e he).not_excuse⟩
    have hopen : openDumps (s.log ++ []) = openDumps [] := openDumps_append hplain
    rwa [List.append_nil] at hopen
  have hclaims : wp (claimBuf (ctxOf env depth) bt b n) _ _ s :=
    claimBuf_draws hctx hu h.rep h.ready hg hb hb' hdraws
  have hW : (ctxOf env depth).Waters (.idle env) :=
    ctxOf_waters hu.calm hI (.inl fun _ => trivial) depth
  refine wp_mono (wp_and hclaims (wp_and (claimBuf_afloat hctx hW hu.calm Watch.headroom_idle h hb)
    (does_claimBuf (ctxOf_silent henv.signals depth) s))) ?_ fun _ _ hE => htame.unexcused hE.1
  rintro _ s₁ ⟨⟨-, hdr, rfl, he⟩, hclaim, _, -, hgrows⟩
  refine ⟨hdr, rfl, ?_⟩
  obtain ⟨evs, hflat, hraised⟩ := (hclaim.2 hfit).raised
  have hrep := (hclaim.2 hfit).rep
  have hcredited : ∀ a, credited a s₁.log = credited a s.log + a.share 0 b n := fun a => by
    rw [he.log, credited_append, sum_credit_claimed]
  refine ⟨hrep, he.log ▸ htame.append he.plain, hweighty s₁ fun a => ?_, ?_, ?_⟩
  · have hmod := hcred.grows hgrows a
    have hword := (hrep.words_lt a).1
    rw [hcredited] at hmod
    unfold Int.ModEq at hmod
    omega
  · refine (hraised.trigger hI).2 ?_
    have hmark : dumpMark 0 (evs ++ s.log) = 0 := by
      refine dumpMark_eq_zero (fun hmem => ?_) 0
      rcases List.mem_append.1 hmem with hmem | hmem
      · exact hflat _ hmem
      · exact hplain _ hmem
    rw [hmark, highWater_counted]
    dsimp only
    omega
  · obtain ⟨hreq, -⟩ := hrep.shape.counts.bytes_lt 0
    rw [hmax]
    exact Nat.le_sub_one_of_lt hreq

/-- There is something to divide by when half a megabyte and two megabytes were allocated. -/
theorem weighty_crossed {s : Heap}
    (h : ∀ a : Account, s.credit a = (a.share 0 19 500000 + a.share 0 21 2000000) % 2 ^ 64) :
    Weighty 1 s := by
  have hbin : ∀ b, (s.bin 0 b).allocs = _ := fun b => h (.bin 0 b)
  have hhisto : ∀ k, (s.memHisto 0 k).allocs = _ := fun k => h (.histo 0 k)
  have hone : List.range 1 = [0] := rfl
  refine ⟨?_, ?_, ?_⟩ <;>
    simp only [hone, List.map_cons, List.map_nil, List.sum_cons, List.sum_nil, Heap.allocedBytes,
      Heap.requestedBytes, hbin, hhisto] <;>
    decide

/-- A client of a library with `-D 1` allocates half a megabyte, which starts no dump, and then
two megabytes, which start one. -/
theorem exists_crossing : ∃ st₀ st₁ st₂ : Proc, Reachable (Env.still .mebibyte) 1 st₀ ∧
    Step (Env.still .mebibyte) 1 st₀ (.malloc 500000) st₁ ∧ .dumpBegun ∉ st₁.heap.log ∧
    Step (Env.still .mebibyte) 1 st₁ (.malloc 2000000) st₂ ∧ .dumpBegun ∈ st₂.heap.log := by
  have henv := Env.still_mebibyte
  have hu : (Env.still .mebibyte).Granting := Env.still_granting rfl
  have hW : (ctxOf (Env.still .mebibyte) 1).Waters (.idle _) :=
    ctxOf_waters hu.calm (by decide) (.inl fun _ => trivial) 1
  have hun : (Env.still .mebibyte).Unbuffered := fun _ => ⟨rfl, rfl⟩
  obtain ⟨s₀, P, hboot, hdry, hroom⟩ := boot_dry henv hu 1
  have hr₀ : Reachable (Env.still .mebibyte) 1 ⟨s₀, []⟩ := ⟨s₀, [], hboot, .refl⟩
  have hfirst : highWater 0 s₀.log = 0 := (boot_requests hboot 0).1
  -- the first request
  have hfits₁ : (Call.malloc 500000).Fits (Env.still .mebibyte).args :=
    .of_size rfl ⟨by decide, by decide⟩
  obtain ⟨hs₁, p₁, Q, hdraws₁, hp₁, hstart, htotal, hleft⟩ :
      ∃ hs p Q, s₀.Draws (Env.still .mebibyte) 19 500000 hs p ∧ p.pools = [Q] ∧ _ :=
    hdry.drawsOne hu (by decide) (le_trans (by decide) hroom)
  have hin : Unlimited (ctxOf (Env.still .mebibyte) 1) [] 19 500000 s₀ :=
    (hdry.idle.inv.afloat (hr₀.marked henv hu.calm (by decide))).unlimited (ctxOf_ok _ 1) hW hu (by decide)
      rfl (by decide) (by decide) (by decide) (by decide) hfirst hdry.idle.inv.gMutex hdraws₁
  obtain ⟨ptr, s₁, hstep₁, hidle₁, hd₁, hdr, evs, hevs, hlog₁⟩ :=
    hdry.idle.draws 1 hu (by decide) hfits₁ (by decide) hin hdraws₁
  have hdry₁ := hdry.drew hidle₁ hd₁ hp₁ hstart htotal
  have hr₁ := hr₀.step hstep₁
  have hcredited₁ : ∀ a, credited a s₁.log = a.share 0 19 500000 := fun a => by
    rw [hlog₁, credited_append, sum_credit_drawn hevs,
      credited_boot hboot hdry.idle.pristine.plain, Nat.zero_add]
  -- the second
  have hfits₂ : (Call.malloc 2000000).Fits (Env.still .mebibyte).args :=
    .of_size rfl ⟨by decide, by decide⟩
  obtain ⟨hs₂, p₂, -, hdraws₂, -⟩ : ∃ hs p Q, s₁.Draws (Env.still .mebibyte) 21 2000000 hs p ∧ _ :=
    hdry₁.drawsOne hu (by decide)
      (le_trans (by decide) (le_trans (Nat.sub_le_sub_right hroom _) hleft))
  have hweighty : ∀ s', (∀ a, s'.credit a = (credited a s₁.log + a.share 0 21 2000000) % 2 ^ 64) →
      Weighty 1 s' := by
    intro s' hs'
    exact weighty_crossed fun a => (hs' a).trans (by rw [hcredited₁])
  have hclaim : wp (claimBuf (ctxOf (Env.still .mebibyte) (0 + 1)) [] 21 2000000) _ _ s₁ :=
    (hidle₁.inv.afloat (hr₁.marked henv hu.calm (by decide))).crosses henv hu (by decide) rfl (by decide)
      (by decide) (by decide) (by decide) hidle₁.pristine.plain hidle₁.inv.gMutex hdraws₂
      (hr₁.credited henv) hweighty
  obtain ⟨st₂, hstep₂, hbegun⟩ := hidle₁.crosses hu hun (by decide) hfits₂ (by decide) hclaim
  exact ⟨_, _, st₂, hr₀, hstep₁, fun h => hidle₁.pristine.plain _ h, hstep₂, hbegun⟩

theorem high_water_dumps_crossed : ∃ st₀ st₁ st₂ : Proc, Reachable (Env.still .mebibyte) 1 st₀ ∧
    Step (Env.still .mebibyte) 1 st₀ (.malloc 500000) st₁ ∧ .dumpBegun ∉ st₁.heap.log ∧
    Step (Env.still .mebibyte) 1 st₁ (.malloc 2000000) st₂ ∧ .dumpBegun ∈ st₂.heap.log ∧
    (∀ i, IsGreatest {n | ∃ l, l <:+ st₂.heap.log ∧ (ledger l).bytes i = n}
      (st₂.heap.memSlots i).hwmUsrBytes) ∧
    (DumpsAt (2 ^ 20) st₂.heap.log ↔ ¬ Tight (2 ^ 20) st₂.heap.log) := by
  obtain ⟨st₀, st₁, st₂, hr, hstep₁, hno, hstep₂, hbegun⟩ := exists_crossing
  exact ⟨st₀, st₁, st₂, hr, hstep₁, hno, hstep₂, hbegun, high_water_dumps Env.still_mebibyte
    (Env.still_granting rfl).calm (by decide) ((hr.step hstep₁).step hstep₂)⟩

end GuardRails
