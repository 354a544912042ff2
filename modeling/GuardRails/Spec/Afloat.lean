import GuardRails.Spec.Run
import GuardRails.Spec.Watch

/-!
# High-water marks over a run

The marks stay right in every call of a client and of stdio, and so in dumps of any depth
and between the calls of every run; and what a watch keeps is kept.
-/

namespace GuardRails

open StateHoare

variable {env : Env} {W : Watch env} {s s' s₀ s₁ : Heap} {ctx : Ctx} {own : List (ℕ × ℕ)}
  {a b d h₀ i n o depth : ℕ} {u : Want} {q : Request} {bt : List ℕ} {st st' : Proc} {l : List Event}
  {c : Call}

/-! ## `getBuf` -/

/-- A request has been counted for the block `q.hdr`, and its slot has not looked at the marks. -/
structure Claimed (W : Watch env) (o d : ℕ) (u : Want) (i : ℕ) (q : Request) (s s' : Heap) : Prop
    extends Grounded W o d u s' where
  slot : i < env.args.numSlots
  unlocked : s'.gMutex.locked = s.gMutex.locked
  raised : ∃ evs, (∀ e ∈ evs, e.Flat) ∧
    Raised env.args.slotHWMDumpIntervalBytes i q (evs ++ s.log) s'

structure Answered (W : Watch env) (o d : ℕ) (u : Want) (s : Heap) : Prop
    extends Grounded W o d u s where
  watered : ∀ e, e ≠ .dumpBegun → (∀ i q, e ≠ .counted i q) →
    Watered env.args.slotHWMDumpIntervalBytes (e :: s.log) s.memSlots

theorem Afloat.answered (h : Afloat W o d u s) : Answered W o d u s :=
  ⟨h.toGrounded, fun _ _ hc => h.watered.cons hc⟩

theorem Afloat.lock (h : Afloat W o d u s)
    (hl : (s.mutex (.slot i)).locked = true → (s.mutex (.slot i)).recursive = true) :
    Afloat W o d u (s.lockHeap (.slot i)) where
  toKept := h.toKept.level (.lockHeap (l := .slot i) nofun)
  rep := h.rep.lockHeap hl
  isInit := h.isInit
  pending := h.pending
  watered := (h.watered.cons (e := .acquired (.slot i)) nofun).slots
    (marks_updSlot (g := fun S => { S with lock := (s.mutex (.slot i)).lock }) fun _ => rfl)

theorem level_unlock : Level s (s.unlockHeap (.slot i)) :=
  (Level.setMutex (l := .slot i) nofun _).trans (.emit trivial nofun)

theorem Answered.unlock (h : Answered W o d u s) : Marked W o d u (s.unlockHeap (.slot i)) :=
  ⟨h.toKept.level level_unlock, (h.watered (.released (.slot i)) nofun nofun).unlock⟩

/-- At the limit there is a dump and the end. -/
theorem Answered.limit (h : Answered W o d u s) (hW : ctx.Waters W) (hcap : W.cap o) :
    wp (ctx.onExitHelper false 0) (fun _ s' => W.E s'.log) (fun _ s' => W.E s'.log)
      { s with log := .limitReached :: s.log } := by
  have hkept := h.toKept.level (.emit (e := .limitReached) trivial nofun)
  have hwatered := h.watered .limitReached nofun nofun
  have hout : Outset W o (d + 1) u { s with log := .limitReached :: s.log } :=
    { rep := h.rep.neutral (e := .limitReached) trivial s.clock
      isInit := h.isInit
      pending := h.pending
      begun := ⟨⟨hkept.stocked.same rfl rfl rfl, hkept.held, W.limit h.watch⟩, hwatered.cons nofun⟩ }
  exact wp_mono (hW.dump false 0 o d u _ hcap hout) (fun _ _ h₁ => W.halt hcap h₁.watch) fun _ _ hE => hE

/-- A mark that is due starts a dump. -/
theorem Claimed.outset (h : Claimed W o d u i q s₀ s) (hI : env.args.slotHWMDumpIntervalBytes < 2 ^ 64)
    (hgt : (s.memSlots i).hwmUsrBytes >
      ((s.memSlots i).lastHWMUsrBytesDump + env.args.slotHWMDumpIntervalBytes) % 2 ^ 64) :
    Outset W o (d + 1) u (s.updSlot i fun S => { S with lastHWMUsrBytesDump := S.hwmUsrBytes }) := by
  obtain ⟨evs, -, hraised⟩ := h.raised
  have hhigh := (hraised.trigger hI).1 hgt
  have hwatch := h.watch
  rw [hraised.log] at hwatch
  have hbegun := W.due h.slot hhigh hwatch
  rw [← hraised.log] at hbegun
  exact
    { rep := h.rep.setLastDump i
      isInit := h.isInit
      pending := h.pending
      begun := ⟨⟨h.stocked.same rfl rfl rfl, h.held, hbegun⟩, hraised.dump hhigh⟩ }

theorem limitDumps_afloat (hctx : ctx.Ok env) (hW : ctx.Waters W) (hcalm : env.Calm)
    (hI : env.args.slotHWMDumpIntervalBytes < 2 ^ 64) (hcap : W.cap o) (h : Claimed W o d u i q s₀ s) :
    wp (limitDumps ctx i) (fun _ s' => Marked W o d u (s'.unlockHeap (.slot i)))
      (fun _ s' => W.E s'.log) s := by
  have hcalm' : ctx.env.Calm := hctx.env_eq ▸ hcalm
  unfold limitDumps
  refine wp_bind (wp_poll_none hcalm' (wp_bind (wp_get ?_)))
  extract_lets S
  refine wp_bind (wp_get ?_)
  extract_lets args rest
  have hargs : args = env.args := h.rep.shape.args_eq
  have hrest : ∀ s₁, Answered W o d u s₁ → wp (rest ())
      (fun _ s' => Marked W o d u (s'.unlockHeap (.slot i))) (fun _ s' => W.E s'.log) s₁ := by
    intro s₁ h₁
    refine wp_bind (wp_poll_none hcalm' (wp_bind (wp_get (wp_ite (fun _ => ?_) fun _ => wp_pure h₁.unlock))))
    refine wp_bind (wp_emit (wp_bind (wp_poll_none hcalm' (wp_bind_of (h₁.limit hW hcap) ?_))))
    exact fun _ _ hE => wp_throw hE
  rw [hargs]
  obtain ⟨evs, -, hraised⟩ := h.raised
  refine wp_ite (fun hgt => ?_) fun hle => hrest s ⟨h.toGrounded, fun e he hc => hraised.pass he hc ?_⟩
  · refine wp_bind (wp_poll_none hcalm' (wp_bind (wp_modify (wp_bind (wp_poll_none hcalm' ?_)))))
    refine wp_bind (wp_get (wp_bind_of (hW.dump _ _ _ _ _ _ hcap (h.outset hI hgt)) ?_))
    exact fun _ s₁ h₁ => hrest s₁ h₁.answered
  · exact fun hlt => hle ((hraised.trigger hI).2 hlt)

/-- A block that is too small for its request is of no use to the caller. -/
theorem claimBuf_afloat (hctx : ctx.Ok env) (hW : ctx.Waters W) (hcalm : env.Calm)
    (hroom : Headroom W o d u) (h : Afloat W o d u s) (hb : 12 ≤ b) :
    wp (claimBuf ctx bt b n)
      (fun r s' => match r.2 with
        | none => Afloat W o d u s'
        | some hdr => hdr ≠ 0 ∧ (n ≤ 2 ^ b → Claimed W (o + outer d 1) d u r.1 ⟨hdr, n, bt⟩ s s'))
      (fun _ s' => W.E s'.log) s := by
  have hcalm' : ctx.env.Calm := hctx.env_eq ▸ hcalm
  have hcap := hroom.cap
  unfold claimBuf
  refine wp_bind (wp_poll_none hcalm' ?_)
  refine h.bind (P := fun _ _ => True) ?_ (h.levels hcap levels_pickSlot) fun i s₁ _ _ h₁ hl₁ => ?_
  · refine wp_mono (pickSlot_spec (X := ∅) (F := False) (G := False) (.refl h.rep h.ready) nofun) ?_ fun _ _ h => h
    exact fun _ _ hc => ⟨trivial, hc.2⟩
  refine wp_bind (wp_poll_none hcalm' (wp_bind (wp_pthreadMutexLock (fun hl => ?_) fun _ _ =>
    h₁.halt hcap (Level.clock _).toFlat)))
  have h₂ := h₁.lock hl
  have hlock := locked_lockHeap (s := s₁) (l := .slot i)
  have hl₂ : Level s (s₁.lockHeap (.slot i)) := hl₁.trans (.lockHeap (l := .slot i) nofun)
  generalize s₁.lockHeap (.slot i) = s₂ at h₂ hlock hl₂
  refine wp_bind (wp_poll_none hcalm' ?_)
  refine h₂.bind (P := fun ret s' => i < env.args.numSlots ∧ Refilled env False 0 s₂ s' i b ret) ?_
    (replenishBin_afloat hctx hW hcalm hroom hb h₂) fun ret s₃ hres hc₃ h₃ hl₃ =>
      wp_bind (wp_poll_none hcalm' ?_)
  · refine wp_mono (replenishBin_spec (F := False) (G := False) hctx (fun _ => rfl) hb nofun nofun nofun
      hlock (.refl h₂.rep h₂.ready)) ?_ fun _ _ h => h
    exact fun _ _ hres => ⟨⟨hres.1, hres.2.2⟩, hres.2.2.call⟩
  refine wp_ite (fun _ => wp_pure h₃) fun h0 => ?_
  obtain ⟨-, hne⟩ := hres.2.result.resolve_right fun h => h0 h.1
  refine wp_bind (wp_mono (wp_and (takeBlock_spec (F := False) (G := False) hctx hc₃ hne)
    (levels_takeBlock hcalm' s₃)) ?_ fun _ _ hE => h₃.halt hcap hE.2)
  rintro hdr s₄ ⟨⟨B, hB, hp, hs, hsize, hlive, hreq, hc₄, -⟩, hl₄⟩
  have hm₄ := h₃.marked.level hl₄
  refine wp_bind (wp_mono (wp_and (countAlloc_spec (G := False) (q := ⟨hdr, n, bt⟩) hctx hc₄ rfl hB hp hs
    hlive hreq nofun) (countAlloc_marks hcalm')) ?_ fun _ _ hE => hE.2 ▸ W.halt hcap hm₄.watch)
  rintro _ s₅ ⟨⟨-, hc₅, hB₅⟩, hlog₅, hmarks₅, hpools₅, hg₅⟩
  refine wp_pure ⟨(hc₄.rep.shape.layout.block_bounds hB).1.ne', fun hfit => ?_⟩
  have hkept₅ : Kept W (o + outer d 1) d u s₅ :=
    { stocked := hm₄.stocked.same (by rw [hlog₅]; rfl) hpools₅ hg₅
      held := fun hu => hg₅ ▸ hm₄.held hu
      watch := hlog₅ ▸ W.counted hm₄.watch }
  have hP₅ : Pending s₅ := by
    refine h₃.pending.keeps hc₅.rep hc₅.keeps ?_
    rintro x rfl A q' hA - hq'
    obtain rfl := Option.some.inj (hB₅.symm.trans hA)
    obtain rfl := Option.some.inj hq'
    rw [(hc₅.rep.log_ok.lawful.sound.block_ok x _ hB₅).size_eq (by simp [hp]), hsize]
    exact hfit
  rw [hP₅.figure hc₅.rep] at hmarks₅
  have hl₀₄ := (hl₂.trans hl₃).trans hl₄
  obtain ⟨evs, hevs, hflat⟩ := hl₀₄.log
  have hg₀₅ : s₅.gMutex.locked = s.gMutex.locked := by
    rw [hg₅]
    exact hl₀₄.gMutex 0 h.stocked
  refine ⟨⟨hkept₅, hc₅.rep, hc₅.keeps.isInit.trans h₃.isInit, hP₅⟩, hres.1, hg₀₅, evs, hflat, ?_⟩
  rw [← hevs]
  exact hm₄.watered.raised hlog₅ hmarks₅ (hP₅.bytes_le hc₅.rep i)

theorem handOut_afloat (hctx : ctx.Ok env) (hW : ctx.Waters W) (hcalm : env.Calm)
    (hI : env.args.slotHWMDumpIntervalBytes < 2 ^ 64) (hcap : W.cap o) (h : Claimed W o d u i q s₀ s) :
    wp (handOut ctx b (i, some h₀)) (fun _ s' => Marked W o d u s') (fun _ s' => W.E s'.log) s := by
  have hcalm' : ctx.env.Calm := hctx.env_eq ▸ hcalm
  refine wp_bind_of (limitDumps_afloat hctx hW hcalm hI hcap h) fun _ s₁ h₁ => ?_
  refine wp_bind (wp_poll_none hcalm' (wp_bind (wp_pthreadMutexUnlock ?_)))
  have hlast : Levels (do
      ctx.poll 393
      grAssert (.guardRails 393) ((← ldField h₀ .magic) = magicFree)
      ctx.poll 395
      pure (h₀, h₀ + 2 ^ b)) :=
    (levels_poll hcalm').bind fun _ => levels_ldField.bind fun _ => levels_grAssert.bind fun _ =>
      (levels_poll hcalm').bind fun _ => levels_pure
  exact hlast.marked hcap _ h₁

/-- Such requests get a block that is large enough, or it does not matter how the call halts. -/
def Snug (W : Watch env) (b n : ℕ) : Prop := (∀ log, W.E log) ∨ n ≤ 2 ^ b

theorem getBuf_afloat (hctx : ctx.Ok env) (hW : ctx.Waters W) (hcalm : env.Calm)
    (hI : env.args.slotHWMDumpIntervalBytes < 2 ^ 64) (hroom : Headroom W o d u) (h : Afloat W o d u s)
    (halloc : a < 2 ^ 64) (hsnug : Snug W (log2fast (max pageSize a)) n) :
    wp (getBuf ctx bt a n)
      (fun p s' => p.1 = 0 ∨ n ≤ 2 ^ log2fast (max pageSize a) → Marked W (o + outer d 1) d u s')
      (fun _ s' => W.E s'.log) s := by
  have hcalm' : ctx.env.Calm := hctx.env_eq ▸ hcalm
  have hb : 12 ≤ log2fast (max pageSize a) := by
    have hpage : max pageSize a = max 4096 a := rfl
    exact le_log2fast_page (max_lt (by decide) halloc) (by omega)
  rw [getBuf_eq]
  refine wp_bind_of (claimBuf_afloat hctx hW hcalm hroom h hb) ?_
  rintro ⟨i, _ | hdr⟩ s₁ h₁
  · have h₁ : Afloat W o d u s₁ := h₁
    have hm := h₁.marked.level (level_unlock (i := i))
    refine wp_bind (wp_pthreadMutexUnlock (wp_bind (wp_poll_none hcalm' (wp_pure fun _ => ?_))))
    exact { hm with watch := W.le (Nat.le_add_right o _) hm.watch }
  · obtain ⟨h0, hclaim⟩ := h₁
    by_cases hfit : n ≤ 2 ^ log2fast (max pageSize a)
    · exact wp_mono (handOut_afloat hctx hW hcalm hI hroom.request (hclaim hfit)) (fun _ _ h _ => h)
        fun _ _ hE => hE
    · have hE := hsnug.resolve_right hfit
      refine wp_mono (Q := fun p _ => p.1 ≠ 0) (E := fun _ _ => True) ?_ (fun _ _ hp h => absurd (h.resolve_right hfit) hp)
        fun _ s' _ => hE s'.log
      refine wp_bind_of (wp_trivial _) fun _ _ _ => wp_bind_of (wp_trivial _) fun _ _ _ => ?_
      refine wp_bind_of (wp_trivial _) fun _ _ _ => wp_bind_of (wp_trivial _) fun _ _ _ => ?_
      refine wp_bind_of (wp_trivial _) fun _ _ _ => wp_bind_of (wp_trivial _) fun _ _ _ => ?_
      exact wp_bind_of (wp_trivial _) fun _ _ _ => wp_pure h0

/-! ## Allocation -/

/-- A block that is filled in is large enough. -/
theorem fillBlock_fits {h size : ℕ} :
    wp (fillBlock bt a n h (h + size)) (fun _ _ => n ≤ size) (fun _ _ => True) s := by
  unfold fillBlock
  refine wp_bind (wp_get ?_)
  extract_lets args misalignment usrData rest₃ rest₂ rest₁
  have hrest : ∀ s, wp (rest₁ ()) (fun _ _ => n ≤ size) (fun _ _ => True) s := by
    intro s
    refine wp_bind_of (wp_trivial _) fun _ _ _ => wp_bind_of (wp_trivial _) fun _ _ _ => ?_
    refine wp_bind_of (wp_trivial _) fun _ _ _ => wp_bind_of (wp_trivial _) fun _ _ _ => ?_
    refine wp_bind (wp_grAssert (fun _ => wp_bind (wp_grAssert (fun hlt => ?_) fun _ => trivial))
      fun _ => trivial)
    exact wp_mono (wp_trivial _) (fun _ _ _ => by omega) fun _ _ h => h
  exact wp_ite (fun _ => wp_bind_of (wp_trivial _) fun _ _ _ => hrest _) fun _ => hrest _

theorem memalignInt_afloat (hctx : ctx.Ok env) (hW : ctx.Waters W) (hcalm : env.Calm)
    (hI : env.args.slotHWMDumpIntervalBytes < 2 ^ 64) (hroom : Headroom W o d u) (h : Afloat W o d u s)
    (hsnug : Snug W (classOf env.args a n) n) :
    wp (memalignInt ctx bt a n) (fun _ s' => Marked W (o + outer d 1) d u s') (fun _ s' => W.E s'.log) s := by
  unfold memalignInt
  refine wp_bind (wp_get ?_)
  rw [h.rep.shape.args_eq]
  extract_lets allocSize done rest
  have halloc : allocSize < 2 ^ 64 := Nat.mod_lt _ (by norm_num)
  refine wp_bind (wp_get (wp_ite (fun h0 => absurd (h0.symm.trans h.isInit) nofun) fun _ => ?_))
  have hspec : wp (getBuf ctx bt allocSize n) _ _ s :=
    getBuf_spec (F := False) (G := False) hctx h.rep h.ready (fun _ => rfl) nofun halloc nofun nofun
      nofun nofun nofun
  refine wp_bind (wp_mono (wp_and (getBuf_afloat hctx hW hcalm hI hroom h halloc hsnug) hspec) ?_
    fun _ _ hE => hE.1)
  rintro ⟨buf, endBuf⟩ s₁ ⟨hw, ht⟩
  refine wp_ite (fun h0 => wp_bind (wp_get ?_)) fun h0 => ?_
  · have hm := hw (.inl h0)
    exact wp_ite (fun _ => wp_bind (wp_throw (W.halt hroom.request hm.watch))) fun _ => wp_pure hm
  · cases ht with
    | none h0' => exact absurd h0' h0
    | some B hend =>
        obtain rfl : endBuf = buf + 2 ^ log2fast (max pageSize allocSize) := hend
        have hhalt : ∀ s', Flat s₁ s' → W.E s'.log := fun s' hf => by
          rcases hsnug with hE | hfit
          · exact hE s'.log
          · exact (hw (.inr hfit)).halt hroom.request hf
        refine wp_mono (wp_and fillBlock_fits (levels_fillBlock s₁)) ?_ fun _ s' hE => hhalt s' hE.2
        rintro _ s₂ ⟨hfit, hl⟩
        exact (hw (.inr hfit)).level hl

theorem memalignInt_grants (hctx : ctx.Ok env) (hW : ctx.Waters W) (hcalm : env.Calm)
    (hI : env.args.slotHWMDumpIntervalBytes < 2 ^ 64) (hroom : Headroom W o d u) (h : Afloat W o d u s)
    (ha : a < 2 ^ 64) (hn : n < 2 ^ 64) (hsnug : Snug W (classOf env.args a n) n) :
    wp (memalignInt ctx bt a n)
      (fun p s' => Afloat W (o + outer d 1) d u s' ∧ Keeps ∅ s s' ∧ (p ≠ 0 → ∃ x : Alloc, x.ptr = p ∧
        x.size = n ∧ (ledger s'.log).Live x ∧ ∀ A, (ledger s.log).block x.hdr = some A → ¬ A.Fixed))
      (fun _ s' => W.E s'.log) s := by
  have hspec : wp (memalignInt ctx bt a n) _ _ s :=
    memalignInt_spec (F := False) (G := False) hctx h.rep h.ready (fun _ => rfl) nofun ha hn nofun nofun
  refine wp_mono (wp_and (memalignInt_afloat hctx hW hcalm hI hroom h hsnug) hspec) ?_ fun _ _ hE => hE.1
  rintro p s₁ ⟨hm, ⟨rfl, hc, -⟩ | ⟨-, x, B, rfl, hs, -⟩⟩
  · exact ⟨h.next hc.rep hc.keeps (by simp) hm, hc.keeps, fun h0 => absurd rfl h0⟩
  · exact ⟨h.next hs.call.rep hs.call.keeps (by simp) hm, hs.call.keeps,
      fun _ => ⟨x, rfl, hs.size_eq, hs.isLive, hs.new⟩⟩

/-- A request is counted off. -/
theorem Marked.uncounted {x : ℕ} (h : Marked W o d u s) :
    Marked W o d u { s with log := .uncounted i x :: s.log } :=
  ⟨⟨h.stocked.same rfl rfl rfl, h.held, W.uncounted h.watch⟩, h.watered.cons nofun⟩

theorem Marked.countsOff (h : Marked W o d u s) (hf : CountsOff s s') : Marked W o d u s' := by
  obtain ⟨s₁, i, x, h₁, h₂⟩ := hf
  exact (h.level h₁).uncounted.level h₂

theorem Marked.haltsOff (h : Marked W o d u s) (hcap : W.cap o) (hf : HaltsOff s s') : W.E s'.log := by
  rcases hf with hf | ⟨s₁, i, x, h₁, hf⟩
  · exact h.halt hcap hf
  · exact (h.level h₁).uncounted.halt hcap hf

theorem free_marked (hcalm : ctx.env.Calm) (hcap : W.cap o) :
    Maintains (Marked W o d u) (fun _ s' => W.E s'.log) (free ctx bt a) := by
  intro s h
  by_cases h0 : a = 0
  · subst h0
    exact wp_ite (fun _ => wp_pure h) fun h => absurd rfl h
  · exact wp_mono (free_countsOff hcalm h0) (fun _ _ hoff => h.countsOff hoff) fun _ _ hoff =>
      h.haltsOff hcap hoff

/-! ## Dumps -/

/-- Stdio has a block for each of its requests, or it does not matter how a call halts. -/
def Watch.Suits (W : Watch env) : Prop := (∀ log, W.E log) ∨ env.StdioFits

/-- A padded size that does not wrap fits its block. -/
theorem le_pow_classOf {args : GRArgs}
    (h : elmHdrSz args + 8 + n + (if a > 1 then a else 0) < 2 ^ 64) : n ≤ 2 ^ classOf args a n := by
  have hle : max pageSize (allocSizeOf args a n) ≤ _ :=
    le_pow_log2fast (max_lt (by decide) (Nat.mod_lt _ (by norm_num)))
  refine le_trans ?_ hle
  rw [allocSizeOf, Nat.mod_eq_of_lt h]
  exact le_trans (by omega) (le_max_right _ _)

theorem Watch.Suits.snug {t : ℕ} (h : W.Suits) (hc : .alloc bt a n ∈ env.fileIO t ++ env.fmtIO t) :
    Snug W (classOf env.args a n) n :=
  h.imp_right fun hfits => le_pow_classOf ((hfits t bt a n hc).size.trans_lt (by decide))

theorem stdio_afloat (hctx : ctx.Ok env) (hW : ctx.Waters W) (hcalm : env.Calm)
    (hI : env.args.slotHWMDumpIntervalBytes < 2 ^ 64) (hsuits : W.Suits) (hu : d = 0 → u ≠ .no) {t : ℕ}
    (calls : List StdioCall) (hcalls : ∀ c ∈ calls, c ∈ env.fileIO t ++ env.fmtIO t)
    (hcap : W.cap (o + outer d (requests calls))) (hc : InCall env False 0 ∅ s₀ s)
    (ho : OwnOk s₀ s own) (h : Afloat W o d u s) :
    wp (stdio ctx calls own) (fun _ s' => Afloat W (o + outer d (requests calls)) d u s')
      (fun _ s' => W.E s'.log) s := by
  induction calls generalizing own s o with
  | nil =>
      refine wp_pure { h with watch := W.le (Nat.le_add_right o _) h.watch }
  | cons c calls ih =>
      have hcalls' : ∀ c ∈ calls, c ∈ env.fileIO t ++ env.fmtIO t := fun c hc =>
        hcalls c (List.mem_cons_of_mem _ hc)
      cases c with
      | alloc bt alignment size =>
          obtain ⟨halign, hsize⟩ := hc.rep.shape.env_ok.stdio t _ (hcalls _ List.mem_cons_self)
          have hsum : o + outer d (requests (.alloc bt alignment size :: calls)) =
              o + outer d 1 + outer d (requests calls) := by
            rw [Nat.add_assoc, ← outer_add, Nat.add_comm 1]
            rfl
          rw [hsum] at hcap ⊢
          have hroom : Headroom W o d u :=
            ⟨W.cap_le (Nat.le_add_right _ _) hcap, fun hno t => by
              have hd : d ≠ 0 := fun h0 => hu h0 hno
              rw [outer, if_neg hd]
              exact W.cap_le ((Nat.le_add_right _ _).trans (Nat.le_add_right _ _)) hcap⟩
          refine wp_bind_of (memalignInt_grants hctx hW hcalm hI hroom h halign hsize
            (hsuits.snug (hcalls _ List.mem_cons_self))) ?_
          rintro p s₁ ⟨h₁, hK, hp⟩
          exact ih hcalls' hcap (hc.trans h₁.rep hK) (ho.append hc hK h₁.rep hp) h₁
      | free bt idx =>
          unfold stdio
          cases he : own[idx]? with
          | none => exact ih hcalls' hcap hc ho h
          | some e =>
              obtain ⟨p, size⟩ := e
              by_cases h0 : p = 0
              · subst h0
                refine wp_bind (wp_ite (fun _ => wp_pure ?_) fun h => absurd rfl h)
                exact ih hcalls' hcap hc (ho.eraseIdx he (fun _ h _ => h) fun _ => rfl) h
              · obtain ⟨x, rfl, -, hla, hnew⟩ := ho.live _ (List.mem_of_getElem? he) h0
                have hcap' : W.cap o := W.cap_le (Nat.le_add_right _ _) hcap
                refine wp_bind (wp_mono (wp_and (free_spec (F := False) (G := False) hctx h.rep h.ready hla)
                  (free_marked (hctx.env_eq ▸ hcalm) hcap' s h.marked)) ?_ fun _ _ hE => hE.2)
                rintro _ s₁ ⟨⟨hc₁, hset, -⟩, hm⟩
                refine ih hcalls' hcap (hc.absorb hc₁ hnew hset) (ho.eraseIdx he (fun y hy hne => ?_)
                  fun h => absurd h h0) ?_
                · exact hc₁.keeps.live hc.rep hy fun heq => hne (congrArg _ (hy.hdr_inj hla heq))
                · exact h.next hc₁.rep hc₁.keeps (by simpa using hset) hm
      | store idx off bytes =>
          unfold stdio
          cases he : own[idx]? with
          | none => exact ih hcalls' hcap hc ho h
          | some e =>
              obtain ⟨p, size⟩ := e
              refine wp_ite (fun hin => ?_) fun _ => ih hcalls' hcap hc ho h
              obtain ⟨x, rfl, rfl, hla, hnew⟩ := ho.live _ (List.mem_of_getElem? he) hin.1
              obtain ⟨B, hB, hlive, hoB, hp⟩ := hc.rep.log_ok.lawful.sound.live_inUse hla
              refine wp_bind (wp_storeBytes ?_ ?_)
              · exact (hc.rep.shape.user_open hB hp hoB).mono (by omega) (by omega)
              · have hc₁ := (InCall.refl hc.rep hc.ready).writeUser (Set.mem_singleton x.hdr) hB hp hoB
                  (m := ByteMemory.update s.mem (x.ptr + off) bytes.length fun i => bytes.getD i 0)
                  fun y hy => ByteMemory.update_of_notMem (by omega)
                have hset : SettledAt s x.hdr := .of_block hB (.inr (.inr ⟨hp, hlive⟩))
                refine ih hcalls' hcap (hc.absorb hc₁ hnew hset) ⟨ho.live, ho.apart⟩ ?_
                have hsame : ∀ m, Level s { s with mem := m } := fun _ => .of_same (fun _ => rfl) rfl rfl rfl
                exact h.level hc₁.rep hc₁.keeps (fun y hy => (show y = x.hdr from hy) ▸ hset) (hsame _)

theorem Afloat.tick (h : Afloat W o d u s) : Afloat W o d u { s with clock := s.clock + 1 } :=
  h.level (h.rep.tick (s.clock + 1)) (.tick (X := ∅) _) (by simp) (Level.clock _)

theorem fmtOut_afloat (hctx : ctx.Ok env) (hW : ctx.Waters W) (hcalm : env.Calm)
    (hI : env.args.slotHWMDumpIntervalBytes < 2 ^ 64) (hsuits : W.Suits) (hu : d = 0 → u ≠ .no)
    (hcap : ∀ t, W.cap (o + outer d (requests (env.fmtIO t)))) (h : Afloat W o d u s) :
    wp (fmtOut ctx) (fun _ s' => ∃ t, Afloat W (o + outer d (requests (env.fmtIO t))) d u s')
      (fun _ s' => W.E s'.log) s := by
  refine wp_bind (wp_tick ?_)
  rw [hctx.env_eq]
  refine wp_mono (stdio_afloat hctx hW hcalm hI hsuits hu (env.fmtIO s.clock)
    (fun c hc => List.mem_append_right _ hc) (hcap _) (.refl h.tick.rep h.tick.ready) .nil h.tick)
    (fun _ _ h => ⟨_, h⟩) fun _ _ hE => hE

/-- Formatted output during a dump. -/
theorem fmtOut_afloat_succ (hctx : ctx.Ok env) (hW : ctx.Waters W) (hcalm : env.Calm)
    (hI : env.args.slotHWMDumpIntervalBytes < 2 ^ 64) (hsuits : W.Suits) (hcap : W.cap o) :
    Maintains (Afloat W o (d + 1) u) (fun _ s' => W.E s'.log) (fmtOut ctx) := by
  intro s h
  refine wp_mono (fmtOut_afloat (d := d + 1) hctx hW hcalm hI hsuits nofun (fun _ => hcap) h) ?_ fun _ _ hE => hE
  rintro _ s₁ ⟨t, h₁⟩
  exact h₁

theorem dumpOffsets_afloat (hctx : ctx.Ok env) (hW : ctx.Waters W) (hcalm : env.Calm)
    (hI : env.args.slotHWMDumpIntervalBytes < 2 ^ 64) (hsuits : W.Suits) (hcap : W.cap o) :
    Maintains (Afloat W o (d + 1) u) (fun _ s' => W.E s'.log) (dumpOffsets ctx) := by
  intro s h
  refine wp_bind (wp_tick ?_)
  rw [hctx.env_eq]
  exact stdio_afloat (d := d + 1) hctx hW hcalm hI hsuits nofun (env.fileIO s.clock)
    (fun c hc => List.mem_append_left _ hc) hcap (.refl h.tick.rep h.tick.ready) .nil h.tick

theorem readable_afloat (hctx : ctx.Ok env) (hW : ctx.Waters W) (hcalm : env.Calm)
    (hI : env.args.slotHWMDumpIntervalBytes < 2 ^ 64) (hsuits : W.Suits) (hcap : W.cap o) :
    Readable ctx (Afloat W o (d + 1) u) fun _ s' => W.E s'.log where
  halt _ _ h := W.halt hcap h.watch
  tick _ h := h.tick
  lock _ _ h hl := h.lock hl
  unlock _ _ h :=
    { (h.answered.unlock : Marked W o (d + 1) u _) with
      rep := h.rep.unlockHeap
      isInit := h.isInit
      pending := h.pending }
  fmtOut := fmtOut_afloat_succ hctx hW hcalm hI hsuits hcap

/-- A dump goes through its slots with the marks right. -/
theorem onExitHelperBody_afloat (hctx : ctx.Ok env) (hW : ctx.Waters W) (hcalm : env.Calm)
    (hI : env.args.slotHWMDumpIntervalBytes < 2 ^ 64) (hsuits : W.Suits) (hcap : W.cap o) {hwm : ℕ}
    (h : Afloat W o (d + 1) u s) (hd : Dumping env False 0 s₀ s) :
    wp (onExitHelperBody ctx hwm) (fun _ s' => Afloat W o (d + 1) u s') (fun _ s' => W.E s'.log) s := by
  have hfmt : Maintains (Afloat W o (d + 1) u) _ (fmtOut ctx) :=
    fmtOut_afloat_succ hctx hW hcalm hI hsuits hcap
  refine wp_bind (wp_mono (wp_and (dumpOffsets_afloat hctx hW hcalm hI hsuits hcap s h)
    (dumpOffsets_spec (G := False) hctx (fun _ => rfl) hd.call hd.chatty)) ?_ fun _ _ hE => hE.1)
  rintro _ s₁ ⟨h₁, hd₁⟩
  refine wp_bind (wp_mono (wp_and (hfmt s₁ h₁)
    ((hd.step hd₁).fmtOut (G := False) hctx fun _ => rfl)) ?_ fun _ _ hE => hE.1)
  rintro _ s₂ ⟨h₂, hd₂⟩
  refine wp_bind (wp_get ?_)
  rw [h₂.rep.shape.args_eq]
  have hread : Readable ctx (Afloat W o (d + 1) u) _ := readable_afloat hctx hW hcalm hI hsuits hcap
  have hwalk := maintains_foldlM (fun dump i => hread.dumpSlot (d := dump) (i := i))
    (List.range env.args.numSlots) { hwm := hwm } s₂ h₂
  refine wp_bind (wp_mono (wp_and hwalk (dumpSlots_spec (G := False) hctx (fun _ => rfl) hd₂.again)) ?_
    fun _ _ hE => hE.1)
  rintro dump s₃ ⟨h₃, hd₃, hdump⟩
  have hd₄ := hd₃.again.dumped hdump
  have h₄ := h₃.level hd₄.call.rep hd₄.call.keeps (by simp) (.emit (e := .dumped dump) trivial nofun)
  exact wp_bind (wp_emit (wp_ite (fun _ => wp_bind (wp_throw (W.halt hcap h₄.watch))) fun _ => hfmt _ h₄))

/-- Dumps of any depth leave the marks right. -/
theorem ctxOf_waters (hcalm : env.Calm) (hI : env.args.slotHWMDumpIntervalBytes < 2 ^ 64)
    (hsuits : W.Suits) (depth : ℕ) : (ctxOf env depth).Waters W := by
  induction depth with
  | zero =>
      refine ⟨fun b hwm o d u s hcap h => ?_, fun o d s hcap h => wp_throw ?_⟩
      · exact wp_bind (wp_emit (wp_throw (W.halt hcap h.begun.watch)))
      · exact W.halt (W.cap_le (Nat.le_add_right o _) (hcap 0)) h.watch
  | succ depth ih =>
      have hctx := ctxOf_ok env depth
      refine ⟨fun b hwm o d u s hcap h => ?_, fun o d s hcap h => ?_⟩
      · have hd := h.rep.dumpBegun (F := False) ⟨nofun, .inl h.isInit, nofun⟩ nofun
        have hbegun : Afloat W o (d + 1) u { s with log := .dumpBegun :: s.log } :=
          { h.begun with rep := hd.call.rep, isInit := h.isInit, pending := h.pending }
        have hmarked : wp ((ctxOf env (depth + 1)).onExitHelper b hwm) (fun _ s' => Marked W o d u s')
            (fun _ s' => W.E s'.log) s := by
          refine wp_bind (wp_emit (wp_bind_of (onExitHelperBody_afloat hctx ih hcalm hI hsuits hcap
            hbegun hd) fun _ s₁ h₁ => wp_emit ⟨⟨h₁.stocked.same rfl rfl rfl, h₁.held, ?_⟩, ?_⟩))
          · exact W.ended h₁.watch
          · exact h₁.watered.cons nofun
        refine wp_mono (wp_and hmarked ((ctxOf_ok env (depth + 1)).dump False False 0 s b hwm h.rep
          ⟨nofun, .inl h.isInit, nofun⟩ (fun _ => rfl) nofun)) ?_ fun _ _ hE => hE.1
        rintro _ s₁ ⟨hm, hR, hK⟩
        exact ⟨⟨hm.toKept, hR, hK.isInit.trans h.isInit, h.pending.keeps hR hK (by simp)⟩, hm.watered⟩
      · exact fmtOut_afloat hctx ih hcalm hI hsuits nofun hcap h

/-! ## Runs -/

theorem Proc.Inv.afloat (hst : st.Inv env) (hm : Marked W o d u st.heap) : Afloat W o d u st.heap where
  toKept := hm.toKept
  rep := hst.rep
  isInit := hst.isInit
  pending h _ _ hB hlive hreq :=
    absurd (hlive.symm.trans ((hst.settled h).filled hst.rep hB hreq)) nofun
  watered := hm.watered

theorem exec_marked (hcalm : env.Calm) (hI : env.args.slotHWMDumpIntervalBytes < 2 ^ 64)
    (h : Afloat (.idle env) 0 1 .no s) (c : Call) :
    wp (c.exec (ctxOf env depth) bt) (fun _ => Marked (.idle env) 0 1 .no) (fun _ _ => True) s := by
  have hctx := ctxOf_ok env depth
  have hany : ∀ log, (Watch.idle env).E log := fun _ => trivial
  have hW : (ctxOf env depth).Waters (.idle env) := ctxOf_waters hcalm hI (.inl hany) depth
  have hcalm' : (ctxOf env depth).env.Calm := by
    rw [hctx.env_eq]
    exact hcalm
  have hfree : ∀ p, Maintains (Marked (.idle env) 0 1 .no) (fun _ _ => True)
      (free (ctxOf env depth) bt p) := fun _ => free_marked hcalm' trivial
  have halloc : ∀ a n, wp (memalignInt (ctxOf env depth) bt a n) (fun _ => Marked (.idle env) 0 1 .no)
      (fun _ _ => True) s := fun a n =>
    memalignInt_afloat hctx hW hcalm hI Watch.headroom_idle h (.inl hany)
  cases c with
  | malloc => exact halloc _ _
  | calloc =>
      refine wp_bind_of (halloc _ _) fun p => maintains_ite maintains_pure ?_
      exact (levels_memset.bind fun _ => levels_pure).marked trivial
  | realloc =>
      refine wp_bind_of (halloc _ _) fun p => maintains_ite maintains_pure ?_
      refine (levels_load64.marked trivial).bind fun _ => (levels_ldField.marked trivial).bind fun _ => ?_
      exact (levels_memcpy.marked trivial).bind fun _ => (hfree _).bind fun _ => maintains_pure
  | memalign => exact halloc _ _
  | posixMemalign =>
      refine wp_bind_of (wp_ite (fun _ => wp_pure h.marked) fun _ => ?_) fun _ _ h => wp_pure h
      exact wp_bind_of (halloc _ _) fun p => maintains_ite maintains_pure maintains_pure
  | free => exact (hfree _).bind (fun _ => maintains_pure) s h.marked
  | load => exact (levels_touch.marked trivial).bind (fun _ => maintains_pure) s h.marked
  | store => exact (levels_storeBytes.marked trivial).bind (fun _ => maintains_pure) s h.marked
  | onExit =>
      have hbegun : Marked (.idle env) 0 2 .no { s with log := .dumpBegun :: s.log } :=
        ⟨⟨h.stocked.same rfl rfl rfl, h.held, trivial⟩, h.watered.cons nofun⟩
      refine wp_bind_of (hW.dump _ _ _ _ _ _ trivial ⟨h.rep, h.isInit, h.pending, hbegun⟩) ?_
      exact fun _ _ h => wp_pure h.marked

theorem marked_static : Marked (.idle env) 0 1 .no Heap.static where
  stocked := ⟨⟨rfl, rfl⟩, le_rfl, Nat.zero_le _, fun _ hP => absurd hP List.not_mem_nil⟩
  held h := absurd rfl h
  watch := trivial
  watered :=
    { marks := fun _ => rfl
      triggered := fun _ _ _ _ h => absurd (List.suffix_nil.1 h) nofun
      rested := fun _ _ _ => nofun
      mark := fun _ => .inl rfl
      bounded := fun _ => Nat.zero_le _ }

theorem Step.marked (hcalm : env.Calm) (hI : env.args.slotHWMDumpIntervalBytes < 2 ^ 64)
    (hst : st.Inv env) (hm : Marked (.idle env) 0 1 .no st.heap) (hstep : Step env depth st c st') :
    Marked (.idle env) 0 1 .no st'.heap := by
  cases hstep with
  | @mk bt p s' hok hexec =>
      have hm' := wp_ok (exec_marked hcalm hI (hst.afloat hm) c) hexec
      exact hm'

theorem Reachable.marked (henv : env.Ok) (hcalm : env.Calm)
    (hI : env.args.slotHWMDumpIntervalBytes < 2 ^ 64) (hr : Reachable env depth st) :
    Marked (.idle env) 0 1 .no st.heap := by
  obtain ⟨s, cs, hb, hrun⟩ := hr
  have hinv := boot_inv henv hb
  have hcalm₀ : (ctxOf env.unsignalled depth).env.Calm := by
    rw [(ctxOf_ok _ depth).env_eq]
    exact env.unsignalled_calm
  have hboot := wp_ok (grInitialize_level hcalm₀) hb
  induction hrun with
  | refl => exact marked_static.level hboot
  | tail hrun hstep ih => exact hstep.marked hcalm hI (hrun.inv hinv) ih

end GuardRails
