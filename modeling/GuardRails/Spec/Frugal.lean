import GuardRails.Spec.Boot
import GuardRails.Spec.Reading
import GuardRails.Spec.Thrift

/-!
# Thrift over a run

The bins stay thrifty in every call of a client and of stdio, and so in dumps of any depth and
between the calls of every run. The constructor fills the bins that have marks.
-/

namespace GuardRails

open StateHoare

variable {env : Env} {args : GRArgs} {s s' s₀ s₁ : Heap} {ctx : Ctx} {own : List (ℕ × ℕ)}
  {D D' : ℕ → ℕ → Prop} {i b a n depth : ℕ} {bt : List ℕ} {st st' : Proc} {c : Call}

/-! ## Dumps -/

theorem memalignInt_frugal (hctx : ctx.Ok env) (hS : ctx.Saves env) (hcalm : env.Calm)
    (h : Frugal env s) (ha : a < 2 ^ 64) (hn : n < 2 ^ 64) :
    wp (memalignInt ctx bt a n)
      (fun p s' => Frugal env s' ∧ Keeps ∅ s s' ∧ (p ≠ 0 → ∃ x : Alloc, x.ptr = p ∧ x.size = n ∧
        (ledger s'.log).Live x ∧ ∀ A, (ledger s.log).block x.hdr = some A → ¬ A.Fixed))
      (fun _ _ => True) s := by
  have hspec : wp (memalignInt ctx bt a n) _ _ s :=
    memalignInt_spec (F := False) (G := False) hctx h.rep h.ready (fun _ => rfl) nofun ha hn nofun nofun
  refine wp_mono (wp_and (memalignInt_thrifty hctx hS hcalm h) hspec) ?_ fun _ _ _ => trivial
  rintro p s₁ ⟨ht, ⟨rfl, hc, -⟩ | ⟨-, x, B, rfl, hs, -⟩⟩
  · exact ⟨h.next hc.rep hc.keeps (by simp) ht, hc.keeps, fun h0 => absurd rfl h0⟩
  · exact ⟨h.next hs.call.rep hs.call.keeps (by simp) ht, hs.call.keeps,
      fun _ => ⟨x, rfl, hs.size_eq, hs.isLive, hs.new⟩⟩

theorem stdio_frugal (hctx : ctx.Ok env) (hS : ctx.Saves env) (hcalm : env.Calm) {t : ℕ}
    (calls : List StdioCall) (hcalls : ∀ c ∈ calls, c ∈ env.fileIO t ++ env.fmtIO t)
    (hc : InCall env False 0 ∅ s₀ s) (ho : OwnOk s₀ s own) (h : Frugal env s) :
    wp (stdio ctx calls own) (fun _ s' => Frugal env s') (fun _ _ => True) s := by
  induction calls generalizing own s with
  | nil => exact wp_pure h
  | cons c calls ih =>
      have hcalls' : ∀ c ∈ calls, c ∈ env.fileIO t ++ env.fmtIO t := fun c hc =>
        hcalls c (List.mem_cons_of_mem _ hc)
      cases c with
      | alloc bt alignment size =>
          obtain ⟨halign, hsize⟩ := hc.rep.shape.env_ok.stdio t _ (hcalls _ List.mem_cons_self)
          refine wp_bind_of (memalignInt_frugal hctx hS hcalm h halign hsize) ?_
          rintro p s₁ ⟨h₁, hK, hp⟩
          exact ih hcalls' (hc.trans h₁.rep hK) (ho.append hc hK h₁.rep hp) h₁
      | free bt idx =>
          unfold stdio
          cases he : own[idx]? with
          | none => exact ih hcalls' hc ho h
          | some e =>
              obtain ⟨p, size⟩ := e
              by_cases h0 : p = 0
              · subst h0
                refine wp_bind (wp_ite (fun _ => wp_pure ?_) fun h => absurd rfl h)
                exact ih hcalls' hc (ho.eraseIdx he (fun _ h _ => h) fun _ => rfl) h
              · obtain ⟨x, rfl, -, hla, hnew⟩ := ho.live _ (List.mem_of_getElem? he) h0
                refine wp_bind (wp_mono (wp_and (free_spec (F := False) (G := False) hctx h.rep h.ready hla)
                  (sparing_free (hctx.env_eq ▸ hcalm) s)) ?_ fun _ _ _ => trivial)
                rintro _ s₁ ⟨⟨hc₁, hset, -⟩, hd⟩
                refine ih hcalls' (hc.absorb hc₁ hnew hset) (ho.eraseIdx he (fun y hy hne => ?_)
                  fun h => absurd h h0) ?_
                · exact hc₁.keeps.live hc.rep hy fun heq => hne (congrArg _ (hy.hdr_inj hla heq))
                · refine h.next hc₁.rep hc₁.keeps (fun y hy A hA => ?_) (h.thrifty.dealt hd)
                  obtain rfl : y = x.hdr := hy
                  exact (hset A hA).homed
      | store idx off bytes =>
          unfold stdio
          cases he : own[idx]? with
          | none => exact ih hcalls' hc ho h
          | some e =>
              obtain ⟨p, size⟩ := e
              refine wp_ite (fun hin => ?_) fun _ => ih hcalls' hc ho h
              obtain ⟨x, rfl, rfl, hla, hnew⟩ := ho.live _ (List.mem_of_getElem? he) hin.1
              obtain ⟨B, hB, hlive, hoB, hp⟩ := hc.rep.log_ok.lawful.sound.live_inUse hla
              refine wp_bind (wp_storeBytes ?_ ?_)
              · exact (hc.rep.shape.user_open hB hp hoB).mono (by omega) (by omega)
              · have hc₁ := (InCall.refl hc.rep hc.ready).writeUser (Set.mem_singleton x.hdr) hB hp hoB
                  (m := ByteMemory.update s.mem (x.ptr + off) bytes.length fun i => bytes.getD i 0)
                  fun y hy => ByteMemory.update_of_notMem (by omega)
                have hset : SettledAt s x.hdr := .of_block hB (.inr (.inr ⟨hp, hlive⟩))
                refine ih hcalls' (hc.absorb hc₁ hnew hset) ⟨ho.live, ho.apart⟩ ?_
                exact ⟨hc₁.rep, h.isInit, h.homed, h.thrifty.dealt (.of_same rfl rfl rfl)⟩

theorem Frugal.tick (h : Frugal env s) : Frugal env { s with clock := s.clock + 1 } :=
  ⟨h.rep.tick _, h.isInit, h.homed, h.thrifty.dealt (.of_same rfl rfl rfl)⟩

theorem fmtOut_frugal (hctx : ctx.Ok env) (hS : ctx.Saves env) (hcalm : env.Calm) :
    Maintains (Frugal env) (fun _ _ => True) (fmtOut ctx) := by
  intro s h
  refine wp_bind (wp_tick ?_)
  rw [hctx.env_eq]
  exact stdio_frugal hctx hS hcalm (env.fmtIO s.clock) (fun c hc => List.mem_append_right _ hc)
    (.refl h.tick.rep h.tick.ready) .nil h.tick

theorem dumpOffsets_frugal (hctx : ctx.Ok env) (hS : ctx.Saves env) (hcalm : env.Calm) :
    Maintains (Frugal env) (fun _ _ => True) (dumpOffsets ctx) := by
  intro s h
  refine wp_bind (wp_tick ?_)
  rw [hctx.env_eq]
  exact stdio_frugal hctx hS hcalm (env.fileIO s.clock) (fun c hc => List.mem_append_left _ hc)
    (.refl h.tick.rep h.tick.ready) .nil h.tick

theorem readable_frugal (hctx : ctx.Ok env) (hS : ctx.Saves env) (hcalm : env.Calm) :
    Readable ctx (Frugal env) fun _ _ => True where
  halt _ _ _ := trivial
  tick _ h := h.tick
  lock _ _ h hl := h.lock hl
  unlock _ _ h := ⟨h.rep.unlockHeap, h.isInit, h.homed, h.thrifty.dealt .unlockHeap⟩
  fmtOut := fmtOut_frugal hctx hS hcalm

/-- A dump goes through its slots with thrifty bins. -/
theorem onExitHelperBody_frugal (hctx : ctx.Ok env) (hS : ctx.Saves env) (hcalm : env.Calm)
    {hwm : ℕ} (h : Frugal env s) (hd : Dumping env False 0 s₀ s) :
    wp (onExitHelperBody ctx hwm) (fun _ s' => Frugal env s') (fun _ _ => True) s := by
  have hfmt := fmtOut_frugal hctx hS hcalm
  refine wp_bind (wp_mono (wp_and (dumpOffsets_frugal hctx hS hcalm s h)
    (dumpOffsets_spec (G := False) hctx (fun _ => rfl) hd.call hd.chatty)) ?_ fun _ _ _ => trivial)
  rintro _ s₁ ⟨h₁, hd₁⟩
  refine wp_bind (wp_mono (wp_and (hfmt s₁ h₁)
    ((hd.step hd₁).fmtOut (G := False) hctx fun _ => rfl)) ?_ fun _ _ _ => trivial)
  rintro _ s₂ ⟨h₂, hd₂⟩
  refine wp_bind (wp_get ?_)
  rw [h₂.rep.shape.args_eq]
  have hwalk := maintains_foldlM (fun d i => (readable_frugal hctx hS hcalm).dumpSlot (d := d) (i := i))
    (List.range env.args.numSlots) { hwm := hwm } s₂ h₂
  refine wp_bind (wp_mono (wp_and hwalk (dumpSlots_spec (G := False) hctx (fun _ => rfl) hd₂.again)) ?_
    fun _ _ _ => trivial)
  rintro d s₃ ⟨h₃, hd₃, hdump⟩
  have hd₄ := hd₃.again.dumped hdump
  have h₄ := h₃.next hd₄.call.rep hd₄.call.keeps (by simp) (h₃.thrifty.dealt (.emit (e := .dumped d)))
  exact wp_bind (wp_emit (wp_ite (fun _ => wp_bind (wp_throw trivial)) fun _ => hfmt _ h₄))

/-- Dumps of any depth leave the bins thrifty. -/
theorem ctxOf_saves (hcalm : env.Calm) (depth : ℕ) : (ctxOf env depth).Saves env := by
  induction depth with
  | zero => exact fun b hwm s _ => wp_bind (wp_emit (wp_throw trivial))
  | succ depth ih =>
      intro b hwm s h
      have hd := h.rep.dumpBegun (F := False) h.ready nofun
      have h₁ : Frugal env { s with log := .dumpBegun :: s.log } :=
        ⟨hd.call.rep, h.isInit, h.homed, h.thrifty.dealt (.emit (e := .dumpBegun))⟩
      refine wp_bind (wp_emit (wp_bind_of (onExitHelperBody_frugal (ctxOf_ok env depth) ih hcalm h₁ hd) ?_))
      exact fun _ s₂ h₂ => wp_emit (h₂.thrifty.dealt (.emit (e := .dumpEnded)))

/-! ## Calls -/

theorem Proc.Inv.frugal (hst : st.Inv env) (ht : Thrifty env.args env.args.Marks st.heap) :
    Frugal env st.heap :=
  ⟨hst.rep, hst.isInit, fun h B hB => (hst.settled h B hB).homed, ht⟩

theorem exec_thrifty (hcalm : env.Calm) (h : Frugal env s) (c : Call) :
    wp (c.exec (ctxOf env depth) bt) (fun _ s' => Thrifty env.args env.args.Marks s')
      (fun _ _ => True) s := by
  have hctx := ctxOf_ok env depth
  have hS := ctxOf_saves hcalm depth
  have hfree : ∀ p, Sparing (free (ctxOf env depth) bt p) := by
    refine fun _ => sparing_free ?_
    rw [hctx.env_eq]
    exact hcalm
  have halloc : ∀ {α : Type} {a n : ℕ} {f : ℕ → M α}, (∀ p, Sparing (f p)) →
      wp (memalignInt (ctxOf env depth) bt a n >>= f)
        (fun _ s' => Thrifty env.args env.args.Marks s') (fun _ _ => True) s := fun hf =>
    wp_bind_of (memalignInt_thrifty hctx hS hcalm h) fun p s₁ h₁ => (hf p).maintains s₁ h₁
  cases c with
  | malloc => exact memalignInt_thrifty hctx hS hcalm h
  | calloc =>
      refine halloc fun p => dealing_ite dealing_pure ?_
      exact dealing_memset.seq fun _ => dealing_pure
  | realloc =>
      refine halloc fun p => dealing_ite dealing_pure (dealing_load64.seq fun _ => dealing_ldField.seq fun _ => ?_)
      exact dealing_memcpy.seq fun _ => (hfree _).seq fun _ => dealing_pure
  | memalign => exact memalignInt_thrifty hctx hS hcalm h
  | posixMemalign =>
      refine wp_bind_of (wp_ite (fun _ => wp_pure h.thrifty) fun _ => ?_) fun _ _ h => wp_pure h
      exact halloc fun p => dealing_ite dealing_pure dealing_pure
  | free => exact Sparing.maintains ((hfree _).seq fun _ => dealing_pure) s h.thrifty
  | load => exact Sparing.maintains (dealing_touch.seq fun _ => dealing_pure) s h.thrifty
  | store => exact Sparing.maintains (dealing_storeBytes.seq fun _ => dealing_pure) s h.thrifty
  | onExit => exact wp_bind_of (hS _ _ _ h) fun _ _ h => wp_pure h

theorem Step.thrifty (hcalm : env.Calm) (hst : st.Inv env)
    (ht : Thrifty env.args env.args.Marks st.heap) (hstep : Step env depth st c st') :
    Thrifty env.args env.args.Marks st'.heap := by
  cases hstep with
  | @mk bt p s' hok hexec =>
      have ht' := wp_ok (exec_thrifty hcalm (hst.frugal ht) c) hexec
      exact ht'

/-! ## Setting up -/

/-- The constructor is filling the bins `D`. -/
structure Filling (env : Env) (D : ℕ → ℕ → Prop) (s₀ s : Heap) : Prop where
  call : InCall env False 0 ∅ s₀ s
  homed : (ledger s.log).Homed
  thrifty : Thrifty env.args D s

theorem replenishBin_page (hctx : ctx.Ok env) (hcalm : env.Calm) (hb : b < 12) :
    wp (replenishBin ctx i b) (fun ret s' => ret = 0 ∧ s' = s) (fun _ _ => True) s := by
  have hpage : 2 ^ b < 2 ^ 12 := Nat.pow_lt_pow_right (by decide) hb
  unfold replenishBin
  refine wp_bind (wp_poll_none (hctx.env_eq ▸ hcalm) (wp_bind (wp_verifyLocked (wp_bind ?_))))
  refine wp_grAssert (fun _ => wp_ite (fun _ => wp_throw trivial) fun _ => ?_) fun _ => trivial
  exact wp_ite (fun _ => wp_pure ⟨rfl, rfl⟩) fun h => absurd hpage h

theorem replenishBins_thrifty (hctx : ctx.Ok env) (hcalm : env.Calm) {bins : List ℕ}
    (hbins : ∀ b ∈ bins, b < 12 ∨ b ∈ markedBins) (hi : i < env.args.numSlots)
    (hlock : (s.mutex (.slot i)).locked = true) (h : Filling env D s₀ s) :
    wp (replenishBins ctx i bins)
      (fun _ s' => Filling env (fun j c => D j c ∨ j = i ∧ 12 ≤ c ∧ c ∈ bins) s₀ s')
      (fun _ _ => True) s := by
  induction bins generalizing D s with
  | nil => exact wp_pure ⟨h.call, h.homed, h.thrifty.mono fun j c hjc => hjc.resolve_right (by simp)⟩
  | cons b bins ih =>
      have hbins' : ∀ b ∈ bins, b < 12 ∨ b ∈ markedBins := fun c hc => hbins c (List.mem_cons_of_mem b hc)
      unfold replenishBins
      rcases hbins b List.mem_cons_self with hb | hb
      · refine wp_bind_of (replenishBin_page hctx hcalm hb) ?_
        rintro _ _ ⟨rfl, rfl⟩
        refine wp_ite (fun h => absurd rfl h) fun _ => wp_mono (ih hbins' hlock h) ?_ fun _ _ h => h
        refine fun _ s' h' => ⟨h'.call, h'.homed, h'.thrifty.mono fun j c hjc => hjc.imp_right ?_⟩
        rintro ⟨rfl, hc, hmem⟩
        refine ⟨rfl, hc, List.mem_of_ne_of_mem ?_ hmem⟩
        rintro rfl
        omega
      · have hb₁ : 12 ≤ b := (show ∀ b ∈ markedBins, 12 ≤ b by decide) b hb
        refine wp_bind_of (replenishBin_restocked hctx hcalm h.call.rep h.call.ready hb₁ hlock) ?_
        rintro ret s₁ ⟨-, hb₂, hres, hs, hr⟩
        have hhomed := h.homed.keeps hres.call.keeps (by simp)
        have ht := hr.thrifty h.thrifty h.call.rep hres.call.rep.log_ok.lawful hhomed hi hb₂
          fun _ => ⟨hi, hb⟩
        have hc := h.call.trans hres.call.rep hres.call.keeps
        refine wp_ite (fun h0 => wp_pure ⟨hc, hhomed, ?_⟩) fun _ => ?_
        · exact { ht with stocked := .inl (hr.short h0).2.2 }
        · have hlock₁ := (hres.call.keeps.mutex (.slot i)) ▸ hlock
          refine wp_mono (ih hbins' hlock₁ ⟨hc, hhomed, ht⟩) ?_ fun _ _ h => h
          refine fun _ s' h' => ⟨h'.call, h'.homed, h'.thrifty.mono fun j c hjc => ?_⟩
          rcases hjc with hjc | ⟨rfl, hc, hmem⟩
          · exact .inl (.inl hjc)
          · exact (List.mem_cons.1 hmem).imp (fun h => .inr ⟨rfl, h⟩) fun h => ⟨rfl, hc, h⟩

theorem replenishSlots_thrifty (hctx : ctx.Ok env) (hcalm : env.Calm) {slots : List ℕ}
    (hslots : ∀ i ∈ slots, i < env.args.numSlots) (h : Filling env D s s) :
    wp (replenishSlots ctx slots)
      (fun _ s' => Thrifty env.args (fun j c => D j c ∨ j ∈ slots ∧ c ∈ markedBins) s')
      (fun _ _ => True) s := by
  induction slots generalizing D s with
  | nil => exact wp_pure (h.thrifty.mono fun j c hjc => hjc.resolve_right (by simp))
  | cons i slots ih =>
      have hi := hslots i List.mem_cons_self
      unfold replenishSlots
      refine wp_bind (wp_pthreadMutexLock (fun hl => ?_) fun _ _ => trivial)
      have h₁ : Filling env D (s.lockHeap (.slot i)) (s.lockHeap (.slot i)) :=
        ⟨.refl (h.call.rep.lockHeap hl) (h.call.ready.lockHeap i), h.homed, h.thrifty.dealt .lockHeap⟩
      have hlock : ((s.lockHeap (.slot i)).mutex (.slot i)).locked = true := locked_lockHeap
      have hm := h.call.rep.shape.locks.slot i
      rw [h.call.rep.shape.args_eq, decide_eq_true hi] at hm
      obtain ⟨s₁, hs₁⟩ : ∃ s₁, s₁ = s.lockHeap (.slot i) := ⟨_, rfl⟩
      rw [← hs₁] at h₁ hlock ⊢
      have hbins : ∀ b ∈ List.range maxPreallocPower, b < 12 ∨ b ∈ markedBins := by decide
      refine wp_bind (wp_verifyLocked (wp_bind (wp_grAssert (fun _ => ?_) fun _ => trivial)))
      refine wp_bind_of (replenishBins_thrifty hctx hcalm hbins hi hlock h₁) fun _ s₂ h₂ => ?_
      have hcall : InCall env False 0 ∅ s (s₂.unlockHeap (.slot i)) :=
        h.call.trans h₂.call.rep.unlockHeap ((hs₁ ▸ h₂.call.keeps).bracket hm hl)
      refine wp_bind (wp_pthreadMutexUnlock (wp_mono (ih (fun j hj => hslots j (List.mem_cons_of_mem i hj))
        ⟨.refl hcall.rep hcall.ready, h₂.homed, h₂.thrifty.dealt .unlockHeap⟩) (fun _ _ h => ?_) fun _ _ h => h))
      refine h.mono fun j c hjc => ?_
      rcases hjc with hjc | ⟨hj, hc⟩
      · exact .inl (.inl hjc)
      · refine (List.mem_cons.1 hj).imp (fun hj => .inr ⟨hj, ?_⟩) fun hj => ⟨hj, hc⟩
        exact (show ∀ c ∈ markedBins, 12 ≤ c ∧ c ∈ List.range maxPreallocPower by decide) c hc

/-- Before the first pool there is nothing to be thrifty with. -/
theorem Thrifty.blank (hslots : ∀ i, s.memSlots i = if i < args.numSlots then initSlot {} else {})
    (hpools : s.memPools = []) (hlog : ∀ i b, supplied i b s.log = []) :
    Thrifty args (fun _ _ => False) s where
  water i b := by
    rw [Heap.bin, hslots, GRArgs.water]
    by_cases hm : args.Marks i b
    · rw [if_pos hm, if_pos hm.1]
      simp [initSlot, hm.2, MemBin.water]
    · rw [if_neg hm]
      by_cases hi : i < args.numSlots
      · have hb : b ∉ markedBins := fun hb => hm ⟨hi, hb⟩
        simp [initSlot, hi, hb, MemBin.water]
      · simp [hi, MemBin.water]
  supplied_le i b := by
    rw [hlog]
    exact Nat.zero_le _
  used := by simp [hpools, poolsUsed, suppliedBytes, hlog]
  stocked := .inr fun _ _ h => h.elim

theorem addNewMemPool_dealt (hctx : ctx.env = env) (hR : Rep env 0 s) (hg : s.gMutex.locked = true) :
    wp (addNewMemPool ctx n) (fun ret s' => ret = 0 → Dealt Event.deals [] s s') (fun _ _ => True) s := by
  refine wp_mono (addNewMemPool_run hctx hR.shape.args_eq hg) (fun ret s' hIs h0 => ?_) fun _ _ _ => trivial
  cases hgrow : s.supply.grow env n with
  | granted u p =>
      rw [hgrow] at hIs
      obtain ⟨-, hD, -⟩ := hIs
      have hused := (Supply.grow_taken hR.sane hgrow).1.used
      refine ⟨fun i b => congrArg MemBin.water (hD.bin i b), ?_, [], ?_, rfl⟩
      · rw [← hD.supply] at hused
        exact hused
      · obtain ⟨m, pages, rfl⟩ := hD
        rfl
  | refused u p =>
      rw [hgrow] at hIs
      exact absurd (h0.symm.trans hIs.1) (by decide)
  | stopped =>
      rw [hgrow] at hIs
      exact hIs.elim

/-- The constructor sets the marks and fills the bins that have them. -/
theorem grInitialize_thrifty (hctx : ctx.Ok env) (hcalm : env.Calm) (henv : env.Ok) :
    wp (grInitialize ctx) (fun _ s => Thrifty env.args env.args.Marks s) (fun _ _ => True) Heap.static := by
  unfold grInitialize
  rw [hctx.env_eq]
  refine wp_bind (wp_get (wp_ite nofun fun _ => ?_))
  refine wp_bind (wp_grAssert_of (by decide) (wp_bind (wp_grAssert_of (by decide) ?_)))
  refine wp_bind (wp_modify (wp_bind (wp_pthreadMutexLock (fun _ => ?_) nofun)))
  refine wp_bind (wp_bind (wp_modify (wp_bind (wp_get (wp_pure ?_)))))
  extract_lets initSize
  clear_value initSize
  refine wp_bind (wp_pthreadMutexLock (fun _ => ?_) nofun)
  refine wp_bind_of (Q := fun _ s => Rep env 0 s ∧ s.initMutex = { locked := true } ∧
    s.gMutex = { locked := true } ∧ (ledger s.log).Homed ∧ Thrifty env.args (fun _ _ => False) s)
    (wp_modify ?_) ?_
  · refine ⟨⟨?_, ?_⟩, rfl, rfl, ?_, .blank (fun _ => rfl) rfl fun _ _ => rfl⟩
    · exact (logOk_nil.neutral (e := .acquired .initMutex) trivial).neutral
        (e := .acquired .gMutex) trivial
    · refine .blank henv rfl (fun _ => rfl) rfl (fun _ => rfl) (fun _ => rfl) (fun _ _ => rfl) ?_ ?_
      · exact Mutex.ok_locked
      · exact Mutex.ok_locked
    · intro h B hB
      exact nomatch hB
  rintro _ s₁ ⟨hR₁, hi₁, hg₁, hhomed₁, ht₁⟩
  have hlocked : s₁.gMutex.locked = true := by rw [hg₁]
  have hspec : wp (addNewMemPool ctx initSize) _ _ s₁ :=
    addNewMemPool_spec (F := False) (G := False) hctx hR₁ hlocked (.inr (by rw [hi₁])) fun _ => rfl
  refine wp_bind (wp_mono (wp_and (addNewMemPool_dealt hctx.env_eq hR₁ hlocked) hspec) ?_ fun _ _ _ => trivial)
  rintro ret s₂ ⟨hd₂, hR₂, hK₂, -⟩
  refine wp_bind (wp_grAssert (fun h0 => wp_bind (wp_pthreadMutexUnlock ?_)) fun _ => trivial)
  have hi₂ : s₂.initMutex = { locked := true } := (hK₂.mutex .initMutex).trans hi₁
  have hready : Ready env False (s₂.unlockHeap .gMutex) := by
    refine ⟨nofun, .inr ?_, nofun⟩
    change ((s₂.unlockHeap .gMutex).mutex .initMutex).locked = true
    rw [mutex_unlockHeap, if_neg (by decide)]
    change s₂.initMutex.locked = true
    rw [hi₂]
  have hhomed₂ := hhomed₁.keeps hK₂ (by simp)
  have hfill : Filling env (fun _ _ => False) (s₂.unlockHeap .gMutex) (s₂.unlockHeap .gMutex) :=
    ⟨.refl hR₂.unlockHeap hready, hhomed₂, (ht₁.dealt (hd₂ h0)).dealt .unlockHeap⟩
  refine wp_bind_of (replenishSlots_thrifty hctx hcalm (fun i hi => List.mem_range.1 hi) hfill) ?_
  intro _ s₃ h₃
  have hmarks : Thrifty env.args env.args.Marks s₃ :=
    h₃.mono fun i b hib => .inr ⟨List.mem_range.2 hib.1, hib.2⟩
  have hinit : Dealt Event.deals [] s₃ { s₃ with isInit := true } := .of_same rfl rfl rfl
  exact wp_bind (wp_modify (wp_pthreadMutexUnlock ((hmarks.dealt hinit).dealt .unlockHeap)))

/-- The bins are thrifty between the calls of every run. -/
theorem Reachable.thrifty (henv : env.Ok) (hcalm : env.Calm) (hr : Reachable env depth st) :
    Thrifty env.args env.args.Marks st.heap := by
  obtain ⟨s, cs, hb, hrun⟩ := hr
  have hinv := boot_inv henv hb
  have hboot := wp_ok (grInitialize_thrifty (ctxOf_ok _ depth) env.unsignalled_calm henv.unsignalled) hb
  induction hrun with
  | refl => exact hboot
  | tail hrun hstep ih => exact hstep.thrifty hcalm (hrun.inv hinv) ih

end GuardRails
