import GuardRails.Spec.Afloat
import GuardRails.Spec.Drain
import GuardRails.Spec.Tally

/-!
# Dumps that complete

When stdio does not allocate at all a dump only reads, so it comes to its end unless it has
nothing to divide by. An allocation that starts such a dump at a high-water mark is served
like any other.
-/

namespace GuardRails

open StateHoare

variable {env : Env} {off : Off} {L : Ledger} {ctx : Ctx} {s s' s₀ s₁ : Heap} {log evs : List Event}
  {e : Halt} {depth n b : ℕ} {bt hs : List ℕ} {p : Supply} {st : Proc}

def Env.Unbuffered (env : Env) : Prop := ∀ t, env.fileIO t = [] ∧ env.fmtIO t = []

/-- There is something to divide by at the end of a dump. -/
structure Weighty (slots : ℕ) (s : Heap) : Prop where
  alloced : ¬ ((List.range slots).map fun i => s.allocedBytes 0 i (List.range maxAllocPower)).sum ≡
    0 [MOD 2 ^ 64]
  guarded : ¬ ((List.range slots).map fun i => s.allocedBytes pageSize i (List.range maxAllocPower)).sum ≡
    0 [MOD 2 ^ 64]
  requested : ¬ ((List.range slots).map fun i => s.requestedBytes i (List.range maxAllocPower)).sum ≡
    0 [MOD 2 ^ 64]

/-- No dump is under way, and nothing was refused. -/
def Tame (log : List Event) : Prop := openDumps log = 0 ∧ ∀ e ∈ log, ¬ e.Excuse

/-- Nothing was refused, and if there is a dump under way it is no dump without end. -/
def Brisk (e : Halt) (s : Heap) : Prop :=
  (∀ e ∈ s.log, ¬ e.Excuse) ∧ (openDumps s.log = 0 ∨ e.Prompt)

theorem Tame.brisk (h : Tame s.log) : Brisk e s := ⟨h.2, .inl h.1⟩

theorem openDumps_append (h : ∀ e ∈ evs, e.Plain) : openDumps (evs ++ log) = openDumps log := by
  induction evs with
  | nil => rfl
  | cons e evs ih =>
      obtain ⟨he, hevs⟩ := List.forall_mem_cons.1 h
      rw [List.cons_append]
      cases e <;> first | exact ih hevs | exact he.elim

theorem Tame.append (h : Tame log) (hevs : ∀ e ∈ evs, e.Plain) : Tame (evs ++ log) :=
  ⟨(openDumps_append hevs).trans h.1,
    fun e he => (List.mem_append.1 he).elim (fun he => (hevs e he).not_excuse) (h.2 e)⟩

theorem Tame.unexcused (h : Tame s.log) (hE : Unexcused s e s') : Brisk e s' := by
  obtain ⟨evs, hevs, hlog⟩ := hE
  have htame := h.append hevs
  rw [← hlog] at htame
  exact htame.brisk

/-- A call without an excuse returns. -/
theorem returns {α : Type} {m : M α} {Q Q' : α → Heap → Prop} {G : Prop} (hcalm : env.Calm)
    (hstdio : env.StdioFits) (h : wp m Q (Halted env True G) s) (h' : wp m Q' Brisk s) :
    ∃ a s', m s = .ok a s' ∧ Q a s' ∧ Q' a s' := by
  cases hm : m s with
  | ok a s' => exact ⟨a, s', rfl, wp_ok h hm, wp_ok h' hm⟩
  | error e s' =>
      obtain ⟨hexcuse, hbrisk⟩ := wp_error h' hm
      rcases (wp_error h hm).excuse trivial with (⟨-, hfits⟩ | ⟨x, hx, hex⟩) | ⟨hopen, hhalt⟩
      · exact absurd hstdio hfits
      · exact absurd hex (hexcuse x hx)
      · obtain ⟨hhang, hdiv⟩ := hbrisk.resolve_left hopen.ne'
        rcases hhalt with h | h | ⟨-, -, hsignals⟩
        · exact absurd h hhang
        · exact absurd h hdiv
        · exact absurd hcalm hsignals

/-! ## The dump -/

theorem Same.clock (hs : Same s₀ s) (t : ℕ) : Same s₀ { s with clock := t } := { hs with }

theorem dumpSlots_quiet (henv : ctx.env = env) (hq : env.Quiet) (hS : Shape env off L s₀)
    (hL : L.Sound) (d : Dump) (slots : List ℕ) (hs : Same s₀ s) :
    wp (slots.foldlM (dumpSlot ctx) d)
      (fun d' s' => Same s₀ s' ∧ d.Sums d'
        (slots.map fun i => s₀.allocedBytes 0 i (List.range maxAllocPower)).sum
        (slots.map fun i => s₀.allocedBytes pageSize i (List.range maxAllocPower)).sum
        (slots.map fun i => s₀.requestedBytes i (List.range maxAllocPower)).sum)
      (fun e s' => e.Prompt ∧ Same s₀ s') s := by
  refine wp_foldlM (fun done d' s' => Same s₀ s' ∧ d.Sums d'
    (done.map fun i => s₀.allocedBytes 0 i (List.range maxAllocPower)).sum
    (done.map fun i => s₀.allocedBytes pageSize i (List.range maxAllocPower)).sum
    (done.map fun i => s₀.requestedBytes i (List.range maxAllocPower)).sum) slots d ⟨hs, .refl⟩ ?_
  rintro done i _ d' s' - ⟨hs', hsums⟩
  refine wp_mono (dumpSlot_exact henv hq hS hL hs') ?_ fun _ _ h => h
  rintro d'' s'' ⟨hs'', -, hslot⟩
  have hsum : ∀ f : ℕ → ℕ, ((done ++ [i]).map f).sum = (done.map f).sum + f i := by simp
  refine ⟨hs'', ?_⟩
  rw [hsum, hsum, hsum]
  exact hsums.trans hslot

/-- A dump of a silent stdio leaves a record of what it found, and nothing else. -/
theorem onExitHelperBody_quiet (henv : ctx.env = env) (hun : env.Unbuffered)
    (hS : Shape env off L s₀) (hL : L.Sound) (hw : Weighty env.args.numSlots s₀) {hwm : ℕ} :
    wp (onExitHelperBody ctx hwm)
      (fun _ s' => ∃ d s₁ t, Same s₀ s₁ ∧ s' = { s₁ with log := .dumped d :: s₁.log, clock := t })
      (fun e s' => e.Prompt ∧ Same s₀ s') s₀ := by
  have hq : env.Quiet := fun t => (hun t).2
  refine wp_bind (wp_bind (wp_tick ?_))
  rw [henv, (hun _).1]
  refine wp_pure (wp_bind (wp_fmtOut_quiet henv hq Same.refl.tick fun s₁ hs₁ => ?_))
  refine wp_bind (wp_get ?_)
  rw [hs₁.grArgs, hS.args_eq]
  refine wp_bind_of (dumpSlots_quiet henv hq hS hL { hwm := hwm } _ hs₁) ?_
  rintro d s₂ ⟨hs₂, hsums⟩
  have hzero : ∀ {x n : ℕ}, x ≡ 0 + n [MOD 2 ^ 64] → ¬ n ≡ 0 [MOD 2 ^ 64] → x ≠ 0 := by
    rintro x n hx hn rfl
    rw [Nat.zero_add] at hx
    exact hn hx.symm
  refine wp_bind (wp_emit (wp_ite (fun h => ?_) fun _ => ?_))
  · rcases h with h | h | h
    · exact absurd h (hzero hsums.guarded hw.guarded)
    · exact absurd h (hzero hsums.alloced hw.alloced)
    · exact absurd h (hzero hsums.requested hw.requested)
  · refine wp_bind (wp_tick ?_)
    rw [henv, (hun _).2]
    exact wp_pure ⟨d, s₂, _, hs₂, rfl⟩

/-- It was a dump, and it changed no counter. -/
theorem onExitHelper_quiet (hun : env.Unbuffered) (hS : Shape env off L s) (hL : L.Sound)
    (hw : Weighty env.args.numSlots s) (ht : Tame s.log) {on : Bool} {hwm : ℕ} :
    wp ((ctxOf env (depth + 1)).onExitHelper on hwm)
      (fun _ s' => Tame s'.log ∧ .dumpBegun ∈ s'.log ∧
        ∀ i, (s'.memSlots i).totalUserRequestedBytes = (s.memSlots i).totalUserRequestedBytes)
      Brisk s := by
  have hlog : ∀ {s₁}, Same { s with log := .dumpBegun :: s.log } s₁ →
      openDumps s₁.log = 1 ∧ (∀ e ∈ s₁.log, ¬ e.Excuse) ∧ .dumpBegun ∈ s₁.log := by
    intro s₁ hs
    obtain ⟨evs, hlog, hevs⟩ := hs.log
    have hplain : ∀ e ∈ evs, e.Plain := by
      intro e he
      rcases hevs e he with ⟨l, rfl | rfl⟩ <;> trivial
    rw [hlog]
    refine ⟨(openDumps_append hplain).trans (congrArg (· + 1) ht.1), fun e he => ?_, by simp⟩
    rcases List.mem_append.1 he with he | he
    · exact (hplain e he).not_excuse
    · rcases List.mem_cons.1 he with rfl | he
      · exact id
      · exact ht.2 e he
  have hS' : Shape env off L { s with log := .dumpBegun :: s.log } := hS.setLog _ s.clock
  have hw' : Weighty env.args.numSlots { s with log := .dumpBegun :: s.log } := ⟨hw.1, hw.2, hw.3⟩
  refine wp_bind (wp_emit (wp_bind (wp_mono (onExitHelperBody_quiet (ctxOf_ok env depth).env_eq
    hun hS' hL hw') ?_ ?_)))
  · rintro _ _ ⟨d, s₁, t, hs, rfl⟩
    obtain ⟨hopen, hexcuse, hmem⟩ := hlog hs
    refine wp_emit ⟨⟨?_, fun e he => ?_⟩, ?_, fun i => ?_⟩
    · change openDumps s₁.log - 1 = 0
      rw [hopen]
    · rcases List.mem_cons.1 he with rfl | he
      · exact id
      · rcases List.mem_cons.1 he with rfl | he
        · exact id
        · exact hexcuse e he
    · exact List.mem_cons_of_mem _ (List.mem_cons_of_mem _ hmem)
    · obtain ⟨m, hm⟩ := hs.slot i
      change (s₁.memSlots i).totalUserRequestedBytes = _
      rw [hm]
  · rintro e s' ⟨he, hs⟩
    exact ⟨(hlog hs).2.1, .inr he⟩

/-! ## The allocation that starts it -/

/-- The request of slot `i` that was just counted starts a dump, which has something to divide by. -/
structure Crossing (env : Env) (i : ℕ) (s : Heap) : Prop where
  rep : Rep env 0 s
  tame : Tame s.log
  weighty : Weighty env.args.numSlots s
  high : (s.memSlots i).hwmUsrBytes >
    ((s.memSlots i).lastHWMUsrBytesDump + env.args.slotHWMDumpIntervalBytes) % 2 ^ 64
  below : (s.memSlots i).totalUserRequestedBytes ≤ env.args.maxRequestedBytes

theorem Weighty.updSlot {slots i : ℕ} {f : MemSlot → MemSlot} (h : Weighty slots s)
    (hf : ∀ S, (f S).memBins = S.memBins) : Weighty slots (s.updSlot i f) := by
  have hbin : ∀ j b, (s.updSlot i f).bin j b = s.bin j b := by
    intro j b
    simp only [Heap.bin, Heap.updSlot, Function.update_apply]
    split
    · rename_i hj
      rw [hf, hj]
    · rfl
  have halloced : ∀ extra j bs, (s.updSlot i f).allocedBytes extra j bs = s.allocedBytes extra j bs := by
    intro extra j bs
    simp only [Heap.allocedBytes, hbin]
  refine ⟨?_, ?_, h.requested⟩
  · simp only [halloced]
    exact h.alloced
  · simp only [halloced]
    exact h.guarded

theorem limitDumps_quiet {i : ℕ} (hcalm : env.Calm) (hun : env.Unbuffered) (h : Crossing env i s) :
    wp (limitDumps (ctxOf env (depth + 1)) i) (fun _ s' => Tame s'.log ∧ .dumpBegun ∈ s'.log) Brisk s := by
  have hcalm' : (ctxOf env (depth + 1)).env.Calm := (ctxOf_ok env (depth + 1)).env_eq ▸ hcalm
  unfold limitDumps
  refine wp_bind (wp_poll_none hcalm' (wp_bind (wp_get ?_)))
  extract_lets S
  refine wp_bind (wp_get ?_)
  extract_lets args rest
  have hargs : args = env.args := h.rep.shape.args_eq
  rw [hargs]
  refine wp_ite (fun _ => ?_) fun hn => absurd h.high hn
  refine wp_bind (wp_poll_none hcalm' (wp_bind (wp_modify (wp_bind (wp_poll_none hcalm' ?_)))))
  have hset := h.rep.setLastDump i
  refine wp_bind (wp_get (wp_bind_of (onExitHelper_quiet hun hset.shape hset.log_ok.lawful.sound
    (h.weighty.updSlot fun _ => rfl) h.tame) ?_))
  rintro _ s₁ ⟨htame, hmem, htotal⟩
  refine wp_bind (wp_poll_none hcalm' (wp_bind (wp_get (wp_ite (fun hgt => ?_) fun _ => wp_pure ⟨htame, hmem⟩))))
  refine absurd hgt (not_lt.2 ?_)
  rw [htotal i, hargs]
  refine le_trans (le_of_eq ?_) h.below
  simp [Heap.updSlot]

/-- A request that starts a dump is served once the dump is over. -/
theorem memalignInt_quiet {a : ℕ} (hu : env.Granting) (hun : env.Unbuffered) (hinit : s.isInit = true)
    (hb : b = log2fast (max pageSize (allocSizeOf s.grArgs a n)))
    (hclaim : wp (claimBuf (ctxOf env (depth + 1)) bt b n)
      (fun r s' => ∃ hdr, r = (0, some hdr) ∧ Crossing env 0 s') Brisk s) :
    wp (memalignInt (ctxOf env (depth + 1)) bt a n) (fun _ s' => Tame s'.log ∧ .dumpBegun ∈ s'.log)
      Brisk s := by
  have henv : (ctxOf env (depth + 1)).env = env := (ctxOf_ok env (depth + 1)).env_eq
  have hkeep : ∀ {evs s₁ s₂}, Tame s₁.log ∧ .dumpBegun ∈ s₁.log → Emits evs s₁ s₂ →
      Tame s₂.log ∧ .dumpBegun ∈ s₂.log := by
    rintro evs s₁ s₂ ⟨ht, hmem⟩ he
    rw [he.log]
    exact ⟨ht.append he.plain, List.mem_append_right evs hmem⟩
  unfold memalignInt
  refine wp_bind (wp_get ?_)
  extract_lets allocSize rest
  refine wp_bind (wp_get (wp_ite (fun h => Bool.noConfusion (hinit.symm.trans h)) fun _ => ?_))
  have hbuf : wp (getBuf (ctxOf env (depth + 1)) bt allocSize n)
      (fun _ s' => Tame s'.log ∧ .dumpBegun ∈ s'.log) Brisk s := by
    rw [getBuf_eq, ← hb]
    refine wp_bind_of hclaim ?_
    rintro _ s₁ ⟨hdr, rfl, hd⟩
    refine wp_bind_of (limitDumps_quiet hu.calm hun hd) fun _ s₂ h₂ => ?_
    have hlast : Logs [.released (.slot 0)] (do
        (ctxOf env (depth + 1)).poll 390
        pthreadMutexUnlock (.slot 0)
        (ctxOf env (depth + 1)).poll 393
        grAssert (.guardRails 393) ((← ldField hdr .magic) = magicFree)
        (ctxOf env (depth + 1)).poll 395
        pure (hdr, hdr + 2 ^ b)) := by
      refine (logs_poll henv hu _).seq fun _ => logs_pthreadMutexUnlock.then fun _ => ?_
      refine (logs_poll henv hu _).seq fun _ => logs_ldField.seq fun _ => logs_grAssert.seq fun _ => ?_
      exact (logs_poll henv hu _).seq fun _ => logs_pure
    exact wp_mono (hlast s₂) (fun _ _ h => hkeep h₂ h.1) fun _ _ hE => h₂.1.unexcused hE
  refine wp_bind_of hbuf ?_
  rintro ⟨buf, endBuf⟩ s₁ h₁
  refine wp_ite (fun _ => wp_bind (wp_get (wp_ite (fun _ => ?_) fun _ => wp_pure h₁))) fun _ => ?_
  · exact wp_throw h₁.1.brisk
  · exact wp_mono fillBlock_emits (fun _ _ h => hkeep h₁ h.2.1) fun _ _ hE => h₁.1.unexcused hE

theorem Proc.Idle.crosses {room : ℕ} (h : st.Idle env room) (hu : env.Granting) (hun : env.Unbuffered)
    (husr : n < 2 ^ 64) (hfits : (Call.malloc n).Fits env.args)
    (hb : b = classOf env.args (Call.malloc n).alignment n)
    (hclaim : wp (claimBuf (ctxOf env (depth + 1)) [] b n)
      (fun r s' => ∃ hdr, r = (0, some hdr) ∧ Crossing env 0 s') Brisk st.heap) :
    ∃ st', Step env (depth + 1) st (.malloc n) st' ∧ .dumpBegun ∈ st'.heap.log := by
  have hfit := hfits n rfl
  obtain ⟨halign, -⟩ := Call.args_lt (show (Call.malloc n).Ok st.held from husr) rfl
  have hspec : wp (memalignInt (ctxOf env (depth + 1)) [] (Call.malloc n).alignment n) _
      (Halted env True True) st.heap :=
    memalignInt_outcome h.inv halign husr (fun _ => hfit) fun _ => hfit.class_lt
  have hstdio : env.StdioFits := by
    intro t bt' alignment size hmem
    rw [(hun t).1, (hun t).2] at hmem
    exact absurd hmem List.not_mem_nil
  obtain ⟨p, s', hrun, -, -, hbegun⟩ := returns hu.calm hstdio hspec
    (memalignInt_quiet hu hun h.inv.isInit (by rw [hb, classOf, h.pristine.grArgs]) hclaim)
  exact ⟨_, ⟨husr, hrun⟩, hbegun⟩

/-! ## Counters without dumps -/

def Heap.Credited (s : Heap) : Prop := ∀ a, (s.credit a : ℤ) ≡ credited a s.log [ZMOD 2 ^ 64]

theorem Heap.Credited.grows (h : s.Credited) (hg : Grows evs s s') : s'.Credited := by
  intro a
  have hdiff : (s.credit a : ℤ) - credited a s.log ≡ 0 [ZMOD 2 ^ 64] := by
    have hsub := (h a).sub_right (credited a s.log : ℤ)
    rwa [sub_self] at hsub
  have hgrown := hg.credits a
  rw [Pi.zero_apply, add_zero] at hgrown
  have hadd := (hgrown.trans hdiff).add_right (credited a s'.log : ℤ)
  rwa [sub_add_cancel, zero_add] at hadd

theorem Reachable.credited (henv : env.Ok) (hr : Reachable env depth st) : st.heap.Credited := by
  obtain ⟨evs, hg⟩ := hr.grows henv
  have hstatic : Heap.static.Credited := fun a => by cases a <;> rfl
  exact hstatic.grows hg

theorem credited_boot (hboot : boot env depth Heap.static = .ok () s)
    (hplain : ∀ e ∈ s.log, e.Plain) (a : Account) : credited a s.log = 0 := by
  have hctx : (ctxOf env.unsignalled depth).Silent := ctxOf_silent (fun _ _ _ => rfl) depth
  obtain ⟨_, rfl, hg⟩ := wp_ok (silent_grInitialize hctx Heap.static) hboot
  have hbegun : .dumpBegun ∉ s.log := fun h => hplain _ h
  obtain ⟨new, hlog, hnew⟩ := hg.booked rfl ⟨s.log, (List.append_nil _).symm, hbegun⟩
  rw [hlog, credited_append, sum_credit_booked, hnew]
  rfl

theorem sum_credit_claimed {hdr : ℕ} (a : Account) :
    ((claimEvents bt n b hdr ++ (hs.flatMap (blockEvents 0 b) ++ [Event.acquired (.slot 0)])).map
      (Event.credit a)).sum = a.share 0 b n := by
  have hblocks : ((hs.flatMap (blockEvents 0 b)).map (Event.credit a)).sum = 0 := by
    induction hs with
    | nil => rfl
    | cons h hs ih =>
        rw [List.flatMap_cons, List.map_append, List.sum_append, ih]
        rfl
  rw [List.map_append, List.sum_append, List.map_append, List.sum_append, hblocks]
  exact Nat.add_comm (a.request 0 n) (a.block 0 b)

theorem sum_credit_drawn {hdr : ℕ} (hevs : evs = [] ∨ ∃ A, evs = [.filled A]) (a : Account) :
    ((evs ++ drawEvents bt n b hdr hs).map (Event.credit a)).sum = a.share 0 b n := by
  have hdrawn : ((drawEvents bt n b hdr hs).map (Event.credit a)).sum = a.share 0 b n :=
    (Nat.zero_add _).trans (sum_credit_claimed a)
  rw [List.map_append, List.sum_append, hdrawn]
  rcases hevs with rfl | ⟨A, rfl⟩ <;> exact Nat.zero_add _

end GuardRails
