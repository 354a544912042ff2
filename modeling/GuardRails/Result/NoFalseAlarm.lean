import GuardRails.Spec.Launch

/-!
# No false alarms

The debugger stops a well-behaved program only when the system refused it something. What
is left is a dump that does not come to its end: it calls itself again through stdio, or
divides by a total of zero.
-/

namespace GuardRails

open StateHoare

variable {env : Env} {depth : ℕ} {G : Prop}

/-- The system granted all that was asked of it, and no limit was reached. -/
def Unrefused (log : List Event) : Prop := ∀ e ∈ log, ¬ e.Excuse

def DumpLoops (e : Halt) (log : List Event) : Prop :=
  0 < openDumps log ∧ (e = .hang ∨ e = .divByZero)

theorem Halted.dumpLoops {e : Halt} {s : Heap} (hE : Halted env True G e s) (hstdio : env.StdioFits)
    (hsig : env.Calm ∨ elmHdrSz env.args ≤ pageSize) (hgranted : Unrefused s.log) :
    DumpLoops e s.log := by
  rcases hE.excuse trivial with (⟨-, hn⟩ | ⟨x, hx, hex⟩) | ⟨hopen, hdump⟩
  · exact absurd hstdio hn
  · exact absurd hex (hgranted x hx)
  · refine ⟨hopen, ?_⟩
    rcases hdump with h | h | ⟨-, hlarge, hsignals⟩
    · exact .inl h
    · exact .inr h
    · rcases hsig with hcalm | hsmall
      · exact absurd hcalm hsignals
      · exact absurd hlarge (not_lt.2 hsmall)

/-- The padded size of what the call asks for is that of a bin. -/
def Call.Sized (args : GRArgs) (c : Call) : Prop :=
  ∀ n, c.size? = some n →
    elmHdrSz args + 8 + n + (if c.alignment > 1 then c.alignment else 0) ≤ 2 ^ 39

/-- Unless the system refuses something, neither the constructor nor a call of a well-behaved
client fails an assertion or touches a protected page: what does not return is in a dump. Of a
first call that comes before the constructor `P` is known. -/
structure AlarmFree (env : Env) (depth : ℕ) (P : Call → Prop) : Prop where
  boot : ∀ e s, boot env depth Heap.static = .error e s → Unrefused s.log → DumpLoops e s.log
  early : env.unsignalled = env → ∀ (c : Call) bt e s', P c → c.Ok [] → c.size? ≠ none →
    c.Sized env.args → c.exec (ctxOf env depth) bt Heap.static = .error e s' →
    Unrefused s'.log → DumpLoops e s'.log
  call : ∀ first? st, Launched env depth first? st → (∀ c ∈ first?, P c) →
    ∀ (c : Call) bt e s', c.Ok st.held → c.Sized env.args →
    c.exec (ctxOf env depth) bt st.heap = .error e s' → Unrefused s'.log → DumpLoops e s'.log

theorem boot_dumpLoops (henv : env.Ok) (hstdio : env.StdioFits) {e : Halt} {s : Heap}
    (he : boot env depth Heap.static = .error e s) (hgranted : Unrefused s.log) :
    DumpLoops e s.log := by
  have hE := wp_error (grInitialize_spec (G := True) (ctxOf_ok _ depth) env.unsignalled_calm henv.unsignalled) he
  have hstdio' : env.unsignalled.StdioFits := hstdio
  exact hE.dumpLoops hstdio' (.inl env.unsignalled_calm) hgranted

theorem Proc.Inv.dumpLoops {st : Proc} {c : Call} {bt : List ℕ} {e : Halt} {s' : Heap}
    (hst : st.Inv env) (hslots : 1 ≤ env.args.numSlots) (hstdio : env.StdioFits)
    (hsig : env.Calm ∨ elmHdrSz env.args ≤ pageSize) (hok : c.Ok st.held) (hsize : c.Sized env.args)
    (he : c.exec (ctxOf env depth) bt st.heap = .error e s') (hgranted : Unrefused s'.log) :
    DumpLoops e s'.log := by
  have hfits : c.Fits env.args := fun n hn => ⟨hslots, hsize n hn⟩
  have hE := wp_error (exec_spec hst hok) he
  exact (hE.weaken (F := True) (fun _ => hfits) id).dumpLoops hstdio hsig hgranted

/-- There is no false alarm when the size class of a first call before the constructor does not
depend on the options. -/
theorem no_false_alarm (henv : env.Ok) (hslots : 1 ≤ env.args.numSlots) (hstdio : env.StdioFits)
    (hsig : env.Calm ∨ elmHdrSz env.args ≤ pageSize) :
    AlarmFree env depth (Call.Foreseen env.args) where
  boot _ _ he hgranted := boot_dumpLoops henv hstdio he hgranted
  early hcalm c bt e s' hf hok hsize hsized he hgranted := by
    rcases c.exec_static depth bt henv hcalm hok hsize hf with h | h
    · rcases run_bind_eq_error (h.symm.trans he) with hboot | ⟨u, s, hboot, hexec⟩
      · exact boot_dumpLoops henv hstdio hboot hgranted
      · exact (boot_inv henv hboot).dumpLoops hslots hstdio hsig hok hsized hexec hgranted
    · rw [he] at h
      cases h
  call _ _ hl hf c bt e s' hok hsized he hgranted :=
    ((hl.reachable henv hf).inv henv).dumpLoops hslots hstdio hsig hok hsized he hgranted

theorem no_false_alarm_still : AlarmFree (Env.still .defaults) 1 (Call.Foreseen .defaults) :=
  no_false_alarm (Env.still_ok GRArgs.defaults_ok) le_rfl
    (fun _ _ _ _ h => absurd h List.not_mem_nil) (.inl fun _ _ => rfl)

/-- With 600 frames a first `malloc` of 4000 bytes, made before the constructor, is given a page:
the trace does not fit into it. -/
theorem early_malloc_faults : ∃ a s',
    (Call.malloc 4000).exec (ctxOf (Env.still (.tracing 600 0)) 1) [] Heap.static =
      .error (.fault a) s' ∧ Unrefused s'.log ∧
    ¬ AlarmFree (Env.still (.tracing 600 0)) 1 fun _ => True := by
  obtain ⟨a, s', hrun, hgranted⟩ : ∃ a s',
      (Call.malloc 4000).exec (ctxOf (Env.still (.tracing 600 0)) 1) [] Heap.static =
        .error (.fault a) s' ∧ Unrefused s'.log := by
    obtain ⟨hdr, B, s, hc, -, hplain, hrun⟩ := exists_early 16 4000
      (GRArgs.tracing_ok (by decide : 600 < 2 ^ 31) (by decide : 0 < 2 ^ 31))
      (Env.still_undisturbed_tracing 600 0) 1 [] rfl (by decide) (by decide) (by decide)
    obtain ⟨e, s', hfill, rfl, rfl⟩ := wp_halts (hc.faults (by decide))
    exact ⟨_, s', hrun.trans hfill, fun e he => (hplain e he).not_excuse⟩
  refine ⟨a, s', hrun, hgranted, fun h => ?_⟩
  have hsized : (Call.malloc 4000).Sized (Env.still (.tracing 600 0)).args := by
    rintro n hn
    obtain rfl := Option.some.inj hn
    decide
  have hok : (Call.malloc 4000).Ok [] := show 4000 < 2 ^ 64 by decide
  rcases (h.early rfl _ _ _ _ trivial hok nofun hsized hrun hgranted).2 with h | h
  · cases h
  · cases h

end GuardRails
