import GuardRails.Ledger.Quarantine
import GuardRails.Result.Accounting

/-!
# The records of a dump

A dump walks the lists of blocks in use and copies what the headers say. A header gets its size
and its trace only after `getBuf` has put the block on the list, and until then it has those of
an earlier owner. So a dump is exact when no block that it lists waits to be filled in: one at
exit is, one that `getBuf` itself starts need not be.
-/

namespace GuardRails

open StateHoare

variable {env : Env} {depth h i : ℕ} {st : Proc} {s : Heap} {c : Call} {args : GRArgs} {L : Ledger}
  {d : Dump} {log : List Event}

/-- The record that a request should have. -/
def Request.record (args : GRArgs) (q : Request) : Record := ⟨q.size, traceOf q.bt args.maxTrackFrames⟩

/-- The blocks in use are those of the requests counted, and the allocation that filled in a
header last asked for the same size from the same place. -/
structure Ledger.UpToDate (args : GRArgs) (L : Ledger) : Prop where
  listed : ∀ i < args.numSlots, L.Listed i
  filled : ∀ i < args.numSlots, ∀ h ∈ L.inUse i, ∃ q, L.request h = some q ∧ L.record args h = q.record args

theorem Ledger.records_eq (L : Ledger) (args : GRArgs) (i : ℕ) :
    L.records args i = (L.inUse i).map (L.record args) := by
  unfold Ledger.records Ledger.inUse
  rw [List.map_flatMap]

theorem Ledger.UpToDate.requests (h : L.UpToDate args) (hi : i < args.numSlots) (hL : L.Sound) :
    (L.requests i).map Request.hdr = L.inUse i ∧
      (L.requests i).map (Request.record args) = L.records args i := by
  refine ⟨?_, ?_⟩
  · refine (Ledger.map_requests fun x hx => ?_).trans (List.map_id _)
    obtain ⟨q, hq, -⟩ := h.filled i hi x hx
    exact ⟨q, hq, hL.request_hdr hq⟩
  · rw [L.records_eq]
    refine Ledger.map_requests fun x hx => ?_
    obtain ⟨q, hq, hrec⟩ := h.filled i hi x hx
    exact ⟨q, hq, hrec.symm⟩

theorem Env.still_traced : (Env.still (.tracing 1 0)).Ok :=
  Env.still_ok (GRArgs.tracing_ok (by decide) (by decide))

/-- The dump `d` that is made after the run to `st`, of the heap `s`. -/
structure ExitDump (env : Env) (st : Proc) (d : Dump) (s : Heap) : Prop where
  dumping : Dumping env False 0 { st.heap with log := .dumpBegun :: st.heap.log } s
  dumpOk : DumpOk env (ledger s.log) d
  settled : ∀ h, SettledAt s h

namespace ExitDump

theorem sound (hd : ExitDump env st d s) : (ledger s.log).Sound :=
  hd.dumping.call.rep.log_ok.lawful.sound

/-- The allocations of the run are still there. -/
theorem live {a : Alloc} (hd : ExitDump env st d s) (hst : st.Inv env)
    (ha : (ledger st.heap.log).Live a) : (ledger s.log).Live a :=
  hd.dumping.call.keeps.live (hst.rep.neutral (e := .dumpBegun) trivial st.heap.clock) ha
    (Set.notMem_empty _)

end ExitDump

end GuardRails
