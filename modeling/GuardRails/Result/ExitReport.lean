import GuardRails.Result.DumpRecords
import GuardRails.Result.TrackerFile

/-!
# The leaks of a run

`onExitHelper` and `grdump.py` together: what the script reports of the file that is written at
exit are the live allocations of the run, whatever the run did before.
-/

namespace GuardRails

open StateHoare

variable {env : Env} {depth i n : ℕ} {st : Proc} {s : Heap} {args : GRArgs} {L : Ledger} {d : Dump}
  {q : Request}

def Addresses (bt : List ℕ) : Prop := ∀ f ∈ bt, f ≠ 0 ∧ f < 2 ^ 64

def Request.key (n : ℕ) (q : Request) : ℕ × List ℕ := (q.size, q.bt.take n)

/-- The requests that are counted in the slots of a dump. -/
def Ledger.allCounted (args : GRArgs) (L : Ledger) : List Request :=
  (List.range args.numSlots).flatMap L.counted

theorem traceOf_take {bt : List ℕ} (hbt : Addresses bt) (n : ℕ) :
    traceOf bt n = bt.take n ++ List.replicate (n - (bt.take n).length) 0 := by
  have hlen : (traceOf bt n).length = n := by simp [traceOf]
  refine List.ext_getElem ?_ fun j hj _ => ?_
  · rw [hlen, List.length_append, List.length_replicate]
    have := List.length_take_le n bt
    omega
  · have hget : (traceOf bt n)[j] = bt.getD j 0 % 2 ^ 64 := by simp [traceOf]
    rw [hlen] at hj
    rw [hget]
    by_cases hlt : j < bt.length
    · have htake : j < (bt.take n).length := by
        rw [List.length_take]
        omega
      rw [List.getElem_append_left htake, List.getElem_take, List.getD_eq_getElem _ _ hlt,
        Nat.mod_eq_of_lt (hbt _ (List.getElem_mem hlt)).2]
    · rw [List.getElem_append_right (by rw [List.length_take]; omega), List.getElem_replicate,
        List.getD_eq_default _ _ (not_lt.1 hlt), Nat.zero_mod]

theorem Request.exists_traced (args : GRArgs) (hsize : q.size < 2 ^ 64) (hbt : Addresses q.bt) :
    ∃ a : Traced args.maxTrackFrames, a.record = q.record args ∧
      (a.size, a.frames) = q.key args.maxTrackFrames := by
  have htake : ∀ f ∈ q.bt.take args.maxTrackFrames, f ≠ 0 ∧ f < 2 ^ 64 := fun f hf =>
    hbt f (List.mem_of_mem_take hf)
  refine ⟨⟨q.size, q.bt.take args.maxTrackFrames, hsize, List.length_take_le _ _, htake⟩, ?_, rfl⟩
  rw [Request.record, traceOf_take hbt, Traced.record]

theorem Ledger.Sound.mem_allCounted (hL : L.Sound) : q ∈ L.allCounted args ↔
    ∃ B, L.block q.hdr = some B ∧ B.slot < args.numSlots ∧ B.request = some q := by
  rw [Ledger.allCounted, List.mem_flatMap]
  constructor
  · rintro ⟨i, hi, hq⟩
    obtain ⟨B, hB, rfl, hreq⟩ := (hL.mem_counted i q).1 hq
    exact ⟨B, hB, List.mem_range.1 hi, hreq⟩
  · rintro ⟨B, hB, hslot, hreq⟩
    exact ⟨B.slot, List.mem_range.2 hslot, (hL.mem_counted _ q).2 ⟨B, hB, rfl, hreq⟩⟩

/-- A block serves one request. -/
theorem Ledger.Sound.nodup_allCounted (hL : L.Sound) : ((L.allCounted args).map Request.hdr).Nodup := by
  rw [Ledger.allCounted, List.map_flatMap]
  refine List.nodup_flatMap.2 ⟨fun i _ => hL.nodup_counted i, ?_⟩
  refine List.nodup_range.imp fun {i j} hne => ?_
  intro h hi hj
  obtain ⟨p, hp, rfl⟩ := List.mem_map.1 hi
  obtain ⟨q, hq, hpq⟩ := List.mem_map.1 hj
  obtain ⟨A, hA, hi, -⟩ := (hL.mem_counted i p).1 hp
  obtain ⟨B, hB, hj, -⟩ := (hL.mem_counted j q).1 hq
  rw [hpq] at hB
  obtain rfl := Option.some.inj (hA.symm.trans hB)
  exact hne (hi.symm.trans hj)

namespace ExitDump

theorem length_lt (hd : ExitDump env st d s) : ((ledger s.log).allCounted args).length < 2 ^ 64 := by
  have hnodup : (((ledger s.log).allCounted args).map Request.hdr).Nodup := hd.sound.nodup_allCounted
  have hlt := hd.dumping.call.rep.shape.layout.length_lt hnodup ?_
  · rw [List.length_map] at hlt
    exact hlt.trans (by decide)
  · intro x hx
    obtain ⟨q, hq, rfl⟩ := List.mem_map.1 hx
    obtain ⟨B, hB, -⟩ := hd.sound.mem_allCounted.1 hq
    exact ⟨B, hB⟩

theorem size_lt (hd : ExitDump env st d s) (hq : q ∈ (ledger s.log).allCounted args) :
    q.size < 2 ^ 64 := by
  have hL := hd.sound
  obtain ⟨B, hB, -, hreq⟩ := hL.mem_allCounted.1 hq
  have hp : B.place = .on .inUse := (hL.block_ok _ B hB).request_place (by simp [hreq])
  obtain ⟨a, p, ho, hp', hsize, -⟩ := (hL.block_ok _ B hB).live_owner ((hd.settled _ B hB).live hp)
  obtain rfl := Option.some.inj (hp'.symm.trans hreq)
  have hS := hd.dumping.call.rep.shape
  have hbounds := hS.user_bounds hB (by simp [hp]) ho
  have hblock := hS.layout.block_bounds hB
  omega

end ExitDump

/-! ## The report -/

/-- A run that leaks 24 bytes. -/
theorem exists_leak : ∃ st p, Reachable (Env.still (.tracing 1 0)) 1 st ∧ st.held = [(p, 24)] := by
  obtain ⟨st, a, B, hr, -, hheld, -⟩ := exists_served_with (GRArgs.tracing_ok (by decide) (by decide))
    (Env.still_undisturbed_tracing 1 0) 1 24 (by decide) rfl (by decide)
  exact ⟨st, a.ptr, hr, hheld⟩

end GuardRails
