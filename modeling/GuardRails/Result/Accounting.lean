import GuardRails.Spec.Afloat
import GuardRails.Spec.Complete
import GuardRails.Spec.Figures

/-!
# Accounting

Four families of counters are kept in different functions: an allocation counts in `getBuf`, a
release in `putBuf`, by what the header says. Between two calls they agree with the lists of
blocks in use. The counters are words and may wrap in a long run, but the differences that a
dump prints are those of 64-bit words too, and no list is so long, and no slot holds so many
bytes, that these are wrong.
-/

namespace GuardRails

open ByteMemory

variable {env : Env} {depth : ℕ} {st : Proc} {h : ℕ}

theorem sub64_of_modEq {x y n : ℕ} (hx : x < 2 ^ 64) (hy : y < 2 ^ 64) (hn : n < 2 ^ 64)
    (h : (x : ℤ) - y ≡ n [ZMOD 2 ^ 64]) : sub64 x y = n := by
  unfold Int.ModEq at h
  unfold sub64
  omega

theorem countP_of_perm {α β : Type} {f : α → ℕ} {g : β → ℕ} {xs : List α} {ys : List β}
    (h : (xs.map f).Perm (ys.map g)) (p : ℕ → Prop) [DecidablePred p] :
    (xs.countP fun x => p (f x)) = ys.countP fun y => p (g y) := by
  have hcount := h.countP_eq fun n => decide (p n)
  simpa only [List.countP_map, Function.comp_def] using hcount

def slotBlocks (used : ℕ → ℕ → List ℕ) (i : ℕ) : List ℕ := (List.range maxAllocPower).flatMap (used i)

/-- What the counters say is what is on the lists of blocks in use. -/
structure Accounts (s : Heap) (used : ℕ → ℕ → List ℕ) : Prop where
  chains : ∀ i b, HeaderList s.mem (s.head ⟨.inUse, i, b⟩) (used i b)
  bins : ∀ i b, sub64 (s.bin i b).allocs (s.bin i b).frees = (used i b).length
  histo : ∀ i k, sub64 (s.memHisto i k).allocs (s.memHisto i k).frees =
    (slotBlocks used i).countP fun h => log2fast (fld s.mem h .usrDataSize) = k
  bytes : ∀ i, sub64 (s.memSlots i).totalUserRequestedBytes (s.memSlots i).totalUserFreedBytes =
    ((slotBlocks used i).map (fld s.mem · .usrDataSize)).sum
  live : ∀ h, (∃ i, h ∈ slotBlocks used i) ↔ ∃ B, (ledger s.log).block h = some B ∧ B.live = true

theorem Proc.Inv.pending (hst : st.Inv env) : Pending st.heap := fun h _ _ hB hlive hreq =>
  absurd (hlive.symm.trans ((hst.settled h).filled hst.rep hB hreq)) nofun

/-- Between calls a block in use has its request, and the size in its header. -/
theorem Proc.Inv.request (hst : st.Inv env) (hh : h ∈ (ledger st.heap.log).inUse i) :
    ∃ q, (ledger st.heap.log).request h = some q ∧ q.size = fld st.heap.mem h .usrDataSize := by
  have hR := hst.rep
  have hL := hR.log_ok.lawful.sound
  obtain ⟨B, hB, hp, -⟩ := (hL.mem_inUse hR.classed).1 hh
  have hlive : B.live = true := (hst.settled h B hB).live hp
  obtain ⟨a, q, ho, hq, hsize, -⟩ := (hL.block_ok h B hB).live_owner hlive
  have hO := (hR.shape.blocks h B hB (by simp [hp])).owner a ho
  exact ⟨q, Ledger.request_eq_some.2 ⟨B, hB, hq⟩, hsize.trans hO.usrDataSize.symm⟩

/-- The sizes that are counted are those in the headers. -/
theorem Proc.Inv.sizes_perm (hst : st.Inv env) (i : ℕ) :
    (((ledger st.heap.log).inUse i).map (fld st.heap.mem · .usrDataSize)).Perm
      (((ledger st.heap.log).counted i).map Request.size) := by
  have hL := hst.rep.log_ok.lawful.sound
  rw [← Ledger.map_requests fun _ => hst.request]
  exact (hL.requests_perm (hL.listed hst.rep.classed i)).map _

theorem Proc.Inv.accounts (hst : st.Inv env) :
    Accounts st.heap fun i b => (ledger st.heap.log).list ⟨.inUse, i, b⟩ where
  chains i b := hst.rep.shape.lists ⟨.inUse, i, b⟩
  bins i b := by
    have hC := hst.rep.shape.counts
    have hmod := hC.modEq (.inUse i b)
    rw [Pi.zero_apply, add_zero] at hmod
    have hlen := hst.rep.list_length_lt ⟨.inUse, i, b⟩
    exact sub64_of_modEq (hC.allocs_lt i b) (hC.frees_lt i b) (hlen.trans (by decide)) hmod
  histo i k := by
    have hC := hst.rep.shape.counts
    have hmod := hC.modEq (.histo i k)
    rw [Pi.zero_apply, add_zero] at hmod
    have hcount := countP_of_perm (hst.sizes_perm i) fun n => log2fast n = k
    have hlt : ((ledger st.heap.log).inUse i).length < 2 ^ 36 := by
      have hL := hst.rep.log_ok.lawful.sound
      refine hst.rep.shape.layout.length_lt (hL.nodup_inUse i) fun x hx => ?_
      obtain ⟨B, hB, -⟩ := (hL.mem_inUse hst.rep.classed).1 hx
      exact ⟨B, hB⟩
    refine (sub64_of_modEq (hC.histo_lt i k).1 (hC.histo_lt i k).2 ?_ hmod).trans hcount.symm
    rw [← hcount]
    exact (List.countP_le_length.trans_lt hlt).trans (by decide)
  bytes i := (hst.pending.figure hst.rep i).trans (hst.sizes_perm i).sum_eq.symm
  live h := by
    have hL := hst.rep.log_ok.lawful.sound
    constructor
    · rintro ⟨i, hh⟩
      obtain ⟨B, hB, hp, -⟩ := (hL.mem_inUse hst.rep.classed).1 hh
      exact ⟨B, hB, (hst.settled h B hB).live hp⟩
    · rintro ⟨B, hB, hlive⟩
      obtain ⟨a, q, -, hq, -⟩ := (hL.block_ok h B hB).live_owner hlive
      have hp : B.place = .on .inUse := (hL.block_ok h B hB).request_place (by simp [hq])
      exact ⟨B.slot, (hL.mem_inUse hst.rep.classed).2 ⟨B, hB, hp, rfl⟩⟩

/-- In every run, whatever was refused, moved or delayed on the way, the differences of the
counters are the figures of the live allocations. -/
theorem accounts_balance (henv : env.Ok) (hr : Reachable env depth st) :
    ∃ used, Accounts st.heap used :=
  ⟨_, (hr.inv henv).accounts⟩

theorem accounts_balance_malloc : ∃ st a, Reachable (Env.still .defaults) 1 st ∧
    st.held = [(a, 1000)] ∧ ∃ used, Accounts st.heap used := by
  obtain ⟨st, a, B, hr, -, hheld, -⟩ := exists_served 1 1000 (by decide) rfl (by decide)
  exact ⟨st, a.ptr, hr, hheld, accounts_balance (Env.still_ok GRArgs.defaults_ok) hr⟩

end GuardRails
