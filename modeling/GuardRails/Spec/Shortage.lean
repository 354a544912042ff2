import GuardRails.Spec.Run
import GuardRails.Spec.Supply

/-!
# Requests and refills

A request is answered with `NULL` exactly when the refill of its bin is refused memory on
the way, and then the heap differs from what it was by the blocks that the refill has
already put on the free list.
-/

namespace GuardRails

open ByteMemory StateHoare

variable {env : Env} {off : Off} {s s' : Heap} {ctx : Ctx} {bt : List ℕ} {i b : ℕ}
  {hs : List ℕ} {p : Supply} {evs : List Event} {alignment usrSize : ℕ}

/-- The refill of the bin `b` for a request of `usrSize` bytes is refused memory after it
got the blocks `hs`. -/
structure Heap.Short (env : Env) (s : Heap) (b usrSize : ℕ) (hs : List ℕ) (p : Supply) :
    Prop where
  slots : 0 < env.args.numSlots
  refills : s.Refills (env.slotFor s.clock usrSize) b
  refused : s.refillAt env (env.slotFor s.clock usrSize) b (slotTime s.clock usrSize + 1) =
    .refused hs p

def shortEvents (i b : ℕ) (hs : List ℕ) : List Event :=
  .released (.slot i) :: (refusalEvents ++ hs.flatMap (blockEvents i b)) ++ [.acquired (.slot i)]

theorem list_blockEvents {log : List Event} (r : HeadRef) :
    (ledger (hs.flatMap (blockEvents i b) ++ log)).list r =
      if r = ⟨.free, i, b⟩ then hs ++ (ledger log).list r else (ledger log).list r := by
  induction hs with
  | nil => rw [List.flatMap_nil, List.nil_append, List.nil_append, ite_self]
  | cons h hs ih =>
      have hstep : (ledger (blockEvents i b h ++ (hs.flatMap (blockEvents i b) ++ log))).list r =
          if r = ⟨.free, i, b⟩ then h :: (ledger (hs.flatMap (blockEvents i b) ++ log)).list r
          else (ledger (hs.flatMap (blockEvents i b) ++ log)).list r := by
        by_cases hr : r = ⟨.free, i, b⟩
        · subst hr
          simp [blockEvents, ledger, Ledger.step, Ledger.updBlock, Ledger.updList]
        · simp [blockEvents, ledger, Ledger.step, Ledger.updBlock, Ledger.updList, hr]
      rw [List.flatMap_cons, List.append_assoc, hstep, ih]
      split
      · rfl
      · rfl

theorem ring_blockEvents {log : List Event} (j : ℕ) :
    (ledger (hs.flatMap (blockEvents i b) ++ log)).ring j = (ledger log).ring j := by
  induction hs with
  | nil => rfl
  | cons h hs ih =>
      rw [List.flatMap_cons, List.append_assoc, ← ih]
      rfl

theorem bin_lockHeap (s : Heap) (l : LockId) (i b : ℕ) : (s.lockHeap l).bin i b = s.bin i b := by
  cases l with
  | slot j =>
      simp only [Heap.bin, Heap.lockHeap, Heap.setMutex, Heap.updSlot, Function.update_apply]
      split
      · rename_i h
        rw [h]
      · rfl
  | gMutex => rfl
  | initMutex => rfl

/-- The refill of the bin `b` for a request of `usrSize` bytes does not get all its blocks. -/
structure Heap.Lacks (env : Env) (s : Heap) (b usrSize : ℕ) : Prop where
  refills : s.Refills (env.slotFor s.clock usrSize) b
  lacks : ∀ hs p,
    s.refillAt env (env.slotFor s.clock usrSize) b (slotTime s.clock usrSize + 1) ≠ .granted hs p

theorem Heap.Short.lack (hsh : s.Short env b usrSize hs p) : s.Lacks env b usrSize :=
  ⟨hsh.refills, fun _ _ h => absurd (hsh.refused.symm.trans h) nofun⟩

def MemSlot.bill (S : MemSlot) (n : ℕ) : ℕ × ℕ × ℕ × ℕ :=
  ((S.totalUserRequestedBytes + n) % 2 ^ 64, S.totalUserFreedBytes,
    max S.hwmUsrBytes (sub64 ((S.totalUserRequestedBytes + n) % 2 ^ 64) S.totalUserFreedBytes),
    S.lastHWMUsrBytesDump)

def Heap.Allows (env : Env) (s : Heap) (usrSize : ℕ) : Prop :=
  let bill := (s.memSlots (env.slotFor s.clock usrSize)).bill usrSize
  bill.2.2.1 ≤ (bill.2.2.2 + env.args.slotHWMDumpIntervalBytes) % 2 ^ 64 ∧
    bill.1 ≤ env.args.maxRequestedBytes

theorem bill_congr {S S' : MemSlot} {n : ℕ} (h : S.figures = S'.figures) : S.bill n = S'.bill n := by
  simp only [MemSlot.figures, Prod.mk.injEq] at h
  obtain ⟨hreq, hfreed, hhwm, hlast⟩ := h
  unfold MemSlot.bill
  rw [hreq, hfreed, hhwm, hlast]

theorem figures_lockHeap (s : Heap) (l : LockId) (j : ℕ) :
    ((s.lockHeap l).memSlots j).figures = (s.memSlots j).figures := by
  cases l with
  | slot i =>
      simp only [Heap.lockHeap, Heap.setMutex, Heap.updSlot, Function.update_apply]
      split
      · rename_i h
        rw [h]
        rfl
      · rfl
  | gMutex => rfl
  | initMutex => rfl

theorem Heap.Allows.within (hallow : s.Allows env usrSize)
    (hfig : (s'.memSlots (env.slotFor s.clock usrSize)).figures =
      (s.memSlots (env.slotFor s.clock usrSize)).bill usrSize)
    (hargs : s'.grArgs = env.args) : s'.Within (env.slotFor s.clock usrSize) := by
  unfold Heap.Allows at hallow
  rw [← hfig, ← hargs] at hallow
  exact hallow

theorem countAlloc_run {q : Request} {t : ℕ} (hctx : ctx.env = env) (hcalm : env.CalmFrom t)
    (ht : t ≤ s.clock) :
    wp (countAlloc ctx i b (log2fast q.size) q)
      (fun _ s' => log2fast q.size < 40 ∧ (s'.memSlots i).figures = (s.memSlots i).bill q.size ∧
        s'.grArgs = s.grArgs ∧ s'.clock = s.clock)
      (fun e _ => 40 ≤ log2fast q.size ∧ ∃ site, e = .abort site) s := by
  unfold countAlloc
  refine wp_bind (wp_poll_calmFrom hctx hcalm ht (wp_bind (wp_modify ?_)))
  refine wp_bind (wp_poll_calmFrom hctx hcalm ht ?_)
  refine wp_bind (wp_grAssert (fun hlt => ?_) fun hge => ⟨not_lt.1 hge, _, rfl⟩)
  refine wp_bind (wp_poll_calmFrom hctx hcalm ht (wp_bind (wp_modify ?_)))
  refine wp_bind (wp_poll_calmFrom hctx hcalm ht (wp_bind (wp_modify (wp_bind (wp_emit ?_)))))
  refine wp_bind (wp_poll_calmFrom hctx hcalm ht (wp_modify ⟨hlt, ?_, rfl, rfl⟩))
  simp [MemSlot.figures, MemSlot.bill, Heap.updSlot, Heap.updBin, Heap.updHisto]

/-- Up to its dumps `getBuf` has one reason not to come through beside the size of the request:
the refill of the bin. -/
theorem claimBuf_run (hctx : ctx.Ok env) (hcalm : env.CalmFrom s.clock)
    (hR : Rep env 0 s) (hr : Ready env False s) (hg : s.gMutex.locked = false)
    (hslots : 0 < env.args.numSlots) (hbin12 : 12 ≤ b) (hb' : b < 40) :
    wp (claimBuf ctx bt b usrSize)
      (fun r s' => r.1 = env.slotFor s.clock usrSize ∧ s.clock ≤ s'.clock ∧
        (r.2 = none → ∃ hs p, s.Short env b usrSize hs p ∧
          Drawn p (refusalEvents ++ hs.flatMap (blockEvents (env.slotFor s.clock usrSize) b))
            ((s.lockHeap (.slot (env.slotFor s.clock usrSize))).addFree
              (env.slotFor s.clock usrSize) b hs) s') ∧
        (r.2 ≠ none → ¬ s.Lacks env b usrSize ∧ log2fast usrSize < 40 ∧ r.2 ≠ some 0 ∧
          s'.grArgs = s.grArgs ∧ (s'.memSlots r.1).figures = (s.memSlots r.1).bill usrSize))
      (fun e _ => (∀ hs p, ¬ s.Short env b usrSize hs p) ∧
        (s.Lacks env b usrSize ∨ 40 ≤ log2fast usrSize) ∧
        (env.args.abortOnOOM = false → env.args.maxMemPct = 0 → ∃ site, e = .abort site)) s := by
  have henv := hctx.env_eq
  have hargs := hR.shape.args_eq
  obtain ⟨i, hi⟩ : ∃ i, i = env.slotFor s.clock usrSize := ⟨_, rfl⟩
  have hilt : i < env.args.numSlots := hi ▸ slotFor_lt hslots
  have ht : s.clock ≤ slotTime s.clock usrSize := by
    unfold slotTime
    split
    · exact Nat.le_succ _
    · exact le_rfl
  have hshort : ∀ {hs p}, s.Short env b usrSize hs p ↔ s.Refills i b ∧
      s.refillAt env i b (slotTime s.clock usrSize + 1) = .refused hs p :=
    ⟨fun h => ⟨hi ▸ h.refills, hi ▸ h.refused⟩, fun h => ⟨hslots, hi ▸ h.1, hi ▸ h.2⟩⟩
  have hlacks : s.Lacks env b usrSize ↔ s.Refills i b ∧
      ∀ hs p, s.refillAt env i b (slotTime s.clock usrSize + 1) ≠ .granted hs p :=
    ⟨fun h => ⟨hi ▸ h.refills, hi ▸ h.lacks⟩, fun h => ⟨hi ▸ h.1, hi ▸ h.2⟩⟩
  unfold claimBuf
  refine wp_bind (wp_poll_calmFrom henv hcalm le_rfl ?_)
  refine wp_bind_of (pickSlot_run henv hargs hslots) ?_
  rintro _ s₁ ⟨rfl, hs₁⟩
  rw [← hi]
  have hR₁ : Rep env 0 s₁ := hs₁ ▸ hR.tick _
  have hr₁ : Ready env False s₁ := by
    subst hs₁
    exact ⟨hr.gMutex, hr.init, hr.calm⟩
  have ht₁ : s.clock ≤ s₁.clock := hs₁ ▸ ht
  refine wp_bind (wp_poll_calmFrom henv hcalm ht₁ ?_)
  have hm := hR₁.shape.locks.slot i
  rw [hR₁.shape.args_eq, decide_eq_true hilt] at hm
  refine wp_bind (wp_pthreadMutexLock (fun hl => ?_) fun _ hnr => ?_)
  case refine_2 => exact absurd (hm.kind.symm.trans hnr) nofun
  have hclock₂ : (s₁.lockHeap (.slot i)).clock = slotTime s.clock usrSize + 1 := by
    rw [hs₁]
    rfl
  have ht₂ : s.clock ≤ (s₁.lockHeap (.slot i)).clock := by omega
  have hbin₂ : (s₁.lockHeap (.slot i)).bin i b = s.bin i b := by
    rw [bin_lockHeap, hs₁]
  have hrefills : (s₁.lockHeap (.slot i)).Refills i b ↔ s.Refills i b := by
    unfold Heap.Refills
    rw [hbin₂]
  have hrefill : (s₁.lockHeap (.slot i)).refillAt env i b (s₁.lockHeap (.slot i)).clock =
      s.refillAt env i b (slotTime s.clock usrSize + 1) := by
    unfold Heap.refillAt
    rw [hbin₂, hclock₂, lockHeap_memPools, hs₁]
  have hsame₂ : SameFigures s (s₁.lockHeap (.slot i)) := by
    refine ⟨fun j => ?_, by rw [hs₁]; rfl, ht₂⟩
    rw [hs₁]
    exact figures_lockHeap _ _ _
  refine wp_bind (wp_poll_calmFrom henv hcalm ht₂ ?_)
  have hg₂ : (s₁.lockHeap (.slot i)).gMutex.locked = false := by
    rw [hs₁]
    exact hg
  have hc₂ : InCall env False 0 ∅ (s₁.lockHeap (.slot i)) (s₁.lockHeap (.slot i)) :=
    .refl (hR₁.lockHeap hl) (hr₁.lockHeap i)
  have hspec := replenishBin_spec (F := False) (G := False) hctx (fun _ => rfl) hbin12 nofun nofun nofun
    locked_lockHeap hc₂
  refine wp_bind (wp_mono (wp_and hspec
    (replenishBin_run hctx hcalm ht₂ hbin12 hb' hilt hg₂ locked_lockHeap hc₂)) ?_ ?_)
  case refine_2 =>
    rintro e _ ⟨-, hrf, hstop, hstops, hquiet⟩
    rw [hrefills] at hrf
    rw [hrefill] at hstop
    refine ⟨fun hs p h => ?_, .inl (hlacks.2 ⟨hrf, fun hs p h => ?_⟩), fun hoom hpct => ?_⟩
    · exact absurd ((hshort.1 h).2.symm.trans hstop) nofun
    · exact absurd (hstop.symm.trans h) nofun
    · have hnone := hquiet fun h => Supply.not_fillDumps hoom hpct h.2
      rw [hnone] at hstops
      exact hstops
  rintro ret s₃ ⟨⟨-, -, hres⟩, hdone, hfull, -⟩
  rw [hrefills, hrefill] at hdone
  rw [hrefills] at hfull
  refine wp_bind (wp_poll_critical hctx hR.shape.env_ok (by decide) ?_)
  by_cases hsh : ∃ hs p, s.Short env b usrSize hs p
  · -- the refill was refused memory
    obtain ⟨hs, p, hsh⟩ := hsh
    have hIs := hdone (hshort.1 hsh).1
    rw [(hshort.1 hsh).2] at hIs
    obtain ⟨rfl, hD⟩ := hIs
    refine wp_ite (fun _ => wp_pure ⟨rfl, ?_, fun _ => ⟨hs, p, hsh, ?_⟩, fun h => absurd rfl h⟩)
      fun h => absurd (by decide) h
    · have hafter : (s.refillAt env i b (slotTime s.clock usrSize + 1)).After _ :=
        Supply.fill_after _ _
      rw [(hshort.1 hsh).2] at hafter
      obtain ⟨m, pages, rfl⟩ := hD
      exact (ht.trans (Nat.le_succ _)).trans hafter
    · rw [hs₁] at hD
      exact hD
  · have hnone : ∀ hs p, ¬ s.Short env b usrSize hs p := fun hs p h => hsh ⟨hs, p, h⟩
    have hret : ret = 0 ∧ (s₃.bin i b).headFree ≠ 0 ∧ ¬ s.Lacks env b usrSize ∧
        SameFigures (s₁.lockHeap (.slot i)) s₃ := by
      by_cases hrf : s.Refills i b
      · have hIs := hdone hrf
        have hafter : (s.refillAt env i b (slotTime s.clock usrSize + 1)).After _ :=
          Supply.fill_after _ _
        cases hans : s.refillAt env i b (slotTime s.clock usrSize + 1) with
        | granted hs p =>
            rw [hans] at hIs hafter
            refine ⟨hIs.1, hIs.2.1, fun h => (hlacks.1 h).2 _ _ hans, hIs.2.2.sameFigures ?_⟩
            rw [hclock₂]
            exact hafter
        | refused hs p => exact absurd (hshort.2 ⟨hrf, hans⟩) (hnone hs p)
        | stopped =>
            rw [hans] at hIs
            exact hIs.elim
      · obtain ⟨hret, rfl⟩ := hfull hrf
        refine ⟨hret, fun h0 => hrf (.inl ?_), fun h => hrf (hlacks.1 h).1, fun _ => rfl, rfl, le_rfl⟩
        rw [← hbin₂]
        exact h0
    obtain ⟨rfl, hhead, hlack, hsame₃⟩ := hret
    have hsame₃ := hsame₂.trans hsame₃
    refine wp_ite (fun h => absurd rfl h) fun _ => ?_
    refine wp_bind_of (takeBlock_run henv hcalm hsame₃.clock hres.call.rep hhead) ?_
    rintro hdr s₄ ⟨rfl, hsame₄⟩
    have hsame₄ := hsame₃.trans hsame₄
    refine wp_bind (wp_mono (countAlloc_run (q := ⟨_, usrSize, bt⟩) henv hcalm hsame₄.clock)
      ?_ fun e _ h => ?_)
    · rintro _ s₅ ⟨hlt, hfig, hargs₅, hclock₅⟩
      have hclock : s.clock ≤ s₅.clock := by
        rw [hclock₅]
        exact hsame₄.clock
      refine wp_pure ?_
      refine ⟨rfl, hclock, fun h => ?_, fun _ => ⟨hlack, hlt, ?_, ?_, ?_⟩⟩
      · cases h
      · exact fun h => hhead (Option.some.inj h)
      · exact hargs₅.trans hsame₄.grArgs
      · rw [hfig]
        exact bill_congr (hsame₄.figures i)
    · exact ⟨hnone, .inr h.1, fun _ _ => h.2⟩

/-- The request is refused, and the blocks that the refill got are on the free list. -/
theorem Heap.Short.getBuf {allocSize : ℕ} (hsh : s.Short env b usrSize hs p) (hctx : ctx.Ok env)
    (hcalm : env.CalmFrom s.clock) (hR : Rep env 0 s) (hr : Ready env False s)
    (hg : s.gMutex.locked = false) (halloc : allocSize < 2 ^ 64)
    (hb : b = log2fast (max pageSize allocSize)) (hb' : b < 40) :
    wp (getBuf ctx bt allocSize usrSize)
      (fun r s' => r = (0, 0) ∧ Drawn p (shortEvents (env.slotFor s.clock usrSize) b hs)
        (s.addFree (env.slotFor s.clock usrSize) b hs) s')
      (fun _ _ => False) s := by
  have hbin12 : 12 ≤ b := by
    have : max pageSize allocSize = max 4096 allocSize := rfl
    rw [hb]
    exact le_log2fast_page (by omega) (by omega)
  have hm := hR.shape.locks.slot (env.slotFor s.clock usrSize)
  rw [hR.shape.args_eq, decide_eq_true (slotFor_lt hsh.slots)] at hm
  rw [getBuf_eq, ← hb]
  refine wp_bind (wp_mono (claimBuf_run hctx hcalm hR hr hg hsh.slots hbin12 hb') ?_
    fun _ _ h => h.1 hs p hsh)
  rintro ⟨i, _ | hdr⟩ s₁ ⟨rfl, ht, hnone, hsome⟩
  · obtain ⟨hs', p', hsh', hD⟩ := hnone rfl
    have heq := hsh.refused.symm.trans hsh'.refused
    injection heq with heq₁ heq₂
    subst heq₁ heq₂
    refine wp_bind (wp_pthreadMutexUnlock (wp_bind (wp_poll_calmFrom hctx.env_eq hcalm ht ?_)))
    exact wp_pure ⟨rfl, hD.unlockSlot (hm.unlock_lock fun _ => hm.kind)⟩
  · exact absurd hsh.lack (hsome nofun).1

/-- A request that keeps `getBuf` from taking a block is refused or stopped by an assertion. -/
theorem getBuf_denied {allocSize : ℕ} (hctx : ctx.Ok env) (hcalm : env.CalmFrom s.clock)
    (hR : Rep env 0 s) (hr : Ready env False s) (hg : s.gMutex.locked = false)
    (hslots : 0 < env.args.numSlots) (halloc : allocSize < 2 ^ 64)
    (hb : b = log2fast (max pageSize allocSize)) (hb' : b < 40)
    (hdeny : s.Lacks env b usrSize ∨ 40 ≤ log2fast usrSize) :
    wp (getBuf ctx bt allocSize usrSize) (fun r s' => r.1 = 0 ∧ s'.grArgs = s.grArgs)
      (fun e _ => env.args.abortOnOOM = false → env.args.maxMemPct = 0 → ∃ site, e = .abort site) s := by
  have hbin12 : 12 ≤ b := by
    have : max pageSize allocSize = max 4096 allocSize := rfl
    rw [hb]
    exact le_log2fast_page (by omega) (by omega)
  rw [getBuf_eq, ← hb]
  refine wp_bind (wp_mono (claimBuf_run hctx hcalm hR hr hg hslots hbin12 hb') ?_ fun _ _ h => h.2.2)
  rintro ⟨i, _ | hdr⟩ s₁ ⟨rfl, ht, hnone, hsome⟩
  · obtain ⟨hs, p, -, m, pages, rfl⟩ := hnone rfl
    refine wp_bind (wp_pthreadMutexUnlock (wp_bind (wp_poll_calmFrom hctx.env_eq hcalm ht ?_)))
    exact wp_pure ⟨rfl, rfl⟩
  · obtain ⟨hlack, hlt, -⟩ := hsome nofun
    rcases hdeny with h | h
    · exact absurd h hlack
    · exact absurd hlt (not_lt.2 h)

/-- A request that finds its bin stocked, or gets it stocked, and takes its slot to no limit gets
a block. -/
theorem getBuf_supplied {allocSize : ℕ} (hctx : ctx.Ok env) (hcalm : env.CalmFrom s.clock)
    (hR : Rep env 0 s) (hr : Ready env False s) (hg : s.gMutex.locked = false)
    (hslots : 0 < env.args.numSlots) (halloc : allocSize < 2 ^ 64)
    (hb : b = log2fast (max pageSize allocSize)) (hb' : b < 40) (husr : log2fast usrSize < 40)
    (hlack : ¬ s.Lacks env b usrSize) (hallow : s.Allows env usrSize) :
    wp (getBuf ctx bt allocSize usrSize) (fun r _ => r.1 ≠ 0) (fun _ _ => False) s := by
  have hbin12 : 12 ≤ b := by
    have : max pageSize allocSize = max 4096 allocSize := rfl
    rw [hb]
    exact le_log2fast_page (by omega) (by omega)
  have hspec : wp (claimBuf ctx bt b usrSize) _ _ s :=
    claimBuf_spec (F := False) (G := False) hctx hR hr (fun _ => rfl) hbin12 nofun nofun nofun nofun
  rw [getBuf_eq, ← hb]
  refine wp_bind (wp_mono (wp_and hspec (claimBuf_run hctx hcalm hR hr hg hslots hbin12 hb')) ?_ ?_)
  case refine_2 =>
    rintro e _ ⟨-, -, h, -⟩
    exact h.elim hlack (not_le.2 husr)
  rintro ⟨i, _ | hdr⟩ s₁ ⟨hsec, rfl, ht, hnone, hsome⟩
  · obtain ⟨hs, p, hsh, -⟩ := hnone rfl
    exact absurd hsh.lack hlack
  · obtain ⟨-, -, h0, hargs, hfig⟩ := hsome nofun
    cases hsec with
    | some hl hc hB hp hbin hlive hreq hnew hfit =>
        have hin : s₁.Within (env.slotFor s.clock usrSize) :=
          hallow.within hfig (hargs.trans hR.shape.args_eq)
        refine wp_bind_of (limitDumps_within hctx.env_eq hcalm ht hin) ?_
        rintro _ _ rfl
        refine wp_bind (wp_poll_calmFrom hctx.env_eq hcalm ht (wp_bind (wp_pthreadMutexUnlock ?_)))
        refine wp_bind (wp_poll_calmFrom hctx.env_eq hcalm ht ?_)
        have hS := (hc.rep.unlockHeap (l := .slot (env.slotFor s.clock usrSize))).shape
        refine wp_bind (wp_ldField (hS.field_open hB (by simp [hp]) _) fun w hw => ?_)
        refine wp_bind (wp_grAssert_of ?_ ?_)
        · rw [hw, (hS.blocks hdr _ hB (by simp [hp])).magic]
          simp [hlive]
        · refine wp_bind (wp_poll_calmFrom hctx.env_eq hcalm ht (wp_pure ?_))
          exact fun h => h0 (congrArg some h)

/-- Without slots no request gets anywhere. -/
theorem claimBuf_slotless (hctx : ctx.Ok env) (hcalm : env.CalmFrom s.clock) (hR : Rep env off s)
    (hslots : env.args.numSlots = 0) :
    wp (claimBuf ctx bt b usrSize) (fun _ _ => False) (fun _ _ => True) s := by
  have henv := hctx.env_eq
  have hargs := hR.shape.args_eq
  unfold claimBuf pickSlot
  refine wp_bind (wp_poll_calmFrom henv hcalm le_rfl (wp_bind (wp_ite (fun _ => ?_) fun _ => ?_)))
  · refine wp_bind (wp_tick (wp_bind (wp_get ?_)))
    exact wp_ite (fun _ => wp_throw trivial) fun h => absurd ((congrArg _ hargs).trans hslots) h
  · refine wp_pure (wp_bind (wp_poll_calmFrom henv hcalm le_rfl (wp_bind ?_)))
    refine wp_pthreadMutexLock (fun hl => ?_) fun _ _ => trivial
    have hclock : s.clock ≤ (s.lockHeap (.slot 0)).clock := Nat.le_succ _
    have hm : ¬ 0 < ((s.lockHeap (.slot 0)).mutex (.slot 0)).count := by
      have hok := (hR.lockHeap hl).shape.locks.slot 0
      rw [(hR.lockHeap hl).shape.args_eq, hslots] at hok
      exact fun h => absurd (hok.count.1 h).2 nofun
    unfold replenishBin
    refine wp_bind (wp_poll_calmFrom henv hcalm hclock (wp_bind ?_))
    refine wp_bind (wp_poll_calmFrom henv hcalm hclock (wp_bind (wp_verifyLocked ?_)))
    exact wp_bind (wp_grAssert (fun h => absurd (of_decide_eq_true h) hm) fun _ => trivial)

/-! ## The entry points -/

theorem Heap.Short.memalignInt (hsh : s.Short env (classOf env.args alignment usrSize) usrSize hs p)
    (hctx : ctx.Ok env) (hcalm : env.CalmFrom s.clock) (hR : Rep env 0 s) (hinit : s.isInit = true)
    (hg : s.gMutex.locked = false) (hnull : env.args.abortOnNull = false)
    (hb : classOf env.args alignment usrSize < 40) :
    wp (memalignInt ctx bt alignment usrSize)
      (fun r s' => r = 0 ∧ Drawn p
        (shortEvents (env.slotFor s.clock usrSize) (classOf env.args alignment usrSize) hs)
        (s.addFree (env.slotFor s.clock usrSize) (classOf env.args alignment usrSize) hs) s')
      (fun _ _ => False) s := by
  have hr : Ready env False s := ⟨nofun, .inl hinit, nofun⟩
  have hargs := hR.shape.args_eq
  unfold GuardRails.memalignInt
  refine wp_bind (wp_get ?_)
  extract_lets allocSize rest
  have halloc : allocSize < 2 ^ 64 := Nat.mod_lt _ (by norm_num)
  have hclass : classOf env.args alignment usrSize = log2fast (max pageSize allocSize) := by
    rw [classOf, ← hargs]
  refine wp_bind (wp_get (wp_ite (fun h => absurd (hinit.symm.trans h) nofun) fun _ => ?_))
  refine wp_bind_of (hsh.getBuf hctx hcalm hR hr hg halloc hclass hb) ?_
  rintro _ s₁ ⟨rfl, hD⟩
  refine wp_ite (fun _ => wp_bind (wp_get (wp_ite (fun h => ?_) fun _ => wp_pure ⟨rfl, hD⟩)))
    fun h => absurd rfl h
  obtain ⟨m, pages, rfl⟩ := hD
  have hargs₁ : s.grArgs.abortOnNull = false := by rw [hargs, hnull]
  change (s.grArgs.abortOnNull && decide (usrSize > 0)) = true at h
  rw [hargs₁] at h
  exact absurd h nofun

def PosixAligned (alignment : ℕ) : Prop := isPow2 alignment = true ∧ alignment % 8 = 0

theorem posixMemalign_einval (hbad : ¬ PosixAligned alignment) :
    posixMemalign ctx bt alignment usrSize s = .ok (22, none) s := by
  have hcond : isPow2 alignment = false ∨ alignment % 8 ≠ 0 := by
    by_cases hp : isPow2 alignment = true
    · exact .inr fun h => hbad ⟨hp, h⟩
    · exact .inl (Bool.eq_false_iff.2 hp)
  unfold posixMemalign
  rw [if_pos hcond]
  rfl

theorem posixMemalign_enomem {Q : Heap → Prop} (halign : PosixAligned alignment)
    (h : wp (memalignInt ctx bt alignment usrSize) (fun r s' => r = 0 ∧ Q s')
      (fun _ _ => False) s) :
    wp (posixMemalign ctx bt alignment usrSize) (fun r s' => r = (12, none) ∧ Q s')
      (fun _ _ => False) s := by
  unfold posixMemalign
  refine wp_ite (fun hbad => ?_) fun _ => ?_
  · rcases hbad with hbad | hbad
    · exact absurd (halign.1.symm.trans hbad) nofun
    · exact absurd halign.2 hbad
  · refine wp_bind_of h ?_
    rintro _ s₁ ⟨rfl, hQ⟩
    exact wp_ite (fun _ => wp_pure ⟨rfl, hQ⟩) fun h => absurd rfl h

def Call.Aligned : Call → Prop
  | .posixMemalign alignment _ => PosixAligned alignment
  | _ => True

theorem Call.args_lt {c : Call} {n : ℕ} {held : Books} (hok : c.Ok held) (hsize : c.size? = some n) :
    c.alignment < 2 ^ 64 ∧ n < 2 ^ 64 := by
  cases c with
  | malloc usrSize =>
      obtain rfl := Option.some.inj hsize
      refine ⟨?_, hok⟩
      unfold Call.alignment
      dsimp only
      split <;> decide
  | calloc nmemb usrSize =>
      obtain rfl := Option.some.inj hsize
      exact ⟨(by decide : 8 < 2 ^ 64), Nat.mod_lt _ (by norm_num)⟩
  | realloc origBuf newUsrSize =>
      obtain rfl := Option.some.inj hsize
      exact ⟨(by decide : 8 < 2 ^ 64), hok.1⟩
  | memalign alignment usrSize =>
      obtain rfl := Option.some.inj hsize
      exact hok
  | posixMemalign alignment usrSize =>
      obtain rfl := Option.some.inj hsize
      exact hok
  | free => cases hsize
  | load => cases hsize
  | store => cases hsize
  | onExit => cases hsize

/-- What the calls make of a `NULL` that `memalignInt` returns. -/
theorem exec_null {c : Call} {n : ℕ} {Q : Heap → Prop} (hsize : c.size? = some n)
    (halign : c.Aligned)
    (h : wp (memalignInt ctx bt c.alignment n) (fun r s' => r = 0 ∧ Q s')
      (fun _ _ => False) s) :
    wp (c.exec ctx bt) (fun r s' => r = 0 ∧ Q s') (fun _ _ => False) s := by
  cases c with
  | malloc usrSize =>
      obtain rfl := Option.some.inj hsize
      exact h
  | calloc nmemb usrSize =>
      obtain rfl := Option.some.inj hsize
      refine wp_bind_of h ?_
      rintro _ s₁ ⟨rfl, hQ⟩
      exact wp_ite (fun _ => wp_pure ⟨rfl, hQ⟩) fun h => absurd rfl h
  | realloc origBuf newUsrSize =>
      obtain rfl := Option.some.inj hsize
      refine wp_bind_of h ?_
      rintro _ s₁ ⟨rfl, hQ⟩
      exact wp_ite (fun _ => wp_pure ⟨rfl, hQ⟩) fun h => absurd (.inr rfl) h
  | memalign alignment usrSize =>
      obtain rfl := Option.some.inj hsize
      exact h
  | posixMemalign alignment usrSize =>
      obtain rfl := Option.some.inj hsize
      refine wp_bind_of (posixMemalign_enomem halign h) ?_
      rintro _ s₁ ⟨rfl, hQ⟩
      exact wp_pure ⟨rfl, hQ⟩
  | free => cases hsize
  | load => cases hsize
  | store => cases hsize
  | onExit => cases hsize

end GuardRails
