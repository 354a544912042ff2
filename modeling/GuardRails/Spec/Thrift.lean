import GuardRails.Spec.HighWater
import GuardRails.Spec.Refill
import GuardRails.Spec.Stock

/-!
# Thrift

A refill does not go beyond the high-water mark of its bin, and is not made while the bin has as
many blocks as its low-water mark. So a bin gets no more blocks than it has lent at the same time
and its high-water mark together, and one with marks never runs out of blocks as long as the system
grants memory. `getBuf` keeps both so, whatever the dumps that it starts allocate on their way.
-/

namespace GuardRails

open StateHoare

variable {env : Env} {args : GRArgs} {s s' s₀ s₁ s₃ : Heap} {ctx : Ctx} {log evs : List Event}
  {D D' : ℕ → ℕ → Prop} {hs : List ℕ} {ret : ℤ} {X : Set ℕ} {i j b c h n : ℕ}

def GRArgs.Marks (args : GRArgs) (i b : ℕ) : Prop := i < args.numSlots ∧ b ∈ markedBins

instance (args : GRArgs) (i b : ℕ) : Decidable (args.Marks i b) := instDecidableAnd

def GRArgs.water (args : GRArgs) (i b : ℕ) : ℕ × ℕ := if args.Marks i b then (100, 200) else (0, 0)

theorem GRArgs.water_le (args : GRArgs) (i b : ℕ) : (args.water i b).1 ≤ (args.water i b).2 := by
  unfold GRArgs.water
  split <;> decide

/-- The bins have their marks, and what they were given is within them. The bins `D` have spare
blocks, unless the system has refused memory. -/
structure Thrifty (args : GRArgs) (D : ℕ → ℕ → Prop) (s : Heap) : Prop where
  water : ∀ i b, (s.bin i b).water = args.water i b
  supplied_le : ∀ i b, (supplied i b s.log).length ≤ peakLent i b s.log + (args.water i b).2
  used : poolsUsed s.memPools = suppliedBytes args.numSlots s.log
  stocked : .mmapFailed ∈ s.log ∨
    ∀ i b, D i b → 99 ≤ ((ledger s.log).list ⟨.free, i, b⟩).length

theorem Thrifty.lowWater (h : Thrifty args D s) (i b : ℕ) : (s.bin i b).lowWater = (args.water i b).1 :=
  congrArg Prod.fst (h.water i b)

theorem Thrifty.highWater (h : Thrifty args D s) (i b : ℕ) : (s.bin i b).highWater = (args.water i b).2 :=
  congrArg Prod.snd (h.water i b)

theorem Thrifty.mono (h : Thrifty args D s) (hD : ∀ i b, D' i b → D i b) : Thrifty args D' s :=
  { h with stocked := h.stocked.imp_right fun hs i b hib => hs i b (hD i b hib) }

theorem Thrifty.dealt (h : Thrifty args D s) (hd : Dealt Event.deals [] s s') : Thrifty args D s' := by
  obtain ⟨evs, hlog, hevs⟩ := hd.log
  refine ⟨fun i b => (hd.water i b).trans (h.water i b), fun i b => ?_, ?_, ?_⟩
  · rw [hlog, supplied_of_dealt hevs]
    exact (h.supplied_le i b).trans (Nat.add_le_add_right (peakLent_le_append i b evs _) _)
  · rw [hd.used, hlog, suppliedBytes_of_dealt hevs, h.used]
  · rw [hlog]
    refine h.stocked.imp (List.mem_append_right evs) fun hD i b hib => (hD i b hib).trans ?_
    exact free_le_of_dealt hevs i b s.log

theorem Sparing.maintains {α : Type} {m : M α} (hm : Sparing m) :
    Maintains (Thrifty args D) (fun _ _ => True) m :=
  fun s h => wp_mono (hm s) (fun _ _ hd => h.dealt hd) fun _ _ h => h

/-- A bin that has no more blocks left than its mark was given no more than it may. -/
theorem Lawful.supplied_within (hl : Lawful log) (hH : (ledger log).Homed)
    (hfree : ((ledger log).list ⟨.free, i, b⟩).length ≤ n) :
    (supplied i b log).length ≤ peakLent i b log + n := by
  have hle := hl.supplied_le hH i b
  have hlent := lent_le_peakLent i b log
  omega

theorem Ledger.Homed.keeps (hH : (ledger s.log).Homed) (hK : Keeps X s s')
    (hX : ∀ h ∈ X, ∀ B, (ledger s'.log).block h = some B → B.place ≠ .raw ∧ B.place ≠ .held) :
    (ledger s'.log).Homed := by
  intro h B hB
  by_cases hx : h ∈ X
  · exact hX h hx B hB
  by_cases hF : ∀ A, (ledger s.log).block h = some A → ¬ A.Fixed
  · rcases hK.settled h hx hF B hB with hp | hp | ⟨hp, -⟩ <;> simp [hp]
  · simp only [not_forall, not_not] at hF
    obtain ⟨A, hA, hfix⟩ := hF
    obtain rfl := Option.some.inj ((hK.block h A hx hA hfix).symm.trans hB)
    exact hH h A hA

/-! ## Refills -/

structure Supplies (i b k : ℕ) (s s' : Heap) : Prop where
  water : ∀ j c, (s'.bin j c).water = (s.bin j c).water
  used : poolsUsed s'.memPools = poolsUsed s.memPools + k * (2 ^ b + guardSize)
  suffix : s.log <:+ s'.log
  length_supplied : ∀ j c, (supplied j c s'.log).length =
    (supplied j c s.log).length + if j = i ∧ c = b then k else 0

/-- A call of `replenishBin` that returned `ret` has put the blocks `hs` on the free list. -/
structure Restocked (i b : ℕ) (hs : List ℕ) (ret : ℤ) (s s' : Heap) : Prop
    extends Supplies i b hs.length s s' where
  length_free : ∀ j c, ((ledger s'.log).list ⟨.free, j, c⟩).length =
    ((ledger s.log).list ⟨.free, j, c⟩).length + if j = i ∧ c = b then hs.length else 0
  full : ret = 0 → hs.length =
    if s.Refills i b then max 1 ((s.bin i b).highWater - (s.bin i b).numFree) else 0
  short : ret ≠ 0 → s.Refills i b ∧
    hs.length < max 1 ((s.bin i b).highWater - (s.bin i b).numFree) ∧ .mmapFailed ∈ s'.log

theorem supplied_blockEvents (j c : ℕ) :
    supplied j c (hs.flatMap (blockEvents i b)) = if j = i ∧ c = b then hs else [] := by
  induction hs with
  | nil => exact (ite_self []).symm
  | cons h hs ih =>
      rw [List.flatMap_cons, supplied_append, ih]
      by_cases hjc : j = i ∧ c = b
      · obtain ⟨rfl, rfl⟩ := hjc
        simp [supplied, blockEvents, Event.supplied?, List.filterMap_cons]
      · have hcj : ¬ (i = j ∧ b = c) := fun h => hjc ⟨h.1.symm, h.2.symm⟩
        simp [supplied, blockEvents, Event.supplied?, List.filterMap_cons, hjc, hcj]

theorem Restocked.of_drawn {p : Supply} (hevs : evs = [] ∨ evs = refusalEvents)
    (hD : Drawn p (evs ++ hs.flatMap (blockEvents i b)) (s.addFree i b hs) s')
    (hused : poolsUsed p.pools = poolsUsed s.memPools + hs.length * (2 ^ b + guardSize))
    (hfull : ret = 0 → hs.length =
      if s.Refills i b then max 1 ((s.bin i b).highWater - (s.bin i b).numFree) else 0)
    (hshort : ret ≠ 0 → s.Refills i b ∧
      hs.length < max 1 ((s.bin i b).highWater - (s.bin i b).numFree) ∧ .mmapFailed ∈ evs) :
    Restocked i b hs ret s s' := by
  have hlog : s'.log = evs ++ (hs.flatMap (blockEvents i b) ++ s.log) := by
    obtain ⟨m, pages, rfl⟩ := hD
    exact List.append_assoc _ _ _
  have hquiet : ∀ j c log, supplied j c (evs ++ log) = supplied j c log ∧
      (ledger (evs ++ log)).list ⟨.free, j, c⟩ = (ledger log).list ⟨.free, j, c⟩ := by
    rcases hevs with rfl | rfl <;> exact fun j c log => ⟨rfl, rfl⟩
  refine ⟨⟨fun j c => ?_, ?_, ?_, fun j c => ?_⟩, fun j c => ?_, hfull, fun h => ?_⟩
  · rw [hD.bin, Heap.addFree, bin_updBin]
    split
    · rename_i hjc
      rw [hjc.1, hjc.2]
      rfl
    · rfl
  · rw [← hused, ← hD.supply]
    rfl
  · rw [hlog]
    exact (List.suffix_append _ _).trans (List.suffix_append _ _)
  · rw [hlog, (hquiet j c _).1, supplied_append, supplied_blockEvents, List.length_append, Nat.add_comm]
    congr 1
    split <;> rfl
  · rw [hlog, (hquiet j c _).2, list_blockEvents]
    by_cases hjc : j = i ∧ c = b
    · obtain ⟨rfl, rfl⟩ := hjc
      rw [if_pos rfl, if_pos ⟨rfl, rfl⟩, List.length_append, Nat.add_comm]
    · rw [if_neg hjc, if_neg fun h => hjc (by simpa using h), Nat.add_zero]
  · obtain ⟨hrf, hlt, hmem⟩ := hshort h
    exact ⟨hrf, hlt, hlog ▸ List.mem_append_left _ hmem⟩

theorem Restocked.refl (hrf : ¬ s.Refills i b) : Restocked i b [] 0 s s := by
  refine ⟨⟨fun _ _ => rfl, ?_, List.suffix_rfl, fun _ _ => ?_⟩, fun _ _ => ?_, ?_, fun h => absurd rfl h⟩
  · rw [List.length_nil, Nat.zero_mul, Nat.add_zero]
  · rw [List.length_nil, ite_self, Nat.add_zero]
  · rw [List.length_nil, ite_self, Nat.add_zero]
  · exact fun _ => (if_neg hrf).symm

theorem replenishBin_restocked (hctx : ctx.Ok env) (hcalm : env.Calm) (hR : Rep env 0 s)
    (hr : Ready env False s) (hb : 12 ≤ b) (hlock : (s.mutex (.slot i)).locked = true) :
    wp (replenishBin ctx i b)
      (fun ret s' => i < env.args.numSlots ∧ b < 40 ∧ Refilled env False 0 s s' i b ret ∧
        ∃ hs, Restocked i b hs ret s s')
      (fun _ _ => True) s := by
  have hspec : wp (replenishBin ctx i b) _ _ s :=
    replenishBin_spec (F := False) (G := False) hctx (fun _ => rfl) hb nofun nofun nofun hlock
      (.refl hR hr)
  have hcalmFrom : env.CalmFrom s.clock := fun line t _ => hcalm line t
  by_cases hib : i < env.args.numSlots ∧ b < 40
  case neg => exact wp_mono hspec (fun _ _ h => absurd ⟨h.1, h.2.1⟩ hib) fun _ _ _ => trivial
  obtain ⟨hi, hb'⟩ := hib
  have hrun : wp (replenishBin ctx i b) (fun ret s' => ∃ hs, Restocked i b hs ret s s')
      (fun _ _ => True) s := by
    cases hg : s.gMutex.locked with
    | true =>
        by_cases hrf : s.Refills i b
        · refine wp_mono (replenishBin_held hctx.env_eq hcalmFrom hb hb' hi hlock hR hrf hg) ?_ ?_
          · exact fun _ _ h => h.elim
          · exact fun _ _ _ => trivial
        · exact wp_replenishBin hctx.env_eq hcalmFrom le_rfl hb hb' hi hlock hR (fun h => absurd h hrf)
            fun _ => ⟨[], .refl hrf⟩
    | false =>
        have hn : 2 ^ b % 4096 = 0 := Nat.mod_eq_zero_of_dvd (pow_dvd_pow 2 hb : 2 ^ 12 ∣ 2 ^ b)
        refine wp_mono (replenishBin_run hctx hcalmFrom le_rfl hb hb' hi hg hlock (.refl hR hr)) ?_
          fun _ _ _ => trivial
        rintro ret s' ⟨hdone, hfull, -⟩
        by_cases hrf : s.Refills i b
        · have hIs := hdone hrf
          unfold Heap.refillAt at hIs
          cases hans : Supply.fill env (2 ^ b) (max 1 ((s.bin i b).highWater - (s.bin i b).numFree))
              ⟨s.memPools, s.clock⟩ with
          | granted hs p =>
              rw [hans] at hIs
              obtain ⟨rfl, -, hD⟩ := hIs
              obtain ⟨hlen, htaken⟩ := Supply.fill_taken hn hR.sane hans
              refine ⟨hs, .of_drawn (.inl rfl) hD ?_ (fun _ => ?_) fun h => absurd rfl h⟩
              · rw [hlen]
                exact htaken.used
              · rw [if_pos hrf, hlen]
          | refused hs p =>
              rw [hans] at hIs
              obtain ⟨rfl, hD⟩ := hIs
              obtain ⟨hlt, hused⟩ := Supply.fill_refused_used hn hR.sane hans
              refine ⟨hs, .of_drawn (.inr rfl) hD hused nofun fun _ => ⟨hrf, hlt, ?_⟩⟩
              exact List.mem_cons_of_mem _ List.mem_cons_self
          | stopped =>
              rw [hans] at hIs
              exact hIs.elim
        · obtain ⟨rfl, rfl⟩ := hfull hrf
          exact ⟨[], .refl hrf⟩
  exact wp_mono (wp_and hspec hrun) (fun _ _ h => ⟨h.1.1, h.1.2.1, h.1.2.2, h.2⟩) fun _ _ _ => trivial

/-- After a refill the bin has as many blocks as its high-water mark says, but at least one. -/
theorem Restocked.free_eq (hr : Restocked i b hs ret s s') (h : Thrifty args D s) (hR : Rep env 0 s)
    (hrf : s.Refills i b) :
    ((ledger s'.log).list ⟨.free, i, b⟩).length ≤ max 1 (args.water i b).2 ∧
      (ret = 0 → ((ledger s'.log).list ⟨.free, i, b⟩).length = max 1 (args.water i b).2) ∧
      (ret ≠ 0 → ((ledger s'.log).list ⟨.free, i, b⟩).length ≤ (args.water i b).2) := by
  have hlow := h.lowWater i b
  have hhigh := h.highWater i b
  have hle := args.water_le i b
  have hfree := hr.length_free i b
  have hnum := hR.numFree_eq (i := i) (b := b) rfl
  have hempty : (s.bin i b).headFree = 0 → ((ledger s.log).list ⟨.free, i, b⟩).length = 0 := fun h0 =>
    List.length_eq_zero_iff.2 ((hR.shape.lists ⟨.free, i, b⟩).head_eq_zero_iff.1 h0)
  have hfew : ((ledger s.log).list ⟨.free, i, b⟩).length < max 1 (args.water i b).1 := by
    rcases hrf with h0 | hlt
    · have := hempty h0
      omega
    · omega
  have hfull := hr.full
  have hshort := hr.short
  rw [if_pos hrf, hhigh, hnum] at hfull
  rw [hhigh, hnum] at hshort
  rw [if_pos ⟨rfl, rfl⟩] at hfree
  by_cases h0 : ret = 0
  · have := hfull h0
    refine ⟨?_, fun _ => ?_, fun h => absurd h0 h⟩ <;> omega
  · have := (hshort h0).2.1
    refine ⟨?_, fun h => absurd h h0, fun _ => ?_⟩ <;> omega

theorem Restocked.enough (hr : Restocked i b hs 0 s s') (h : Thrifty args D s) (hR : Rep env 0 s)
    (hm : args.Marks i b) : 100 ≤ ((ledger s'.log).list ⟨.free, i, b⟩).length := by
  have hwater : args.water i b = (100, 200) := if_pos hm
  by_cases hrf : s.Refills i b
  · rw [(hr.free_eq h hR hrf).2.1 rfl, hwater]
    decide
  · have hlow := h.lowWater i b
    have hnum := hR.numFree_eq (i := i) (b := b) rfl
    have hmany : ¬ (s.bin i b).numFree < (s.bin i b).lowWater := fun h => hrf (.inr h)
    rw [hlow, hnum, hwater] at hmany
    rw [hr.length_free]
    omega

theorem Supplies.thrifty {k : ℕ} (hsup : Supplies i b k s s') (h : Thrifty args D s)
    (hi : i < args.numSlots) (hb : b < 40)
    (hown : (supplied i b s'.log).length ≤ peakLent i b s'.log + (args.water i b).2)
    (hstock : .mmapFailed ∈ s'.log ∨
      ∀ i b, D' i b → 99 ≤ ((ledger s'.log).list ⟨.free, i, b⟩).length) : Thrifty args D' s' where
  water j c := (hsup.water j c).trans (h.water j c)
  supplied_le j c := by
    by_cases hjc : j = i ∧ c = b
    · obtain ⟨rfl, rfl⟩ := hjc
      exact hown
    · obtain ⟨evs, hlog⟩ := hsup.suffix
      have hpeak := peakLent_le_append j c evs s.log
      rw [hlog] at hpeak
      rw [hsup.length_supplied, if_neg hjc, Nat.add_zero]
      exact (h.supplied_le j c).trans (Nat.add_le_add_right hpeak _)
  used := by
    rw [hsup.used, h.used]
    exact (suppliedBytes_add hi hb hsup.length_supplied).symm
  stocked := hstock

/-- A bin that is not due for a refill gets nothing. -/
theorem Restocked.idle (hr : Restocked i b hs ret s s₃) (hsup : Supplies i b hs.length s s')
    (h : Thrifty args D s) (hrf : ¬ s.Refills i b) :
    (supplied i b s'.log).length ≤ peakLent i b s'.log + (args.water i b).2 := by
  have hnone : hs.length = 0 := by
    by_cases h0 : ret = 0
    · exact (hr.full h0).trans (if_neg hrf)
    · exact absurd (hr.short h0).1 hrf
  obtain ⟨evs, hevs⟩ := hsup.suffix
  have hpeak := peakLent_le_append i b evs s.log
  rw [hevs] at hpeak
  rw [hsup.length_supplied, hnone, ite_self, Nat.add_zero]
  exact (h.supplied_le i b).trans (Nat.add_le_add_right hpeak _)

/-- A refill leaves the bins thrifty, if the bin has marks or the system refuses memory. -/
theorem Restocked.thrifty (hr : Restocked i b hs ret s s') (h : Thrifty args D s) (hR : Rep env 0 s)
    (hl : Lawful s'.log) (hH : (ledger s'.log).Homed) (hi : i < args.numSlots) (hb : b < 40)
    (hm : ret = 0 → args.Marks i b) : Thrifty args (fun j c => D j c ∨ j = i ∧ c = b) s' := by
  have hown : (supplied i b s'.log).length ≤ peakLent i b s'.log + (args.water i b).2 := by
    by_cases hrf : s.Refills i b
    · refine hl.supplied_within hH ?_
      have hfree := hr.free_eq h hR hrf
      by_cases h0 : ret = 0
      · rw [hfree.2.1 h0, GRArgs.water, if_pos (hm h0)]
        decide
      · exact hfree.2.2 h0
    · exact hr.idle hr.toSupplies h hrf
  refine hr.toSupplies.thrifty h hi hb hown ?_
  by_cases h0 : ret = 0
  · subst h0
    refine h.stocked.imp (fun hf => hr.suffix.subset hf) fun hD j c hjc => ?_
    rcases hjc with hjc | ⟨rfl, rfl⟩
    · rw [hr.length_free]
      exact (hD j c hjc).trans (Nat.le_add_right _ _)
    · exact (hr.enough h hR (hm rfl)).trans' (by decide)
  · exact .inl (hr.short h0).2.2

/-! ## `getBuf` -/

/-- Between the calls and inside dumps the bins are thrifty. -/
structure Frugal (env : Env) (s : Heap) : Prop where
  rep : Rep env 0 s
  isInit : s.isInit = true
  homed : (ledger s.log).Homed
  thrifty : Thrifty env.args env.args.Marks s

theorem Block.Settled.homed {B : Block} (hB : B.Settled) : B.place ≠ .raw ∧ B.place ≠ .held := by
  rcases hB with hp | hp | ⟨hp, -⟩ <;> simp [hp]

theorem Frugal.ready (h : Frugal env s) : Ready env False s := ⟨nofun, .inl h.isInit, nofun⟩

theorem Frugal.next (h : Frugal env s) (hR : Rep env 0 s') (hK : Keeps X s s')
    (hX : ∀ h ∈ X, ∀ B, (ledger s'.log).block h = some B → B.place ≠ .raw ∧ B.place ≠ .held)
    (ht : Thrifty env.args env.args.Marks s') : Frugal env s' :=
  ⟨hR, hK.isInit.trans h.isInit, h.homed.keeps hK hX, ht⟩

theorem Frugal.lock (h : Frugal env s)
    (hl : (s.mutex (.slot i)).locked = true → (s.mutex (.slot i)).recursive = true) :
    Frugal env (s.lockHeap (.slot i)) :=
  ⟨h.rep.lockHeap hl, h.isInit, h.homed, h.thrifty.dealt .lockHeap⟩

/-- A refill that is refused memory leaves the bins thrifty. -/
theorem Frugal.refused (h : Frugal env s) (hr : Restocked i b hs ret s s') (hR : Rep env 0 s')
    (hK : Keeps ∅ s s') (hi : i < env.args.numSlots) (hb : b < 40) (h0 : ret ≠ 0) : Frugal env s' := by
  have hhomed := h.homed.keeps hK (by simp)
  have ht := hr.thrifty h.thrifty h.rep hR.log_ok.lawful hhomed hi hb fun h => absurd h h0
  exact h.next hR hK (by simp) (ht.mono fun _ _ => .inl)

/-- A block is taken off a free list. -/
theorem Supplies.taken {k x : ℕ} (hsup : Supplies i b k s s₃)
    (ht : Dealt (fun _ => true) [.linked ⟨.inUse, i, b⟩ x, .unlinked ⟨.free, i, b⟩ x] s₃ s') :
    Supplies i b k s s' := by
  obtain ⟨evs, hlog, hevs⟩ := ht.log
  rw [List.filter_true] at hevs
  subst hevs
  refine ⟨fun j c => (ht.water j c).trans (hsup.water j c), ht.used.trans hsup.used, ?_, fun j c => ?_⟩
  · rw [hlog]
    exact hsup.suffix.trans (List.suffix_append _ _)
  · rw [hlog]
    exact hsup.length_supplied j c

/-- A refill and the request that it was made for leave the bins thrifty. -/
theorem Restocked.taken {x : ℕ} (hr : Restocked i b hs 0 s s₃)
    (ht : Dealt (fun _ => true) [.linked ⟨.inUse, i, b⟩ x, .unlinked ⟨.free, i, b⟩ x] s₃ s')
    (h : Thrifty args args.Marks s) (hR : Rep env 0 s) (hl : Lawful s'.log)
    (hH : (ledger s'.log).Homed) (hi : i < args.numSlots) (hb : b < 40) :
    Thrifty args args.Marks s' := by
  have hlog : s'.log = .linked ⟨.inUse, i, b⟩ x :: .unlinked ⟨.free, i, b⟩ x :: s₃.log := by
    obtain ⟨evs, hlog, hevs⟩ := ht.log
    rw [List.filter_true] at hevs
    rw [hlog, hevs]
    rfl
  have hsup := hr.toSupplies.taken ht
  have hfree : ∀ j c, ((ledger s'.log).list ⟨.free, j, c⟩).length + (if j = i ∧ c = b then 1 else 0) =
      ((ledger s.log).list ⟨.free, j, c⟩).length + if j = i ∧ c = b then hs.length else 0 := by
    intro j c
    rw [← hr.length_free j c]
    rw [hlog] at hl ⊢
    exact hl.free_of_taken j c
  have hown : (supplied i b s'.log).length ≤ peakLent i b s'.log + (args.water i b).2 := by
    by_cases hrf : s.Refills i b
    · have heq := (hr.free_eq h hR hrf).2.1 rfl
      have hib := hfree i b
      rw [← hr.length_free, heq, if_pos ⟨rfl, rfl⟩] at hib
      exact hl.supplied_within hH (by omega)
    · exact hr.idle hsup h hrf
  refine hsup.thrifty h hi hb hown (h.stocked.imp (fun hf => hsup.suffix.subset hf) fun hD j c hjc => ?_)
  have hleft := hfree j c
  by_cases hib : j = i ∧ c = b
  · obtain ⟨rfl, rfl⟩ := hib
    have hmany := hr.enough h hR hjc
    rw [hr.length_free] at hmany
    rw [if_pos ⟨rfl, rfl⟩] at hleft
    omega
  · have hge := hD j c hjc
    rw [if_neg hib, if_neg hib] at hleft
    omega

/-- Both when a request is refused memory and after it has been counted. -/
theorem claimBuf_frugal {bt : List ℕ} (hctx : ctx.Ok env) (hcalm : env.Calm) (h : Frugal env s)
    (hb : 12 ≤ b) :
    wp (claimBuf ctx bt b n) (fun _ s' => Frugal env s') (fun _ _ => True) s := by
  have hcalm' : ctx.env.Calm := hctx.env_eq ▸ hcalm
  unfold claimBuf
  have hslot : wp (pickSlot ctx n) _ _ s :=
    pickSlot_spec (X := ∅) (F := False) (G := False) (.refl h.rep h.ready) nofun
  have hdealt : wp (pickSlot ctx n) _ _ s := dealing_pickSlot (p := Event.deals) s
  refine wp_bind (wp_poll_none hcalm' (wp_bind (wp_mono (wp_and hdealt hslot) ?_ fun _ _ _ => trivial)))
  rintro i s₁ ⟨hd₁, -, hc₁⟩
  have h₁ := h.next hc₁.rep hc₁.keeps (by simp) (h.thrifty.dealt hd₁)
  refine wp_bind (wp_poll_none hcalm' (wp_bind (wp_pthreadMutexLock (fun hl => ?_) fun _ _ => trivial)))
  have h₂ := h₁.lock hl
  have hlock := locked_lockHeap (s := s₁) (l := .slot i)
  generalize s₁.lockHeap (.slot i) = s₂ at h₂ hlock
  refine wp_bind (wp_poll_none hcalm' (wp_bind_of (replenishBin_restocked hctx hcalm h₂.rep h₂.ready hb hlock) ?_))
  rintro ret s₃ ⟨hi, hb', hres, hs, hr⟩
  refine wp_bind (wp_poll_none hcalm' (wp_ite (fun h0 => wp_pure ?_) fun h0 => ?_))
  · exact h₂.refused hr hres.call.rep hres.call.keeps hi hb' h0
  obtain ⟨rfl, hne⟩ := hres.result.resolve_right fun h => h0 h.1
  refine wp_bind (wp_mono (wp_and (takeBlock_spec (F := False) (G := False) hctx
    (.refl hres.call.rep hres.call.ready) hne) (takeBlock_dealt (p := fun _ => true) hcalm')) ?_
    fun _ _ _ => trivial)
  rintro hdr s₄ ⟨⟨B, hB, hp, hslot, -, hlive, hreq, hc₄, -⟩, hd₄⟩
  rw [List.filter_true] at hd₄
  have hhomed₃ := h₂.homed.keeps hres.call.keeps (by simp)
  have hhomed₄ := hhomed₃.keeps hc₄.keeps fun x hx A hA => by
    obtain rfl : x = hdr := hx
    obtain rfl := Option.some.inj (hB.symm.trans hA)
    simp [hp]
  have ht₄ := hr.taken hd₄ h₂.thrifty h₂.rep hc₄.rep.log_ok.lawful hhomed₄ hi hb'
  refine wp_bind (wp_mono (wp_and (countAlloc_spec (G := False) (q := ⟨hdr, n, bt⟩) hctx hc₄ rfl hB hp hslot
    hlive hreq nofun) (sparing_countAlloc hcalm' s₄)) ?_ fun _ _ _ => trivial)
  rintro _ s₅ ⟨⟨-, hc₅, hB₅⟩, hd₅⟩
  refine wp_pure ⟨hc₅.rep, hc₅.keeps.isInit.trans (hres.call.keeps.isInit.trans h₂.isInit), ?_, ht₄.dealt hd₅⟩
  refine hhomed₃.keeps hc₅.keeps fun x hx A hA => ?_
  obtain rfl : x = hdr := hx
  obtain rfl := Option.some.inj (hB₅.symm.trans hA)
  simp [hp]

/-- A dump that begins with thrifty bins ends so. -/
def Ctx.Saves (env : Env) (ctx : Ctx) : Prop :=
  ∀ b hwm s, Frugal env s →
    wp (ctx.onExitHelper b hwm) (fun _ s' => Thrifty env.args env.args.Marks s') (fun _ _ => True) s

theorem limitDumps_thrifty (hctx : ctx.Ok env) (hS : ctx.Saves env) (hcalm : env.Calm)
    (h : Frugal env s) :
    wp (limitDumps ctx i) (fun _ s' => Thrifty env.args env.args.Marks s') (fun _ _ => True) s := by
  have hcalm' : ctx.env.Calm := hctx.env_eq ▸ hcalm
  unfold limitDumps
  refine wp_bind (wp_poll_none hcalm' (wp_bind (wp_get ?_)))
  extract_lets S
  refine wp_bind (wp_get ?_)
  extract_lets args rest
  have hrest : ∀ s₁, Thrifty env.args env.args.Marks s₁ →
      wp (rest ()) (fun _ s' => Thrifty env.args env.args.Marks s') (fun _ _ => True) s₁ := by
    intro s₁ h₁
    refine wp_bind (wp_poll_none hcalm' (wp_bind (wp_get (wp_ite (fun _ => ?_) fun _ => wp_pure h₁))))
    refine wp_bind_of (wp_trivial _) fun _ s₂ _ => wp_bind_of (wp_trivial _) fun _ s₃ _ => ?_
    exact wp_bind_of (wp_trivial _) fun _ s₄ _ => wp_throw trivial
  refine wp_ite (fun hgt => ?_) fun hle => hrest s h.thrifty
  refine wp_bind (wp_poll_none hcalm' (wp_bind (wp_modify (wp_bind (wp_poll_none hcalm' (wp_bind (wp_get ?_)))))))
  have hcounts := h.rep.shape.counts
  have hset : InCall env False 0 ∅ s
      (s.updSlot i fun S => { S with lastHWMUsrBytesDump := S.hwmUsrBytes }) :=
    (InCall.refl h.rep h.ready).setCounts
      (.updSlot (fun _ => rfl) (fun _ => rfl) fun _ => rfl) rfl rfl rfl
      (hcounts.updSlot (fun _ => rfl) (hcounts.bytes_lt i) (hcounts.modEq (.bytes i))
        (fun _ _ => rfl) fun _ => rfl)
  have hthrifty := h.thrifty.dealt (.updSlot (i := i)
    (g := fun S => { S with lastHWMUsrBytesDump := S.hwmUsrBytes }) fun _ _ => rfl)
  exact wp_bind_of (hS _ _ _ (h.next hset.rep hset.keeps (by simp) hthrifty)) fun _ s₁ h₁ => hrest s₁ h₁

theorem getBuf_thrifty {a : ℕ} {bt : List ℕ} (hctx : ctx.Ok env) (hS : ctx.Saves env)
    (hcalm : env.Calm) (h : Frugal env s) (halloc : a < 2 ^ 64) :
    wp (getBuf ctx bt a n) (fun _ s' => Thrifty env.args env.args.Marks s') (fun _ _ => True) s := by
  have hcalm' : ctx.env.Calm := hctx.env_eq ▸ hcalm
  have hb : 12 ≤ log2fast (max pageSize a) := by
    have hpage : max pageSize a = max 4096 a := rfl
    exact le_log2fast_page (max_lt (by decide) halloc) (by omega)
  rw [getBuf_eq]
  refine wp_bind_of (claimBuf_frugal hctx hcalm h hb) ?_
  rintro ⟨i, _ | hdr⟩ s₁ h₁
  · have hlast : Sparing (do pthreadMutexUnlock (.slot i); ctx.poll 359; pure ((0, 0) : ℕ × ℕ)) :=
      sparing_unlock.seq fun _ => (dealing_poll hcalm').seq fun _ => dealing_pure
    exact hlast.maintains s₁ h₁.thrifty
  · have hlast : Sparing (do
        ctx.poll 390
        pthreadMutexUnlock (.slot i)
        ctx.poll 393
        grAssert (.guardRails 393) ((← ldField hdr .magic) = magicFree)
        ctx.poll 395
        pure (hdr, hdr + 2 ^ log2fast (max pageSize a))) :=
      (dealing_poll hcalm').seq fun _ => sparing_unlock.seq fun _ => (dealing_poll hcalm').seq fun _ =>
        dealing_ldField.seq fun _ => dealing_grAssert.seq fun _ => (dealing_poll hcalm').seq fun _ => dealing_pure
    exact wp_bind_of (limitDumps_thrifty hctx hS hcalm h₁) fun _ s₂ h₂ => hlast.maintains s₂ h₂

theorem memalignInt_thrifty {a : ℕ} {bt : List ℕ} (hctx : ctx.Ok env) (hS : ctx.Saves env)
    (hcalm : env.Calm) (h : Frugal env s) :
    wp (memalignInt ctx bt a n) (fun _ s' => Thrifty env.args env.args.Marks s') (fun _ _ => True) s := by
  unfold memalignInt
  refine wp_bind (wp_get ?_)
  extract_lets allocSize rest
  have halloc : allocSize < 2 ^ 64 := Nat.mod_lt _ (by norm_num)
  refine wp_bind (wp_get (wp_ite (fun h0 => absurd (h0.symm.trans h.isInit) nofun) fun _ => ?_))
  refine wp_bind_of (getBuf_thrifty hctx hS hcalm h halloc) ?_
  rintro ⟨buf, endBuf⟩ s₁ h₁
  refine wp_ite (fun _ => wp_bind (wp_get ?_)) fun _ => sparing_fillBlock.maintains s₁ h₁
  exact wp_ite (fun _ => wp_bind (wp_throw trivial)) fun _ => wp_pure h₁

end GuardRails
