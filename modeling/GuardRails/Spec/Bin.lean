import GuardRails.Invariant.Counters
import GuardRails.Model.Bin
import GuardRails.Spec.ElmList
import GuardRails.Spec.Pool
import Mathlib.Algebra.Order.BigOperators.Group.List

/-!
# `replenishBin`

A block that comes from the pool is nobody's while it is labelled: a dump that runs in
between leaves all of its bytes alone. The loop ends because each round uses up pool
memory, of which there is at most `2 ^ 55` bytes; behind it the free list is not empty,
and no signal may arrive before the caller has taken a block from it.
-/

namespace GuardRails

open ByteMemory StateHoare

variable {env : Env} {off : Off} {L : Ledger} {s s' s₀ : Heap} {X : Set ℕ} {F G : Prop}
  {h n v : ℕ} {B : Block} {ctx : Ctx} {m : Mem} {slotNum binNum : ℕ}

/-! ## A block without a label -/

/-- A function has a new block in its hands whose bytes are those of `m`. -/
structure RawBlock (s : Heap) (h n : ℕ) (m : Mem) : Prop where
  block : (ledger s.log).block h = some { size := n }
  mem : ∀ x, h ≤ x → x < h + n → s.mem x = m x

theorem RawBlock.keeps (hB : RawBlock s h n m) (hK : Keeps ∅ s s') : RawBlock s' h n m where
  block := hK.block h _ (Set.notMem_empty h) hB.block (.inl rfl)
  mem x hx hx' := by
    rw [← hB.mem x hx hx']
    exact hK.mem h _ (Set.notMem_empty h) hB.block (.inl rfl) x hx hx' (by simp)

theorem wp_stField_raw {f : Field} {Q : Unit → Heap → Prop} (hc : InCall env F off X s₀ s)
    (hX : h ∈ X) (hB : RawBlock s h n m)
    (hq : ∀ s', InCall env F off X s₀ s' → RawBlock s' h n (setWord m (h + f.off) v) → Q () s') :
    wp (stField h f v) Q (Halted env F G) s := by
  have hS := hc.rep.shape
  obtain ⟨-, -, hsize, -⟩ := hS.layout.block_bounds hB.block
  have hf := f.off_le
  refine wp_stField (hS.field_open hB.block (by simp) f) (hq _ ?_ ⟨hB.block, fun x hx hx' => ?_⟩)
  · refine hc.write hX hB.block (fun x hx => ?_) (by simp) (by simp)
    dsimp only at hsize hx
    exact setWord_of_notMem (by omega)
  · change setWord s.mem (h + f.off) v x = _
    unfold setWord ByteMemory.update
    rw [hB.mem x hx hx']

theorem wp_poll_raw {line : ℕ} {Q : Unit → Heap → Prop} (hctx : ctx.Ok env)
    (hc : InCall env F off X s₀ s) (hB : RawBlock s h n m)
    (hq : ∀ s', InCall env F off X s₀ s' → RawBlock s' h n m → Q () s') :
    wp (ctx.poll line) Q (Halted env F G) s :=
  wp_poll_safe hctx hc fun s' hc' hK => hq s' hc' (hB.keeps hK)

def labelMem (h slotNum binNum : ℕ) : Mem :=
  setWord (setWord (setWord (fun _ => 0) (h + Field.slotNum.off) slotNum)
    (h + Field.binNum.off) binNum) (h + Field.magic.off) magicFree

theorem headerOk_labelMem (henv : env.Ok) (hal : h % 4096 = 0) (hslot : slotNum < env.args.numSlots)
    (hbin : binNum < 40) (size : ℕ) :
    HeaderOk env.args (labelMem h slotNum binNum) h
      { size := size, slot := slotNum, bin := binNum, place := .held } := by
  have hslots : env.args.numSlots < 128 := henv.args.numSlots_lt
  have hfld : ∀ f : Field, fld (labelMem h slotNum binNum) h f =
      if f = .magic then magicFree else if f = .binNum then binNum else
        if f = .slotNum then slotNum else 0 := by
    intro f
    have hzero : fld (fun _ => 0) h f = 0 := word_eq_zero fun _ _ _ => rfl
    rw [labelMem, fld_setWord hal hal, fld_setWord hal hal, fld_setWord hal hal, hzero,
      Nat.mod_eq_of_lt (by omega : slotNum < 2 ^ 64), Nat.mod_eq_of_lt (by omega : binNum < 2 ^ 64),
      Nat.mod_eq_of_lt (by decide : magicFree < 2 ^ 64)]
    simp
  refine
    { slotNum := by simp [hfld], binNum := by simp [hfld], magic := by simp [hfld]
      slot_lt := hslot
      fresh := fun _ => ⟨by simp [hfld], fun j _ _ => ?_⟩
      owner := by simp }
  have h1 := Field.slotNum.off_le
  have h2 := Field.binNum.off_le
  have h3 := Field.magic.off_le
  rw [labelMem, word_setWord_of_disjoint (by omega), word_setWord_of_disjoint (by omega),
    word_setWord_of_disjoint (by omega)]
  exact word_eq_zero fun _ _ _ => rfl

/-- The label makes the block known to its slot and bin. -/
theorem InCall.labelled (hc : InCall env F off X s₀ s) (hX : h ∈ X)
    (hB : RawBlock s h (2 ^ binNum) (labelMem h slotNum binNum))
    (hslot : slotNum < env.args.numSlots) (hbin : binNum < 40) :
    InCall env F off X s₀ { s with log := .labelled h slotNum binNum :: s.log } ∧
      (ledger (.labelled h slotNum binNum :: s.log)).block h =
        some { size := 2 ^ binNum, slot := slotNum, bin := binNum, place := .held } := by
  have hS := hc.rep.shape
  have hh := hS.layout.block_bounds hB.block
  refine hc.update (e := .labelled h slotNum binNum) hX hB.block ⟨_, hB.block, rfl, rfl⟩ (by simp)
    nofun
    ⟨rfl, rfl, rfl, rfl, fun r => by cases r; rfl, fun _ => rfl, fun l => by cases l <;> rfl⟩ rfl rfl
    (Ledger.block_updBlock hB.block _) rfl rfl rfl (by simp) (fun _ _ => rfl) (fun _ _ _ _ => rfl)
    (fun _ => ?_) (hS.counts.congr rfl rfl rfl rfl)
  exact (headerOk_labelMem hS.env_ok hh.2.1 hslot hbin _).congr hS.env_ok.args hh.2.2.1
    fun y hy hy' _ => hB.mem y hy hy'

/-! ## The loop -/

/-- The pools hold at most `2 ^ 55` bytes. -/
theorem Layout.poolsUsed_le {pools : List MemPool} (hY : Layout pools L) :
    poolsUsed pools ≤ 2 ^ 55 := by
  have hle : ∀ x ∈ pools.map fun P => P.totalSizeBytes - P.remainingSizeBytes, x ≤ 2 ^ 47 := by
    intro x hx
    obtain ⟨P, hP, rfl⟩ := List.mem_map.1 hx
    have := (hY.pool P hP).bounded
    omega
  have hlen : pools.length ≤ 256 := hY.length_le
  have hsum := List.sum_le_card_nsmul _ _ hle
  rw [List.length_map, Nat.nsmul_eq_mul] at hsum
  unfold poolsUsed
  omega

/-- What a refill of a bin leaves behind: blocks on the free list, or trouble. -/
structure Refilled (env : Env) (F : Prop) (off : Off) (s₀ s : Heap) (slotNum binNum : ℕ)
    (ret : ℤ) : Prop where
  call : InCall env F off ∅ s₀ s
  result : ret = 0 ∧ (ledger s.log).list ⟨.free, slotNum, binNum⟩ ≠ [] ∨
    ret ≠ 0 ∧ Trouble env s.log

def labelBlock (ctx : Ctx) (slotNum binNum hdr : ℕ) : M Unit := do
  ctx.poll 264
  stField hdr .slotNum slotNum
  ctx.poll 265
  stField hdr .binNum binNum
  ctx.poll 266
  stField hdr .magic magicFree
  emit (.labelled hdr slotNum binNum)
  ctx.poll 267
  insertElmHead ctx ⟨.free, slotNum, binNum⟩ hdr
  ctx.poll 268
  modify fun s => s.updBin slotNum binNum fun b =>
    { b with numFree := (b.numFree + 1) % 2 ^ 64 }
  ctx.poll 269

theorem replenishLoop_succ (fuel : ℕ) : replenishLoop ctx slotNum binNum (fuel + 1) = (do
    ctx.poll 259
    let hdr ← getFromPool ctx (2 ^ binNum)
    ctx.poll 260
    if hdr = 0 then
      pure (-1)
    else
      labelBlock ctx slotNum binNum hdr
      let bin := (← get).bin slotNum binNum
      if bin.numFree < bin.highWater then
        replenishLoop ctx slotNum binNum fuel
      else
        ctx.poll 271
        pure 0) := by
  simp only [replenishLoop, labelBlock, bind_assoc]

/-- A new block is labelled and goes to the head of the free list. -/
theorem labelBlock_spec (hctx : ctx.Ok env) (hc : InCall env F off {h} s₀ s)
    (hB : RawBlock s h (2 ^ binNum) fun _ => 0) (hbin : binNum < 40)
    (hslot : slotNum < env.args.numSlots) :
    wp (labelBlock ctx slotNum binNum h)
      (fun _ s' => InCall env F off {h} s₀ s' ∧ SettledAt s' h ∧
        (ledger s'.log).list ⟨.free, slotNum, binNum⟩ ≠ []) (Halted env F G) s := by
  have hX : h ∈ ({h} : Set ℕ) := rfl
  have henv := hc.rep.shape.env_ok
  unfold labelBlock
  refine wp_bind (wp_poll_raw hctx hc hB fun s₁ hc₁ hB₁ => ?_)
  refine wp_bind (wp_stField_raw hc₁ hX hB₁ fun s₂ hc₂ hB₂ => ?_)
  refine wp_bind (wp_poll_raw hctx hc₂ hB₂ fun s₃ hc₃ hB₃ => ?_)
  refine wp_bind (wp_stField_raw hc₃ hX hB₃ fun s₄ hc₄ hB₄ => ?_)
  refine wp_bind (wp_poll_raw hctx hc₄ hB₄ fun s₅ hc₅ hB₅ => ?_)
  refine wp_bind (wp_stField_raw hc₅ hX hB₅ fun s₆ hc₆ hB₆ => ?_)
  obtain ⟨hc₇, hB₇⟩ := hc₆.labelled hX hB₆ hslot hbin
  refine wp_bind (wp_emit (wp_bind (wp_poll_safe hctx hc₇ fun s₈ hc₈ hK₈ => ?_)))
  have hB₈ := hK₈.block h _ (Set.notMem_empty _) hB₇ (.inr (.inl rfl))
  refine wp_bind (wp_mono (insertElmHead_spec (F := F) (r := ⟨.free, slotNum, binNum⟩) hctx
    hc₈.rep hB₈ rfl rfl rfl) ?_ fun _ _ hE => hE)
  rintro _ s₉ ⟨hR₉, hK₉, hlog⟩
  have hc₉ := hc₈.trans hR₉ hK₉
  refine wp_bind (wp_poll_critical hctx henv (by decide) (wp_bind (wp_modify ?_)))
  refine wp_poll_critical hctx henv (by decide) ⟨?_, ?_, ?_⟩
  · have hcount := hR₉.shape.counts.numFree_succ (i := slotNum) (b := binNum)
    rw [show HeadRef.counter ⟨.free, slotNum, binNum⟩ = .free slotNum binNum from rfl,
      Off.add_add, neg_add_cancel, Off.add_zero] at hcount
    exact hc₉.setCounts (.updBin ⟨fun _ => rfl, fun _ => rfl⟩) rfl rfl rfl hcount
  · refine .of_block (B := { { size := 2 ^ binNum, slot := slotNum, bin := binNum : Block } with
      place := .on .free }) ?_ (.inl rfl)
    change (ledger s₉.log).block h = _
    rw [hlog, ledger, step_linked_block hB₈, Function.update_self]
  · change (ledger s₉.log).list _ ≠ []
    rw [hlog]
    simp [ledger, Ledger.step, Ledger.updList]

theorem replenishLoop_spec (hctx : ctx.Ok env) (hoff : env.Calm → off = 0) (hbin : 12 ≤ binNum)
    (hbin' : binNum < 40) (hslot : slotNum < env.args.numSlots) (fuel : ℕ)
    (hc : InCall env F off ∅ s₀ s) (hfuel : 2 ^ 55 < fuel + poolsUsed s.memPools) :
    wp (replenishLoop ctx slotNum binNum fuel)
      (fun ret s' => Refilled env F off s₀ s' slotNum binNum ret) (Halted env F G) s := by
  induction fuel generalizing s with
  | zero =>
      have := hc.rep.shape.layout.poolsUsed_le
      omega
  | succ fuel ih =>
      rw [replenishLoop_succ]
      refine wp_bind (wp_poll_safe hctx hc fun s₁ hc₁ hK₁ => ?_)
      refine wp_bind (wp_mono (getFromPool_spec hctx hc₁.rep hc₁.ready hoff hbin hbin') ?_
        fun _ _ hE => hE)
      rintro hdr s₂ (⟨h0, hC⟩ | ⟨rfl, hR₂, hK₂, hT₂⟩)
      · have hr₂ : Ready env F s₂ := hc₁.ready.mono hC.keeps.isInit hC.keeps.mutex hC.keeps.log
        have hc₂ : InCall env F off {hdr} s₂ s₂ := .refl hC.rep hr₂
        refine wp_bind (wp_poll_raw hctx hc₂ ⟨hC.block, hC.zero⟩ fun s₃ hc₃ hB₃ => ?_)
        refine wp_ite (fun h => absurd h h0) fun _ => ?_
        refine wp_bind_of (labelBlock_spec hctx hc₃ hB₃ hbin' hslot) ?_
        rintro _ s₄ ⟨hc₄, hset, hne⟩
        have hc₅ := hc₁.trans hc₄.rep ((hC.keeps.trans hc₄.keeps).absorb hC.new hset)
        refine wp_bind (wp_get ?_)
        extract_lets bin
        refine wp_ite (fun _ => ?_) fun _ => ?_
        · refine ih hc₅ ?_
          have h1 := hK₁.used
          have h2 := (Nat.add_le_add_right (Nat.le_add_right _ _) 4096).trans hC.used
          have h3 := hc₄.keeps.used
          omega
        · exact wp_bind (wp_poll_critical hctx hc.rep.shape.env_ok (by decide)
            (wp_pure ⟨hc₅, .inl ⟨rfl, hne⟩⟩))
      · refine wp_bind (wp_poll_safe hctx (hc₁.trans hR₂ hK₂) fun s₃ hc₃ hK₃ => ?_)
        exact wp_ite (fun _ => wp_pure ⟨hc₃, .inr ⟨by decide, hT₂.mono hK₃.log⟩⟩)
          fun h => absurd rfl h

theorem replenishBin_spec (hctx : ctx.Ok env) (hoff : env.Calm → off = 0) (hbin : 12 ≤ binNum)
    (hbin' : F → binNum < 40 ∨ Trouble env s₀.log) (hslot : F → slotNum < env.args.numSlots ∨ Trouble env s₀.log)
    (hclass : env.StdioFits → G → binNum < 40)
    (hlock : (s.mutex (.slot slotNum)).locked = true) (hc : InCall env F off ∅ s₀ s) :
    wp (replenishBin ctx slotNum binNum)
      (fun ret s' => slotNum < env.args.numSlots ∧ binNum < 40 ∧
        Refilled env F off s₀ s' slotNum binNum ret)
      (Halted env F G) s := by
  unfold replenishBin
  refine wp_bind (wp_poll_safe hctx hc fun s₁ hc₁ hK₁ => wp_bind (wp_verifyLocked ?_))
  have hcount : 0 < (s₁.mutex (.slot slotNum)).count ↔ slotNum < env.args.numSlots := by
    have hm := (hc.rep.shape.locks.slot slotNum).count
    rw [hc.rep.shape.args_eq] at hm
    rw [hK₁.mutex]
    exact hm.trans ⟨fun h => of_decide_eq_true h.2, fun h => ⟨hlock, decide_eq_true h⟩⟩
  refine wp_bind (wp_grAssert (fun hvl => ?_) fun hnc => .of_trouble hc₁.rep.log_ok (fun hF => ?_) nofun nofun)
  case refine_2 =>
    refine hc₁.trouble ((hslot hF).resolve_left fun h => hnc ?_)
    exact decide_eq_true (hcount.2 h)
  have hslot' : slotNum < env.args.numSlots := hcount.1 (of_decide_eq_true hvl)
  refine wp_ite (fun hge => wp_throw ?_) fun hlt => ?_
  · have hT : F → Trouble env s₁.log := fun hF =>
      hc₁.trouble ((hbin' hF).resolve_left (not_lt.2 hge))
    exact ⟨hc₁.rep.log_ok, fun hF => .inl (hT hF), nofun,
      fun hfits hG => absurd (hclass hfits hG) (not_lt.2 hge)⟩
  have hbin40 : binNum < 40 := not_le.1 hlt
  have hpage : 2 ^ 12 ≤ 2 ^ binNum := Nat.pow_le_pow_right (by decide) hbin
  refine wp_ite (fun hsmall => absurd hpage (not_le.2 hsmall)) fun _ => ?_
  refine wp_bind (wp_poll_safe hctx hc₁ fun s₂ hc₂ _ => wp_bind (wp_get ?_))
  extract_lets bin
  refine wp_ite (fun _ => ?_) fun hfull => ?_
  · refine wp_mono (replenishLoop_spec hctx hoff hbin hbin40 hslot' (2 ^ 64) hc₂ ?_) ?_
      fun _ _ hE => hE
    · omega
    · exact fun ret s' h => ⟨hslot', hbin40, h⟩
  · refine wp_bind (wp_poll_critical hctx hc.rep.shape.env_ok (by decide) (wp_pure ?_))
    refine ⟨hslot', hbin40, hc₂, .inl ⟨rfl, fun hnil => hfull (.inl ?_)⟩⟩
    exact (hc₂.rep.shape.lists ⟨.free, slotNum, binNum⟩).head_eq_zero_iff.2 hnil

end GuardRails
