import GuardRails.Spec.Buf
import GuardRails.Spec.DelayFree
import GuardRails.Spec.Fill

/-!
# `putBuf` and `free`

A live pointer leads to the header of its block, and the header to slot and bin. Once the
magic is taken away the block is only waiting to be moved; behind the last list operation
it may be given out again at once.
-/

namespace GuardRails

open ByteMemory StateHoare

variable {env : Env} {off : Off} {L : Ledger} {s s' s₀ s₁ : Heap} {X : Set ℕ} {F G : Prop}
  {h i b : ℕ} {B : Block} {ctx : Ctx} {a : Alloc} {q : Request} {bt : List ℕ}

/-! ## Counting the release -/

/-- The bytes are taken off and the ledger forgets the request. -/
theorem InCall.uncounted (hc : InCall env F (off.add (.histo B.slot (log2fast q.size)) (-1)) X s₀ s)
    (hX : h ∈ X) (hB : (ledger s.log).block h = some B) (hlive : B.live = false)
    (hreq : B.request = some q) :
    InCall env F off X s₀
        { (s.updSlot B.slot fun S => { S with
            totalUserFreedBytes := (S.totalUserFreedBytes + q.size) % 2 ^ 64 }) with
          log := .uncounted B.slot h :: s.log } ∧
      (ledger (.uncounted B.slot h :: s.log)).block h = some { B with request := none } := by
  have hS := hc.rep.shape
  have hcount := hS.counts.bytes_sub hc.rep.log_ok.lawful.sound hB hreq
  rw [Off.add_add, neg_add_cancel, Off.add_zero] at hcount
  have hF : SameFrame s (s.updSlot B.slot fun S => { S with
      totalUserFreedBytes := (S.totalUserFreedBytes + q.size) % 2 ^ 64 }) :=
    .updSlot (fun _ => rfl) (fun _ => rfl) fun _ => rfl
  exact hc.update (e := .uncounted B.slot h) hX hB ⟨B, hB, rfl, hlive, by simp [hreq]⟩ (by simp) nofun
    (hF.setLog _) rfl rfl (Ledger.block_updBlock hB _) rfl rfl rfl (by simp) (fun _ _ => rfl)
    (fun _ _ _ _ => rfl) (fun hraw => (hS.blocks _ B hB hraw).setRequest _)
    (hcount.congr rfl rfl rfl rfl)

/-- The size of an allocation is that of its block at most. -/
theorem Shape.size_le (hS : Shape env off L s) (hB : L.block h = some B) (hraw : B.place ≠ .raw)
    (ho : B.owner = some a) : a.size ≤ 2 ^ 39 := by
  have hO := (hS.blocks h B hB hraw).owner a ho
  have h1 := hO.above
  have h2 := hO.fits
  have h3 := (hS.layout.block h B hB).size_le
  omega

theorem countFree_spec (hctx : ctx.Ok env) (hc : InCall env F off X s₀ s) (hX : h ∈ X)
    (hB : (ledger s.log).block h = some B) (hp : B.place = .on .inUse) (hlive : B.live = false)
    (hreq : B.request = some q) (ho : B.owner = some a) (hqa : q.size = a.size) :
    wp (countFree ctx B.slot h)
      (fun _ s' => InCall env F off X s₀ s' ∧
        (ledger s'.log).block h = some { B with request := none })
      (Halted env F G) s := by
  have hfix : B.Fixed := .inr (.inr hp)
  have hraw : B.place ≠ .raw := by simp [hp]
  unfold countFree
  refine wp_bind (wp_poll_block hctx hc hB hfix fun s₁ hc₁ hB₁ => ?_)
  have hS₁ := hc₁.rep.shape
  refine wp_bind (wp_ldField (hS₁.field_open hB₁ (by simp [hp]) _) fun w hw => ?_)
  obtain rfl : w = q.size :=
    hw.trans (((hS₁.blocks h B hB₁ hraw).owner a ho).usrDataSize.trans hqa.symm)
  extract_lets usrSizeBin
  refine wp_bind (wp_poll_block hctx hc₁ hB₁ hfix fun s₂ hc₂ hB₂ => ?_)
  have hlt : usrSizeBin < maxAllocPower := by
    have hle := hS₁.size_le hB₁ hraw ho
    rw [← hqa] at hle
    exact Nat.lt_succ_of_le ((log2fast_le_iff (by omega)).2 hle)
  refine wp_bind (wp_grAssert_of hlt ?_)
  refine wp_bind (wp_poll_block hctx hc₂ hB₂ hfix fun s₃ hc₃ hB₃ => wp_bind ?_)
  refine wp_count hc₃ .updHisto rfl rfl rfl hc₃.rep.shape.counts.histo_frees
    fun s₄ hc₄ _ hlog₄ => ?_
  refine wp_bind (wp_poll_block hctx hc₄ (hlog₄ ▸ hB₃) hfix fun s₅ hc₅ hB₅ => ?_)
  have hS₅ := hc₅.rep.shape
  refine wp_bind (wp_ldField (hS₅.field_open hB₅ (by simp [hp]) _) fun w hw => ?_)
  obtain rfl : w = q.size :=
    hw.trans (((hS₅.blocks h B hB₅ hraw).owner a ho).usrDataSize.trans hqa.symm)
  exact wp_bind (wp_modify (wp_emit (hc₅.uncounted hX hB₅ hlive hreq)))

/-! ## Moving the block -/

/-- A block that was released since `s₀`: it is out of use, unless a dump has taken it since, and
in delay mode it went into a ring. -/
structure Released (env : Env) (s₀ s : Heap) (h : ℕ) : Prop where
  settled : SettledAt s h
  unused : env.Calm → ∀ B, (ledger s.log).block h = some B → B.place ≠ .on .inUse
  delayed : env.args.useDelay = true → ∃ i l, .delayed i h :: l <:+ s.log ∧ s₀.log <:+ l
  waits : env.Calm → env.args.useDelay = true →
    ∃ B, (ledger s.log).block h = some B ∧ B.place = .ring

theorem Released.of_block (hB : (ledger s.log).block h = some B)
    (hp : B.place = .on .free ∨ B.place = .ring)
    (hd : env.args.useDelay = true →
      B.place = .ring ∧ ∃ i l, .delayed i h :: l <:+ s.log ∧ s₀.log <:+ l) :
    Released env s₀ s h := by
  refine ⟨.of_block hB (hp.imp_right .inl), fun _ A hA => ?_, fun h => (hd h).2,
    fun _ h => ⟨B, hB, (hd h).1⟩⟩
  obtain rfl := Option.some.inj (hB.symm.trans hA)
  rcases hp with hp | hp <;> simp [hp]

theorem Released.keeps (hr : Released env s₀ s h) (hK : Keeps ∅ s s')
    (hcalm : env.Calm → ledger s'.log = ledger s.log) : Released env s₀ s' h := by
  refine ⟨hK.settledAt (Set.notMem_empty h) hr.settled, fun hc B hB => ?_, fun hd => ?_,
    fun hc hd => (hcalm hc).symm ▸ hr.waits hc hd⟩
  · rw [hcalm hc] at hB
    exact hr.unused hc B hB
  · obtain ⟨i, l, hsuffix, hl⟩ := hr.delayed hd
    exact ⟨i, l, hsuffix.trans hK.log.suffix, hl⟩

theorem Released.congr {e : Event} (hr : Released env s₀ s h) (hlog : s'.log = e :: s.log)
    (hledger : ledger s'.log = ledger s.log) : Released env s₀ s' h := by
  refine ⟨fun B hB => hr.settled B (hledger ▸ hB), fun hc B hB => hr.unused hc B (hledger ▸ hB),
    fun hd => ?_, fun hc hd => hledger.symm ▸ hr.waits hc hd⟩
  obtain ⟨i, l, hsuffix, hl⟩ := hr.delayed hd
  exact ⟨i, l, hsuffix.trans (hlog ▸ List.suffix_cons e s.log), hl⟩

theorem Released.since (hr : Released env s₀ s h) (hlog : s₁.log <:+ s₀.log) :
    Released env s₁ s h := by
  refine ⟨hr.settled, hr.unused, fun hd => ?_, hr.waits⟩
  obtain ⟨i, l, hsuffix, hl⟩ := hr.delayed hd
  exact ⟨i, l, hsuffix, hlog.trans hl⟩

theorem dropBlock_spec (hctx : ctx.Ok env) (hc : InCall env F off X s₀ s) (hX : h ∈ X)
    (hB : (ledger s.log).block h = some B) (hp : B.place = .on .inUse) (hlive : B.live = false)
    (hreq : B.request = none) (hslot : B.slot < env.args.numSlots)
    (hlock : (s₀.mutex (.slot B.slot)).locked = true) :
    wp (dropBlock ctx B.slot B.bin h) (fun _ s' => InCall env F off X s₀ s' ∧ Released env s₀ s' h)
      (Halted env F G) s := by
  have hheld : Block.Fixed { B with place := .held } := .inr (.inl rfl)
  unfold dropBlock
  refine wp_bind (wp_poll_block hctx hc hB (.inr (.inr hp)) fun s₁ hc₁ hB₁ => ?_)
  have hmem : h ∈ (ledger s₁.log).list ⟨.inUse, B.slot, B.bin⟩ :=
    (hc₁.rep.log_ok.lawful.sound.mem_list_iff hB₁ _).2 ⟨hp, rfl, rfl⟩
  refine wp_bind_of (rmElm_spec hctx hc₁ hX hB₁ hmem hlive hreq) ?_
  rintro _ s₂ ⟨hc₂, hB₂⟩
  refine wp_bind (wp_poll_block hctx hc₂ hB₂ hheld fun s₃ hc₃ hB₃ => wp_bind (wp_get ?_))
  extract_lets rest
  have hrest : ∀ s₄, InCall env F (off.add (.inUse B.slot B.bin) 1) X s₀ s₄ →
      Released env s₀ s₄ h →
      wp (rest ()) (fun _ s' => InCall env F off X s₀ s' ∧ Released env s₀ s' h) (Halted env F G) s₄ := by
    intro s₄ hc₄ hset
    refine wp_bind (wp_poll_calm hctx hc₄ fun s₅ hc₅ hK₅ hcalm₅ => ?_)
    have hcounts := hc₅.rep.shape.counts.frees_succ (i := B.slot) (b := B.bin)
    rw [Off.add_add, add_neg_cancel, Off.add_zero] at hcounts
    exact wp_count hc₅ (.updBin ⟨fun _ => rfl, fun _ => rfl⟩) rfl rfl rfl hcounts
      fun s₆ hc₆ hK₆ hlog => ⟨hc₆, hset.keeps (hK₅.trans hK₆) fun hc => by rw [hlog, hcalm₅ hc]⟩
  refine wp_ite (fun _ => ?_) fun hfree => ?_
  · refine wp_bind (wp_poll_block hctx hc₃ hB₃ hheld fun s₄ hc₄ hB₄ => ?_)
    have hlock₄ : (s₄.mutex (.slot B.slot)).locked = true := by
      rw [hc₄.keeps.mutex]
      exact hlock
    refine wp_bind_of (delayPut_spec hctx hc₄ hX hB₄ rfl rfl hslot hlock₄) ?_
    rintro _ s₅ ⟨hc₅, hB₅, l, hlog₅, hl⟩
    refine hrest s₅ hc₅ (.of_block hB₅ (.inr rfl) fun _ => ⟨rfl, B.slot, l, ?_, ?_⟩)
    · exact hlog₅ ▸ List.suffix_rfl
    · exact hc₄.keeps.log.suffix.trans hl
  · rw [hc₃.rep.shape.args_eq] at hfree
    refine wp_bind (wp_poll_block hctx hc₃ hB₃ hheld fun s₄ hc₄ hB₄ => ?_)
    refine wp_bind_of (insertElmHead_spec (r := ⟨.free, B.slot, B.bin⟩) hctx hc₄.rep hB₄ rfl rfl rfl) ?_
    rintro _ s₅ ⟨hR₅, hK₅, hlog₅⟩
    have hc₅ := hc₄.trans hR₅ (hK₅.mono (by simpa using hX))
    have hset₅ : Released env s₀ s₅ h := by
      refine .of_block (B := { B with place := .on .free }) ?_ (.inl rfl) fun hd => absurd hd hfree
      rw [hlog₅, ledger, step_linked_block hB₄, Function.update_self]
    refine wp_bind (wp_poll_calm hctx hc₅ fun s₆ hc₆ hK₆ hcalm₆ => wp_bind ?_)
    have hcounts := hc₆.rep.shape.counts.numFree_succ (i := B.slot) (b := B.bin)
    rw [show HeadRef.counter ⟨.free, B.slot, B.bin⟩ = .free B.slot B.bin from rfl, Off.add_add,
      neg_add_cancel, Off.add_zero] at hcounts
    exact wp_count hc₆ (.updBin ⟨fun _ => rfl, fun _ => rfl⟩) rfl rfl rfl hcounts
      fun s₇ hc₇ hK₇ hlog => hrest s₇ hc₇ (hset₅.keeps (hK₆.trans hK₇) fun hc => by
        rw [hlog, hcalm₆ hc])

/-! ## `putBuf` -/

/-- The magic is taken away. -/
theorem InCall.freeing (hc : InCall env F off X s₀ s) (hX : h ∈ X)
    (hB : (ledger s.log).block h = some B) (hp : B.place = .on .inUse) (hlive : B.live = true) :
    InCall env F off X s₀ { s with
        mem := setWord s.mem (h + Field.magic.off) magicFree
        log := .freeing h :: s.log } ∧
      (ledger (.freeing h :: s.log)).block h = some { B with live := false } := by
  have hS := hc.rep.shape
  have hh := hS.layout.block_bounds hB
  have hH := hS.blocks h B hB (by simp [hp])
  have hsz := elmHdrSz_eq hS.env_ok.args
  have hoff : Field.magic.off = 0 := rfl
  have hfld : ∀ f : Field, f ≠ .magic →
      fld (setWord s.mem (h + Field.magic.off) magicFree) h f = fld s.mem h f := fun f hf => by
    rw [fld_setWord hh.2.1 hh.2.1, if_neg fun hc => hf hc.2]
  have hword : ∀ y, h + 64 ≤ y →
      word (setWord s.mem (h + Field.magic.off) magicFree) y = word s.mem y :=
    fun y hy => word_setWord_of_disjoint (by omega)
  refine hc.update (e := .freeing h) hX hB ⟨B, hB, hlive⟩ (by simp) nofun
    ⟨rfl, rfl, rfl, rfl, fun r => by cases r; rfl, fun _ => rfl, fun l => by cases l <;> rfl⟩ rfl rfl
    (Ledger.block_updBlock hB _) rfl rfl rfl Iff.rfl
    (fun x hx => setWord_of_notMem (by omega)) (fun _ x hx hx' => setWord_of_notMem (by omega))
    (fun _ => ?_) (hS.counts.congr rfl rfl rfl rfl)
  exact
    { slotNum := (hfld _ (by decide)).trans hH.slotNum
      binNum := (hfld _ (by decide)).trans hH.binNum
      magic := by
        rw [fld_setWord hh.2.1 hh.2.1, if_pos ⟨rfl, rfl⟩]
        rfl
      slot_lt := hH.slot_lt
      fresh := fun ho =>
        ⟨(hfld _ (by decide)).trans (hH.fresh ho).1, fun j hj hle =>
          (hword _ (by omega)).trans ((hH.fresh ho).2 j hj hle)⟩
      owner := fun a ha =>
        { above := (hH.owner a ha).above
          fits := (hH.owner a ha).fits
          usrData := (hfld _ (by decide)).trans (hH.owner a ha).usrData
          usrDataSize := (hfld _ (by decide)).trans (hH.owner a ha).usrDataSize
          misalignment := (hfld _ (by decide)).trans (hH.owner a ha).misalignment
          frames := fun j hj => (hword _ (by omega)).trans ((hH.owner a ha).frames j hj)
          ptrWord := (hword _ (by have := (hH.owner a ha).above; omega)).trans (hH.owner a ha).ptrWord
          slop := by simp } }

theorem putBuf_spec (hctx : ctx.Ok env) (hc : InCall env F off X s₀ s) (hX : h ∈ X)
    (hB : (ledger s.log).block h = some B) (hlive : B.live = true) :
    wp (putBuf ctx h) (fun _ s' => InCall env F off X s₀ s' ∧ Released env s₀ s' h)
      (Halted env F G) s := by
  obtain ⟨a, q, ho, hreq, hqa, -⟩ := (hc.rep.log_ok.lawful.sound.block_ok h B hB).live_owner hlive
  have hp : B.place = .on .inUse :=
    (hc.rep.log_ok.lawful.sound.block_ok h B hB).request_place (by simp [hreq])
  have hfix : B.Fixed := .inr (.inr hp)
  unfold putBuf
  refine wp_bind (wp_poll_block hctx hc hB hfix fun s₁ hc₁ hB₁ => ?_)
  have hS₁ := hc₁.rep.shape
  have hH₁ := hS₁.blocks h B hB₁ (by simp [hp])
  refine wp_bind (wp_ldField (hS₁.field_open hB₁ (by simp [hp]) _) fun w hw => ?_)
  refine wp_bind (wp_grAssert_of ?_ ?_)
  · rw [hw, hH₁.magic, hlive]
    rfl
  refine wp_bind (wp_poll_block hctx hc₁ hB₁ hfix fun s₂ hc₂ hB₂ => ?_)
  have hS₂ := hc₂.rep.shape
  refine wp_bind (wp_stField (hS₂.field_open hB₂ (by simp [hp]) _) (wp_bind (wp_emit ?_)))
  obtain ⟨hc₃, hB₃⟩ := hc₂.freeing hX hB₂ hp hlive
  refine wp_bind (wp_poll_block (B := { B with live := false }) hctx hc₃ hB₃ hfix
    fun s₄ hc₄ hB₄ => ?_)
  have hS₄ := hc₄.rep.shape
  have hH₄ := hS₄.blocks h _ hB₄ (by simp [hp])
  refine wp_bind (wp_ldField (hS₄.field_open hB₄ (by simp [hp]) _) fun w hw => ?_)
  obtain rfl : w = B.slot := hw.trans hH₄.slotNum
  have hslot := hH₄.slot_lt
  have hslots := hS₄.env_ok.args.numSlots_lt
  refine wp_ite (fun hge => absurd (hslot.trans hslots) (not_lt.2 hge)) fun _ => ?_
  refine wp_bind (wp_poll_block hctx hc₄ hB₄ hfix fun s₅ hc₅ hB₅ => wp_bind ?_)
  have hm := hc₅.rep.shape.locks.slot B.slot
  rw [hc₅.rep.shape.args_eq] at hm
  refine wp_pthreadMutexLock (fun hl => ?_) fun _ hnr => ?_
  case refine_2 =>
    have hkind := hm.kind.symm.trans hnr
    exact absurd hslot (of_decide_eq_false hkind)
  have hc₆ : InCall env F off X (s₅.lockHeap (.slot B.slot)) (s₅.lockHeap (.slot B.slot)) :=
    .refl (hc₅.rep.lockHeap hl) (hc₅.ready.lockHeap B.slot)
  refine wp_bind (wp_poll_block hctx hc₆ hB₅ hfix fun s₇ hc₇ hB₇ => ?_)
  have hS₇ := hc₇.rep.shape
  have hH₇ := hS₇.blocks h _ hB₇ (by simp [hp])
  refine wp_bind (wp_ldField (hS₇.field_open hB₇ (by simp [hp]) _) fun w hw => ?_)
  obtain rfl : w = B.bin := hw.trans hH₇.binNum
  have hbin40 := hc₇.rep.bin_lt hB₇ (by simp [hp])
  refine wp_ite (fun hge => absurd hge (not_le.2 hbin40)) fun _ => ?_
  refine wp_bind_of (countFree_spec (B := { B with live := false }) hctx hc₇ hX hB₇ hp rfl hreq ho hqa) ?_
  rintro _ s₈ ⟨hc₈, hB₈⟩
  refine wp_bind_of (dropBlock_spec (B := { B with live := false, request := none }) hctx hc₈ hX
    hB₈ hp rfl rfl hslot locked_lockHeap) ?_
  rintro _ s₉ ⟨hc₉, hset₉⟩
  refine wp_bind (wp_poll_calm hctx hc₉ fun s₁₀ hc₁₀ hK₁₀ hcalm₁₀ => wp_bind (wp_pthreadMutexUnlock ?_))
  have hset₁₀ : Released env (s₅.lockHeap (.slot B.slot)) (s₁₀.unlockHeap (.slot B.slot)) h :=
    (hset₉.keeps hK₁₀ fun hc => by rw [hcalm₁₀ hc]).congr unlockHeap_log
      (by rw [unlockHeap_log, ledger_released])
  have hc₁₁ := hc₅.trans hc₁₀.rep.unlockHeap (hc₁₀.keeps.bracket hm hl)
  have hlog : s₀.log <:+ (s₅.lockHeap (.slot B.slot)).log :=
    hc₅.keeps.log.suffix.trans (lockHeap_log ▸ List.suffix_cons _ _)
  exact wp_poll_calm hctx hc₁₁ fun s₁₂ hc₁₂ hK₁₂ hcalm₁₂ =>
    ⟨hc₁₂, (hset₁₀.keeps hK₁₂ fun hc => by rw [hcalm₁₂ hc]).since hlog⟩

/-! ## `free` -/

/-- The slop behind a live allocation is as it was left. -/
theorem wp_checkSlop {Q : Unit → Heap → Prop} {E : Halt → Heap → Prop} (hS : Shape env off L s)
    (hB : L.block h = some B) (hp : B.place = .on .inUse) (hlive : B.live = true)
    (hi : B.intact = true) (ho : B.owner = some a) (hq : Q () s) : wp (checkSlop h) Q E s := by
  have hopen := hS.field_open hB (by simp [hp])
  have hO := (hS.blocks h B hB (by simp [hp])).owner a ho
  have habove := hO.above
  have hfits := hO.fits
  unfold checkSlop
  refine wp_bind (wp_ldField (hopen _) fun w hw => ?_)
  obtain rfl : w = a.misalignment := hw.trans hO.misalignment
  refine wp_ite (fun _ => ?_) fun _ => wp_pure hq
  refine wp_bind (wp_ldField (hopen _) fun w hw => ?_)
  obtain rfl : w = a.ptr := hw.trans hO.usrData
  refine wp_bind (wp_ldField (hopen _) fun w hw => ?_)
  obtain rfl : w = a.size := hw.trans hO.usrDataSize
  refine wp_bind (wp_get ?_)
  extract_lets slopValArr
  refine wp_bind (wp_memcmp ?_ (wp_grAssert_of (decide_eq_true fun i hlt => ?_) hq))
  · exact (hS.pages.opened h B hB (by simp [hp])).mono (by omega) (by omega)
  · exact (hO.slop hlive hi i hlt).trans (hS.slop_eq i).symm

theorem free_spec (hctx : ctx.Ok env) (hR : Rep env off s) (hr : Ready env F s)
    (ha : (ledger s.log).Live a) :
    wp (free ctx bt a.ptr) (fun _ s' => InCall env F off {a.hdr} s s' ∧ Released env s s' a.hdr)
      (Halted env F G) s := by
  have hS := hR.shape
  obtain ⟨B, hB, hlive, ho, hp⟩ := hR.log_ok.lawful.sound.live_inUse ha
  have hintact := ha.intact hB
  obtain ⟨h, hh⟩ : ∃ h, h = a.hdr := ⟨_, rfl⟩
  rw [← hh] at hB ⊢
  have hh := hS.layout.block_bounds hB
  have hH := hS.blocks h B hB (by simp [hp])
  have hO := hH.owner a ho
  have habove := hO.above
  have hfits := hO.fits
  have hsz := elmHdrSz_eq hS.env_ok.args
  have hacc := hS.pages.opened h B hB (by simp [hp])
  have hsub : sub64 a.ptr 8 = a.ptr - 8 := by
    unfold sub64
    omega
  have hX : h ∈ ({h} : Set ℕ) := rfl
  unfold free
  refine wp_ite (fun h0 => absurd h0 (by omega)) fun _ => ?_
  rw [hsub]
  refine wp_bind (wp_load64_of (hacc.mono (by omega) (by omega)) ?_)
  rw [hO.ptrWord]
  refine wp_bind (wp_ldField (hS.field_open hB (by simp [hp]) _) fun w hw => ?_)
  refine wp_bind (wp_grAssert_of ?_ ?_)
  · rw [hw, hH.magic, hlive]
    rfl
  refine wp_bind (wp_checkSlop hS hB hp hlive hintact ho (wp_bind (wp_get ?_)))
  rw [hS.args_eq]
  extract_lets args rest
  have hargs : args = env.args := rfl
  clear_value args
  subst hargs
  have hrest : ∀ s₁, InCall env F off {h} s s₁ → (ledger s₁.log).block h = some B →
      wp (rest ()) (fun _ s' => InCall env F off {h} s s' ∧ Released env s s' h) (Halted env F G) s₁ :=
    fun s₁ hc₁ hB₁ => putBuf_spec hctx hc₁ hX hB₁ hlive
  refine wp_ite (fun _ => ?_) fun _ => hrest s (.refl hR hr) hB
  have hbt : allocBtOff = 64 := rfl
  refine wp_bind (wp_putTrace hS.env_ok.args.maxTrackFreeFrames_lt (fun _ => hrest _ ?_ hB)
    fun hn => absurd (hacc.mono (by omega) (by omega)) hn)
  refine (InCall.refl hR hr).write hX hB (fun x hx => traceMem_of_notMem (by omega))
    (fun _ x hx hx' => traceMem_of_notMem (by omega)) fun _ => ?_
  exact hH.congr_trace hS.env_ok.args hh.2.2.1 fun y hy hy' hl => traceMem_of_notMem (by omega)

end GuardRails
