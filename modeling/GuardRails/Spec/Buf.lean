import GuardRails.Model.Alloc
import GuardRails.Spec.Bin

/-!
# `getBuf`

The block that `getBuf` takes goes from the free list to the list of blocks in use; from
there on no other call touches it. Each counter moves a little later than the list it
counts, and the offsets say which are behind when a dump runs in between.
-/

namespace GuardRails

open ByteMemory StateHoare

variable {env : Env} {off : Off} {L : Ledger} {s s' s₀ : Heap} {X : Set ℕ} {F G : Prop}
  {h hdr i b k : ℕ} {B : Block} {ctx : Ctx} {q : Request}

/-- A block on a free list has no owner that is alive and no request. -/
theorem Ledger.Sound.free_idle (hL : L.Sound) (hB : L.block h = some B)
    (hp : B.place ≠ .on .inUse) : B.live = false ∧ B.request = none := by
  have hok := hL.block_ok h B hB
  have hreq : B.request = none := by
    by_contra hne
    exact hp (hok.request_place hne)
  refine ⟨?_, hreq⟩
  by_contra hlive
  obtain ⟨_, _, -, hq, -⟩ := hok.live_owner (by simpa using hlive)
  rw [hreq] at hq
  cases hq

theorem takeBlock_spec (hctx : ctx.Ok env) (hc : InCall env F off ∅ s₀ s)
    (hfree : (ledger s.log).list ⟨.free, i, b⟩ ≠ []) :
    wp (takeBlock ctx i b)
      (fun hdr s' => ∃ B, (ledger s'.log).block hdr = some B ∧ B.place = .on .inUse ∧
        B.slot = i ∧ B.bin = b ∧ B.live = false ∧ B.request = none ∧
        InCall env F (off.add (.inUse i b) (-1)) {hdr} s s' ∧
        ∀ A, (ledger s.log).block hdr = some A → ¬ A.Fixed)
      (Halted env F G) s := by
  have hS := hc.rep.shape
  have henv := hS.env_ok
  have hL := hc.rep.log_ok.lawful.sound
  have hl := hS.lists ⟨.free, i, b⟩
  obtain ⟨hdr, hhdr⟩ : ∃ hdr, hdr = s.head ⟨.free, i, b⟩ := ⟨_, rfl⟩
  have hmem : hdr ∈ (ledger s.log).list ⟨.free, i, b⟩ := by
    rw [hhdr]
    exact hl.head_mem fun h0 => hfree (hl.head_eq_zero_iff.1 h0)
  obtain ⟨B, hB, hp, hs, hb⟩ := (hL.mem_list _ _).1 hmem
  obtain ⟨hlive, hreq⟩ := hL.free_idle hB (by simp [hp])
  have hX : hdr ∈ ({hdr} : Set ℕ) := rfl
  have hc₁ : InCall env F off {hdr} s s := .refl hc.rep hc.ready
  unfold takeBlock
  refine wp_bind (wp_poll_critical hctx henv (by decide) (wp_bind (wp_getHead ?_)))
  rw [← hhdr]
  refine wp_bind (wp_poll_critical hctx henv (by decide) ?_)
  refine wp_bind_of (rmElm_spec hctx hc₁ hX hB hmem hlive hreq) ?_
  rintro _ s₂ ⟨hc₂, hB₂⟩
  refine wp_bind (wp_poll_block hctx hc₂ hB₂ (.inr (.inl rfl)) fun s₃ hc₃ hB₃ => ?_)
  refine wp_bind_of (insertElmHead_spec (r := ⟨.inUse, i, b⟩) hctx hc₃.rep hB₃ rfl hs hb) ?_
  rintro _ s₄ ⟨hR₄, hK₄, hlog⟩
  have hB₄ : (ledger s₄.log).block hdr = some { B with place := .on .inUse } := by
    rw [hlog, ledger, step_linked_block hB₃, Function.update_self]
  refine wp_bind (wp_poll_block hctx (hc₃.trans hR₄ hK₄) hB₄ (.inr (.inr rfl))
    fun s₅ hc₅ hB₅ => ?_)
  refine wp_bind (wp_modify (wp_pure ⟨_, hB₅, rfl, hs, hb, hlive, hreq, ?_, fun A hA hF => ?_⟩))
  · refine hc₅.setCounts (.updBin ⟨fun _ => rfl, fun _ => rfl⟩) rfl rfl rfl ?_
    have hcount := hc₅.rep.shape.counts.numFree_pred (i := i) (b := b)
    change CountsOk (((off.add (.free i b) 1).add (.inUse i b) (-1)).add (.free i b) (-1)) _ _
      at hcount
    rwa [Off.add_comm (off.add _ _), Off.add_add, add_neg_cancel, Off.add_zero] at hcount
  · obtain rfl := Option.some.inj (hB.symm.trans hA)
    rcases hF with hF | hF | hF <;> simp [hp] at hF

/-- The bytes are counted and the ledger knows the request. -/
theorem InCall.counted (hc : InCall env F (off.add (.histo i (log2fast q.size)) 1) X s₀ s)
    (hX : q.hdr ∈ X) (hB : (ledger s.log).block q.hdr = some B) (hp : B.place = .on .inUse)
    (hs : B.slot = i) (hlive : B.live = false) (hreq : B.request = none) :
    InCall env F off X s₀
        { (s.updSlot i fun S => { S with
            totalUserRequestedBytes := (S.totalUserRequestedBytes + q.size) % 2 ^ 64 }) with
          log := .counted i q :: s.log } ∧
      (ledger (.counted i q :: s.log)).block q.hdr = some { B with request := some q } := by
  have hS := hc.rep.shape
  have hcount := hS.counts.bytes_add (i := i) (q := q)
  rw [Off.add_add, add_neg_cancel, Off.add_zero] at hcount
  have hF : SameFrame s (s.updSlot i fun S => { S with
      totalUserRequestedBytes := (S.totalUserRequestedBytes + q.size) % 2 ^ 64 }) :=
    .updSlot (fun _ => rfl) (fun _ => rfl) fun _ => rfl
  exact hc.update (e := .counted i q) hX hB ⟨B, hB, hp, hs, hlive, hreq⟩ (by simp) nofun
    (hF.setLog _) rfl rfl (Ledger.block_updBlock hB _) rfl rfl rfl (by simp) (fun _ _ => rfl) (fun _ _ _ _ => rfl)
    (fun hraw => (hS.blocks _ B hB hraw).setRequest _) (hcount.congr rfl rfl rfl rfl)

theorem countAlloc_spec (hctx : ctx.Ok env)
    (hc : InCall env F (off.add (.inUse i b) (-1)) X s₀ s) (hX : q.hdr ∈ X)
    (hB : (ledger s.log).block q.hdr = some B) (hp : B.place = .on .inUse) (hs : B.slot = i)
    (hlive : B.live = false) (hreq : B.request = none)
    (hfit : F → log2fast q.size < 40 ∨ Trouble env s₀.log) :
    wp (countAlloc ctx i b (log2fast q.size) q)
      (fun _ s' => log2fast q.size < 40 ∧ InCall env F off X s₀ s' ∧
        (ledger s'.log).block q.hdr = some { B with request := some q })
      (Halted env F G) s := by
  have hfix : B.Fixed := .inr (.inr hp)
  unfold countAlloc
  refine wp_bind (wp_poll_block hctx hc hB hfix fun s₁ hc₁ hB₁ => wp_bind ?_)
  have hcount₁ := hc₁.rep.shape.counts.allocs_succ (i := i) (b := b)
  rw [Off.add_add, neg_add_cancel, Off.add_zero] at hcount₁
  refine wp_count hc₁ (.updBin ⟨fun _ => rfl, fun _ => rfl⟩) rfl rfl rfl hcount₁
    fun s₂ hc₂ _ hlog₂ => ?_
  refine wp_bind (wp_poll_block hctx hc₂ (hlog₂ ▸ hB₁) hfix fun s₃ hc₃ hB₃ => ?_)
  refine wp_bind (wp_grAssert (fun hlt => ?_) fun hge => .of_trouble hc₃.rep.log_ok (fun hF => ?_) nofun nofun)
  case refine_2 => exact hc₃.trouble ((hfit hF).resolve_left hge)
  refine wp_bind (wp_poll_block hctx hc₃ hB₃ hfix fun s₄ hc₄ hB₄ => wp_bind ?_)
  refine wp_count hc₄ .updHisto rfl rfl rfl hc₄.rep.shape.counts.histo_allocs
    fun s₅ hc₅ _ hlog₅ => ?_
  refine wp_bind (wp_poll_block hctx hc₅ (hlog₅ ▸ hB₄) hfix fun s₆ hc₆ hB₆ => ?_)
  refine wp_bind (wp_modify (wp_bind (wp_emit ?_)))
  obtain ⟨hc₇, hB₇⟩ := hc₆.counted hX hB₆ hp hs hlive hreq
  refine wp_bind (wp_poll_block hctx hc₇ hB₇ (.inr (.inr hp)) fun s₈ hc₈ hB₈ => ?_)
  refine wp_count hc₈ (.updSlot (fun _ => rfl) (fun _ => rfl) fun _ => rfl) rfl rfl rfl
    (hc₈.rep.shape.counts.updSlot (fun _ => rfl) (hc₈.rep.shape.counts.bytes_lt i) ?_ (fun _ _ => rfl)
      fun _ => rfl)
    fun s₉ hc₉ _ hlog₉ => ⟨hlt, hc₉, hlog₉ ▸ hB₈⟩
  exact hc₈.rep.shape.counts.modEq (.bytes i)

theorem limitDumps_spec (hctx : ctx.Ok env) (hoff : env.Calm → off = 0)
    (hset : F → SetUp env s₀ ∨ Trouble env s₀.log) (hc : InCall env F off {h} s₀ s)
    (hB : (ledger s.log).block h = some B) (hf : B.Fixed)
    (hroom : F → elmHdrSz env.args ≤ B.size ∨ Trouble env s₀.log) :
    wp (limitDumps ctx i)
      (fun _ s' => InCall env F off {h} s₀ s' ∧ (ledger s'.log).block h = some B)
      (Halted env F G) s := by
  unfold limitDumps
  refine wp_bind (wp_poll_block hctx hc hB hf fun s₁ hc₁ hB₁ => ?_)
  refine wp_bind (wp_get ?_)
  extract_lets S
  refine wp_bind (wp_get ?_)
  extract_lets args rest
  have hrest : ∀ s₂, InCall env F off {h} s₀ s₂ → (ledger s₂.log).block h = some B →
      wp (rest ()) (fun _ s' => InCall env F off {h} s₀ s' ∧ (ledger s'.log).block h = some B)
        (Halted env F G) s₂ := by
    intro s₂ hc₂ hB₂
    refine wp_bind (wp_poll_block hctx hc₂ hB₂ hf fun s₃ hc₃ hB₃ => wp_bind (wp_get ?_))
    refine wp_ite (fun _ => ?_) fun _ => wp_pure ⟨hc₃, hB₃⟩
    have hR := hc₃.rep.neutral (e := .limitReached) trivial s₃.clock
    have hK := Keeps.neutral (X := {h}) (s := s₃) (e := .limitReached) trivial s₃.clock
    refine wp_bind (wp_emit (wp_bind (wp_poll_safe hctx (hc₃.trans hR hK) fun s₄ hc₄ hK₄ => ?_)))
    have hT₄ : Trouble env s₄.log := (trouble_cons (e := .limitReached) trivial).mono hK₄.log
    refine wp_bind_of (hctx.dump F G off s₄ false 0 hc₄.rep hc₄.ready hoff fun _ => .inr hT₄) ?_
    rintro _ s₅ ⟨hR₅, hK₅⟩
    exact wp_throw (.of_trouble hR₅.log_ok (fun _ => hT₄.mono hK₅.log) nofun nofun)
  refine wp_ite (fun _ => ?_) fun _ => hrest s₁ hc₁ hB₁
  refine wp_bind (wp_poll_block hctx hc₁ hB₁ hf fun s₂ hc₂ hB₂ => wp_bind ?_)
  have hcounts := hc₂.rep.shape.counts
  refine wp_count hc₂ (.updSlot (fun _ => rfl) (fun _ => rfl) fun _ => rfl) rfl rfl rfl
    (hcounts.updSlot (fun _ => rfl) (hcounts.bytes_lt i) (hcounts.modEq (.bytes i)) (fun _ _ => rfl)
      fun _ => rfl)
    fun s₃ hc₃ _ hlog₃ => ?_
  refine wp_bind (wp_poll_block hctx hc₃ (hlog₃ ▸ hB₂) hf fun s₄ hc₄ hB₄ => ?_)
  refine wp_bind (wp_get (wp_bind_of (hctx.dump F G off s₄ false _ hc₄.rep hc₄.ready hoff fun hF => ?_) ?_))
  · rcases hset hF, hroom hF with ⟨hs | hT, hr | hT'⟩
    · refine .inl ⟨hc₄.keeps.isInit.trans hs.isInit, hs.roomy.keeps hc₄.keeps ?_⟩
      rintro x rfl A hA
      obtain rfl := Option.some.inj (hB₄.symm.trans hA)
      exact .inr hr
    all_goals exact .inr (hc₄.trouble (by assumption))
  rintro _ s₅ ⟨hR₅, hK₅⟩
  exact hrest s₅ (hc₄.trans hR₅ (hK₅.mono (Set.empty_subset _)))
    (hK₅.block h B (Set.notMem_empty h) hB₄ hf)

def Heap.Within (s : Heap) (i : ℕ) : Prop :=
  (s.memSlots i).hwmUsrBytes ≤
      ((s.memSlots i).lastHWMUsrBytesDump + s.grArgs.slotHWMDumpIntervalBytes) % 2 ^ 64 ∧
    (s.memSlots i).totalUserRequestedBytes ≤ s.grArgs.maxRequestedBytes

/-- Within the limits there is no dump. -/
theorem limitDumps_within {t : ℕ} {E : Halt → Heap → Prop} (hctx : ctx.env = env)
    (hcalm : env.CalmFrom t) (ht : t ≤ s.clock) (hin : s.Within i) :
    wp (limitDumps ctx i) (fun _ s' => s' = s) E s := by
  unfold limitDumps
  refine wp_bind (wp_poll_calmFrom hctx hcalm ht (wp_bind (wp_get ?_)))
  extract_lets S
  refine wp_bind (wp_get ?_)
  extract_lets args rest
  refine wp_ite (fun h => absurd hin.1 (not_le.2 h)) fun _ => ?_
  refine wp_bind (wp_poll_calmFrom hctx hcalm ht ?_)
  exact wp_bind (wp_get (wp_ite (fun h => absurd hin.2 (not_le.2 h)) fun _ => wp_pure rfl))

/-- Above the limit on requested bytes the process ends. -/
theorem limitDumps_exceeds {t : ℕ} (hctx : ctx.env = env) (hcalm : env.CalmFrom t) (ht : t ≤ s.clock)
    (hmark : (s.memSlots i).hwmUsrBytes ≤
      ((s.memSlots i).lastHWMUsrBytesDump + s.grArgs.slotHWMDumpIntervalBytes) % 2 ^ 64)
    (hlimit : s.grArgs.maxRequestedBytes < (s.memSlots i).totalUserRequestedBytes) :
    wp (limitDumps ctx i) (fun _ _ => False) (fun _ _ => True) s := by
  unfold limitDumps
  refine wp_bind (wp_poll_calmFrom hctx hcalm ht (wp_bind (wp_get ?_)))
  extract_lets S
  refine wp_bind (wp_get ?_)
  extract_lets args rest
  refine wp_ite (fun h => absurd hmark (not_le.2 h)) fun _ => ?_
  refine wp_bind (wp_poll_calmFrom hctx hcalm ht (wp_bind (wp_get ?_)))
  refine wp_ite (fun _ => ?_) fun h => absurd hlimit h
  refine wp_bind (wp_emit (wp_bind_of (wp_trivial _) fun _ _ _ => ?_))
  exact wp_bind_of (wp_trivial _) fun _ _ _ => wp_throw trivial

theorem pickSlot_spec {usrSize : ℕ} (hc : InCall env F off X s₀ s)
    (hslots : F → 0 < env.args.numSlots ∨ Trouble env s₀.log) :
    wp (pickSlot ctx usrSize)
      (fun i s' => (0 < env.args.numSlots → i < env.args.numSlots) ∧ InCall env F off X s₀ s')
      (Halted env F G) s := by
  unfold pickSlot
  refine wp_ite (fun _ => ?_) fun _ => wp_pure ⟨id, hc⟩
  refine wp_bind (wp_tick ?_)
  extract_lets racySlotRr
  refine wp_bind (wp_get ?_)
  extract_lets numSlots
  have hn : numSlots = env.args.numSlots := congrArg GRArgs.numSlots hc.rep.shape.args_eq
  have hc₁ := hc.trans (hc.rep.tick (s.clock + 1)) (.tick _)
  refine wp_ite (fun h0 => wp_throw (.of_trouble hc₁.rep.log_ok (fun hF => ?_) nofun nofun)) fun h0 => wp_pure ⟨fun _ => ?_, hc₁⟩
  · exact hc₁.trouble ((hslots hF).resolve_left (by omega))
  · exact hn ▸ Nat.mod_lt _ (Nat.pos_of_ne_zero h0)

/-- `getBuf` up to the dumps that it may start: the slot, and the block if there is one. -/
def claimBuf (ctx : Ctx) (bt : List ℕ) (binNum usrSize : ℕ) : M (ℕ × Option ℕ) := do
  ctx.poll 345
  let slotNum ← pickSlot ctx usrSize
  ctx.poll 352
  pthreadMutexLock (.slot slotNum)
  ctx.poll 355
  let ret ← replenishBin ctx slotNum binNum
  ctx.poll 356
  if ret ≠ 0 then
    pure (slotNum, none)
  else
    let hdr ← takeBlock ctx slotNum binNum
    countAlloc ctx slotNum binNum (log2fast usrSize) ⟨hdr, usrSize, bt⟩
    pure (slotNum, some hdr)

def handOut (ctx : Ctx) (binNum : ℕ) : ℕ × Option ℕ → M (ℕ × ℕ)
  | (slotNum, none) => do
      pthreadMutexUnlock (.slot slotNum)
      ctx.poll 359
      pure (0, 0)
  | (slotNum, some hdr) => do
      limitDumps ctx slotNum
      ctx.poll 390
      pthreadMutexUnlock (.slot slotNum)
      ctx.poll 393
      grAssert (.guardRails 393) ((← ldField hdr .magic) = magicFree)
      ctx.poll 395
      pure (hdr, hdr + 2 ^ binNum)

theorem getBuf_eq (bt : List ℕ) (allocSize usrSize : ℕ) :
    getBuf ctx bt allocSize usrSize = (do
      let r ← claimBuf ctx bt (log2fast (max pageSize allocSize)) usrSize
      handOut ctx (log2fast (max pageSize allocSize)) r) := by
  unfold getBuf claimBuf
  simp only [bind_assoc]
  refine congrArg _ (funext fun _ => congrArg _ (funext fun slotNum => ?_))
  refine congrArg _ (funext fun _ => congrArg _ (funext fun _ => congrArg _ (funext fun _ => ?_)))
  refine congrArg _ (funext fun ret => congrArg _ (funext fun _ => ?_))
  by_cases hret : ret ≠ 0
  · rw [if_pos hret, if_pos hret, pure_bind, handOut]
  · rw [if_neg hret, if_neg hret]
    simp only [bind_assoc, pure_bind, handOut]

/-- What `getBuf` returns: a block in use that nobody has filled in yet, with the address
behind it, or nothing after trouble. -/
inductive Taken (env : Env) (F : Prop) (off : Off) (s₀ s : Heap) (q : Request) (size : ℕ)
    (p : ℕ × ℕ) : Prop
  | none (h0 : p.1 = 0) (hc : InCall env F off ∅ s₀ s) (hT : Trouble env s.log)
  | some (B : Block) (hend : p.2 = q.hdr + size) (hc : InCall env F off {q.hdr} s₀ s)
      (hnew : ∀ A, (ledger s₀.log).block q.hdr = some A → ¬ A.Fixed)
      (hB : (ledger s.log).block q.hdr = some B)
      (hp : B.place = .on .inUse) (hlive : B.live = false) (hreq : B.request = .some q)
      (hsize : B.size = size) (hfit : log2fast q.size < 40)

def classOf (args : GRArgs) (alignment usrSize : ℕ) : ℕ :=
  log2fast (max pageSize (allocSizeOf args alignment usrSize))

theorem le_classOf (args : GRArgs) (alignment usrSize : ℕ) : 12 ≤ classOf args alignment usrSize := by
  have halloc : allocSizeOf args alignment usrSize < 2 ^ 64 := Nat.mod_lt _ (by norm_num)
  have hpage : max pageSize (allocSizeOf args alignment usrSize) =
      max 4096 (allocSizeOf args alignment usrSize) := rfl
  exact le_log2fast_page (by omega) (by omega)

/-- The lock of slot `i` was taken in the state `s₁`, and the bin is refilled in `s₂`. -/
structure Locked (env : Env) (F : Prop) (off : Off) (i : ℕ) (s₀ s₁ s₂ : Heap) : Prop where
  before : InCall env F off ∅ s₀ s₁
  mutex : ∃ r, (s₁.mutex (.slot i)).Ok r
  relock : (s₁.mutex (.slot i)).locked = true → (s₁.mutex (.slot i)).recursive = true
  refill : InCall env F off ∅ (s₁.lockHeap (.slot i)) s₂

theorem Locked.log {s₁ s₂ : Heap} (h : Locked env F off i s₀ s₁ s₂) : Extends s₀.log s₂.log :=
  (h.before.keeps.log.trans (.cons (e := .acquired (.slot i)) nofun)).trans h.refill.keeps.log

theorem Locked.setUp {s₁ s₂ : Heap} (h : Locked env F off i s₀ s₁ s₂)
    (hset : F → SetUp env s₀ ∨ Trouble env s₀.log) (hF : F) : SetUp env s₂ ∨ Trouble env s₂.log :=
  (hset hF).imp
    (fun hs => (hs.keeps h.before.keeps (by simp)).lockHeap.keeps h.refill.keeps (by simp))
    fun hT => hT.mono h.log

/-- Unlocking the slot again after steps that left all blocks but those of `X` alone. -/
theorem Locked.unlock {X : Set ℕ} {s₁ s₂ s₃ : Heap} (h : Locked env F off i s₀ s₁ s₂)
    (hc : InCall env F off X s₂ s₃) : InCall env F off X s₀ (s₃.unlockHeap (.slot i)) := by
  obtain ⟨r, hm⟩ := h.mutex
  have hK := (h.refill.keeps.mono (Set.empty_subset X)).trans hc.keeps
  exact (h.before.mono (Set.empty_subset X)).trans hc.rep.unlockHeap (hK.bracket hm h.relock)

/-- What `claimBuf` finds: a block in use that nobody has filled in yet, or nothing after
trouble. -/
inductive Secured (env : Env) (F : Prop) (off : Off) (bt : List ℕ) (usrSize binNum i : ℕ)
    (s₀ s : Heap) : Option ℕ → Prop
  | none {s₁ : Heap} (hl : Locked env F off i s₀ s₁ s) (hT : Trouble env s.log) :
      Secured env F off bt usrSize binNum i s₀ s none
  | some {h : ℕ} {s₁ s₂ : Heap} {B : Block} (hl : Locked env F off i s₀ s₁ s₂)
      (hc : InCall env F off {h} s₂ s) (hB : (ledger s.log).block h = some B)
      (hp : B.place = .on .inUse) (hbin : B.bin = binNum) (hlive : B.live = false)
      (hreq : B.request = .some ⟨h, usrSize, bt⟩)
      (hnew : ∀ A, (ledger s₂.log).block h = some A → ¬ A.Fixed) (hfit : log2fast usrSize < 40) :
      Secured env F off bt usrSize binNum i s₀ s (some h)

theorem claimBuf_spec {bt : List ℕ} {binNum usrSize : ℕ} (hctx : ctx.Ok env)
    (hR : Rep env off s) (hr : Ready env F s) (hoff : env.Calm → off = 0) (hbin12 : 12 ≤ binNum)
    (hslots : F → 0 < env.args.numSlots ∨ Trouble env s.log)
    (hbin : F → binNum < 40 ∨ Trouble env s.log)
    (hfit : F → log2fast usrSize < 40 ∨ Trouble env s.log)
    (hclass : env.StdioFits → G → binNum < 40) :
    wp (claimBuf ctx bt binNum usrSize)
      (fun r s' => Secured env F off bt usrSize binNum r.1 s s' r.2) (Halted env F G) s := by
  unfold claimBuf
  refine wp_bind (wp_poll_safe (X := ∅) hctx (.refl hR hr) fun s₁ hc₁ _ => ?_)
  refine wp_bind_of (pickSlot_spec hc₁ hslots) ?_
  rintro i s₂ ⟨hi, hc₂⟩
  refine wp_bind (wp_poll_safe hctx hc₂ fun s₃ hc₃ _ => wp_bind ?_)
  have hm := hc₃.rep.shape.locks.slot i
  rw [hc₃.rep.shape.args_eq] at hm
  refine wp_pthreadMutexLock (fun hl => ?_) fun _ hnr => .of_trouble hc₃.rep.log_ok (fun hF => ?_) nofun nofun
  case refine_2 =>
    -- with slots in use the lock is recursive
    refine hc₃.trouble ((hslots hF).resolve_left fun h0 => ?_)
    have := hm.kind.symm.trans hnr
    simp [hi h0] at this
  have hc₄ : InCall env F off ∅ (s₃.lockHeap (.slot i)) (s₃.lockHeap (.slot i)) :=
    .refl (hc₃.rep.lockHeap hl) (hc₃.ready.lockHeap i)
  have hlog₄ : Extends s.log (s₃.lockHeap (.slot i)).log := hc₃.keeps.log.trans (.cons nofun)
  refine wp_bind (wp_poll_safe hctx hc₄ fun s₅ hc₅ _ => ?_)
  have hlock₅ : (s₅.mutex (.slot i)).locked = true := by
    rw [hc₅.keeps.mutex]
    exact locked_lockHeap
  refine wp_bind_of (replenishBin_spec hctx hoff hbin12
    (fun hF => (hbin hF).imp_right fun hT => hT.mono hlog₄)
    (fun hF => (hslots hF).imp hi fun hT => hT.mono hlog₄) hclass hlock₅ hc₅) ?_
  rintro ret s₆ ⟨hslot, hbin40, hc₆, hres⟩
  have hl₆ : Locked env F off i s s₃ s₆ := ⟨hc₃, ⟨_, hm⟩, hl, hc₆⟩
  refine wp_bind (wp_poll_critical hctx hR.shape.env_ok (by decide) ?_)
  refine wp_ite (fun h0 => ?_) fun h0 => ?_
  · obtain ⟨-, hT⟩ := hres.resolve_left fun h => h0 h.1
    exact wp_pure (.none hl₆ hT)
  · obtain ⟨-, hne⟩ := hres.resolve_right fun h => h0 h.1
    refine wp_bind_of (takeBlock_spec hctx hc₆ hne) ?_
    rintro hdr s₇ ⟨B, hB, hp, hs, hb, hlive, hreq, hc₇, hnew⟩
    refine wp_bind_of (countAlloc_spec (q := ⟨hdr, usrSize, bt⟩) hctx hc₇ rfl hB hp hs hlive hreq
      fun hF => (hfit hF).imp_right fun hT => hT.mono hl₆.log) ?_
    rintro _ s₈ ⟨hfit', hc₈, hB₈⟩
    exact wp_pure (.some hl₆ hc₈ hB₈ hp hb hlive rfl hnew hfit')

/-- `handOut` once it has come through the dumps. -/
theorem handOut_spec {bt : List ℕ} {binNum usrSize hdr : ℕ} {s₁ s₂ : Heap} (hctx : ctx.Ok env)
    (hl : Locked env F off i s₀ s₁ s₂) (hp : B.place = .on .inUse) (hbin : B.bin = binNum)
    (hlive : B.live = false) (hreq : B.request = some ⟨hdr, usrSize, bt⟩)
    (hnew : ∀ A, (ledger s₂.log).block hdr = some A → ¬ A.Fixed) (hfit : log2fast usrSize < 40)
    (hlimit : wp (limitDumps ctx i)
      (fun _ s' => InCall env F off {hdr} s₂ s' ∧ (ledger s'.log).block hdr = some B)
      (Halted env F G) s) :
    wp (handOut ctx binNum (i, some hdr))
      (fun p s' => Taken env F off s₀ s' ⟨p.1, usrSize, bt⟩ (2 ^ binNum) p)
      (Halted env F G) s := by
  have hf : B.Fixed := .inr (.inr hp)
  refine wp_bind_of hlimit ?_
  rintro _ s₉ ⟨hc₉, hB₉⟩
  refine wp_bind (wp_poll_block hctx hc₉ hB₉ hf fun s₁₀ hc₁₀ hB₁₀ => ?_)
  refine wp_bind (wp_pthreadMutexUnlock ?_)
  refine wp_bind (wp_poll_block hctx (hl.unlock hc₁₀) hB₁₀ hf fun s₁₂ hc₁₂ hB₁₂ => ?_)
  have hS := hc₁₂.rep.shape
  refine wp_bind (wp_ldField (hS.field_open hB₁₂ (by simp [hp]) _) fun w hw => ?_)
  refine wp_bind (wp_grAssert_of ?_ ?_)
  · rw [hw, (hS.blocks hdr _ hB₁₂ (by simp [hp])).magic]
    simp [hlive]
  · refine wp_bind (wp_poll_block hctx hc₁₂ hB₁₂ hf fun s₁₃ hc₁₃ hB₁₃ => wp_pure ?_)
    refine .some _ rfl hc₁₃ (fun A hA hF => ?_) hB₁₃ hp hlive hreq ?_ hfit
    · have hA₁ := hl.before.keeps.block hdr A (Set.notMem_empty hdr) hA hF
      exact hnew A (hl.refill.keeps.block hdr A (Set.notMem_empty hdr) hA₁ hF) hF
    have hok := hc₁₃.rep.log_ok.lawful.sound.block_ok hdr _ hB₁₃
    exact (hok.size_eq (by simp [hp])).trans (congrArg _ hbin)

/-- `getBuf` when its dumps, if it starts any, come to their ends. -/
theorem getBuf_of_claim {bt : List ℕ} {allocSize usrSize binNum : ℕ}
    {R : ℕ × Option ℕ → Heap → Prop} (hctx : ctx.Ok env)
    (hb : binNum = log2fast (max pageSize allocSize))
    (hclaim : wp (claimBuf ctx bt binNum usrSize)
      (fun r s' => Secured env F off bt usrSize binNum r.1 s s' r.2 ∧ R r s') (Halted env F G) s)
    (hlimit : ∀ i h B s₁ s₂ s', Locked env F off i s s₁ s₂ → InCall env F off {h} s₂ s' →
      (ledger s'.log).block h = some B → B.place = .on .inUse → B.bin = binNum → R (i, some h) s' →
      wp (limitDumps ctx i)
        (fun _ s'' => InCall env F off {h} s₂ s'' ∧ (ledger s''.log).block h = some B)
        (Halted env F G) s') :
    wp (getBuf ctx bt allocSize usrSize)
      (fun p s' => Taken env F off s s' ⟨p.1, usrSize, bt⟩ (2 ^ binNum) p) (Halted env F G) s := by
  rw [getBuf_eq, ← hb]
  refine wp_bind_of hclaim ?_
  rintro ⟨i, o⟩ s₁ ⟨hsec, hr⟩
  cases hsec with
  | none hl hT =>
      refine wp_bind (wp_pthreadMutexUnlock ?_)
      have hc := hl.unlock (X := ∅) (.refl hl.refill.rep hl.refill.ready)
      refine wp_bind (wp_poll_safe hctx hc fun s₈ hc₈ hK₈ => wp_pure (.none rfl hc₈ ?_))
      exact hT.mono ((Extends.cons (e := .released (.slot i)) nofun).trans hK₈.log)
  | some hl hc hB hp hbb hlive hreq hnew hfit =>
      exact handOut_spec hctx hl hp hbb hlive hreq hnew hfit (hlimit _ _ _ _ _ _ hl hc hB hp hbb hr)

theorem getBuf_spec {bt : List ℕ} {allocSize usrSize : ℕ} (hctx : ctx.Ok env)
    (hR : Rep env off s) (hr : Ready env F s) (hoff : env.Calm → off = 0)
    (hset : F → SetUp env s ∨ Trouble env s.log) (halloc : allocSize < 2 ^ 64)
    (hslots : F → 0 < env.args.numSlots ∨ Trouble env s.log)
    (hbin : F → log2fast (max pageSize allocSize) < 40 ∨ Trouble env s.log)
    (hfit : F → log2fast usrSize < 40 ∨ Trouble env s.log)
    (hroom : F → elmHdrSz env.args ≤ allocSize ∨ Trouble env s.log)
    (hclass : env.StdioFits → G → log2fast (max pageSize allocSize) < 40) :
    wp (getBuf ctx bt allocSize usrSize)
      (fun p s' => Taken env F off s s' ⟨p.1, usrSize, bt⟩ (2 ^ log2fast (max pageSize allocSize)) p)
      (Halted env F G) s := by
  have hreq : max pageSize allocSize < 2 ^ 64 := max_lt (by decide) halloc
  have hclaim : wp (claimBuf ctx bt (log2fast (max pageSize allocSize)) usrSize) _ (Halted env F G) s :=
    claimBuf_spec hctx hR hr hoff (le_log2fast_page hreq (le_max_left _ _)) hslots hbin hfit hclass
  refine getBuf_of_claim (R := fun _ _ => True) hctx rfl
    (wp_mono hclaim (fun _ _ h => ⟨h, trivial⟩) fun _ _ hE => hE) ?_
  intro i h B s₁ s₂ s' hl hc hB hp hb _
  refine limitDumps_spec hctx hoff (hl.setUp hset) hc hB (.inr (.inr hp)) fun hF => ?_
  refine (hroom hF).imp (fun hle => ?_) fun hT => hT.mono hl.log
  rw [(hc.rep.log_ok.lawful.sound.block_ok _ _ hB).size_eq (by simp [hp]), hb]
  exact (hle.trans (le_max_right _ _)).trans (le_pow_log2fast hreq)

end GuardRails
