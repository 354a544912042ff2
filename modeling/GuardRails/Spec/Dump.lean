import GuardRails.Spec.Stdio

/-!
# `onExitHelper`

A dump leaves the heap to the interrupted function as it was, whatever stdio allocates
on its way. When formatted output leaves the heap alone the dump is exact: it walks
lists that do not change, so what it puts out is what the ledger has.
-/

namespace GuardRails

open ByteMemory StateHoare

variable {env : Env} {off : Off} {L : Ledger} {s s' s₀ s₁ : Heap} {ctx : Ctx}
  {E : Halt → Heap → Prop} {F G : Prop}

/-! ## The frame of a dump -/

structure Dumping (env : Env) (F : Prop) (off : Off) (s₀ s : Heap) : Prop where
  call : InCall env F off ∅ s₀ s
  setUp : F → SetUp env s ∨ Trouble env s.log
  begun : 0 < openDumps s.log

theorem Dumping.again (hd : Dumping env F off s₀ s) : Dumping env F off s s :=
  ⟨.refl hd.call.rep hd.call.ready, hd.setUp, hd.begun⟩

theorem Dumping.step (hd : Dumping env F off s₀ s)
    (h : InCall env F off ∅ s₀ s' ∧ Keeps ∅ s s') : Dumping env F off s₀ s' where
  call := h.1
  setUp hF := (hd.setUp hF).imp (fun hs => hs.keeps h.2 (by simp)) fun hT => hT.mono h.2.log
  begun := hd.begun.trans_le h.2.log.dumps

theorem Dumping.trans (hd : Dumping env F off s₀ s) (hd' : Dumping env F off s s') :
    Dumping env F off s₀ s' :=
  ⟨hd.call.trans hd'.call.rep hd'.call.keeps, hd'.setUp, hd'.begun⟩

theorem Dumping.chatty (hd : Dumping env F off s₀ s) (hF : F) : Chatty env s := by
  by_cases hfit : env.StdioFits
  · exact (hd.setUp hF).imp_left fun h => ⟨h, hfit⟩
  · exact .inr (.inl ⟨hd.begun, hfit⟩)

/-- A dump that does not end. -/
theorem Dumping.halted {e : Halt} (hd : Dumping env F off s₀ s) (hlog : s'.log = s.log)
    (he : e = .hang ∨ e = .divByZero) : Halted env F G e s' where
  log_ok := hlog ▸ hd.call.rep.log_ok
  excuse _ := .inr ⟨hlog ▸ hd.begun, he.imp_right .inl⟩
  barred := by rcases he with rfl | rfl <;> nofun
  bounds _ _ := by rcases he with rfl | rfl <;> nofun

theorem Dumping.fmtOut (hd : Dumping env F off s₀ s) (hctx : ctx.Ok env)
    (hoff : env.Calm → off = 0) :
    wp (fmtOut ctx) (fun _ s' => Dumping env F off s₀ s') (Halted env F G) s :=
  wp_mono (fmtOut_spec hctx hoff hd.call hd.chatty) (fun _ _ h => hd.step h) fun _ _ hE => hE

theorem grPrintf_spec (hctx : ctx.Ok env) (hoff : env.Calm → off = 0)
    (hd : Dumping env F off s₀ s) :
    wp (grPrintf ctx) (fun _ s' => Dumping env F off s₀ s') (Halted env F G) s :=
  wp_bind (wp_get (wp_ite (fun _ => hd.fmtOut hctx hoff) fun _ => wp_pure hd))

/-- Unless the block was too small and nobody has filled it, its trace can be read. -/
theorem Dumping.frame_open {h a : ℕ} {B : Block} (hd : Dumping env F off s₀ s)
    (hB : (ledger s.log).block h = some B) (hp : B.place = .on .inUse) (ha : h ≤ a)
    (hle : a + 8 ≤ h + elmHdrSz env.args) (hacc : ¬ Accessible s.pages a 8) :
    Halted env F G (.fault a) s := by
  have hS := hd.call.rep.shape
  have hsmall : B.size < elmHdrSz env.args := by
    by_contra hge
    exact hacc ((hS.pages.opened h B hB (by simp [hp])).mono ha (by omega))
  have hpage := (hS.layout.block h B hB).size_ge
  refine ⟨hd.call.rep.log_ok, fun hF => ?_, nofun, fun _ _ => nofun⟩
  rcases hd.setUp hF with hs | hT
  · refine .inr ⟨hd.begun, .inr (.inr ⟨⟨a, rfl⟩, by omega, fun hcalm => ?_⟩)⟩
    refine absurd (hs.roomy (by omega) hcalm h B hB hp ?_) (by omega)
    by_contra hlive
    obtain ⟨a, -, ho, -⟩ := (hd.call.rep.log_ok.lawful.sound.block_ok h B hB).live_owner
      (by simpa using hlive)
    have hO := (hS.blocks h B hB (by simp [hp])).owner a ho
    have h1 := hO.above
    have h2 := hO.fits
    omega
  · exact .inl hT

theorem dumpFrames_spec (hctx : ctx.Ok env) (hoff : env.Calm → off = 0) {h a n : ℕ} {B : Block}
    (hd : Dumping env F off s₀ s) (hB : (ledger s.log).block h = some B) (hp : B.place = .on .inUse)
    (ha : h ≤ a) (hle : a + 8 * n ≤ h + elmHdrSz env.args) :
    wp (dumpFrames ctx a n) (fun _ s' => Dumping env F off s₀ s' ∧ Keeps ∅ s s') (Halted env F G) s := by
  induction n generalizing a s with
  | zero => exact wp_pure ⟨hd, .refl⟩
  | succ n ih =>
      refine wp_bind (wp_load64 (fun _ => ?_) (hd.frame_open hB hp ha (by omega)))
      refine wp_bind_of (hd.again.fmtOut hctx hoff) ?_
      intro _ s₁ hd₁
      have hd₁ : Dumping env F off s s₁ := hd₁
      have hB₁ := hd₁.call.keeps.block h B (Set.notMem_empty h) hB (.inr (.inr hp))
      refine wp_bind_of (ih (hd.trans hd₁) hB₁ (by omega) (by omega)) ?_
      rintro _ s₂ ⟨hd₂, hK₂⟩
      exact wp_pure ⟨hd₂, hd₁.call.keeps.trans hK₂⟩

/-- The node that a walk has come to is a block in use, or the end. -/
def InUseNode (s : Heap) (h : ℕ) : Prop :=
  h = 0 ∨ ∃ B, (ledger s.log).block h = some B ∧ B.place = .on .inUse

theorem Rep.inUse_head (hR : Rep env off s) (i b : ℕ) : InUseNode s (s.bin i b).headInUse := by
  refine or_iff_not_imp_left.2 fun h0 => ?_
  have hmem := (hR.shape.lists ⟨.inUse, i, b⟩).head_mem h0
  obtain ⟨B, hB, hp, -⟩ := (hR.log_ok.lawful.sound.mem_list _ _).1 hmem
  exact ⟨B, hB, hp⟩

theorem Rep.inUse_next {h : ℕ} {B : Block} (hR : Rep env off s)
    (hB : (ledger s.log).block h = some B) (hp : B.place = .on .inUse) :
    InUseNode s (fld s.mem h .next) := by
  have hL := hR.log_ok.lawful.sound
  have hmem : h ∈ (ledger s.log).list ⟨.inUse, B.slot, B.bin⟩ := (hL.mem_list _ _).2 ⟨B, hB, hp, rfl, rfl⟩
  refine ((hR.shape.lists ⟨.inUse, B.slot, B.bin⟩).next_mem hmem).imp_right fun hn => ?_
  obtain ⟨A, hA, hpA, -⟩ := (hL.mem_list _ _).1 hn
  exact ⟨A, hA, hpA⟩

theorem dumpInUse_spec (hctx : ctx.Ok env) (hoff : env.Calm → off = 0) {fuel h : ℕ}
    (hd : Dumping env F off s₀ s) (hh : InUseNode s h) :
    wp (dumpInUse ctx fuel h) (fun _ s' => Dumping env F off s₀ s') (Halted env F G) s := by
  induction fuel generalizing h s with
  | zero =>
      unfold dumpInUse
      exact wp_ite (fun _ => wp_pure hd) fun _ => wp_throw (hd.halted rfl (.inl rfl))
  | succ fuel ih =>
      unfold dumpInUse
      refine wp_ite (fun _ => wp_pure hd) fun h0 => ?_
      obtain ⟨B, hB, hp⟩ := hh.resolve_left h0
      have hkeep : ∀ {s s' : Heap}, Keeps ∅ s s' → (ledger s.log).block h = some B →
          (ledger s'.log).block h = some B := fun hK hB =>
        hK.block h B (Set.notMem_empty h) hB (.inr (.inr hp))
      refine wp_bind (wp_ldField (hd.call.rep.shape.field_open hB (by simp [hp]) _) fun _ _ => ?_)
      refine wp_bind_of (hd.again.fmtOut hctx hoff) ?_
      intro _ s₁ hd₁
      have hd₁ : Dumping env F off s s₁ := hd₁
      have hB₁ := hkeep hd₁.call.keeps hB
      have hsz := elmHdrSz_eq hd.call.rep.shape.env_ok.args
      refine wp_bind (wp_get ?_)
      rw [hd₁.call.rep.shape.args_eq]
      refine wp_bind_of (dumpFrames_spec hctx hoff hd₁ hB₁ hp (Nat.le_add_right _ _) ?_) ?_
      · rw [show allocBtOff = 64 from rfl]
        omega
      rintro _ s₂ ⟨hd₂, hK₂⟩
      have hd₂ : Dumping env F off s s₂ := hd₂
      refine wp_bind_of (hd₂.again.fmtOut hctx hoff) ?_
      intro _ s₃ hd₃
      have hd₃ : Dumping env F off s₂ s₃ := hd₃
      have hB₃ := hkeep hd₃.call.keeps (hkeep hK₂ hB₁)
      have hR₃ := hd₃.call.rep
      refine wp_bind (wp_ldField (hR₃.shape.field_open hB₃ (by simp [hp]) _) fun w hw => ?_)
      refine wp_bind_of (ih ((hd.trans hd₂).trans hd₃) (hw ▸ hR₃.inUse_next hB₃ hp)) ?_
      exact fun _ s₄ hd₄ => wp_pure hd₄

theorem dumpBin_spec (hctx : ctx.Ok env) (hoff : env.Calm → off = 0) {i b : ℕ} {d : Dump}
    (hd : Dumping env F off s₀ s) :
    wp (dumpBin ctx i d b) (fun _ s' => Dumping env F off s₀ s') (Halted env F G) s := by
  unfold dumpBin
  refine wp_bind (wp_get ?_)
  extract_lets printed
  refine wp_bind (wp_get ?_)
  extract_lets verbose
  refine wp_bind_of (grPrintf_spec hctx hoff hd) ?_
  intro _ s₁ hd₁
  have hd₁ : Dumping env F off s₀ s₁ := hd₁
  refine wp_bind (wp_get ?_)
  extract_lets bin
  refine wp_bind (wp_get ?_)
  extract_lets fuel
  refine wp_bind (wp_get ?_)
  refine wp_ite (fun _ => ?_) fun _ => wp_bind (wp_pure (wp_pure hd₁))
  exact wp_bind_of (dumpInUse_spec hctx hoff hd₁ (hd₁.call.rep.inUse_head i b))
    fun _ s₂ hd₂ => wp_pure hd₂

theorem dumpHisto_spec (hctx : ctx.Ok env) (hoff : env.Calm → off = 0) {i b : ℕ} {d : Dump}
    (hd : Dumping env F off s₀ s) :
    wp (dumpHisto ctx i d b) (fun _ s' => Dumping env F off s₀ s') (Halted env F G) s := by
  unfold dumpHisto
  refine wp_bind (wp_get ?_)
  extract_lets histo
  refine wp_bind (wp_get ?_)
  extract_lets verbose
  exact wp_bind_of (grPrintf_spec hctx hoff hd) fun _ s₁ hd₁ => wp_pure hd₁

theorem dumpSlot_spec (hctx : ctx.Ok env) (hoff : env.Calm → off = 0) {i : ℕ} {d : Dump}
    (hd : Dumping env F off s₀ s) (hi : i < env.args.numSlots) :
    wp (dumpSlot ctx d i) (fun _ s' => Dumping env F off s₀ s') (Halted env F G) s := by
  have hm := hd.call.rep.shape.locks.slot i
  rw [hd.call.rep.shape.args_eq, decide_eq_true hi] at hm
  have hrec : (s.mutex (.slot i)).recursive = true := hm.kind
  unfold dumpSlot
  refine wp_bind (wp_pthreadMutexLock (fun hl => ?_) fun _ h => absurd (hrec.symm.trans h) nofun)
  have hd₁ : Dumping env F off (s.lockHeap (.slot i)) (s.lockHeap (.slot i)) :=
    ⟨.refl (hd.call.rep.lockHeap hl) (hd.call.ready.lockHeap i),
      fun hF => (hd.setUp hF).imp SetUp.lockHeap fun hT => hT.mono (.cons nofun), hd.begun⟩
  obtain ⟨s₁, hs₁⟩ : ∃ s₁, s₁ = s.lockHeap (.slot i) := ⟨_, rfl⟩
  rw [← hs₁] at hd₁ ⊢
  refine wp_bind (wp_get ?_)
  extract_lets S
  refine wp_bind_of (hd₁.fmtOut hctx hoff) ?_
  intro _ s₂ hd₂
  refine wp_bind_of (grPrintf_spec hctx hoff hd₂) ?_
  intro _ s₃ hd₃
  refine wp_bind_of (wp_foldlM (fun _ _ s' => Dumping env F off s₁ s') _ _ hd₃
    fun _ _ _ _ _ _ hd => dumpBin_spec hctx hoff hd) ?_
  intro _ s₄ hd₄
  refine wp_bind_of (grPrintf_spec hctx hoff hd₄) ?_
  intro _ s₅ hd₅
  refine wp_bind_of (wp_foldlM (fun _ _ s' => Dumping env F off s₁ s') _ _ hd₅
    fun _ _ _ _ _ _ hd => dumpHisto_spec hctx hoff hd) ?_
  intro _ s₆ hd₆
  have hd₆ : Dumping env F off s₁ s₆ := hd₆
  have hK : Keeps ∅ s (s₆.unlockHeap (.slot i)) := (hs₁ ▸ hd₆.call.keeps).bracket hm hl
  exact wp_bind (wp_pthreadMutexUnlock (wp_pure
    (hd.step ⟨hd.call.trans hd₆.call.rep.unlockHeap hK, hK⟩)))

/-! ## What a dump reads -/

def Event.Locking (e : Event) : Prop := ∃ l, e = .acquired l ∨ e = .released l

/-- A halt at a fault or a failed lock, and not in a walk without end or at a division. -/
def Halt.Prompt (e : Halt) : Prop := e ≠ .hang ∧ e ≠ .divByZero

/-- The parts of the heap that a dump reads stay as they are while it runs. -/
structure Same (s₀ s : Heap) : Prop where
  mem : s.mem = s₀.mem
  pages : s.pages = s₀.pages
  memPools : s.memPools = s₀.memPools
  grArgs : s.grArgs = s₀.grArgs
  histo : s.memHisto = s₀.memHisto
  slot : ∀ i, ∃ m, s.memSlots i = { s₀.memSlots i with lock := m }
  log : ∃ evs, s.log = evs ++ s₀.log ∧ ∀ e ∈ evs, e.Locking

theorem Same.refl : Same s s := ⟨rfl, rfl, rfl, rfl, rfl, fun _ => ⟨_, rfl⟩, [], rfl, by simp⟩

theorem Same.ledger (hs : Same s₀ s) : ledger s.log = ledger s₀.log := by
  obtain ⟨evs, hlog, hevs⟩ := hs.log
  rw [hlog]
  clear hlog
  induction evs with
  | nil => rfl
  | cons e evs ih =>
      obtain ⟨hl, hevs⟩ := List.forall_mem_cons.1 hevs
      rw [List.cons_append, ← ih hevs]
      rcases hl with ⟨l, rfl | rfl⟩ <;> rfl

theorem Same.event {e : Event} (hs : Same s₀ s) (he : e.Locking) :
    ∃ evs, e :: s.log = evs ++ s₀.log ∧ ∀ e ∈ evs, e.Locking := by
  obtain ⟨evs, hlog, hevs⟩ := hs.log
  exact ⟨e :: evs, congrArg (e :: ·) hlog, List.forall_mem_cons.2 ⟨he, hevs⟩⟩

theorem Same.bin (hs : Same s₀ s) (i b : ℕ) : s.bin i b = s₀.bin i b := by
  obtain ⟨m, hm⟩ := hs.slot i
  rw [Heap.bin, hm]

theorem Same.tick (hs : Same s₀ s) : Same s₀ { s with clock := s.clock + 1 } := { hs with }

theorem Same.setMutex (hs : Same s₀ s) (l : LockId) (m : Mutex) : Same s₀ (s.setMutex l m) := by
  have hslot : ∀ i, ∃ m', (s.setMutex l m).memSlots i = { s₀.memSlots i with lock := m' } := by
    intro i
    obtain ⟨m', hm'⟩ := hs.slot i
    obtain ⟨m'', hm''⟩ := sameSlots_setMutex s l m i
    exact ⟨m'', by rw [hm'', hm']⟩
  cases l <;> exact { hs with slot := hslot, log := hs.log }

theorem Same.lockHeap (hs : Same s₀ s) (l : LockId) : Same s₀ (s.lockHeap l) :=
  { hs.setMutex l _ with log := lockHeap_log ▸ hs.event ⟨l, .inl rfl⟩ }

theorem Same.unlockHeap (hs : Same s₀ s) (l : LockId) : Same s₀ (s.unlockHeap l) :=
  { hs.setMutex l _ with log := unlockHeap_log ▸ hs.event ⟨l, .inr rfl⟩ }

theorem wp_fmtOut_quiet {Q : Unit → Heap → Prop} (henv : ctx.env = env) (hq : env.Quiet)
    (hs : Same s₀ s) (h : ∀ s', Same s₀ s' → Q () s') : wp (fmtOut ctx) Q E s := by
  unfold fmtOut
  rw [henv]
  refine wp_bind (wp_tick ?_)
  rw [hq]
  exact wp_pure (h _ hs.tick)

theorem wp_grPrintf_quiet {Q : Unit → Heap → Prop} (henv : ctx.env = env) (hq : env.Quiet)
    (hs : Same s₀ s) (h : ∀ s', Same s₀ s' → Q () s') : wp (grPrintf ctx) Q E s :=
  wp_bind (wp_get (wp_ite (fun _ => wp_fmtOut_quiet henv hq hs h) fun _ => wp_pure (h s hs)))

theorem wp_dumpFrames_quiet {a n : ℕ} {Q : List ℕ → Heap → Prop} (henv : ctx.env = env)
    (hq : env.Quiet) (hs : Same s₀ s)
    (h : Accessible s₀.pages a (8 * n) → ∀ s', Same s₀ s' →
      Q ((List.range n).map fun j => word s₀.mem (a + 8 * j)) s')
    (he : ∀ b s', Same s₀ s' → E (.fault b) s') : wp (dumpFrames ctx a n) Q E s := by
  induction n generalizing a s Q with
  | zero => exact wp_pure (h (fun k hk => absurd hk (by omega)) s hs)
  | succ n ih =>
      refine wp_bind (wp_load64 (fun hacc => ?_) fun _ => he a s hs)
      rw [hs.pages] at hacc
      rw [hs.mem]
      refine wp_bind (wp_fmtOut_quiet henv hq hs fun s₁ hs₁ => ?_)
      refine wp_bind (ih hs₁ fun hacc' s₂ hs₂ => wp_pure ?_)
      have hall : Accessible s₀.pages a (8 * (n + 1)) := by
        intro k hk
        by_cases hk8 : k < 8
        · exact hacc k hk8
        · have := hacc' (k - 8) (by omega)
          rwa [show a + 8 + (k - 8) = a + k by omega] at this
      convert h hall s₂ hs₂ using 1
      rw [List.range_succ_eq_map, List.map_cons, List.map_map]
      simp only [Nat.mul_zero, Nat.add_zero, List.cons.injEq, true_and]
      refine List.map_congr_left fun j _ => ?_
      simp only [Function.comp_apply, Nat.succ_eq_add_one]
      rw [show a + 8 + 8 * j = a + 8 * (j + 1) by omega]

/-- The headers of blocks lie on different pages, so the walk has fuel enough. -/
theorem Layout.length_le_walkFuel (hY : Layout s.memPools L) {xs : List ℕ} (hd : xs.Nodup)
    (hxs : ∀ x ∈ xs, ∃ B, L.block x = some B) : xs.length ≤ s.walkFuel := by
  have hsub : xs ⊆ s.memPools.flatMap fun P =>
      (List.range (P.totalSizeBytes / pageSize)).map fun k => P.start + 4096 * k := by
    intro x hx
    obtain ⟨B, hB⟩ := hxs x hx
    have hb := hY.block x B hB
    obtain ⟨P, hP, hle, hfit⟩ := hb.inPool
    have halign := hb.aligned
    have hpool := hY.pool P hP
    have hstart := hpool.start_aligned
    have hfree := hpool.startFree_eq
    refine List.mem_flatMap.2 ⟨P, hP, List.mem_map.2 ⟨(x - P.start) / 4096, ?_, by omega⟩⟩
    rw [List.mem_range, show pageSize = 4096 from rfl]
    omega
  have hlen := (hd.subperm hsub).length_le
  rw [List.length_flatMap] at hlen
  simpa only [List.length_map, List.length_range, Heap.walkFuel] using hlen

/-- What a dump reads in the header of a block is on record. -/
theorem Shape.record_eq {h : ℕ} {B : Block} (hS : Shape env off L s) (hB : L.block h = some B)
    (hraw : B.place ≠ .raw)
    (hacc : Accessible s.pages (h + allocBtOff) (8 * env.args.maxTrackFrames)) :
    (⟨fld s.mem h .usrDataSize, (List.range env.args.maxTrackFrames).map fun j =>
      word s.mem (h + allocBtOff + 8 * j)⟩ : Record) = L.record env.args h := by
  have hH := hS.blocks h B hB hraw
  have hoff : allocBtOff = 64 := rfl
  rw [hoff] at hacc ⊢
  unfold Ledger.record
  rw [hB, Option.bind_some]
  cases ho : B.owner with
  | some a =>
      have hO := hH.owner a ho
      dsimp only
      rw [hO.usrDataSize, traceOf]
      congr 1
      exact List.map_congr_left fun j hj => hO.frames j (List.mem_range.1 hj)
  | none =>
      obtain ⟨h0, hfr⟩ := hH.fresh ho
      dsimp only
      rw [h0, List.eq_replicate_of_mem (a := 0) (l := List.map _ _), List.length_map,
        List.length_range]
      intro w hw
      obtain ⟨j, hj, rfl⟩ := List.mem_map.1 hw
      rw [List.mem_range] at hj
      refine hfr j hj ?_
      -- the array does not reach the guard page
      by_contra hle
      have hge := (hS.layout.block h B hB).size_ge
      have hguard := hS.pages.guard h B hB (h + B.size) le_rfl (by omega)
      refine hacc (B.size - 64) (by omega) ?_
      rwa [show h + 64 + (B.size - 64) = h + B.size by omega]

theorem dumpInUse_exact (henv : ctx.env = env) (hq : env.Quiet) (hS : Shape env off L s₀)
    {fuel h p : ℕ} {xs : List ℕ} (hs : Same s₀ s)
    (hxs : ∀ x ∈ xs, ∃ B, L.block x = some B ∧ B.place = .on .inUse)
    (hc : IntrusiveList.Chain (fld s₀.mem · .next) (fld s₀.mem · .prev) p h xs)
    (hfuel : xs.length ≤ fuel) :
    wp (dumpInUse ctx fuel h)
      (fun recs s' => recs = xs.map (L.record env.args) ∧ Same s₀ s')
      (fun e s' => e.Prompt ∧ Same s₀ s') s := by
  induction xs generalizing fuel h p s with
  | nil =>
      obtain rfl : h = 0 := hc
      unfold dumpInUse
      exact wp_ite (fun _ => wp_pure ⟨rfl, hs⟩) fun h => absurd rfl h
  | cons x xs ih =>
      obtain ⟨rfl, h0, -, hrest⟩ := hc
      obtain ⟨B, hB, hp⟩ := hxs h List.mem_cons_self
      have hraw : B.place ≠ .raw := by simp [hp]
      obtain ⟨fuel, rfl⟩ : ∃ n, fuel = n + 1 := ⟨fuel - 1, by rw [List.length_cons] at hfuel; omega⟩
      unfold dumpInUse
      refine wp_ite (fun h => absurd h h0) fun _ => ?_
      refine wp_bind (wp_load64 (fun _ => ?_) fun _ => ⟨⟨nofun, nofun⟩, hs⟩)
      refine wp_bind (wp_fmtOut_quiet henv hq hs fun s₁ hs₁ => ?_)
      refine wp_bind (wp_get ?_)
      rw [hs₁.grArgs, hS.args_eq]
      refine wp_bind (wp_dumpFrames_quiet henv hq hs₁ (fun hacc s₂ hs₂ => ?_) fun _ _ h => ⟨⟨nofun, nofun⟩, h⟩)
      refine wp_bind (wp_fmtOut_quiet henv hq hs₂ fun s₃ hs₃ => ?_)
      refine wp_bind (wp_load64 (fun _ => ?_) fun _ => ⟨⟨nofun, nofun⟩, hs₃⟩)
      rw [hs.mem, hs₃.mem]
      refine wp_bind_of (ih hs₃ (fun y hy => hxs y (List.mem_cons_of_mem h hy)) hrest
        (Nat.le_of_succ_le_succ hfuel)) ?_
      rintro _ s₄ ⟨rfl, hs₄⟩
      refine wp_pure ⟨?_, hs₄⟩
      rw [List.map_cons, ← hS.record_eq hB hraw hacc]
      rfl

/-! ## What a dump puts out -/

structure Dump.Adds (d d' : Dump) (i : ℕ) (recs : List Record) (bins histos : List BinLine) :
    Prop where
  records : d'.records = Function.update d.records i (d.records i ++ recs)
  binLines : d'.binLines = Function.update d.binLines i (d.binLines i ++ bins)
  histoLines : d'.histoLines = Function.update d.histoLines i (d.histoLines i ++ histos)
  requested : d'.totalUserRequestedBytes = d.totalUserRequestedBytes
  freed : d'.totalUserFreedBytes = d.totalUserFreedBytes

namespace Dump.Adds

variable {d d' d'' : Dump} {i b : ℕ} {recs recs' : List Record} {bins bins' histos histos' : List BinLine}

theorem refl : Adds d d i [] [] [] := by
  constructor <;> simp

theorem trans (h : Adds d d' i recs bins histos) (h' : Adds d' d'' i recs' bins' histos') :
    Adds d d'' i (recs ++ recs') (bins ++ bins') (histos ++ histos') := by
  constructor
  · rw [h'.records, h.records, Function.update_self, Function.update_idem, List.append_assoc]
  · rw [h'.binLines, h.binLines, Function.update_self, Function.update_idem, List.append_assoc]
  · rw [h'.histoLines, h.histoLines, Function.update_self, Function.update_idem, List.append_assoc]
  · exact h'.requested.trans h.requested
  · exact h'.freed.trans h.freed

theorem addBin {line : BinLine} {bin : MemBin} {verbose : Bool} :
    Adds d (d.addBin i b line verbose bin recs) i recs (if verbose then [line] else []) [] := by
  constructor <;> simp [Dump.addBin]

theorem addHisto (histo : MemHisto) (verbose : Bool) :
    Adds d (d.addHisto i b histo verbose) i [] []
      (if verbose then [binLine b histo.allocs histo.frees] else []) := by
  constructor <;> simp [Dump.addHisto]

end Dump.Adds

/-- The totals of `d'` are above those of `d` by `A` bytes of blocks, `G` bytes of blocks and
guard pages and `R` bytes of classes of requests, as words. -/
structure Dump.Sums (d d' : Dump) (A G R : ℕ) : Prop where
  alloced : d'.totalAllocedBytes ≡ d.totalAllocedBytes + A [MOD 2 ^ 64]
  guarded : d'.totalAllocedBytesGP ≡ d.totalAllocedBytesGP + G [MOD 2 ^ 64]
  requested : d'.totalRequestedPow2Bytes ≡ d.totalRequestedPow2Bytes + R [MOD 2 ^ 64]

theorem modEq_sum {x y z m n : ℕ} (h : y ≡ x + m [MOD 2 ^ 64]) (h' : z ≡ y + n [MOD 2 ^ 64]) :
    z ≡ x + (m + n) [MOD 2 ^ 64] := by
  rw [← Nat.add_assoc]
  exact h'.trans (h.add_right n)

namespace Dump.Sums

variable {d d' d'' : Dump} {i b A A' G G' R R' : ℕ} {recs : List Record}

theorem refl : Sums d d 0 0 0 := ⟨.rfl, .rfl, .rfl⟩

theorem trans (h : Sums d d' A G R) (h' : Sums d' d'' A' G' R') :
    Sums d d'' (A + A') (G + G') (R + R') :=
  ⟨modEq_sum h.alloced h'.alloced, modEq_sum h.guarded h'.guarded, modEq_sum h.requested h'.requested⟩

theorem addBin (h : Sums d d' A G R) {line : BinLine} {bin : MemBin} {verbose : Bool} :
    Sums d (d'.addBin i b line verbose bin recs) (A + bin.allocs * (2 ^ b + 0))
      (G + bin.allocs * (2 ^ b + pageSize)) R :=
  ⟨modEq_sum h.alloced (Nat.mod_modEq _ _), modEq_sum h.guarded (Nat.mod_modEq _ _), h.requested⟩

theorem addHisto (h : Sums d d' A G R) (histo : MemHisto) (verbose : Bool) :
    Sums d (d'.addHisto i b histo verbose) A G (R + histo.allocs * 2 ^ b) :=
  ⟨h.alloced, h.guarded, modEq_sum h.requested (Nat.mod_modEq _ _)⟩

end Dump.Sums

def linesOf (verbose : Bool) (line : ℕ → BinLine) (bs : List ℕ) : List BinLine :=
  if verbose then bs.map line else []

@[simp] theorem linesOf_nil {verbose : Bool} {line : ℕ → BinLine} : linesOf verbose line [] = [] := by
  cases verbose <;> rfl

theorem linesOf_append {verbose : Bool} {line : ℕ → BinLine} {bs : List ℕ} {b : ℕ} :
    linesOf verbose line bs ++ (if verbose then [line b] else []) =
      linesOf verbose line (bs ++ [b]) := by
  cases verbose <;> simp [linesOf]

def Ledger.binRecords (L : Ledger) (args : GRArgs) (i b : ℕ) : List Record :=
  if 0 < args.maxTrackFrames then (L.list ⟨.inUse, i, b⟩).map (L.record args) else []

def Heap.binLine (s : Heap) (i b : ℕ) : BinLine :=
  GuardRails.binLine b (s.bin i b).allocs (s.bin i b).frees

def Heap.histoLine (s : Heap) (i k : ℕ) : BinLine :=
  GuardRails.binLine k (s.memHisto i k).allocs (s.memHisto i k).frees

def Heap.allocedBytes (s : Heap) (extra i : ℕ) (bs : List ℕ) : ℕ :=
  (bs.map fun b => (s.bin i b).allocs * (2 ^ b + extra)).sum

def Heap.requestedBytes (s : Heap) (i : ℕ) (ks : List ℕ) : ℕ :=
  (ks.map fun k => (s.memHisto i k).allocs * 2 ^ k).sum

theorem allocedBytes_append {extra i b : ℕ} {bs : List ℕ} : s.allocedBytes extra i (bs ++ [b]) =
    s.allocedBytes extra i bs + (s.bin i b).allocs * (2 ^ b + extra) := by
  simp [Heap.allocedBytes]

theorem requestedBytes_append {i k : ℕ} {ks : List ℕ} : s.requestedBytes i (ks ++ [k]) =
    s.requestedBytes i ks + (s.memHisto i k).allocs * 2 ^ k := by
  simp [Heap.requestedBytes]

theorem dumpBin_exact (henv : ctx.env = env) (hq : env.Quiet) (hS : Shape env off L s₀)
    (hL : L.Sound) {i b : ℕ} {d : Dump} (hs : Same s₀ s) :
    wp (dumpBin ctx i d b)
      (fun d' s' => d' = d.addBin i b (s₀.binLine i b) env.args.verbose (s₀.bin i b)
        (L.binRecords env.args i b) ∧ Same s₀ s')
      (fun e s' => e.Prompt ∧ Same s₀ s') s := by
  unfold dumpBin
  refine wp_bind (wp_get ?_)
  extract_lets printed
  refine wp_bind (wp_get ?_)
  extract_lets verbose
  refine wp_bind (wp_grPrintf_quiet henv hq hs fun s₁ hs₁ => ?_)
  refine wp_bind (wp_get ?_)
  extract_lets bin
  refine wp_bind (wp_get ?_)
  extract_lets fuel
  refine wp_bind (wp_get ?_)
  have hprinted : printed = s₀.bin i b := hs.bin i b
  have hverbose : verbose = env.args.verbose := by rw [← hS.args_eq, ← hs.grArgs]
  have hbin : bin = s₀.bin i b := hs₁.bin i b
  have hxs : ∀ x ∈ L.list ⟨.inUse, i, b⟩, ∃ B, L.block x = some B ∧ B.place = .on .inUse := by
    intro x hx
    obtain ⟨B, hB, hp, -⟩ := (hL.mem_list _ x).1 hx
    exact ⟨B, hB, hp⟩
  have hfuel : (L.list ⟨.inUse, i, b⟩).length ≤ fuel := by
    have hpools : s₁.walkFuel = s₀.walkFuel := by rw [Heap.walkFuel, hs₁.memPools, Heap.walkFuel]
    refine (hS.layout.length_le_walkFuel (hL.nodup_list _) fun x hx => ?_).trans_eq hpools.symm
    obtain ⟨B, hB, -⟩ := hxs x hx
    exact ⟨B, hB⟩
  clear_value printed verbose bin fuel
  subst hprinted hverbose hbin
  rw [hs₁.grArgs, hS.args_eq]
  unfold Ledger.binRecords
  refine wp_ite (fun hpos => ?_) fun hpos => ?_
  · rw [if_pos hpos]
    refine wp_bind_of (dumpInUse_exact henv hq hS hs₁ hxs (hS.lists ⟨.inUse, i, b⟩) hfuel) ?_
    rintro _ s₂ ⟨rfl, hs₂⟩
    exact wp_pure ⟨rfl, hs₂⟩
  · rw [if_neg hpos]
    exact wp_bind (wp_pure (wp_pure ⟨rfl, hs₁⟩))

theorem dumpHisto_exact (henv : ctx.env = env) (hq : env.Quiet) (hargs : s₀.grArgs = env.args)
    {i b : ℕ} {d : Dump} (hs : Same s₀ s) :
    wp (dumpHisto ctx i d b)
      (fun d' s' => d' = d.addHisto i b (s₀.memHisto i b) env.args.verbose ∧ Same s₀ s')
      (fun e s' => e.Prompt ∧ Same s₀ s') s := by
  unfold dumpHisto
  refine wp_bind (wp_get ?_)
  extract_lets histo
  refine wp_bind (wp_get ?_)
  extract_lets verbose
  refine wp_bind (wp_grPrintf_quiet henv hq hs fun s₁ hs₁ => wp_pure ⟨?_, hs₁⟩)
  have hhisto : histo = s₀.memHisto i b := by rw [← hs.histo]
  have hverbose : verbose = env.args.verbose := by rw [← hargs, ← hs.grArgs]
  rw [hhisto, hverbose]

theorem dumpSlot_exact (henv : ctx.env = env) (hq : env.Quiet) (hS : Shape env off L s₀)
    (hL : L.Sound) {i : ℕ} {d : Dump} (hs : Same s₀ s) :
    wp (dumpSlot ctx d i)
      (fun d' s' => Same s₀ s' ∧ (d.addUsrBytes (s₀.memSlots i)).Adds d' i
        ((List.range maxAllocPower).flatMap (L.binRecords env.args i))
        (linesOf env.args.verbose (s₀.binLine i) (List.range maxAllocPower))
        (linesOf env.args.verbose (s₀.histoLine i) (List.range maxAllocPower)) ∧
        d.Sums d' (s₀.allocedBytes 0 i (List.range maxAllocPower))
          (s₀.allocedBytes pageSize i (List.range maxAllocPower))
          (s₀.requestedBytes i (List.range maxAllocPower)))
      (fun e s' => e.Prompt ∧ Same s₀ s') s := by
  unfold dumpSlot
  refine wp_bind (wp_pthreadMutexLock (fun _ => ?_) fun _ _ => ⟨⟨nofun, nofun⟩, hs.tick⟩)
  have hs₁ := hs.lockHeap (.slot i)
  obtain ⟨s₁, hs₁'⟩ : ∃ s₁, s₁ = s.lockHeap (.slot i) := ⟨_, rfl⟩
  rw [← hs₁'] at hs₁ ⊢
  refine wp_bind (wp_get ?_)
  extract_lets S
  have hbytes : d.addUsrBytes S = d.addUsrBytes (s₀.memSlots i) := by
    obtain ⟨m, hm⟩ := hs₁.slot i
    change d.addUsrBytes (s₁.memSlots i) = _
    rw [hm]
    rfl
  rw [hbytes]
  have hsums₁ : d.Sums (d.addUsrBytes (s₀.memSlots i)) 0 0 0 := ⟨.rfl, .rfl, .rfl⟩
  obtain ⟨d₁, hd₁⟩ : ∃ d₁, d₁ = d.addUsrBytes (s₀.memSlots i) := ⟨_, rfl⟩
  rw [← hd₁] at hsums₁ ⊢
  clear hd₁ hbytes
  clear_value S
  refine wp_bind (wp_fmtOut_quiet henv hq hs₁ fun s₂ hs₂ => ?_)
  refine wp_bind (wp_grPrintf_quiet henv hq hs₂ fun s₃ hs₃ => ?_)
  refine wp_bind_of (wp_foldlM (fun bs d' s' => Same s₀ s' ∧ d₁.Adds d' i
    (bs.flatMap (L.binRecords env.args i)) (linesOf env.args.verbose (s₀.binLine i) bs) [] ∧
    d.Sums d' (s₀.allocedBytes 0 i bs) (s₀.allocedBytes pageSize i bs) 0)
    _ _ ⟨hs₃, ?_, hsums₁⟩ ?_) ?_
  · rw [linesOf_nil]
    exact .refl
  · rintro bs b _ d' s' - ⟨hs', hadds, hsums⟩
    refine wp_mono (dumpBin_exact henv hq hS hL hs') ?_ fun _ _ h => h
    rintro _ s'' ⟨rfl, hs''⟩
    refine ⟨hs'', ?_, ?_⟩
    · rw [List.flatMap_append, List.flatMap_singleton, ← linesOf_append]
      exact hadds.trans .addBin
    · rw [allocedBytes_append, allocedBytes_append]
      exact hsums.addBin
  rintro d₂ s₄ ⟨hs₄, hadds, hsums⟩
  refine wp_bind (wp_grPrintf_quiet henv hq hs₄ fun s₅ hs₅ => ?_)
  refine wp_bind_of (wp_foldlM (fun ks d' s' => Same s₀ s' ∧ d₁.Adds d' i
    ((List.range maxAllocPower).flatMap (L.binRecords env.args i))
    (linesOf env.args.verbose (s₀.binLine i) (List.range maxAllocPower))
    (linesOf env.args.verbose (s₀.histoLine i) ks) ∧
    d.Sums d' (s₀.allocedBytes 0 i (List.range maxAllocPower))
      (s₀.allocedBytes pageSize i (List.range maxAllocPower)) (s₀.requestedBytes i ks)) _ _
    ⟨hs₅, ?_, hsums⟩ ?_) ?_
  · rw [linesOf_nil]
    exact hadds
  · rintro ks k _ d' s' - ⟨hs', hadds, hsums⟩
    refine wp_mono (dumpHisto_exact henv hq hS.args_eq hs') ?_ fun _ _ h => h
    rintro _ s'' ⟨rfl, hs''⟩
    refine ⟨hs'', ?_, ?_⟩
    · rw [← linesOf_append]
      have hadds' := hadds.trans (.addHisto (b := k) (s₀.memHisto i k) env.args.verbose)
      rwa [List.append_nil, List.append_nil] at hadds'
    · rw [requestedBytes_append]
      exact hsums.addHisto _ _
  rintro d₃ s₆ ⟨hs₆, hadds, hsums⟩
  exact wp_bind (wp_pthreadMutexUnlock (wp_pure ⟨hs₆.unlockHeap _, hadds, hsums⟩))

/-- What a dump has put out of the slots in `done`. -/
structure Dumped (args : GRArgs) (L : Ledger) (s : Heap) (done : List ℕ) (d : Dump) : Prop where
  records : ∀ i, d.records i =
    if i ∈ done then (List.range maxAllocPower).flatMap (L.binRecords args i) else []
  bytes : d.totalUserRequestedBytes ≡ d.totalUserFreedBytes + (done.map L.bytes).sum [MOD 2 ^ 64]
  binLines : ∀ i, d.binLines i =
    if i ∈ done then linesOf args.verbose (s.binLine i) (List.range maxAllocPower) else []
  histoLines : ∀ i, d.histoLines i =
    if i ∈ done then linesOf args.verbose (s.histoLine i) (List.range maxAllocPower) else []

/-- The counters of user bytes, as natural numbers. -/
theorem CountsOk.bytes_modEq (hC : CountsOk off s L) (i : ℕ) :
    (s.memSlots i).totalUserRequestedBytes ≡
      (s.memSlots i).totalUserFreedBytes + L.bytes i [MOD 2 ^ 64] := by
  have h := (hC.modEq (.bytes i)).add_right ((s.memSlots i).totalUserFreedBytes : ℤ)
  rw [hC.bytes_off] at h
  simp only [heapCount, Ledger.count, add_zero, sub_add_cancel] at h
  rw [← Int.natCast_modEq_iff]
  push_cast
  rw [add_comm]
  exact h

theorem Dumped.step {args : GRArgs} {done : List ℕ} {i : ℕ} {d d' : Dump}
    (hC : CountsOk off s L) (hd : Dumped args L s done d) (hi : i ∉ done)
    (hadds : (d.addUsrBytes (s.memSlots i)).Adds d' i
      ((List.range maxAllocPower).flatMap (L.binRecords args i))
      (linesOf args.verbose (s.binLine i) (List.range maxAllocPower))
      (linesOf args.verbose (s.histoLine i) (List.range maxAllocPower))) :
    Dumped args L s (done ++ [i]) d' where
  records j := by
    rw [hadds.records, Function.update_apply]
    change (if j = i then d.records i ++ _ else d.records j) = _
    rw [hd.records, hd.records, if_neg hi]
    grind
  bytes := by
    rw [hadds.requested, hadds.freed, List.map_append, List.sum_append]
    have h := hd.bytes.add (hC.bytes_modEq i)
    simp only [Dump.addUsrBytes, List.map_cons, List.map_nil, List.sum_cons, List.sum_nil, add_zero]
    refine (Nat.mod_modEq _ _).trans (h.trans ?_)
    rw [add_add_add_comm]
    exact (Nat.mod_modEq _ _).symm.add_right _
  binLines j := by
    rw [hadds.binLines, Function.update_apply]
    change (if j = i then d.binLines i ++ _ else d.binLines j) = _
    rw [hd.binLines, hd.binLines, if_neg hi]
    grind
  histoLines j := by
    rw [hadds.histoLines, Function.update_apply]
    change (if j = i then d.histoLines i ++ _ else d.histoLines j) = _
    rw [hd.histoLines, hd.histoLines, if_neg hi]
    grind

/-- The leaked allocations in a line are the difference of its counters. -/
theorem leakedAllocs_binLine {b allocs frees : ℕ} (hf : frees < 2 ^ 64) :
    ((binLine b allocs frees).leakedAllocs : ℤ) = ((allocs : ℤ) - frees) % 2 ^ 64 := by
  simp only [binLine, sub64]
  omega

theorem Dumped.dumpOk {d : Dump} (hC : CountsOk off s L) (hoff : env.Calm → off = 0)
    (hd : Dumped env.args L s (List.range env.args.numSlots) d) : DumpOk env L d where
  records i hi := by
    rw [hd.records, if_pos (List.mem_range.2 hi)]
    unfold Ledger.records Ledger.binRecords
    split <;> simp
  bytes := by
    have hsum : ∑ i ∈ Finset.range env.args.numSlots, L.bytes i =
        ((List.range env.args.numSlots).map L.bytes).sum := rfl
    rw [hsum]
    exact hd.bytes
  binLines hcalm hv i hi := by
    rw [hd.binLines, if_pos (List.mem_range.2 hi), linesOf, if_pos hv, List.map_map]
    refine List.map_congr_left fun b _ => Prod.ext rfl ?_
    have hmod := hC.modEq (.inUse i b)
    rw [hoff hcalm, Pi.zero_apply, add_zero] at hmod
    exact (leakedAllocs_binLine (hC.frees_lt i b)).trans hmod
  histoLines hcalm hv i hi := by
    rw [hd.histoLines, if_pos (List.mem_range.2 hi), linesOf, if_pos hv, List.map_map]
    refine List.map_congr_left fun k _ => Prod.ext rfl ?_
    have hmod := hC.modEq (.histo i k)
    rw [hoff hcalm, Pi.zero_apply, add_zero] at hmod
    exact (leakedAllocs_binLine (hC.histo_lt i k).2).trans hmod

/-! ## The whole dump -/

/-- The slots of a dump, one after the other. -/
theorem dumpSlots_spec (hctx : ctx.Ok env) (hoff : env.Calm → off = 0) {hwm : ℕ}
    (hd : Dumping env F off s₀ s) :
    wp ((List.range env.args.numSlots).foldlM (dumpSlot ctx) { hwm := hwm })
      (fun d s' => Dumping env F off s₀ s' ∧ (env.Quiet → DumpOk env (ledger s'.log) d))
      (Halted env F G) s := by
  have hspec := wp_foldlM (f := dumpSlot ctx) (E := Halted env F G)
    (fun _ _ s' => Dumping env F off s₀ s') (List.range env.args.numSlots) { hwm := hwm } hd
    fun done i todo _ _ hrange hd => dumpSlot_spec hctx hoff hd (List.mem_range.1 (hrange ▸ by simp))
  by_cases hq : env.Quiet
  · have hS := hd.call.rep.shape
    have hL := hd.call.rep.log_ok.lawful.sound
    have hexact := wp_foldlM (f := dumpSlot ctx) (E := fun e s' => e.Prompt ∧ Same s s')
      (fun done d s' => Same s s' ∧ Dumped env.args (ledger s.log) s done d)
      (List.range env.args.numSlots) { hwm := hwm }
      ⟨.refl, ⟨by simp, .refl _, by simp, by simp⟩⟩ ?_
    · refine wp_mono (wp_and hspec hexact) ?_ fun _ _ hE => hE.1
      rintro d s' ⟨hd', hs', hdumped⟩
      refine ⟨hd', fun _ => ?_⟩
      rw [hs'.ledger]
      exact hdumped.dumpOk hS.counts hoff
    · rintro done i todo d s' hrange ⟨hs', hdumped⟩
      refine wp_mono (dumpSlot_exact hctx.env_eq hq hS hL hs') ?_ fun _ _ h => h
      rintro d' s'' ⟨hs'', hadds, -⟩
      have hnd := List.nodup_range (n := env.args.numSlots)
      rw [hrange, List.nodup_append] at hnd
      exact ⟨hs'', hdumped.step hS.counts
        (fun hi => hnd.2.2 i hi i List.mem_cons_self rfl) hadds⟩
  · exact wp_mono hspec (fun _ _ h => ⟨h, fun h => absurd h hq⟩) fun _ _ h => h

theorem LogOk.dumped {log : List Event} {d : Dump} (hl : LogOk env log)
    (hd : env.Quiet → DumpOk env (ledger log) d) : LogOk env (.dumped d :: log) where
  lawful := ⟨hl.lawful, trivial⟩
  dumps := by
    intro hq d' pre hpre
    rcases List.suffix_cons_iff.1 hpre with heq | hsuf
    · obtain ⟨he, rfl⟩ := List.cons.inj heq
      obtain rfl := Event.dumped.inj he
      exact hd hq
    · exact hl.dumps hq d' pre hsuf

theorem Dumping.dumped {d : Dump} (hd : Dumping env F off s₀ s)
    (hdump : env.Quiet → DumpOk env (ledger s.log) d) :
    Dumping env F off s₀ { s with log := .dumped d :: s.log } := by
  have hK : Keeps ∅ s { s with log := .dumped d :: s.log } :=
    { isInit := rfl
      mutex := fun l => by cases l <;> rfl
      log := .cons nofun
      used := le_rfl
      block := fun _ _ _ hB _ => hB
      mem := fun _ _ _ _ _ _ _ _ _ => rfl
      settled := fun _ _ => settledAt_of_not_fixed rfl }
  refine hd.step ⟨hd.call.trans ⟨hd.call.rep.log_ok.dumped hdump, ?_⟩ hK, hK⟩
  exact hd.call.rep.shape.setLog _ _

theorem onExitHelperBody_spec (hctx : ctx.Ok env) (hoff : env.Calm → off = 0) {hwm : ℕ}
    (hd : Dumping env F off s₀ s) :
    wp (onExitHelperBody ctx hwm) (fun _ s' => Dumping env F off s₀ s') (Halted env F G) s := by
  unfold onExitHelperBody
  refine wp_bind_of (dumpOffsets_spec hctx hoff hd.call hd.chatty) ?_
  intro _ s₁ h₁
  have hd₁ := hd.step h₁
  refine wp_bind_of (hd₁.fmtOut hctx hoff) ?_
  intro _ s₂ hd₂
  have hd₂ : Dumping env F off s₀ s₂ := hd₂
  refine wp_bind (wp_get ?_)
  rw [hd₂.call.rep.shape.args_eq]
  refine wp_bind_of (dumpSlots_spec hctx hoff hd₂) ?_
  rintro d s₃ ⟨hd₃, hdump⟩
  have hd₄ := hd₃.dumped hdump
  refine wp_bind (wp_emit ?_)
  refine wp_ite (fun _ => wp_bind (wp_throw (hd₄.halted rfl (.inr rfl)))) fun _ => ?_
  exact hd₄.fmtOut hctx hoff

/-- The first event of a dump. -/
theorem Rep.dumpBegun (hR : Rep env off s) (hr : Ready env F s)
    (hset : F → SetUp env s ∨ Trouble env s.log) :
    Dumping env F off { s with log := .dumpBegun :: s.log } { s with log := .dumpBegun :: s.log } := by
  have hK := Keeps.neutral (X := ∅) (s := s) (e := .dumpBegun) trivial s.clock
  exact ⟨.refl (hR.neutral (e := .dumpBegun) trivial s.clock) (hr.mono hK.isInit hK.mutex hK.log),
    fun hF => (hset hF).imp (fun h => h.keeps hK (by simp)) fun hT => hT.mono hK.log, Nat.succ_pos _⟩

/-- The last event of a dump. -/
theorem Rep.dumpEnded (hR : Rep env off s) :
    Rep env off { s with log := .dumpEnded :: s.log } where
  log_ok := ⟨⟨hR.log_ok.lawful, trivial⟩, hR.log_ok.dumps.cons nofun⟩
  shape := hR.shape.setLog _ s.clock

theorem Keeps.dumpEnded (hK : Keeps ∅ { s with log := .dumpBegun :: s.log } s') :
    Keeps ∅ s { s' with log := .dumpEnded :: s'.log } where
  isInit := hK.isInit
  mutex l := (show _ = s'.mutex l by cases l <;> rfl).trans ((hK.mutex l).trans (by cases l <;> rfl))
  log :=
    { suffix := ((List.suffix_cons _ s.log).trans hK.log.suffix).trans (List.suffix_cons _ _)
      dumps := Nat.le_sub_one_of_lt hK.log.dumps }
  used := hK.used
  block h B hX hB hF := hK.block h B hX hB hF
  mem h B hX hB hF := hK.mem h B hX hB hF
  settled h hX hF := hK.settled h hX hF

/-- At any depth of nested dumps the context is as the allocator relies on. -/
theorem ctxOf_ok (env : Env) (depth : ℕ) : (ctxOf env depth).Ok env := by
  induction depth with
  | zero =>
      refine ⟨rfl, fun F G off s b hwm hR hr _ hset => ?_, fun F G off s hR _ _ hT => ?_⟩
      · exact wp_bind (wp_emit (wp_throw ((hR.dumpBegun hr hset).halted rfl (.inl rfl))))
      · exact wp_throw (.of_trouble hR.log_ok hT nofun nofun)
  | succ depth ih =>
      refine ⟨rfl, fun F G off s b hwm hR hr hoff hset => ?_, fun F G off s hR hr hoff hT => ?_⟩
      · refine wp_bind (wp_emit (wp_bind_of
          (onExitHelperBody_spec ih hoff (hR.dumpBegun hr hset)) ?_))
        intro _ s' hd
        have hd : Dumping env F off _ s' := hd
        exact wp_emit ⟨hd.call.rep.dumpEnded, hd.call.keeps.dumpEnded⟩
      · refine wp_mono (fmtOut_spec ih hoff (.refl hR hr) fun hF => .inr (hT hF)) ?_
          fun _ _ hE => hE
        exact fun _ s' h => ⟨h.1.rep, h.2⟩

end GuardRails
