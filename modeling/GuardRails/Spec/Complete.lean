import GuardRails.Spec.Figures
import GuardRails.Spec.Undisturbed

/-!
# Calls that complete

A call halts for a reason only. In an undisturbed run there is none, so the constructor
and the calls of a well-behaved client return as long as the current pool lasts.
-/

namespace GuardRails

open ByteMemory StateHoare

variable {env : Env} {s : Heap} {depth room : ℕ} {st : Proc} {bt : List ℕ} {α : Type} {m : M α}
  {Q Q' : α → Heap → Prop} {G : Prop}

theorem openDumps_plain {log : List Event} (h : ∀ e ∈ log, e.Plain) : openDumps log = 0 := by
  induction log with
  | nil => rfl
  | cons e log ih =>
      have he := h e List.mem_cons_self
      have ih := ih fun e he => h e (List.mem_cons_of_mem _ he)
      cases e <;> first | exact ih | exact absurd he id

theorem Event.Plain.not_excuse {e : Event} (h : e.Plain) : ¬ e.Excuse := by
  cases e <;> first | exact id | exact absurd h id

/-- A plain history has no excuse. -/
theorem not_trouble {log : List Event} (h : ∀ e ∈ log, e.Plain) : ¬ Trouble env log := by
  rintro (⟨hpos, -⟩ | ⟨e, he, hx⟩)
  · exact absurd (openDumps_plain h) hpos.ne'
  · exact (h e he).not_excuse hx

/-- A run without an excuse returns. -/
theorem completes (hplain : ∀ e ∈ s.log, e.Plain) (h : wp m Q (Halted env True G) s)
    (h' : wp m Q' (Unexcused s) s) : ∃ a s', m s = .ok a s' ∧ Q a s' ∧ Q' a s' := by
  cases hm : m s with
  | ok a s' => exact ⟨a, s', rfl, wp_ok h hm, wp_ok h' hm⟩
  | error e s' =>
      obtain ⟨evs, hevs, hlog⟩ := wp_error h' hm
      have hall : ∀ e ∈ s'.log, e.Plain := by
        rw [hlog]
        exact fun e he => (List.mem_append.1 he).elim (hevs e) (hplain e)
      rcases (wp_error h hm).excuse trivial with hT | hD
      · exact absurd hT (not_trouble hall)
      · exact absurd (openDumps_plain hall) hD.1.ne'

/-- A process between two calls of an undisturbed run. -/
structure Proc.Idle (env : Env) (room : ℕ) (st : Proc) : Prop where
  inv : st.Inv env
  pristine : st.heap.Pristine env room

/-- The library is loaded. -/
theorem boot_completes (henv : env.Ok) (hu : env.Granting) (depth : ℕ) :
    ∃ s, boot env depth Heap.static = .ok () s ∧ Proc.Idle env slotInitSize ⟨s, []⟩ := by
  have hspec := grInitialize_spec (G := True) (ctxOf_ok _ depth) env.unsignalled_calm
    henv.unsignalled
  obtain ⟨_, s, hs, -, hp⟩ := completes (fun e he => absurd he List.not_mem_nil) hspec
    (boot_emits hu)
  exact ⟨s, hs, boot_inv henv hs, hp⟩

theorem Proc.Idle.reachable (henv : env.Ok) (hu : env.Granting) (depth : ℕ) :
    ∃ st, Reachable env depth st ∧ Proc.Idle env slotInitSize st ∧ st.held = [] := by
  obtain ⟨s, hs, hidle⟩ := boot_completes henv hu depth
  exact ⟨⟨s, []⟩, ⟨s, [], hs, .refl⟩, hidle, rfl⟩

theorem Proc.Idle.numFree_lt (h : st.Idle env room) (i b : ℕ) :
    (st.heap.bin i b).numFree < 2 ^ 63 := by
  rw [h.inv.rep.numFree_eq rfl]
  exact (h.inv.rep.list_length_lt _).trans (by decide)

/-- A block that has just been filled in is live. -/
theorem live_filled {a : Alloc} {log : List Event} (hl : Lawful (.filled a :: log)) :
    (ledger (.filled a :: log)).Live a := by
  obtain ⟨-, B, q, hB, -⟩ := hl
  refine ⟨{ B with owner := some a, live := true, intact := true }, ?_, rfl, rfl, rfl⟩
  change ((ledger log).updBlock a.hdr _).block a.hdr = _
  rw [Ledger.block_updBlock hB, Function.update_self]

/-- The current pool pays for a request of class `b`. -/
def Affords (s : Heap) (b room room' : ℕ) : Prop :=
  s.Reuses 0 b ∧ room' ≤ room ∨ room' + refillSize b ≤ room

theorem Affords.enough {b room' : ℕ} (h : Affords s b room room') (hroom : room ≤ s.budget) :
    s.Reuses 0 b ∨ refillSize b ≤ s.budget :=
  h.imp And.left fun h => (Nat.le_add_left _ _).trans (h.trans hroom)

theorem Affords.left {b room' : ℕ} {s' : Heap} (h : Affords s b room room')
    (hroom : room ≤ s.budget) (hp : Paid b s s') : room' ≤ s'.budget := by
  rcases h with ⟨hr, hle⟩ | hle
  · exact hle.trans (hroom.trans (hp.reuse hr))
  · have := hp.refill
    omega

/-- Without limits nothing is dumped. -/
theorem Proc.Idle.claims {usrSize b room' : ℕ} {bt : List ℕ} (h : st.Idle env room) (depth : ℕ)
    (hu : env.Undisturbed) (hroom : Affords st.heap b room room') :
    Unlimited (ctxOf env depth) bt b usrSize st.heap :=
  hu.claims (ctxOf_ok env depth).env_eq (h.numFree_lt 0 b) h.pristine.marked h.pristine.low
    h.pristine.grArgs (hroom.enough h.pristine.room)

/-- The history of an allocation that finds a block at the head of the free list. -/
def Reused (s s' : Heap) (bt : List ℕ) (alignment usrSize b : ℕ) (a : Alloc) : Prop :=
  a = allocAt (s.head ⟨.free, 0, b⟩) (s.head ⟨.free, 0, b⟩ + 2 ^ b) alignment usrSize bt ∧
    s'.log = .filled a :: bufEvents bt usrSize b (s.head ⟨.free, 0, b⟩) ++ [.acquired (.slot 0)] ++
      s.log

/-- An allocation succeeds while the current pool lasts. -/
theorem Proc.Idle.serves {alignment usrSize b room' : ℕ} (h : st.Idle env room) (depth : ℕ)
    (bt : List ℕ)
    (hu : env.Granting) (halign : alignment < 2 ^ 64) (husr : usrSize < 2 ^ 64)
    (hfits : Fits env.args alignment usrSize) (hb : b = classOf env.args alignment usrSize)
    (hin : Unlimited (ctxOf env depth) bt b usrSize st.heap)
    (hroom : Affords st.heap b room room') :
    ∃ a B s', memalignInt (ctxOf env depth) bt alignment usrSize st.heap = .ok a.ptr s' ∧
      Outcome env True ∅ st.heap s' bt alignment usrSize (fun a => Poisoned env.args s'.mem a) a.ptr ∧
      Served env True 0 ∅ st.heap s' bt alignment usrSize a B ∧ s'.Pristine env room' ∧
      (st.heap.Reuses 0 b → Reused st.heap s' bt alignment usrSize b a) := by
  have hp := h.pristine
  have hctx : (ctxOf env depth).env = env := (ctxOf_ok env depth).env_eq
  obtain ⟨p, s', hrun, ho, hpaid, ⟨evs, he⟩, hexact⟩ := completes hp.plain
    (memalignInt_outcome (F := True) (G := True) h.inv halign husr (fun _ => hfits)
      fun _ => hfits.class_lt)
    (memalignInt_emits hctx hu hb h.inv.isInit (h.numFree_lt 0 b) hp.marked hin hp.grArgs
      (hroom.enough hp.room))
  have hp' := hp.emits he (hroom.left hp.room hpaid)
  rcases ho with ⟨-, -, hT⟩ | ⟨h0, a, B, rfl, hs, hpoison⟩
  · exact absurd hT (not_trouble hp'.plain)
  refine ⟨a, B, s', hrun, .inr ⟨h0, a, B, rfl, hs, hpoison⟩, hs, hp', fun hr => ?_⟩
  obtain ⟨hdr, rfl, hptr, he⟩ := hexact hr
  have hlog : s'.log = .filled _ :: (bufEvents bt usrSize b _ ++ [.acquired (.slot 0)] ++
    st.heap.log) := he.log
  have hlive := live_filled (hlog ▸ hs.call.rep.log_ok.lawful)
  rw [← hlog] at hlive
  obtain rfl := hs.call.rep.live_inj hs.isLive hlive hptr
  exact ⟨rfl, he.log⟩

theorem Proc.Idle.malloc_within {usrSize b room' : ℕ} (h : st.Idle env room) (depth : ℕ) (bt : List ℕ)
    (hu : env.Granting)
    (husr : usrSize < 2 ^ 64) (hfits : (Call.malloc usrSize).Fits env.args)
    (hb : b = classOf env.args (Call.malloc usrSize).alignment usrSize)
    (hin : Unlimited (ctxOf env depth) bt b usrSize st.heap)
    (hroom : Affords st.heap b room room') :
    ∃ a B s', Step env depth st (.malloc usrSize) ⟨s', (a.ptr, usrSize) :: st.held⟩ ∧
      Proc.Idle env room' ⟨s', (a.ptr, usrSize) :: st.held⟩ ∧
      Served env True 0 ∅ st.heap s' bt (Call.malloc usrSize).alignment usrSize a B ∧
      (st.heap.Reuses 0 b → Reused st.heap s' bt (Call.malloc usrSize).alignment usrSize b a) := by
  have halign : (Call.malloc usrSize).alignment < 2 ^ 64 := by
    rw [show (Call.malloc usrSize).alignment = if usrSize > 8 then 16 else 8 from rfl]
    split <;> decide
  obtain ⟨a, B, s', hrun, ho, hs, hp, hre⟩ :=
    h.serves depth bt hu halign husr (hfits usrSize rfl) hb hin hroom
  have hbook : (Call.malloc usrSize).book st.held a.ptr = (a.ptr, usrSize) :: st.held := by
    rcases ho with ⟨-, -, hT⟩ | ⟨h0, -⟩
    · exact absurd hT (not_trouble hp.plain)
    · exact if_neg h0
  have hinv := (h.inv.allocated (c := .malloc usrSize) ho rfl rfl).1
  have hstep : Step env depth st (.malloc usrSize) ⟨s', (Call.malloc usrSize).book st.held a.ptr⟩ :=
    ⟨husr, hrun⟩
  rw [hbook] at hinv hstep
  exact ⟨a, B, s', hstep, ⟨hinv, hp⟩, hs, hre⟩

theorem Proc.Idle.malloc {usrSize b room' : ℕ} (h : st.Idle env room) (depth : ℕ) (bt : List ℕ)
    (hu : env.Undisturbed)
    (husr : usrSize < 2 ^ 64) (hfits : (Call.malloc usrSize).Fits env.args)
    (hb : b = classOf env.args (Call.malloc usrSize).alignment usrSize)
    (hroom : Affords st.heap b room room') :
    ∃ a B s', Step env depth st (.malloc usrSize) ⟨s', (a.ptr, usrSize) :: st.held⟩ ∧
      Proc.Idle env room' ⟨s', (a.ptr, usrSize) :: st.held⟩ ∧
      Served env True 0 ∅ st.heap s' bt (Call.malloc usrSize).alignment usrSize a B ∧
      (st.heap.Reuses 0 b → Reused st.heap s' bt (Call.malloc usrSize).alignment usrSize b a) :=
  h.malloc_within depth bt hu.toGranting husr hfits hb (h.claims depth hu hroom) hroom

theorem calloc_emits {ctx : Ctx} {nmemb usrSize b : ℕ} (hctx : ctx.env = env)
    (hu : env.Granting) (hb : b = classOf env.args 8 (nmemb * usrSize % 2 ^ 64))
    (hinit : s.isInit = true) (hnum : (s.bin 0 b).numFree < 2 ^ 63) (hmarked : s.Marked)
    (hin : Unlimited ctx bt b (nmemb * usrSize % 2 ^ 64) s) (hargs : s.grArgs = env.args)
    (hrem : s.Reuses 0 b ∨ refillSize b ≤ s.budget) :
    wp (GuardRails.calloc ctx bt nmemb usrSize) (fun _ s' => Paid b s s' ∧ ∃ evs, Emits evs s s')
      (Unexcused s) s := by
  unfold GuardRails.calloc
  refine wp_bind_of (memalignInt_emits hctx hu hb hinit hnum hmarked hin hargs hrem) ?_
  rintro p s₁ ⟨hpaid, ⟨evs, h₁⟩, -⟩
  refine wp_ite (fun _ => wp_pure ⟨hpaid, evs, h₁⟩) fun _ => ?_
  refine h₁.bind logs_memset fun _ s₂ h₂ hs₂ => wp_pure ⟨?_, _, h₂⟩
  exact hpaid.congr hs₂.budget.symm

/-- A cleared allocation succeeds while the current pool lasts. -/
theorem Proc.Idle.calloc {nmemb usrSize b room' : ℕ} (h : st.Idle env room) (depth : ℕ)
    (bt : List ℕ) (hu : env.Undisturbed) (hfits : (Call.calloc nmemb usrSize).Fits env.args)
    (hb : b = classOf env.args 8 (nmemb * usrSize % 2 ^ 64)) (hroom : Affords st.heap b room room') :
    ∃ p s', (Call.calloc nmemb usrSize).exec (ctxOf env depth) bt st.heap = .ok p s' ∧ p ≠ 0 ∧
      Effect env.args (.calloc nmemb usrSize) p st.heap s' := by
  have hp := h.pristine
  have hctx : (ctxOf env depth).env = env := (ctxOf_ok env depth).env_eq
  have hfit := hfits _ rfl
  obtain ⟨p, s', hrun, ho, hpaid, evs, he⟩ := completes hp.plain
    (calloc_spec (F := True) (G := True) (ctxOf_ok env depth) h.inv.rep h.inv.ready (fun _ => rfl)
      (fun _ => .inl h.inv.setUp) (fun _ => .inl hfit) fun _ _ => hfit.class_lt)
    (calloc_emits hctx hu.toGranting hb h.inv.isInit (h.numFree_lt 0 b) hp.marked (h.claims depth hu hroom) hp.grArgs
      (hroom.enough hp.room))
  have hp' := hp.emits he (hroom.left hp.room hpaid)
  rcases ho with ⟨-, -, hT⟩ | ⟨h0, -⟩
  · exact absurd hT (not_trouble hp'.plain)
  · exact ⟨p, s', hrun, h0, (wp_ok (calloc_exec h.inv) hrun).2⟩

/-! ## Release without the ring -/

/-- Slot and class of a block that went to the free list. -/
theorem freed_bin {i b h : ℕ} {B : Block} {log : List Event}
    (hl : Lawful (freeEvents i b h ++ log)) (hB : (ledger log).block h = some B) :
    B.slot = i ∧ B.bin = b := by
  obtain ⟨⟨⟨-, A, hA, -, hslot, hbin, -⟩, -⟩, -⟩ := hl
  simp [ledger, Ledger.step, Ledger.updBlock, Ledger.updCounted, hB] at hA
  subst hA
  exact ⟨hslot, hbin⟩

theorem freed_list {i b h : ℕ} {log : List Event} :
    (ledger (freeEvents i b h ++ log)).list ⟨.free, i, b⟩ = h :: (ledger log).list ⟨.free, i, b⟩ := by
  simp [freeEvents, ledger, Ledger.step, Ledger.updBlock, Ledger.updCounted, Ledger.updList]

/-- The word below a live pointer leads to its header. -/
theorem Rep.ptrWord {off : Off} {a : Alloc} (hR : Rep env off s) (ha : (ledger s.log).Live a) :
    word s.mem (sub64 a.ptr 8) = a.hdr := by
  obtain ⟨B, hB, -, ho, hp⟩ := hR.log_ok.lawful.sound.live_inUse ha
  have hbd := hR.shape.user_bounds hB (by simp [hp]) ho
  have hlay := hR.shape.layout.block_bounds hB
  have hsub : sub64 a.ptr 8 = a.ptr - 8 := by
    unfold sub64
    omega
  rw [hsub]
  exact ((hR.shape.blocks _ B hB (by simp [hp])).owner a ho).ptrWord

/-- A call that nothing stops. -/
theorem Proc.Idle.exec {c : Call} {R : ℕ → Heap → Prop} (h : st.Idle env room)
    (hok : c.Ok st.held) (hfits : c.Fits env.args)
    (he : wp (c.exec (ctxOf env depth) bt) R (Unexcused st.heap) st.heap) :
    ∃ p s', Step env depth st c ⟨s', c.book st.held p⟩ ∧ Proc.Inv env ⟨s', c.book st.held p⟩ ∧
      Effect env.args c p st.heap s' ∧ R p s' := by
  have hspec : wp (c.exec (ctxOf env depth) bt)
      (fun p s' => Proc.Inv env ⟨s', c.book st.held p⟩ ∧ Effect env.args c p st.heap s')
      (Halted env True (c.Binned env.args)) st.heap :=
    wp_mono (exec_spec h.inv hok) (fun _ _ h => h) fun _ _ hE => hE.weaken (fun _ => hfits) id
  obtain ⟨p, s', hrun, ⟨hinv, heff⟩, hR⟩ := completes h.pristine.plain hspec he
  exact ⟨p, s', ⟨hok, hrun⟩, hinv, heff, hR⟩

theorem Proc.Idle.free {a : Alloc} {B : Block} {n : ℕ} (h : st.Idle env room)
    (hu : env.Granting) (hdelay : env.args.useDelay = false) (hmem : (a.ptr, n) ∈ st.held)
    (ha : (ledger st.heap.log).Live a) (hB : (ledger st.heap.log).block a.hdr = some B) :
    ∃ s', Step env depth st (.free a.ptr) ⟨s', st.held.filter fun e => e.1 ≠ a.ptr⟩ ∧
      Proc.Idle env room ⟨s', st.held.filter fun e => e.1 ≠ a.ptr⟩ ∧
      s'.log = freeEvents B.slot B.bin a.hdr ++ st.heap.log := by
  have hp := h.pristine
  have hctx : (ctxOf env depth).env = env := (ctxOf_ok env depth).env_eq
  have h0 : a.ptr ≠ 0 := by
    obtain ⟨A, hA, -, ho, hpl⟩ := h.inv.rep.log_ok.lawful.sound.live_inUse ha
    have := h.inv.rep.shape.user_bounds hA (by simp [hpl]) ho
    omega
  have hemits : wp ((Call.free a.ptr).exec (ctxOf env depth) []) (fun _ s' =>
      s'.memPools = st.heap.memPools ∧ ∃ i b, Emits (freeEvents i b a.hdr) st.heap s')
      (Unexcused st.heap) st.heap := by
    refine wp_bind_of (free_emits hctx hu (hp.grArgs ▸ hdelay) h0) fun _ _ he => wp_pure ?_
    rwa [h.inv.rep.ptrWord ha] at he
  obtain ⟨p, s', hstep, hinv, -, hpools, i, b, he⟩ :=
    h.exec (c := .free a.ptr) (.inr ⟨n, hmem⟩) nofun hemits
  obtain ⟨rfl, rfl⟩ := freed_bin (he.log ▸ hinv.rep.log_ok.lawful) hB
  exact ⟨s', hstep, ⟨hinv, hp.emits he ((budget_congr hpools).symm ▸ hp.room)⟩, he.log⟩

/-- A release completes with the ring as well. -/
theorem Proc.Idle.release {p n : ℕ} (h : st.Idle env room) (depth : ℕ) (hu : env.Granting)
    (hmem : (p, n) ∈ st.held) :
    ∃ s', Step env depth st (.free p) ⟨s', st.held.filter fun e => e.1 ≠ p⟩ ∧
      Proc.Idle env room ⟨s', st.held.filter fun e => e.1 ≠ p⟩ := by
  obtain ⟨a, rfl, -, ha⟩ := h.inv.holds hmem
  have hemits : wp ((Call.free a.ptr).exec (ctxOf env depth) []) (fun _ s' =>
      s'.memPools = st.heap.memPools ∧ ∃ evs, Emits evs st.heap s') (Unexcused st.heap) st.heap :=
    wp_bind_of (free_plain (ctxOf_ok env depth).env_eq hu (h.inv.rep.ptr_ne_zero ha))
      fun _ _ he => wp_pure he
  obtain ⟨p, s', hstep, hinv, -, hpools, evs, he⟩ := h.exec (c := .free a.ptr) (.inr ⟨n, hmem⟩) nofun hemits
  exact ⟨s', hstep, hinv, h.pristine.emits he ((budget_congr hpools).symm ▸ h.pristine.room)⟩

theorem realloc_emits {ctx : Ctx} {origBuf newUsrSize b : ℕ} (hctx : ctx.env = env)
    (hu : env.Granting) (hb : b = classOf env.args 8 newUsrSize)
    (hinit : s.isInit = true) (hnum : (s.bin 0 b).numFree < 2 ^ 63) (hmarked : s.Marked)
    (hin : Unlimited ctx bt b newUsrSize s)
    (hargs : s.grArgs = env.args) (hdelay : env.args.useDelay = false)
    (hrem : s.Reuses 0 b ∨ refillSize b ≤ s.budget) :
    wp (GuardRails.realloc ctx bt origBuf newUsrSize) (fun _ s' => ∃ evs, Emits evs s s')
      (Unexcused s) s := by
  unfold GuardRails.realloc
  refine wp_bind_of (memalignInt_emits hctx hu hb hinit hnum hmarked hin hargs hrem) ?_
  rintro p s₁ ⟨-, ⟨evs, h₁⟩, -⟩
  refine wp_ite (fun _ => wp_pure ⟨evs, h₁⟩) fun hne => ?_
  refine h₁.bind logs_load64 fun hdr s₂ h₂ _ => h₂.bind logs_ldField fun size s₃ h₃ _ =>
    h₃.bind logs_memcpy fun _ s₄ h₄ _ => ?_
  have hfree : wp (free ctx bt origBuf) _ _ s₄ :=
    free_emits hctx hu (h₄.grArgs.trans hargs ▸ hdelay) fun h => hne (.inl h)
  refine wp_bind (wp_mono hfree ?_ fun _ _ hE => h₄.unexcused hE)
  rintro _ s₅ ⟨-, i, j, h₅⟩
  exact wp_pure ⟨_, h₄.trans h₅⟩

/-- A reallocation succeeds while the current pool lasts. -/
theorem Proc.Idle.realloc {newUsrSize b room' : ℕ} {a : Alloc} (h : st.Idle env room)
    (depth : ℕ) (bt : List ℕ) (hu : env.Undisturbed) (hdelay : env.args.useDelay = false)
    (hm : newUsrSize < 2 ^ 64) (ha : (ledger st.heap.log).Live a)
    (hfits : (Call.realloc a.ptr newUsrSize).Fits env.args)
    (hb : b = classOf env.args 8 newUsrSize) (hroom : Affords st.heap b room room') :
    ∃ p s', (Call.realloc a.ptr newUsrSize).exec (ctxOf env depth) bt st.heap = .ok p s' ∧
      p ≠ 0 := by
  have hp := h.pristine
  have hctx : (ctxOf env depth).env = env := (ctxOf_ok env depth).env_eq
  have hfit := hfits _ rfl
  have hemits : wp (GuardRails.realloc (ctxOf env depth) bt a.ptr newUsrSize) _ _ st.heap :=
    realloc_emits hctx hu.toGranting hb h.inv.isInit (h.numFree_lt 0 b) hp.marked (h.claims depth hu hroom) hp.grArgs hdelay
      (hroom.enough hp.room)
  obtain ⟨p, s', hrun, ho, evs, he⟩ := completes hp.plain
    (realloc_spec (F := True) (G := True) (ctxOf_ok env depth) h.inv.rep h.inv.ready (fun _ => rfl)
      (fun _ => .inl h.inv.setUp) hm (fun _ => .inl hfit) (fun _ _ => hfit.class_lt) ha) hemits
  have hplain : ∀ e ∈ s'.log, e.Plain := by
    rw [he.log]
    exact fun e hmem => (List.mem_append.1 hmem).elim (he.plain e) (hp.plain e)
  rcases ho with ⟨-, -, hT⟩ | ⟨h0, -⟩
  · exact absurd hT (not_trouble hplain)
  · exact ⟨p, s', hrun, h0⟩

/-! ## A run with the options of an empty argument file -/

theorem Reachable.step {st st' : Proc} {c : Call} (hr : Reachable env depth st)
    (hstep : Step env depth st c st') : Reachable env depth st' := by
  obtain ⟨s, cs, hb, hrun⟩ := hr
  exact ⟨s, cs ++ [c], hb, hrun.tail hstep⟩

/-- What `parseArgs` finds in an empty argument file. -/
def GRArgs.defaults : GRArgs where
  maxTrackFrames := 0
  maxTrackFreeFrames := 0
  numSlots := 1
  maxMemPct := 0
  slotHWMDumpIntervalBytes := 2 ^ 64 - 1
  maxRequestedBytes := 2 ^ 64 - 1
  poisonVal := 0
  useDelay := false
  verbose := false
  poison := false
  abortOnOOM := false
  abortOnNull := false

/-- A system that grants what fits its last 4 GiB, without signals and with a stdio that
allocates nothing. -/
def Env.still (args : GRArgs) : Env where
  args := args
  racySlotRr := fun _ => 0
  mmap := fun _ => some topRegion
  mlock := fun _ => true
  mprotect := fun _ => true
  rlimAs := fun _ => 0
  fileIO := fun _ => []
  fmtIO := fun _ => []
  sigusr2 := fun _ _ => false

theorem Env.still_ok {args : GRArgs} (hargs : args.Ok) : (Env.still args).Ok where
  args := hargs
  stdio _ _ h := absurd h List.not_mem_nil
  signals _ _ _ := rfl

theorem GRArgs.defaults_ok : GRArgs.defaults.Ok := ⟨by decide, by decide, by decide⟩

theorem Env.still_granting {args : GRArgs} (hslots : args.numSlots = 1) :
    (Env.still args).Granting where
  calm _ _ := rfl
  mmap _ := rfl
  mlock _ := rfl
  mprotect _ := rfl
  numSlots := hslots

theorem Env.still_unlimited {args : GRArgs} (hslots : args.numSlots = 1)
    (hinterval : args.slotHWMDumpIntervalBytes = 2 ^ 64 - 1)
    (hlimit : args.maxRequestedBytes = 2 ^ 64 - 1) : (Env.still args).Undisturbed where
  toGranting := Env.still_granting hslots
  interval := hinterval
  limit := hlimit

theorem Env.still_undisturbed : (Env.still .defaults).Undisturbed :=
  Env.still_unlimited rfl rfl rfl

/-- What `parseArgs` finds in the line `-t n -T k`. -/
def GRArgs.tracing (n k : ℕ) : GRArgs :=
  { GRArgs.defaults with maxTrackFrames := n, maxTrackFreeFrames := k }

theorem GRArgs.tracing_ok {n k : ℕ} (hn : n < 2 ^ 31) (hk : k < 2 ^ 31) : (GRArgs.tracing n k).Ok :=
  ⟨GRArgs.defaults_ok.numSlots_lt, hn, hk⟩

theorem Env.still_undisturbed_tracing (n k : ℕ) : (Env.still (.tracing n k)).Undisturbed :=
  Env.still_unlimited rfl rfl rfl

def GRArgs.delaying : GRArgs := { GRArgs.defaults with useDelay := true }

theorem GRArgs.delaying_ok : GRArgs.delaying.Ok :=
  ⟨GRArgs.defaults_ok.numSlots_lt, by decide, by decide⟩

theorem Env.still_undisturbed_delaying : (Env.still .delaying).Undisturbed :=
  Env.still_unlimited rfl rfl rfl

theorem fits_still {args : GRArgs} {usrSize : ℕ} (hu : (Env.still args).Undisturbed)
    (hsize : elmHdrSz args + 8 + usrSize + 16 ≤ 2 ^ 39) : (Call.malloc usrSize).Fits args := by
  have hslots : 0 < args.numSlots := by
    rw [show args.numSlots = 1 from hu.numSlots]
    decide
  rintro n hn
  obtain rfl := Option.some.inj hn
  refine ⟨hslots, le_trans ?_ hsize⟩
  change _ + (if (if usrSize > 8 then 16 else 8) > 1 then
    (if usrSize > 8 then 16 else 8) else 0) ≤ _
  split <;> split <;> omega

/-- A first allocation, with any options that set no limit. -/
theorem exists_served_with {args : GRArgs} (hargs : args.Ok) (hu : (Env.still args).Undisturbed)
    (depth usrSize : ℕ) {b : ℕ} (hsize : elmHdrSz args + 8 + usrSize + 16 ≤ 2 ^ 39)
    (hb : b = classOf args (Call.malloc usrSize).alignment usrSize)
    (hroom : refillSize b ≤ slotInitSize) :
    ∃ st a B, Reachable (Env.still args) depth st ∧
      Proc.Idle (Env.still args) (slotInitSize - refillSize b) st ∧
      st.held = [(a.ptr, usrSize)] ∧ (ledger st.heap.log).Live a ∧
      (ledger st.heap.log).block a.hdr = some B ∧ B.live = true ∧ B.owner = some a ∧
      a.size = usrSize ∧ B.size = 2 ^ b := by
  obtain ⟨st₀, hr₀, hi₀, hh₀⟩ :=
    Proc.Idle.reachable (Env.still_ok hargs) hu.toGranting depth
  have hroom : Affords st₀.heap b slotInitSize (slotInitSize - refillSize b) := .inr (by omega)
  obtain ⟨a, B, s', hstep, hidle, hs, -⟩ :=
    hi₀.malloc depth [] hu (by omega) (fits_still hu hsize) hb hroom
  refine ⟨_, a, B, hr₀.step hstep, hidle, by rw [hh₀], hs.isLive, hs.block,
    hs.live, hs.owner, hs.size_eq, ?_⟩
  rw [hs.bin, hb]
  rfl

/-- Two allocations of the same size. -/
theorem exists_pair {args : GRArgs} (hargs : args.Ok) (hu : (Env.still args).Undisturbed)
    (depth usrSize : ℕ) {b : ℕ} (hsize : elmHdrSz args + 8 + usrSize + 16 ≤ 2 ^ 39)
    (hb : b = classOf args (Call.malloc usrSize).alignment usrSize)
    (hroom : 2 * refillSize b ≤ slotInitSize) :
    ∃ st p q, Reachable (Env.still args) depth st ∧
      Proc.Idle (Env.still args) (slotInitSize - 2 * refillSize b) st ∧
      st.held = [(q, usrSize), (p, usrSize)] ∧ p ≠ q := by
  obtain ⟨st, a, -, hr, hidle, hheld, -⟩ := exists_served_with hargs hu depth usrSize hsize hb
    (by omega)
  have hroom' : Affords st.heap b (slotInitSize - refillSize b) (slotInitSize - 2 * refillSize b) :=
    .inr (by omega)
  obtain ⟨c, -, s', hstep, hidle', -⟩ := hidle.malloc depth [] hu (by omega)
    (fits_still hu hsize) hb hroom'
  rw [hheld] at hstep hidle'
  refine ⟨_, a.ptr, c.ptr, hr.step hstep, hidle', rfl, fun heq => ?_⟩
  have hnodup := hidle'.inv.nodup
  simp [heq] at hnodup

/-- Two allocations of the same size, and the release of the first. -/
theorem exists_released {args : GRArgs} (hargs : args.Ok) (hu : (Env.still args).Undisturbed)
    (depth usrSize : ℕ) {b : ℕ} (hsize : elmHdrSz args + 8 + usrSize + 16 ≤ 2 ^ 39)
    (hb : b = classOf args (Call.malloc usrSize).alignment usrSize)
    (hroom : 2 * refillSize b ≤ slotInitSize) :
    ∃ st st' p q, Reachable (Env.still args) depth st ∧
      st.held = [(q, usrSize), (p, usrSize)] ∧ Step (Env.still args) depth st (.free p) st' := by
  obtain ⟨st, p, q, hr, hidle, hheld, -⟩ := exists_pair hargs hu depth usrSize hsize hb hroom
  have hp : (p, usrSize) ∈ st.held := by simp [hheld]
  obtain ⟨s', hstep, -⟩ := hidle.release depth hu.toGranting hp
  exact ⟨st, _, p, q, hr, hheld, hstep⟩

/-- A first allocation with the default options. -/
theorem exists_served (depth usrSize : ℕ) {b : ℕ} (hsize : 64 + 8 + usrSize + 16 ≤ 2 ^ 39)
    (hb : b = classOf .defaults (Call.malloc usrSize).alignment usrSize)
    (hroom : refillSize b ≤ slotInitSize) :
    ∃ st a B, Reachable (Env.still .defaults) depth st ∧
      Proc.Idle (Env.still .defaults) (slotInitSize - refillSize b) st ∧
      st.held = [(a.ptr, usrSize)] ∧ (ledger st.heap.log).Live a ∧
      (ledger st.heap.log).block a.hdr = some B ∧ B.live = true ∧ B.owner = some a ∧
      a.size = usrSize ∧ B.size = 2 ^ b :=
  exists_served_with GRArgs.defaults_ok Env.still_undisturbed depth usrSize hsize hb hroom

/-- A first cleared allocation. -/
theorem exists_calloc (nmemb usrSize : ℕ) (hn : nmemb < 2 ^ 64) (husr : usrSize < 2 ^ 64)
    (hsize : 64 + 8 + nmemb * usrSize % 2 ^ 64 + 8 ≤ 2 ^ 39)
    (hroom : refillSize (classOf .defaults 8 (nmemb * usrSize % 2 ^ 64)) ≤ slotInitSize) :
    ∃ st p s', Reachable (Env.still .defaults) 1 st ∧ (Call.calloc nmemb usrSize).Ok st.held ∧
      (Call.calloc nmemb usrSize).exec (ctxOf (Env.still .defaults) 1) [] st.heap = .ok p s' ∧
      p ≠ 0 ∧ Proc.Inv (Env.still .defaults) ⟨s', (Call.calloc nmemb usrSize).book st.held p⟩ ∧
      Effect .defaults (.calloc nmemb usrSize) p st.heap s' := by
  have henv := Env.still_ok GRArgs.defaults_ok
  obtain ⟨st, hr, hidle, -⟩ := Proc.Idle.reachable henv Env.still_undisturbed.toGranting 1
  have hfits : (Call.calloc nmemb usrSize).Fits GRArgs.defaults := by
    rintro n hn
    obtain rfl := Option.some.inj hn
    refine ⟨by decide, ?_⟩
    rw [elmHdrSz_eq GRArgs.defaults_ok]
    exact hsize
  have hroom' : Affords st.heap (classOf GRArgs.defaults 8 (nmemb * usrSize % 2 ^ 64))
      slotInitSize 0 := .inr (by omega)
  obtain ⟨p, s', hrun, hp, -⟩ := hidle.calloc 1 [] Env.still_undisturbed hfits rfl hroom'
  have hok : (Call.calloc nmemb usrSize).Ok st.held := ⟨hn, husr⟩
  obtain ⟨hinv, heff⟩ := wp_ok (exec_spec (hr.inv henv) hok) hrun
  exact ⟨st, p, s', hr, hok, hrun, hp, hinv, heff⟩

end GuardRails
