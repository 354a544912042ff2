import GuardRails.Spec.Complete

/-!
# An allocation before the constructor

The call that initialises the library computes its padded size before the options are read,
with a header that has no traces. When the class is the same with them, the call does what
the constructor and the same call after it do. When it is not, its block is too small.
-/

namespace GuardRails

open ByteMemory StateHoare

variable {env : Env} {s s' : Heap} {ctx : Ctx} {bt : List ℕ} {alignment usrSize allocSize p : ℕ}
  {depth : ℕ} {st : Proc} {c : Call} {first? : Option Call}

/-- The traces make no difference to the class of the request. -/
def Foreseen (args : GRArgs) (alignment usrSize : ℕ) : Prop :=
  classOf Heap.static.grArgs alignment usrSize = classOf args alignment usrSize

instance (args : GRArgs) (alignment usrSize : ℕ) : Decidable (Foreseen args alignment usrSize) := by
  unfold Foreseen
  infer_instance

def Call.Foreseen (args : GRArgs) (c : Call) : Prop :=
  ∀ n, c.size? = some n → GuardRails.Foreseen args c.alignment n

/-- `memalignInt` once the padded size is computed and the library is initialised. -/
def serveBuf (ctx : Ctx) (bt : List ℕ) (allocSize alignment usrSize : ℕ) : M ℕ := do
  let (buf, endBuf) ← getBuf ctx bt allocSize usrSize
  if buf = 0 then
    if (← get).grArgs.abortOnNull && decide (usrSize > 0) then
      throw (.abort (.guardRails 620))
    pure 0
  else
    fillBlock bt alignment usrSize buf endBuf

theorem memalignInt_serveBuf (h : s.isInit = true) :
    memalignInt ctx bt alignment usrSize s =
      serveBuf ctx bt (allocSizeOf s.grArgs alignment usrSize) alignment usrSize s := by
  change (if s.isInit = false then _ else _ : M ℕ) s = _
  rw [if_neg (by simp [h])]
  rfl

theorem memalignInt_early (h : s.isInit = false) :
    memalignInt ctx bt alignment usrSize s =
      (grInitialize ctx >>= fun _ =>
        serveBuf ctx bt (allocSizeOf s.grArgs alignment usrSize) alignment usrSize) s := by
  change (if s.isInit = false then _ else _ : M ℕ) s = _
  rw [if_pos h]
  rfl

/-- Only the class of the padded size matters. -/
theorem serveBuf_congr {n : ℕ}
    (h : log2fast (max pageSize allocSize) = log2fast (max pageSize n)) :
    serveBuf ctx bt allocSize alignment usrSize = serveBuf ctx bt n alignment usrSize := by
  unfold serveBuf getBuf
  simp only [h]

/-! ## The first call, foreseen -/

theorem boot_calm (depth : ℕ) (hcalm : env.unsignalled = env) :
    boot env depth = grInitialize (ctxOf env depth) := by
  rw [boot, hcalm]

theorem memalignInt_static (henv : env.Ok) (hcalm : env.unsignalled = env)
    (hf : Foreseen env.args alignment usrSize) :
    memalignInt (ctxOf env depth) bt alignment usrSize Heap.static =
      (boot env depth >>= fun _ => memalignInt (ctxOf env depth) bt alignment usrSize)
        Heap.static := by
  rw [memalignInt_early rfl, ← boot_calm _ hcalm]
  refine run_bind_of_ok fun _ s h => ?_
  have hinv := boot_inv henv h
  rw [memalignInt_serveBuf hinv.isInit, hinv.rep.shape.args_eq, serveBuf_congr hf]

/-- A call that finds the library not initialised, and calls `initialize`, or refuses the
alignment before it would. -/
theorem Call.exec_static (depth : ℕ) (bt : List ℕ) (henv : env.Ok)
    (hcalm : env.unsignalled = env) (hok : c.Ok []) (hsize : c.size? ≠ none) (hf : c.Foreseen env.args) :
    c.exec (ctxOf env depth) bt Heap.static =
        (boot env depth >>= fun _ => c.exec (ctxOf env depth) bt) Heap.static ∨
      c.exec (ctxOf env depth) bt Heap.static = .ok 0 Heap.static := by
  cases c with
  | malloc usrSize => exact .inl (memalignInt_static henv hcalm (hf _ rfl))
  | memalign alignment usrSize => exact .inl (memalignInt_static henv hcalm (hf _ rfl))
  | calloc nmemb usrSize =>
      refine .inl ((run_bind_congr (memalignInt_static henv hcalm (hf _ rfl))).trans ?_)
      rw [bind_assoc]
      rfl
  | realloc origBuf newUsrSize =>
      refine .inl ((run_bind_congr (memalignInt_static henv hcalm (hf _ rfl))).trans ?_)
      rw [bind_assoc]
      rfl
  | posixMemalign alignment usrSize =>
      by_cases hal : isPow2 alignment = false ∨ alignment % 8 ≠ 0
      · refine .inr ?_
        rw [Call.exec, GuardRails.posixMemalign, if_pos hal]
        rfl
      · refine .inl ?_
        rw [Call.exec, GuardRails.posixMemalign, if_neg hal, bind_assoc]
        refine (run_bind_congr (memalignInt_static henv hcalm (hf _ rfl))).trans ?_
        rw [bind_assoc]
        rfl
  | free ptr => exact absurd rfl hsize
  | load ptr off n => exact absurd rfl hsize
  | store ptr off bytes => exact absurd rfl hsize
  | onExit => exact absurd rfl hsize

theorem Run.reachable {st' : Proc} {cs : List Call} (hrun : Run env depth st cs st')
    (hr : Reachable env depth st) : Reachable env depth st' := by
  induction hrun with
  | refl => exact hr
  | tail _ hstep ih => exact ih.step hstep

theorem Reachable.launched (hr : Reachable env depth st) : Launched env depth none st := by
  obtain ⟨s, cs, hboot, hrun⟩ := hr
  exact ⟨_, cs, .loaded hboot, hrun⟩

/-- A run whose first call is foreseen is one that the constructor begins. -/
theorem Launched.reachable (henv : env.Ok) (h : Launched env depth first? st)
    (hf : ∀ c ∈ first?, c.Foreseen env.args) : Reachable env depth st := by
  obtain ⟨st₀, cs, hstart, hrun⟩ := h
  cases hstart with
  | loaded hboot => exact ⟨_, cs, hboot, hrun⟩
  | early hcalm hok hsize hexec hinit =>
      rcases Call.exec_static depth _ henv hcalm hok hsize (hf _ rfl) with h | h
      · obtain ⟨_, s, hboot, hexec⟩ := run_bind_eq_ok (h.symm.trans hexec)
        have hr : Reachable env depth ⟨s, []⟩ := ⟨s, [], hboot, .refl⟩
        exact hrun.reachable (hr.step ⟨hok, hexec⟩)
      · obtain ⟨-, rfl⟩ := EStateM.Result.ok.inj (h.symm.trans hexec)
        cases hinit

/-! ## The first call, not foreseen -/

/-- What the header, the header pointer and the user data of the first request take up. -/
def earlySize (alignment usrSize : ℕ) : ℕ :=
  72 + usrSize + if alignment > 1 then alignment else 0

theorem allocSizeOf_static (h : earlySize alignment usrSize < 2 ^ 64) :
    allocSizeOf Heap.static.grArgs alignment usrSize = earlySize alignment usrSize :=
  Nat.mod_eq_of_lt h

theorem earlySize_le (h : earlySize alignment usrSize < 2 ^ 64) :
    earlySize alignment usrSize ≤ 2 ^ classOf Heap.static.grArgs alignment usrSize := by
  rw [classOf, allocSizeOf_static h]
  exact (le_max_right _ _).trans (le_pow_log2fast (max_lt (by decide) h))

/-- The block that the first request is to be filled into. -/
structure Cramped (env : Env) (s : Heap) (hdr b : ℕ) (B : Block) : Prop where
  rep : Rep env 0 s
  block : (ledger s.log).block hdr = some B
  place : B.place = .on .inUse
  live : B.live = false
  size : B.size = 2 ^ b

/-- Where the user data of the first request goes. -/
theorem Cramped.room {hdr b mis : ℕ} {B : Block} (h : Cramped env s hdr b B)
    (hfit : earlySize alignment usrSize ≤ 2 ^ b)
    (htrace : 64 + 8 * env.args.maxTrackFrames ≤ 2 ^ b)
    (hmis : mis = if alignment > 1 then (hdr + 2 ^ b - usrSize) % alignment else 0) :
    Room env.args hdr (hdr + 2 ^ b - usrSize - mis) usrSize mis (2 ^ b) := by
  have hh := h.rep.shape.layout.block_bounds h.block
  have hmis_le : mis ≤ if alignment > 1 then alignment else 0 := by
    rw [hmis]
    split
    · exact (Nat.mod_lt _ (by omega)).le
    · exact le_rfl
  rw [h.size] at hh
  unfold earlySize at hfit
  exact
    { aligned := hh.2.1
      trace := htrace
      above := by omega
      fits := by omega
      bound := by omega }

/-- A first request whose trace fits gets the user data at the end of the smaller block. -/
theorem Cramped.fill {hdr b : ℕ} {B : Block} {E : Halt → Heap → Prop} (bt : List ℕ)
    (alignment usrSize : ℕ) (h : Cramped env s hdr b B)
    (hfit : earlySize alignment usrSize ≤ 2 ^ b)
    (htrace : 64 + 8 * env.args.maxTrackFrames ≤ 2 ^ b) :
    wp (fillBlock bt alignment usrSize hdr (hdr + 2 ^ b))
      (fun p s' => p = hdr + 2 ^ b - usrSize -
          (if alignment > 1 then (hdr + 2 ^ b - usrSize) % alignment else 0) ∧
        word s'.mem (p - 8) = hdr ∧ fld s'.mem hdr .binNum = fld s.mem hdr .binNum ∧
        ∃ a, s'.log = .filled a :: s.log) E s := by
  have hS := h.rep.shape
  have hroom := h.room hfit htrace rfl
  have hmagic : fld s.mem hdr .magic = magicFree := by
    rw [(hS.blocks _ B h.block (by simp [h.place])).magic, h.live]
    rfl
  have hacc : Accessible s.pages hdr (2 ^ b) :=
    h.size ▸ hS.pages.opened _ B h.block (by simp [h.place])
  refine wp_fillBlock hS.env_ok.args hS.args_eq hroom rfl hacc hmagic ⟨rfl, ?_, ?_, _, rfl⟩
  · exact word_fillMem_ptr hroom
  · exact (fld_fillMem hroom _).trans (by simp)

/-- A trace that does not fit runs into the guard page. -/
theorem Cramped.faults {hdr b : ℕ} {B : Block} (h : Cramped env s hdr b B)
    (htrace : 2 ^ b < 64 + 8 * env.args.maxTrackFrames) :
    wp (fillBlock bt alignment usrSize hdr (hdr + 2 ^ b)) (fun _ _ => False)
      (fun e s' => e = .fault (hdr + allocBtOff) ∧ s' = s) s := by
  have hS := h.rep.shape
  refine fillBlock_faults (hS.args_eq ▸ hS.env_ok.args) fun hacc => ?_
  rw [hS.args_eq, hS.trace_open_iff h.block (by simp [h.place]), h.size] at hacc
  omega

theorem Cramped.binNum {hdr b : ℕ} {B : Block} (h : Cramped env s hdr b B) :
    fld s.mem hdr .binNum = b := by
  have hraw : B.place ≠ .raw := by simp [h.place]
  have hsize := (h.rep.log_ok.lawful.sound.block_ok _ B h.block).size_eq hraw
  rw [(h.rep.shape.blocks _ B h.block hraw).binNum]
  exact Nat.pow_right_injective le_rfl (hsize.symm.trans h.size)

/-- What the first request returns is what `fillBlock` returns for its block. -/
theorem Proc.Inv.serveBuf {b : ℕ} {R : ℕ → Heap → Prop} (hst : st.Inv env)
    (halloc : allocSize < 2 ^ 64) (hb : b = log2fast (max pageSize allocSize))
    (hfill : ∀ s hdr B, Cramped env s hdr b B →
      wp (fillBlock bt alignment usrSize hdr (hdr + 2 ^ b)) R (fun _ _ => True) s) :
    wp (serveBuf (ctxOf env depth) bt allocSize alignment usrSize) (fun p s' => p ≠ 0 → R p s')
      (fun _ _ => True) st.heap := by
  have hget : wp (GuardRails.getBuf (ctxOf env depth) bt allocSize usrSize) _ _ st.heap :=
    getBuf_spec (F := False) (G := False) (ctxOf_ok env depth) hst.rep hst.ready (fun _ => rfl)
      nofun halloc nofun nofun nofun nofun fun _ => nofun
  rw [← hb] at hget
  refine wp_bind (wp_mono hget ?_ fun _ _ _ => trivial)
  rintro ⟨buf, endBuf⟩ s₁ ht
  refine wp_ite (fun h0 => ?_) fun h0 => ?_
  · refine wp_bind (wp_get (wp_ite (fun _ => wp_throw trivial) fun _ => wp_pure nofun))
  · cases ht with
    | none h => exact absurd h h0
    | some B hend hc hnew hB hp hlive hreq hsize hfit =>
        obtain rfl : endBuf = buf + 2 ^ b := hend
        exact wp_mono (hfill s₁ buf B ⟨hc.rep, hB, hp, hlive, hsize⟩) (fun _ _ h _ => h)
          fun _ _ _ => trivial

/-- In an undisturbed run the first request gets a block. -/
theorem Proc.Idle.getBuf {room b room' : ℕ} (h : st.Idle env room) (depth : ℕ) (bt : List ℕ)
    (hu : env.Undisturbed) (hb : b = log2fast (max pageSize allocSize)) (halloc : allocSize < 2 ^ 64)
    (hb40 : b < 40) (hfit : log2fast usrSize < 40) (hroom : Affords st.heap b room room') :
    ∃ hdr B s', GuardRails.getBuf (ctxOf env depth) bt allocSize usrSize st.heap =
        .ok (hdr, hdr + 2 ^ b) s' ∧ hdr ≠ 0 ∧ Cramped env s' hdr b B ∧ ∀ e ∈ s'.log, e.Plain := by
  have hp := h.pristine
  have hctx : (ctxOf env depth).env = env := (ctxOf_ok env depth).env_eq
  have hslots : 0 < env.args.numSlots := by
    rw [hu.numSlots]
    decide
  have hb12 : 12 ≤ b := hb ▸ le_log2fast_page (max_lt (by decide) halloc) (le_max_left _ _)
  have hin : Unlimited (ctxOf env depth) bt b usrSize st.heap := h.claims depth hu hroom
  have hemits : wp (claimBuf (ctxOf env depth) bt b usrSize) _ _ st.heap :=
    claimBuf_emits hctx hu.toGranting (h.numFree_lt 0 b) hp.marked hp.grArgs (hroom.enough hp.room)
  have hclaim : wp (claimBuf (ctxOf env depth) bt b usrSize) _ (Halted env True True) st.heap :=
    claimBuf_spec (ctxOf_ok env depth) h.inv.rep h.inv.ready (fun _ => rfl) hb12
      (fun _ => .inl hslots) (fun _ => .inl hb40) (fun _ => .inl hfit) fun _ _ => hb40
  have hget : wp (GuardRails.getBuf (ctxOf env depth) bt allocSize usrSize)
      (fun p s' => Taken env True 0 st.heap s' ⟨p.1, usrSize, bt⟩ (2 ^ b) p)
      (Halted env True True) st.heap := by
    refine getBuf_of_claim (R := fun r s' => r.1 = 0 ∧ (r.2 ≠ none → s'.Within 0))
      (ctxOf_ok env depth) hb ?_ ?_
    · refine wp_run (fun r s' hm => ?_) fun e s' hm => wp_error hclaim hm
      have hsec := wp_ok hclaim hm
      have hwithin := wp_ok hin hm
      exact ⟨hsec, (wp_ok hemits hm).1, hwithin⟩
    · rintro i hdr B s₁ s₂ s' hl hc hB hpl hbb ⟨rfl, hw⟩
      refine wp_mono (limitDumps_within hctx (hu.calm.calmFrom 0) (Nat.zero_le _) (hw nofun)) ?_ fun _ _ hE => hE
      rintro _ _ rfl
      exact ⟨hc, hB⟩
  obtain ⟨⟨hdr, e⟩, s', hrun, ht, -, hsome⟩ := completes hp.plain hget
    (getBuf_emits hctx hu.toGranting hb (h.numFree_lt 0 b) hp.marked hin hp.grArgs
      (hroom.enough hp.room))
  have hplain : ∀ e ∈ s'.log, e.Plain := by
    obtain ⟨evs, he⟩ : ∃ evs, Emits evs st.heap s' := by
      rcases hsome with ⟨-, -, h⟩ | ⟨-, evs, h, -⟩
      · exact h
      · exact ⟨_, h⟩
    rw [he.log]
    exact fun e hmem => (List.mem_append.1 hmem).elim (he.plain e) (hp.plain e)
  cases ht with
  | none _ _ hT => exact absurd hT (not_trouble hplain)
  | some B hend hc hnew hB hpl hlive hreq hsize hfit =>
      obtain rfl : e = hdr + 2 ^ b := hend
      have h0 := (hc.rep.shape.layout.block_bounds hB).1.ne'
      exact ⟨hdr, B, s', hrun, h0, ⟨hc.rep, hB, hpl, hlive, hsize⟩, hplain⟩

/-- A first request, before the constructor and with options that set no limit, is filled into a
block of the class that it has without traces. -/
theorem exists_early {args : GRArgs} (alignment usrSize : ℕ) (hargs : args.Ok) (hu : (Env.still args).Undisturbed)
    (depth : ℕ) (bt : List ℕ) {b : ℕ} (hb : b = classOf Heap.static.grArgs alignment usrSize)
    (hb40 : b < 40) (hfit : log2fast usrSize < 40) (hroom : refillSize b ≤ slotInitSize) :
    ∃ hdr B s, Cramped (Env.still args) s hdr b B ∧ hdr ≠ 0 ∧ (∀ e ∈ s.log, e.Plain) ∧
      memalignInt (ctxOf (Env.still args) depth) bt alignment usrSize Heap.static =
        fillBlock bt alignment usrSize hdr (hdr + 2 ^ b) s := by
  obtain ⟨s₀, hboot, hidle⟩ := boot_completes (Env.still_ok hargs) hu.toGranting depth
  obtain ⟨hdr, B, s, hget, h0, hc, hplain⟩ := hidle.getBuf depth bt hu hb
    (Nat.mod_lt _ (by norm_num)) hb40 hfit (.inr (show 0 + _ ≤ _ by omega))
  refine ⟨hdr, B, s, hc, h0, hplain, ?_⟩
  rw [memalignInt_early rfl]
  refine run_bind ((congrFun (boot_calm depth rfl) _).symm.trans hboot) (run_bind hget ?_)
  dsimp only
  rw [if_neg h0]

end GuardRails
