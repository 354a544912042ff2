import GuardRails.Spec.Boot

/-!
# Calls and runs

Between two calls of a well-behaved client the heap satisfies the representation invariant,
no block is on its way, and the client's books agree with the ledger. A call leaves the
other allocations as they are.
-/

namespace GuardRails

open ByteMemory StateHoare

variable {env : Env} {off : Off} {s s' s₀ : Heap} {X : Set ℕ} {F G : Prop} {depth : ℕ} {a a₀ : Alloc}
  {st st' : Proc} {c : Call} {bt : List ℕ} {p : ℕ} {held : Books}

structure Proc.Inv (env : Env) (st : Proc) : Prop where
  rep : Rep env 0 st.heap
  isInit : st.heap.isInit = true
  gMutex : st.heap.gMutex.locked = false
  settled : ∀ h, SettledAt st.heap h
  held : ∀ e ∈ st.held, ∃ a : Alloc, a.ptr = e.1 ∧ a.size = e.2 ∧ (ledger st.heap.log).Live a
  nodup : (st.held.map Prod.fst).Nodup

/-- The slots and the bins are large enough for what the call asks for. -/
def Call.Fits (args : GRArgs) (c : Call) : Prop :=
  ∀ n, c.size? = some n → GuardRails.Fits args c.alignment n

theorem Call.Fits.of_size {args : GRArgs} {c : Call} {n : ℕ} (hn : c.size? = some n)
    (h : GuardRails.Fits args c.alignment n) : c.Fits args := by
  intro m hm
  obtain rfl := Option.some.inj (hn.symm.trans hm)
  exact h

def Call.Binned (args : GRArgs) (c : Call) : Prop :=
  ∀ n, c.size? = some n → classOf args c.alignment n < maxAllocPower

def Call.Filled (args : GRArgs) (s s' : Heap) (a : Alloc) : Call → Prop
  | calloc _ _ => ∀ i < a.size, s'.mem (a.ptr + i) = 0
  | realloc origBuf _ => (origBuf = 0 → Poisoned args s'.mem a) ∧
      ∀ a₀ : Alloc, (ledger s.log).Live a₀ → a₀.ptr = origBuf → Moved args s s' a₀ a
  | _ => Poisoned args s'.mem a

/-- Where the user data lies in its block: as close to the end as the alignment allows. -/
structure Placed (args : GRArgs) (alignment : ℕ) (a : Alloc) (B : Block) : Prop where
  bin : B.size = 2 ^ classOf args alignment a.size
  misalignment : a.misalignment = if alignment > 1 then (a.hdr + B.size - a.size) % alignment else 0
  unwrapped : elmHdrSz args + 8 + a.size + (if alignment > 1 then alignment else 0) < 2 ^ 64

theorem Served.placed {alignment usrSize : ℕ} {B : Block}
    (hs : Served env F off X s₀ s bt alignment usrSize a B) : Placed env.args alignment a B := by
  have hsize := hs.size_eq
  refine ⟨?_, ?_, ?_⟩
  · rw [hsize]
    exact hs.bin
  · rw [hsize]
    exact hs.misalignment
  · rw [hsize]
    exact hs.unwrapped

structure Effect (args : GRArgs) (c : Call) (p : ℕ) (s s' : Heap) : Prop where
  log : Extends s.log s'.log
  others : ∀ a : Alloc, (ledger s.log).Live a → c.target? ≠ some a.ptr →
    (ledger s'.log).Live a ∧ ∀ i < a.size, s'.mem (a.ptr + i) = s.mem (a.ptr + i)
  fixed : ∀ h B, (ledger s.log).block h = some B → B.Fixed →
    (∀ a : Alloc, (ledger s.log).Live a → a.hdr = h → c.target? ≠ some a.ptr) →
    (ledger s'.log).block h = some B ∧
      ∀ x, h ≤ x → x < h + B.size → (x < h + 48 ∨ h + 64 ≤ x) → s'.mem x = s.mem x
  served : p ≠ 0 → ∃ a : Alloc, a.ptr = p ∧ c.size? = some a.size ∧ (ledger s'.log).Live a ∧
    (∀ b : Alloc, (ledger s.log).Live b → b.hdr ≠ a.hdr) ∧ c.Filled args s s' a ∧
    ∃ B, (ledger s'.log).block a.hdr = some B ∧ Placed args c.alignment a B
  refused : c.size? ≠ none → p = 0 → ∀ a : Alloc, (ledger s.log).Live a →
    (ledger s'.log).Live a ∧ ∀ i < a.size, s'.mem (a.ptr + i) = s.mem (a.ptr + i)

theorem Rep.ptr_ne_zero (hR : Rep env off s) (ha : (ledger s.log).Live a) : a.ptr ≠ 0 := by
  obtain ⟨B, hB, -, ho, hp⟩ := hR.log_ok.lawful.sound.live_inUse ha
  have := hR.shape.user_bounds hB (by simp [hp]) ho
  omega

theorem Keeps.user (hK : Keeps X s s') (hR : Rep env off s) (ha : (ledger s.log).Live a)
    (hX : a.hdr ∉ X) : ∀ i < a.size, s'.mem (a.ptr + i) = s.mem (a.ptr + i) := by
  obtain ⟨B, hB, -, ho, hp⟩ := hR.log_ok.lawful.sound.live_inUse ha
  have hbd := hR.shape.user_bounds hB (by simp [hp]) ho
  intro i hi
  exact hK.mem _ B hX hB (.inr (.inr hp)) _ (by omega) (by omega) fun _ => .inr (by omega)

/-- The size of a block that was labelled is that of its bin. -/
theorem Rep.pow_binNum {h : ℕ} {B : Block} (hR : Rep env off s) (hB : (ledger s.log).block h = some B)
    (hraw : B.place ≠ .raw) : 2 ^ fld s.mem h .binNum = B.size := by
  rw [(hR.shape.blocks h B hB hraw).binNum, (hR.log_ok.lawful.sound.block_ok h B hB).size_eq hraw]

/-- The header of a block in use stays as it is while its list does. -/
theorem Rep.fields_kept {off' : Off} {h : ℕ} {B : Block} (hR : Rep env off s)
    (hR' : Rep env off' s') (hB : (ledger s.log).block h = some B) (hp : B.place = .on .inUse)
    (hbytes : ∀ x, h ≤ x → x < h + B.size → (x < h + 48 ∨ h + 64 ≤ x) → s'.mem x = s.mem x)
    (hsame : (ledger s'.log).list ⟨.inUse, B.slot, B.bin⟩ =
      (ledger s.log).list ⟨.inUse, B.slot, B.bin⟩) (f : Field) :
    fld s'.mem h f = fld s.mem h f := by
  have hmem : h ∈ (ledger s.log).list ⟨.inUse, B.slot, B.bin⟩ :=
    (hR.log_ok.lawful.sound.mem_list_iff hB _).2 ⟨hp, rfl, rfl⟩
  have hl' := hR'.shape.lists ⟨.inUse, B.slot, B.bin⟩
  rw [hsame] at hl'
  have hlinks := IntrusiveList.Chain.links_eq (hR.shape.lists ⟨.inUse, B.slot, B.bin⟩) hl' _ hmem
  have hge := (hR.shape.layout.block _ B hB).size_ge
  cases f with
  | next => exact hlinks.1
  | prev => exact hlinks.2
  | _ => exact fld_congr fun y hy hy' => by
          simp only [Field.off] at hy hy'
          exact hbytes y (by omega) (by omega) (.inl (by omega))

theorem Served.fresh {alignment usrSize : ℕ} {B : Block}
    (hs : Served env F off X s₀ s bt alignment usrSize a B) (hR : Rep env off s₀) (b : Alloc)
    (hb : (ledger s₀.log).Live b) : b.hdr ≠ a.hdr := by
  obtain ⟨A, hA, -, -, hp⟩ := hR.log_ok.lawful.sound.live_inUse hb
  exact fun he => hs.new A (he ▸ hA) (.inr (.inr hp))

/-- The effect of a call that left alone all blocks but that of its target. -/
theorem Keeps.effect (hK : Keeps X s s') (hR : Rep env off s)
    (hX : ∀ h ∈ X, ∃ a : Alloc, (ledger s.log).Live a ∧ a.hdr = h ∧ c.target? = some a.ptr)
    (hserved : p ≠ 0 → ∃ a : Alloc, a.ptr = p ∧ c.size? = some a.size ∧ (ledger s'.log).Live a ∧
      (∀ b : Alloc, (ledger s.log).Live b → b.hdr ≠ a.hdr) ∧ c.Filled env.args s s' a ∧
      ∃ B, (ledger s'.log).block a.hdr = some B ∧ Placed env.args c.alignment a B)
    (hkept : c.size? ≠ none → p = 0 → X = ∅) : Effect env.args c p s s' where
  log := hK.log
  others a ha ht := by
    have hXa : a.hdr ∉ X := by
      intro hmem
      obtain ⟨b, hb, hhdr, htarget⟩ := hX _ hmem
      exact ht (ha.hdr_inj hb hhdr.symm ▸ htarget)
    exact ⟨hK.live hR ha hXa, hK.user hR ha hXa⟩
  fixed h B hB hF ht := by
    have hXh : h ∉ X := by
      intro hmem
      obtain ⟨a, ha, hhdr, htarget⟩ := hX h hmem
      exact ht a ha hhdr htarget
    exact ⟨hK.block h B hXh hB hF, fun x hx hx' hl => hK.mem h B hXh hB hF x hx hx' fun _ => hl⟩
  served := hserved
  refused hsize hp a ha := by
    have hXa : a.hdr ∉ X := by simp [hkept hsize hp]
    exact ⟨hK.live hR ha hXa, hK.user hR ha hXa⟩

theorem Proc.Inv.ready (hst : st.Inv env) : Ready env F st.heap :=
  ⟨fun _ h => absurd h (by simp [hst.gMutex]), .inl hst.isInit, fun _ => .inr (.inl hst.isInit)⟩

/-- Between calls every block in use is filled in. -/
theorem Proc.Inv.setUp (hst : st.Inv env) : SetUp env st.heap := by
  refine ⟨hst.isInit, fun _ _ h B hB hp hlive => ?_⟩
  exact absurd (((hst.settled h B hB).live hp).symm.trans hlive) nofun

/-- The invariant after a call that changed `X` only: each entry of the new books is an old
one elsewhere, or that of a live allocation. -/
theorem Proc.Inv.after (hst : st.Inv env) (hc : InCall env F 0 X st.heap s')
    (hset : ∀ h ∈ X, SettledAt s' h)
    (hheld : ∀ e ∈ held, (e ∈ st.held ∧
      ∀ a : Alloc, (ledger st.heap.log).Live a → a.ptr = e.1 → a.hdr ∉ X) ∨
      ∃ a : Alloc, a.ptr = e.1 ∧ a.size = e.2 ∧ (ledger s'.log).Live a)
    (hnodup : (held.map Prod.fst).Nodup) : Proc.Inv env ⟨s', held⟩ where
  rep := hc.rep
  isInit := hc.keeps.isInit.trans hst.isInit
  gMutex := by
    change s'.gMutex.locked = false
    rw [show s'.gMutex = st.heap.gMutex from hc.keeps.mutex .gMutex, hst.gMutex]
  settled h := by
    by_cases hX : h ∈ X
    · exact hset h hX
    · exact hc.keeps.settledAt hX (hst.settled h)
  held e he := by
    rcases hheld e he with ⟨hmem, hX⟩ | hnew
    · obtain ⟨a, hptr, hsize, ha⟩ := hst.held e hmem
      exact ⟨a, hptr, hsize, hc.keeps.live hst.rep ha (hX a ha hptr)⟩
    · exact hnew
  nodup := hnodup

/-- A new allocation is not yet in the books. -/
theorem Proc.Inv.new_ptr (hst : st.Inv env) (hR' : Rep env 0 s') (hK : Keeps X st.heap s')
    (ha : (ledger s'.log).Live a)
    (hfresh : ∀ b : Alloc, (ledger st.heap.log).Live b → b.hdr ≠ a.hdr) {e : ℕ × ℕ}
    (he : e ∈ st.held) (hX : ∀ b : Alloc, (ledger st.heap.log).Live b → b.ptr = e.1 → b.hdr ∉ X) :
    e.1 ≠ a.ptr := by
  obtain ⟨b, hptr, -, hb⟩ := hst.held e he
  intro heq
  have hb' := hK.live hst.rep hb (hX b hb hptr)
  obtain rfl := hR'.live_inj hb' ha (hptr.trans heq)
  exact hfresh _ hb rfl

theorem Proc.Inv.holds (hst : st.Inv env) {ptr n : ℕ} (h : (ptr, n) ∈ st.held) :
    ∃ a : Alloc, a.ptr = ptr ∧ a.size = n ∧ (ledger st.heap.log).Live a :=
  hst.held _ h

/-- A live allocation has its pointer for itself. -/
theorem Ledger.Live.hdr_notMem {L : Ledger} (ha₀ : L.Live a₀) (ha : L.Live a)
    (hne : a.ptr ≠ a₀.ptr) : a.hdr ∉ ({a₀.hdr} : Set ℕ) :=
  fun he => hne (congrArg _ (ha.hdr_inj ha₀ he))

/-! ## Calls that allocate -/

def Outcome (env : Env) (F : Prop) (X : Set ℕ) (s s' : Heap) (bt : List ℕ) (alignment usrSize : ℕ)
    (data : Alloc → Prop) (p : ℕ) : Prop :=
  (p = 0 ∧ InCall env F 0 ∅ s s' ∧ Trouble env s'.log) ∨
    (p ≠ 0 ∧ ∃ a B, a.ptr = p ∧ Served env F 0 X s s' bt alignment usrSize a B ∧ data a)

theorem Proc.Inv.allocated {usrSize : ℕ} (hst : st.Inv env)
    (ho : Outcome env F ∅ st.heap s' bt c.alignment usrSize (c.Filled env.args st.heap s') p)
    (hsize : c.size? = some usrSize)
    (hbook : c.book st.held p = if p = 0 then st.held else (p, usrSize) :: st.held) :
    Proc.Inv env ⟨s', c.book st.held p⟩ ∧ Effect env.args c p st.heap s' := by
  have hX : ∀ a : Alloc, (ledger st.heap.log).Live a → a.hdr ∉ (∅ : Set ℕ) :=
    fun a _ => Set.notMem_empty _
  rcases ho with ⟨rfl, hc, -⟩ | ⟨h0, a, B, rfl, hs, hdata⟩
  · rw [hbook, if_pos rfl]
    exact ⟨hst.after hc (by simp) (fun e he => .inl ⟨he, fun a ha _ => hX a ha⟩) hst.nodup,
      hc.keeps.effect hst.rep (by simp) (fun h => absurd rfl h) fun _ _ => rfl⟩
  · have hc := hs.call
    have ha : (ledger s'.log).Live a := hs.isLive
    have hfresh := hs.fresh hst.rep
    rw [hbook, if_neg h0]
    refine ⟨hst.after hc (by simp) (fun e he => ?_) ?_, ?_⟩
    · rcases List.mem_cons.1 he with rfl | he
      · exact .inr ⟨a, rfl, hs.size_eq, ha⟩
      · exact .inl ⟨he, fun a ha _ => hX a ha⟩
    · rw [List.map_cons, List.nodup_cons]
      refine ⟨fun hmem => ?_, hst.nodup⟩
      obtain ⟨e, he, heq⟩ := List.mem_map.1 hmem
      exact hst.new_ptr hc.rep hc.keeps ha hfresh he (fun b hb _ => hX b hb) heq
    · exact hc.keeps.effect hst.rep (by simp)
        (fun _ => ⟨a, rfl, by rw [hsize, hs.size_eq], ha, hfresh, hdata, B, hs.block, hs.placed⟩) fun _ _ => rfl

theorem memalignInt_outcome {alignment usrSize : ℕ} (hst : st.Inv env)
    (halign : alignment < 2 ^ 64) (husr : usrSize < 2 ^ 64)
    (hfits : F → Fits env.args alignment usrSize)
    (hclass : G → classOf env.args alignment usrSize < maxAllocPower) :
    wp (memalignInt (ctxOf env depth) bt alignment usrSize)
      (fun p s' => Outcome env F ∅ st.heap s' bt alignment usrSize
        (fun a => Poisoned env.args s'.mem a) p)
      (Halted env F G) st.heap :=
  memalignInt_spec (ctxOf_ok env depth) hst.rep hst.ready (fun _ => rfl)
    (fun _ => .inl hst.setUp) halign husr (fun hF => .inl (hfits hF)) fun _ => hclass

theorem malloc_exec {usrSize : ℕ} (hst : st.Inv env) (hok : (Call.malloc usrSize).Ok st.held) :
    wp ((Call.malloc usrSize).exec (ctxOf env depth) bt)
      (fun p s' => Proc.Inv env ⟨s', (Call.malloc usrSize).book st.held p⟩ ∧
        Effect env.args (.malloc usrSize) p st.heap s')
      (Halted env ((Call.malloc usrSize).Fits env.args) ((Call.malloc usrSize).Binned env.args)) st.heap := by
  have halign : (Call.malloc usrSize).alignment < 2 ^ 64 := by
    rw [show (Call.malloc usrSize).alignment = if usrSize > 8 then 16 else 8 from rfl]
    split <;> decide
  exact wp_mono (memalignInt_outcome hst halign hok (fun hF => hF usrSize rfl) fun hG => hG usrSize rfl)
    (fun _ _ ho => hst.allocated ho rfl rfl) fun _ _ hE => hE

theorem memalign_exec {alignment usrSize : ℕ} (hst : st.Inv env)
    (hok : (Call.memalign alignment usrSize).Ok st.held) :
    wp ((Call.memalign alignment usrSize).exec (ctxOf env depth) bt)
      (fun p s' => Proc.Inv env ⟨s', (Call.memalign alignment usrSize).book st.held p⟩ ∧
        Effect env.args (.memalign alignment usrSize) p st.heap s')
      (Halted env ((Call.memalign alignment usrSize).Fits env.args)
        ((Call.memalign alignment usrSize).Binned env.args)) st.heap :=
  wp_mono (memalignInt_outcome hst hok.1 hok.2 (fun hF => hF usrSize rfl) fun hG => hG usrSize rfl)
    (fun _ _ ho => hst.allocated ho rfl rfl) fun _ _ hE => hE

theorem posixMemalign_exec {alignment usrSize : ℕ} (hst : st.Inv env)
    (hok : (Call.posixMemalign alignment usrSize).Ok st.held) :
    wp ((Call.posixMemalign alignment usrSize).exec (ctxOf env depth) bt)
      (fun p s' => Proc.Inv env ⟨s', (Call.posixMemalign alignment usrSize).book st.held p⟩ ∧
        Effect env.args (.posixMemalign alignment usrSize) p st.heap s')
      (Halted env ((Call.posixMemalign alignment usrSize).Fits env.args)
        ((Call.posixMemalign alignment usrSize).Binned env.args)) st.heap := by
  have hnone : ∀ s', InCall env ((Call.posixMemalign alignment usrSize).Fits env.args) 0 ∅ st.heap s' →
      Proc.Inv env ⟨s', (Call.posixMemalign alignment usrSize).book st.held 0⟩ ∧
        Effect env.args (.posixMemalign alignment usrSize) 0 st.heap s' := fun s' hc =>
    ⟨hst.after hc (by simp) (fun e he => .inl ⟨he, fun a _ _ => Set.notMem_empty _⟩) hst.nodup,
      hc.keeps.effect hst.rep (by simp) (fun h => absurd rfl h)
        fun _ _ => rfl⟩
  refine wp_bind_of (posixMemalign_spec (ctxOf_ok env depth) hst.rep hst.ready (fun _ => rfl)
    (fun _ => .inl hst.setUp) hok.1 hok.2 (fun hF => .inl (hF usrSize rfl))
    fun _ hG => hG usrSize rfl) ?_
  rintro _ s' (⟨rfl, rfl⟩ | ⟨rfl, hc, -⟩ | ⟨a, B, rfl, hs, hpoison⟩)
  · exact wp_pure (hnone _ (.refl hst.rep hst.ready))
  · exact wp_pure (hnone _ hc)
  · have h0 : a.ptr ≠ 0 := by
      have := hs.call.rep.shape.user_bounds hs.block (by simp [hs.place]) hs.owner
      omega
    exact wp_pure (hst.allocated (.inr ⟨h0, a, B, rfl, hs, hpoison⟩) rfl rfl)

theorem calloc_exec {nmemb usrSize : ℕ} (hst : st.Inv env) :
    wp ((Call.calloc nmemb usrSize).exec (ctxOf env depth) bt)
      (fun p s' => Proc.Inv env ⟨s', (Call.calloc nmemb usrSize).book st.held p⟩ ∧
        Effect env.args (.calloc nmemb usrSize) p st.heap s')
      (Halted env ((Call.calloc nmemb usrSize).Fits env.args)
        ((Call.calloc nmemb usrSize).Binned env.args)) st.heap := by
  refine wp_mono (calloc_spec (ctxOf_ok env depth) hst.rep hst.ready (fun _ => rfl)
    (fun _ => .inl hst.setUp) (fun hF => .inl (hF _ rfl)) fun _ hG => hG _ rfl) ?_ fun _ _ hE => hE
  intro p s' ho
  have ho' : Outcome env ((Call.calloc nmemb usrSize).Fits env.args) ∅ st.heap s' bt 8
      (nmemb * usrSize % 2 ^ 64) ((Call.calloc nmemb usrSize).Filled env.args st.heap s') p := by
    refine ho.imp_right ?_
    rintro ⟨h0, a, B, rfl, hs, hzero⟩
    exact ⟨h0, a, B, rfl, hs, fun i hi => hzero i (hs.size_eq ▸ hi)⟩
  exact hst.allocated ho' rfl rfl

/-! ## The other calls -/

theorem free_exec {ptr : ℕ} (hst : st.Inv env) (hok : (Call.free ptr).Ok st.held) :
    wp ((Call.free ptr).exec (ctxOf env depth) bt)
      (fun p s' => Proc.Inv env ⟨s', (Call.free ptr).book st.held p⟩ ∧
        Effect env.args (.free ptr) p st.heap s')
      (Halted env F G) st.heap := by
  have hnodup : ((st.held.filter fun e => e.1 ≠ ptr).map Prod.fst).Nodup :=
    hst.nodup.sublist (List.filter_sublist.map _)
  have hmem : ∀ {e : ℕ × ℕ}, e ∈ st.held.filter (fun e => e.1 ≠ ptr) → e ∈ st.held ∧ e.1 ≠ ptr :=
    fun he => by simpa using List.mem_filter.1 he
  rcases hok with rfl | ⟨n, hn⟩
  · have hc : InCall env F 0 ∅ st.heap st.heap := .refl hst.rep hst.ready
    refine wp_bind (wp_ite (fun _ => wp_pure (wp_pure ⟨?_, ?_⟩)) fun h => absurd rfl h)
    · exact hst.after hc (by simp) (fun e he => .inl ⟨(hmem he).1, fun _ _ _ => Set.notMem_empty _⟩)
        hnodup
    · exact hc.keeps.effect hst.rep (by simp) (fun h => absurd rfl h)
        fun h => absurd rfl h
  · obtain ⟨a₀, rfl, -, ha₀⟩ := hst.holds hn
    refine wp_bind_of (free_spec (ctxOf_ok env depth) hst.rep hst.ready ha₀) ?_
    rintro _ s' ⟨hc, hset⟩
    refine wp_pure ⟨hst.after hc (by simpa using hset.settled) (fun e he => .inl ⟨(hmem he).1, ?_⟩) hnodup, ?_⟩
    · exact fun a ha hptr => ha₀.hdr_notMem ha (hptr ▸ (hmem he).2)
    · exact hc.keeps.effect hst.rep (fun _ h => ⟨a₀, ha₀, h.symm, rfl⟩)
        (fun h => absurd rfl h) fun h => absurd rfl h

theorem realloc_exec {origBuf newUsrSize : ℕ} (hst : st.Inv env)
    (hok : (Call.realloc origBuf newUsrSize).Ok st.held) :
    wp ((Call.realloc origBuf newUsrSize).exec (ctxOf env depth) bt)
      (fun p s' => Proc.Inv env ⟨s', (Call.realloc origBuf newUsrSize).book st.held p⟩ ∧
        Effect env.args (.realloc origBuf newUsrSize) p st.heap s')
      (Halted env ((Call.realloc origBuf newUsrSize).Fits env.args)
        ((Call.realloc origBuf newUsrSize).Binned env.args)) st.heap := by
  obtain ⟨hsize, hptr⟩ := hok
  have hzero : ∀ e ∈ st.held, e.1 ≠ 0 := by
    intro e he h0
    obtain ⟨a, hp, -, ha⟩ := hst.held e he
    exact hst.rep.ptr_ne_zero ha (hp.trans h0)
  rcases hptr with rfl | ⟨n, hn⟩
  · have hbook : ∀ p, (Call.realloc 0 newUsrSize).book st.held p =
        if p = 0 then st.held else (p, newUsrSize) :: st.held := by
      intro p
      have hall : st.held.filter (fun e => e.1 ≠ 0) = st.held :=
        List.filter_eq_self.2 fun e he => by simpa using hzero e he
      rw [Call.book, hall]
    refine wp_mono (realloc_null_spec (ctxOf_ok env depth) hst.rep hst.ready (fun _ => rfl)
      (fun _ => .inl hst.setUp) hsize (fun hF => .inl (hF _ rfl)) fun _ hG => hG _ rfl) ?_
      fun _ _ hE => hE
    intro p s' ho
    have ho' : Outcome env ((Call.realloc 0 newUsrSize).Fits env.args) ∅ st.heap s' bt 8 newUsrSize
        ((Call.realloc 0 newUsrSize).Filled env.args st.heap s') p := by
      refine ho.imp_right ?_
      rintro ⟨h0, a, B, rfl, hs, hpoison⟩
      exact ⟨h0, a, B, rfl, hs, fun _ => hpoison, fun a₀ ha₀ hptr =>
        absurd hptr (hst.rep.ptr_ne_zero ha₀)⟩
    exact hst.allocated ho' rfl (hbook p)
  · obtain ⟨a₀, rfl, -, ha₀⟩ := hst.holds hn
    refine wp_mono (realloc_spec (ctxOf_ok env depth) hst.rep hst.ready (fun _ => rfl)
      (fun _ => .inl hst.setUp) hsize (fun hF => .inl (hF _ rfl)) (fun _ hG => hG _ rfl) ha₀) ?_
      fun _ _ hE => hE
    rintro p s' (⟨rfl, hc, -⟩ | ⟨h0, hset, a, B, rfl, hs, hmoved⟩)
    · exact ⟨hst.after hc (by simp) (fun e he => .inl ⟨he, fun _ _ _ => Set.notMem_empty _⟩)
        hst.nodup, hc.keeps.effect hst.rep (by simp) (fun h => absurd rfl h)
        fun _ _ => rfl⟩
    · have hc := hs.call
      have ha : (ledger s'.log).Live a := hs.isLive
      have hfresh := hs.fresh hst.rep
      have hmem : ∀ {e : ℕ × ℕ}, e ∈ st.held.filter (fun e => e.1 ≠ a₀.ptr) →
          e ∈ st.held ∧ ∀ b : Alloc, (ledger st.heap.log).Live b → b.ptr = e.1 →
            b.hdr ∉ ({a₀.hdr} : Set ℕ) := by
        intro e he
        obtain ⟨he, hne⟩ := List.mem_filter.1 he
        exact ⟨he, fun b hb hptr => ha₀.hdr_notMem hb (hptr ▸ by simpa using hne)⟩
      have hbook : (Call.realloc a₀.ptr newUsrSize).book st.held a.ptr =
          (a.ptr, newUsrSize) :: st.held.filter fun e => e.1 ≠ a₀.ptr := if_neg h0
      rw [hbook]
      refine ⟨hst.after hc (by simpa using hset.settled) (fun e he => ?_) ?_, ?_⟩
      · rcases List.mem_cons.1 he with rfl | he
        · exact .inr ⟨a, rfl, hs.size_eq, ha⟩
        · exact .inl (hmem he)
      · rw [List.map_cons, List.nodup_cons]
        refine ⟨fun hin => ?_, hst.nodup.sublist (List.filter_sublist.map _)⟩
        obtain ⟨e, he, heq⟩ := List.mem_map.1 hin
        exact hst.new_ptr hc.rep hc.keeps ha hfresh (hmem he).1 (hmem he).2 heq
      · refine hc.keeps.effect hst.rep (fun _ h => ⟨a₀, ha₀, h.symm, rfl⟩)
          (fun _ => ⟨a, rfl, congrArg some hs.size_eq.symm, ha, hfresh, ⟨?_, ?_⟩, B, hs.block, hs.placed⟩)
          fun _ h => absurd h h0
        · exact fun h => absurd h (hst.rep.ptr_ne_zero ha₀)
        · intro b hb hptr
          obtain rfl := hst.rep.live_inj hb ha₀ hptr
          exact hmoved

theorem load_exec {ptr off n : ℕ} (hst : st.Inv env) (hok : (Call.load ptr off n).Ok st.held) :
    wp ((Call.load ptr off n).exec (ctxOf env depth) bt)
      (fun p s' => Proc.Inv env ⟨s', (Call.load ptr off n).book st.held p⟩ ∧
        Effect env.args (.load ptr off n) p st.heap s')
      (Halted env F G) st.heap := by
  obtain ⟨size, hmem, hle⟩ := hok
  obtain ⟨a, rfl, rfl, ha⟩ := hst.holds hmem
  obtain ⟨B, hB, -, ho, hp⟩ := hst.rep.log_ok.lawful.sound.live_inUse ha
  have hacc := (hst.rep.shape.user_open hB hp ho).mono (b := a.ptr + off) (k := n) (by omega) (by omega)
  have hc : InCall env F 0 ∅ st.heap st.heap := .refl hst.rep hst.ready
  refine wp_bind (wp_touch (fun _ => wp_pure ⟨hst, ?_⟩) fun h => absurd hacc h)
  exact hc.keeps.effect hst.rep (by simp) (fun h => absurd rfl h)
    fun h => absurd rfl h

theorem store_exec {ptr off : ℕ} {bytes : List UInt8} (hst : st.Inv env)
    (hok : (Call.store ptr off bytes).Ok st.held) :
    wp ((Call.store ptr off bytes).exec (ctxOf env depth) bt)
      (fun p s' => Proc.Inv env ⟨s', (Call.store ptr off bytes).book st.held p⟩ ∧
        Effect env.args (.store ptr off bytes) p st.heap s')
      (Halted env F G) st.heap := by
  obtain ⟨size, hmem, hle⟩ := hok
  obtain ⟨a, rfl, rfl, ha⟩ := hst.holds hmem
  obtain ⟨B, hB, hlive, ho, hp⟩ := hst.rep.log_ok.lawful.sound.live_inUse ha
  have hacc := (hst.rep.shape.user_open hB hp ho).mono (b := a.ptr + off) (k := bytes.length)
    (by omega) (by omega)
  refine wp_bind (wp_storeBytes hacc (wp_pure ?_))
  have hc := (InCall.refl (F := F) hst.rep hst.ready).writeUser (Set.mem_singleton a.hdr) hB hp ho
    (m := ByteMemory.update st.heap.mem (a.ptr + off) bytes.length fun i => bytes.getD i 0)
    fun x hx => update_of_notMem (by omega)
  have hset : ∀ h ∈ ({a.hdr} : Set ℕ), SettledAt st.heap h := by
    rintro _ rfl
    exact .of_block hB (.inr (.inr ⟨hp, hlive⟩))
  refine ⟨hst.after hc hset (fun e he => .inr (hst.held e he)) hst.nodup, ?_⟩
  exact hc.keeps.effect hst.rep (fun _ h => ⟨a, ha, h.symm, rfl⟩)
    (fun h => absurd rfl h) fun h => absurd rfl h

theorem onExit_exec (hst : st.Inv env) :
    wp (Call.onExit.exec (ctxOf env depth) bt)
      (fun p s' => Proc.Inv env ⟨s', Call.onExit.book st.held p⟩ ∧
        Effect env.args .onExit p st.heap s')
      (Halted env F G) st.heap := by
  refine wp_bind_of ((ctxOf_ok env depth).dump F G 0 st.heap true 0 hst.rep hst.ready (fun _ => rfl)
    fun _ => .inl hst.setUp) ?_
  rintro _ s' ⟨hR, hK⟩
  have hc : InCall env F 0 ∅ st.heap s' := (InCall.refl hst.rep hst.ready).trans hR hK
  exact wp_pure ⟨hst.after hc (by simp) (fun e he => .inl ⟨he, fun _ _ _ => Set.notMem_empty _⟩)
    hst.nodup, hK.effect hst.rep (by simp) (fun h => absurd rfl h)
    fun h => absurd rfl h⟩

/-! ## Runs -/

/-- A call of a well-behaved client keeps the invariant and the other allocations; if it
fits, only trouble stops it. -/
theorem exec_spec (hst : st.Inv env) (hok : c.Ok st.held) :
    wp (c.exec (ctxOf env depth) bt)
      (fun p s' => Proc.Inv env ⟨s', c.book st.held p⟩ ∧ Effect env.args c p st.heap s')
      (Halted env (c.Fits env.args) (c.Binned env.args)) st.heap := by
  cases c with
  | malloc => exact malloc_exec hst hok
  | calloc => exact calloc_exec hst
  | realloc => exact realloc_exec hst hok
  | memalign => exact memalign_exec hst hok
  | posixMemalign => exact posixMemalign_exec hst hok
  | free => exact free_exec hst hok
  | load => exact load_exec hst hok
  | store => exact store_exec hst hok
  | onExit => exact onExit_exec hst

theorem boot_inv (henv : env.Ok) {u : Unit} (hb : boot env depth Heap.static = .ok u s) :
    Proc.Inv env ⟨s, []⟩ := by
  obtain ⟨hR, hinit, hg, hset⟩ := wp_ok (grInitialize_spec (G := True) (ctxOf_ok _ depth) env.unsignalled_calm henv.unsignalled) hb
  exact ⟨hR.signalled henv, hinit, hg, hset, by simp, by simp⟩

theorem Step.inv (hst : st.Inv env) (hstep : Step env depth st c st') : st'.Inv env := by
  obtain ⟨hok, hexec⟩ := hstep
  exact (wp_ok (exec_spec hst hok) hexec).1

theorem Run.inv {cs : List Call} (hst : st.Inv env) (hrun : Run env depth st cs st') :
    st'.Inv env := by
  induction hrun with
  | refl => exact hst
  | tail _ hstep ih => exact hstep.inv ih

theorem Reachable.inv (henv : env.Ok) (hr : Reachable env depth st) : st.Inv env := by
  obtain ⟨s, cs, hb, hrun⟩ := hr
  exact hrun.inv (boot_inv henv hb)

end GuardRails
