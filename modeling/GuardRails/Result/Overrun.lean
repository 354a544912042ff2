import GuardRails.Result.Isolation
import GuardRails.Result.Placement
import GuardRails.Spec.Exhausted

/-!
# Overruns

A write behind the user data of an allocation hits the guard page, or it hits the slop in
front of the guard page and is found when the allocation is released.
-/

namespace GuardRails

open ByteMemory StateHoare

variable {env : Env} {s s' : Heap} {ctx : Ctx} {depth : ℕ} {st st' : Proc} {bt : List ℕ}
  {a : Alloc} {B : Block} {c : Call} {cs : List Call} {k n p : ℕ} {v : UInt8}

/-! ## The write -/

/-- The header that the word below a live pointer leads to. -/
theorem Rep.word_ptr (hR : Rep env 0 s) (ha : (ledger s.log).Live a) :
    word s.mem (a.ptr - 8) = a.hdr := by
  obtain ⟨B, hB, -, ho, hp⟩ := hR.log_ok.lawful.sound.live_inUse ha
  exact ((hR.shape.blocks _ B hB (by simp [hp])).owner a ho).ptrWord

/-- Behind the slop every access faults. -/
theorem overrun_faults (hR : Rep env 0 s) (ha : (ledger s.log).Live a)
    (hk : a.misalignment ≤ k) (hk' : k < a.misalignment + pageSize) :
    overrun a.ptr a.size k v s = .error (.fault (a.ptr + a.size + k)) s := by
  obtain ⟨B, hB, -, ho, hp⟩ := hR.log_ok.lawful.sound.live_inUse ha
  have hfits := ((hR.shape.blocks _ B hB (by simp [hp])).owner a ho).fits
  have hpg : pageSize = 4096 := rfl
  have hnone := hR.shape.pages.guard _ B hB (a.ptr + a.size + k) (by omega) (by omega)
  have hwp : wp (overrun a.ptr a.size k v) (fun _ _ => False)
      (fun e s' => e = .fault (a.ptr + a.size + k) ∧ s' = s) s := by
    refine wp_bind (wp_bind (wp_touch (fun hacc => ?_) fun _ => ⟨rfl, rfl⟩))
    exact absurd hnone (hacc 0 Nat.zero_lt_one)
  obtain ⟨e, s', he, rfl, rfl⟩ := wp_halts hwp
  exact he

/-- The slop of a block in use has been written to: its byte `k` is `v`. -/
structure Spoiled (s : Heap) (a : Alloc) (k : ℕ) (v : UInt8) : Prop where
  block : ∃ B, (ledger s.log).block a.hdr = some B ∧ B.place = .on .inUse ∧ B.live = true ∧
    B.owner = some a ∧ B.intact = false
  lt : k < a.misalignment
  byte : s.mem (a.ptr + a.size + k) = v

/-- In the slop the write goes through. -/
theorem overrun_spoils (hst : st.Inv env) (ha : (ledger st.heap.log).Live a)
    (hk : k < a.misalignment) :
    ∃ s', overrun a.ptr a.size k v st.heap = .ok () s' ∧ Spoiled s' a k v ∧
      Proc.Inv env ⟨s', st.held.filter fun e => e.1 ≠ a.ptr⟩ ∧
      s'.memPools = st.heap.memPools ∧ s'.log = .overrun a.hdr :: st.heap.log := by
  have hS := hst.rep.shape
  obtain ⟨B, hB, hlive, ho, hp⟩ := hst.rep.log_ok.lawful.sound.live_inUse ha
  have hH := hS.blocks _ B hB (by simp [hp])
  have hfits := (hH.owner a ho).fits
  have hbd := hS.user_bounds hB (by simp [hp]) ho
  have hout : ∀ x, x < a.ptr + a.size ∨ a.hdr + B.size ≤ x →
      update st.heap.mem (a.ptr + a.size + k) 1 (fun i => [v].getD i 0) x = st.heap.mem x :=
    fun x hx => update_of_notMem (by omega)
  have hword : word (update st.heap.mem (a.ptr + a.size + k) 1 fun i => [v].getD i 0) (a.ptr - 8) =
      a.hdr :=
    (word_congr fun x hx hx' => hout x (.inl (by omega))).trans (hst.rep.word_ptr ha)
  have hwp : wp (overrun a.ptr a.size k v) (fun _ s' => s' =
      { st.heap with
        mem := update st.heap.mem (a.ptr + a.size + k) 1 fun i => [v].getD i 0
        log := .overrun a.hdr :: st.heap.log }) (fun _ _ => False) st.heap := by
    refine wp_bind (wp_storeBytes ?_ (wp_bind (wp_get (wp_emit ?_))))
    · exact (hS.pages.opened _ B hB (by simp [hp])).mono (by omega) (by simp; omega)
    · exact congrArg (fun h => { st.heap with
        mem := update st.heap.mem (a.ptr + a.size + k) 1 fun i => [v].getD i 0
        log := .overrun h :: st.heap.log }) hword
  obtain ⟨_, s', hrun, hs'⟩ := wp_returns hwp
  obtain ⟨hc, hB'⟩ : InCall env False 0 {a.hdr} st.heap s' ∧ (ledger s'.log).block a.hdr = _ := by
    subst hs'
    exact (InCall.refl hst.rep hst.ready).update (e := .overrun a.hdr) (Set.mem_singleton a.hdr) hB
      ⟨B, hB⟩ (by simp) nofun
      ⟨rfl, rfl, rfl, rfl, fun r => by cases r; rfl, fun _ => rfl, fun l => by cases l <;> rfl⟩ rfl rfl
      (Ledger.block_updBlock hB _) rfl rfl rfl Iff.rfl (fun x hx => hout x (by omega))
      (fun _ x hx hx' => hout x (.inl (by omega)))
      (fun _ => hH.overrun hS.env_ok.args ho fun y _ hy => hout y (.inl hy))
      (hS.counts.congr rfl rfl rfl rfl)
  refine ⟨s', hrun, ⟨⟨_, hB', hp, hlive, ho, rfl⟩, hk, ?_⟩, ?_, by rw [hs'], by rw [hs']⟩
  · have hbyte : update st.heap.mem (a.ptr + a.size + k) 1 (fun i => [v].getD i 0)
        (a.ptr + a.size + k) = [v].getD (a.ptr + a.size + k - (a.ptr + a.size + k)) 0 :=
      update_of_mem le_rfl (Nat.lt_succ_self _)
    rw [hs']
    exact hbyte.trans (by rw [Nat.sub_self]; rfl)
  · refine hst.after hc ?_ (fun e he => .inl ?_) (hst.nodup.sublist (List.filter_sublist.map _))
    · rintro _ rfl
      exact .of_block hB' (.inr (.inr ⟨hp, hlive⟩))
    · obtain ⟨hmem, hne⟩ := List.mem_filter.1 he
      exact ⟨hmem, fun b hb hptr => ha.hdr_notMem hb (hptr ▸ of_decide_eq_true hne)⟩

/-! ## The run after it -/

theorem Spoiled.not_live {b : Alloc} (h : Spoiled s a k v) (hb : (ledger s.log).Live b) :
    b.hdr ≠ a.hdr := by
  intro he
  obtain ⟨B, hB, -, -, -, hi⟩ := h.block
  exact absurd ((hb.intact (he ▸ hB)).symm.trans hi) nofun

/-- Nobody repairs the slop of a block that the client does not release. -/
theorem Step.spoiled (hst : st.Inv env) (hstep : Step env depth st c st')
    (h : Spoiled st.heap a k v) : Spoiled st'.heap a k v := by
  obtain ⟨hok, hexec⟩ := hstep
  have heff := (wp_ok (exec_spec hst hok) hexec).2
  obtain ⟨B, hB, hp, hlive, ho, hi⟩ := h.block
  have hbd := hst.rep.shape.user_bounds hB (by simp [hp]) ho
  have hfits := ((hst.rep.shape.blocks _ B hB (by simp [hp])).owner a ho).fits
  have hlt := h.lt
  obtain ⟨hB', hmem⟩ := heff.fixed _ B hB (.inr (.inr hp)) fun b hb he => absurd he (h.not_live hb)
  exact ⟨⟨B, hB', hp, hlive, ho, hi⟩, hlt,
    (hmem _ (by omega) (by omega) (.inr (by omega))).trans h.byte⟩

/-- No live allocation has the pointer of a spoiled block. -/
theorem Spoiled.ptr_ne {b : Alloc} (h : Spoiled s a k v) (hR : Rep env 0 s)
    (hb : (ledger s.log).Live b) : b.ptr ≠ a.ptr := by
  obtain ⟨A, hA, hpA, -, hoA, -⟩ := h.block
  obtain ⟨B, hB, -, hoB, hpB⟩ := hR.log_ok.lawful.sound.live_inUse hb
  have hsep := hR.shape.layout.sep _ _ A B hA hB (h.not_live hb).symm
  have hbdA := hR.shape.user_bounds hA (by simp [hpA]) hoA
  have hbdB := hR.shape.user_bounds hB (by simp [hpB]) hoB
  unfold Apart at hsep
  have hguard : guardSize = 4096 := rfl
  omega

/-- The call releases the bytes at `p` or accesses them. -/
def Call.Names (c : Call) (p : ℕ) : Prop := c.target? = some p ∨ ∃ off n, c = .load p off n

theorem Call.Ok.filter {held : Books} (hok : c.Ok held) (hn : ¬ c.Names p) :
    c.Ok (held.filter fun e => e.1 ≠ p) := by
  have hmem : ∀ {q n}, q ≠ p → (q, n) ∈ held → (q, n) ∈ held.filter fun e => e.1 ≠ p :=
    fun hq h => List.mem_filter.2 ⟨h, decide_eq_true hq⟩
  cases c with
  | realloc origBuf newUsrSize =>
      exact ⟨hok.1, hok.2.imp_right fun ⟨n, h⟩ => ⟨n, hmem (fun he => hn (.inl (congrArg some he))) h⟩⟩
  | free ptr => exact hok.imp_right fun ⟨n, h⟩ => ⟨n, hmem (fun he => hn (.inl (congrArg some he))) h⟩
  | load ptr off n =>
      obtain ⟨size, h, hle⟩ := hok
      exact ⟨size, hmem (fun he => hn (.inr ⟨off, n, by rw [he]⟩)) h, hle⟩
  | store ptr off bytes =>
      obtain ⟨size, h, hle⟩ := hok
      exact ⟨size, hmem (fun he => hn (.inl (congrArg some he))) h, hle⟩
  | _ => exact hok

theorem Call.mem_book {held : Books} {r : ℕ} {e : ℕ × ℕ} (h : e ∈ c.book held r) :
    e ∈ held ∨ r ≠ 0 ∧ e.1 = r ∧ c.size? = some e.2 := by
  have hnew : ∀ {n}, e ∈ (if r = 0 then held else (r, n) :: held) →
      e ∈ held ∨ r ≠ 0 ∧ e.1 = r ∧ some n = some e.2 := by
    intro n h
    split at h
    · exact .inl h
    · rename_i h0
      rcases List.mem_cons.1 h with rfl | h
      · exact .inr ⟨h0, rfl, rfl⟩
      · exact .inl h
  cases c with
  | realloc origBuf newUsrSize =>
      rw [Call.book] at h
      split at h
      · exact .inl h
      · rename_i h0
        rcases List.mem_cons.1 h with rfl | h
        · exact .inr ⟨h0, rfl, rfl⟩
        · exact .inl (List.mem_filter.1 h).1
  | free ptr => exact .inl (List.mem_filter.1 h).1
  | load => exact .inl h
  | store => exact .inl h
  | onExit => exact .inl h
  | _ => exact hnew h

theorem Call.book_filter {held : Books} {r : ℕ} {f : ℕ × ℕ → Bool}
    (h : ∀ n, c.size? = some n → r ≠ 0 → f (r, n) = true) :
    (c.book held r).filter f = c.book (held.filter f) r := by
  have hnew : ∀ n, c.size? = some n → (if r = 0 then held else (r, n) :: held).filter f =
      if r = 0 then held.filter f else (r, n) :: held.filter f := by
    intro n hn
    split
    · rfl
    · rename_i h0
      exact List.filter_cons_of_pos (h n hn h0)
  have hcomm : ∀ g : ℕ × ℕ → Bool, (held.filter g).filter f = (held.filter f).filter g := by
    intro g
    rw [List.filter_filter, List.filter_filter]
    exact List.filter_congr fun _ _ => Bool.and_comm _ _
  cases c with
  | realloc origBuf newUsrSize =>
      simp only [Call.book]
      split
      · rfl
      · rename_i h0
        rw [List.filter_cons_of_pos (h _ rfl h0), hcomm]
  | free ptr => exact hcomm _
  | load => rfl
  | store => rfl
  | onExit => rfl
  | malloc => exact hnew _ rfl
  | calloc => exact hnew _ rfl
  | memalign => exact hnew _ rfl
  | posixMemalign => exact hnew _ rfl

/-- The client goes on using the bytes at `a.ptr`, whose slop has been written to. -/
structure Marred (env : Env) (st : Proc) (a : Alloc) (k : ℕ) (v : UInt8) : Prop where
  inv : Proc.Inv env ⟨st.heap, st.held.filter fun e => e.1 ≠ a.ptr⟩
  spoiled : Spoiled st.heap a k v
  size : ∀ n, (a.ptr, n) ∈ st.held → n = a.size

/-- A call that does not name `a.ptr` might be that of a client who does not know it. -/
theorem Marred.other {r : ℕ} (h : Marred env st a k v) (hok : c.Ok st.held) (hn : ¬ c.Names a.ptr)
    (hexec : c.exec (ctxOf env depth) bt st.heap = .ok r s') :
    Marred env ⟨s', c.book st.held r⟩ a k v ∧ (c.size? ≠ none → r ≠ a.ptr) := by
  have hok' := hok.filter hn
  obtain ⟨hinv, heff⟩ := wp_ok (exec_spec h.inv hok') hexec
  have hsp : Spoiled s' a k v := Step.spoiled h.inv ⟨hok', hexec⟩ h.spoiled
  have hne : r ≠ 0 → r ≠ a.ptr := by
    intro h0
    obtain ⟨b, rfl, -, hb, -⟩ := heff.served h0
    exact hsp.ptr_ne hinv.rep hb
  have hpos : a.ptr ≠ 0 := by
    obtain ⟨B, hB, hp, -, ho, -⟩ := hsp.block
    have := hinv.rep.shape.user_bounds hB (by simp [hp]) ho
    omega
  refine ⟨⟨?_, hsp, fun n hmem => ?_⟩, fun _ => ?_⟩
  · dsimp only
    rw [Call.book_filter fun n _ h0 => decide_eq_true (hne h0)]
    exact hinv
  · rcases Call.mem_book hmem with hmem | ⟨h0, he, -⟩
    · exact h.size n hmem
    · exact absurd he.symm (hne h0)
  · by_cases h0 : r = 0
    · rw [h0]
      exact hpos.symm
    · exact hne h0

/-- A store into the bytes at `a.ptr`. -/
theorem Marred.store {off : ℕ} {bytes : List UInt8} (h : Marred env st a k v)
    (hle : off + bytes.length ≤ a.size) :
    Marred env ⟨{ st.heap with
      mem := ByteMemory.update st.heap.mem (a.ptr + off) bytes.length fun i => bytes.getD i 0 },
      st.held⟩ a k v := by
  obtain ⟨B, hB, hp, hlive, ho, hi⟩ := h.spoiled.block
  have hc := (InCall.refl (F := False) h.inv.rep h.inv.ready).writeUser (Set.mem_singleton a.hdr) hB hp ho
    (m := ByteMemory.update st.heap.mem (a.ptr + off) bytes.length fun i => bytes.getD i 0)
    fun x hx => update_of_notMem (by omega)
  have hbyte : ByteMemory.update st.heap.mem (a.ptr + off) bytes.length (fun i => bytes.getD i 0)
      (a.ptr + a.size + k) = st.heap.mem (a.ptr + a.size + k) := update_of_notMem (.inr (by omega))
  refine ⟨h.inv.after hc ?_ (fun e he => .inr (h.inv.held e he)) h.inv.nodup, ?_, h.size⟩
  · rintro _ rfl
    exact .of_block hB (.inr (.inr ⟨hp, hlive⟩))
  · exact ⟨h.spoiled.block, h.spoiled.lt, hbyte.trans h.spoiled.byte⟩

/-- A reallocation that leaves the old pointer in the books is an allocation that was refused. -/
theorem Marred.realloc {m r : ℕ} (h : Marred env st a k v) (hm : m < 2 ^ 64)
    (hexec : (Call.realloc a.ptr m).exec (ctxOf env depth) bt st.heap = .ok r s')
    (hmem : (a.ptr, n) ∈ (Call.realloc a.ptr m).book st.held r) :
    Marred env ⟨s', (Call.realloc a.ptr m).book st.held r⟩ a k v := by
  obtain ⟨q, s₁, hq, hrest⟩ := run_bind_eq_ok hexec
  obtain ⟨hmarred, hne⟩ := h.other (c := .memalign 8 m) ⟨by decide, hm⟩ (by simp [Call.Names, Call.target?]) hq
  have hr : wp (do
      if a.ptr = 0 ∨ q = 0 then
        pure q
      else
        let hdr ← load64 (sub64 a.ptr 8)
        memcpy q a.ptr (min m (← ldField hdr .usrDataSize))
        GuardRails.free (ctxOf env depth) bt a.ptr
        pure q) (fun r s' => r = q ∧ (q = 0 → s' = s₁)) (fun _ _ => True) s₁ := by
    refine wp_ite (fun _ => wp_pure ⟨rfl, fun _ => rfl⟩) fun h0 => ?_
    refine wp_bind_of (wp_trivial _) fun _ _ _ => wp_bind_of (wp_trivial _) fun _ _ _ => ?_
    refine wp_bind_of (wp_trivial _) fun _ _ _ => wp_bind_of (wp_trivial _) fun _ _ _ => ?_
    exact wp_pure ⟨rfl, fun hq0 => absurd (.inr hq0) h0⟩
  obtain ⟨rfl, hsame⟩ := wp_ok hr hrest
  rw [Call.book] at hmem ⊢
  by_cases h0 : r = 0
  · subst h0
    obtain rfl := hsame rfl
    exact hmarred
  · rw [if_neg h0] at hmem
    rcases List.mem_cons.1 hmem with he | hmem
    · exact absurd (congrArg Prod.fst he).symm (hne (Option.some_ne_none _))
    · exact absurd rfl (of_decide_eq_true (List.mem_filter.1 hmem).2)

theorem Marred.step (h : Marred env st a k v) (hstep : Step env depth st c st')
    (hmem : (a.ptr, n) ∈ st'.held) : Marred env st' a k v := by
  obtain @⟨bt, r, s', hok, hexec⟩ := hstep
  by_cases hn : c.Names a.ptr
  · rcases hn with hn | ⟨off, m, rfl⟩
    · cases c with
      | realloc origBuf newUsrSize =>
          obtain rfl : origBuf = a.ptr := Option.some.inj hn
          exact h.realloc hok.1 hexec hmem
      | free ptr =>
          obtain rfl : ptr = a.ptr := Option.some.inj hn
          exact absurd rfl (of_decide_eq_true (List.mem_filter.1 hmem).2)
      | store ptr off bytes =>
          obtain rfl : ptr = a.ptr := Option.some.inj hn
          obtain ⟨size, hsize, hle⟩ := hok
          obtain rfl := h.size _ hsize
          have hwp : wp ((Call.store a.ptr off bytes).exec (ctxOf env depth) bt) (fun _ s' => s' =
              { st.heap with
                mem := ByteMemory.update st.heap.mem (a.ptr + off) bytes.length fun i => bytes.getD i 0 })
              (fun _ _ => True) st.heap :=
            wp_bind (wp_bind (wp_touch (fun _ => wp_modify (wp_pure rfl)) fun _ => trivial))
          obtain rfl := wp_ok hwp hexec
          exact h.store hle
      | _ => cases hn
    · have hwp : wp ((Call.load a.ptr off m).exec (ctxOf env depth) bt) (fun _ s' => s' = st.heap)
          (fun _ _ => True) st.heap := wp_bind (wp_touch (fun _ => wp_pure rfl) fun _ => trivial)
      obtain rfl := wp_ok hwp hexec
      exact h
  · exact (h.other hok hn hexec).1

theorem RunHolding.marred (hrun : RunHolding env depth (a.ptr, n) st cs st')
    (h : Marred env st a k v) : Marred env st' a k v := by
  induction hrun with
  | refl => exact h
  | tail _ hstep hmem ih => exact ih.step hstep hmem

/-! ## The release -/

theorem Spoiled.free (h : Spoiled s a k v) (hR : Rep env 0 s) (hk : k < maxSlop)
    (hv : v ≠ magicSlop) :
    wp (free ctx bt a.ptr) (fun _ _ => False)
      (fun e s' => e = .abort (.guardRails 734) ∧ s' = s) s := by
  have hS := hR.shape
  obtain ⟨B, hB, hp, hlive, ho, -⟩ := h.block
  have hlt := h.lt
  have hH := hS.blocks _ B hB (by simp [hp])
  have hO := hH.owner a ho
  have hfits := hO.fits
  have hbd := hS.user_bounds hB (by simp [hp]) ho
  have hacc := hS.pages.opened _ B hB (by simp [hp])
  have hopen := hS.field_open hB (by simp [hp])
  have hh := hS.layout.block_bounds hB
  have hsub : sub64 a.ptr 8 = a.ptr - 8 := by
    unfold sub64
    omega
  unfold GuardRails.free
  refine wp_ite (fun h0 => absurd h0 (by omega)) fun _ => ?_
  rw [hsub]
  refine wp_bind (wp_load64_of (hacc.mono (by omega) (by omega)) ?_)
  rw [hO.ptrWord]
  refine wp_bind (wp_ldField (hopen _) fun w hw => wp_bind (wp_grAssert_of ?_ (wp_bind ?_)))
  · rw [hw, hH.magic, hlive]
    rfl
  unfold checkSlop
  refine wp_bind (wp_ldField (hopen _) fun w hw => ?_)
  obtain rfl : w = a.misalignment := hw.trans hO.misalignment
  refine wp_ite (fun _ => ?_) fun h0 => absurd (Nat.zero_lt_of_lt hlt) h0
  refine wp_bind (wp_ldField (hopen _) fun w hw => ?_)
  obtain rfl : w = a.ptr := hw.trans hO.usrData
  refine wp_bind (wp_ldField (hopen _) fun w hw => ?_)
  obtain rfl : w = a.size := hw.trans hO.usrDataSize
  refine wp_bind (wp_get ?_)
  refine wp_bind (wp_memcmp ?_ (wp_grAssert (fun hsame => ?_) fun _ => ⟨rfl, rfl⟩))
  · exact hacc.mono (by omega) (by omega)
  · have hbyte := of_decide_eq_true hsame k (lt_min hlt hk)
    exact absurd (h.byte.symm.trans (hbyte.trans (hS.slop_eq k))) hv

/-- A reallocation copies the data to its new block, if it gets one, and then it releases the
old one. -/
theorem Spoiled.realloc (h : Spoiled st.heap a k v) (hst : st.Inv env) (hk : k < maxSlop)
    (hv : v ≠ magicSlop) {m q : ℕ} {s₁ : Heap} (hm : m < 2 ^ 64)
    (hrun : memalignInt (ctxOf env depth) bt 8 m st.heap = .ok q s₁) :
    wp (realloc (ctxOf env depth) bt a.ptr m) (fun p s' => p = 0 ∧ q = 0 ∧ s' = s₁)
      (fun e _ => e = .abort (.guardRails 734) ∧ q ≠ 0) st.heap := by
  obtain ⟨B₀, hB₀, hp₀, hlive₀, ho₀, hi₀⟩ := h.block
  have hbd₀ := hst.rep.shape.user_bounds hB₀ (by simp [hp₀]) ho₀
  have hfits₀ := ((hst.rep.shape.blocks _ B₀ hB₀ (by simp [hp₀])).owner a ho₀).fits
  have hlt := h.lt
  have hh₀ := hst.rep.shape.layout.block_bounds hB₀
  have hsub : sub64 a.ptr 8 = a.ptr - 8 := by
    unfold sub64
    omega
  unfold GuardRails.realloc
  refine wp_bind (wp_of_ok hrun ?_)
  have ho := wp_ok (memalignInt_outcome (F := False) (G := False) hst (by decide) hm nofun nofun) hrun
  rcases ho with ⟨rfl, -⟩ | ⟨h0, b, B, rfl, hs, -⟩
  · exact wp_ite (fun _ => wp_pure ⟨rfl, rfl, rfl⟩) fun h => absurd (.inr rfl) h
  have hc := hs.call
  have hS := hc.rep.shape
  have hfix₀ : B₀.Fixed := .inr (.inr hp₀)
  have hB₁ := hc.keeps.block _ B₀ (Set.notMem_empty _) hB₀ hfix₀
  have hne : a.hdr ≠ b.hdr := fun he => hs.new B₀ (he ▸ hB₀) hfix₀
  have hbd := hS.user_bounds hs.block (by simp [hs.place]) hs.owner
  have hO₀ := (hS.blocks _ B₀ hB₁ (by simp [hp₀])).owner a ho₀
  have hopen₀ := hS.pages.opened _ B₀ hB₁ (by simp [hp₀])
  have hsep := hS.layout.sep _ _ B₀ B hB₁ hs.block hne
  have hsize := hs.size_eq
  refine wp_ite (fun h => absurd h (not_or.2 ⟨by omega, h0⟩)) fun _ => ?_
  rw [hsub]
  refine wp_bind (wp_load64_of (hopen₀.mono (by omega) (by omega)) ?_)
  rw [hO₀.ptrWord]
  refine wp_bind (wp_ldField (hS.field_open hB₁ (by simp [hp₀]) _) fun w hw => ?_)
  obtain rfl : w = a.size := hw.trans hO₀.usrDataSize
  refine wp_bind (wp_memcpy ((hS.user_open hB₁ hp₀ ho₀).mono le_rfl (by omega))
    ((hS.user_open hs.block hs.place hs.owner).mono le_rfl (by omega)) ?_)
  obtain ⟨m₂, hm₂⟩ : ∃ m₂, m₂ = update s₁.mem b.ptr (min m a.size) fun i => s₁.mem (a.ptr + i) :=
    ⟨_, rfl⟩
  rw [← hm₂]
  have hout : ∀ x, x < b.ptr ∨ b.ptr + b.size ≤ x → m₂ x = s₁.mem x := by
    intro x hx
    rw [hm₂]
    exact update_of_notMem (by omega)
  have hs₂ := hs.writeUser hout
  have hbyte := hc.keeps.mem _ B₀ (Set.notMem_empty _) hB₀ hfix₀ (a.ptr + a.size + k) (by omega)
    (by omega) fun _ => .inr (by omega)
  have hx : a.ptr + a.size + k < b.ptr ∨ b.ptr + b.size ≤ a.ptr + a.size + k := by
    unfold Apart at hsep
    omega
  have hsp : Spoiled { s₁ with mem := m₂ } a k v :=
    ⟨⟨B₀, hB₁, hp₀, hlive₀, ho₀, hi₀⟩, hlt, (hout _ hx).trans (hbyte.trans h.byte)⟩
  exact wp_bind (wp_mono (hsp.free hs₂.call.rep hk hv) (fun _ _ hF => hF.elim)
    fun _ _ hE => ⟨hE.1, h0⟩)

/-! ## The result -/

/-- The release of the `n` bytes at `p` finds that their slop is not what it was. -/
structure Caught (env : Env) (depth : ℕ) (st : Proc) (p : ℕ) : Prop where
  free : ∀ bt, (Call.free p).exec (ctxOf env depth) bt st.heap =
    .error (.abort (.guardRails 734)) st.heap
  realloc : ∀ bt m q s', m < 2 ^ 64 → memalignInt (ctxOf env depth) bt 8 m st.heap = .ok q s' →
    if q = 0 then (Call.realloc p m).exec (ctxOf env depth) bt st.heap = .ok 0 s'
    else ∃ s'', (Call.realloc p m).exec (ctxOf env depth) bt st.heap =
      .error (.abort (.guardRails 734)) s''

def Unalarmed (env : Env) (depth : ℕ) (st : Proc) : Prop :=
  ∀ (c : Call) bt s', c.Ok st.held →
    c.exec (ctxOf env depth) bt st.heap ≠ .error (.abort (.guardRails 734)) s'

/-- Every byte behind the `n` bytes at `p` is guarded, up to the end of the guard page: also when
the client goes on using the `n` bytes. -/
structure Guarded (env : Env) (depth : ℕ) (st : Proc) (p n : ℕ) : Prop where
  fault : ∀ k v, fld st.heap.mem (word st.heap.mem (p - 8)) .misalignment ≤ k →
    k < fld st.heap.mem (word st.heap.mem (p - 8)) .misalignment + pageSize →
    overrun p n k v st.heap = .error (.fault (p + n + k)) st.heap
  slop : ∀ k v, k < fld st.heap.mem (word st.heap.mem (p - 8)) .misalignment →
    ∃ s', overrun p n k v st.heap = .ok () s' ∧
      ∀ cs st', RunHolding env depth (p, n) ⟨s', st.held⟩ cs st' →
        (v ≠ magicSlop → Caught env depth st' p) ∧
          Unalarmed env depth ⟨st'.heap, st'.held.filter fun e => e.1 ≠ p⟩
  clean : Unalarmed env depth st

theorem Proc.Inv.unalarmed (hst : st.Inv env) : Unalarmed env depth st :=
  fun _ _ _ hok hrun => (wp_error (exec_spec hst hok) hrun).barred (.inr rfl)

theorem Spoiled.caught (h : Spoiled st.heap a k v) (hst : st.Inv env) (hk : k < maxSlop)
    (hv : v ≠ magicSlop) : Caught env depth st a.ptr where
  free bt := by
    have hfree : wp (GuardRails.free (ctxOf env depth) bt a.ptr) (fun _ _ => False)
        (fun e s' => e = .abort (.guardRails 734) ∧ s' = st.heap) st.heap := h.free hst.rep hk hv
    obtain ⟨e, s', hrun, rfl, rfl⟩ := wp_halts (wp_bind (f := fun _ => pure 0)
      (wp_mono hfree (fun _ _ hF => hF.elim) fun _ _ hE => hE))
    exact hrun
  realloc bt m q s' hm hrun := by
    have hwp := h.realloc hst hk hv hm hrun
    split
    · rename_i hq
      obtain ⟨p, s'', hp, rfl, -, rfl⟩ := wp_returns (wp_mono hwp (fun _ _ h => h) fun _ _ hE => hE.2 hq)
      exact hp
    · rename_i hq
      obtain ⟨e, s'', he, rfl, -⟩ := wp_halts (wp_mono hwp (fun _ _ h => hq h.2.1) fun _ _ hE => hE)
      exact ⟨s'', he⟩

theorem Proc.Inv.guarded (hst : st.Inv env) (ha : (ledger st.heap.log).Live a)
    (hmis : a.misalignment ≤ maxSlop) : Guarded env depth st a.ptr a.size := by
  obtain ⟨B, hB, -, ho, hp⟩ := hst.rep.log_ok.lawful.sound.live_inUse ha
  have hfld : fld st.heap.mem (word st.heap.mem (a.ptr - 8)) .misalignment = a.misalignment := by
    rw [hst.rep.word_ptr ha]
    exact ((hst.rep.shape.blocks _ B hB (by simp [hp])).owner a ho).misalignment
  refine ⟨fun k v hk hk' => ?_, fun k v hk => ?_, hst.unalarmed⟩
  · rw [hfld] at hk hk'
    exact overrun_faults hst.rep ha hk hk'
  · rw [hfld] at hk
    obtain ⟨s', hrun, hsp, hst', -⟩ := overrun_spoils (v := v) hst ha hk
    refine ⟨s', hrun, fun cs st' hcs => ?_⟩
    have hmarred := hcs.marred ⟨hst', hsp, fun n hn => ?_⟩
    · refine ⟨fun hv => ?_, hmarred.inv.unalarmed⟩
      have hcaught : Caught env depth ⟨st'.heap, st'.held.filter fun e => e.1 ≠ a.ptr⟩ a.ptr :=
        Spoiled.caught hmarred.spoiled hmarred.inv (hk.trans_le hmis) hv
      exact ⟨hcaught.free, hcaught.realloc⟩
    · obtain ⟨b, hptr, hsize, hb⟩ := hst.held _ hn
      obtain rfl := hst.rep.live_inj hb ha hptr
      exact hsize.symm

/-- Whatever call allocated the bytes with an alignment of at most `MAX_SLOP`, and however long
ago, a write behind them faults or is caught at the release. -/
theorem overrun_detected {st₀ : Proc} (henv : env.Ok) (hr : Reachable env depth st₀)
    (hok : c.Ok st₀.held) (hsize : c.size? = some n) (halign : c.alignment ≤ maxSlop)
    (hexec : c.exec (ctxOf env depth) bt st₀.heap = .ok p s) (hp : p ≠ 0)
    (hrun : RunHolding env depth (p, n) ⟨s, c.book st₀.held p⟩ cs st) :
    Guarded env depth st p n := by
  obtain ⟨hst, heff⟩ := wp_ok (exec_spec (hr.inv henv) hok) hexec
  obtain ⟨a, rfl, hsize', ha, -, -, B, -, hP⟩ := heff.served hp
  obtain rfl := Option.some.inj (hsize.symm.trans hsize')
  have hmis := hP.misalignment_lt
  have hslop : maxSlop = 32 := rfl
  exact (hrun.inv hst).guarded (hrun.live hst ha) (by omega)

/-- The 24 bytes of a first allocation end 8 bytes in front of the guard page. -/
theorem exists_slop : ∃ st₀ a s, Reachable (Env.still .defaults) 1 st₀ ∧
    (Call.malloc 24).Ok st₀.held ∧
    (Call.malloc 24).exec (ctxOf (Env.still .defaults) 1) [] st₀.heap = .ok a.ptr s ∧ a.ptr ≠ 0 ∧
    (Call.malloc 24).book st₀.held a.ptr = [(a.ptr, 24)] ∧ (ledger s.log).Live a ∧ a.size = 24 ∧ a.misalignment = 8 ∧
    s.Pristine (Env.still .defaults) (slotInitSize - refillSize 12) := by
  obtain ⟨st₀, hr, hidle, hheld⟩ :=
    Proc.Idle.reachable (Env.still_ok GRArgs.defaults_ok) (Env.still_granting rfl) 1
  have hroom : Affords st₀.heap 12 slotInitSize (slotInitSize - refillSize 12) := .inr (by decide)
  have hfits : Fits (Env.still .defaults).args 16 24 := by
    change Fits GRArgs.defaults 16 24
    exact ⟨by decide, by decide⟩
  obtain ⟨a, B, s, hrun, ho, hs, hp, -⟩ :=
    hidle.serves 1 [] (Env.still_granting rfl) (by decide) (by decide) hfits rfl
      (hidle.claims 1 Env.still_undisturbed hroom) hroom
  have h0 : a.ptr ≠ 0 := by
    rcases ho with ⟨-, -, hT⟩ | ⟨h0, -⟩
    · exact absurd hT (not_trouble hp.plain)
    · exact h0
  have hok : (Call.malloc 24).Ok st₀.held := show 24 < 2 ^ 64 by decide
  refine ⟨st₀, a, s, hr, hok, hrun, h0, ?_, hs.isLive, hs.size_eq, ?_, hp⟩
  · rw [hheld]
    exact if_neg h0
  have hpage := (hs.call.rep.shape.layout.block _ B hs.block).aligned
  have hsize : B.size = 4096 := by
    rw [hs.bin]
    rfl
  have hmis := hs.misalignment
  rw [hsize, if_pos (by decide)] at hmis
  omega

/-- A first allocation is guarded. -/
theorem overrun_detected_first : ∃ st p, Reachable (Env.still .defaults) 1 st ∧
    Guarded (Env.still .defaults) 1 st p 24 := by
  obtain ⟨st₀, a, s, hr, hok, hrun, h0, hbook, -⟩ := exists_slop
  refine ⟨_, a.ptr, hr.step ⟨hok, hrun⟩, ?_⟩
  refine overrun_detected (Env.still_ok GRArgs.defaults_ok) hr hok rfl (by decide) hrun h0
    (.refl ?_)
  rw [hbook]
  exact List.mem_singleton_self _

/-- A reallocation that gets no new block does not look at the slop. -/
theorem overrun_survives_realloc : ∃ st p s₁ s₂, Reachable (Env.still .defaults) 1 st ∧
    (p, 24) ∈ st.held ∧
    fld st.heap.mem (word st.heap.mem (p - 8)) .misalignment = 8 ∧
    overrun p 24 0 0 st.heap = .ok () s₁ ∧
    (Call.realloc p (2 ^ 33)).exec (ctxOf (Env.still .defaults) 1) [] s₁ = .ok 0 s₂ := by
  have henv := Env.still_ok GRArgs.defaults_ok
  obtain ⟨st₀, a, s, hr, hok, hrun, h0, hbook, ha, hsize, hmis, hp⟩ := exists_slop
  have hr' := hr.step ⟨hok, hrun⟩
  rw [hbook] at hr'
  have hst := hr'.inv henv
  obtain ⟨B, hB, -, ho, hpl⟩ := hst.rep.log_ok.lawful.sound.live_inUse ha
  have hO := (hst.rep.shape.blocks _ B hB (by simp [hpl])).owner a ho
  obtain ⟨s₁, hover, hsp, hst₁, hpools, hlog⟩ :=
    overrun_spoils (k := 0) (v := 0) hst ha (hmis ▸ by decide)
  rw [hsize] at hover
  have hbudget : 0 < s₁.budget := by
    rw [budget_congr hpools]
    exact lt_of_lt_of_le (by decide) hp.room
  have hplain : ∀ e ∈ s₁.log, e.Plain := by
    rw [hlog]
    exact fun e he => (List.mem_cons.1 he).elim (fun h => h ▸ trivial) (hp.plain e)
  have hfits : Fits (Env.still .defaults).args 8 (2 ^ 33) := by
    change Fits GRArgs.defaults 8 (2 ^ 33)
    exact ⟨by decide, by decide⟩
  obtain ⟨s₂, href⟩ := hst₁.refused (Env.still_granting rfl) hplain hbudget rfl rfl (by decide)
    (by decide) hfits (by decide) 1 []
  have hcaught : Caught (Env.still .defaults) 1 ⟨s₁, _⟩ a.ptr :=
    hsp.caught hst₁ (by decide) (by decide)
  have hret := hcaught.realloc [] (2 ^ 33) 0 s₂ (by decide) href
  rw [if_pos rfl] at hret
  refine ⟨_, a.ptr, s₁, s₂, hr', List.mem_singleton_self _, ?_, hover, hret⟩
  rw [hst.rep.word_ptr ha]
  exact hO.misalignment.trans hmis

end GuardRails
