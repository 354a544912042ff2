import GuardRails.Result.Conservation
import GuardRails.Spec.Drain

/-!
# Failed allocations

A request whose refill is refused memory returns `NULL`. The blocks that the refill got
before stay on the free list, and everything else is as it was.
-/

namespace GuardRails

open ByteMemory StateHoare

variable {env : Env} {s s' : Heap} {ctx : Ctx} {depth : ℕ} {st : Proc} {c : Call} {bt : List ℕ}
  {i b n usrSize : ℕ} {hs : List ℕ} {p : Supply} {log : List Event}

/-! ## The history of a refused refill -/

theorem contents_shortEvents (x : Container) :
    (ledger (shortEvents i b hs ++ log)).contents x =
      if x = .list ⟨.free, i, b⟩ then hs ++ (ledger log).contents x
      else (ledger log).contents x := by
  have hlog : shortEvents i b hs ++ log = .released (.slot i) :: (refusalEvents ++
      (hs.flatMap (blockEvents i b) ++ (.acquired (.slot i) :: log))) := by
    simp only [shortEvents, List.cons_append, List.append_assoc, List.nil_append]
  rw [hlog]
  cases x with
  | list r =>
      refine (list_blockEvents r).trans ?_
      simp only [Container.list.injEq, ledger_acquired]
      rfl
  | ring j => exact ring_blockEvents j

def Event.takes (l : LockId) : Event → Bool
  | .acquired l' => l' = l
  | _ => false

def Event.returns (l : LockId) : Event → Bool
  | .released l' => l' = l
  | _ => false

/-- Every lock is released as often as it is taken. -/
theorem countP_shortEvents (l : LockId) :
    (shortEvents i b hs).countP (Event.takes l) = (shortEvents i b hs).countP (Event.returns l) := by
  have hblocks : (hs.flatMap (blockEvents i b)).countP (Event.takes l) =
      (hs.flatMap (blockEvents i b)).countP (Event.returns l) := by
    induction hs with
    | nil => rfl
    | cons h hs ih =>
        rw [List.flatMap_cons, List.countP_append, List.countP_append, ih]
        congr 1
  simp [shortEvents, refusalEvents, List.countP_cons, List.countP_append, hblocks, Event.takes,
    Event.returns]
  exact Nat.add_right_comm _ _ _

/-! ## The result -/

/-- The block of the allocation is as it was, slop and guard page included. -/
structure Standing (s s' : Heap) (a : Alloc) : Prop where
  live : (ledger s'.log).Live a
  user : ∀ k < a.size, s'.mem (a.ptr + k) = s.mem (a.ptr + k)
  fields : ∀ f, fld s'.mem a.hdr f = fld s.mem a.hdr f
  bytes : ∀ x, a.hdr ≤ x → x < a.hdr + 2 ^ fld s.mem a.hdr .binNum →
    (x < a.hdr + 48 ∨ a.hdr + 64 ≤ x) → s'.mem x = s.mem x
  rights : ∀ x, a.hdr ≤ x → x < a.hdr + 2 ^ fld s.mem a.hdr .binNum + guardSize →
    (s'.pages (x / pageSize) = .none ↔ s.pages (x / pageSize) = .none)

/-- What a request that is refused memory makes of the heap `s`, when its refill of the bin
`b` of the slot `i` began at the time `t` and got the blocks `hs` before the refusal. -/
structure Withdrawn (env : Env) (s s' : Heap) (i b t : ℕ) (hs : List ℕ) (p : Supply) : Prop where
  /-- The bin has the blocks; memory, pages, pools, the clock and the history apart, nothing
  else has changed. -/
  drawn : Drawn p (shortEvents i b hs) (s.addFree i b hs) s'
  /-- The pools are those that the blocks were cut from. -/
  pools : ∃ q, Supply.fill env (2 ^ b) hs.length ⟨s.memPools, t⟩ = .granted hs q ∧
    s'.memPools = q.pools
  stock : ∃ held held', Stock s held ∧ Stock s' held' ∧
    held' (.list ⟨.free, i, b⟩) = hs ++ held (.list ⟨.free, i, b⟩) ∧
    ∀ x ≠ .list ⟨.free, i, b⟩, held' x = held x
  fresh : ∀ h ∈ hs, .carved h (2 ^ b) ∈ s'.log ∧ ∀ size, .carved h size ∉ s.log
  live : ∀ a : Alloc, (ledger s.log).Live a → Standing s s' a
  locks : ∃ evs, s'.log = evs ++ s.log ∧ ∀ l, evs.countP (Event.takes l) = evs.countP (Event.returns l)

/-- The blocks of the refill are new. -/
theorem Stock.fresh {held held' : Container → List ℕ} (h : Stock s held) (h' : Stock s' held')
    (hfree : held' (.list ⟨.free, i, b⟩) = hs ++ held (.list ⟨.free, i, b⟩))
    (hrest : ∀ x ≠ .list ⟨.free, i, b⟩, held' x = held x) {k : ℕ} (hk : k ∈ hs) (size : ℕ) :
    .carved k size ∉ s.log := by
  intro hc
  obtain ⟨x, hx, -⟩ := h.place k size hc
  have hk' : k ∈ held' (.list ⟨.free, i, b⟩) := hfree ▸ List.mem_append_left _ hk
  obtain ⟨size', hc'⟩ := h'.carved _ k hk'
  have hx' : k ∈ held' x := by
    by_cases hxf : x = .list ⟨.free, i, b⟩
    · exact hxf ▸ hk'
    · exact hrest x hxf ▸ hx
  obtain rfl := (h'.place k size' hc').unique hx' hk'
  have hnodup := h'.nodup (.list ⟨.free, i, b⟩)
  rw [hfree] at hnodup
  exact List.disjoint_of_nodup_append hnodup hk hx

theorem carved_mem_shortEvents {h : ℕ} (hh : h ∈ hs) : .carved h (2 ^ b) ∈ shortEvents i b hs := by
  have hmem : .carved h (2 ^ b) ∈ hs.flatMap (blockEvents i b) :=
    List.mem_flatMap.2 ⟨h, hh, by simp [blockEvents]⟩
  unfold shortEvents
  simp [hmem]

/-- A block in use that is left stands as it was. -/
theorem InCall.standing {F : Prop} {a : Alloc} (hc : InCall env F 0 ∅ s s') (hR : Rep env 0 s)
    (ha : (ledger s.log).Live a)
    (hsame : ∀ i b, (ledger s'.log).list ⟨.inUse, i, b⟩ = (ledger s.log).list ⟨.inUse, i, b⟩) :
    Standing s s' a := by
  have hX : a.hdr ∉ (∅ : Set ℕ) := Set.notMem_empty _
  obtain ⟨B, hB, -, -, hp⟩ := hR.log_ok.lawful.sound.live_inUse ha
  have hfix : B.Fixed := .inr (.inr hp)
  have hB' := hc.keeps.block _ B hX hB hfix
  have hsize : 2 ^ fld s.mem a.hdr .binNum = B.size := hR.pow_binNum hB (by simp [hp])
  have hbytes : ∀ x, a.hdr ≤ x → x < a.hdr + B.size → (x < a.hdr + 48 ∨ a.hdr + 64 ≤ x) →
      s'.mem x = s.mem x := fun x hx hx' hl => hc.keeps.mem _ B hX hB hfix x hx hx' fun _ => hl
  refine ⟨hc.keeps.live hR ha hX, hc.keeps.user hR ha hX,
    hR.fields_kept hc.rep hB hp hbytes (hsame _ _), hsize.symm ▸ hbytes, fun x hx hx' => ?_⟩
  rw [hsize] at hx'
  by_cases hin : x < a.hdr + B.size
  · have hopen : ∀ {t : Heap}, PagesOk t.pages t.memPools (ledger t.log) →
        (ledger t.log).block a.hdr = some B → t.pages (x / pageSize) ≠ .none := by
      intro t hP ht
      have h := hP.opened _ B ht (by simp [hp]) (x - a.hdr) (by omega)
      rwa [Nat.add_sub_of_le hx] at h
    exact iff_of_false (hopen hc.rep.shape.pages hB') (hopen hR.shape.pages hB)
  · exact iff_of_true (hc.rep.shape.pages.guard _ B hB' x (not_lt.1 hin) hx')
      (hR.shape.pages.guard _ B hB x (not_lt.1 hin) hx')

/-- The state that a refused request leaves. -/
theorem Proc.Inv.withdrawn {F : Prop} (hst : st.Inv env) (hc : InCall env F 0 ∅ st.heap s')
    (hsh : st.heap.Short env b usrSize hs p)
    (hD : Drawn p (shortEvents (env.slotFor st.heap.clock usrSize) b hs)
      (st.heap.addFree (env.slotFor st.heap.clock usrSize) b hs) s') :
    Withdrawn env st.heap s' (env.slotFor st.heap.clock usrSize) b
      (slotTime st.heap.clock usrSize + 1) hs p := by
  obtain ⟨i, hi⟩ : ∃ i, i = env.slotFor st.heap.clock usrSize := ⟨_, rfl⟩
  have hrefused := hsh.refused
  rw [← hi] at hD hrefused ⊢
  have hlog : s'.log = shortEvents i b hs ++ st.heap.log := by
    obtain ⟨m, pages, rfl⟩ := hD
    rfl
  have hcontents : ∀ x, (ledger s'.log).contents x = if x = .list ⟨.free, i, b⟩ then
      hs ++ (ledger st.heap.log).contents x else (ledger st.heap.log).contents x :=
    fun x => hlog ▸ contents_shortEvents x
  have hst' : Proc.Inv env ⟨s', st.held⟩ := hst.after hc (fun h hh => absurd hh (Set.notMem_empty h))
    (fun e he => .inl ⟨he, fun _ _ _ => Set.notMem_empty _⟩) hst.nodup
  have hstock : Stock s' (ledger s'.log).contents := hst'.stock
  have hfree : (ledger s'.log).contents (.list ⟨.free, i, b⟩) =
      hs ++ (ledger st.heap.log).contents (.list ⟨.free, i, b⟩) :=
    (hcontents _).trans (if_pos rfl)
  have hrest : ∀ x ≠ .list ⟨.free, i, b⟩, (ledger s'.log).contents x =
      (ledger st.heap.log).contents x := fun x hx => (hcontents x).trans (if_neg hx)
  refine ⟨hD, ?_, ⟨_, _, hst.stock, hstock, hfree, hrest⟩, fun h hh => ⟨?_, ?_⟩, fun a ha => ?_,
    ⟨_, hlog, countP_shortEvents⟩⟩
  · obtain ⟨q, hq, hpools⟩ := Supply.fill_refused hrefused
    exact ⟨q, hq, (congrArg Supply.pools hD.supply).trans hpools⟩
  · rw [hlog]
    exact List.mem_append_left _ (carved_mem_shortEvents hh)
  · exact fun size => hst.stock.fresh hstock hfree hrest hh size
  · exact hc.standing hst.rep ha fun i b => hrest (.list ⟨.inUse, i, b⟩) (by simp)

/-- A request that is refused memory part way returns `NULL`, or `ENOMEM`, and leaves nothing
behind but free blocks. -/
theorem failed_allocation_atomic (henv : env.Ok) (hr : Reachable env depth st)
    (hnull : env.args.abortOnNull = false) (hok : c.Ok st.held) (hsize : c.size? = some n)
    (hfits : c.Fits env.args) (hcalm : env.CalmFrom st.heap.clock) :
    (∀ alignment, c = .posixMemalign alignment n → ¬ PosixAligned alignment →
      posixMemalign (ctxOf env depth) bt alignment n st.heap = .ok (22, none) st.heap) ∧
    (c.Aligned → ∀ hs p, st.heap.Short env (classOf env.args c.alignment n) n hs p →
      ∃ s', c.exec (ctxOf env depth) bt st.heap = .ok 0 s' ∧
        (∀ alignment, c = .posixMemalign alignment n →
          posixMemalign (ctxOf env depth) bt alignment n st.heap = .ok (12, none) s') ∧
        Withdrawn env st.heap s' (env.slotFor st.heap.clock n) (classOf env.args c.alignment n)
          (slotTime st.heap.clock n + 1) hs p) := by
  have hst := hr.inv henv
  refine ⟨fun alignment _ hbad => posixMemalign_einval hbad, fun halign hs p hsh => ?_⟩
  obtain ⟨hal, hn⟩ := c.args_lt hok hsize
  have hmem : wp (memalignInt (ctxOf env depth) bt c.alignment n) _ _ st.heap :=
    hsh.memalignInt (ctxOf_ok env depth) hcalm hst.rep hst.isInit hst.gMutex hnull
      (hfits n hsize).class_lt
  have hboth : wp (memalignInt (ctxOf env depth) bt c.alignment n)
      (fun r s' => r = 0 ∧ InCall env False 0 ∅ st.heap s' ∧
        Drawn p (shortEvents (env.slotFor st.heap.clock n) (classOf env.args c.alignment n) hs)
          (st.heap.addFree (env.slotFor st.heap.clock n) (classOf env.args c.alignment n) hs) s')
      (fun _ _ => False) st.heap := by
    refine wp_mono (wp_and (memalignInt_outcome (F := False) (G := False) hst hal hn nofun nofun)
      hmem) ?_ fun _ _ h => h.2
    rintro _ s' ⟨ho, rfl, hD⟩
    obtain ⟨-, hc, -⟩ := ho.resolve_right fun h => h.1 rfl
    exact ⟨rfl, hc, hD⟩
  obtain ⟨_, s', hrun, rfl, hc, hD⟩ := wp_returns (exec_null hsize halign hboth)
  refine ⟨s', hrun, ?_, hst.withdrawn hc hsh hD⟩
  rintro alignment rfl
  obtain ⟨_, s'', hposix, rfl, -⟩ := wp_returns (posixMemalign_enomem halign hmem)
  have hexec : (Call.posixMemalign alignment n).exec (ctxOf env depth) bt st.heap = .ok 0 s'' := by
    change EStateM.bind _ _ _ = _
    rw [EStateM.bind, hposix]
    rfl
  obtain ⟨-, rfl⟩ := EStateM.Result.ok.inj (hrun.symm.trans hexec)
  exact hposix

/-- A client has allocations, and the refill for its next request gets some of its blocks. -/
theorem failed_allocation_atomic_drained : ∃ st s' hs p, Reachable (Env.still .defaults) 1 st ∧
    st.held ≠ [] ∧ hs ≠ [] ∧
    (Call.malloc 100000).exec (ctxOf (Env.still .defaults) 1) [] st.heap = .ok 0 s' ∧
    Withdrawn (Env.still .defaults) st.heap s' 0 17 (slotTime st.heap.clock 100000 + 1) hs p := by
  obtain ⟨st, P, hr, h⟩ := exists_drained 1
  obtain ⟨-, hs, p, hne, hsh⟩ := h.short 100000
  have hclass : classOf (Env.still .defaults).args (Call.malloc 100000).alignment 100000 = 17 := by
    decide
  have hfits : (Call.malloc 100000).Fits (Env.still .defaults).args := fits_defaults (by decide)
  have hok : (Call.malloc 100000).Ok st.held := (by decide : (100000 : ℕ) < 2 ^ 64)
  obtain ⟨s', hrun, -, hw⟩ := (failed_allocation_atomic (Env.still_ok GRArgs.defaults_ok) hr rfl hok
    rfl hfits fun _ _ _ => rfl).2 trivial hs p (hclass ▸ hsh)
  have hslot : (Env.still .defaults).slotFor st.heap.clock 100000 = 0 := Nat.mod_one _
  rw [hclass, hslot] at hw
  exact ⟨st, s', hs, p, hr, h.held, hne, hrun, hw⟩

end GuardRails
