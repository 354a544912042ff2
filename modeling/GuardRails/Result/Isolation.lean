import GuardRails.Spec.Complete

/-!
# Isolation of user data

The bytes of a live allocation are the client's: what a run leaves in them is what the stores
through their own pointer put there, in the order of the run.
-/

namespace GuardRails

open ByteMemory StateHoare

variable {env : Env} {depth : ℕ} {st st' : Proc} {c : Call} {s' : Heap} {bt : List ℕ} {p n : ℕ}

/-- What a call writes into the user data at `p`: the bytes of a store through `p`. -/
def Call.writes (p : ℕ) (data : Mem) : Call → Mem
  | store ptr off bytes =>
      if ptr = p then ByteMemory.update data off bytes.length fun j => bytes.getD j 0 else data
  | _ => data

/-- A sequence of completed calls in which the client holds `e` all the time. -/
inductive RunHolding (env : Env) (depth : ℕ) (e : ℕ × ℕ) : Proc → List Call → Proc → Prop
  | refl {st : Proc} (hmem : e ∈ st.held) : RunHolding env depth e st [] st
  | tail {st st' st'' : Proc} {cs : List Call} {c : Call} (hrun : RunHolding env depth e st cs st')
      (hstep : Step env depth st' c st'') (hmem : e ∈ st''.held) :
      RunHolding env depth e st (cs ++ [c]) st''

theorem RunHolding.mem {e : ℕ × ℕ} {cs : List Call} (h : RunHolding env depth e st cs st') :
    e ∈ st'.held := by
  cases h with
  | refl hmem => exact hmem
  | tail _ _ hmem => exact hmem

theorem RunHolding.inv {e : ℕ × ℕ} {cs : List Call} (h : RunHolding env depth e st cs st')
    (hst : st.Inv env) : st'.Inv env := by
  induction h with
  | refl => exact hst
  | tail _ hstep _ ih => exact hstep.inv ih

theorem Call.writes_of_target {data : Mem} (h : c.target? ≠ some p) : c.writes p data = data := by
  cases c with
  | store ptr off bytes => exact if_neg fun he => h (congrArg some he)
  | _ => rfl

theorem Call.writes_congr {data data' : Mem} (h : ∀ i < n, data i = data' i) :
    ∀ i < n, c.writes p data i = c.writes p data' i := by
  intro i hi
  cases c with
  | store ptr off bytes =>
      simp only [Call.writes]
      split
      · unfold ByteMemory.update
        split
        · rfl
        · exact h i hi
      · exact h i hi
  | _ => exact h i hi

theorem store_log {ctx : Ctx} {s : Heap} {ptr off q : ℕ} {bytes : List UInt8}
    (h : (Call.store ptr off bytes).exec ctx bt s = .ok q s') : s'.log = s.log := by
  have hwp : wp ((Call.store ptr off bytes).exec ctx bt) (fun _ s' => s'.log = s.log)
      (fun _ _ => True) s := by
    refine wp_bind (wp_bind (wp_touch (fun _ => wp_modify (wp_pure rfl)) fun _ => trivial))
  have h := wp_ok hwp h
  exact h

theorem store_mem {ctx : Ctx} {s : Heap} {ptr off q : ℕ} {bytes : List UInt8}
    (h : (Call.store ptr off bytes).exec ctx bt s = .ok q s') :
    s'.mem = update s.mem (ptr + off) bytes.length fun j => bytes.getD j 0 := by
  have hwp : wp ((Call.store ptr off bytes).exec ctx bt)
      (fun _ s' => s'.mem = update s.mem (ptr + off) bytes.length fun j => bytes.getD j 0)
      (fun _ _ => True) s := by
    refine wp_bind (wp_bind (wp_touch (fun _ => wp_modify (wp_pure rfl)) fun _ => trivial))
  have h := wp_ok hwp h
  exact h

/-- A reallocation that the client goes on holding the old pointer after was refused. -/
theorem Effect.realloc_held {origBuf newUsrSize q : ℕ} {held : Books} {s : Heap} {a : Alloc}
    (heff : Effect env.args (.realloc origBuf newUsrSize) q s s') (ha : (ledger s.log).Live a)
    (hptr : a.ptr = origBuf) (hmem : (origBuf, n) ∈ (Call.realloc origBuf newUsrSize).book held q) :
    q = 0 := by
  by_contra hq
  rw [Call.book, if_neg hq, List.mem_cons] at hmem
  rcases hmem with he | hmem
  · obtain ⟨b, hb, -, -, -, hfill, -⟩ := heff.served hq
    exact (hfill.2 a ha hptr).ptr_ne (hb.trans ((Prod.mk.inj he).1.symm.trans hptr.symm))
  · exact absurd rfl (of_decide_eq_true (List.mem_filter.1 hmem).2)

/-- One call changes the bytes of an allocation that stays as far as it stores into them. -/
theorem Step.data (hst : st.Inv env) (hstep : Step env depth st c st') (hmem : (p, n) ∈ st.held)
    (hmem' : (p, n) ∈ st'.held) :
    ∀ i < n, st'.heap.mem (p + i) = c.writes p (fun j => st.heap.mem (p + j)) i := by
  obtain ⟨hok, hexec⟩ := hstep
  have heff := (wp_ok (exec_spec hst hok) hexec).2
  obtain ⟨a, rfl, rfl, ha⟩ := hst.holds hmem
  by_cases ht : c.target? = some a.ptr
  · cases c with
    | realloc origBuf newUsrSize =>
        obtain rfl : origBuf = a.ptr := Option.some.inj ht
        obtain rfl := heff.realloc_held ha rfl hmem'
        exact (heff.refused nofun rfl a ha).2
    | free ptr =>
        obtain rfl : ptr = a.ptr := Option.some.inj ht
        exact absurd rfl (of_decide_eq_true (List.mem_filter.1 hmem').2)
    | store ptr off bytes =>
        obtain rfl : ptr = a.ptr := Option.some.inj ht
        intro i _
        rw [store_mem hexec, Call.writes, if_pos rfl]
        unfold ByteMemory.update
        rw [show a.ptr + i - (a.ptr + off) = i - off by omega]
        congr 1
        exact propext ⟨fun h => by omega, fun h => by omega⟩
    | _ => exact absurd ht nofun
  · rw [Call.writes_of_target ht]
    exact (heff.others a ha ht).2

/-- An allocation stays while the client holds it. -/
theorem Step.live {a : Alloc} (hst : st.Inv env) (hstep : Step env depth st c st')
    (hmem' : (a.ptr, n) ∈ st'.held) (ha : (ledger st.heap.log).Live a) :
    (ledger st'.heap.log).Live a := by
  obtain ⟨hok, hexec⟩ := hstep
  have heff := (wp_ok (exec_spec hst hok) hexec).2
  by_cases ht : c.target? = some a.ptr
  · cases c with
    | realloc origBuf newUsrSize =>
        obtain rfl : origBuf = a.ptr := Option.some.inj ht
        obtain rfl := heff.realloc_held ha rfl hmem'
        exact (heff.refused nofun rfl a ha).1
    | free ptr =>
        obtain rfl : ptr = a.ptr := Option.some.inj ht
        exact absurd rfl (of_decide_eq_true (List.mem_filter.1 hmem').2)
    | store ptr off bytes =>
        rw [store_log hexec]
        exact ha
    | _ => exact absurd ht nofun
  · exact (heff.others a ha ht).1

theorem RunHolding.live {a : Alloc} {cs : List Call} (hst : st.Inv env)
    (hrun : RunHolding env depth (a.ptr, n) st cs st') (ha : (ledger st.heap.log).Live a) :
    (ledger st'.heap.log).Live a := by
  induction hrun with
  | refl => exact ha
  | tail hrun hstep hmem ih => exact hstep.live (hrun.inv hst) hmem ih

theorem RunHolding.data {cs : List Call} (hst : st.Inv env)
    (hrun : RunHolding env depth (p, n) st cs st') :
    ∀ i < n, st'.heap.mem (p + i) = cs.foldl (Call.writes p) (fun j => st.heap.mem (p + j)) i := by
  induction hrun with
  | refl => exact fun i _ => rfl
  | @tail st' st'' cs c hrun hstep hmem ih =>
      intro i hi
      rw [List.foldl_append, List.foldl_cons, List.foldl_nil,
        hstep.data (hrun.inv hst) hrun.mem hmem i hi]
      exact Call.writes_congr ih i hi

/-- What is in the user data of an allocation that is only to be poisoned. -/
inductive Call.Uninitialized (usrSize : ℕ) : Call → Prop
  | malloc : Uninitialized usrSize (.malloc usrSize)
  | memalign {alignment : ℕ} : Uninitialized usrSize (.memalign alignment usrSize)
  | posixMemalign {alignment : ℕ} : Uninitialized usrSize (.posixMemalign alignment usrSize)

/-- The bytes of an allocation change by the client's stores only, and are set up first. -/
structure Isolated (env : Env) (depth : ℕ) (st : Proc) : Prop where
  kept : ∀ p n cs st', RunHolding env depth (p, n) st cs st' →
    ∀ i < n, st'.heap.mem (p + i) = cs.foldl (Call.writes p) (fun j => st.heap.mem (p + j)) i
  poisoned : ∀ (c : Call) bt p n s', c.Uninitialized n → c.Ok st.held → env.args.poison = true →
    c.exec (ctxOf env depth) bt st.heap = .ok p s' → p ≠ 0 →
    ∀ i < n, s'.mem (p + i) = env.args.poisonVal
  zeroed : ∀ nmemb usrSize bt p s', (Call.calloc nmemb usrSize).Ok st.held →
    (Call.calloc nmemb usrSize).exec (ctxOf env depth) bt st.heap = .ok p s' → p ≠ 0 →
    ∀ i < nmemb * usrSize % 2 ^ 64, s'.mem (p + i) = 0

theorem user_data_isolated (henv : env.Ok) (hr : Reachable env depth st) :
    Isolated env depth st where
  kept p n cs st' hrun := hrun.data (hr.inv henv)
  poisoned c bt p n s' hc hok hpoison hrun hp := by
    have heff := (wp_ok (exec_spec (hr.inv henv) hok) hrun).2
    obtain ⟨a, rfl, hsize, -, -, hfill, -⟩ := heff.served hp
    cases hc <;> obtain rfl := Option.some.inj hsize <;> exact hfill hpoison
  zeroed nmemb usrSize bt p s' hok hrun hp := by
    have heff := (wp_ok (exec_spec (hr.inv henv) hok) hrun).2
    obtain ⟨a, rfl, hsize, -, -, hfill, -⟩ := heff.served hp
    have hsize' : nmemb * usrSize % 2 ^ 64 = a.size := Option.some.inj hsize
    rw [hsize']
    exact hfill

theorem user_data_isolated_store : ∃ st st' p, Reachable (Env.still .defaults) 1 st ∧
    RunHolding (Env.still .defaults) 1 (p, 24) st [.store p 3 [7, 9]] st' ∧
    st'.heap.mem (p + 4) = 9 := by
  have henv := Env.still_ok GRArgs.defaults_ok
  obtain ⟨st, a, B, hr, hidle, hheld, -⟩ := exists_served 1 24 (by decide) rfl (by decide)
  have hmem : (a.ptr, 24) ∈ st.held := by simp [hheld]
  have hstore : wp ((Call.store a.ptr 3 [7, 9]).exec (ctxOf (Env.still .defaults) 1) [])
      (fun _ _ => True) (Unexcused st.heap) st.heap :=
    wp_bind (wp_mono (logs_storeBytes st.heap) (fun _ _ _ => wp_pure trivial) fun _ _ h => h)
  have hok : (Call.store a.ptr 3 [7, 9]).Ok st.held := ⟨24, hmem, by decide⟩
  obtain ⟨p, s', hstep, -⟩ := hidle.exec hok nofun hstore
  have hrun : RunHolding (Env.still .defaults) 1 (a.ptr, 24) st [.store a.ptr 3 [7, 9]] _ :=
    .tail (.refl hmem) hstep hmem
  refine ⟨st, _, a.ptr, hr, hrun, ?_⟩
  rw [(user_data_isolated henv hr).kept _ _ _ _ hrun 4 (by decide)]
  simp [Call.writes, ByteMemory.update]

end GuardRails
