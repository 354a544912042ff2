import GuardRails.Result.Conservation
import GuardRails.Spec.Tally

/-!
# Reallocation

`realloc` moves the user data to a new block and releases the old one, and the counters go up
by one allocation and one release. When there is no memory for the new block, the old one
stays as it was.
-/

namespace GuardRails

open ByteMemory StateHoare

variable {env : Env} {s s' s₁ : Heap} {ctx : Ctx} {depth : ℕ} {st : Proc} {bt : List ℕ}
  {a a₀ : Alloc} {p q n m : ℕ}

/-! ## What is booked -/

/-- An allocation that returns `NULL` books nothing; otherwise it books the block that the
pointer leads to. -/
theorem booked_of_refused (hR : Rep env 0 s₁) (h0 : openDumps s.log = 0)
    (hT : (p = 0 ∧ Grows [] s s₁) ∨ ∃ hdr evs, Takes n hdr bt evs ∧ Grows evs s s₁ ∧
      (hdr = 0 ∨ ∃ mis log, s₁.log = .filled ⟨hdr, p, n, mis, bt⟩ :: log)) :
    (p = 0 ∧ Grows [] s s₁) ∨
      p ≠ 0 ∧ ∃ hdr evs, Takes n hdr bt evs ∧ Grows evs s s₁ ∧ word s₁.mem (sub64 p 8) = hdr := by
  refine hT.imp_right ?_
  rintro ⟨hdr, evs, ht, hg, rfl | ⟨mis, log, hlog⟩⟩
  · obtain ⟨i, b, rfl⟩ := ht
    have hmem : .linked ⟨.inUse, i, b⟩ 0 ∈ tally s₁.log := by
      rw [hg.tally, if_pos h0]
      simp
    obtain ⟨B, hB, -⟩ := hR.log_ok.lawful.block_of_linked (tally_subset hmem)
    exact absurd (hR.shape.layout.block_bounds hB).1 (lt_irrefl 0)
  · have hlive := live_filled (hlog ▸ hR.log_ok.lawful)
    rw [← hlog] at hlive
    have hptr := hR.ptrWord hlive
    exact ⟨hR.ptr_ne_zero hlive, hdr, evs, ht, hg, hptr⟩

/-- What a reallocation books, beginning with the last event. -/
theorem realloc_books (hst : st.Inv env) (hm : m < 2 ^ 64) (h0 : openDumps st.heap.log = 0)
    (ha : (ledger st.heap.log).Live a₀) :
    wp (realloc (ctxOf env depth) bt a₀.ptr m)
      (fun q s' => (q = 0 ∧ Grows [] st.heap s') ∨ q ≠ 0 ∧ ∃ evs evs',
        Takes m (word s'.mem (sub64 q 8)) bt evs ∧ Drops a₀.hdr evs' ∧
          Grows (evs' ++ evs) st.heap s')
      (fun _ _ => True) st.heap := by
  have hctx := ctxOf_ok env depth
  have hsil := ctxOf_silent hst.rep.shape.env_ok.signals depth
  refine realloc_rule (F := False) (G := False) hctx hst.rep hst.ready (fun _ => rfl) nofun hm nofun
    nofun ha (memalignInt_books hsil) (fun _ _ _ => trivial) (fun s₁ hT hc _ => ?_) ?_
  · exact .inl ((booked_of_refused hc.rep h0 hT).resolve_right fun h => h.1 rfl)
  · rintro a B s₁ s₂ hne hT ⟨mem, rfl⟩ hs hlive hhdr _ _
    have hR := hs.call.rep
    generalize hs₂ : ({ s₁ with mem := mem } : Heap) = s₂ at hs hlive hR ⊢
    have hlog : s₂.log = s₁.log := hs₂ ▸ rfl
    have hcopy : Grows [] s₁ s₂ := .of_adds (hs₂ ▸ ⟨rfl, rfl⟩)
    have hT₂ : (a.ptr = 0 ∧ Grows [] st.heap s₂) ∨ ∃ hdr evs, Takes m hdr bt evs ∧
        Grows evs st.heap s₂ ∧ (hdr = 0 ∨ ∃ mis log, s₂.log = .filled ⟨hdr, a.ptr, m, mis, bt⟩ :: log) := by
      rw [hlog]
      refine hT.imp (And.imp_right fun h => h.trans hcopy) ?_
      rintro ⟨hdr, evs, ht, hg, hf⟩
      exact ⟨hdr, evs, ht, hg.trans hcopy, hf⟩
    obtain ⟨-, hdr, evs, ht, hg, hptr⟩ := (booked_of_refused hR h0 hT₂).resolve_left fun h => hne h.1
    have hfree : wp (free (ctxOf env depth) bt a₀.ptr) _ (Halted env False False) s₂ :=
      free_spec hctx hR hs.call.ready hlive
    have hbooks : wp (free (ctxOf env depth) bt a₀.ptr) _ _ s₂ := free_books hsil (hR.ptr_ne_zero hlive)
    refine wp_mono (wp_and hfree hbooks) ?_ fun _ _ _ => trivial
    rintro _ s₃ ⟨⟨hc₃, -⟩, evs', hd, hg'⟩
    -- the new block is not the one that was released, so its pointer still leads to it
    have hblock := hc₃.keeps.block _ B hhdr hs.block (.inr (.inr hs.place))
    have hptr₃ := hc₃.rep.ptrWord ⟨B, hblock, hs.live, hs.owner, hs.intact⟩
    rw [hR.ptrWord hs.isLive] at hptr
    rw [hR.ptrWord hlive] at hd
    exact .inr ⟨hne, evs, evs', by rwa [hptr₃, hptr], hd, hg.trans hg'⟩

/-! ## The counters -/

theorem sub64_ptr (hR : Rep env 0 s) (ha : (ledger s.log).Live a) : sub64 a.ptr 8 = a.ptr - 8 := by
  obtain ⟨B, hB, -, ho, hp⟩ := hR.log_ok.lawful.sound.live_inUse ha
  have hbd := hR.shape.user_bounds hB (by simp [hp]) ho
  have hlay := hR.shape.layout.block_bounds hB
  unfold sub64
  omega

/-- The share of `n` bytes at `p`, whose block is the one that the word below leads to. -/
def Account.shareAt (a : Account) (m : Mem) (p n : ℕ) : ℕ :=
  a.share (fld m (word m (p - 8)) .slotNum) (fld m (word m (p - 8)) .binNum) n

/-- A release is counted for the request that the block was in use for. -/
theorem debited_released {log new rest : List Event} {x : Account} {i b h : ℕ} {q : Request}
    (hl : Lawful (new ++ log)) (hq : (ledger log).request h = some q)
    (hnew : new.filter (·.Booked) = .unlinked ⟨.inUse, i, b⟩ h :: .uncounted i h :: rest)
    (hrest : ∀ e ∈ rest, ∀ L, e.debit L x = 0) (hne : ∀ j, .uncounted j h ∉ rest) :
    debited x (new ++ log) = debited x log + x.share i b q.size := by
  obtain ⟨l₁, l₂, rfl, h₁, -, h₂⟩ := List.filter_eq_cons_iff.1 hnew
  obtain ⟨l₃, l₄, rfl, h₃, -, h₄⟩ := List.filter_eq_cons_iff.1 h₂
  have hz : ∀ {l : List Event}, (∀ e ∈ l, ¬ (decide e.Booked) = true) → ∀ e ∈ l, ∀ L, e.debit L x = 0 :=
    fun hl e he L => e.debit_eq_zero (fun hb => hl e he (decide_eq_true hb)) L x
  have hz₄ : ∀ e ∈ l₄, ∀ L, e.debit L x = 0 := by
    intro e he L
    by_cases hb : e.Booked
    · exact hrest e (h₄ ▸ List.mem_filter.2 ⟨he, decide_eq_true hb⟩) L
    · exact e.debit_eq_zero hb L x
  have hout : ∀ j, .uncounted j h ∉ l₄ := fun j hj =>
    hne j (h₄ ▸ List.mem_filter.2 ⟨hj, decide_eq_true trivial⟩)
  simp only [List.append_assoc, List.cons_append] at hl ⊢
  have hstands := (((hl.of_append l₁).1.of_append l₃).1).request_append hout hq
  rw [debited_append (hz h₁), debited, debited_append (hz h₃), debited, debited_append hz₄]
  simp only [Event.debit, hstands, Option.map_some, Option.getD_some, if_true, Account.share]
  omega

theorem GrowsBy.posted {evs : List Event} (hg : Grows evs s s') (hR : Rep env 0 s) (hR' : Rep env 0 s') :
    Posted s s' := by
  refine Posted.of_credit hR.shape.counts hR.log_ok.lawful hR'.shape.counts hR'.log_ok.lawful fun x => ?_
  have h := hg.credits x
  rwa [Pi.zero_apply, add_zero] at h

theorem Posted.words {x : Account} {c d : ℕ} (hp : Posted s s') (hR' : Rep env 0 s')
    (hc : credited x s'.log = credited x s.log + c) (hd : debited x s'.log = debited x s.log + d) :
    s'.credit x = (s.credit x + c) % 2 ^ 64 ∧ s'.debit x = (s.debit x + d) % 2 ^ 64 := by
  have hlt := hR'.words_lt x
  have h₁ := hp.credit x
  have h₂ := hp.debit x
  rw [hc] at h₁
  rw [hd] at h₂
  unfold Int.ModEq at h₁ h₂
  omega

/-- The share of a live allocation is that of its block. -/
theorem Rep.shareAt (hR : Rep env 0 s) {a : Alloc} (ha : (ledger s.log).Live a) (x : Account) (n : ℕ) :
    ∃ B, (ledger s.log).block a.hdr = some B ∧ B.place ≠ .raw ∧
      x.shareAt s.mem a.ptr n = x.share B.slot B.bin n := by
  obtain ⟨B, hB, -, -, hp⟩ := hR.log_ok.lawful.sound.live_inUse ha
  have hplace : B.place ≠ .raw := by simp [hp]
  have hO := hR.shape.blocks _ B hB hplace
  refine ⟨B, hB, hplace, ?_⟩
  unfold Account.shareAt
  rw [← sub64_ptr hR ha, hR.ptrWord ha, hO.slotNum, hO.binNum]

/-- Without dumps the counters go up by one allocation and one release. -/
theorem counted_moved {evs evs' : List Event} {a : Alloc}
    (hR : Rep env 0 s) (hR' : Rep env 0 s') (h0 : openDumps s.log = 0) (hd : DumpFree s s')
    (ha₀ : (ledger s.log).Live a₀) (ha : (ledger s'.log).Live a)
    (ht : Takes m a.hdr bt evs) (hdrop : Drops a₀.hdr evs') (hg : Grows (evs' ++ evs) s s')
    (x : Account) : s'.credit x = (s.credit x + x.shareAt s'.mem a.ptr m) % 2 ^ 64 ∧
      s'.debit x = (s.debit x + x.shareAt s.mem a₀.ptr a₀.size) % 2 ^ 64 := by
  obtain ⟨i, b, rfl⟩ := ht
  obtain ⟨j, d, rfl⟩ := hdrop
  obtain ⟨new, hlog, hnew⟩ := hg.booked h0 hd
  have hl : Lawful (new ++ s.log) := hlog ▸ hR'.log_ok.lawful
  have hsub : [.unlinked ⟨.inUse, j, d⟩ a₀.hdr, .uncounted j a₀.hdr] ++
      [.counted i ⟨a.hdr, m, bt⟩, .linked ⟨.inUse, i, b⟩ a.hdr] ⊆ new :=
    hnew ▸ List.filter_subset_self _
  have hmem : ∀ e ∈ [.unlinked ⟨.inUse, j, d⟩ a₀.hdr, .linked ⟨.inUse, i, b⟩ a.hdr], e ∈ new := by
    intro e he
    refine hsub ?_
    simp only [List.mem_cons, List.not_mem_nil, or_false] at he
    rcases he with rfl | rfl <;> simp
  -- the blocks are in the slots and bins that the events say
  obtain ⟨B₀, hB₀, hp₀, hshare₀⟩ := hR.shareAt ha₀ x a₀.size
  obtain ⟨B, hB, -, hshare⟩ := hR'.shareAt ha x m
  obtain ⟨A, hA, -, hs, hb⟩ := hR'.log_ok.lawful.block_of_linked (r := ⟨.inUse, i, b⟩) (h := a.hdr)
    (hlog ▸ List.mem_append_left _ (hmem _ (by simp)))
  obtain rfl := Option.some.inj (hB.symm.trans hA)
  obtain ⟨l₁, l₂, hsplit⟩ := List.append_of_mem (hmem (.unlinked ⟨.inUse, j, d⟩ a₀.hdr) (by simp))
  have hl' := hl
  rw [hsplit, List.append_assoc, List.cons_append] at hl'
  obtain ⟨hl₂, A₀, hA₀, -, hs₀, hb₀, -⟩ := hl'.of_append l₁
  obtain ⟨C, hC, -, hs₁, hb₁⟩ := hl₂.same_append hB₀ hp₀
  obtain rfl := Option.some.inj (hA₀.symm.trans hC)
  have hlabels : j = B₀.slot ∧ d = B₀.bin := ⟨hs₀.symm.trans hs₁, hb₀.symm.trans hb₁⟩
  -- the old block was in use for a request of its size
  obtain ⟨B₁, hB₁, hlive₁, ho₁, -⟩ := hR.log_ok.lawful.sound.live_inUse ha₀
  obtain ⟨a₁, q, ho, hq, hsize, -⟩ := (hR.log_ok.lawful.sound.block_ok _ _ hB₁).live_owner hlive₁
  obtain rfl := Option.some.inj (ho.symm.trans ho₁)
  have hdeb := debited_released (x := x) hl (Ledger.request_eq_some.2 ⟨B₁, hB₁, hq⟩) hnew
    (by simp [Event.debit]) (by simp)
  have hcred := (credited_append x new s.log).trans (congrArg _ (sum_credit_booked x new))
  rw [hnew, ← hlog] at hcred
  rw [← hlog, hsize, hlabels.1, hlabels.2, ← hshare₀] at hdeb
  refine (hg.posted hR hR').words hR' (hcred.trans (congrArg _ ?_)) hdeb
  rw [hshare, hs, hb]
  simp [Event.credit, Account.share, Nat.add_comm]

/-! ## The result -/

/-- A reallocation of `n` bytes at `p` to `m` bytes at `q`. -/
structure Reallocated (env : Env) (s s' : Heap) (bt : List ℕ) (p n q m : ℕ) : Prop where
  fresh : ∃ a : Alloc, a.ptr = q ∧ a.size = m ∧ (ledger s'.log).Live a ∧
    ∀ b : Alloc, (ledger s.log).Live b → b.hdr ≠ a.hdr
  apart : Apart q m p n
  copied : ∀ i < min n m, s'.mem (q + i) = s.mem (p + i)
  poisoned : env.args.poison = true → ∀ i < m, n ≤ i → s'.mem (q + i) = env.args.poisonVal
  left : env.Calm → ∃ c xs, s'.Contains c xs ∧ word s.mem (p - 8) ∈ xs ∧ c.magic = magicFree
  others : ∀ b : Alloc, (ledger s.log).Live b → b.ptr ≠ p →
    (ledger s'.log).Live b ∧ ∀ i < b.size, s'.mem (b.ptr + i) = s.mem (b.ptr + i)
  booked : ∃ evs evs', Takes m (word s'.mem (q - 8)) bt evs ∧ Drops (word s.mem (p - 8)) evs' ∧
    tally s'.log = evs' ++ evs ++ tally s.log
  posted : Posted s s'
  counted : DumpFree s s' → ∀ x : Account,
    s'.credit x = (s.credit x + x.shareAt s'.mem q m) % 2 ^ 64 ∧
      s'.debit x = (s.debit x + x.shareAt s.mem p n) % 2 ^ 64

def SameInUse (s s' : Heap) : Prop :=
  ∀ i b, (ledger s'.log).list ⟨.inUse, i, b⟩ = (ledger s.log).list ⟨.inUse, i, b⟩

/-- The allocation of `n` bytes at `p` is as it was, header and slop included. Its links are
those of its list, which only a dump on the way can change. -/
structure Unmoved (s s' : Heap) (p n : ℕ) : Prop where
  live : ∃ a : Alloc, a.ptr = p ∧ a.size = n ∧ (ledger s.log).Live a ∧ (ledger s'.log).Live a
  bytes : ∀ x, word s.mem (p - 8) ≤ x →
    x < word s.mem (p - 8) + 2 ^ fld s.mem (word s.mem (p - 8)) .binNum →
    (x < word s.mem (p - 8) + 48 ∨ word s.mem (p - 8) + 64 ≤ x) → s'.mem x = s.mem x
  inUse : DumpFree s s' → SameInUse s s'
  links : SameInUse s s' → ∀ f, fld s'.mem (word s.mem (p - 8)) f = fld s.mem (word s.mem (p - 8)) f
  booked : tally s'.log = tally s.log
  posted : Posted s s'
  counted : DumpFree s s' → ∀ x : Account, s'.credit x = s.credit x ∧ s'.debit x = s.debit x

theorem realloc_moves (hst : st.Inv env) (hm : m < 2 ^ 64) (h0 : openDumps st.heap.log = 0)
    (hmem : (p, n) ∈ st.held)
    (hrun : (Call.realloc p m).exec (ctxOf env depth) bt st.heap = .ok q s') (hq : q ≠ 0) :
    Reallocated env st.heap s' bt p n q m := by
  obtain ⟨a₀, rfl, rfl, ha₀⟩ := hst.holds hmem
  have hR := hst.rep
  have hword : word st.heap.mem (a₀.ptr - 8) = a₀.hdr := by
    rw [← sub64_ptr hR ha₀, hR.ptrWord ha₀]
  have hok : (Call.realloc a₀.ptr m).Ok st.held := ⟨hm, .inr ⟨_, hmem⟩⟩
  have heff := (wp_ok (exec_spec hst hok) hrun).2
  have hspec := wp_ok (realloc_spec (F := False) (G := False) (ctxOf_ok env depth) hR hst.ready
    (fun _ => rfl) nofun hm nofun nofun ha₀) hrun
  have hbook := wp_ok (realloc_books hst hm h0 ha₀) hrun
  obtain ⟨-, hrel, a, B, rfl, hs, hmoved⟩ := hspec.resolve_left fun h => hq h.1
  obtain ⟨-, evs, evs', ht, hd, hg⟩ := hbook.resolve_left fun h => hq h.1
  have hR' := hs.call.rep
  have hptr : word s'.mem (a.ptr - 8) = a.hdr := by
    rw [← sub64_ptr hR' hs.isLive, hR'.ptrWord hs.isLive]
  rw [hR'.ptrWord hs.isLive] at ht
  obtain rfl := hs.size_eq
  refine
    { fresh := ⟨a, rfl, rfl, hs.isLive, hs.fresh hR⟩
      apart := hmoved.apart
      copied := fun i hi => hmoved.copied i (by rwa [min_comm])
      poisoned := hmoved.poisoned
      left := fun hcalm => ?_
      others := fun b hb hne => heff.others b hb fun he => hne (Option.some.inj he).symm
      booked := ⟨evs, evs', hptr.symm ▸ ht, hword.symm ▸ hd, ?_⟩
      posted := hg.posted hR hR'
      counted := fun hd' => counted_moved hR hR' h0 hd' ha₀ hs.isLive ht hd hg }
  · obtain ⟨B₀, hB₀, -⟩ := ha₀
    have hL' := hR'.log_ok.lawful.sound
    obtain ⟨B₁, hB₁, -⟩ := hR'.log_ok.lawful.block_of_carved
      (hs.call.keeps.log.suffix.subset (hR.log_ok.lawful.carved_of_block hB₀))
    have hset := hrel.settled B₁ hB₁
    have hunused := hrel.unused hcalm B₁ hB₁
    obtain ⟨c, hc⟩ := hset.container
    rw [hword]
    refine ⟨c, _, hR'.shape.contains hL' c, hL'.mem_contents.2 ⟨B₁, hB₁, hc⟩, ?_⟩
    unfold Block.container at hc
    rcases hset with hp | hp | ⟨hp, -⟩
    · rw [hp, Option.some.injEq] at hc
      subst hc
      rfl
    · rw [hp, Option.some.injEq] at hc
      subst hc
      rfl
    · exact absurd hp hunused
  · rw [hg.tally, if_pos h0]

theorem realloc_refused (hst : st.Inv env) (hm : m < 2 ^ 64) (h0 : openDumps st.heap.log = 0)
    (hmem : (p, n) ∈ st.held)
    (hrun : (Call.realloc p m).exec (ctxOf env depth) bt st.heap = .ok 0 s') :
    Unmoved st.heap s' p n := by
  obtain ⟨a₀, rfl, rfl, ha₀⟩ := hst.holds hmem
  have hR := hst.rep
  have hword : word st.heap.mem (a₀.ptr - 8) = a₀.hdr := by
    rw [← sub64_ptr hR ha₀, hR.ptrWord ha₀]
  have hspec := wp_ok (realloc_spec (F := False) (G := False) (ctxOf_ok env depth) hR hst.ready
    (fun _ => rfl) nofun hm nofun nofun ha₀) hrun
  have hbook := wp_ok (realloc_books hst hm h0 ha₀) hrun
  obtain ⟨-, hc, -⟩ := hspec.resolve_right fun h => h.1 rfl
  obtain ⟨-, hg⟩ := hbook.resolve_right fun h => h.1 rfl
  obtain ⟨B₀, hB₀, hlive₀, ho₀, hp₀⟩ := hR.log_ok.lawful.sound.live_inUse ha₀
  have hfix : B₀.Fixed := .inr (.inr hp₀)
  have hB₁ := hc.keeps.block _ B₀ (Set.notMem_empty _) hB₀ hfix
  have hsize : 2 ^ fld st.heap.mem a₀.hdr .binNum = B₀.size := hR.pow_binNum hB₀ (by simp [hp₀])
  have hbytes : ∀ x, a₀.hdr ≤ x → x < a₀.hdr + B₀.size → (x < a₀.hdr + 48 ∨ a₀.hdr + 64 ≤ x) →
      s'.mem x = st.heap.mem x :=
    fun x hx hx' hl => hc.keeps.mem _ B₀ (Set.notMem_empty _) hB₀ hfix x hx hx' fun _ => hl
  refine ⟨⟨a₀, rfl, rfl, ha₀, ⟨B₀, hB₁, hlive₀, ho₀, ha₀.intact hB₀⟩⟩, ?_,
    fun hd i b => hg.list_inUse h0 hd i b, fun hsame f => ?_, ?_, hg.posted hR hc.rep,
    fun hd x => ?_⟩
  · rw [hword, hsize]
    exact hbytes
  · -- the list that the block is on has not changed, so neither have the links
    rw [hword]
    exact hR.fields_kept hc.rep hB₀ hp₀ hbytes (hsame _ _) f
  · rw [hg.tally, ite_self, List.nil_append]
  · obtain ⟨new, hlog, hnew⟩ := hg.booked h0 hd
    have hdeb : debited x s'.log = debited x st.heap.log + 0 := hlog ▸ debited_append fun e he L =>
      e.debit_eq_zero (not_booked_of_filter hnew e he) L x
    have hcred : credited x s'.log = credited x st.heap.log + 0 := by
      rw [hlog, credited_append, sum_credit_booked, hnew, List.map_nil, List.sum_nil]
    have hwords := (hg.posted hR hc.rep).words hc.rep hcred hdeb
    have hlt := hR.words_lt x
    omega

/-- `realloc` moves the data, or leaves it where it is; from `NULL` it is an allocation. -/
theorem realloc_preserves (henv : env.Ok) (hr : Reachable env depth st) (hm : m < 2 ^ 64) :
    (∀ p n q s', (p, n) ∈ st.held →
      (Call.realloc p m).exec (ctxOf env depth) bt st.heap = .ok q s' →
      (q ≠ 0 → Reallocated env st.heap s' bt p n q m) ∧ (q = 0 → Unmoved st.heap s' p n)) ∧
    (Call.realloc 0 m).exec (ctxOf env depth) bt = memalignInt (ctxOf env depth) bt 8 m := by
  have hst := hr.inv henv
  have h0 := hr.openDumps_eq_zero henv
  refine ⟨fun p n q s' hmem hrun => ⟨fun hq => ?_, fun hq => ?_⟩, ?_⟩
  · exact realloc_moves hst hm h0 hmem hrun hq
  · subst hq
    exact realloc_refused hst hm h0 hmem hrun
  · change realloc (ctxOf env depth) bt 0 m = _
    simp [realloc]

theorem realloc_preserves_grown : ∃ st p q s', Reachable (Env.still .defaults) 1 st ∧
    (p, 24) ∈ st.held ∧
    (Call.realloc p 100).exec (ctxOf (Env.still .defaults) 1) [] st.heap = .ok q s' ∧ q ≠ 0 ∧
    Reallocated (Env.still .defaults) st.heap s' [] p 24 q 100 := by
  have henv := Env.still_ok GRArgs.defaults_ok
  obtain ⟨st, a, B, hr, hidle, hheld, hlive, -⟩ := exists_served 1 24 (by decide) rfl (by decide)
  have hmem : (a.ptr, 24) ∈ st.held := by simp [hheld]
  have hfits : (Call.realloc a.ptr 100).Fits (Env.still .defaults).args := by
    rintro n hn
    obtain rfl := Option.some.inj hn
    change Fits GRArgs.defaults 8 100
    exact ⟨by decide, by decide⟩
  have hroom : Affords st.heap 12 (slotInitSize - refillSize 12) 0 := .inr (by decide)
  obtain ⟨q, s', hrun, hq⟩ := hidle.realloc 1 [] Env.still_undisturbed rfl (by decide) hlive
    hfits rfl hroom
  exact ⟨st, a.ptr, q, s', hr, hmem, hrun, hq,
    ((realloc_preserves henv hr (by decide)).1 _ _ _ _ hmem hrun).1 hq⟩

end GuardRails
