import GuardRails.Spec.Buf
import GuardRails.Spec.Figures
import GuardRails.Spec.Relink

/-!
# What the pools supply

Which blocks a request gets depends on the pools, the clock and the answers of the system
only. `Supply.take` is the next block from this point of view and `Supply.fill` a row of
them; `getFromPool` and `replenishLoop` do what these say, and change nothing else but the
free list that they fill.
-/

namespace GuardRails

open ByteMemory StateHoare

variable {env : Env} {off : Off} {s s' s₀ s₁ : Heap} {ctx : Ctx} {h i b k m n : ℕ} {α β : Type}
  {hs hs' : List ℕ} {evs evs' : List Event}

/-! ## The pools and the system -/

structure Supply where
  pools : List MemPool
  clock : ℕ

def Heap.supply (s : Heap) : Supply := ⟨s.memPools, s.clock⟩

/-- What is had in the end, or what was had when the system refused memory, or a halt. -/
inductive Answer (α : Type)
  | granted (a : α) (p : Supply)
  | refused (a : α) (p : Supply)
  | stopped

/-- The answer is one of two, with a property of its own for each. -/
def Answer.Is (r : Answer α) (granted refused : α → Supply → Prop) : Prop :=
  match r with
  | .granted a p => granted a p
  | .refused a p => refused a p
  | .stopped => False

theorem Answer.Is.imp {r : Answer α} {G G' R R' : α → Supply → Prop} (h : r.Is G R)
    (hG : ∀ a p, G a p → G' a p) (hR : ∀ a p, R a p → R' a p) : r.Is G' R' := by
  cases r with
  | granted a p => exact hG a p h
  | refused a p => exact hR a p h
  | stopped => exact h

namespace Supply

def offer (env : Env) (n : ℕ) (p : Supply) : Option ℕ :=
  (env.mmap p.clock).filter fun a => Granted p.pools a n

def grow (env : Env) (req : ℕ) (p : Supply) : Answer Unit :=
  match p.offer env (poolSizeOf req) with
  | none =>
      if env.args.abortOnOOM ∧ req < env.rlimAs (p.clock + 1) then .stopped
      else .refused () ⟨p.pools, p.clock + 2⟩
  | some a =>
      if env.args.maxMemPct ≠ 0 ∧ env.mlock (p.clock + 1) = false then .stopped
      else if p.pools.length < maxMemPools then
        .granted () ⟨newPool a (poolSizeOf req) :: p.pools,
          p.clock + if env.args.maxMemPct ≠ 0 then 2 else 1⟩
      else .stopped

def cut (env : Env) (n : ℕ) (p : Supply) : Answer ℕ :=
  match p.pools with
  | [] => .stopped
  | P :: Ps =>
      if env.mprotect p.clock then
        .granted P.startFree ⟨P.cut (n + guardSize) :: Ps, p.clock + 1⟩
      else .stopped

def take (env : Env) (n : ℕ) (p : Supply) : Answer ℕ :=
  let p : Supply := ⟨p.pools, p.clock + 1⟩
  if (p.pools.head?.elim 0 MemPool.remainingSizeBytes) < n + guardSize then
    match p.grow env (max mempoolMinExpandSize n) with
    | .granted _ p => p.cut env n
    | .refused _ p => .refused 0 p
    | .stopped => .stopped
  else p.cut env n

end Supply

def Answer.snoc (h : ℕ) : Answer (List ℕ) → Answer (List ℕ)
  | .granted hs p => .granted (hs ++ [h]) p
  | .refused hs p => .refused (hs ++ [h]) p
  | .stopped => .stopped

def Supply.fill (env : Env) (n : ℕ) : ℕ → Supply → Answer (List ℕ)
  | 0, p => .granted [] p
  | m + 1, p =>
      match p.take env n with
      | .granted h p => (p.fill env n m).snoc h
      | .refused _ p => .refused [] p
      | .stopped => .stopped

/-- A new pool is refused, or cannot be locked in memory, and the options ask for a dump then. -/
def Supply.GrowDumps (env : Env) (req : ℕ) (p : Supply) : Prop :=
  match p.offer env (poolSizeOf req) with
  | none => env.args.abortOnOOM = true ∧ req < env.rlimAs (p.clock + 1)
  | some _ => env.args.maxMemPct ≠ 0 ∧ env.mlock (p.clock + 1) = false

/-- One of `m` blocks of `n` bytes needs such a pool. -/
def Supply.FillDumps (env : Env) (n : ℕ) : ℕ → Supply → Prop
  | 0, _ => False
  | m + 1, p =>
      (p.pools.head?.elim 0 MemPool.remainingSizeBytes < n + guardSize ∧
        GrowDumps env (max mempoolMinExpandSize n) ⟨p.pools, p.clock + 1⟩) ∨
      ∃ h q, p.take env n = .granted h q ∧ q.FillDumps env n m

/-- Without `-a` and `-m` there is no such pool. -/
theorem Supply.not_fillDumps {m : ℕ} {p : Supply} (hoom : env.args.abortOnOOM = false)
    (hpct : env.args.maxMemPct = 0) : ¬ p.FillDumps env n m := by
  induction m generalizing p with
  | zero => exact id
  | succ m ih =>
      rintro (⟨-, h⟩ | ⟨h, q, -, hq⟩)
      · unfold GrowDumps at h
        split at h
        · exact Bool.false_ne_true (hoom.symm.trans h.1)
        · exact h.1 hpct
      · exact ih hq

theorem Answer.is_snoc {r : Answer (List ℕ)} {G R : List ℕ → Supply → Prop} :
    (r.snoc h).Is G R ↔ r.Is (fun hs => G (hs ++ [h])) fun hs => R (hs ++ [h]) := by
  cases r <;> exact Iff.rfl

def Answer.After (t : ℕ) : Answer α → Prop
  | .granted _ p => t ≤ p.clock
  | .refused _ p => t ≤ p.clock
  | .stopped => True

theorem Supply.cut_after (p : Supply) : (p.cut env n).After p.clock := by
  unfold cut
  split
  · trivial
  · split
    · exact Nat.le_succ _
    · trivial

theorem Supply.grow_after (p : Supply) : (p.grow env n).After p.clock := by
  unfold grow
  split
  · split
    · trivial
    · exact Nat.le_add_right _ _
  · split
    · trivial
    · split
      · exact Nat.le_add_right _ _
      · trivial

theorem Answer.After.mono {t t' : ℕ} {r : Answer α} (h : r.After t) (ht : t' ≤ t) : r.After t' := by
  cases r with
  | granted a p => exact ht.trans h
  | refused a p => exact ht.trans h
  | stopped => trivial

/-- Time passes while memory is drawn. -/
theorem Supply.take_after (p : Supply) : (p.take env n).After p.clock := by
  unfold take
  extract_lets q
  have hq : p.clock ≤ q.clock := Nat.le_succ _
  split
  · have hgrow : (q.grow env (max mempoolMinExpandSize n)).After q.clock := q.grow_after
    split
    · rename_i r hr
      rw [hr] at hgrow
      exact r.cut_after.mono (hq.trans hgrow)
    · rename_i r hr
      rw [hr] at hgrow
      exact hq.trans hgrow
    · trivial
  · exact q.cut_after.mono hq

theorem Answer.After.snoc {t : ℕ} {r : Answer (List ℕ)} (h : r.After t) : (r.snoc k).After t := by
  cases r with
  | granted a p => exact h
  | refused a p => exact h
  | stopped => trivial

theorem Supply.fill_after (p : Supply) (m : ℕ) : (p.fill env n m).After p.clock := by
  induction m generalizing p with
  | zero => exact le_refl p.clock
  | succ m ih =>
      have htake : (p.take env n).After p.clock := p.take_after
      rw [fill]
      split
      · rename_i q hq
        rw [hq] at htake
        exact ((ih q).mono htake).snoc
      · rename_i q hq
        rw [hq] at htake
        exact htake
      · trivial

theorem Supply.grow_refused {p q : Supply} {a : Unit} (h : p.grow env n = .refused a q) :
    q.pools = p.pools := by
  unfold grow at h
  split at h
  · split at h
    · cases h
    · obtain ⟨-, rfl⟩ := Answer.refused.inj h
      rfl
  · split at h
    · cases h
    · split at h
      · cases h
      · cases h

theorem Supply.take_refused {p q : Supply} {a : ℕ} (h : p.take env n = .refused a q) :
    q.pools = p.pools := by
  have hcut : ∀ r : Supply, r.cut env n ≠ .refused a q := by
    intro r hr
    unfold cut at hr
    split at hr
    · cases hr
    · split at hr <;> cases hr
  unfold take at h
  extract_lets r at h
  split at h
  · split at h
    · exact absurd h (hcut _)
    · rename_i q' hgrow
      obtain ⟨-, rfl⟩ := Answer.refused.inj h
      have hpools : q'.pools = r.pools := grow_refused hgrow
      exact hpools
    · cases h
  · exact absurd h (hcut _)

/-- A refused row leaves the pools as they were after the blocks that it got. -/
theorem Supply.fill_refused {m : ℕ} {p q : Supply} (h : p.fill env n m = .refused hs q) :
    ∃ r, p.fill env n hs.length = .granted hs r ∧ q.pools = r.pools := by
  induction m generalizing p hs with
  | zero => cases h
  | succ m ih =>
      rw [fill] at h
      split at h
      · rename_i k p' htake
        cases hrest : p'.fill env n m with
        | refused hs' q' =>
            rw [hrest] at h
            obtain ⟨rfl, rfl⟩ := Answer.refused.inj h
            obtain ⟨r, hr, hpools⟩ := ih hrest
            refine ⟨r, ?_, hpools⟩
            rw [List.length_append, List.length_singleton, fill, htake]
            exact congrArg (Answer.snoc k) hr
        | granted =>
            rw [hrest] at h
            cases h
        | stopped =>
            rw [hrest] at h
            cases h
      · rename_i q' htake
        obtain ⟨rfl, rfl⟩ := Answer.refused.inj h
        exact ⟨p, rfl, take_refused htake⟩
      · cases h

/-! ## Asking the system -/

theorem Heap.remaining_eq (s : Heap) :
    s.remaining = s.memPools.head?.elim 0 MemPool.remainingSizeBytes := by
  unfold Heap.remaining
  cases s.memPools with
  | nil => rfl
  | cons P Ps => rfl

theorem wp_mmap_offer {Q : Option ℕ → Heap → Prop} {E : Halt → Heap → Prop}
    (hnone : s.supply.offer env n = none →
      Q none { s with clock := s.clock + 1, log := .mmapFailed :: s.log })
    (hsome : ∀ a, s.supply.offer env n = some a → Granted s.memPools a n → Q (some a)
      { s with
        clock := s.clock + 1
        mem := update s.mem a n fun _ => 0
        pages := protectPages s.pages a n .readWrite }) :
    wp (mmap env n) Q E s := by
  unfold Supply.offer Heap.supply at hnone hsome
  refine wp_bind (wp_tick (wp_bind (wp_get ?_)))
  split
  · rename_i hmap
    exact wp_bind (wp_emit (wp_pure (hnone (by rw [hmap]; rfl))))
  · rename_i a hmap
    dsimp only at hnone hsome
    rw [hmap] at hnone hsome
    refine wp_ite (fun hg => wp_bind (wp_set (wp_pure (hsome a ?_ hg)))) fun hg => ?_
    · exact Option.filter_some_pos (decide_eq_true hg)
    · exact wp_bind (wp_emit (wp_pure (hnone (Option.filter_some_neg (by simpa using hg)))))

theorem wp_mprotect_ask {a : ℕ} {p : Prot} {Q : ℤ → Heap → Prop} {E : Halt → Heap → Prop}
    (hok : env.mprotect s.clock = true →
      Q 0 { s with clock := s.clock + 1, pages := protectPages s.pages a n p })
    (hfail : env.mprotect s.clock = false →
      Q (-1) { s with clock := s.clock + 1, log := .mprotectFailed :: s.log }) :
    wp (mprotect env a n p) Q E s := by
  refine wp_bind (wp_tick (wp_ite (fun hc => ?_) fun hc => ?_))
  · exact wp_bind (wp_modify (wp_pure (hok hc)))
  · exact wp_bind (wp_emit (wp_pure (hfail (by simpa using hc))))

theorem wp_mlock_ask {Q : ℤ → Heap → Prop} {E : Halt → Heap → Prop}
    (hok : env.mlock s.clock = true → Q 0 { s with clock := s.clock + 1 })
    (hfail : env.mlock s.clock = false →
      Q (-1) { s with clock := s.clock + 1, log := .mlockFailed :: s.log }) :
    wp (mlock env) Q E s := by
  refine wp_bind (wp_tick (wp_ite (fun hc => ?_) fun hc => ?_))
  · exact wp_pure (hok hc)
  · exact wp_bind (wp_emit (wp_pure (hfail (by simpa using hc))))

/-! ## `getFromPool` -/

def Heap.drawn (s : Heap) (m : Mem) (pages : ℕ → Prot) (p : Supply) (evs : List Event) : Heap :=
  { s with mem := m, pages := pages, memPools := p.pools, clock := p.clock, log := evs ++ s.log }

/-- Nothing but memory, pages, pools and the clock has changed. -/
def Drawn (p : Supply) (evs : List Event) (s s' : Heap) : Prop :=
  ∃ m pages, s' = s.drawn m pages p evs

theorem Drawn.trans {p p' : Supply} (h₁ : Drawn p evs s s₁) (h₂ : Drawn p' evs' s₁ s') :
    Drawn p' (evs' ++ evs) s s' := by
  obtain ⟨m, pages, rfl⟩ := h₁
  obtain ⟨m', pages', rfl⟩ := h₂
  refine ⟨m', pages', ?_⟩
  simp only [Heap.drawn, List.append_assoc]

theorem Drawn.supply {p : Supply} (h : Drawn p evs s s') : s'.supply = p := by
  obtain ⟨m, pages, rfl⟩ := h
  rfl

structure Open (n : ℕ) (s : Heap) (P : MemPool) : Prop where
  current : s.memPools.head? = some P
  pos : 0 < P.startFree
  aligned : P.startFree % 4096 = 0
  room : n + 4096 ≤ P.remainingSizeBytes
  rest : Accessible s.pages P.startFree P.remainingSizeBytes

/-- The program prints, dumps and stops. -/
theorem wp_dump_halt {e : Halt} {f : PUnit → M α} {Q : α → Heap → Prop} {E : Halt → Heap → Prop}
    (hE : ∀ e s, E e s) :
    wp (do ctx.printf; ctx.onExitHelper false 0; let r ← throw e; f r) Q E s := by
  refine wp_bind_of (wp_mono (wp_trivial _) (fun _ _ h => h) fun _ _ _ => hE _ _) fun _ s₁ _ => ?_
  refine wp_bind_of (wp_mono (wp_trivial _) (fun _ _ h => h) fun _ _ _ => hE _ _) fun _ s₂ _ => ?_
  exact wp_bind (wp_throw (hE _ _))

/-- The end of `addNewMemPool` when there is no memory: a message, a dump and an assertion. -/
def outOfMemory (ctx : Ctx) (site : Site) : M Unit := do
  ctx.printf
  ctx.onExitHelper false 0
  throw (.abort site)

theorem wp_outOfMemory {site : Site} {f : PUnit → M α} {Q : α → Heap → Prop} {E : Halt → Heap → Prop}
    (hE : ∀ e s', outOfMemory ctx site s = .error e s' → E e s') :
    wp (do ctx.printf; ctx.onExitHelper false 0; let r ← throw (.abort site); f r) Q E s := by
  refine wp_bind (wp_run (fun _ s₁ h₁ => wp_bind (wp_run (fun _ s₂ h₂ => ?_) fun e s₂ h₂ => ?_))
    fun e s₁ h₁ => ?_)
  · exact wp_bind (wp_throw (hE _ _ (run_bind h₁ (run_bind h₂ rfl))))
  · exact hE e s₂ (run_bind h₁ (run_bind_error h₂))
  · exact hE e s₁ (run_bind_error h₁)

/-- The state in which `addNewMemPool` starts its dump, if it does. -/
def Heap.dumpAt (env : Env) (req : ℕ) (s : Heap) : Option Heap :=
  match s.supply.offer env (poolSizeOf req) with
  | none =>
      if env.args.abortOnOOM ∧ req < env.rlimAs (s.clock + 1) then
        some { s with clock := s.clock + 2, log := .mmapFailed :: s.log }
      else none
  | some a =>
      if env.args.maxMemPct ≠ 0 ∧ env.mlock (s.clock + 1) = false then
        some
          { s with
            clock := s.clock + 2
            mem := update s.mem a (poolSizeOf req) fun _ => 0
            pages := protectPages s.pages a (poolSizeOf req) .readWrite
            log := .mlockFailed :: s.log }
      else none

/-- The halt of a function that draws memory: it is the outcome of the dump, if one is started,
and a failed assertion otherwise. -/
def StopsAs (ctx : Ctx) (dump : Option Heap) (e : Halt) (s' : Heap) : Prop :=
  match dump with
  | none => ∃ site, e = .abort site
  | some x => ∃ site, outOfMemory ctx site x = .error e s'

theorem dumpAt_none {req : ℕ} (hoff : s.supply.offer env (poolSizeOf req) = none) :
    s.dumpAt env req = if env.args.abortOnOOM ∧ req < env.rlimAs (s.clock + 1) then
      some { s with clock := s.clock + 2, log := .mmapFailed :: s.log } else none := by
  unfold Heap.dumpAt
  rw [hoff]

theorem dumpAt_some {req a : ℕ} (hoff : s.supply.offer env (poolSizeOf req) = some a) :
    s.dumpAt env req = if env.args.maxMemPct ≠ 0 ∧ env.mlock (s.clock + 1) = false then
      some
        { s with
          clock := s.clock + 2
          mem := update s.mem a (poolSizeOf req) fun _ => 0
          pages := protectPages s.pages a (poolSizeOf req) .readWrite
          log := .mlockFailed :: s.log } else none := by
  unfold Heap.dumpAt
  rw [hoff]

theorem growDumps_of_dumpAt {req : ℕ} {x : Heap} (h : s.dumpAt env req = some x) :
    s.supply.GrowDumps env req := by
  unfold Heap.dumpAt at h
  unfold Supply.GrowDumps
  split at h
  · split at h
    · rename_i hc
      exact hc
    · cases h
  · split at h
    · rename_i hc
      exact hc
    · cases h

theorem Supply.GrowDumps.stopped {req : ℕ} {p : Supply} (h : p.GrowDumps env req) :
    p.grow env req = .stopped := by
  unfold GrowDumps at h
  unfold grow
  split at h <;> exact if_pos h

theorem dumpAt_of_grow {req : ℕ} (h : s.supply.grow env req ≠ .stopped) : s.dumpAt env req = none :=
  Option.eq_none_iff_forall_ne_some.2 fun _ hx => h (growDumps_of_dumpAt hx).stopped

theorem StopsAs.of_dump {dump : Option Heap} {x : Heap} {site : Site} {e : Halt}
    (hdump : dump = some x) (h : outOfMemory ctx site x = .error e s') : StopsAs ctx dump e s' := by
  rw [hdump]
  exact ⟨site, h⟩

theorem StopsAs.of_abort {dump : Option Heap} {e : Halt} (hdump : dump = none)
    (h : ∃ site, e = .abort site) : StopsAs ctx dump e s' := by
  rw [hdump]
  exact h

theorem addNewMemPool_run {req : ℕ} (hctx : ctx.env = env) (hargs : s.grArgs = env.args)
    (hg : s.gMutex.locked = true) :
    wp (addNewMemPool ctx req)
      (fun ret s' => (s.supply.grow env req).Is
        (fun _ p => ret = 0 ∧ Drawn p [] s s' ∧
          ∀ n, n + 4096 ≤ poolSizeOf req → ∃ P, Open n s' P)
        fun _ p => ret = -1 ∧ Drawn p [.mmapFailed] s s')
      (fun e s' => s.supply.grow env req = .stopped ∧ StopsAs ctx (s.dumpAt env req) e s') s := by
  have hclock : s.supply.clock = s.clock := rfl
  have hpools : s.supply.pools = s.memPools := rfl
  unfold addNewMemPool Supply.grow
  rw [hclock, hpools]
  extract_lets poolSize
  have hps : poolSize = poolSizeOf req := rfl
  have hal : poolSize % 4096 = 0 := by
    rw [hps, poolSizeOf]
    omega
  clear_value poolSize
  subst hps
  refine wp_bind (wp_get (wp_bind (wp_grAssert_of hg (wp_bind (wp_grAssert_of hal ?_)))))
  rw [hctx]
  refine wp_bind (wp_mmap_offer (fun hoff => ?_) fun a hoff hgrant => ?_)
  · have hdump := dumpAt_none hoff
    rw [hoff]
    refine wp_bind (wp_tick ?_)
    extract_lets limit
    refine wp_ite (fun habort => ?_) fun habort => wp_pure ?_
    all_goals rw [hargs] at habort
    · have hc : env.args.abortOnOOM = true ∧ req < env.rlimAs (s.clock + 1) := by
        simpa [limit] using habort
      rw [if_pos hc]
      exact wp_outOfMemory fun e s' h => ⟨rfl, .of_dump (hdump.trans (if_pos hc)) h⟩
    · rw [if_neg (by simpa [limit] using habort)]
      exact ⟨rfl, s.mem, s.pages, rfl⟩
  · have hdump := dumpAt_some hoff
    rw [hoff]
    dsimp -zeta only
    refine wp_bind (wp_grAssert_of hgrant.2.1 ?_)
    extract_lets rest
    have hacc : Accessible (protectPages s.pages a (poolSizeOf req) .readWrite) a
        (poolSizeOf req) := .of_protect hgrant.2.1 (by simp)
    -- the region becomes the current pool
    have hrest : ∀ t r, wp (rest r)
        (fun ret s' => (if s.memPools.length < maxMemPools then
            Answer.granted () ⟨newPool a (poolSizeOf req) :: s.memPools, t⟩
          else Answer.stopped).Is
            (fun _ p => ret = 0 ∧ Drawn p [] s s' ∧
              ∀ n, n + 4096 ≤ poolSizeOf req → ∃ P, Open n s' P)
            fun _ p => ret = -1 ∧ Drawn p [.mmapFailed] s s')
        (fun e _ => (if s.memPools.length < maxMemPools then
            Answer.granted () ⟨newPool a (poolSizeOf req) :: s.memPools, t⟩
          else Answer.stopped) = .stopped ∧ ∃ site, e = .abort site)
        { s with
          clock := t
          mem := update s.mem a (poolSizeOf req) fun _ => 0
          pages := protectPages s.pages a (poolSizeOf req) .readWrite } := by
      intro t r
      refine wp_bind (wp_get ?_)
      extract_lets push
      by_cases hlen : s.memPools.length < maxMemPools
      · rw [if_pos hlen]
        refine wp_ite (fun h => absurd hlen h) fun _ => wp_bind (wp_set (wp_pure ⟨rfl, ?_, ?_⟩))
        · exact ⟨_, _, rfl⟩
        · exact fun n hn => ⟨newPool a (poolSizeOf req), rfl, hgrant.1, hgrant.2.1, hn, hacc⟩
      · rw [if_neg hlen]
        exact wp_ite (fun _ => wp_bind (wp_emit (wp_bind (wp_throw ⟨rfl, _, rfl⟩)))) fun h => absurd hlen h
    refine wp_ite (fun hpct => ?_) fun hpct => ?_
    all_goals rw [hargs] at hpct
    · refine wp_bind (wp_mlock_ask (fun hlock => ?_) fun hlock => ?_)
      · refine wp_ite (fun h0 => absurd rfl h0) fun _ => ?_
        have hgo : ¬ (env.args.maxMemPct ≠ 0 ∧ env.mlock (s.clock + 1) = false) := fun h =>
          Bool.true_eq_false.mp (hlock.symm.trans h.2)
        rw [if_neg hgo, if_pos hpct]
        exact wp_mono (hrest _ ()) (fun _ _ h => h) fun e s' h =>
          ⟨h.1, .of_abort (hdump.trans (if_neg hgo)) h.2⟩
      · refine wp_ite (fun _ => ?_) fun h0 => absurd (by decide) h0
        rw [if_pos ⟨hpct, hlock⟩]
        exact wp_outOfMemory fun e s' h => ⟨rfl, .of_dump (hdump.trans (if_pos ⟨hpct, hlock⟩)) h⟩
    · rw [if_neg fun h => hpct h.1, if_neg hpct]
      exact wp_mono (hrest _ ()) (fun _ _ h => h) fun e s' h =>
        ⟨h.1, .of_abort (hdump.trans (if_neg fun hc => hpct hc.1)) h.2⟩

/-- A block is cut off the current pool. -/
theorem cutBlock_run {P : MemPool} (hctx : ctx.env = env) (hP : Open n s P)
    (hn : n % 4096 = 0) :
    wp (do
        set (s.bump (n + guardSize))
        putGuard ctx s.startFree n
        emit (.carved s.startFree n))
      (fun _ s' => (s.supply.cut env n).Is
        (fun a p => a = s.startFree ∧ 0 < a ∧ Drawn p [.carved a n] s s') fun _ _ => False)
      (fun e _ => s.supply.cut env n = .stopped ∧ ∃ site, e = .abort site) s := by
  obtain ⟨hcur, hpos, hal, hroom, hrest⟩ := hP
  obtain ⟨Ps, hpools⟩ : ∃ Ps, s.memPools = P :: Ps := by
    cases hp : s.memPools with
    | nil => simp [hp] at hcur
    | cons Q Qs =>
        rw [hp] at hcur
        obtain rfl := Option.some.inj hcur
        exact ⟨Qs, rfl⟩
  have hsf : s.startFree = P.startFree := by rw [Heap.startFree, hpools]
  have hbump : s.bump (n + guardSize) = { s with memPools := P.cut (n + guardSize) :: Ps } := by
    rw [Heap.bump, hpools]
    rfl
  have hcut : s.supply.cut env n = if env.mprotect s.clock then
      .granted P.startFree ⟨P.cut (n + guardSize) :: Ps, s.clock + 1⟩ else .stopped := by
    unfold Supply.cut Heap.supply
    rw [hpools]
  rw [hsf, hbump, hcut]
  unfold putGuard
  simp only [bind_assoc]
  refine wp_bind (wp_set (wp_bind (wp_grAssert_of hal (wp_bind (wp_grAssert_of ?_ ?_)))))
  · change (P.startFree + n) % 4096 = 0
    omega
  refine wp_bind (wp_store64_of ?_ ?_)
  · exact Accessible.mono hrest (Nat.le_add_right _ _) (by omega)
  rw [hctx]
  refine wp_bind (wp_mprotect_ask (fun hprot => ?_) fun hprot => ?_)
  · rw [if_pos hprot]
    exact wp_bind (wp_grAssert_of rfl (wp_emit ⟨rfl, hpos, _, _, rfl⟩))
  · rw [if_neg (by simpa using hprot)]
    exact wp_bind (wp_grAssert (fun h0 => absurd h0 (by decide)) fun _ => ⟨rfl, _, rfl⟩)

theorem Rep.open (hR : Rep env off s) (hroom : n + 4096 ≤ s.remaining) : ∃ P, Open n s P := by
  have hS := hR.shape
  cases hpools : s.memPools with
  | nil =>
      rw [Heap.remaining, hpools] at hroom
      exact absurd hroom (by simp)
  | cons P Ps =>
      rw [Heap.remaining, hpools] at hroom
      have hP := hS.layout.pool P (hpools ▸ List.mem_cons_self)
      have hcur : s.memPools.head? = some P := by rw [hpools]; rfl
      exact ⟨P, hcur, hP.start_pos.trans_le hP.start_le, hP.startFree_aligned, hroom,
        hS.pages.rest P hcur⟩

theorem Drawn.lockHeap {p : Supply} (h : Drawn p evs (s.lockHeap .gMutex) s')
    (hm : s.gMutex.lock.unlock = s.gMutex) :
    Drawn p (.released .gMutex :: evs ++ [.acquired .gMutex]) s (s'.unlockHeap .gMutex) := by
  obtain ⟨m, pages, rfl⟩ := h
  refine ⟨m, pages, ?_⟩
  have hlog : (.released .gMutex :: evs ++ [.acquired .gMutex]) ++ s.log =
      .released .gMutex :: (evs ++ .acquired .gMutex :: s.log) := by simp
  unfold Heap.drawn
  rw [hlog]
  change ({ s with
    mem := m, pages := pages, memPools := p.pools, clock := p.clock
    gMutex := s.gMutex.lock.unlock
    log := .released .gMutex :: (evs ++ .acquired .gMutex :: s.log) } : Heap) = _
  rw [hm]

/-- The state in which `getFromPool` starts a dump, if it does. -/
def Heap.drawDump (env : Env) (n : ℕ) (s : Heap) : Option Heap :=
  if s.remaining < n + guardSize then (s.lockHeap .gMutex).dumpAt env (max mempoolMinExpandSize n)
  else none

theorem getFromPool_run (hctx : ctx.env = env) (hR : Rep env off s)
    (hg : s.gMutex.locked = false) (hk : 12 ≤ k) :
    wp (getFromPool ctx (2 ^ k))
      (fun h s' => (s.supply.take env (2 ^ k)).Is
        (fun a p => h = a ∧ h ≠ 0 ∧
          Drawn p [.released .gMutex, .carved a (2 ^ k), .acquired .gMutex] s s')
        fun _ p => h = 0 ∧ Drawn p [.released .gMutex, .mmapFailed, .acquired .gMutex] s s')
      (fun e s' => s.supply.take env (2 ^ k) = .stopped ∧ StopsAs ctx (s.drawDump env (2 ^ k)) e s')
      s := by
  have hn : 2 ^ k % 4096 = 0 := Nat.mod_eq_zero_of_dvd (pow_dvd_pow 2 hk : 2 ^ 12 ∣ 2 ^ k)
  generalize 2 ^ k = n at hn ⊢
  have hguard : guardSize = 4096 := rfl
  have hfree : ∀ h : s.gMutex.locked = true, s.gMutex.recursive = true := fun h =>
    absurd (hg.symm.trans h) nofun
  have hm : s.gMutex.lock.unlock = s.gMutex := hR.shape.locks.gMutex.unlock_lock hfree
  have hsupply : (s.lockHeap .gMutex).supply = ⟨s.memPools, s.clock + 1⟩ := rfl
  unfold getFromPool
  extract_lets binTotalSize rest
  refine wp_bind (wp_pthreadMutexLock (fun _ => ?_) fun h => absurd (hg.symm.trans h) nofun)
  have hR₁ : Rep env off (s.lockHeap .gMutex) := hR.lockHeap hfree
  have hg₁ : (s.lockHeap .gMutex).gMutex.locked = true := locked_lockHeap (l := .gMutex)
  -- a block is cut off a pool that is large enough
  have hcut : ∀ s₂ p P, Drawn p [] (s.lockHeap .gMutex) s₂ → Open n s₂ P →
      wp (rest 0)
        (fun h s' => (p.cut env n).Is
          (fun a p => h = a ∧ h ≠ 0 ∧
            Drawn p [.released .gMutex, .carved a n, .acquired .gMutex] s s')
          fun _ p => h = 0 ∧ Drawn p [.released .gMutex, .mmapFailed, .acquired .gMutex] s s')
        (fun e _ => p.cut env n = .stopped ∧ ∃ site, e = .abort site) s₂ := by
    intro s₂ p P hD hP
    refine wp_ite (fun h0 => absurd rfl h0) fun _ => wp_bind (wp_get ?_)
    extract_lets hdr
    have hroom : binTotalSize ≤ s₂.remaining := by
      rw [Heap.remaining_eq, hP.current]
      exact hP.room
    refine wp_bind (wp_grAssert_of hroom ?_)
    have hrun := cutBlock_run hctx hP hn
    rw [hD.supply] at hrun
    have key := wp_bind_of hrun (f := fun _ => do pthreadMutexUnlock .gMutex; pure hdr)
      (R := fun h s' => (p.cut env n).Is
        (fun a p => h = a ∧ h ≠ 0 ∧
          Drawn p [.released .gMutex, .carved a n, .acquired .gMutex] s s')
        fun _ p => h = 0 ∧ Drawn p [.released .gMutex, .mmapFailed, .acquired .gMutex] s s') ?_
    · simpa only [bind_assoc] using key
    · intro _ s₃ hIs
      refine wp_bind (wp_pthreadMutexUnlock (wp_pure (hIs.imp ?_ fun _ _ h => h.elim)))
      rintro a p' ⟨rfl, hpos, hD'⟩
      exact ⟨rfl, hpos.ne', (hD.trans hD').lockHeap hm⟩
  have htake : s.supply.take env n =
      if (s.lockHeap .gMutex).remaining < n + guardSize then
        match (s.lockHeap .gMutex).supply.grow env (max mempoolMinExpandSize n) with
        | .granted _ p => p.cut env n
        | .refused _ p => .refused 0 p
        | .stopped => .stopped
      else (s.lockHeap .gMutex).supply.cut env n := by
    rw [Heap.remaining_eq]
    rfl
  have hdraw : s.drawDump env n = if (s.lockHeap .gMutex).remaining < n + guardSize then
      (s.lockHeap .gMutex).dumpAt env (max mempoolMinExpandSize n) else none := rfl
  rw [htake, hdraw]
  refine wp_bind (wp_get (wp_ite (fun hlt => ?_) fun hge => ?_))
  · rw [if_pos hlt, if_pos hlt]
    have hgrow : wp (addNewMemPool ctx (max mempoolMinExpandSize n)) _ _ (s.lockHeap .gMutex) :=
      addNewMemPool_run hctx hR₁.shape.args_eq hg₁
    cases hans : (s.lockHeap .gMutex).supply.grow env (max mempoolMinExpandSize n) with
    | granted _ p =>
        rw [hans] at hgrow
        refine wp_bind (wp_mono hgrow ?_ fun _ _ h => absurd h.1 nofun)
        rintro ret s₂ ⟨rfl, hD, hopen⟩
        obtain ⟨P, hP⟩ := hopen n (add_guard_le_poolSizeOf hn (le_max_right _ n))
        have hdump := dumpAt_of_grow fun h => absurd (hans.symm.trans h) nofun
        exact wp_mono (hcut s₂ p P hD hP) (fun _ _ h => h) fun e s' h => ⟨h.1, .of_abort hdump h.2⟩
    | refused _ p =>
        rw [hans] at hgrow
        refine wp_bind (wp_mono hgrow ?_ fun _ _ h => absurd h.1 nofun)
        rintro ret s₂ ⟨rfl, hD⟩
        refine wp_ite (fun _ => ?_) fun h0 => absurd (by decide) h0
        exact wp_bind (wp_pthreadMutexUnlock (wp_pure ⟨rfl, hD.lockHeap hm⟩))
    | stopped =>
        rw [hans] at hgrow
        exact wp_bind (wp_mono hgrow (fun _ _ h => h.elim) fun _ _ h => ⟨rfl, h.2⟩)
  · rw [if_neg hge, if_neg hge]
    obtain ⟨P, hP⟩ := hR₁.open (n := n) (not_lt.1 hge)
    have hrun := hcut (s.lockHeap .gMutex) (s.lockHeap .gMutex).supply P ⟨_, _, rfl⟩ hP
    exact wp_bind (wp_pure hrun)

/-! ## Refilling a bin -/

def Heap.addFree (s : Heap) (i b : ℕ) (hs : List ℕ) : Heap :=
  s.updBin i b fun B =>
    { B with headFree := hs.headD B.headFree, numFree := B.numFree + hs.length }

theorem updBin_updBin (s : Heap) (i b : ℕ) (f g : MemBin → MemBin) :
    (s.updBin i b f).updBin i b g = s.updBin i b (g ∘ f) := by
  simp [Heap.updBin, Heap.updSlot, Function.update_idem]

theorem updBin_congr {f g : MemBin → MemBin} (h : f (s.bin i b) = g (s.bin i b)) :
    s.updBin i b f = s.updBin i b g := by
  rw [Heap.updBin, Heap.updBin, Heap.updSlot, Heap.updSlot, h]

theorem addFree_nil (s : Heap) (i b : ℕ) : s.addFree i b [] = s := by
  simp [Heap.addFree, Heap.updBin, Heap.updSlot]

theorem addFree_addFree (s : Heap) (i b : ℕ) (hs hs' : List ℕ) :
    (s.addFree i b hs).addFree i b hs' = s.addFree i b (hs' ++ hs) := by
  rw [Heap.addFree, Heap.addFree, updBin_updBin]
  congr 1
  funext B
  cases hs' with
  | nil => rfl
  | cons h hs' => simp [Nat.add_assoc, Nat.add_comm]

/-- Drawing memory and filling a free list do not meet. -/
theorem Drawn.addFree {p : Supply} (h : Drawn p evs s s') (i b : ℕ) (hs : List ℕ) :
    Drawn p evs (s.addFree i b hs) (s'.addFree i b hs) := by
  obtain ⟨m, pages, rfl⟩ := h
  exact ⟨m, pages, rfl⟩

theorem labelBlock_run {t : ℕ} {E : Halt → Heap → Prop} (hctx : ctx.env = env)
    (hcalm : env.CalmFrom t) (ht : t ≤ s.clock) (hopen : Accessible s.pages h 64)
    (hhead : (s.bin i b).headFree ≠ 0 → Accessible s.pages (s.bin i b).headFree 64)
    (hnum : (s.bin i b).numFree + 1 < 2 ^ 64) :
    wp (labelBlock ctx i b h)
      (fun _ s' => Drawn s.supply [.linked ⟨.free, i, b⟩ h, .labelled h i b] (s.addFree i b [h]) s')
      E s := by
  have hfields : ∀ {a}, Accessible s.pages a 64 → ∀ f : Field, Accessible s.pages (a + f.off) 8 :=
    fun ha f => ha.mono (Nat.le_add_right _ _) (by have := f.off_le; omega)
  have hfield := hfields hopen
  unfold labelBlock
  refine wp_bind (wp_poll_calmFrom hctx hcalm ht (wp_bind (wp_stField (hfield _) ?_)))
  refine wp_bind (wp_poll_calmFrom hctx hcalm ht (wp_bind (wp_stField (hfield _) ?_)))
  refine wp_bind (wp_poll_calmFrom hctx hcalm ht (wp_bind (wp_stField (hfield _) ?_)))
  refine wp_bind (wp_emit (wp_bind (wp_poll_calmFrom hctx hcalm ht ?_)))
  refine wp_bind_of (insertElmHead_mem hctx hcalm ht hfield fun h0 => hfields (hhead h0)) ?_
  rintro _ s₁ rfl
  generalize linkMem _ _ h = m
  refine wp_bind (wp_poll_calmFrom hctx hcalm ht (wp_bind (wp_modify ?_)))
  refine wp_poll_calmFrom hctx hcalm ht ⟨m, s.pages, ?_⟩
  have hbin : (s.setHead ⟨.free, i, b⟩ h).updBin i b (fun B =>
      { B with numFree := (B.numFree + 1) % 2 ^ 64 }) = s.addFree i b [h] := by
    rw [Heap.setHead, updBin_updBin]
    refine updBin_congr ?_
    change ({ s.bin i b with headFree := h, numFree := ((s.bin i b).numFree + 1) % 2 ^ 64 } : MemBin) = _
    rw [Nat.mod_eq_of_lt hnum]
    rfl
  change ({ ((s.setHead ⟨.free, i, b⟩ h).updBin i b fun B =>
      { B with numFree := (B.numFree + 1) % 2 ^ 64 }) with
    mem := m
    log := .linked ⟨.free, i, b⟩ h :: .labelled h i b :: s.log } : Heap) = _
  rw [hbin]
  rfl

def blockEvents (i b h : ℕ) : List Event :=
  [.linked ⟨.free, i, b⟩ h, .labelled h i b, .released .gMutex, .carved h (2 ^ b),
    .acquired .gMutex]

def refusalEvents : List Event := [.released .gMutex, .mmapFailed, .acquired .gMutex]

theorem Rep.block_open {B : Block} (hR : Rep env off s) (hB : (ledger s.log).block h = some B)
    (hp : B.place ≠ .ring) : Accessible s.pages h 64 := by
  have hsize := hR.shape.layout.block_bounds hB
  exact (hR.shape.pages.opened h B hB hp).mono le_rfl (by omega)

theorem Rep.head_open (hR : Rep env off s) {r : HeadRef} (h0 : s.head r ≠ 0) :
    Accessible s.pages (s.head r) 64 := by
  have hL := hR.log_ok.lawful.sound
  obtain ⟨B, hB, hp, -⟩ := (hL.mem_list r _).1 ((hR.shape.lists r).head_mem h0)
  exact hR.block_open hB (by simp [hp])

theorem bin_addFree (s : Heap) (i b : ℕ) (hs : List ℕ) : (s.addFree i b hs).bin i b =
    { s.bin i b with
      headFree := hs.headD (s.bin i b).headFree
      numFree := (s.bin i b).numFree + hs.length } := by
  rw [Heap.addFree, bin_updBin, if_pos ⟨rfl, rfl⟩]

theorem Drawn.bin {p : Supply} (h : Drawn p evs s s') (i b : ℕ) : s'.bin i b = s.bin i b := by
  obtain ⟨m, pages, rfl⟩ := h
  rfl

theorem drawDump_of_take (h : s.supply.take env n ≠ .stopped) : s.drawDump env n = none := by
  unfold Heap.drawDump
  split
  · rename_i hlt
    refine dumpAt_of_grow fun hgrow => h ?_
    have hlt' : s.memPools.head?.elim 0 MemPool.remainingSizeBytes < n + guardSize := by
      rw [← Heap.remaining_eq]
      exact hlt
    have hsupply : (s.lockHeap .gMutex).supply = ⟨s.memPools, s.clock + 1⟩ := rfl
    rw [hsupply] at hgrow
    unfold Supply.take Heap.supply
    extract_lets p
    have hp : p = ⟨s.memPools, s.clock + 1⟩ := rfl
    rw [hp, if_pos hlt', hgrow]
  · rfl

theorem drawDump_growDumps {x : Heap} (h : s.drawDump env n = some x) :
    s.memPools.head?.elim 0 MemPool.remainingSizeBytes < n + guardSize ∧
      Supply.GrowDumps env (max mempoolMinExpandSize n) ⟨s.memPools, s.clock + 1⟩ := by
  unfold Heap.drawDump at h
  rw [Heap.remaining_eq] at h
  split at h
  · rename_i hlt
    exact ⟨hlt, growDumps_of_dumpAt h⟩
  · cases h

/-- The state in which a refill of `m` blocks starts a dump, if it does. -/
def Heap.fillDump (ctx : Ctx) (i b : ℕ) : ℕ → Heap → Option Heap
  | 0, _ => none
  | m + 1, s =>
      match s.drawDump ctx.env (2 ^ b) with
      | some x => some x
      | none =>
          match getFromPool ctx (2 ^ b) s with
          | .error _ _ => none
          | .ok hdr s₁ =>
              if hdr = 0 then none
              else
                match labelBlock ctx i b hdr s₁ with
                | .error _ _ => none
                | .ok _ s₂ => Heap.fillDump ctx i b m s₂

theorem fillDump_of_stop {e : Halt} (hget : getFromPool ctx (2 ^ b) s = .error e s') :
    s.fillDump ctx i b (m + 1) = s.drawDump ctx.env (2 ^ b) := by
  rw [Heap.fillDump, hget]
  split <;> simp_all

theorem fillDump_of_refused (hdraw : s.drawDump ctx.env (2 ^ b) = none)
    (hget : getFromPool ctx (2 ^ b) s = .ok 0 s₁) : s.fillDump ctx i b (m + 1) = none := by
  rw [Heap.fillDump, hdraw, hget]
  rfl

theorem fillDump_of_block {s₂ : Heap} (hdraw : s.drawDump ctx.env (2 ^ b) = none)
    (hget : getFromPool ctx (2 ^ b) s = .ok h s₁) (h0 : h ≠ 0)
    (hlabel : labelBlock ctx i b h s₁ = .ok () s₂) :
    s.fillDump ctx i b (m + 1) = s₂.fillDump ctx i b m := by
  rw [Heap.fillDump, hdraw, hget]
  dsimp only
  rw [if_neg h0, hlabel]

theorem replenishLoop_run {t : ℕ} (hctx : ctx.Ok env) (hcalm : env.CalmFrom t) (ht : t ≤ s.clock)
    (hb : 12 ≤ b) (hb' : b < 40) (hi : i < env.args.numSlots) (hg : s.gMutex.locked = false)
    (fuel : ℕ) (hc : InCall env False 0 ∅ s₀ s) (hfuel : 2 ^ 55 < fuel + poolsUsed s.memPools)
    (hm : m = max 1 ((s.bin i b).highWater - (s.bin i b).numFree)) :
    wp (replenishLoop ctx i b fuel)
      (fun ret s' => (s.supply.fill env (2 ^ b) m).Is
        (fun hs p => ret = 0 ∧ (s'.bin i b).headFree ≠ 0 ∧
          Drawn p (hs.flatMap (blockEvents i b)) (s.addFree i b hs) s')
        (fun hs p => ret = -1 ∧
          Drawn p (refusalEvents ++ hs.flatMap (blockEvents i b)) (s.addFree i b hs) s') ∧
        s.fillDump ctx i b m = none)
      (fun e s' => s.supply.fill env (2 ^ b) m = .stopped ∧ StopsAs ctx (s.fillDump ctx i b m) e s' ∧
        (¬ s.supply.FillDumps env (2 ^ b) m → s.fillDump ctx i b m = none)) s := by
  induction fuel generalizing s m with
  | zero =>
      have := hc.rep.shape.layout.poolsUsed_le
      omega
  | succ fuel ih =>
      obtain ⟨j, rfl⟩ : ∃ j, m = j + 1 := ⟨m - 1, by omega⟩
      have henv := hctx.env_eq
      have hoff : env.Calm → (0 : Off) = 0 := fun _ => rfl
      rw [replenishLoop_succ]
      refine wp_bind (wp_poll_calmFrom henv hcalm ht ?_)
      have hspec := getFromPool_spec (G := False) hctx hc.rep hc.ready hoff hb hb'
      have hafter : (s.supply.take env (2 ^ b)).After s.clock := s.supply.take_after
      have hget : wp (getFromPool ctx (2 ^ b)) _ _ s := wp_run (fun _ _ h => h) fun _ _ h => h
      refine wp_bind (wp_mono (wp_and hget (wp_and hspec (getFromPool_run henv hc.rep hg hb))) ?_ ?_)
      case refine_2 =>
        rintro e s' ⟨hget, -, hstop, hstops⟩
        rw [Supply.fill, hstop, fillDump_of_stop hget, henv]
        refine ⟨rfl, hstops, fun hno => Option.eq_none_iff_forall_ne_some.2 fun x hx => ?_⟩
        exact hno (.inl (drawDump_growDumps hx))
      rintro hdr s₂ ⟨hget, hspec, hIs⟩
      have hdraw : s.drawDump ctx.env (2 ^ b) = none := by
        rw [henv]
        refine drawDump_of_take fun hstop => ?_
        rw [hstop] at hIs
        exact hIs
      rw [Supply.fill]
      cases htake : s.supply.take env (2 ^ b) with
      | granted a p =>
          rw [htake] at hIs hafter
          obtain ⟨rfl, h0, hD⟩ := hIs
          obtain ⟨-, hC⟩ := hspec.resolve_right fun h => h0 h.1
          have hsupply : s₂.supply = p := hD.supply
          have ht₂ : t ≤ s₂.clock := by
            rw [show s₂.clock = p.clock from congrArg Supply.clock hsupply]
            exact ht.trans hafter
          have hr₂ : Ready env False s₂ :=
            hc.ready.mono hC.keeps.isInit hC.keeps.mutex hC.keeps.log
          have hc₂ : InCall env False 0 {hdr} s₂ s₂ := .refl hC.rep hr₂
          refine wp_bind (wp_poll_calmFrom henv hcalm ht₂ (wp_ite (fun h => absurd h h0) fun _ => ?_))
          have hnum : (s₂.bin i b).numFree + 1 < 2 ^ 64 := by
            have hlen := hC.rep.list_length_lt ⟨.free, i, b⟩
            rw [hC.rep.numFree_eq rfl]
            omega
          have hlabel := labelBlock_spec (G := False) hctx hc₂ ⟨hC.block, hC.zero⟩ hb' hi
          have hrun : wp (labelBlock ctx i b hdr) _ (fun _ _ => False) s₂ :=
            labelBlock_run henv hcalm ht₂ (hC.rep.block_open hC.block nofun)
              (hC.rep.head_open (r := ⟨.free, i, b⟩)) hnum
          have heq : wp (labelBlock ctx i b hdr) _ _ s₂ := wp_run (fun _ _ h => h) fun _ _ h => h
          refine wp_bind (wp_mono (wp_and heq (wp_and hlabel hrun)) ?_ fun _ _ h => h.2.2.elim)
          rintro _ s₄ ⟨heq, ⟨hc₄, hset, -⟩, hD₄⟩
          rw [hsupply] at hD₄
          have hnext := fun m => fillDump_of_block (m := m) hdraw hget h0 heq
          have hnew : Drawn p (blockEvents i b hdr) (s.addFree i b [hdr]) s₄ :=
            (hD.addFree i b [hdr]).trans hD₄
          have hc₅ := hc.trans hc₄.rep ((hC.keeps.trans hc₄.keeps).absorb hC.new hset)
          have hbin₄ : s₄.bin i b =
              { s.bin i b with headFree := hdr, numFree := (s.bin i b).numFree + 1 } :=
            (hnew.bin i b).trans (bin_addFree s i b [hdr])
          have ht₄ : t ≤ s₄.clock := by
            rw [show s₄.clock = p.clock from congrArg Supply.clock hnew.supply]
            exact ht.trans hafter
          refine wp_bind (wp_get ?_)
          extract_lets bin
          have hbin : bin = s₄.bin i b := rfl
          rw [hbin, hbin₄]
          refine wp_ite (fun hlt => ?_) fun hge => ?_
          · have hj : j = max 1 ((s₄.bin i b).highWater - (s₄.bin i b).numFree) := by
              rw [hbin₄]
              dsimp only at hlt ⊢
              omega
            have hused : 2 ^ 55 < fuel + poolsUsed s₄.memPools := by
              have h1 := (Nat.add_le_add_right (Nat.le_add_right _ _) 4096).trans hC.used
              have h2 := hc₄.keeps.used
              omega
            have hg₄ : s₄.gMutex.locked = false := by
              rw [show s₄.gMutex = s₂.gMutex from hc₄.keeps.mutex .gMutex,
                show s₂.gMutex = s.gMutex from hC.keeps.mutex .gMutex, hg]
            have hrow : ∀ evs {q hs s'}, Drawn q (evs ++ hs.flatMap (blockEvents i b))
                (s₄.addFree i b hs) s' →
                Drawn q (evs ++ (hs ++ [hdr]).flatMap (blockEvents i b))
                  (s.addFree i b (hs ++ [hdr])) s' := by
              intro evs q hs s' hD'
              have hD'' := (hnew.addFree i b hs).trans hD'
              rw [addFree_addFree] at hD''
              rwa [List.flatMap_append, List.flatMap_singleton, ← List.append_assoc]
            refine wp_mono (ih ht₄ hg₄ hc₅ hused hj) ?_ ?_
            · rintro ret s' ⟨hIs', hnone⟩
              rw [hnew.supply] at hIs'
              refine ⟨Answer.is_snoc.2 (hIs'.imp ?_ ?_), (hnext j).trans hnone⟩
              · exact fun hs q ⟨hret, hhead, hD'⟩ => ⟨hret, hhead, hrow [] hD'⟩
              · exact fun hs q ⟨hret, hD'⟩ => ⟨hret, hrow _ hD'⟩
            · rintro e s' ⟨hstop, hstops, hnone⟩
              rw [hnew.supply] at hstop hnone
              rw [hnext j]
              refine ⟨congrArg (Answer.snoc hdr) hstop, hstops, fun hno => hnone fun hdumps => ?_⟩
              exact hno (.inr ⟨hdr, p, htake, hdumps⟩)
          · obtain rfl : j = 0 := by
              dsimp only at hge
              omega
            refine wp_bind (wp_poll_calmFrom henv hcalm ht₄ (wp_pure ⟨⟨rfl, ?_, ?_⟩, hnext 0⟩))
            · rw [hbin₄]
              exact h0
            · rw [List.nil_append, List.flatMap_singleton]
              exact hnew
      | refused a p =>
          rw [htake] at hIs hafter
          obtain ⟨rfl, hD⟩ := hIs
          have ht₂ : t ≤ s₂.clock := by
            rw [show s₂.clock = p.clock from congrArg Supply.clock hD.supply]
            exact ht.trans hafter
          refine wp_bind (wp_poll_calmFrom henv hcalm ht₂ ?_)
          refine wp_ite (fun _ => wp_pure ⟨⟨rfl, ?_⟩, fillDump_of_refused hdraw hget⟩)
            fun h => absurd rfl h
          rw [addFree_nil]
          exact hD
      | stopped =>
          rw [htake] at hIs
          exact hIs.elim

/-! ## The block for a request -/

def Heap.Refills (s : Heap) (i b : ℕ) : Prop :=
  (s.bin i b).headFree = 0 ∨ (s.bin i b).numFree < (s.bin i b).lowWater

instance (s : Heap) (i b : ℕ) : Decidable (s.Refills i b) := instDecidableOr

/-- What a refill up to the high-water mark of the bin gets at time `t`. -/
def Heap.refillAt (env : Env) (s : Heap) (i b t : ℕ) : Answer (List ℕ) :=
  Supply.fill env (2 ^ b) (max 1 ((s.bin i b).highWater - (s.bin i b).numFree)) ⟨s.memPools, t⟩

/-- A refill that is due comes to the dump of `addNewMemPool`. -/
def Heap.RefillDumps (env : Env) (s : Heap) (i b : ℕ) : Prop :=
  s.Refills i b ∧
    s.supply.FillDumps env (2 ^ b) (max 1 ((s.bin i b).highWater - (s.bin i b).numFree))

/-- The state in which `replenishBin` starts a dump, if it does. -/
def Heap.refillDump (ctx : Ctx) (s : Heap) (i b : ℕ) : Option Heap :=
  if s.Refills i b then
    s.fillDump ctx i b (max 1 ((s.bin i b).highWater - (s.bin i b).numFree))
  else none

/-- `replenishBin` runs its loop or does nothing. -/
theorem wp_replenishBin {t : ℕ} {Q : ℤ → Heap → Prop} {E : Halt → Heap → Prop} (hctx : ctx.env = env)
    (hcalm : env.CalmFrom t) (ht : t ≤ s.clock) (hb : 12 ≤ b) (hb' : b < 40)
    (hi : i < env.args.numSlots) (hlock : (s.mutex (.slot i)).locked = true) (hR : Rep env off s)
    (hrefill : s.Refills i b → wp (replenishLoop ctx i b (2 ^ 64)) Q E s)
    (hfull : ¬ s.Refills i b → Q 0 s) : wp (replenishBin ctx i b) Q E s := by
  have hcount : 0 < (s.mutex (.slot i)).count := by
    have hm := (hR.shape.locks.slot i).count
    rw [hR.shape.args_eq] at hm
    exact hm.2 ⟨hlock, decide_eq_true hi⟩
  have hpage : 2 ^ 12 ≤ 2 ^ b := Nat.pow_le_pow_right (by decide) hb
  unfold replenishBin
  refine wp_bind (wp_poll_calmFrom hctx hcalm ht (wp_bind (wp_verifyLocked ?_)))
  refine wp_bind (wp_grAssert_of (decide_eq_true hcount) ?_)
  refine wp_ite (fun hge => absurd hb' (not_lt.2 hge)) fun _ => ?_
  refine wp_ite (fun hsmall => absurd hpage (not_le.2 hsmall)) fun _ => ?_
  refine wp_bind (wp_poll_calmFrom hctx hcalm ht (wp_bind (wp_get ?_)))
  extract_lets bin
  refine wp_ite (fun h => hrefill h) fun h => ?_
  exact wp_bind (wp_poll_calmFrom hctx hcalm ht (wp_pure (hfull h)))

theorem replenishBin_run {t : ℕ} (hctx : ctx.Ok env) (hcalm : env.CalmFrom t) (ht : t ≤ s.clock)
    (hb : 12 ≤ b) (hb' : b < 40) (hi : i < env.args.numSlots) (hg : s.gMutex.locked = false)
    (hlock : (s.mutex (.slot i)).locked = true) (hc : InCall env False 0 ∅ s₀ s) :
    wp (replenishBin ctx i b)
      (fun ret s' =>
        (s.Refills i b → (s.refillAt env i b s.clock).Is
          (fun hs p => ret = 0 ∧ (s'.bin i b).headFree ≠ 0 ∧
            Drawn p (hs.flatMap (blockEvents i b)) (s.addFree i b hs) s')
          fun hs p => ret = -1 ∧
            Drawn p (refusalEvents ++ hs.flatMap (blockEvents i b)) (s.addFree i b hs) s') ∧
        (¬ s.Refills i b → ret = 0 ∧ s' = s) ∧ s.refillDump ctx i b = none)
      (fun e s' => s.Refills i b ∧ s.refillAt env i b s.clock = .stopped ∧
        StopsAs ctx (s.refillDump ctx i b) e s' ∧
        (¬ s.RefillDumps env i b → s.refillDump ctx i b = none)) s := by
  refine wp_replenishBin hctx.env_eq hcalm ht hb hb' hi hlock hc.rep (fun hrefill => ?_) fun hfull => ?_
  · refine wp_mono (replenishLoop_run hctx hcalm ht hb hb' hi hg (2 ^ 64) hc (by omega) rfl) ?_ ?_
    · exact fun ret s' h => ⟨fun _ => h.1, fun hn => absurd hrefill hn, (if_pos hrefill).trans h.2⟩
    · intro e s' h
      have hdump : s.refillDump ctx i b = _ := if_pos hrefill
      rw [hdump]
      exact ⟨hrefill, h.1, h.2.1, fun hno => h.2.2 fun hdumps => hno ⟨hrefill, hdumps⟩⟩
  · exact ⟨fun h => absurd h hfull, fun _ => ⟨rfl, rfl⟩, if_neg hfull⟩

/-- The headers on a list are headers of blocks, and these lie apart. -/
theorem Rep.headersOk (hR : Rep env off s) (r : HeadRef) :
    HeadersOk {h | h ∈ (ledger s.log).list r} s := by
  have hblock : ∀ h ∈ (ledger s.log).list r, ∃ B, (ledger s.log).block h = some B ∧ B.place ≠ .ring := by
    intro h hh
    obtain ⟨B, hB, hp, -⟩ := (hR.log_ok.lawful.sound.mem_list r h).1 hh
    exact ⟨B, hB, by simp [hp]⟩
  have hbounds : ∀ h ∈ (ledger s.log).list r, 0 < h ∧ h % 4096 = 0 ∧ h + 4096 ≤ 2 ^ 47 := by
    intro h hh
    obtain ⟨B, hB, -⟩ := hblock h hh
    have := hR.shape.layout.block_bounds hB
    exact ⟨this.1, this.2.1, by omega⟩
  refine ⟨fun h hh => (hbounds h hh).1.ne', fun h hh => ?_, fun h hh k hk hne => ?_, fun h hh => ?_⟩
  · have := hbounds h hh
    omega
  · have hh' := hbounds h hh
    have hk' := hbounds k hk
    omega
  · obtain ⟨B, hB, hp⟩ := hblock h hh
    exact hR.block_open hB hp

def MemSlot.figures (S : MemSlot) : ℕ × ℕ × ℕ × ℕ :=
  (S.totalUserRequestedBytes, S.totalUserFreedBytes, S.hwmUsrBytes, S.lastHWMUsrBytesDump)

/-- The figures of the slots and the options are the same, and the time. -/
structure SameFigures (s s' : Heap) : Prop where
  figures : ∀ j, (s'.memSlots j).figures = (s.memSlots j).figures
  grArgs : s'.grArgs = s.grArgs
  clock : s.clock ≤ s'.clock

theorem SameFigures.trans (h₁ : SameFigures s s₁) (h₂ : SameFigures s₁ s') : SameFigures s s' :=
  ⟨fun j => (h₂.figures j).trans (h₁.figures j), h₂.grArgs.trans h₁.grArgs, h₁.clock.trans h₂.clock⟩

theorem figures_updBin (s : Heap) (i b j : ℕ) (f : MemBin → MemBin) :
    ((s.updBin i b f).memSlots j).figures = (s.memSlots j).figures := by
  unfold Heap.updBin Heap.updSlot
  simp only [Function.update_apply]
  split
  · rename_i h
    rw [h]
    rfl
  · rfl

theorem figures_setHead (s : Heap) (r : HeadRef) (x j : ℕ) :
    ((s.setHead r x).memSlots j).figures = (s.memSlots j).figures := figures_updBin s _ _ j _

theorem Drawn.sameFigures {p : Supply} (h : Drawn p evs (s.addFree i b hs) s')
    (hp : s.clock ≤ p.clock) : SameFigures s s' := by
  obtain ⟨m, pages, rfl⟩ := h
  refine ⟨fun j => ?_, rfl, hp⟩
  change ((s.addFree i b hs).memSlots j).figures = _
  exact figures_updBin s i b j _

/-- The first block of the free list is taken, whatever its neighbours are. -/
theorem takeBlock_run {t : ℕ} {E : Halt → Heap → Prop} (hctx : ctx.env = env)
    (hcalm : env.CalmFrom t) (ht : t ≤ s.clock) (hR : Rep env off s)
    (hfree : (s.bin i b).headFree ≠ 0) :
    wp (takeBlock ctx i b) (fun hdr s' => hdr = (s.bin i b).headFree ∧ SameFigures s s') E s := by
  have hH := hR.headersOk ⟨.free, i, b⟩
  have hlist : HeaderList s.mem (s.bin i b).headFree ((ledger s.log).list ⟨.free, i, b⟩) :=
    hR.shape.lists ⟨.free, i, b⟩
  have hmem : (s.bin i b).headFree ∈ (ledger s.log).list ⟨.free, i, b⟩ := hlist.head_mem hfree
  unfold takeBlock
  refine wp_bind (wp_poll_calmFrom hctx hcalm ht (wp_bind (wp_getHead ?_)))
  refine wp_bind (wp_poll_calmFrom hctx hcalm ht ?_)
  refine wp_bind_of (rmElm_mem hctx hcalm ht hH hmem (hlist.prev_mem hmem).resolve_left
    (hlist.next_mem hmem).resolve_left) ?_
  rintro _ s₁ rfl
  refine wp_bind (wp_poll_calmFrom hctx hcalm ht ?_)
  refine wp_bind_of (insertElmHead_mem hctx hcalm ht (hH.field hmem) fun h0 f => ?_) ?_
  · have heq : ∀ x, (s.setHead ⟨.free, i, b⟩ x).head ⟨.inUse, i, b⟩ = s.head ⟨.inUse, i, b⟩ :=
      fun x => (head_setHead s _ _ x).trans (if_neg (by simp))
    refine (hR.headersOk ⟨.inUse, i, b⟩).field ?_ f
    change (s.setHead ⟨.free, i, b⟩ _).head ⟨.inUse, i, b⟩ ∈ _
    rw [heq]
    exact (hR.shape.lists ⟨.inUse, i, b⟩).head_mem ((heq _).symm.trans_ne h0)
  rintro _ s₂ rfl
  refine wp_bind (wp_poll_calmFrom hctx hcalm ht (wp_bind (wp_modify (wp_pure ⟨rfl, ?_⟩))))
  refine ⟨fun j => (figures_updBin _ i b j _).trans ?_, rfl, le_rfl⟩
  change ((Heap.setHead _ ⟨.inUse, i, b⟩ _).memSlots j).figures = _
  refine (figures_setHead _ _ _ j).trans ?_
  change ((s.setHead ⟨.free, i, b⟩ _).memSlots j).figures = _
  exact figures_setHead s _ _ j

/-- The slot that a request of `usrSize` bytes at time `t` goes to, and the time after the
choice. -/
def Env.slotFor (env : Env) (t usrSize : ℕ) : ℕ :=
  if usrSize < maxFloatingSize then env.racySlotRr t % env.args.numSlots else 0

def slotTime (t usrSize : ℕ) : ℕ := if usrSize < maxFloatingSize then t + 1 else t

theorem pickSlot_run {usrSize : ℕ} {E : Halt → Heap → Prop} (hctx : ctx.env = env)
    (hargs : s.grArgs = env.args) (hslots : 0 < env.args.numSlots) :
    wp (pickSlot ctx usrSize)
      (fun i s' => i = env.slotFor s.clock usrSize ∧
        s' = { s with clock := slotTime s.clock usrSize }) E s := by
  unfold pickSlot Env.slotFor slotTime
  refine wp_ite (fun hlt => wp_bind (wp_tick ?_)) fun hge => ?_
  · extract_lets racySlotRr
    refine wp_bind (wp_get ?_)
    extract_lets numSlots
    have hn : numSlots = env.args.numSlots := congrArg GRArgs.numSlots hargs
    refine wp_ite (fun h0 => absurd h0 (hn ▸ hslots.ne')) fun _ => wp_pure ⟨?_, ?_⟩
    · rw [if_pos hlt, ← hn, ← hctx]
    · rw [if_pos hlt]
  · rw [if_neg hge, if_neg hge]
    exact wp_pure ⟨rfl, rfl⟩

theorem slotFor_lt {t usrSize : ℕ} (hslots : 0 < env.args.numSlots) :
    env.slotFor t usrSize < env.args.numSlots := by
  unfold Env.slotFor
  split
  · exact Nat.mod_lt _ hslots
  · exact hslots

theorem Drawn.unlockSlot {p : Supply} (h : Drawn p evs ((s.lockHeap (.slot i)).addFree i b hs) s')
    (hm : (s.mutex (.slot i)).lock.unlock = s.mutex (.slot i)) :
    Drawn p (.released (.slot i) :: evs ++ [.acquired (.slot i)]) (s.addFree i b hs)
      (s'.unlockHeap (.slot i)) := by
  obtain ⟨m, pages, rfl⟩ := h
  refine ⟨m, pages, ?_⟩
  have hslots : ((((s.lockHeap (.slot i)).addFree i b hs).drawn m pages p evs).unlockHeap
      (.slot i)).memSlots = (s.addFree i b hs).memSlots := by
    have hlock : (s.memSlots i).lock.lock.unlock = (s.memSlots i).lock := hm
    funext j
    simp only [Heap.unlockHeap, Heap.lockHeap, Heap.setMutex, Heap.mutex, Heap.addFree,
      Heap.updBin, Heap.updSlot, Heap.drawn, Function.update_apply]
    by_cases hj : j = i
    · simp [hj, hlock]
    · simp [hj]
  have hlog : (.released (.slot i) :: evs ++ [.acquired (.slot i)]) ++ (s.addFree i b hs).log =
      .released (.slot i) :: (evs ++ .acquired (.slot i) :: s.log) := by
    simp only [List.cons_append, List.append_assoc, List.nil_append]
    rfl
  unfold Heap.drawn at hslots ⊢
  rw [hlog, ← hslots]
  rfl

end GuardRails
