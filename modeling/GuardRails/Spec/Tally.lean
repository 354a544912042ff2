import GuardRails.Invariant.Accounts
import GuardRails.Model.Run
import GuardRails.Spec.Buf

/-!
# What a call itself books

A call of the allocator may start dumps, and these allocate and release on their own. The
`tally` of a history leaves out what happened during dumps, and of the rest it keeps what
moves a block into use or out of it and what counts a request. Every function books a fixed
number of such events, whatever its dumps do; `Silent` functions book none. The counters of
allocations follow the history all the time, those of `getBuf` between its steps apart.
-/

namespace GuardRails

open StateHoare

variable {s s' s₀ s₁ s₂ : Heap} {α β : Type} {m : M α} {evs evs' : List Event} {ctx : Ctx}
  {P : α → List Event → Prop} {Q : β → List Event → Prop} {h i b n a : ℕ} {r : HeadRef}
  {d d' : Account → ℤ}

/-- A block comes into use or leaves it, or a request is counted or counted off. -/
def Event.Booked : Event → Prop
  | .counted _ _ | .uncounted _ _ => True
  | .linked r _ | .unlinked r _ => r.kind = .inUse
  | _ => False

instance : DecidablePred Event.Booked := fun e => by
  cases e <;> unfold Event.Booked <;> infer_instance

/-- What the event adds to the books. -/
def Event.entry (e : Event) : List Event := if e.Booked then [e] else []

/-- The event neither begins nor ends a dump, and leaves no block in between. -/
def Event.Steady : Event → Prop
  | .dumpBegun | .dumpEnded | .drained _ _ => False
  | _ => True

def tally : List Event → List Event
  | [] => []
  | e :: log => if openDumps log = 0 ∧ e.Booked then e :: tally log else tally log

theorem openDumps_steady {e : Event} {log : List Event} (h : e.Steady) :
    openDumps (e :: log) = openDumps log := by
  cases e <;> first | rfl | exact absurd h id

theorem tally_skip {e : Event} {log : List Event} (h : ¬ e.Booked) : tally (e :: log) = tally log :=
  if_neg fun hc => h hc.2

theorem tally_subset {log : List Event} : tally log ⊆ log := by
  induction log with
  | nil => exact fun e he => he
  | cons e log ih =>
      rw [tally]
      split
      · exact List.cons_subset_cons e ih
      · exact fun x hx => List.mem_cons_of_mem e (ih hx)

/-- Every block that left a delay ring went to a free list of its slot at once. -/
inductive Tidy : List Event → Prop
  | nil : Tidy []
  | cons {e : Event} {log : List Event} (he : ∀ i h, e ≠ .drained i h) (hlog : Tidy log) :
      Tidy (e :: log)
  | relinked {i b h : ℕ} {log : List Event} (hlog : Tidy log) :
      Tidy (.linked ⟨.free, i, b⟩ h :: .drained i h :: log)

/-- The counters of allocations went up as the history says, and by `d` more. -/
def Credits (d : Account → ℤ) (s s' : Heap) : Prop :=
  ∀ a, (s'.credit a : ℤ) - credited a s'.log ≡ s.credit a - credited a s.log + d a [ZMOD 2 ^ 64]

theorem Credits.trans (h₁ : Credits d s s₁) (h₂ : Credits d' s₁ s₂) : Credits (d + d') s s₂ := by
  intro a
  refine (h₂ a).trans ?_
  rw [Pi.add_apply, ← add_assoc]
  exact (h₁ a).add_right _

/-- The history went on by `evs`, and no counter of allocations changed. -/
structure Adds (evs : List Event) (s s' : Heap) : Prop where
  log : s'.log = evs ++ s.log
  credit : s'.credit = s.credit

theorem Adds.trans (h₁ : Adds evs s s₁) (h₂ : Adds evs' s₁ s₂) : Adds (evs' ++ evs) s s₂ :=
  ⟨by rw [h₂.log, h₁.log, List.append_assoc], h₂.credit.trans h₁.credit⟩

theorem Adds.credits (h : Adds evs s s') :
    Credits (fun a => -((evs.map (Event.credit a)).sum : ℤ)) s s' := by
  intro a
  rw [h.credit, h.log, credited_append]
  push_cast
  rw [sub_add_eq_sub_sub, sub_eq_add_neg _ (_ : ℤ)]

/-- From `s` to `s'` every dump that began has ended, outside dumps `evs` was booked, and the
counters of allocations are ahead by `d`. -/
structure GrowsBy (d : Account → ℤ) (evs : List Event) (s s' : Heap) : Prop where
  depth : openDumps s'.log = openDumps s.log
  tally : tally s'.log = (if openDumps s.log = 0 then evs else []) ++ tally s.log
  suffix : s.log <:+ s'.log
  tidy : Tidy s.log → Tidy s'.log
  credits : Credits d s s'

abbrev Grows : List Event → Heap → Heap → Prop := GrowsBy 0

theorem GrowsBy.of_adds (h : Adds [] s s') : Grows [] s s' := by
  have hlog : s'.log = s.log := h.log
  exact ⟨by rw [hlog], by rw [hlog, ite_self, List.nil_append], by rw [hlog], by rw [hlog]; exact id,
    h.credits⟩

theorem GrowsBy.refl : Grows [] s s := .of_adds ⟨rfl, rfl⟩

theorem GrowsBy.trans (h₁ : GrowsBy d evs s s₁) (h₂ : GrowsBy d' evs' s₁ s₂) :
    GrowsBy (d + d') (evs' ++ evs) s s₂ := by
  refine ⟨h₂.depth.trans h₁.depth, ?_, h₁.suffix.trans h₂.suffix, fun h => h₂.tidy (h₁.tidy h),
    h₁.credits.trans h₂.credits⟩
  rw [h₂.tally, h₁.tally, h₁.depth]
  split <;> simp

theorem Grows.trans (h₁ : Grows evs s s₁) (h₂ : Grows evs' s₁ s₂) : Grows (evs' ++ evs) s s₂ := by
  have h := GrowsBy.trans h₁ h₂
  rwa [add_zero] at h

theorem grows_cons {e : Event} (he : e.Steady) (h : Adds [e] s s') :
    GrowsBy (fun a => -(e.credit a : ℤ)) e.entry s s' := by
  have hlog : s'.log = e :: s.log := h.log
  refine ⟨by rw [hlog, openDumps_steady he], ?_, hlog ▸ List.suffix_cons e s.log, fun h => ?_, ?_⟩
  · rw [hlog, GuardRails.tally]
    by_cases h0 : openDumps s.log = 0 <;> by_cases hb : e.Booked <;> simp [h0, hb, Event.entry]
  · rw [hlog]
    exact .cons (fun i h heq => by subst heq; exact he) h
  · simpa using h.credits

/-- `m` books what `P` says of its value, if it returns, and leaves the counters ahead by `d`. -/
def DoesBy (d : Account → ℤ) (P : α → List Event → Prop) (m : M α) : Prop :=
  ∀ s, wp m (fun a s' => ∃ evs, P a evs ∧ GrowsBy d evs s s') (fun _ _ => True) s

abbrev Does (P : α → List Event → Prop) (m : M α) : Prop := DoesBy 0 P m

abbrev Silent (m : M α) : Prop := Does (fun _ evs => evs = []) m

def Stops (m : M α) : Prop := ∀ s, wp m (fun _ _ => False) (fun _ _ => True) s

/-! ## Rules -/

theorem DoesBy.mono {P' : α → List Event → Prop} (hm : DoesBy d P m)
    (h : ∀ a evs, P a evs → P' a evs) : DoesBy d P' m :=
  fun s => wp_mono (hm s) (fun a _ ⟨evs, hP, hg⟩ => ⟨evs, h a evs hP, hg⟩) fun _ _ h => h

theorem DoesBy.cast (hm : DoesBy d P m) (h : ∀ a, d a = d' a) : DoesBy d' P m :=
  funext h ▸ hm

theorem DoesBy.bind {f : α → M β} (hm : DoesBy d P m)
    (hf : ∀ a evs, P a evs → DoesBy d' (fun b evs' => Q b (evs' ++ evs)) (f a)) :
    DoesBy (d + d') Q (m >>= f) := by
  intro s
  refine wp_bind_of (hm s) ?_
  rintro a s₁ ⟨evs, hP, h₁⟩
  refine wp_mono (hf a evs hP s₁) ?_ fun _ _ h => h
  rintro b s₂ ⟨evs', hQ, h₂⟩
  exact ⟨evs' ++ evs, hQ, h₁.trans h₂⟩

theorem Does.bind {f : α → M β} (hm : Does P m)
    (hf : ∀ a evs, P a evs → Does (fun b evs' => Q b (evs' ++ evs)) (f a)) : Does Q (m >>= f) :=
  (DoesBy.bind hm hf).cast fun _ => rfl

/-- A first step that books nothing. -/
theorem DoesBy.seq {f : α → M β} (hm : DoesBy d (fun _ evs => evs = []) m)
    (hf : ∀ a, DoesBy d' Q (f a)) : DoesBy (d + d') Q (m >>= f) := by
  refine DoesBy.bind hm ?_
  rintro a _ rfl
  exact (hf a).mono fun b evs' h => by rwa [List.append_nil]

/-- The second step makes up for the first. -/
theorem DoesBy.settle {f : α → M β} (hm : DoesBy d P m)
    (hf : ∀ a evs, P a evs → DoesBy (-d) (fun b evs' => Q b (evs' ++ evs)) (f a)) :
    Does Q (m >>= f) :=
  (hm.bind hf).cast fun a => add_neg_cancel (d a)

theorem Silent.seq {f : α → M β} (hm : Silent m) (hf : ∀ a, DoesBy d Q (f a)) :
    DoesBy d Q (m >>= f) :=
  (DoesBy.seq hm hf).cast fun _ => zero_add _

/-- A last step that books nothing. -/
theorem DoesBy.then {f : α → M β} (hm : DoesBy d (fun _ evs' => evs' = evs) m)
    (hf : ∀ a, DoesBy d' (fun _ evs' => evs' = []) (f a)) :
    DoesBy (d + d') (fun _ evs' => evs' = evs) (m >>= f) := by
  refine hm.bind ?_
  rintro a _ rfl
  exact (hf a).mono fun _ _ h => by rw [h, List.nil_append]

theorem Does.then {f : α → M β} (hm : DoesBy d (fun _ evs' => evs' = evs) m) (hf : ∀ a, Silent (f a)) :
    DoesBy d (fun _ evs' => evs' = evs) (m >>= f) :=
  (DoesBy.then hm hf).cast fun _ => add_zero _

theorem does_get {f : Heap → M β} (hf : ∀ s, DoesBy d Q (f s)) : DoesBy d Q (get >>= f) :=
  fun s => wp_bind (wp_get (hf s s))

theorem does_pure {x : α} (h : P x []) : Does P (pure x : M α) :=
  fun _ => wp_pure ⟨[], h, .refl⟩

theorem does_ite {c : Prop} [Decidable c] {x y : M α} (hx : c → DoesBy d P x)
    (hy : ¬ c → DoesBy d P y) : DoesBy d P (if c then x else y) :=
  fun s => wp_ite (fun hc => hx hc s) fun hc => hy hc s

theorem Stops.does (hm : Stops m) : DoesBy d P m :=
  fun s => wp_mono (hm s) (fun _ _ h => h.elim) fun _ _ h => h

theorem stops_throw {e : Halt} : Stops (throw e : M α) := fun _ => wp_throw trivial

theorem Stops.bind {f : α → M β} (hf : ∀ a, Stops (f a)) : Stops (m >>= f) :=
  fun _ => wp_bind_of (wp_trivial m) fun a s' _ => hf a s'

theorem Stops.left {f : α → M β} (hm : Stops m) : Stops (m >>= f) :=
  fun s => wp_bind_of (hm s) fun _ _ h => h.elim

theorem does_emit (e : Event) (he : e.Steady) :
    DoesBy (fun a => -(e.credit a : ℤ)) (fun _ evs => evs = e.entry) (emit e) :=
  fun _ => wp_modify ⟨_, rfl, grows_cons he ⟨rfl, rfl⟩⟩

theorem silent_pure {x : α} : Silent (pure x : M α) := does_pure rfl

theorem silent_get : Silent (get : M Heap) := fun _ => wp_get ⟨[], rfl, .refl⟩

theorem silent_ite {c : Prop} [Decidable c] {x y : M α} (hx : Silent x) (hy : Silent y) :
    Silent (if c then x else y) :=
  does_ite (fun _ => hx) fun _ => hy

theorem silent_modify {f : Heap → Heap} (h : ∀ s, Adds [] s (f s)) : Silent (modify f : M Unit) :=
  fun s => wp_modify ⟨[], rfl, .of_adds (h s)⟩

/-- What is not booked is no allocation. -/
theorem Event.credit_eq_zero {e : Event} (hb : ¬ e.Booked) (a : Account) : e.credit a = 0 := by
  cases e with
  | counted i q => exact absurd trivial hb
  | linked r h => exact if_neg hb
  | _ => rfl

theorem silent_emit (e : Event) (he : e.Steady) (hb : ¬ e.Booked) : Silent (emit e) := by
  refine ((does_emit e he).mono fun _ _ h => h.trans (if_neg hb)).cast fun a => ?_
  rw [e.credit_eq_zero hb]
  rfl

/-! ## Primitive steps -/

def Adding (F : α → List Event) (m : M α) : Prop :=
  ∀ s, wp m (fun a s' => Adds (F a) s s') (fun _ _ => True) s

abbrev Mute (m : M α) : Prop := Adding (fun _ => []) m

theorem Mute.silent (hm : Mute m) : Silent m :=
  fun s => wp_mono (hm s) (fun _ _ h => ⟨[], rfl, .of_adds h⟩) fun _ _ h => h

theorem Mute.seq {F : β → List Event} {f : α → M β} (hm : Mute m) (hf : ∀ a, Adding F (f a)) :
    Adding F (m >>= f) := by
  intro s
  refine wp_bind_of (hm s) fun a s₁ h₁ => wp_mono (hf a s₁) (fun b s₂ h₂ => ?_) fun _ _ h => h
  have h := h₁.trans h₂
  rwa [List.append_nil] at h

theorem mute_pure {x : α} : Mute (pure x : M α) := fun _ => wp_pure ⟨rfl, rfl⟩

theorem mute_get : Mute (get : M Heap) := fun _ => wp_get ⟨rfl, rfl⟩

theorem adding_throw {F : α → List Event} {e : Halt} : Adding F (throw e : M α) :=
  fun _ => wp_throw trivial

theorem adding_ite {F : α → List Event} {c : Prop} [Decidable c] {x y : M α} (hx : Adding F x)
    (hy : Adding F y) : Adding F (if c then x else y) :=
  fun s => wp_ite (fun _ => hx s) fun _ => hy s

theorem mute_modify {f : Heap → Heap} (h : ∀ s, Adds [] s (f s)) : Mute (modify f : M Unit) :=
  fun s => wp_modify (h s)

theorem mute_grAssert {site : Site} {c : Prop} [Decidable c] : Mute (grAssert site c) :=
  adding_ite mute_pure adding_throw

theorem mute_touch : Mute (touch a n) := mute_get.seq fun _ => adding_ite mute_pure adding_throw

theorem mute_load64 : Mute (load64 a) := mute_touch.seq fun _ => mute_get.seq fun _ => mute_pure

theorem mute_store64 {v : ℕ} : Mute (store64 a v) :=
  mute_touch.seq fun _ => mute_modify fun _ => ⟨rfl, rfl⟩

theorem mute_ldField {f : Field} : Mute (ldField h f) := mute_load64

theorem mute_stField {f : Field} {v : ℕ} : Mute (stField h f v) := mute_store64

theorem mute_getHead : Mute (getHead r) := mute_get.seq fun _ => mute_pure

theorem mute_putHead : Mute (putHead r h) := mute_modify fun _ => ⟨rfl, credit_setHead⟩

theorem silent_tick : Silent tick := fun _ => wp_modifyGet ⟨[], rfl, .of_adds ⟨rfl, rfl⟩⟩

theorem silent_grAssert {site : Site} {c : Prop} [Decidable c] : Silent (grAssert site c) :=
  mute_grAssert.silent

theorem silent_touch : Silent (touch a n) := mute_touch.silent

theorem silent_load64 : Silent (load64 a) := mute_load64.silent

theorem silent_store64 {v : ℕ} : Silent (store64 a v) := mute_store64.silent

theorem silent_ldField {f : Field} : Silent (ldField h f) := mute_ldField.silent

theorem silent_stField {f : Field} {v : ℕ} : Silent (stField h f v) := mute_stField.silent

theorem silent_memset {v : UInt8} : Silent (memset a v n) :=
  silent_touch.seq fun _ => silent_modify fun _ => ⟨rfl, rfl⟩

theorem silent_memcpy {src : ℕ} : Silent (memcpy a src n) :=
  silent_touch.seq fun _ => silent_touch.seq fun _ => silent_modify fun _ => ⟨rfl, rfl⟩

theorem silent_memcmp {arr : ℕ → UInt8} : Silent (memcmp a arr n) :=
  silent_touch.seq fun _ => silent_get.seq fun _ => silent_pure

theorem silent_storeBytes {bytes : List UInt8} : Silent (storeBytes a bytes) :=
  silent_touch.seq fun _ => silent_modify fun _ => ⟨rfl, rfl⟩

theorem silent_storeWords {ws : List ℕ} : Silent (storeWords a ws) := by
  induction ws generalizing a with
  | nil => exact silent_pure
  | cons w ws ih => exact silent_store64.seq fun _ => ih

theorem silent_mmap {env : Env} : Silent (mmap env n) := by
  unfold mmap
  refine silent_tick.seq fun t => fun s => wp_bind (wp_get ?_)
  cases env.mmap t with
  | none => exact (silent_emit .mmapFailed trivial id).seq (fun _ => silent_pure) s
  | some a =>
      refine wp_ite (fun _ => ?_) fun _ => (silent_emit .mmapFailed trivial id).seq (fun _ => silent_pure) s
      exact wp_bind (wp_set (wp_pure ⟨[], rfl, .of_adds ⟨rfl, rfl⟩⟩))

theorem silent_mprotect {env : Env} {p : Prot} : Silent (mprotect env a n p) := by
  refine silent_tick.seq fun _ => silent_ite ?_ ?_
  · exact Silent.seq (silent_modify fun _ => ⟨rfl, rfl⟩) fun _ => silent_pure
  · exact (silent_emit .mprotectFailed trivial id).seq fun _ => silent_pure

theorem silent_mlock {env : Env} : Silent (mlock env) :=
  silent_tick.seq fun _ => silent_ite silent_pure
    ((silent_emit .mlockFailed trivial id).seq fun _ => silent_pure)

theorem adds_setMutex {l : LockId} {m : Mutex} : Adds [] s (s.setMutex l m) :=
  ⟨by cases l <;> rfl, credit_setMutex⟩

theorem silent_pthreadMutexLock {l : LockId} : Silent (pthreadMutexLock l) := by
  refine silent_tick.seq fun _ => fun s => wp_bind (wp_get (wp_ite (fun _ => ?_) fun _ => ?_))
  · exact wp_throw trivial
  · refine wp_bind (wp_set ?_)
    refine wp_mono (silent_emit (.acquired l) trivial id _) ?_ fun _ _ h => h
    rintro _ s' ⟨_, rfl, h⟩
    exact ⟨[], rfl, (GrowsBy.of_adds adds_setMutex).trans h⟩

theorem silent_pthreadMutexUnlock {l : LockId} : Silent (pthreadMutexUnlock l) :=
  (silent_modify fun _ => adds_setMutex).seq fun _ => silent_emit (.released l) trivial id

theorem silent_verifyLocked {l : LockId} : Silent (verifyLocked l) :=
  silent_get.seq fun _ => silent_pure

theorem silent_getHead : Silent (getHead r) := mute_getHead.silent

theorem silent_putHead : Silent (putHead r h) := mute_putHead.silent

/-- The dumps that a context starts book nothing in the end, and no signal starts one while a
list is being changed. -/
structure Ctx.Silent (ctx : Ctx) : Prop where
  dump : ∀ on hwm, GuardRails.Silent (ctx.onExitHelper on hwm)
  signals : ∀ line ∈ criticalLines, ∀ t, ctx.env.sigusr2 line t = false

theorem silent_poll (hctx : ctx.Silent) (line : ℕ) : Silent (ctx.poll line) :=
  silent_get.seq fun _ => silent_ite (hctx.dump true 0) silent_pure

theorem mute_poll {line : ℕ} (hctx : ctx.Silent) (hline : line ∈ criticalLines) :
    Mute (ctx.poll line) := by
  refine fun s => wp_bind (wp_get (wp_ite (fun h => ?_) fun _ => wp_pure ⟨rfl, rfl⟩))
  exact absurd ((hctx.signals line hline _).symm.trans h) nofun

/-! ## Lists -/

theorem does_insertElmHead (hctx : ctx.Silent) :
    DoesBy (fun a => -((Event.linked r h).credit a : ℤ)) (fun _ evs => evs = (Event.linked r h).entry)
      (insertElmHead ctx r h) := by
  have hpoll := silent_poll hctx
  unfold insertElmHead
  refine silent_getHead.seq fun head => ?_
  extract_lets rest
  have hrest : ∀ u, DoesBy (fun a => -((Event.linked r h).credit a : ℤ))
      (fun _ evs => evs = (Event.linked r h).entry) (rest u) := fun _ => by
    refine (hpoll _).seq fun _ => silent_getHead.seq fun _ => silent_stField.seq fun _ => ?_
    refine (hpoll _).seq fun _ => silent_stField.seq fun _ => (hpoll _).seq fun _ => ?_
    exact silent_putHead.seq fun _ => does_emit (.linked r h) trivial
  refine does_ite (fun _ => ?_) fun _ => hrest ()
  exact (hpoll _).seq fun _ => silent_getHead.seq fun _ => silent_stField.seq fun _ => hrest ()

theorem does_rmElm (hctx : ctx.Silent) :
    Does (fun _ evs => evs = (Event.unlinked r h).entry) (rmElm ctx r h) := by
  have hpoll := silent_poll hctx
  have hemit : Does (fun _ evs => evs = (Event.unlinked r h).entry) (emit (.unlinked r h)) :=
    (does_emit (.unlinked r h) trivial).cast fun _ => rfl
  unfold rmElm
  refine silent_getHead.seq fun head => ?_
  extract_lets rest₃ rest₂ rest₁
  have hrest₃ : ∀ u, Does (fun _ evs => evs = (Event.unlinked r h).entry) (rest₃ u) := fun _ => by
    refine Does.then hemit fun _ => ?_
    exact (hpoll _).seq fun _ => silent_stField.seq fun _ => (hpoll _).seq fun _ => silent_stField
  have hrest₂ : ∀ u, Does (fun _ evs => evs = (Event.unlinked r h).entry) (rest₂ u) := fun _ => by
    refine (hpoll _).seq fun _ => silent_ldField.seq fun _ => does_ite (fun _ => ?_) fun _ => hrest₃ ()
    exact (hpoll _).seq fun _ => silent_ldField.seq fun _ => silent_ldField.seq fun _ =>
      silent_stField.seq fun _ => hrest₃ ()
  have hrest₁ : ∀ u, Does (fun _ evs => evs = (Event.unlinked r h).entry) (rest₁ u) := fun _ => by
    refine (hpoll _).seq fun _ => silent_ldField.seq fun _ => does_ite (fun _ => ?_) fun _ => hrest₂ ()
    exact (hpoll _).seq fun _ => silent_ldField.seq fun _ => silent_ldField.seq fun _ =>
      silent_stField.seq fun _ => hrest₂ ()
  refine does_ite (fun _ => ?_) fun _ => hrest₁ ()
  exact (hpoll _).seq fun _ => silent_ldField.seq fun _ => silent_putHead.seq fun _ => hrest₁ ()

/-- The free lists are not in the books. -/
theorem silent_insertElmHead (hctx : ctx.Silent) : Silent (insertElmHead ctx ⟨.free, i, b⟩ h) :=
  ((does_insertElmHead hctx).mono fun _ _ h => h.trans (if_neg nofun)).cast fun _ => rfl

theorem silent_rmElm (hctx : ctx.Silent) : Silent (rmElm ctx ⟨.free, i, b⟩ h) :=
  (does_rmElm hctx).mono fun _ _ h => h.trans (if_neg nofun)

/-! ## The delay ring -/

theorem silent_circCount : Silent (circCount i) :=
  silent_get.seq fun _ => silent_ite silent_pure (silent_grAssert.seq fun _ => silent_pure)

theorem adds_updDelay {f : MemFreeDelay → MemFreeDelay} : Adds [] s (s.updDelay i f) :=
  ⟨rfl, credit_updSlot fun _ => ⟨fun _ => rfl, rfl⟩⟩

theorem silent_circPut : Silent (circPut i h) := by
  refine silent_get.seq fun _ => silent_grAssert.seq fun _ => ?_
  refine Silent.seq (silent_modify fun _ => adds_updDelay) fun _ => silent_ldField.seq fun _ => ?_
  exact Silent.seq (silent_modify fun _ => adds_updDelay) fun _ => silent_emit (.delayed i h) trivial id

/-- A change of protection that is asserted to succeed. -/
theorem Adding.shielded {F : α → List Event} {env : Env} {p : Prot} {site : Site} {f : Unit → M α}
    (hf : ∀ u, Adding F (f u)) :
    Adding F (mprotect env a n p >>= fun ret => grAssert site (ret = 0) >>= f) := by
  intro s
  refine wp_bind (wp_mprotect (wp_bind (wp_grAssert (fun _ => ?_) fun _ => trivial)) ?_)
  · exact wp_mono (hf () _) (fun _ _ h => ⟨h.log, h.credit⟩) fun _ _ h => h
  · exact wp_bind (wp_grAssert (fun h0 => absurd h0 (by decide)) fun _ => trivial)

theorem adding_circGet : Adding (fun hdr => [.drained i hdr]) (circGet ctx i) := by
  refine mute_get.seq fun _ => mute_grAssert.seq fun _ => ?_
  refine Mute.seq (mute_modify fun _ => adds_updDelay) fun _ => mute_grAssert.seq fun _ => ?_
  refine Mute.seq (mute_modify fun _ => adds_updDelay) fun _ => Adding.shielded fun _ => ?_
  refine mute_ldField.seq fun _ => Mute.seq (mute_modify fun _ => adds_updDelay) fun _ => ?_
  exact fun _ => wp_bind (wp_emit (wp_pure ⟨rfl, rfl⟩))

theorem adding_insertElmHead (hctx : ctx.Silent) :
    Adding (fun _ => [.linked r h]) (insertElmHead ctx r h) := by
  have hpoll {line} : line ∈ criticalLines → Mute (ctx.poll line) := mute_poll hctx
  unfold insertElmHead
  refine mute_getHead.seq fun head => ?_
  extract_lets rest
  have hrest : ∀ u, Adding (fun _ => [.linked r h]) (rest u) := by
    intro _
    refine (hpoll (by decide)).seq fun _ => mute_getHead.seq fun _ => mute_stField.seq fun _ => ?_
    refine (hpoll (by decide)).seq fun _ => mute_stField.seq fun _ => (hpoll (by decide)).seq fun _ => ?_
    exact mute_putHead.seq fun _ _ => wp_emit ⟨rfl, rfl⟩
  refine adding_ite ?_ (hrest ())
  exact (hpoll (by decide)).seq fun _ => mute_getHead.seq fun _ => mute_stField.seq hrest

theorem grows_relinked (h : Adds [.linked ⟨.free, i, b⟩ n, .drained i n] s s') : Grows [] s s' := by
  have hlog : s'.log = .linked ⟨.free, i, b⟩ n :: .drained i n :: s.log := h.log
  refine ⟨by rw [hlog]; rfl, ?_, ⟨[_, _], hlog.symm⟩, fun h => hlog ▸ .relinked h, h.credits⟩
  have hfree : ¬ (Event.linked ⟨.free, i, b⟩ n).Booked := nofun
  have hdrained : ¬ (Event.drained i n).Booked := id
  rw [ite_self, List.nil_append, hlog, tally_skip hfree, tally_skip hdrained]

theorem mute_numFree {f : MemBin → ℕ} :
    Mute (modify fun s => s.updBin i b fun b => { b with numFree := f b }) :=
  mute_modify fun _ => ⟨rfl, credit_updBin fun _ => rfl⟩

/-- The block that leaves the ring is linked into the free list before anything else happens. -/
theorem silent_delayFreeOne (hctx : ctx.Silent) : Silent (delayFreeOne ctx i) := by
  intro s
  refine wp_bind_of (adding_circGet s) fun hdr s₁ h₁ => ?_
  refine wp_bind_of (mute_ldField s₁) fun b s₂ h₂ => wp_ite (fun _ => wp_throw trivial) fun _ => ?_
  extract_lets rest
  have hrest : ∀ u, Adding (fun _ => [.linked ⟨.free, i, b⟩ hdr]) (rest u) := fun _ s₃ =>
    wp_bind_of (adding_insertElmHead hctx s₃) fun _ s₄ h₄ =>
      wp_mono (mute_numFree s₄) (fun _ _ h₅ => h₄.trans h₅) fun _ _ h => h
  have hdone : Adding (fun _ => [.linked ⟨.free, i, b⟩ hdr])
      (if 2 ^ b > pageSize then do
        let ret ← mprotect ctx.env hdr (2 ^ b) .readWriteExec
        grAssert (.delayFree 87) (ret = 0)
        rest ()
      else rest ()) := adding_ite (Adding.shielded hrest) (hrest ())
  exact wp_mono (hdone s₂) (fun _ _ h₃ => ⟨[], rfl, grows_relinked ((h₁.trans h₂).trans h₃)⟩)
    fun _ _ h => h

theorem silent_delayFreeLoop (hctx : ctx.Silent) (fuel : ℕ) : Silent (delayFreeLoop ctx i fuel) := by
  induction fuel with
  | zero => exact stops_throw.does
  | succ fuel ih =>
      exact silent_circCount.seq fun _ =>
        silent_ite ((silent_delayFreeOne hctx).seq fun _ => ih) silent_pure

theorem silent_delayPut (hctx : ctx.Silent) : Silent (delayPut ctx i h) := by
  refine silent_verifyLocked.seq fun _ => silent_grAssert.seq fun _ => silent_circCount.seq fun _ => ?_
  extract_lets rest
  have hrest : ∀ u, Silent (rest u) := fun _ =>
    silent_circPut.seq fun _ => silent_ldField.seq fun _ => silent_mprotect.seq fun _ => silent_grAssert
  exact silent_ite ((silent_delayFreeLoop hctx _).seq fun _ => hrest ()) (hrest ())

/-! ## Pools and refills -/

/-- A pool that cannot be had is refused, or stops the process after a dump. -/
theorem silent_addNewMemPool : Silent (addNewMemPool ctx n) := by
  refine silent_get.seq fun s => silent_grAssert.seq fun _ => silent_grAssert.seq fun _ => ?_
  refine silent_mmap.seq fun start => ?_
  cases start with
  | none =>
      refine silent_tick.seq fun _ => silent_ite ?_ silent_pure
      exact (Stops.bind fun _ => .bind fun _ => .left stops_throw).does
  | some start =>
      refine silent_grAssert.seq fun _ => ?_
      extract_lets rest
      have hrest : ∀ u, Silent (rest u) := by
        intro _ s
        refine wp_bind (wp_get (wp_ite (fun _ => ?_) fun _ => ?_))
        · exact (Stops.bind fun _ => .left stops_throw).does s
        · exact wp_bind (wp_set (wp_pure ⟨[], rfl, .of_adds ⟨rfl, rfl⟩⟩))
      refine silent_ite (silent_mlock.seq fun _ => silent_ite ?_ (hrest ())) (hrest ())
      exact (Stops.bind fun _ => .bind fun _ => .left stops_throw).does

theorem silent_putGuard : Silent (putGuard ctx h n) :=
  silent_grAssert.seq fun _ => silent_grAssert.seq fun _ => silent_store64.seq fun _ =>
    silent_mprotect.seq fun _ => silent_grAssert

theorem silent_getFromPool : Silent (getFromPool ctx n) := by
  refine silent_pthreadMutexLock.seq fun _ => silent_get.seq fun _ => ?_
  extract_lets rest
  have hrest : ∀ ret, Silent (rest ret) := by
    intro ret
    refine silent_ite (silent_pthreadMutexUnlock.seq fun _ => silent_pure) ?_
    refine fun s => wp_bind (wp_get (wp_bind (wp_grAssert (fun _ => ?_) fun _ => trivial)))
    have hadds : Adds [] s (s.bump (n + guardSize)) := by
      unfold Heap.bump
      cases s.memPools <;> exact ⟨rfl, rfl⟩
    refine wp_bind (wp_set ?_)
    refine wp_mono ((silent_putGuard.seq fun _ => Silent.seq (silent_emit (.carved _ n) trivial id)
      fun _ => silent_pthreadMutexUnlock.seq fun _ => silent_pure) (s.bump (n + guardSize))) ?_
      fun _ _ h => h
    rintro _ s' ⟨_, rfl, hg⟩
    exact ⟨[], rfl, Grows.trans (.of_adds hadds) hg⟩
  exact silent_ite (silent_addNewMemPool.seq hrest) (silent_pure.seq hrest)

theorem silent_replenishLoop (hctx : ctx.Silent) (fuel : ℕ) :
    Silent (replenishLoop ctx i b fuel) := by
  have hpoll := silent_poll hctx
  induction fuel with
  | zero => exact stops_throw.does
  | succ fuel ih =>
      refine (hpoll _).seq fun _ => silent_getFromPool.seq fun hdr => (hpoll _).seq fun _ => ?_
      refine silent_ite silent_pure ((hpoll _).seq fun _ => silent_stField.seq fun _ => ?_)
      refine (hpoll _).seq fun _ => silent_stField.seq fun _ => (hpoll _).seq fun _ => ?_
      refine silent_stField.seq fun _ => (silent_emit (.labelled hdr i b) trivial id).seq fun _ => ?_
      refine (hpoll _).seq fun _ => (silent_insertElmHead hctx).seq fun _ => (hpoll _).seq fun _ => ?_
      refine mute_numFree.silent.seq fun _ => (hpoll _).seq fun _ => ?_
      exact silent_get.seq fun _ => silent_ite ih ((hpoll _).seq fun _ => silent_pure)

theorem silent_replenishBin (hctx : ctx.Silent) : Silent (replenishBin ctx i b) := by
  have hpoll := silent_poll hctx
  refine (hpoll _).seq fun _ => silent_verifyLocked.seq fun _ => silent_grAssert.seq fun _ => ?_
  refine silent_ite stops_throw.does (silent_ite silent_pure ((hpoll _).seq fun _ => ?_))
  exact silent_get.seq fun _ => silent_ite (silent_replenishLoop hctx _)
    ((hpoll _).seq fun _ => silent_pure)

/-! ## Allocation -/

theorem silent_putTrace {bt : List ℕ} {site : Site} : Silent (putTrace bt site a n) :=
  silent_memset.seq fun _ => Silent.seq (silent_storeWords.seq fun _ => silent_pure) fun _ =>
    silent_grAssert

theorem silent_pickSlot : Silent (pickSlot ctx n) :=
  silent_ite (silent_tick.seq fun _ => silent_get.seq fun _ => silent_ite stops_throw.does silent_pure)
    silent_pure

/-- The block comes into use; the bin counts it later. -/
theorem does_takeBlock (hctx : ctx.Silent) :
    DoesBy (fun a => -(a.block i b : ℤ)) (fun hdr evs => evs = [.linked ⟨.inUse, i, b⟩ hdr])
      (takeBlock ctx i b) := by
  have hpoll := silent_poll hctx
  refine (hpoll _).seq fun _ => silent_getHead.seq fun hdr => (hpoll _).seq fun _ => ?_
  refine (silent_rmElm hctx).seq fun _ => (hpoll _).seq fun _ => ?_
  have hlast : DoesBy 0 (fun hdr' evs => hdr' = hdr ∧ evs = []) (do
      ctx.poll 367
      modify fun s => s.updBin i b fun b => { b with numFree := sub64 b.numFree 1 }
      pure hdr) :=
    (hpoll _).seq fun _ => mute_numFree.silent.seq fun _ => does_pure ⟨rfl, rfl⟩
  refine (DoesBy.bind (does_insertElmHead hctx) fun _ evs hevs => hlast.mono ?_).cast fun a => add_zero _
  rintro _ _ ⟨rfl, rfl⟩
  exact hevs

/-- The counters are changed by `d`. -/
theorem does_modify {f : Heap → Heap} (hlog : ∀ s, (f s).log = s.log)
    (hcredit : ∀ s a, ((f s).credit a : ℤ) ≡ s.credit a + d a [ZMOD 2 ^ 64]) :
    DoesBy d (fun _ evs => evs = []) (modify f : M Unit) := by
  refine fun s => wp_modify ⟨[], rfl, ?_⟩
  have hlog := hlog s
  refine ⟨by rw [hlog], by rw [hlog, ite_self, List.nil_append], by rw [hlog], by rw [hlog]; exact id,
    fun a => ?_⟩
  rw [hlog, sub_add_eq_add_sub]
  exact (hcredit s a).sub_right _

/-- The request is counted, and so is the block in its bin. -/
theorem does_countAlloc (hctx : ctx.Silent) {k : ℕ} {q : Request} (hk : k = log2fast q.size) :
    DoesBy (fun a => (a.block i b : ℤ)) (fun _ evs => evs = [.counted i q]) (countAlloc ctx i b k q) := by
  have hpoll := silent_poll hctx
  have hlast : DoesBy (fun a => -((Event.counted i q).credit a : ℤ)) (fun _ evs => evs = [.counted i q])
      (do
        emit (.counted i q)
        ctx.poll 373
        modify fun s => s.updSlot i fun S =>
          { S with
            hwmUsrBytes :=
              max S.hwmUsrBytes (sub64 S.totalUserRequestedBytes S.totalUserFreedBytes) }) := by
    refine Does.then (does_emit (.counted i q) trivial) fun _ => (hpoll _).seq fun _ => ?_
    exact silent_modify fun _ => ⟨rfl, credit_updSlot fun _ => ⟨fun _ => rfl, rfl⟩⟩
  have hrequested : DoesBy (fun a => if a = .bytes i then (q.size : ℤ) else 0) (fun _ evs => evs = [])
      (modify fun s => s.updSlot i fun S =>
        { S with totalUserRequestedBytes := (S.totalUserRequestedBytes + q.size) % 2 ^ 64 }) :=
    does_modify (fun _ => rfl) fun s a => credit_requested s i q.size a
  have hhisto : DoesBy (fun a => if a = .histo i k then 1 else 0) (fun _ evs => evs = [])
      (modify fun s => s.updHisto i k fun h => { h with allocs := (h.allocs + 1) % 2 ^ 64 }) :=
    does_modify (fun _ => rfl) fun s a => credit_histo s i k a
  have hallocs : DoesBy (fun a => (a.block i b : ℤ)) (fun _ evs => evs = [])
      (modify fun s => s.updBin i b fun b => { b with allocs := (b.allocs + 1) % 2 ^ 64 }) :=
    does_modify (fun _ => rfl) fun s a => credit_allocs s i b a
  have hassert : Silent (grAssert (.guardRails 370) (k < maxAllocPower)) := silent_grAssert
  have hrun := (hpoll 368).seq fun _ => hallocs.seq fun _ => (hpoll 370).seq fun _ =>
    hassert.seq fun _ => (hpoll 371).seq fun _ => hhisto.seq fun _ => (hpoll 372).seq fun _ =>
      hrequested.seq fun _ => hlast
  refine DoesBy.cast hrun fun a => ?_
  simp only [Pi.add_apply, Event.credit, a.request_eq, hk]
  omega

theorem silent_limitDumps (hctx : ctx.Silent) : Silent (limitDumps ctx i) := by
  have hpoll := silent_poll hctx
  refine (hpoll _).seq fun _ => silent_get.seq fun _ => silent_get.seq fun _ => ?_
  extract_lets args rest
  have hrest : ∀ u, Silent (rest u) := by
    refine fun _ => (hpoll _).seq fun _ => silent_get.seq fun _ => silent_ite ?_ silent_pure
    exact (Stops.bind fun _ => .bind fun _ => .bind fun _ => stops_throw).does
  refine silent_ite ?_ (hrest ())
  refine (hpoll _).seq fun _ => Silent.seq ?_ fun _ => (hpoll _).seq fun _ => ?_
  · exact silent_modify fun _ => ⟨rfl, credit_updSlot fun _ => ⟨fun _ => rfl, rfl⟩⟩
  · exact silent_get.seq fun _ => (hctx.dump _ _).seq fun _ => hrest ()

def Takes (size hdr : ℕ) (bt : List ℕ) (evs : List Event) : Prop :=
  ∃ i b, evs = [.counted i ⟨hdr, size, bt⟩, .linked ⟨.inUse, i, b⟩ hdr]

/-- What `getBuf` books it has booked when it looks at the marks. -/
theorem does_claimBuf (hctx : ctx.Silent) {bt : List ℕ} :
    Does (fun r evs => match r.2 with
      | none => evs = []
      | some hdr => Takes n hdr bt evs) (claimBuf ctx bt b n) := by
  have hpoll := silent_poll hctx
  unfold claimBuf
  refine (hpoll _).seq fun _ => silent_pickSlot.seq fun slotNum => (hpoll _).seq fun _ => ?_
  refine silent_pthreadMutexLock.seq fun _ => (hpoll _).seq fun _ => ?_
  refine (silent_replenishBin hctx).seq fun ret => (hpoll _).seq fun _ => ?_
  refine does_ite (fun _ => does_pure rfl) fun _ => (does_takeBlock hctx).settle ?_
  rintro hdr _ rfl
  have hcount := does_countAlloc (q := ⟨hdr, n, bt⟩) (i := slotNum) (b := b) hctx rfl
  refine DoesBy.cast (d := _ + 0) (hcount.bind ?_) fun a => by simp
  rintro _ _ rfl
  exact does_pure ⟨slotNum, b, rfl⟩

theorem silent_handOut (hctx : ctx.Silent) {r : ℕ × Option ℕ} :
    Does (fun p evs => p.1 = r.2.getD 0 ∧ evs = []) (handOut ctx b r) := by
  have hpoll := silent_poll hctx
  obtain ⟨i, _ | hdr⟩ := r
  · exact silent_pthreadMutexUnlock.seq fun _ => (hpoll _).seq fun _ => does_pure ⟨rfl, rfl⟩
  · refine (silent_limitDumps hctx).seq fun _ => (hpoll _).seq fun _ => ?_
    refine silent_pthreadMutexUnlock.seq fun _ => (hpoll _).seq fun _ => silent_ldField.seq fun _ => ?_
    exact silent_grAssert.seq fun _ => (hpoll _).seq fun _ => does_pure ⟨rfl, rfl⟩

theorem does_getBuf (hctx : ctx.Silent) {bt : List ℕ} :
    Does (fun p evs => (p.1 = 0 ∧ evs = []) ∨ Takes n p.1 bt evs) (getBuf ctx bt a n) := by
  rw [getBuf_eq]
  refine (does_claimBuf hctx).bind ?_
  rintro ⟨i, _ | hdr⟩ evs hevs
  · obtain rfl : evs = [] := hevs
    exact (silent_handOut hctx).mono fun p _ h => .inl ⟨h.1, by rw [h.2]; rfl⟩
  · refine (silent_handOut hctx).mono fun p _ h => .inr ?_
    rw [h.1, h.2]
    exact hevs

theorem silent_fillBlock {bt : List ℕ} {e : ℕ} : Silent (fillBlock bt a n h e) := by
  refine silent_get.seq fun s => ?_
  extract_lets args misalignment usrData rest₃ rest₂ rest₁
  have hrest₂ : ∀ u, Silent (rest₂ u) := by
    intro _
    refine silent_store64.seq fun _ => silent_stField.seq fun _ => silent_stField.seq fun _ => ?_
    refine Silent.seq (silent_emit (.filled _) trivial id) fun _ => ?_
    exact silent_ite (silent_memset.seq fun _ => silent_pure) silent_pure
  have hrest₁ : ∀ u, Silent (rest₁ u) := by
    intro _
    refine silent_ldField.seq fun _ => silent_grAssert.seq fun _ => silent_stField.seq fun _ => ?_
    refine silent_stField.seq fun _ => silent_grAssert.seq fun _ => silent_grAssert.seq fun _ => ?_
    exact silent_ite (silent_grAssert.seq fun _ => silent_memset.seq fun _ => hrest₂ ()) (hrest₂ ())
  exact silent_ite (silent_putTrace.seq fun _ => hrest₁ ()) (hrest₁ ())

/-- The last that happens to the header is recorded. -/
theorem fillBlock_filled {bt : List ℕ} {e : ℕ} : wp (fillBlock bt a n h e)
    (fun p s' => ∃ mis log, s'.log = .filled ⟨h, p, n, mis, bt⟩ :: log) (fun _ _ => True) s := by
  refine wp_bind (wp_get ?_)
  extract_lets args misalignment usrData rest₃ rest₂ rest₁
  have hrest₂ : ∀ u s, wp (rest₂ u)
      (fun p s' => ∃ mis log, s'.log = .filled ⟨h, p, n, mis, bt⟩ :: log) (fun _ _ => True) s := by
    intro _ s
    refine wp_bind_of (wp_trivial _) fun _ s₁ _ => wp_bind_of (wp_trivial _) fun _ s₂ _ => ?_
    refine wp_bind_of (wp_trivial _) fun _ s₃ _ => wp_bind (wp_modify (wp_ite (fun _ => ?_) fun _ => ?_))
    · exact wp_bind (wp_bind (wp_touch (fun _ => wp_modify (wp_pure ⟨_, _, rfl⟩)) fun _ => trivial))
    · exact wp_pure ⟨_, _, rfl⟩
  have hrest₁ : ∀ u s, wp (rest₁ u)
      (fun p s' => ∃ mis log, s'.log = .filled ⟨h, p, n, mis, bt⟩ :: log) (fun _ _ => True) s := by
    intro _ s
    refine wp_bind_of (wp_trivial _) fun _ s₁ _ => wp_bind_of (wp_trivial _) fun _ s₂ _ => ?_
    refine wp_bind_of (wp_trivial _) fun _ s₃ _ => wp_bind_of (wp_trivial _) fun _ s₄ _ => ?_
    refine wp_bind_of (wp_trivial _) fun _ s₅ _ => wp_bind_of (wp_trivial _) fun _ s₆ _ => ?_
    refine wp_ite (fun _ => ?_) fun _ => hrest₂ () s₆
    exact wp_bind_of (wp_trivial _) fun _ s₇ _ => wp_bind_of (wp_trivial _) fun _ s₈ _ => hrest₂ () s₈
  exact wp_ite (fun _ => wp_bind_of (wp_trivial _) fun _ s₁ _ => hrest₁ () s₁) fun _ => hrest₁ () s

/-! ## Setting up -/

theorem silent_replenishBins (hctx : ctx.Silent) {bs : List ℕ} : Silent (replenishBins ctx i bs) := by
  induction bs with
  | nil => exact silent_pure
  | cons b bs ih => exact (silent_replenishBin hctx).seq fun _ => silent_ite silent_pure ih

theorem silent_replenishSlots (hctx : ctx.Silent) {is : List ℕ} : Silent (replenishSlots ctx is) := by
  induction is with
  | nil => exact silent_pure
  | cons i is ih =>
      refine silent_pthreadMutexLock.seq fun _ => silent_verifyLocked.seq fun _ => ?_
      refine silent_grAssert.seq fun _ => (silent_replenishBins hctx).seq fun _ => ?_
      exact silent_pthreadMutexUnlock.seq fun _ => ih

theorem credit_initSlots {n : ℕ} : ({ s with
    memSlots := fun i => if i < n then initSlot (s.memSlots i) else s.memSlots i } : Heap).credit =
    s.credit := by
  funext a
  cases a with
  | bin i b =>
      simp only [Heap.credit, Heap.bin]
      split
      · simp only [initSlot]
        split <;> rfl
      · rfl
  | histo i k => rfl
  | bytes i =>
      simp only [Heap.credit]
      split <;> rfl

theorem silent_grInitialize (hctx : ctx.Silent) : Silent (grInitialize ctx) := by
  refine silent_get.seq fun s => silent_ite silent_pure (silent_grAssert.seq fun _ => ?_)
  refine silent_grAssert.seq fun _ => Silent.seq (silent_modify fun _ => ⟨rfl, rfl⟩) fun _ => ?_
  refine silent_pthreadMutexLock.seq fun _ => Silent.seq ?_ fun _ => ?_
  · exact Silent.seq (silent_modify fun _ => ⟨rfl, credit_initSlots⟩) fun _ =>
      silent_get.seq fun _ => silent_pure
  refine silent_pthreadMutexLock.seq fun _ => Silent.seq (silent_modify fun _ => ⟨rfl, rfl⟩) fun _ => ?_
  refine silent_addNewMemPool.seq fun _ => silent_grAssert.seq fun _ => ?_
  refine silent_pthreadMutexUnlock.seq fun _ => (silent_replenishSlots hctx).seq fun _ => ?_
  exact Silent.seq (silent_modify fun _ => ⟨rfl, rfl⟩) fun _ => silent_pthreadMutexUnlock

/-- An allocation that was served is the last that happened. -/
theorem memalignInt_books (hctx : ctx.Silent) {bt : List ℕ} :
    wp (memalignInt ctx bt a n)
      (fun p s' => (p = 0 ∧ Grows [] s s') ∨
        ∃ hdr evs, Takes n hdr bt evs ∧ Grows evs s s' ∧
          (hdr = 0 ∨ ∃ mis log, s'.log = .filled ⟨hdr, p, n, mis, bt⟩ :: log))
      (fun _ _ => True) s := by
  unfold memalignInt
  refine wp_bind (wp_get ?_)
  extract_lets allocSize done rest
  have hrest : ∀ u s₁, Grows [] s s₁ → wp (rest u)
      (fun p s' => (p = 0 ∧ Grows [] s s') ∨
        ∃ hdr evs, Takes n hdr bt evs ∧ Grows evs s s' ∧
          (hdr = 0 ∨ ∃ mis log, s'.log = .filled ⟨hdr, p, n, mis, bt⟩ :: log))
      (fun _ _ => True) s₁ := by
    intro _ s₁ h₁
    refine wp_bind_of (does_getBuf hctx s₁) ?_
    rintro ⟨buf, endBuf⟩ s₂ ⟨evs, hevs, h₂⟩
    have h₁₂ := h₁.trans h₂
    rw [List.append_nil] at h₁₂
    refine wp_ite (fun h0 => wp_bind (wp_get (wp_ite (fun _ => ?_) fun _ => ?_))) fun h0 => ?_
    · exact wp_bind (wp_throw trivial)
    · rcases hevs with ⟨-, rfl⟩ | hevs
      · exact wp_pure (.inl ⟨rfl, h₁₂⟩)
      · exact wp_pure (.inr ⟨buf, evs, hevs, h₁₂, .inl h0⟩)
    · refine wp_mono (wp_and (silent_fillBlock s₂) fillBlock_filled) ?_ fun _ _ _ => trivial
      rintro p s₃ ⟨⟨_, rfl, h₃⟩, hfilled⟩
      exact .inr ⟨buf, evs, hevs.resolve_left fun h => h0 h.1, h₁₂.trans h₃, .inr hfilled⟩
  refine wp_bind (wp_get (wp_ite (fun _ => ?_) fun _ => hrest () s .refl))
  refine wp_bind_of (silent_grInitialize hctx s) ?_
  rintro _ s₁ ⟨_, rfl, h₁⟩
  exact hrest () s₁ h₁

theorem does_memalignInt (hctx : ctx.Silent) {bt : List ℕ} :
    Does (fun _ _ => True) (memalignInt ctx bt a n) := by
  intro s
  refine wp_mono (memalignInt_books hctx) ?_ fun _ _ h => h
  rintro p s' (⟨-, h⟩ | ⟨-, evs, -, h, -⟩)
  · exact ⟨[], trivial, h⟩
  · exact ⟨evs, trivial, h⟩

/-! ## Release -/

theorem silent_checkSlop : Silent (checkSlop h) := by
  refine silent_ldField.seq fun misalignment => silent_ite ?_ silent_pure
  exact silent_ldField.seq fun _ => silent_ldField.seq fun _ => silent_get.seq fun _ =>
    silent_memcmp.seq fun _ => silent_grAssert

theorem does_countFree (hctx : ctx.Silent) :
    Does (fun _ evs => evs = [.uncounted i h]) (countFree ctx i h) := by
  have hpoll := silent_poll hctx
  refine (hpoll _).seq fun _ => silent_ldField.seq fun _ => (hpoll _).seq fun _ => ?_
  refine silent_grAssert.seq fun _ => (hpoll _).seq fun _ => Silent.seq ?_ fun _ => ?_
  · exact silent_modify fun _ => ⟨rfl, credit_updHisto fun _ => rfl⟩
  refine (hpoll _).seq fun _ => silent_ldField.seq fun _ => Silent.seq ?_ fun _ => ?_
  · exact silent_modify fun _ => ⟨rfl, credit_updSlot fun _ => ⟨fun _ => rfl, rfl⟩⟩
  · exact (does_emit (.uncounted i h) trivial).cast fun _ => rfl

theorem does_dropBlock (hctx : ctx.Silent) :
    Does (fun _ evs => evs = [.unlinked ⟨.inUse, i, b⟩ h]) (dropBlock ctx i b h) := by
  have hpoll := silent_poll hctx
  refine (hpoll _).seq fun _ => Does.then (does_rmElm hctx) fun _ => (hpoll _).seq fun _ => ?_
  refine silent_get.seq fun s => ?_
  extract_lets rest
  have hrest : ∀ u, Silent (rest u) := fun _ => (hpoll _).seq fun _ =>
    silent_modify fun _ => ⟨rfl, credit_updBin fun _ => rfl⟩
  refine silent_ite ((hpoll _).seq fun _ => (silent_delayPut hctx).seq fun _ => hrest ()) ?_
  refine (hpoll _).seq fun _ => (silent_insertElmHead hctx).seq fun _ => (hpoll _).seq fun _ => ?_
  exact mute_numFree.silent.seq fun _ => hrest ()

def Drops (hdr : ℕ) (evs : List Event) : Prop :=
  ∃ i b, evs = [.unlinked ⟨.inUse, i, b⟩ hdr, .uncounted i hdr]

theorem does_putBuf (hctx : ctx.Silent) : Does (fun _ evs => Drops h evs) (putBuf ctx h) := by
  have hpoll := silent_poll hctx
  refine (hpoll _).seq fun _ => silent_ldField.seq fun _ => silent_grAssert.seq fun _ => ?_
  refine (hpoll _).seq fun _ => silent_stField.seq fun _ => ?_
  refine (silent_emit (.freeing h) trivial id).seq fun _ => (hpoll _).seq fun _ => ?_
  refine silent_ldField.seq fun slotNum => does_ite (fun _ => stops_throw.does) fun _ => ?_
  refine (hpoll _).seq fun _ => silent_pthreadMutexLock.seq fun _ => (hpoll _).seq fun _ => ?_
  refine silent_ldField.seq fun binNum => does_ite (fun _ => stops_throw.does) fun _ => ?_
  refine (does_countFree hctx).bind ?_
  rintro _ _ rfl
  refine (does_dropBlock hctx).bind ?_
  rintro _ _ rfl
  refine (hpoll _).seq fun _ => silent_pthreadMutexUnlock.seq fun _ => ?_
  exact (hpoll _).mono fun _ _ h => ⟨slotNum, binNum, by rw [h]; rfl⟩

/-- A pointer leads to the header whose release is booked. -/
theorem free_books (hctx : ctx.Silent) {bt : List ℕ} (h0 : a ≠ 0) :
    wp (free ctx bt a)
      (fun _ s' => ∃ evs, Drops (ByteMemory.word s.mem (sub64 a 8)) evs ∧ Grows evs s s')
      (fun _ _ => True) s := by
  unfold free
  refine wp_ite (fun h => absurd h h0) fun _ => wp_bind (wp_load64 (fun _ => ?_) fun _ => trivial)
  generalize ByteMemory.word s.mem (sub64 a 8) = hdr
  refine silent_ldField.seq (fun _ => silent_grAssert.seq fun _ => silent_checkSlop.seq fun _ => ?_) s
  refine silent_get.seq fun _ => ?_
  extract_lets args rest
  exact does_ite (fun _ => silent_putTrace.seq fun _ => does_putBuf hctx) fun _ => does_putBuf hctx

theorem does_free (hctx : ctx.Silent) {bt : List ℕ} :
    Does (fun _ evs => evs = [] ∨ ∃ h, Drops h evs) (free ctx bt a) := by
  intro s
  by_cases h0 : a = 0
  · subst h0
    exact wp_ite (fun _ => wp_pure ⟨[], .inl rfl, .refl⟩) fun h => absurd rfl h
  · refine wp_mono (free_books hctx h0) ?_ fun _ _ h => h
    rintro _ s' ⟨evs, hd, hg⟩
    exact ⟨evs, .inr ⟨_, hd⟩, hg⟩

/-! ## Dumps -/

/-- `m` begins and ends its dumps in order; what it books does not matter in a dump. -/
abbrev Nests (m : M α) : Prop := Does (fun _ _ => True) m

theorem Silent.nests (hm : Silent m) : Nests m := hm.mono fun _ _ _ => trivial

theorem Nests.seq {f : α → M β} (hm : Nests m) (hf : ∀ a, Nests (f a)) : Nests (m >>= f) :=
  hm.bind fun a _ _ => hf a

theorem nests_foldlM {γ : Type} {f : β → γ → M β} (hf : ∀ x y, Nests (f x y)) (xs : List γ)
    (x : β) : Nests (xs.foldlM f x) := by
  induction xs generalizing x with
  | nil => exact silent_pure.nests
  | cons y xs ih =>
      rw [List.foldlM_cons]
      exact (hf x y).seq ih

theorem nests_stdio (hctx : ctx.Silent) {calls : List StdioCall} {own : List (ℕ × ℕ)} :
    Nests (stdio ctx calls own) := by
  induction calls generalizing own with
  | nil => exact silent_pure.nests
  | cons c calls ih =>
      cases c with
      | alloc bt alignment size => exact Nests.seq (does_memalignInt hctx) fun _ => ih
      | free bt idx =>
          unfold stdio
          split
          · exact ih
          · exact Nests.seq ((does_free hctx).mono fun _ _ _ => trivial) fun _ => ih
      | store idx off bytes =>
          unfold stdio
          split
          · exact ih
          · exact does_ite (fun _ => Nests.seq silent_storeBytes.nests fun _ => ih) fun _ => ih

theorem nests_fmtOut (hctx : ctx.Silent) : Nests (fmtOut ctx) :=
  Nests.seq silent_tick.nests fun _ => nests_stdio hctx

theorem nests_grPrintf (hctx : ctx.Silent) : Nests (grPrintf ctx) :=
  does_get fun _ => does_ite (fun _ => nests_fmtOut hctx) fun _ => silent_pure.nests

theorem nests_dumpFrames (hctx : ctx.Silent) : Nests (dumpFrames ctx a n) := by
  induction n generalizing a with
  | zero => exact silent_pure.nests
  | succ n ih =>
      refine Nests.seq silent_load64.nests fun _ => Nests.seq (nests_fmtOut hctx) fun _ => ?_
      exact Nests.seq ih fun _ => silent_pure.nests

theorem nests_dumpInUse (hctx : ctx.Silent) (fuel : ℕ) : Nests (dumpInUse ctx fuel h) := by
  induction fuel generalizing h with
  | zero =>
      unfold dumpInUse
      exact does_ite (fun _ => silent_pure.nests) fun _ => stops_throw.does
  | succ fuel ih =>
      unfold dumpInUse
      refine does_ite (fun _ => silent_pure.nests) fun _ => Nests.seq silent_ldField.nests fun _ => ?_
      refine Nests.seq (nests_fmtOut hctx) fun _ => does_get fun _ => ?_
      refine Nests.seq (nests_dumpFrames hctx) fun _ => Nests.seq (nests_fmtOut hctx) fun _ => ?_
      exact Nests.seq silent_ldField.nests fun _ => Nests.seq ih fun _ => silent_pure.nests

theorem nests_dumpBin (hctx : ctx.Silent) {d : Dump} : Nests (dumpBin ctx i d b) := by
  refine does_get fun _ => does_get fun _ => Nests.seq (nests_grPrintf hctx) fun _ => ?_
  refine does_get fun _ => does_get fun _ => does_get fun _ => ?_
  refine does_ite (fun _ => Nests.seq (nests_dumpInUse hctx _) fun _ => ?_) fun _ => ?_
  · exact silent_pure.nests
  · exact Nests.seq silent_pure.nests fun _ => silent_pure.nests

theorem nests_dumpHisto (hctx : ctx.Silent) {d : Dump} : Nests (dumpHisto ctx i d b) :=
  does_get fun _ => does_get fun _ => Nests.seq (nests_grPrintf hctx) fun _ => silent_pure.nests

theorem nests_dumpSlot (hctx : ctx.Silent) {d : Dump} : Nests (dumpSlot ctx d i) := by
  refine Nests.seq silent_pthreadMutexLock.nests fun _ => does_get fun _ => ?_
  refine Nests.seq (nests_fmtOut hctx) fun _ => Nests.seq (nests_grPrintf hctx) fun _ => ?_
  refine Nests.seq (nests_foldlM (fun _ _ => nests_dumpBin hctx) _ _) fun _ => ?_
  refine Nests.seq (nests_grPrintf hctx) fun _ => ?_
  refine Nests.seq (nests_foldlM (fun _ _ => nests_dumpHisto hctx) _ _) fun _ => ?_
  exact Nests.seq silent_pthreadMutexUnlock.nests fun _ => silent_pure.nests

theorem nests_onExitHelperBody (hctx : ctx.Silent) : Nests (onExitHelperBody ctx n) := by
  refine Nests.seq (Nests.seq silent_tick.nests fun _ => nests_stdio hctx) fun _ => ?_
  refine Nests.seq (nests_fmtOut hctx) fun _ => does_get fun _ => ?_
  refine Nests.seq (nests_foldlM (fun _ _ => nests_dumpSlot hctx) _ _) fun d => ?_
  refine Nests.seq (silent_emit (.dumped d) trivial id).nests fun _ => ?_
  extract_lets rest
  have hrest : ∀ u, Nests (rest u) := fun _ => nests_fmtOut hctx
  exact does_ite (fun _ => Stops.does (.left stops_throw)) fun _ => hrest ()

/-- What a dump does to the books of the call that started it. -/
theorem silent_dump (hm : Nests m) :
    Silent (do emit .dumpBegun; let _ ← m; emit .dumpEnded) := by
  intro s
  refine wp_bind (wp_modify (wp_bind_of (hm _) ?_))
  rintro _ s₁ ⟨evs, -, h₁⟩
  have hopen : openDumps s₁.log = openDumps s.log + 1 := h₁.depth
  have htally : tally s₁.log = tally s.log := by
    have h := h₁.tally
    rw [if_neg (show openDumps (.dumpBegun :: s.log) ≠ 0 from Nat.succ_ne_zero _)] at h
    exact h.trans (tally_skip id)
  refine wp_modify ⟨[], rfl, ?_, ?_, ?_, fun h => ?_, fun a => ?_⟩
  · change openDumps s₁.log - 1 = _
    rw [hopen, Nat.add_sub_cancel]
  · rw [ite_self, List.nil_append, ← htally]
    exact tally_skip id
  · exact (List.suffix_cons _ _).trans (h₁.suffix.trans (List.suffix_cons _ _))
  · exact .cons nofun (h₁.tidy (.cons nofun h))
  · exact h₁.credits a

theorem ctxOf_silent {env : Env} (hsig : ∀ line ∈ criticalLines, ∀ t, env.sigusr2 line t = false)
    (depth : ℕ) : (ctxOf env depth).Silent := by
  induction depth with
  | zero => exact ⟨fun _ _ => Stops.does (.bind fun _ => stops_throw), hsig⟩
  | succ depth ih => exact ⟨fun _ _ => silent_dump (nests_onExitHelperBody ih), hsig⟩

/-! ## Runs -/

theorem nests_exec (hctx : ctx.Silent) {bt : List ℕ} (c : Call) : Nests (c.exec ctx bt) := by
  cases c with
  | malloc => exact does_memalignInt hctx
  | calloc =>
      refine Nests.seq (does_memalignInt hctx) fun _ => does_ite (fun _ => silent_pure.nests) fun _ => ?_
      exact Nests.seq silent_memset.nests fun _ => silent_pure.nests
  | realloc =>
      refine Nests.seq (does_memalignInt hctx) fun _ => does_ite (fun _ => silent_pure.nests) fun _ => ?_
      refine Nests.seq silent_load64.nests fun _ => Nests.seq silent_ldField.nests fun _ => ?_
      refine Nests.seq silent_memcpy.nests fun _ => Nests.seq ?_ fun _ => silent_pure.nests
      exact (does_free hctx).mono fun _ _ _ => trivial
  | memalign => exact does_memalignInt hctx
  | posixMemalign =>
      refine Nests.seq (does_ite (fun _ => silent_pure.nests) fun _ => ?_) fun _ => silent_pure.nests
      exact Nests.seq (does_memalignInt hctx) fun _ =>
        does_ite (fun _ => silent_pure.nests) fun _ => silent_pure.nests
  | free =>
      exact Nests.seq ((does_free hctx).mono fun _ _ _ => trivial) fun _ => silent_pure.nests
  | load => exact Nests.seq silent_touch.nests fun _ => silent_pure.nests
  | store => exact Nests.seq silent_storeBytes.nests fun _ => silent_pure.nests
  | onExit => exact Nests.seq (hctx.dump true 0).nests fun _ => silent_pure.nests

theorem Step.grows {env : Env} {depth : ℕ} {st st' : Proc} {c : Call}
    (henv : env.Ok) (hstep : Step env depth st c st') :
    ∃ evs, Grows evs st.heap st'.heap := by
  obtain ⟨-, hexec⟩ := hstep
  obtain ⟨evs, -, h⟩ := wp_ok (nests_exec (ctxOf_silent henv.signals depth) c st.heap) hexec
  exact ⟨evs, h⟩

theorem Run.grows {env : Env} {depth : ℕ} {st st' : Proc} {cs : List Call} (henv : env.Ok)
    (hrun : Run env depth st cs st') : ∃ evs, Grows evs st.heap st'.heap := by
  induction hrun with
  | refl => exact ⟨[], .refl⟩
  | tail hrun hstep ih =>
      obtain ⟨evs, h⟩ := ih
      obtain ⟨evs', h'⟩ := hstep.grows henv
      exact ⟨evs' ++ evs, h.trans h'⟩

theorem Reachable.grows {env : Env} {depth : ℕ} {st : Proc} (henv : env.Ok)
    (hr : Reachable env depth st) : ∃ evs, Grows evs Heap.static st.heap := by
  obtain ⟨s, cs, hb, hrun⟩ := hr
  obtain ⟨_, rfl, h⟩ := wp_ok (silent_grInitialize (ctxOf_silent (fun _ _ _ => rfl) depth) _) hb
  obtain ⟨evs, h'⟩ := hrun.grows henv
  exact ⟨evs ++ [], h.trans h'⟩

/-- Between two calls no dump is open. -/
theorem Reachable.openDumps_eq_zero {env : Env} {depth : ℕ} {st : Proc} (henv : env.Ok)
    (hr : Reachable env depth st) : openDumps st.heap.log = 0 := by
  obtain ⟨evs, h⟩ := hr.grows henv
  exact h.depth

/-! ## Calls without dumps -/

def DumpFree (s s' : Heap) : Prop := ∃ evs, s'.log = evs ++ s.log ∧ .dumpBegun ∉ evs

theorem tally_append {log : List Event} (h0 : openDumps log = 0) (h : .dumpBegun ∉ evs) :
    openDumps (evs ++ log) = 0 ∧ tally (evs ++ log) = evs.filter (·.Booked) ++ tally log := by
  induction evs with
  | nil => exact ⟨h0, rfl⟩
  | cons e evs ih =>
      obtain ⟨hopen, htally⟩ := ih fun hmem => h (List.mem_cons_of_mem e hmem)
      refine ⟨?_, ?_⟩
      · cases e <;> first
          | exact hopen
          | exact absurd List.mem_cons_self h
          | exact congrArg (· - 1) hopen
      · rw [List.cons_append, GuardRails.tally, htally, List.filter_cons]
        by_cases hb : e.Booked <;> simp [hopen, hb]

/-- Without booked events the lists of blocks in use stay as they are. -/
theorem list_inUse_congr {log : List Event} (h : ∀ e ∈ evs, ¬ e.Booked) (i b : ℕ) :
    (ledger (evs ++ log)).list ⟨.inUse, i, b⟩ = (ledger log).list ⟨.inUse, i, b⟩ := by
  induction evs with
  | nil => rfl
  | cons e evs ih =>
      have ih := ih fun e he => h e (List.mem_cons_of_mem _ he)
      have he := h e List.mem_cons_self
      rw [List.cons_append, ledger]
      cases e with
      | linked r x | unlinked r x =>
          have hne : (⟨.inUse, i, b⟩ : HeadRef) ≠ r := fun hr => he (hr ▸ rfl)
          exact (Function.update_of_ne hne _ _).trans ih
      | _ => exact ih

/-- Without dumps the new events that are booked are those of the call. -/
theorem GrowsBy.booked (h : GrowsBy d evs s s') (h0 : openDumps s.log = 0) (hd : DumpFree s s') :
    ∃ new, s'.log = new ++ s.log ∧ new.filter (·.Booked) = evs := by
  obtain ⟨new, hlog, hnew⟩ := hd
  have htally := h.tally
  rw [hlog, (tally_append h0 hnew).2, if_pos h0] at htally
  exact ⟨new, hlog, List.append_cancel_right htally⟩

theorem not_booked_of_filter {new : List Event} (h : new.filter (·.Booked) = []) :
    ∀ e ∈ new, ¬ e.Booked := by
  simpa [List.filter_eq_nil_iff] using h

theorem GrowsBy.list_inUse (h : GrowsBy d [] s s') (h0 : openDumps s.log = 0) (hd : DumpFree s s')
    (i b : ℕ) : (ledger s'.log).list ⟨.inUse, i, b⟩ = (ledger s.log).list ⟨.inUse, i, b⟩ := by
  obtain ⟨new, hlog, hnew⟩ := h.booked h0 hd
  rw [hlog]
  exact list_inUse_congr (not_booked_of_filter hnew) i b

/-- Only booked events are allocations. -/
theorem sum_credit_booked (a : Account) (new : List Event) :
    (new.map (Event.credit a)).sum = ((new.filter (·.Booked)).map (Event.credit a)).sum := by
  induction new with
  | nil => rfl
  | cons e new ih =>
      rw [List.map_cons, List.sum_cons, ih, List.filter_cons]
      by_cases hb : e.Booked
      · simp [hb]
      · simp [hb, e.credit_eq_zero hb]

/-- Nor is what is not booked a release. -/
theorem Event.debit_eq_zero {e : Event} (hb : ¬ e.Booked) (L : Ledger) (a : Account) :
    e.debit L a = 0 := by
  cases e with
  | uncounted i h => exact absurd trivial hb
  | unlinked r h => exact if_neg hb
  | _ => rfl

end GuardRails
