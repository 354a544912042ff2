import GuardRails.Model.Grgdb
import GuardRails.Model.Run
import GuardRails.Spec.Bin

/-!
# Guard pages and the cutting of the pools

Every byte that is cut off a pool belongs to a block or to the guard page behind it, and a page of
a pool that nobody can access stays as it is. The only pages that are opened again are those of a
block that leaves the delay ring: the block is then put on a free list, and the event of that says
how large it is. So the history alone tells which pages were never opened (`Sealed`). A function
that is `Sealing` may be interrupted by signals and may find any heap; if it halts nothing is said.
-/

namespace GuardRails

open ByteMemory StateHoare

variable {s s' s₁ : Heap} {α β : Type} {m : M α} {f : α → M β} {ctx : Ctx} {a n h i b k x : ℕ}
  {r : HeadRef} {e : Event} {evs evs' : List Event} {O O' : Set ℕ}

def Event.cutsOff : Event → Bool
  | .carved _ _ => true
  | _ => false

def Heap.Used (s : Heap) (x : ℕ) : Prop := ∃ P ∈ s.memPools, P.start ≤ x ∧ x < P.startFree

/-- What is left of a pool is its end. -/
def Heap.Cut (s : Heap) : Prop := ∀ P ∈ s.memPools,
  P.start ≤ P.startFree ∧ P.startFree + P.remainingSizeBytes ≤ P.start + P.totalSizeBytes

/-- The page lies in the pools, and nobody can access it. -/
structure Heap.Shut (s : Heap) (k : ℕ) : Prop where
  prot : s.pages k = .none
  mapped : ∀ x, x / 4096 = k → s.mapped x = true

structure Heap.HasGuard (s : Heap) (a : ℕ) : Prop where
  aligned : a % 4096 = 0
  shut : s.Shut (a / 4096)
  magic : word s.mem a = magicGuard

/-- Page `k` is one of those that are opened before the block goes to the list. -/
def Opens (r : HeadRef) (h k : ℕ) : Prop := h / 4096 ≤ k ∧ k * 4096 < h + max 4096 (2 ^ r.bin)

/-- Page `k` is in no block that was put on a list. -/
def Spared (evs : List Event) (k : ℕ) : Prop := ∀ r h, .linked r h ∈ evs → ¬ Opens r h k

/-- From `s` to `s'` the events `evs` have happened; the blocks among them are all that was cut
off the pools, and outside the pages `O` those that nobody could open are as they were. -/
structure Sealed (O : Set ℕ) (evs : List Event) (s s' : Heap) : Prop where
  log : s'.log = evs ++ s.log
  cut : s'.Cut
  mapped : ∀ x, s.mapped x = true → s'.mapped x = true
  used : ∀ x, s'.Used x → s.Used x ∨ ∃ h n, .carved h n ∈ evs ∧ h ≤ x ∧ x < h + n + 4096
  kept : ∀ k, k ∉ O → Spared evs k → s.Shut k →
    s'.Shut k ∧ ∀ x, x / 4096 = k → s'.mem x = s.mem x
  guard : ∀ h n, .carved h n ∈ evs → (h + n) / 4096 ∉ O → Spared evs ((h + n) / 4096) →
    s'.HasGuard (h + n)

def Sealing (m : M α) : Prop :=
  ∀ s, s.Cut → wp m (fun _ s' => ∃ evs, Sealed ∅ evs s s') (fun _ _ => True) s

theorem Spared.left (hk : Spared (evs' ++ evs) k) : Spared evs' k := fun r h hmem =>
  hk r h (List.mem_append_left _ hmem)

theorem Spared.right (hk : Spared (evs' ++ evs) k) : Spared evs k := fun r h hmem =>
  hk r h (List.mem_append_right _ hmem)

/-- A guard page that is kept is a guard page. -/
theorem Heap.HasGuard.keep (hg : s.HasGuard a) (hshut : s'.Shut (a / 4096))
    (hmem : ∀ x, x / 4096 = a / 4096 → s'.mem x = s.mem x) : s'.HasGuard a where
  aligned := hg.aligned
  shut := hshut
  magic := by
    have hal := hg.aligned
    rw [← hg.magic]
    exact word_congr fun x hx hx' => hmem x (by omega)

namespace Sealed

theorem trans (h₁ : Sealed O evs s s₁) (h₂ : Sealed O evs' s₁ s') :
    Sealed O (evs' ++ evs) s s' where
  log := by rw [h₂.log, h₁.log, List.append_assoc]
  cut := h₂.cut
  mapped x hx := h₂.mapped x (h₁.mapped x hx)
  used x hx := by
    rcases h₂.used x hx with hx | ⟨h, n, hmem, hx⟩
    · refine (h₁.used x hx).imp_right ?_
      rintro ⟨h, n, hmem, hx⟩
      exact ⟨h, n, List.mem_append_right _ hmem, hx⟩
    · exact .inr ⟨h, n, List.mem_append_left _ hmem, hx⟩
  kept k hO hk hshut := by
    obtain ⟨hshut₁, hmem₁⟩ := h₁.kept k hO hk.right hshut
    obtain ⟨hshut', hmem'⟩ := h₂.kept k hO hk.left hshut₁
    exact ⟨hshut', fun x hx => (hmem' x hx).trans (hmem₁ x hx)⟩
  guard h n hmem hO hk := by
    rcases List.mem_append.1 hmem with hmem | hmem
    · exact h₂.guard h n hmem hO hk.left
    · have hg := h₁.guard h n hmem hO hk.right
      obtain ⟨hshut', hmem'⟩ := h₂.kept _ hO hk.left hg.shut
      exact hg.keep hshut' hmem'

theorem mono (h : Sealed O evs s s') (hO : O ⊆ O') : Sealed O' evs s s' :=
  { h with
    kept := fun k hk => h.kept k fun hmem => hk (hO hmem)
    guard := fun a n hmem hk => h.guard a n hmem fun hmem' => hk (hO hmem') }

/-- The pages that were opened are those of a block that was put on a list. -/
theorem close (h : Sealed O evs s s') (hmem : .linked r a ∈ evs) (hO : ∀ k ∈ O, Opens r a k) :
    Sealed ∅ evs s s' :=
  { h with
    kept := fun k _ hk => h.kept k (fun hmem' => hk r a hmem (hO k hmem')) hk
    guard := fun c n hmem' _ hk => h.guard c n hmem' (fun hmem'' => hk r a hmem (hO _ hmem'')) hk }

/-- A step that leaves the pools and cuts off nothing. -/
theorem inner (hs : s.Cut) (hlog : s'.log = evs ++ s.log) (hpools : s'.memPools = s.memPools)
    (hcarved : ∀ h n, .carved h n ∉ evs)
    (hpages : ∀ k, k ∉ O → s.pages k = .none → s'.pages k = .none)
    (hmem : ∀ x, s.pages (x / 4096) = .none → s'.mem x = s.mem x) : Sealed O evs s s' := by
  have hmapped : ∀ x, s'.mapped x = s.mapped x := fun x => by rw [Heap.mapped, hpools]; rfl
  refine ⟨hlog, fun P hP => hs P (hpools ▸ hP), fun x hx => (hmapped x).trans hx, fun x hx => ?_,
    fun k hO _ hk => ⟨⟨hpages k hO hk.prot, fun x hx => (hmapped x).trans (hk.mapped x hx)⟩,
      fun x hx => hmem x (hx ▸ hk.prot)⟩, fun h n hmem => absurd hmem (hcarved h n)⟩
  obtain ⟨P, hP, hx⟩ := hx
  exact .inl ⟨P, hpools ▸ hP, hx⟩

theorem refl (hs : s.Cut) : Sealed O [] s s :=
  inner hs rfl rfl (fun _ _ => List.not_mem_nil) (fun _ _ hk => hk) fun _ _ => rfl

end Sealed

/-! ## Rules -/

theorem Sealing.bind (hm : Sealing m) (hf : ∀ x, Sealing (f x)) : Sealing (m >>= f) := by
  intro s hs
  refine wp_bind (wp_mono (hm s hs) ?_ fun _ _ h => h)
  rintro x s₁ ⟨evs, h₁⟩
  refine wp_mono (hf x s₁ h₁.cut) ?_ fun _ _ h => h
  rintro _ s' ⟨evs', h₂⟩
  exact ⟨_, h₁.trans h₂⟩

theorem sealing_pure {x : α} : Sealing (pure x : M α) := fun _ hs => wp_pure ⟨[], .refl hs⟩

theorem sealing_throw {halt : Halt} : Sealing (throw halt : M α) := fun _ _ => wp_throw trivial

theorem sealing_get {g : Heap → M β} (hg : ∀ s, Sealing (g s)) : Sealing (get >>= g) :=
  fun s hs => wp_bind (wp_get (hg s s hs))

theorem sealing_ite {c : Prop} [Decidable c] {x y : M α} (hx : Sealing x) (hy : Sealing y) :
    Sealing (if c then x else y) :=
  fun s hs => wp_ite (fun _ => hx s hs) fun _ => hy s hs

/-- A change of slots, locks and the clock. -/
theorem sealing_modify {g : Heap → Heap} (hlog : ∀ s, (g s).log = s.log)
    (hpools : ∀ s, (g s).memPools = s.memPools) (hpages : ∀ s, (g s).pages = s.pages)
    (hmem : ∀ s, (g s).mem = s.mem) : Sealing (modify g : M Unit) := fun s hs =>
  wp_modify ⟨[], .inner hs (hlog s) (hpools s) (fun _ _ => List.not_mem_nil)
    (fun k _ hk => (congrFun (hpages s) k).trans hk) fun x _ => congrFun (hmem s) x⟩

theorem sealing_updSlot {g : MemSlot → MemSlot} : Sealing (modify fun s => s.updSlot i g : M Unit) :=
  sealing_modify (fun _ => rfl) (fun _ => rfl) (fun _ => rfl) fun _ => rfl

theorem sealing_updBin {g : MemBin → MemBin} : Sealing (modify fun s => s.updBin i b g : M Unit) :=
  sealing_updSlot

theorem sealing_updDelay {g : MemFreeDelay → MemFreeDelay} :
    Sealing (modify fun s => s.updDelay i g : M Unit) := sealing_updSlot

theorem sealing_updHisto {g : MemHisto → MemHisto} :
    Sealing (modify fun s => s.updHisto i k g : M Unit) :=
  sealing_modify (fun _ => rfl) (fun _ => rfl) (fun _ => rfl) fun _ => rfl

theorem sealed_event (hs : s.Cut) (he : e.cutsOff = false) (t : ℕ) :
    Sealed ∅ [e] s { s with clock := t, log := e :: s.log } := by
  refine .inner hs rfl rfl (fun h n hmem => ?_) (fun _ _ hk => hk) fun _ _ => rfl
  rw [← List.mem_singleton.1 hmem] at he
  exact absurd he nofun

theorem sealing_emit (he : e.cutsOff = false) : Sealing (emit e) := fun s hs =>
  wp_emit ⟨[e], sealed_event hs he s.clock⟩

/-! ## Primitive steps -/

theorem sealing_tick : Sealing tick := fun _ hs =>
  wp_tick ⟨[], .inner hs rfl rfl (fun _ _ => List.not_mem_nil) (fun _ _ hk => hk) fun _ _ => rfl⟩

theorem sealing_grAssert {site : Site} {c : Prop} [Decidable c] : Sealing (grAssert site c) :=
  sealing_ite sealing_pure sealing_throw

theorem sealing_touch : Sealing (touch a n) :=
  sealing_get fun _ => sealing_ite sealing_pure sealing_throw

theorem sealing_load64 : Sealing (load64 a) :=
  sealing_touch.bind fun _ => sealing_get fun _ => sealing_pure

/-- What can be accessed is on no page that cannot. -/
theorem sealed_write {g : ℕ → UInt8} (hs : s.Cut) (hacc : Accessible s.pages a n) :
    Sealed O [] s { s with mem := update s.mem a n g } := by
  refine .inner hs rfl rfl (fun _ _ => List.not_mem_nil) (fun _ _ hk => hk) fun x hx => ?_
  refine update_of_notMem (by_contra fun hin => ?_)
  have hne := hacc (x - a) (by omega)
  rw [show a + (x - a) = x by omega] at hne
  exact hne hx

/-- A write of a range that has been touched. -/
theorem sealing_write {g : Heap → ℕ → UInt8} :
    Sealing (do touch a n; modify fun s => { s with mem := update s.mem a n (g s) } : M Unit) :=
  fun _ hs => wp_bind (wp_touch (fun hacc => wp_modify ⟨[], sealed_write hs hacc⟩) fun _ => trivial)

theorem sealing_store64 {v : ℕ} : Sealing (store64 a v) := sealing_write

theorem sealing_ldField {fld : Field} : Sealing (ldField h fld) := sealing_load64

theorem sealing_stField {fld : Field} {v : ℕ} : Sealing (stField h fld v) := sealing_store64

theorem sealing_memset {v : UInt8} : Sealing (memset a v n) := sealing_write

theorem sealing_memcpy {src : ℕ} : Sealing (memcpy a src n) :=
  sealing_touch.bind fun _ => sealing_write

theorem sealing_memcmp {arr : ℕ → UInt8} : Sealing (memcmp a arr n) :=
  sealing_touch.bind fun _ => sealing_get fun _ => sealing_pure

theorem sealing_storeBytes {bytes : List UInt8} : Sealing (storeBytes a bytes) := sealing_write

theorem sealing_storeWords {ws : List ℕ} : Sealing (storeWords a ws) := by
  induction ws generalizing a with
  | nil => exact sealing_pure
  | cons w ws ih => exact sealing_store64.bind fun _ => ih

/-- To take access away opens no page. -/
theorem sealing_protect {env : Env} : Sealing (mprotect env a n .none) := fun s hs =>
  wp_mprotect ⟨[], .inner hs rfl rfl (fun _ _ => List.not_mem_nil) (fun k _ hk => by
    change (if _ then _ else s.pages k) = _
    rw [hk, ite_self]) fun _ _ => rfl⟩ ⟨[.mprotectFailed], sealed_event hs rfl _⟩

/-- The pages of the range are opened, and no others. -/
theorem sealed_open {env : Env} {p : Prot} {Q : ℤ → Heap → Prop} (hs : s.Cut)
    (hq : ∀ s', Sealed {k | a / 4096 ≤ k ∧ k * 4096 < a + n} [] s s' → Q 0 s')
    (hfail : ∀ s', Sealed ∅ [.mprotectFailed] s s' → Q (-1) s') :
    wp (mprotect env a n p) Q (fun _ _ => True) s := by
  refine wp_mprotect (hq _ ?_) (hfail _ (sealed_event hs rfl _))
  refine .inner hs rfl rfl (fun _ _ => List.not_mem_nil) (fun k hO hk => ?_) fun _ _ => rfl
  exact (if_neg hO).trans hk

theorem sealing_mlock {env : Env} : Sealing (mlock env) :=
  sealing_tick.bind fun _ => sealing_ite sealing_pure ((sealing_emit rfl).bind fun _ => sealing_pure)

theorem not_mapped_of_granted (hg : Granted s.memPools a n) (hx : s.mapped x = true) :
    x < a ∨ a + n ≤ x := by
  obtain ⟨P, hP, hin⟩ := List.any_eq_true.1 hx
  have hin := of_decide_eq_true hin
  have := hg.2.2.2 P hP
  omega

/-- The new region is apart from the pools. -/
theorem sealing_mmap {env : Env} : Sealing (mmap env n) := by
  refine fun s hs => wp_mmap ⟨[.mmapFailed], ?_⟩ fun a hg => ⟨[], ?_⟩
  · exact .inner hs rfl rfl (fun h n hmem => absurd (List.mem_singleton.1 hmem) nofun)
      (fun _ _ hk => hk) fun _ _ => rfl
  · refine ⟨rfl, hs, fun _ hx => hx, fun _ hx => .inl hx, fun k _ _ hk => ⟨⟨?_, hk.mapped⟩, ?_⟩,
      fun _ _ hmem => absurd hmem List.not_mem_nil⟩
    · refine (if_neg fun hin => ?_).trans hk.prot
      have hout := not_mapped_of_granted hg (hk.mapped (k * 4096) (by omega))
      obtain ⟨h₁, h₂⟩ : a / 4096 ≤ k ∧ k * 4096 < a + n := hin
      have hal : a % 4096 = 0 := hg.2.1
      omega
    · intro x hx
      have hout := not_mapped_of_granted hg (hk.mapped x hx)
      change update s.mem a n (fun _ => 0) x = s.mem x
      exact update_of_notMem hout

theorem sealing_verifyLocked {l : LockId} : Sealing (verifyLocked l) :=
  sealing_get fun _ => sealing_pure

theorem sealing_getHead : Sealing (getHead r) := sealing_get fun _ => sealing_pure

theorem sealing_putHead : Sealing (putHead r h) := sealing_updBin

theorem sealing_lock {l : LockId} : Sealing (pthreadMutexLock l) := by
  refine fun s hs => wp_pthreadMutexLock (fun _ => ⟨[.acquired l], ?_⟩) fun _ _ => trivial
  refine .inner hs rfl (by cases l <;> rfl) (fun h n hmem => absurd (List.mem_singleton.1 hmem) nofun)
    (fun k _ hk => ?_) fun x _ => ?_
  · cases l <;> exact hk
  · cases l <;> rfl

theorem sealing_unlock {l : LockId} : Sealing (pthreadMutexUnlock l) := by
  refine fun s hs => wp_pthreadMutexUnlock ⟨[.released l], ?_⟩
  refine .inner hs rfl (by cases l <;> rfl) (fun h n hmem => absurd (List.mem_singleton.1 hmem) nofun)
    (fun k _ hk => ?_) fun x _ => ?_
  · cases l <;> exact hk
  · cases l <;> rfl

/-- What a dump and what it prints do to the pages and the pools. -/
structure Ctx.Sealing (ctx : Ctx) : Prop where
  printf : GuardRails.Sealing ctx.printf
  dump : ∀ useLocale hwm, GuardRails.Sealing (ctx.onExitHelper useLocale hwm)

variable (hctx : ctx.Sealing)

include hctx

theorem Ctx.Sealing.poll {line : ℕ} : GuardRails.Sealing (ctx.poll line) :=
  sealing_get fun _ => sealing_ite (hctx.dump true 0) sealing_pure

/-! ## Lists and the delay ring -/

omit hctx in
def Links (r : HeadRef) (h : ℕ) (m : M α) : Prop :=
  ∀ s, s.Cut → wp m (fun _ s' => ∃ evs, Sealed ∅ evs s s' ∧ .linked r h ∈ evs) (fun _ _ => True) s

omit hctx in
theorem Sealing.links (hm : Sealing m) (hf : ∀ x, Links r h (f x)) : Links r h (m >>= f) := by
  intro s hs
  refine wp_bind (wp_mono (hm s hs) ?_ fun _ _ h => h)
  rintro x s₁ ⟨evs, h₁⟩
  refine wp_mono (hf x s₁ h₁.cut) ?_ fun _ _ h => h
  rintro _ s' ⟨evs', h₂, hmem⟩
  exact ⟨_, h₁.trans h₂, List.mem_append_left _ hmem⟩

theorem links_insertElmHead : Links r h (insertElmHead ctx r h) := by
  have hpoll : ∀ line, Sealing (ctx.poll line) := fun _ => hctx.poll
  unfold insertElmHead
  refine sealing_getHead.links fun head => ?_
  extract_lets rest
  have hrest : ∀ u, Links r h (rest u) := fun _ => by
    refine (hpoll _).links fun _ => sealing_getHead.links fun _ => sealing_stField.links fun _ => ?_
    refine (hpoll _).links fun _ => sealing_stField.links fun _ => (hpoll _).links fun _ => ?_
    refine sealing_putHead.links fun _ s hs => ?_
    exact wp_emit ⟨_, sealed_event hs rfl s.clock, List.mem_singleton_self _⟩
  intro s hs
  refine wp_ite (fun _ => ?_) fun _ => hrest () s hs
  have hset : Links r h (do
      ctx.poll 116
      let head ← getHead r
      stField head .prev h
      rest ()) :=
    (hpoll _).links fun _ => sealing_getHead.links fun _ => sealing_stField.links fun _ => hrest ()
  exact hset s hs

theorem sealing_insertElmHead : Sealing (insertElmHead ctx r h) := fun s hs =>
  wp_mono (links_insertElmHead hctx s hs) (fun _ _ ⟨evs, h, _⟩ => ⟨evs, h⟩) fun _ _ h => h

theorem sealing_rmElm : Sealing (rmElm ctx r h) := by
  have hpoll : ∀ line, Sealing (ctx.poll line) := fun _ => hctx.poll
  unfold rmElm
  refine sealing_getHead.bind fun head => ?_
  extract_lets rest₃ rest₂ rest₁
  have hrest₃ : ∀ u, Sealing (rest₃ u) := fun _ => by
    refine (sealing_emit rfl).bind fun _ => (hpoll _).bind fun _ => ?_
    exact sealing_stField.bind fun _ => (hpoll _).bind fun _ => sealing_stField
  have hrest₂ : ∀ u, Sealing (rest₂ u) := fun _ => by
    refine (hpoll _).bind fun _ => sealing_ldField.bind fun _ => sealing_ite ?_ (hrest₃ ())
    refine (hpoll _).bind fun _ => sealing_ldField.bind fun _ => ?_
    exact sealing_ldField.bind fun _ => sealing_stField.bind fun _ => hrest₃ ()
  have hrest₁ : ∀ u, Sealing (rest₁ u) := fun _ => by
    refine (hpoll _).bind fun _ => sealing_ldField.bind fun _ => sealing_ite ?_ (hrest₂ ())
    refine (hpoll _).bind fun _ => sealing_ldField.bind fun _ => ?_
    exact sealing_ldField.bind fun _ => sealing_stField.bind fun _ => hrest₂ ()
  refine sealing_ite ?_ (hrest₁ ())
  exact (hpoll _).bind fun _ => sealing_ldField.bind fun _ => sealing_putHead.bind fun _ => hrest₁ ()

omit hctx in
theorem sealing_circCount : Sealing (circCount i) :=
  sealing_get fun _ => sealing_ite sealing_pure (sealing_grAssert.bind fun _ => sealing_pure)

omit hctx in
theorem sealing_circPut : Sealing (circPut i h) := by
  refine sealing_get fun _ => sealing_grAssert.bind fun _ => sealing_updDelay.bind fun _ => ?_
  refine sealing_ldField.bind fun _ => sealing_updDelay.bind fun _ => ?_
  exact sealing_emit rfl

omit hctx in
/-- A step in the middle of a function. -/
theorem Sealing.after {Q : β → Heap → Prop} (hm : Sealing m) (h₁ : Sealed O evs s s₁)
    (hf : ∀ x s' evs', Sealed O evs' s s' → wp (f x) Q (fun _ _ => True) s') :
    wp (m >>= f) Q (fun _ _ => True) s₁ := by
  refine wp_bind (wp_mono (hm s₁ h₁.cut) ?_ fun _ _ h => h)
  rintro x s' ⟨evs', h₂⟩
  exact hf x s' _ (h₁.trans (h₂.mono (Set.empty_subset O)))

omit hctx in
/-- The page of the header is opened. -/
theorem sealed_circGet (hs : s.Cut) :
    wp (circGet ctx i) (fun h s' => ∃ evs,
      Sealed {k | h / 4096 ≤ k ∧ k * 4096 < h + 4096} evs s s') (fun _ _ => True) s := by
  unfold circGet
  refine wp_bind (wp_get ?_)
  extract_lets d hdr
  have h₀ : Sealed {k | hdr / 4096 ≤ k ∧ k * 4096 < hdr + 4096} [] s s := .refl hs
  refine sealing_grAssert.after h₀ fun _ _ _ h₁ => ?_
  refine sealing_updDelay.after h₁ fun _ _ _ h₁ => sealing_grAssert.after h₁ fun _ _ _ h₁ => ?_
  refine sealing_updDelay.after h₁ fun _ s₁ evs h₁ => wp_bind (sealed_open h₁.cut ?_ ?_)
  · intro s₂ h₂
    refine sealing_grAssert.after (h₁.trans h₂) fun _ _ _ h₂ => ?_
    refine sealing_ldField.after h₂ fun _ _ _ h₂ => sealing_updDelay.after h₂ fun _ _ _ h₂ => ?_
    exact (sealing_emit rfl).after h₂ fun _ _ _ h₃ => wp_pure ⟨_, h₃⟩
  · intro s₂ _
    exact wp_bind (wp_grAssert (fun h => absurd h (by decide)) fun _ => trivial)

theorem sealing_delayFreeOne : Sealing (delayFreeOne ctx i) := by
  intro s hs
  unfold delayFreeOne
  refine wp_bind (wp_mono (sealed_circGet hs) ?_ fun _ _ h => h)
  rintro hdr s₁ ⟨evs, h₁⟩
  refine sealing_ldField.after h₁ fun b s₂ evs₂ h₂ => ?_
  refine wp_ite (fun _ => wp_throw trivial) fun _ => ?_
  extract_lets rest
  -- the list that the block goes to tells which pages have been opened
  have hrest : ∀ u s₃ evs₃, Sealed {k | Opens ⟨.free, i, b⟩ hdr k} evs₃ s s₃ →
      wp (rest u) (fun _ s' => ∃ evs, Sealed ∅ evs s s') (fun _ _ => True) s₃ := by
    intro _ s₃ evs₃ h₃
    refine wp_bind (wp_mono (links_insertElmHead hctx s₃ h₃.cut) ?_ fun _ _ h => h)
    rintro _ s₄ ⟨evs₄, h₄, hmem⟩
    have hclosed := (h₃.trans (h₄.mono (Set.empty_subset _))).close
      (List.mem_append_left _ hmem) fun _ hk => hk
    refine wp_mono (sealing_updBin s₄ h₄.cut) ?_ fun _ _ h => h
    rintro _ s' ⟨evs', h'⟩
    exact ⟨_, hclosed.trans h'⟩
  have hfirst : Sealed {k | Opens ⟨.free, i, b⟩ hdr k} evs₂ s s₂ :=
    h₂.mono fun k hk => ⟨hk.1, hk.2.trans_le (Nat.add_le_add_left (le_max_left _ _) _)⟩
  refine wp_ite (fun _ => wp_bind (sealed_open h₂.cut ?_ ?_)) fun _ => hrest () s₂ _ hfirst
  · intro s₃ h₃
    have hsecond : Sealed {k | Opens ⟨.free, i, b⟩ hdr k} [] s₂ s₃ :=
      h₃.mono fun k hk => ⟨hk.1, hk.2.trans_le (Nat.add_le_add_left (le_max_right _ _) _)⟩
    exact sealing_grAssert.after (hfirst.trans hsecond) hrest
  · intro s₃ _
    exact wp_bind (wp_grAssert (fun h => absurd h (by decide)) fun _ => trivial)

theorem sealing_delayFreeLoop (fuel : ℕ) : Sealing (delayFreeLoop ctx i fuel) := by
  induction fuel with
  | zero => exact sealing_throw
  | succ fuel ih =>
      refine sealing_circCount.bind fun _ => sealing_ite ?_ sealing_pure
      exact (sealing_delayFreeOne hctx).bind fun _ => ih

theorem sealing_delayPut : Sealing (delayPut ctx i h) := by
  refine sealing_verifyLocked.bind fun _ => sealing_grAssert.bind fun _ =>
    sealing_circCount.bind fun _ => ?_
  extract_lets rest
  have hrest : ∀ u, Sealing (rest u) := fun _ =>
    sealing_circPut.bind fun _ => sealing_ldField.bind fun _ =>
      sealing_protect.bind fun _ => sealing_grAssert
  exact sealing_ite ((sealing_delayFreeLoop hctx _).bind fun _ => hrest ()) (hrest ())

/-! ## Pools and refills -/

/-- The dump for lack of memory, and the call of `printf` before it. -/
theorem sealing_lastDump {site : Site} {k : PUnit → M α} : Sealing
    (do ctx.printf; ctx.onExitHelper false 0; let r ← throw (.abort site); k r) :=
  hctx.printf.bind fun _ => (hctx.dump false 0).bind fun _ _ _ => wp_bind (wp_throw trivial)

omit hctx in
/-- A new pool of which nothing has been cut off. -/
theorem sealed_newPool {P : MemPool} (hs : s.Cut) (hstart : P.startFree = P.start)
    (hend : P.startFree + P.remainingSizeBytes ≤ P.start + P.totalSizeBytes) :
    Sealed ∅ [] s { s with memPools := P :: s.memPools } := by
  have hmapped : ∀ x, s.mapped x = true →
      ({ s with memPools := P :: s.memPools } : Heap).mapped x = true := fun x hx =>
    (List.any_cons).trans (by rw [show s.memPools.any _ = true from hx, Bool.or_true])
  refine ⟨rfl, ?_, hmapped, ?_, fun k _ _ hk => ⟨⟨hk.prot, fun x hx => hmapped x (hk.mapped x hx)⟩,
    fun _ _ => rfl⟩, fun _ _ hmem => absurd hmem List.not_mem_nil⟩
  · exact List.forall_mem_cons.2 ⟨⟨hstart.ge, hend⟩, hs⟩
  · rintro x ⟨Q, hQ, hx⟩
    rcases List.mem_cons.1 hQ with rfl | hQ
    · omega
    · exact .inl ⟨Q, hQ, hx⟩

theorem sealing_addNewMemPool : Sealing (addNewMemPool ctx n) := by
  unfold addNewMemPool
  extract_lets poolSize
  refine sealing_get fun s => sealing_grAssert.bind fun _ => sealing_grAssert.bind fun _ => ?_
  refine sealing_mmap.bind fun start => ?_
  cases start with
  | none =>
      refine sealing_tick.bind fun _ => ?_
      extract_lets limit
      exact sealing_ite (sealing_lastDump hctx) sealing_pure
  | some mapStart =>
      refine sealing_grAssert.bind fun _ => ?_
      extract_lets rest
      have hrest : ∀ u, Sealing (rest u) := by
        intro _ s hs
        refine wp_bind (wp_get (wp_ite (fun _ => ?_) fun _ => ?_))
        · exact wp_bind (wp_emit (wp_bind (wp_throw trivial)))
        · exact wp_bind (wp_set (wp_pure ⟨[], sealed_newPool hs rfl le_rfl⟩))
      refine sealing_ite (sealing_mlock.bind fun _ => ?_) (hrest ())
      exact sealing_ite (sealing_lastDump hctx) (hrest ())

omit hctx in
/-- A block and its guard page are cut off the current pool. -/
theorem sealed_carved {P : MemPool} {Ps : List MemPool} (hs : s.Cut) (hpools : s.memPools = P :: Ps)
    {t : ℕ} (ht : t = n + 4096) (hle : t ≤ P.remainingSizeBytes) (hal : (P.startFree + n) % 4096 = 0)
    (hacc : Accessible s.pages (P.startFree + n) 8) (clock : ℕ) :
    Sealed ∅ [.carved P.startFree n] s { s with
      memPools := P.cut t :: Ps
      mem := setWord s.mem (P.startFree + n) magicGuard
      pages := protectPages s.pages (P.startFree + n) 4096 .none
      clock := clock
      log := .carved P.startFree n :: s.log } := by
  have hcut : ∀ Q ∈ P :: Ps, Q.start ≤ Q.startFree ∧
      Q.startFree + Q.remainingSizeBytes ≤ Q.start + Q.totalSizeBytes := hpools ▸ hs
  obtain ⟨hP, hPs⟩ := List.forall_mem_cons.1 hcut
  have hmapped : ∀ x, s.mapped x = (P.cut t :: Ps).any fun P =>
      decide (P.start ≤ x ∧ x < P.start + P.totalSizeBytes) := fun x => by
    rw [Heap.mapped, hpools]
    rfl
  refine ⟨rfl, List.forall_mem_cons.2 ⟨?_, hPs⟩, fun x hx => (hmapped x).symm.trans hx, ?_, ?_, ?_⟩
  · change P.start ≤ P.startFree + t ∧
      P.startFree + t + (P.remainingSizeBytes - t) ≤ P.start + P.totalSizeBytes
    exact ⟨by omega, by omega⟩
  · rintro x ⟨Q, hQ, hx⟩
    rcases List.mem_cons.1 hQ with rfl | hQ
    · change P.start ≤ x ∧ x < P.startFree + t at hx
      by_cases hold : x < P.startFree
      · exact .inl ⟨P, hpools ▸ List.mem_cons_self, hx.1, hold⟩
      · exact .inr ⟨_, _, List.mem_singleton_self _, by omega, by omega⟩
    · exact .inl ⟨Q, hpools ▸ List.mem_cons_of_mem _ hQ, hx⟩
  · intro k _ _ hk
    refine ⟨⟨?_, fun x hx => (hmapped x).symm.trans (hk.mapped x hx)⟩, fun x hx => ?_⟩
    · change (if _ then Prot.none else s.pages k) = .none
      rw [hk.prot, ite_self]
    · refine setWord_of_notMem (by_contra fun hin => ?_)
      have hne := hacc (x - (P.startFree + n)) (by omega)
      rw [show P.startFree + n + (x - (P.startFree + n)) = x by omega] at hne
      exact hne (hx ▸ hk.prot)
  · intro h n' hmem _ _
    obtain ⟨rfl, rfl⟩ := Event.carved.inj (List.mem_singleton.1 hmem)
    refine ⟨hal, ⟨protectPages_of_mem hal le_rfl (by omega), fun x hx => ?_⟩,
      word_setWord_of_lt (by decide)⟩
    refine List.any_eq_true.2 ⟨P.cut t, List.mem_cons_self, decide_eq_true ?_⟩
    change P.start ≤ x ∧ x < P.start + P.totalSizeBytes
    exact ⟨by omega, by omega⟩

omit hctx in
/-- The guard page is written and closed before the lock of the pools is given back. -/
theorem sealed_putGuard (hs : s.Cut) (hle : n + guardSize ≤ s.remaining) :
    wp (do putGuard ctx s.startFree n; emit (.carved s.startFree n) : M Unit)
      (fun _ s' => Sealed ∅ [.carved s.startFree n] s s') (fun _ _ => True)
      (s.bump (n + guardSize)) := by
  cases hpools : s.memPools with
  | nil =>
      have hnone : s.remaining = 0 := by rw [Heap.remaining, hpools]
      exact absurd (hnone ▸ hle) (by rw [show guardSize = 4096 from rfl]; omega)
  | cons P Ps =>
      have hstart : s.startFree = P.startFree := by rw [Heap.startFree, hpools]
      have hrem : s.remaining = P.remainingSizeBytes := by rw [Heap.remaining, hpools]
      have hbump : s.bump (n + guardSize) = { s with memPools := P.cut (n + guardSize) :: Ps } := by
        rw [Heap.bump, hpools]
        rfl
      rw [hrem] at hle
      rw [hstart, hbump]
      refine wp_bind (wp_bind (wp_grAssert (fun _ => ?_) fun _ => trivial))
      extract_lets guardStart
      refine wp_bind (wp_grAssert (fun hal => ?_) fun _ => trivial)
      refine wp_bind (wp_store64 (fun hacc => wp_bind (wp_mprotect ?_ ?_)) fun _ => trivial)
      · exact wp_grAssert_of rfl (wp_emit (sealed_carved hs hpools rfl hle hal hacc _))
      · exact wp_grAssert (fun h => absurd h (by decide)) fun _ => trivial

theorem sealing_getFromPool : Sealing (getFromPool ctx n) := by
  have hlast : ∀ x, Sealing (do pthreadMutexUnlock .gMutex; pure x : M ℕ) := fun _ =>
    sealing_unlock.bind fun _ => sealing_pure
  unfold getFromPool
  extract_lets binTotalSize rest
  have hrest : ∀ ret, Sealing (rest ret) := by
    refine fun ret => sealing_ite (hlast _) fun s hs => ?_
    refine wp_bind (wp_get (wp_bind (wp_grAssert (fun hle => wp_bind (wp_set ?_)) fun _ => trivial)))
    have hcarve : wp (do putGuard ctx s.startFree n; emit (.carved s.startFree n) : M Unit) _ _ _ :=
      sealed_putGuard hs hle
    refine wp_bind (wp_mono (wp_bind_iff.1 hcarve) ?_ fun _ _ h => h)
    intro _ s₁ h₁
    refine wp_bind (wp_mono h₁ ?_ fun _ _ h => h)
    intro _ s₂ h₂
    refine wp_mono (hlast _ s₂ h₂.cut) ?_ fun _ _ h => h
    rintro _ s' ⟨evs, h'⟩
    exact ⟨_, h₂.trans h'⟩
  refine sealing_lock.bind fun _ => sealing_get fun s => ?_
  exact sealing_ite ((sealing_addNewMemPool hctx).bind hrest) (sealing_pure.bind hrest)

theorem sealing_labelBlock : Sealing (labelBlock ctx i b h) := by
  have hpoll : ∀ line, Sealing (ctx.poll line) := fun _ => hctx.poll
  refine (hpoll _).bind fun _ => sealing_stField.bind fun _ => (hpoll _).bind fun _ => ?_
  refine sealing_stField.bind fun _ => (hpoll _).bind fun _ => sealing_stField.bind fun _ => ?_
  refine (sealing_emit rfl).bind fun _ => (hpoll _).bind fun _ => ?_
  refine (sealing_insertElmHead hctx).bind fun _ => (hpoll _).bind fun _ => ?_
  exact sealing_updBin.bind fun _ => hpoll _

theorem sealing_replenishLoop (fuel : ℕ) : Sealing (replenishLoop ctx i b fuel) := by
  have hpoll : ∀ line, Sealing (ctx.poll line) := fun _ => hctx.poll
  induction fuel with
  | zero => exact sealing_throw
  | succ fuel ih =>
      rw [replenishLoop_succ]
      refine (hpoll _).bind fun _ => (sealing_getFromPool hctx).bind fun hdr => ?_
      refine (hpoll _).bind fun _ => sealing_ite sealing_pure ?_
      refine (sealing_labelBlock hctx).bind fun _ => sealing_get fun _ => ?_
      exact sealing_ite ih ((hpoll _).bind fun _ => sealing_pure)

theorem sealing_replenishBin : Sealing (replenishBin ctx i b) := by
  have hpoll : ∀ line, Sealing (ctx.poll line) := fun _ => hctx.poll
  refine (hpoll _).bind fun _ => sealing_verifyLocked.bind fun _ => sealing_grAssert.bind fun _ => ?_
  refine sealing_ite sealing_throw (sealing_ite sealing_pure ((hpoll _).bind fun _ => ?_))
  refine sealing_get fun _ => ?_
  exact sealing_ite (sealing_replenishLoop hctx _) ((hpoll _).bind fun _ => sealing_pure)

theorem sealing_replenishBins (bins : List ℕ) : Sealing (replenishBins ctx i bins) := by
  induction bins with
  | nil => exact sealing_pure
  | cons b bins ih => exact (sealing_replenishBin hctx).bind fun _ => sealing_ite sealing_pure ih

theorem sealing_replenishSlots (slots : List ℕ) : Sealing (replenishSlots ctx slots) := by
  induction slots with
  | nil => exact sealing_pure
  | cons i slots ih =>
      refine sealing_lock.bind fun _ => sealing_verifyLocked.bind fun _ => sealing_grAssert.bind fun _ => ?_
      exact (sealing_replenishBins hctx _).bind fun _ => sealing_unlock.bind fun _ => ih

theorem sealing_grInitialize : Sealing (grInitialize ctx) := by
  refine sealing_get fun s => sealing_ite sealing_pure (sealing_grAssert.bind fun _ => ?_)
  refine sealing_grAssert.bind fun _ => ?_
  refine Sealing.bind (sealing_modify (fun _ => rfl) (fun _ => rfl) (fun _ => rfl) fun _ => rfl) fun _ => ?_
  refine sealing_lock.bind fun _ => Sealing.bind ?_ fun _ => ?_
  · refine Sealing.bind (sealing_modify (fun _ => rfl) (fun _ => rfl) (fun _ => rfl) fun _ => rfl) fun _ => ?_
    exact sealing_get fun _ => sealing_pure
  refine sealing_lock.bind fun _ => ?_
  refine Sealing.bind (sealing_modify (fun _ => rfl) (fun _ => rfl) (fun _ => rfl) fun _ => rfl) fun _ => ?_
  refine (sealing_addNewMemPool hctx).bind fun _ => sealing_grAssert.bind fun _ => ?_
  refine sealing_unlock.bind fun _ => (sealing_replenishSlots hctx _).bind fun _ => ?_
  refine Sealing.bind (sealing_modify (fun _ => rfl) (fun _ => rfl) (fun _ => rfl) fun _ => rfl) fun _ => ?_
  exact sealing_unlock

/-! ## Allocation and release -/

omit hctx in
theorem sealing_pickSlot : Sealing (pickSlot ctx n) :=
  sealing_ite (sealing_tick.bind fun _ => sealing_get fun _ => sealing_ite sealing_throw sealing_pure)
    sealing_pure

theorem sealing_takeBlock : Sealing (takeBlock ctx i b) := by
  have hpoll : ∀ line, Sealing (ctx.poll line) := fun _ => hctx.poll
  refine (hpoll _).bind fun _ => sealing_getHead.bind fun hdr => (hpoll _).bind fun _ => ?_
  refine (sealing_rmElm hctx).bind fun _ => (hpoll _).bind fun _ => ?_
  refine (sealing_insertElmHead hctx).bind fun _ => (hpoll _).bind fun _ => ?_
  exact sealing_updBin.bind fun _ => sealing_pure

theorem sealing_countAlloc {q : Request} : Sealing (countAlloc ctx i b k q) := by
  have hpoll : ∀ line, Sealing (ctx.poll line) := fun _ => hctx.poll
  refine (hpoll _).bind fun _ => sealing_updBin.bind fun _ => (hpoll _).bind fun _ => ?_
  refine sealing_grAssert.bind fun _ => (hpoll _).bind fun _ => sealing_updHisto.bind fun _ => ?_
  refine (hpoll _).bind fun _ => sealing_updSlot.bind fun _ => (sealing_emit rfl).bind fun _ => ?_
  exact (hpoll _).bind fun _ => sealing_updSlot

theorem sealing_limitDumps : Sealing (limitDumps ctx i) := by
  have hpoll : ∀ line, Sealing (ctx.poll line) := fun _ => hctx.poll
  unfold limitDumps
  refine (hpoll _).bind fun _ => sealing_get fun _ => ?_
  extract_lets S
  refine sealing_get fun _ => ?_
  extract_lets args rest
  have hrest : ∀ u, Sealing (rest u) := by
    refine fun _ => (hpoll _).bind fun _ => sealing_get fun _ => sealing_ite ?_ sealing_pure
    refine (sealing_emit rfl).bind fun _ => (hpoll _).bind fun _ => ?_
    exact (hctx.dump false 0).bind fun _ => sealing_throw
  refine sealing_ite ?_ (hrest ())
  refine (hpoll _).bind fun _ => sealing_updSlot.bind fun _ => (hpoll _).bind fun _ => ?_
  exact sealing_get fun _ => (hctx.dump false _).bind hrest

theorem sealing_getBuf {bt : List ℕ} : Sealing (getBuf ctx bt a n) := by
  have hpoll : ∀ line, Sealing (ctx.poll line) := fun _ => hctx.poll
  unfold getBuf
  extract_lets reqSize binNum
  refine (hpoll _).bind fun _ => sealing_pickSlot.bind fun i => ?_
  refine (hpoll _).bind fun _ => sealing_lock.bind fun _ => (hpoll _).bind fun _ => ?_
  refine (sealing_replenishBin hctx).bind fun ret => (hpoll _).bind fun _ => sealing_ite ?_ ?_
  · exact sealing_unlock.bind fun _ => (hpoll _).bind fun _ => sealing_pure
  · refine (sealing_takeBlock hctx).bind fun hdr => (sealing_countAlloc hctx).bind fun _ => ?_
    refine (sealing_limitDumps hctx).bind fun _ => (hpoll _).bind fun _ => sealing_unlock.bind fun _ => ?_
    refine (hpoll _).bind fun _ => sealing_ldField.bind fun _ => sealing_grAssert.bind fun _ => ?_
    exact (hpoll _).bind fun _ => sealing_pure

theorem sealing_countFree : Sealing (countFree ctx i h) := by
  have hpoll : ∀ line, Sealing (ctx.poll line) := fun _ => hctx.poll
  refine (hpoll _).bind fun _ => sealing_ldField.bind fun _ => (hpoll _).bind fun _ => ?_
  refine sealing_grAssert.bind fun _ => (hpoll _).bind fun _ => sealing_updHisto.bind fun _ => ?_
  refine (hpoll _).bind fun _ => sealing_ldField.bind fun _ => sealing_updSlot.bind fun _ => ?_
  exact sealing_emit rfl

theorem sealing_dropBlock : Sealing (dropBlock ctx i b h) := by
  have hpoll : ∀ line, Sealing (ctx.poll line) := fun _ => hctx.poll
  refine (hpoll _).bind fun _ => (sealing_rmElm hctx).bind fun _ => ?_
  refine (hpoll _).bind fun _ => sealing_get fun s => ?_
  extract_lets rest
  have hrest : ∀ u, Sealing (rest u) := fun _ => (hpoll _).bind fun _ => sealing_updBin
  refine sealing_ite ?_ ?_
  · exact (hpoll _).bind fun _ => (sealing_delayPut hctx).bind fun _ => hrest ()
  · refine (hpoll _).bind fun _ => (sealing_insertElmHead hctx).bind fun _ => ?_
    exact (hpoll _).bind fun _ => sealing_updBin.bind fun _ => hrest ()

theorem sealing_putBuf : Sealing (putBuf ctx h) := by
  have hpoll : ∀ line, Sealing (ctx.poll line) := fun _ => hctx.poll
  refine (hpoll _).bind fun _ => sealing_ldField.bind fun _ => sealing_grAssert.bind fun _ => ?_
  refine (hpoll _).bind fun _ => sealing_stField.bind fun _ => (sealing_emit rfl).bind fun _ => ?_
  refine (hpoll _).bind fun _ => sealing_ldField.bind fun i => sealing_ite sealing_throw ?_
  refine (hpoll _).bind fun _ => sealing_lock.bind fun _ => (hpoll _).bind fun _ => ?_
  refine sealing_ldField.bind fun b => sealing_ite sealing_throw ?_
  refine (sealing_countFree hctx).bind fun _ => (sealing_dropBlock hctx).bind fun _ => ?_
  exact (hpoll _).bind fun _ => sealing_unlock.bind fun _ => hpoll _

omit hctx in
theorem sealing_putTrace {bt : List ℕ} {site : Site} : Sealing (putTrace bt site a n) :=
  sealing_memset.bind fun _ => (sealing_storeWords.bind fun _ => sealing_pure).bind fun _ =>
    sealing_grAssert

omit hctx in
theorem sealing_fillBlock {bt : List ℕ} {endBuf : ℕ} : Sealing (fillBlock bt a n h endBuf) := by
  refine sealing_get fun s => ?_
  extract_lets args misalignment usrData rest₃ rest₂ rest₁
  have hrest₂ : ∀ u, Sealing (rest₂ u) := fun _ => by
    refine sealing_store64.bind fun _ => sealing_stField.bind fun _ => sealing_stField.bind fun _ => ?_
    refine (sealing_emit rfl).bind fun _ => ?_
    exact sealing_ite (sealing_memset.bind fun _ => sealing_pure) sealing_pure
  have hrest₁ : ∀ u, Sealing (rest₁ u) := fun _ => by
    refine sealing_ldField.bind fun _ => sealing_grAssert.bind fun _ => sealing_stField.bind fun _ => ?_
    refine sealing_stField.bind fun _ => sealing_grAssert.bind fun _ => sealing_grAssert.bind fun _ => ?_
    refine sealing_ite ?_ (hrest₂ ())
    exact sealing_grAssert.bind fun _ => sealing_memset.bind fun _ => hrest₂ ()
  exact sealing_ite (sealing_putTrace.bind fun _ => hrest₁ ()) (hrest₁ ())

omit hctx in
theorem sealing_checkSlop : Sealing (checkSlop h) := by
  refine sealing_ldField.bind fun _ => sealing_ite ?_ sealing_pure
  refine sealing_ldField.bind fun _ => sealing_ldField.bind fun _ => sealing_get fun _ => ?_
  exact sealing_memcmp.bind fun _ => sealing_grAssert

theorem sealing_memalignInt {bt : List ℕ} : Sealing (memalignInt ctx bt a n) := by
  unfold memalignInt
  refine sealing_get fun s => ?_
  extract_lets allocSize done rest
  have hrest : ∀ u, Sealing (rest u) := fun _ => by
    refine (sealing_getBuf hctx).bind fun p => sealing_ite (sealing_get fun _ => ?_) sealing_fillBlock
    exact sealing_ite (fun _ _ => wp_bind (wp_throw trivial)) sealing_pure
  refine sealing_get fun _ => sealing_ite ?_ (hrest ())
  exact (sealing_grInitialize hctx).bind hrest

theorem sealing_free {bt : List ℕ} : Sealing (free ctx bt a) := by
  refine sealing_ite sealing_pure (sealing_load64.bind fun hdr => sealing_ldField.bind fun _ => ?_)
  refine sealing_grAssert.bind fun _ => sealing_checkSlop.bind fun _ => sealing_get fun _ => ?_
  extract_lets args
  exact sealing_ite (sealing_putTrace.bind fun _ => sealing_putBuf hctx) (sealing_putBuf hctx)

/-! ## Dumps -/

theorem sealing_stdio {calls : List StdioCall} {own : List (ℕ × ℕ)} : Sealing (stdio ctx calls own) := by
  induction calls generalizing own with
  | nil => exact sealing_pure
  | cons c calls ih =>
      cases c with
      | alloc bt alignment size => exact (sealing_memalignInt hctx).bind fun _ => ih
      | free bt idx =>
          unfold stdio
          cases own[idx]? with
          | none => exact ih
          | some e => exact (sealing_free hctx).bind fun _ => ih
      | store idx off bytes =>
          unfold stdio
          cases own[idx]? with
          | none => exact ih
          | some e => exact sealing_ite (sealing_storeBytes.bind fun _ => ih) ih

theorem sealing_fmtOut : Sealing (fmtOut ctx) := sealing_tick.bind fun _ => sealing_stdio hctx

theorem sealing_dumpOffsets : Sealing (dumpOffsets ctx) :=
  sealing_tick.bind fun _ => sealing_stdio hctx

theorem sealing_grPrintf : Sealing (grPrintf ctx) :=
  sealing_get fun _ => sealing_ite (sealing_fmtOut hctx) sealing_pure

theorem sealing_dumpFrames : Sealing (dumpFrames ctx a n) := by
  induction n generalizing a with
  | zero => exact sealing_pure
  | succ n ih =>
      refine sealing_load64.bind fun _ => (sealing_fmtOut hctx).bind fun _ => ?_
      exact ih.bind fun _ => sealing_pure

theorem sealing_dumpInUse (fuel : ℕ) : Sealing (dumpInUse ctx fuel h) := by
  induction fuel generalizing h with
  | zero =>
      unfold dumpInUse
      exact sealing_ite sealing_pure sealing_throw
  | succ fuel ih =>
      unfold dumpInUse
      refine sealing_ite sealing_pure (sealing_ldField.bind fun _ => (sealing_fmtOut hctx).bind fun _ => ?_)
      refine sealing_get fun _ => (sealing_dumpFrames hctx).bind fun _ => ?_
      refine (sealing_fmtOut hctx).bind fun _ => sealing_ldField.bind fun _ => ?_
      exact ih.bind fun _ => sealing_pure

theorem sealing_dumpBin {d : Dump} : Sealing (dumpBin ctx i d b) := by
  unfold dumpBin
  refine sealing_get fun _ => sealing_get fun _ => (sealing_grPrintf hctx).bind fun _ => ?_
  refine sealing_get fun _ => sealing_get fun _ => sealing_get fun _ => sealing_ite ?_ ?_
  · exact (sealing_dumpInUse hctx _).bind fun _ => sealing_pure
  · exact sealing_pure.bind fun _ => sealing_pure

theorem sealing_dumpHisto {d : Dump} : Sealing (dumpHisto ctx i d b) :=
  sealing_get fun _ => sealing_get fun _ => (sealing_grPrintf hctx).bind fun _ => sealing_pure

omit hctx in
theorem sealing_foldlM {g : Dump → ℕ → M Dump} {js : List ℕ} {d : Dump}
    (hg : ∀ d j, Sealing (g d j)) : Sealing (js.foldlM g d) := by
  induction js generalizing d with
  | nil => exact sealing_pure
  | cons j js ih => exact (hg d j).bind fun _ => ih

theorem sealing_dumpSlot {d : Dump} : Sealing (dumpSlot ctx d i) := by
  refine sealing_lock.bind fun _ => sealing_get fun _ => (sealing_fmtOut hctx).bind fun _ => ?_
  refine (sealing_grPrintf hctx).bind fun _ => ?_
  refine (sealing_foldlM fun _ _ => sealing_dumpBin hctx).bind fun _ => ?_
  refine (sealing_grPrintf hctx).bind fun _ => ?_
  refine (sealing_foldlM fun _ _ => sealing_dumpHisto hctx).bind fun _ => ?_
  exact sealing_unlock.bind fun _ => sealing_pure

theorem sealing_onExitHelperBody {hwm : ℕ} : Sealing (onExitHelperBody ctx hwm) := by
  refine (sealing_dumpOffsets hctx).bind fun _ => (sealing_fmtOut hctx).bind fun _ => ?_
  refine sealing_get fun _ => (sealing_foldlM fun _ _ => sealing_dumpSlot hctx).bind fun _ => ?_
  refine (sealing_emit rfl).bind fun _ => ?_
  exact sealing_ite (sealing_throw.bind fun _ => sealing_fmtOut hctx) (sealing_fmtOut hctx)

omit hctx in
/-- The dumps of every depth. -/
theorem ctxOf_sealing (env : Env) (depth : ℕ) : (ctxOf env depth).Sealing := by
  induction depth with
  | zero => exact ⟨sealing_throw, fun _ _ => (sealing_emit rfl).bind fun _ => sealing_throw⟩
  | succ depth ih =>
      refine ⟨sealing_fmtOut ih, fun _ _ => (sealing_emit rfl).bind fun _ => ?_⟩
      exact (sealing_onExitHelperBody ih).bind fun _ => sealing_emit rfl

/-! ## Calls and runs -/

theorem sealing_exec {bt : List ℕ} (c : Call) : Sealing (c.exec ctx bt) := by
  cases c with
  | malloc n => exact sealing_memalignInt hctx
  | calloc k n =>
      refine (sealing_memalignInt hctx).bind fun _ => sealing_ite sealing_pure ?_
      exact sealing_memset.bind fun _ => sealing_pure
  | realloc p n =>
      refine (sealing_memalignInt hctx).bind fun _ => sealing_ite sealing_pure ?_
      refine sealing_load64.bind fun _ => sealing_ldField.bind fun _ => sealing_memcpy.bind fun _ => ?_
      exact (sealing_free hctx).bind fun _ => sealing_pure
  | memalign alignment n => exact sealing_memalignInt hctx
  | posixMemalign alignment n =>
      refine Sealing.bind (sealing_ite sealing_pure ?_) fun _ => sealing_pure
      exact (sealing_memalignInt hctx).bind fun _ => sealing_ite sealing_pure sealing_pure
  | free p => exact (sealing_free hctx).bind fun _ => sealing_pure
  | load p off len => exact sealing_touch.bind fun _ => sealing_pure
  | store p off bytes => exact sealing_storeBytes.bind fun _ => sealing_pure
  | onExit => exact (hctx.dump true 0).bind fun _ => sealing_pure

omit hctx

/-- The whole history of a process has cut the pools and sealed the guard pages. -/
theorem Reachable.sealed {env : Env} {depth : ℕ} {st : Proc} (hr : Reachable env depth st) :
    Sealed ∅ st.heap.log Heap.static st.heap := by
  obtain ⟨s, cs, hb, hrun⟩ := hr
  suffices h : ∃ evs, Sealed ∅ evs Heap.static st.heap by
    obtain ⟨evs, h⟩ := h
    have hlog : st.heap.log = evs := h.log.trans (List.append_nil evs)
    exact hlog ▸ h
  induction hrun with
  | refl =>
      have hboot := sealing_grInitialize (ctxOf_sealing env.unsignalled depth) Heap.static
        fun P hP => absurd hP List.not_mem_nil
      exact wp_ok hboot hb
  | tail _ hstep ih =>
      obtain ⟨evs, h₁⟩ := ih
      obtain ⟨hok, hexec⟩ := hstep
      obtain ⟨evs', h₂⟩ := wp_ok (sealing_exec (ctxOf_sealing env depth) _ _ h₁.cut) hexec
      exact ⟨_, h₁.trans h₂⟩

end GuardRails
