import GuardRails.Ledger.Stock
import GuardRails.Spec.Supply

/-!
# What bins get and give

A bin gets a block when `replenishBin` labels it, and gives one when `getBuf` takes it off the
free list. Apart from these two, no function deals a block, none changes a water mark, and none
takes bytes from the pools. All of this is about runs in which no signal arrives.
-/

namespace GuardRails

open StateHoare

variable {s s' s₁ : Heap} {α β : Type} {m : M α} {f : α → M β} {ctx : Ctx} {a n h i b : ℕ}
  {r : HeadRef} {e : Event} {p : Event → Bool} {ds ds' : List Event}

def MemBin.water (B : MemBin) : ℕ × ℕ := (B.lowWater, B.highWater)

/-- From `s` to `s'` just the events `ds` of the kind `p` were added to the history. Water marks
and pools are as they were. -/
structure Dealt (p : Event → Bool) (ds : List Event) (s s' : Heap) : Prop where
  water : ∀ i b, (s'.bin i b).water = (s.bin i b).water
  used : poolsUsed s'.memPools = poolsUsed s.memPools
  log : ∃ evs, s'.log = evs ++ s.log ∧ evs.filter p = ds

/-- `m` adds the events `ds` of the kind `p`, if it returns. -/
def Dealing (p : Event → Bool) (ds : List Event) (m : M α) : Prop :=
  ∀ s, wp m (fun _ s' => Dealt p ds s s') (fun _ _ => True) s

/-- `m` gives no block to a bin and takes none off a free list. -/
def Sparing (m : M α) : Prop := Dealing Event.deals [] m

theorem Dealt.refl : Dealt p [] s s := ⟨fun _ _ => rfl, rfl, [], rfl, rfl⟩

theorem Dealt.trans (h₁ : Dealt p ds s s₁) (h₂ : Dealt p ds' s₁ s') : Dealt p (ds' ++ ds) s s' where
  water i b := (h₂.water i b).trans (h₁.water i b)
  used := h₂.used.trans h₁.used
  log := by
    obtain ⟨evs₁, hlog₁, rfl⟩ := h₁.log
    obtain ⟨evs₂, hlog₂, rfl⟩ := h₂.log
    exact ⟨evs₂ ++ evs₁, by rw [hlog₂, hlog₁, List.append_assoc], List.filter_append _ _⟩

/-- A change of anything but the slots, the pools and the history. -/
theorem Dealt.of_same (hslots : s'.memSlots = s.memSlots) (hpools : s'.memPools = s.memPools)
    (hlog : s'.log = s.log) : Dealt p [] s s' :=
  ⟨fun i b => by rw [Heap.bin, hslots], by rw [hpools], [], hlog, rfl⟩

theorem Dealt.updSlot {g : MemSlot → MemSlot}
    (hg : ∀ S b, ((g S).memBins b).water = (S.memBins b).water) : Dealt p [] s (s.updSlot i g) := by
  refine ⟨fun j b => ?_, rfl, [], rfl, rfl⟩
  change ((Function.update s.memSlots i (g (s.memSlots i)) j).memBins b).water = _
  by_cases hj : j = i
  · subst hj
    rw [Function.update_self]
    exact hg _ b
  · rw [Function.update_of_ne hj]

theorem water_updBin {g : MemBin → MemBin} (hg : ∀ B, (g B).water = B.water) (S : MemSlot) (c : ℕ) :
    (Function.update S.memBins b (g (S.memBins b)) c).water = (S.memBins c).water := by
  by_cases hc : c = b
  · subst hc
    rw [Function.update_self]
    exact hg _
  · rw [Function.update_of_ne hc]

theorem Dealt.emit : Dealt p ([e].filter p) s { s with log := e :: s.log } :=
  ⟨fun _ _ => rfl, rfl, [e], rfl, rfl⟩

theorem Dealt.lockHeap {l : LockId} : Dealt Event.deals [] s (s.lockHeap l) := by
  refine ⟨fun i b => ?_, ?_, [.acquired l], rfl, rfl⟩
  · exact congrArg MemBin.water (bin_setMutex s l _ i b)
  · rw [lockHeap_memPools]

theorem Dealt.unlockHeap {l : LockId} : Dealt Event.deals [] s (s.unlockHeap l) := by
  refine ⟨fun i b => ?_, ?_, [.released l], rfl, rfl⟩
  · exact congrArg MemBin.water (bin_setMutex s l _ i b)
  · cases l <;> rfl

/-! ## Rules -/

theorem Dealing.seq (hm : Dealing p [] m) (hf : ∀ x, Dealing p ds (f x)) : Dealing p ds (m >>= f) := by
  intro s
  refine wp_bind_of (hm s) fun x s₁ h₁ => wp_mono (hf x s₁) (fun _ _ h₂ => ?_) fun _ _ h => h
  have h := h₁.trans h₂
  rwa [List.append_nil] at h

theorem Dealing.then (hm : Dealing p ds m) (hf : ∀ x, Dealing p [] (f x)) : Dealing p ds (m >>= f) :=
  fun s => wp_bind_of (hm s) fun x s₁ h₁ => wp_mono (hf x s₁) (fun _ _ h₂ => h₁.trans h₂) fun _ _ h => h

theorem dealing_pure {x : α} : Dealing p [] (pure x : M α) := fun _ => wp_pure .refl

theorem dealing_throw {halt : Halt} : Dealing p ds (throw halt : M α) := fun _ => wp_throw trivial

theorem dealing_get {g : Heap → M β} (hg : ∀ s, Dealing p ds (g s)) : Dealing p ds (get >>= g) :=
  fun s => wp_bind (wp_get (hg s s))

theorem dealing_ite {c : Prop} [Decidable c] {x y : M α} (hx : Dealing p ds x) (hy : Dealing p ds y) :
    Dealing p ds (if c then x else y) :=
  fun s => wp_ite (fun _ => hx s) fun _ => hy s

theorem dealing_modify {g : Heap → Heap} (hg : ∀ s, Dealt p [] s (g s)) :
    Dealing p [] (modify g : M Unit) :=
  fun s => wp_modify (hg s)

theorem dealing_emit : Dealing p ([e].filter p) (emit e) := fun _ => wp_emit .emit

theorem sparing_emit (he : e.deals = false) : Sparing (emit e) := by
  have h := dealing_emit (p := Event.deals) (e := e)
  rwa [List.filter_cons_of_neg (by simp [he]), List.filter_nil] at h

theorem dealing_updSlot {g : MemSlot → MemSlot}
    (hg : ∀ S b, ((g S).memBins b).water = (S.memBins b).water) :
    Dealing p [] (modify fun s => s.updSlot i g : M Unit) :=
  dealing_modify fun _ => .updSlot hg

theorem dealing_updBin {g : MemBin → MemBin} (hg : ∀ B, (g B).water = B.water) :
    Dealing p [] (modify fun s => s.updBin i b g : M Unit) :=
  dealing_updSlot fun S c => water_updBin hg S c

theorem dealing_updDelay {g : MemFreeDelay → MemFreeDelay} :
    Dealing p [] (modify fun s => s.updDelay i g : M Unit) :=
  dealing_updSlot fun _ _ => rfl

theorem dealing_updHisto {k : ℕ} {g : MemHisto → MemHisto} :
    Dealing p [] (modify fun s => s.updHisto i k g : M Unit) :=
  dealing_modify fun _ => .of_same rfl rfl rfl

theorem dealing_mem {g : Heap → ByteMemory.Mem} :
    Dealing p [] (modify fun s => { s with mem := g s } : M Unit) :=
  dealing_modify fun _ => .of_same rfl rfl rfl

/-! ## Primitive steps -/

theorem dealing_tick : Dealing p [] tick := fun _ => wp_tick (.of_same rfl rfl rfl)

theorem dealing_grAssert {site : Site} {c : Prop} [Decidable c] : Dealing p [] (grAssert site c) :=
  dealing_ite dealing_pure dealing_throw

theorem dealing_touch : Dealing p [] (touch a n) :=
  dealing_get fun _ => dealing_ite dealing_pure dealing_throw

theorem dealing_load64 : Dealing p [] (load64 a) :=
  dealing_touch.seq fun _ => dealing_get fun _ => dealing_pure

theorem dealing_store64 {v : ℕ} : Dealing p [] (store64 a v) := dealing_touch.seq fun _ => dealing_mem

theorem dealing_ldField {fld : Field} : Dealing p [] (ldField h fld) := dealing_load64

theorem dealing_stField {fld : Field} {v : ℕ} : Dealing p [] (stField h fld v) := dealing_store64

theorem dealing_memset {v : UInt8} : Dealing p [] (memset a v n) :=
  dealing_touch.seq fun _ => dealing_mem

theorem dealing_memcpy {src : ℕ} : Dealing p [] (memcpy a src n) :=
  dealing_touch.seq fun _ => dealing_touch.seq fun _ => dealing_mem

theorem dealing_memcmp {arr : ℕ → UInt8} : Dealing p [] (memcmp a arr n) :=
  dealing_touch.seq fun _ => dealing_get fun _ => dealing_pure

theorem dealing_storeBytes {bytes : List UInt8} : Dealing p [] (storeBytes a bytes) :=
  dealing_touch.seq fun _ => dealing_mem

theorem dealing_storeWords {ws : List ℕ} : Dealing p [] (storeWords a ws) := by
  induction ws generalizing a with
  | nil => exact dealing_pure
  | cons w ws ih => exact dealing_store64.seq fun _ => ih

theorem sparing_mprotect {env : Env} {prot : Prot} : Sparing (mprotect env a n prot) := by
  refine dealing_tick.seq fun _ => dealing_ite (Dealing.seq ?_ fun _ => dealing_pure) ?_
  · exact dealing_modify fun _ => .of_same rfl rfl rfl
  · exact (sparing_emit rfl).seq fun _ => dealing_pure

theorem sparing_lock {l : LockId} : Sparing (pthreadMutexLock l) :=
  fun _ => wp_pthreadMutexLock (fun _ => .lockHeap) fun _ _ => trivial

theorem sparing_unlock {l : LockId} : Sparing (pthreadMutexUnlock l) :=
  fun _ => wp_pthreadMutexUnlock .unlockHeap

theorem dealing_verifyLocked {l : LockId} : Dealing p [] (verifyLocked l) :=
  dealing_get fun _ => dealing_pure

theorem dealing_getHead : Dealing p [] (getHead r) := dealing_get fun _ => dealing_pure

theorem dealing_putHead : Dealing p [] (putHead r h) := by
  obtain ⟨kind, i, b⟩ := r
  cases kind
  · exact dealing_updBin fun _ => rfl
  · exact dealing_updBin fun _ => rfl

theorem dealing_poll (hcalm : ctx.env.Calm) {line : ℕ} : Dealing p [] (ctx.poll line) :=
  fun _ => wp_poll .refl fun hsig => absurd ((hcalm _ _).symm.trans hsig) nofun

/-! ## Lists and the delay ring -/

theorem dealing_insertElmHead (hcalm : ctx.env.Calm) :
    Dealing p ([.linked r h].filter p) (insertElmHead ctx r h) := by
  have hpoll : ∀ line, Dealing p [] (ctx.poll line) := fun _ => dealing_poll hcalm
  unfold insertElmHead
  refine dealing_getHead.seq fun head => ?_
  extract_lets rest
  have hrest : ∀ u, Dealing p ([.linked r h].filter p) (rest u) := fun _ => by
    refine (hpoll _).seq fun _ => dealing_getHead.seq fun _ => dealing_stField.seq fun _ => ?_
    refine (hpoll _).seq fun _ => dealing_stField.seq fun _ => (hpoll _).seq fun _ => ?_
    exact dealing_putHead.seq fun _ => dealing_emit
  refine dealing_ite ?_ (hrest ())
  exact (hpoll _).seq fun _ => dealing_getHead.seq fun _ => dealing_stField.seq fun _ => hrest ()

theorem dealing_rmElm (hcalm : ctx.env.Calm) :
    Dealing p ([.unlinked r h].filter p) (rmElm ctx r h) := by
  have hpoll : ∀ line, Dealing p [] (ctx.poll line) := fun _ => dealing_poll hcalm
  unfold rmElm
  refine dealing_getHead.seq fun head => ?_
  extract_lets rest₃ rest₂ rest₁
  have hrest₃ : ∀ u, Dealing p ([.unlinked r h].filter p) (rest₃ u) := fun _ => by
    refine dealing_emit.then fun _ => ?_
    exact (hpoll _).seq fun _ => dealing_stField.seq fun _ => (hpoll _).seq fun _ => dealing_stField
  have hrest₂ : ∀ u, Dealing p ([.unlinked r h].filter p) (rest₂ u) := fun _ => by
    refine (hpoll _).seq fun _ => dealing_ldField.seq fun _ => dealing_ite ?_ (hrest₃ ())
    refine (hpoll _).seq fun _ => dealing_ldField.seq fun _ => dealing_ldField.seq fun _ => ?_
    exact dealing_stField.seq fun _ => hrest₃ ()
  have hrest₁ : ∀ u, Dealing p ([.unlinked r h].filter p) (rest₁ u) := fun _ => by
    refine (hpoll _).seq fun _ => dealing_ldField.seq fun _ => dealing_ite ?_ (hrest₂ ())
    refine (hpoll _).seq fun _ => dealing_ldField.seq fun _ => dealing_ldField.seq fun _ => ?_
    exact dealing_stField.seq fun _ => hrest₂ ()
  refine dealing_ite ?_ (hrest₁ ())
  exact (hpoll _).seq fun _ => dealing_ldField.seq fun _ => dealing_putHead.seq fun _ => hrest₁ ()

theorem sparing_insertElmHead (hcalm : ctx.env.Calm) : Sparing (insertElmHead ctx r h) :=
  dealing_insertElmHead hcalm

theorem sparing_circCount : Sparing (circCount i) :=
  dealing_get fun _ => dealing_ite dealing_pure (dealing_grAssert.seq fun _ => dealing_pure)

theorem sparing_circPut : Sparing (circPut i h) := by
  refine dealing_get fun _ => dealing_grAssert.seq fun _ => dealing_updDelay.seq fun _ => ?_
  exact dealing_ldField.seq fun _ => dealing_updDelay.seq fun _ => sparing_emit rfl

theorem sparing_circGet : Sparing (circGet ctx i) := by
  refine dealing_get fun s => ?_
  extract_lets d hdr
  refine dealing_grAssert.seq fun _ => dealing_updDelay.seq fun _ => dealing_grAssert.seq fun _ => ?_
  refine dealing_updDelay.seq fun _ => sparing_mprotect.seq fun _ => dealing_grAssert.seq fun _ => ?_
  refine dealing_ldField.seq fun _ => dealing_updDelay.seq fun _ => ?_
  exact (sparing_emit rfl).seq fun _ => dealing_pure

theorem sparing_delayFreeOne (hcalm : ctx.env.Calm) : Sparing (delayFreeOne ctx i) := by
  refine sparing_circGet.seq fun hdr => dealing_ldField.seq fun _ => dealing_ite dealing_throw ?_
  extract_lets rest
  have hrest : ∀ u, Sparing (rest u) := fun _ =>
    (sparing_insertElmHead hcalm).seq fun _ => dealing_updBin fun _ => rfl
  exact dealing_ite (sparing_mprotect.seq fun _ => dealing_grAssert.seq fun _ => hrest ()) (hrest ())

theorem sparing_delayFreeLoop (hcalm : ctx.env.Calm) (fuel : ℕ) : Sparing (delayFreeLoop ctx i fuel) := by
  induction fuel with
  | zero => exact dealing_throw
  | succ fuel ih =>
      refine sparing_circCount.seq fun _ => dealing_ite ?_ dealing_pure
      exact (sparing_delayFreeOne hcalm).seq fun _ => ih

theorem sparing_delayPut (hcalm : ctx.env.Calm) : Sparing (delayPut ctx i h) := by
  refine dealing_verifyLocked.seq fun _ => dealing_grAssert.seq fun _ => sparing_circCount.seq fun _ => ?_
  extract_lets rest
  have hrest : ∀ u, Sparing (rest u) := fun _ =>
    sparing_circPut.seq fun _ => dealing_ldField.seq fun _ =>
      sparing_mprotect.seq fun _ => dealing_grAssert
  exact dealing_ite ((sparing_delayFreeLoop hcalm _).seq fun _ => hrest ()) (hrest ())

/-! ## Blocks -/

theorem dealing_putTrace {bt : List ℕ} {site : Site} : Dealing p [] (putTrace bt site a n) :=
  dealing_memset.seq fun _ =>
    Dealing.seq (dealing_storeWords.seq fun _ => dealing_pure) fun _ => dealing_grAssert

theorem dealing_pickSlot : Dealing p [] (pickSlot ctx n) :=
  dealing_ite (dealing_tick.seq fun _ => dealing_get fun _ => dealing_ite dealing_throw dealing_pure)
    dealing_pure

/-- `getBuf` moves one block from the free list to the list of blocks in use, and does no more. -/
theorem takeBlock_dealt (hcalm : ctx.env.Calm) :
    wp (takeBlock ctx i b)
      (fun hdr s' => Dealt p ([.linked ⟨.inUse, i, b⟩ hdr, .unlinked ⟨.free, i, b⟩ hdr].filter p) s s')
      (fun _ _ => True) s := by
  have hpoll : ∀ line, Dealing p [] (ctx.poll line) := fun _ => dealing_poll hcalm
  unfold takeBlock
  refine wp_bind_of (hpoll _ s) fun _ s₁ h₁ => ?_
  refine wp_bind_of (dealing_getHead (p := p) s₁) fun hdr s₂ h₂ => wp_bind_of (hpoll _ s₂) fun _ s₃ h₃ => ?_
  refine wp_bind_of (dealing_rmElm (p := p) hcalm s₃) fun _ s₄ h₄ => wp_bind_of (hpoll _ s₄) fun _ s₅ h₅ => ?_
  refine wp_bind_of (dealing_insertElmHead (p := p) hcalm s₅) fun _ s₆ h₆ => ?_
  have hmark : ∀ B : MemBin, ({ B with numFree := sub64 B.numFree 1 } : MemBin).water = B.water := by
    intro B
    simp only [MemBin.water]
  refine wp_bind_of (hpoll _ s₆) fun _ s₇ h₇ => wp_bind_of (dealing_updBin (p := p) hmark s₇) fun _ s₈ h₈ => ?_
  have h := ((((((h₁.trans h₂).trans h₃).trans h₄).trans h₅).trans h₆).trans h₇).trans h₈
  simp only [List.nil_append, List.append_nil, ← List.filter_append] at h
  exact wp_pure h

theorem sparing_countAlloc (hcalm : ctx.env.Calm) {k : ℕ} {q : Request} :
    Sparing (countAlloc ctx i b k q) := by
  have hpoll : ∀ line, Sparing (ctx.poll line) := fun _ => dealing_poll hcalm
  have hslot : ∀ g : MemSlot → MemSlot, (∀ S, (g S).memBins = S.memBins) →
      Sparing (modify fun s => s.updSlot i g : M Unit) := fun g hg =>
    dealing_updSlot fun S c => by rw [hg]
  unfold countAlloc
  refine (hpoll _).seq fun _ => Dealing.seq (dealing_updBin fun _ => rfl) fun _ => (hpoll _).seq fun _ => ?_
  refine dealing_grAssert.seq fun _ => (hpoll _).seq fun _ => dealing_updHisto.seq fun _ => ?_
  refine (hpoll _).seq fun _ => Dealing.seq (hslot _ fun _ => rfl) fun _ => (sparing_emit rfl).seq fun _ => ?_
  exact (hpoll _).seq fun _ => hslot _ fun _ => rfl

theorem sparing_fillBlock {bt : List ℕ} {endBuf : ℕ} : Sparing (fillBlock bt a n h endBuf) := by
  refine dealing_get fun s => ?_
  extract_lets args misalignment usrData rest₃ rest₂ rest₁
  have hrest₂ : ∀ u, Sparing (rest₂ u) := fun _ => by
    refine dealing_store64.seq fun _ => dealing_stField.seq fun _ => dealing_stField.seq fun _ => ?_
    refine (sparing_emit rfl).seq fun _ => dealing_ite ?_ dealing_pure
    exact dealing_memset.seq fun _ => dealing_pure
  have hrest₁ : ∀ u, Sparing (rest₁ u) := fun _ => by
    refine dealing_ldField.seq fun _ => dealing_grAssert.seq fun _ => dealing_stField.seq fun _ => ?_
    refine dealing_stField.seq fun _ => dealing_grAssert.seq fun _ => dealing_grAssert.seq fun _ => ?_
    refine dealing_ite ?_ (hrest₂ ())
    exact dealing_grAssert.seq fun _ => dealing_memset.seq fun _ => hrest₂ ()
  exact dealing_ite (dealing_putTrace.seq fun _ => hrest₁ ()) (hrest₁ ())

theorem sparing_checkSlop : Sparing (checkSlop h) := by
  refine dealing_ldField.seq fun _ => dealing_ite ?_ dealing_pure
  refine dealing_ldField.seq fun _ => dealing_ldField.seq fun _ => dealing_get fun _ => ?_
  exact dealing_memcmp.seq fun _ => dealing_grAssert

theorem sparing_countFree (hcalm : ctx.env.Calm) : Sparing (countFree ctx i h) := by
  have hpoll : ∀ line, Sparing (ctx.poll line) := fun _ => dealing_poll hcalm
  unfold countFree
  refine (hpoll _).seq fun _ => dealing_ldField.seq fun _ => (hpoll _).seq fun _ => ?_
  refine dealing_grAssert.seq fun _ => (hpoll _).seq fun _ => dealing_updHisto.seq fun _ => ?_
  refine (hpoll _).seq fun _ => dealing_ldField.seq fun _ => ?_
  exact Dealing.seq (dealing_updSlot fun _ _ => rfl) fun _ => sparing_emit rfl

theorem sparing_dropBlock (hcalm : ctx.env.Calm) : Sparing (dropBlock ctx i b h) := by
  have hpoll : ∀ line, Sparing (ctx.poll line) := fun _ => dealing_poll hcalm
  have hrm : Sparing (rmElm ctx ⟨.inUse, i, b⟩ h) := dealing_rmElm hcalm
  refine (hpoll _).seq fun _ => hrm.seq fun _ => (hpoll _).seq fun _ => dealing_get fun s => ?_
  extract_lets rest
  have hrest : ∀ u, Sparing (rest u) := fun _ => (hpoll _).seq fun _ => dealing_updBin fun _ => rfl
  refine dealing_ite ?_ ?_
  · exact (hpoll _).seq fun _ => (sparing_delayPut hcalm).seq fun _ => hrest ()
  · refine (hpoll _).seq fun _ => (sparing_insertElmHead hcalm).seq fun _ => (hpoll _).seq fun _ => ?_
    exact Dealing.seq (dealing_updBin fun _ => rfl) fun _ => hrest ()

theorem sparing_putBuf (hcalm : ctx.env.Calm) : Sparing (putBuf ctx h) := by
  have hpoll : ∀ line, Sparing (ctx.poll line) := fun _ => dealing_poll hcalm
  unfold putBuf
  refine (hpoll _).seq fun _ => dealing_ldField.seq fun _ => dealing_grAssert.seq fun _ => ?_
  refine (hpoll _).seq fun _ => dealing_stField.seq fun _ => (sparing_emit rfl).seq fun _ => ?_
  refine (hpoll _).seq fun _ => dealing_ldField.seq fun _ => dealing_ite dealing_throw ?_
  refine (hpoll _).seq fun _ => sparing_lock.seq fun _ => (hpoll _).seq fun _ => ?_
  refine dealing_ldField.seq fun _ => dealing_ite dealing_throw ?_
  refine (sparing_countFree hcalm).seq fun _ => (sparing_dropBlock hcalm).seq fun _ => ?_
  exact (hpoll _).seq fun _ => sparing_unlock.seq fun _ => hpoll _

theorem sparing_free (hcalm : ctx.env.Calm) {bt : List ℕ} : Sparing (free ctx bt a) := by
  unfold free
  refine dealing_ite dealing_pure (dealing_load64.seq fun hdr => dealing_ldField.seq fun _ => ?_)
  refine dealing_grAssert.seq fun _ => sparing_checkSlop.seq fun _ => dealing_get fun s => ?_
  exact dealing_ite (dealing_putTrace.seq fun _ => sparing_putBuf hcalm) (sparing_putBuf hcalm)

end GuardRails
