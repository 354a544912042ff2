import GuardRails.Model.Run
import GuardRails.Spec.Bin

/-!
# Inner steps

Most of what the allocator does changes no more than memory, pages, bins and rings, and leaves
no trace in the history that a caller could tell apart. A relation between heaps that all such
steps satisfy is `Inert`; when no signal arrives, the functions that consist of them satisfy it
as a whole (`Moves`).
-/

namespace GuardRails

open StateHoare

variable {s s' s₁ s₂ : Heap} {α β : Type} {m : M α} {f : α → M β} {ctx : Ctx} {a n h i b : ℕ}
  {r : HeadRef} {e : Event} {R : Heap → Heap → Prop}

/-- The event is about the lists, the rings, the header of a block or a system call. -/
def Event.Inner : Event → Prop
  | .labelled _ _ _ | .linked _ _ | .unlinked _ _ | .filled _ | .freeing _ | .delayed _ _
  | .drained _ _ | .mmapFailed | .mlockFailed | .mprotectFailed | .poolsExhausted => True
  | _ => False

def MemSlot.marks (S : MemSlot) : ℕ × ℕ := (S.hwmUsrBytes, S.lastHWMUsrBytesDump)

/-- A change of memory, pages, bins, rings and the clock. -/
structure Inside (s s' : Heap) : Prop where
  marks : ∀ i, (s'.memSlots i).marks = (s.memSlots i).marks
  log : s'.log = s.log
  memPools : s'.memPools = s.memPools
  gMutex : s'.gMutex = s.gMutex
  isInit : s'.isInit = s.isInit
  grArgs : s'.grArgs = s.grArgs

/-- The relation takes no notice of inner steps. -/
structure Inert (R : Heap → Heap → Prop) : Prop where
  inside : ∀ {s s'}, Inside s s' → R s s'
  trans : ∀ {s s₁ s'}, R s s₁ → R s₁ s' → R s s'
  event : ∀ {s e}, Event.Inner e → R s { s with log := e :: s.log }

def Moves (R : Heap → Heap → Prop) (m : M α) : Prop :=
  ∀ s, wp m (fun _ s' => R s s') (fun _ s' => R s s') s

theorem Inside.refl : Inside s s := ⟨fun _ => rfl, rfl, rfl, rfl, rfl, rfl⟩

theorem marks_updSlot {g : MemSlot → MemSlot} (hg : ∀ S, (g S).marks = S.marks) (j : ℕ) :
    ((s.updSlot i g).memSlots j).marks = (s.memSlots j).marks := by
  change (Function.update s.memSlots i (g (s.memSlots i)) j).marks = _
  by_cases hj : j = i
  · subst hj
    rw [Function.update_self]
    exact hg _
  · rw [Function.update_of_ne hj]

theorem Inside.updSlot {g : MemSlot → MemSlot} (hg : ∀ S, (g S).marks = S.marks) :
    Inside s (s.updSlot i g) :=
  ⟨marks_updSlot hg, rfl, rfl, rfl, rfl, rfl⟩

namespace Inert

variable (hR : Inert R)

include hR

theorem refl : R s s := hR.inside .refl

/-! ## Rules -/

theorem bind (hm : Moves R m) (hf : ∀ x, Moves R (f x)) : Moves R (m >>= f) := by
  intro s
  refine wp_bind (wp_mono (hm s) (fun x s₁ h₁ => ?_) fun _ _ h => h)
  exact wp_mono (hf x s₁) (fun _ _ h₂ => hR.trans h₁ h₂) fun _ _ h₂ => hR.trans h₁ h₂

theorem moves_pure {x : α} : Moves R (pure x : M α) := fun _ => wp_pure hR.refl

theorem moves_throw {halt : Halt} : Moves R (throw halt : M α) := fun _ => wp_throw hR.refl

theorem moves_modify {g : Heap → Heap} (hg : ∀ s, Inside s (g s)) : Moves R (modify g : M Unit) :=
  fun s => wp_modify (hR.inside (hg s))

theorem moves_emit (he : e.Inner) : Moves R (emit e) := fun _ => wp_emit (hR.event he)

omit hR in
theorem moves_get {g : Heap → M β} (hg : ∀ s, Moves R (g s)) : Moves R (get >>= g) :=
  fun s => wp_bind (wp_get (hg s s))

omit hR in
theorem moves_ite {c : Prop} [Decidable c] {x y : M α} (hx : Moves R x) (hy : Moves R y) :
    Moves R (if c then x else y) :=
  fun s => wp_ite (fun _ => hx s) fun _ => hy s

theorem moves_updSlot {g : MemSlot → MemSlot} (hg : ∀ S, (g S).marks = S.marks) :
    Moves R (modify fun s => s.updSlot i g : M Unit) :=
  hR.moves_modify fun _ => .updSlot hg

theorem moves_updBin {g : MemBin → MemBin} :
    Moves R (modify fun s => s.updBin i b g : M Unit) :=
  hR.moves_updSlot fun _ => rfl

theorem moves_updDelay {g : MemFreeDelay → MemFreeDelay} :
    Moves R (modify fun s => s.updDelay i g : M Unit) :=
  hR.moves_updSlot fun _ => rfl

theorem moves_updHisto {k : ℕ} {g : MemHisto → MemHisto} :
    Moves R (modify fun s => s.updHisto i k g : M Unit) :=
  hR.moves_modify fun _ => ⟨fun _ => rfl, rfl, rfl, rfl, rfl, rfl⟩

theorem moves_mem {g : Heap → ByteMemory.Mem} :
    Moves R (modify fun s => { s with mem := g s } : M Unit) :=
  hR.moves_modify fun _ => ⟨fun _ => rfl, rfl, rfl, rfl, rfl, rfl⟩

/-! ## Primitive steps -/

theorem moves_tick : Moves R tick :=
  fun _ => wp_tick (hR.inside ⟨fun _ => rfl, rfl, rfl, rfl, rfl, rfl⟩)

theorem moves_grAssert {site : Site} {c : Prop} [Decidable c] : Moves R (grAssert site c) :=
  moves_ite hR.moves_pure hR.moves_throw

theorem moves_touch : Moves R (touch a n) :=
  moves_get fun _ => moves_ite hR.moves_pure hR.moves_throw

theorem moves_load64 : Moves R (load64 a) :=
  hR.bind hR.moves_touch fun _ => moves_get fun _ => hR.moves_pure

theorem moves_store64 {v : ℕ} : Moves R (store64 a v) :=
  hR.bind hR.moves_touch fun _ => hR.moves_mem

theorem moves_ldField {fld : Field} : Moves R (ldField h fld) := hR.moves_load64

theorem moves_stField {fld : Field} {v : ℕ} : Moves R (stField h fld v) := hR.moves_store64

theorem moves_memset {v : UInt8} : Moves R (memset a v n) :=
  hR.bind hR.moves_touch fun _ => hR.moves_mem

theorem moves_memcpy {src : ℕ} : Moves R (memcpy a src n) :=
  hR.bind hR.moves_touch fun _ => hR.bind hR.moves_touch fun _ => hR.moves_mem

theorem moves_memcmp {arr : ℕ → UInt8} : Moves R (memcmp a arr n) :=
  hR.bind hR.moves_touch fun _ => moves_get fun _ => hR.moves_pure

theorem moves_storeBytes {bytes : List UInt8} : Moves R (storeBytes a bytes) :=
  hR.bind hR.moves_touch fun _ => hR.moves_mem

theorem moves_storeWords {ws : List ℕ} : Moves R (storeWords a ws) := by
  induction ws generalizing a with
  | nil => exact hR.moves_pure
  | cons w ws ih => exact hR.bind hR.moves_store64 fun _ => ih

theorem moves_mprotect {env : Env} {p : Prot} : Moves R (mprotect env a n p) := by
  refine hR.bind hR.moves_tick fun _ => moves_ite (hR.bind ?_ fun _ => hR.moves_pure) ?_
  · exact hR.moves_modify fun _ => ⟨fun _ => rfl, rfl, rfl, rfl, rfl, rfl⟩
  · exact hR.bind (hR.moves_emit trivial) fun _ => hR.moves_pure

theorem moves_mlock {env : Env} : Moves R (mlock env) :=
  hR.bind hR.moves_tick fun _ => moves_ite hR.moves_pure
    (hR.bind (hR.moves_emit trivial) fun _ => hR.moves_pure)

theorem moves_mmap {env : Env} : Moves R (mmap env n) := by
  refine fun s => wp_mmap ?_ fun _ _ => hR.inside ⟨fun _ => rfl, rfl, rfl, rfl, rfl, rfl⟩
  have hclock : R s { s with clock := s.clock + 1 } :=
    hR.inside ⟨fun _ => rfl, rfl, rfl, rfl, rfl, rfl⟩
  exact hR.trans hclock (hR.event (e := .mmapFailed) trivial)

theorem moves_verifyLocked {l : LockId} : Moves R (verifyLocked l) :=
  moves_get fun _ => hR.moves_pure

theorem moves_getHead : Moves R (getHead r) := moves_get fun _ => hR.moves_pure

theorem moves_putHead : Moves R (putHead r h) := hR.moves_updBin

theorem moves_poll (hcalm : ctx.env.Calm) {line : ℕ} : Moves R (ctx.poll line) :=
  fun _ => wp_poll hR.refl fun hsig => absurd ((hcalm _ _).symm.trans hsig) nofun

/-! ## Lists and the delay ring -/

theorem moves_insertElmHead (hcalm : ctx.env.Calm) : Moves R (insertElmHead ctx r h) := by
  have hpoll : ∀ line, Moves R (ctx.poll line) := fun _ => hR.moves_poll hcalm
  unfold insertElmHead
  refine hR.bind hR.moves_getHead fun head => ?_
  extract_lets rest
  have hrest : ∀ u, Moves R (rest u) := fun _ => by
    refine hR.bind (hpoll _) fun _ => hR.bind hR.moves_getHead fun _ => ?_
    refine hR.bind hR.moves_stField fun _ => hR.bind (hpoll _) fun _ => ?_
    refine hR.bind hR.moves_stField fun _ => hR.bind (hpoll _) fun _ => ?_
    exact hR.bind hR.moves_putHead fun _ => hR.moves_emit trivial
  refine moves_ite ?_ (hrest ())
  exact hR.bind (hpoll _) fun _ => hR.bind hR.moves_getHead fun _ =>
    hR.bind hR.moves_stField fun _ => hrest ()

theorem moves_rmElm (hcalm : ctx.env.Calm) : Moves R (rmElm ctx r h) := by
  have hpoll : ∀ line, Moves R (ctx.poll line) := fun _ => hR.moves_poll hcalm
  unfold rmElm
  refine hR.bind hR.moves_getHead fun head => ?_
  extract_lets rest₃ rest₂ rest₁
  have hrest₃ : ∀ u, Moves R (rest₃ u) := fun _ => by
    refine hR.bind (hR.moves_emit trivial) fun _ => hR.bind (hpoll _) fun _ => ?_
    exact hR.bind hR.moves_stField fun _ => hR.bind (hpoll _) fun _ => hR.moves_stField
  have hrest₂ : ∀ u, Moves R (rest₂ u) := fun _ => by
    refine hR.bind (hpoll _) fun _ => hR.bind hR.moves_ldField fun _ => moves_ite ?_ (hrest₃ ())
    refine hR.bind (hpoll _) fun _ => hR.bind hR.moves_ldField fun _ => ?_
    exact hR.bind hR.moves_ldField fun _ => hR.bind hR.moves_stField fun _ => hrest₃ ()
  have hrest₁ : ∀ u, Moves R (rest₁ u) := fun _ => by
    refine hR.bind (hpoll _) fun _ => hR.bind hR.moves_ldField fun _ => moves_ite ?_ (hrest₂ ())
    refine hR.bind (hpoll _) fun _ => hR.bind hR.moves_ldField fun _ => ?_
    exact hR.bind hR.moves_ldField fun _ => hR.bind hR.moves_stField fun _ => hrest₂ ()
  refine moves_ite ?_ (hrest₁ ())
  exact hR.bind (hpoll _) fun _ => hR.bind hR.moves_ldField fun _ =>
    hR.bind hR.moves_putHead fun _ => hrest₁ ()

theorem moves_circCount : Moves R (circCount i) :=
  moves_get fun _ => moves_ite hR.moves_pure (hR.bind hR.moves_grAssert fun _ => hR.moves_pure)

theorem moves_circPut : Moves R (circPut i h) := by
  refine moves_get fun _ => hR.bind hR.moves_grAssert fun _ => hR.bind hR.moves_updDelay fun _ => ?_
  refine hR.bind hR.moves_ldField fun _ => hR.bind hR.moves_updDelay fun _ => ?_
  exact hR.moves_emit trivial

theorem moves_circGet : Moves R (circGet ctx i) := by
  refine moves_get fun s => ?_
  extract_lets d hdr
  refine hR.bind hR.moves_grAssert fun _ => hR.bind hR.moves_updDelay fun _ => ?_
  refine hR.bind hR.moves_grAssert fun _ => hR.bind hR.moves_updDelay fun _ => ?_
  refine hR.bind hR.moves_mprotect fun _ => hR.bind hR.moves_grAssert fun _ => ?_
  refine hR.bind hR.moves_ldField fun _ => hR.bind hR.moves_updDelay fun _ => ?_
  exact hR.bind (hR.moves_emit trivial) fun _ => hR.moves_pure

theorem moves_delayFreeOne (hcalm : ctx.env.Calm) : Moves R (delayFreeOne ctx i) := by
  refine hR.bind hR.moves_circGet fun hdr => hR.bind hR.moves_ldField fun _ => ?_
  refine moves_ite hR.moves_throw ?_
  extract_lets rest
  have hrest : ∀ u, Moves R (rest u) := fun _ =>
    hR.bind (hR.moves_insertElmHead hcalm) fun _ => hR.moves_updBin
  refine moves_ite ?_ (hrest ())
  exact hR.bind hR.moves_mprotect fun _ => hR.bind hR.moves_grAssert fun _ => hrest ()

theorem moves_delayFreeLoop (hcalm : ctx.env.Calm) (fuel : ℕ) :
    Moves R (delayFreeLoop ctx i fuel) := by
  induction fuel with
  | zero => exact hR.moves_throw
  | succ fuel ih =>
      refine hR.bind hR.moves_circCount fun _ => moves_ite ?_ hR.moves_pure
      exact hR.bind (hR.moves_delayFreeOne hcalm) fun _ => ih

theorem moves_delayPut (hcalm : ctx.env.Calm) : Moves R (delayPut ctx i h) := by
  refine hR.bind hR.moves_verifyLocked fun _ => hR.bind hR.moves_grAssert fun _ => ?_
  refine hR.bind hR.moves_circCount fun _ => ?_
  extract_lets rest
  have hrest : ∀ u, Moves R (rest u) := fun _ =>
    hR.bind hR.moves_circPut fun _ => hR.bind hR.moves_ldField fun _ =>
      hR.bind hR.moves_mprotect fun _ => hR.moves_grAssert
  exact moves_ite (hR.bind (hR.moves_delayFreeLoop hcalm _) fun _ => hrest ()) (hrest ())

/-! ## Blocks -/

theorem moves_putGuard : Moves R (putGuard ctx h n) :=
  hR.bind hR.moves_grAssert fun _ => hR.bind hR.moves_grAssert fun _ =>
    hR.bind hR.moves_store64 fun _ => hR.bind hR.moves_mprotect fun _ => hR.moves_grAssert

theorem moves_labelBlock (hcalm : ctx.env.Calm) : Moves R (labelBlock ctx i b h) := by
  have hpoll : ∀ line, Moves R (ctx.poll line) := fun _ => hR.moves_poll hcalm
  refine hR.bind (hpoll _) fun _ => hR.bind hR.moves_stField fun _ => hR.bind (hpoll _) fun _ => ?_
  refine hR.bind hR.moves_stField fun _ => hR.bind (hpoll _) fun _ => ?_
  refine hR.bind hR.moves_stField fun _ => hR.bind (hR.moves_emit trivial) fun _ => ?_
  refine hR.bind (hpoll _) fun _ => hR.bind (hR.moves_insertElmHead hcalm) fun _ => ?_
  exact hR.bind (hpoll _) fun _ => hR.bind hR.moves_updBin fun _ => hpoll _

theorem moves_putTrace {bt : List ℕ} {site : Site} : Moves R (putTrace bt site a n) :=
  hR.bind hR.moves_memset fun _ =>
    hR.bind (hR.bind hR.moves_storeWords fun _ => hR.moves_pure) fun _ => hR.moves_grAssert

theorem moves_pickSlot : Moves R (pickSlot ctx n) :=
  moves_ite (hR.bind hR.moves_tick fun _ => moves_get fun _ => moves_ite hR.moves_throw hR.moves_pure)
    hR.moves_pure

theorem moves_takeBlock (hcalm : ctx.env.Calm) : Moves R (takeBlock ctx i b) := by
  have hpoll : ∀ line, Moves R (ctx.poll line) := fun _ => hR.moves_poll hcalm
  refine hR.bind (hpoll _) fun _ => hR.bind hR.moves_getHead fun hdr => hR.bind (hpoll _) fun _ => ?_
  refine hR.bind (hR.moves_rmElm hcalm) fun _ => hR.bind (hpoll _) fun _ => ?_
  refine hR.bind (hR.moves_insertElmHead hcalm) fun _ => hR.bind (hpoll _) fun _ => ?_
  exact hR.bind hR.moves_updBin fun _ => hR.moves_pure

theorem moves_fillBlock {bt : List ℕ} {endBuf : ℕ} : Moves R (fillBlock bt a n h endBuf) := by
  refine moves_get fun s => ?_
  extract_lets args misalignment usrData rest₃ rest₂ rest₁
  have hrest₂ : ∀ u, Moves R (rest₂ u) := fun _ => by
    refine hR.bind hR.moves_store64 fun _ => hR.bind hR.moves_stField fun _ => ?_
    refine hR.bind hR.moves_stField fun _ => hR.bind (hR.moves_emit trivial) fun _ => ?_
    exact moves_ite (hR.bind hR.moves_memset fun _ => hR.moves_pure) hR.moves_pure
  have hrest₁ : ∀ u, Moves R (rest₁ u) := fun _ => by
    refine hR.bind hR.moves_ldField fun _ => hR.bind hR.moves_grAssert fun _ => ?_
    refine hR.bind hR.moves_stField fun _ => hR.bind hR.moves_stField fun _ => ?_
    refine hR.bind hR.moves_grAssert fun _ => hR.bind hR.moves_grAssert fun _ => ?_
    refine moves_ite ?_ (hrest₂ ())
    exact hR.bind hR.moves_grAssert fun _ => hR.bind hR.moves_memset fun _ => hrest₂ ()
  exact moves_ite (hR.bind hR.moves_putTrace fun _ => hrest₁ ()) (hrest₁ ())

theorem moves_checkSlop : Moves R (checkSlop h) := by
  refine hR.bind hR.moves_ldField fun _ => moves_ite ?_ hR.moves_pure
  refine hR.bind hR.moves_ldField fun _ => hR.bind hR.moves_ldField fun _ => moves_get fun _ => ?_
  exact hR.bind hR.moves_memcmp fun _ => hR.moves_grAssert

theorem moves_dropBlock (hcalm : ctx.env.Calm) : Moves R (dropBlock ctx i b h) := by
  have hpoll : ∀ line, Moves R (ctx.poll line) := fun _ => hR.moves_poll hcalm
  refine hR.bind (hpoll _) fun _ => hR.bind (hR.moves_rmElm hcalm) fun _ => ?_
  refine hR.bind (hpoll _) fun _ => moves_get fun s => ?_
  extract_lets rest
  have hrest : ∀ u, Moves R (rest u) := fun _ => hR.bind (hpoll _) fun _ => hR.moves_updBin
  refine moves_ite ?_ ?_
  · exact hR.bind (hpoll _) fun _ => hR.bind (hR.moves_delayPut hcalm) fun _ => hrest ()
  · refine hR.bind (hpoll _) fun _ => hR.bind (hR.moves_insertElmHead hcalm) fun _ => ?_
    exact hR.bind (hpoll _) fun _ => hR.bind hR.moves_updBin fun _ => hrest ()

end Inert

end GuardRails
