import GuardRails.Model.Dump
import GuardRails.Spec.Primitive

/-!
# The reading part of a dump

A dump walks through the slots, reads what they hold and prints it. Apart from the locks of
the slots only the printing touches the heap, so a fact that printing keeps is kept by the
whole walk.
-/

namespace GuardRails

open StateHoare

variable {ctx : Ctx} {J : Heap → Prop} {E : Halt → Heap → Prop} {a h i b n : ℕ} {d : Dump}

/-- The walk through the slots keeps `J`: printing does, and the locks are of no account. -/
structure Readable (ctx : Ctx) (J : Heap → Prop) (E : Halt → Heap → Prop) : Prop where
  halt : ∀ e s, J s → E e s
  tick : ∀ s, J s → J { s with clock := s.clock + 1 }
  lock : ∀ i s, J s →
    ((s.mutex (.slot i)).locked = true → (s.mutex (.slot i)).recursive = true) →
      J (s.lockHeap (.slot i))
  unlock : ∀ i s, J s → J (s.unlockHeap (.slot i))
  fmtOut : Maintains J E (fmtOut ctx)

namespace Readable

variable (hJ : Readable ctx J E)
include hJ

theorem load64 : Maintains J E (load64 a) := fun s h =>
  wp_load64 (fun _ => h) fun _ => hJ.halt _ s h

theorem grPrintf : Maintains J E (grPrintf ctx) :=
  maintains_get fun _ => maintains_ite hJ.fmtOut maintains_pure

theorem dumpFrames : Maintains J E (dumpFrames ctx a n) := by
  induction n generalizing a with
  | zero => exact maintains_pure
  | succ n ih =>
      exact hJ.load64.bind fun _ => hJ.fmtOut.bind fun _ => ih.bind fun _ => maintains_pure

theorem dumpInUse (fuel : ℕ) : Maintains J E (dumpInUse ctx fuel h) := by
  induction fuel generalizing h with
  | zero =>
      unfold GuardRails.dumpInUse
      exact maintains_ite maintains_pure fun s h => wp_throw (hJ.halt _ s h)
  | succ fuel ih =>
      unfold GuardRails.dumpInUse
      refine maintains_ite maintains_pure (hJ.load64.bind fun _ => hJ.fmtOut.bind fun _ => ?_)
      refine maintains_get fun _ => hJ.dumpFrames.bind fun _ => hJ.fmtOut.bind fun _ => ?_
      exact hJ.load64.bind fun _ => ih.bind fun _ => maintains_pure

theorem dumpBin : Maintains J E (dumpBin ctx i d b) := by
  refine maintains_get fun _ => maintains_get fun _ => hJ.grPrintf.bind fun _ => ?_
  refine maintains_get fun _ => maintains_get fun _ => maintains_get fun _ => ?_
  apply maintains_ite
  · exact (hJ.dumpInUse _).bind fun _ => maintains_pure
  · exact maintains_pure.bind fun _ => maintains_pure

theorem dumpHisto : Maintains J E (dumpHisto ctx i d b) :=
  maintains_get fun _ => maintains_get fun _ => hJ.grPrintf.bind fun _ => maintains_pure

theorem dumpSlot : Maintains J E (dumpSlot ctx d i) := by
  have hlock : Maintains J E (pthreadMutexLock (.slot i)) := fun s h =>
    wp_pthreadMutexLock (hJ.lock i s h) fun _ _ => hJ.halt _ _ (hJ.tick s h)
  have hunlock : Maintains J E (pthreadMutexUnlock (.slot i)) := fun s h =>
    wp_pthreadMutexUnlock (hJ.unlock i s h)
  refine hlock.bind fun _ => maintains_get fun _ => hJ.fmtOut.bind fun _ => hJ.grPrintf.bind fun _ => ?_
  refine (maintains_foldlM (fun _ _ => hJ.dumpBin) _ _).bind fun _ => hJ.grPrintf.bind fun _ => ?_
  refine (maintains_foldlM (fun _ _ => hJ.dumpHisto) _ _).bind fun _ => ?_
  exact hunlock.bind fun _ => maintains_pure

end Readable

end GuardRails
