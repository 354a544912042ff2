import GuardRails.Lib.LockOrder
import GuardRails.Model.Dump

/-!
# Threads

What a thread does to the locks while it executes `malloc`, `free` and `onExitHelper`. The model
of the calls runs one thread alone; here the data that the calls read are left open, so that
every branch may be taken, and what remains of a call is its `Trace`: the mutexes that it locks
and unlocks, in the order of the code. The traces of different threads interleave.
-/

namespace GuardRails

open LockOrder

/-- A place of the code: `onExitHelper` begins, or the slot is known whose lock `getBuf` or
`putBuf` takes next. -/
inductive Waypoint
  | dump
  | serve (slotNum : ℕ)
  deriving DecidableEq

/-- `initBinsMeta` makes the mutexes of the slots recursive; the other two are not. -/
def LockId.Recursive : LockId → Prop
  | slot _ => True
  | gMutex => False
  | initMutex => False

inductive Part
  /-- What the caller of the library does. -/
  | thread
  /-- `getBuf` and `putBuf`. -/
  | alloc | release
  /-- `replenishBin`, and `getFromPool` inside it. -/
  | refill | pool
  /-- The dumps in `getBuf`: one at a high-water mark, one at the limit on requested bytes. -/
  | limitDumps | limitDump
  /-- `onExitHelper`, and its loop from the slot `slotNum` on. -/
  | dump | slots (slotNum : ℕ)
  /-- A call of `fopen`, `printf` and the like. -/
  | stdio

/-- The lock operations that a part may carry out. -/
inductive Trace (numSlots : ℕ) : Part → List (Op LockId Waypoint) → Prop
  | thread_done : Trace numSlots .thread []
  | thread_alloc {xs ys : List (Op LockId Waypoint)} (hx : Trace numSlots .alloc xs)
      (hy : Trace numSlots .thread ys) : Trace numSlots .thread (xs ++ ys)
  | thread_release {xs ys : List (Op LockId Waypoint)} (hx : Trace numSlots .release xs)
      (hy : Trace numSlots .thread ys) : Trace numSlots .thread (xs ++ ys)
  | thread_dump {xs ys : List (Op LockId Waypoint)} (hx : Trace numSlots .dump xs)
      (hy : Trace numSlots .thread ys) : Trace numSlots .thread (xs ++ ys)
  | alloc {i : ℕ} {xs ys : List (Op LockId Waypoint)} (hi : i < numSlots)
      (hx : Trace numSlots .refill xs) (hy : Trace numSlots .limitDumps ys) :
      Trace numSlots .alloc (.mark (.serve i) :: .lock (.slot i) :: (xs ++ ys ++ [.unlock (.slot i)]))
  | refill_done : Trace numSlots .refill []
  | refill_more {xs ys : List (Op LockId Waypoint)} (hx : Trace numSlots .pool xs)
      (hy : Trace numSlots .refill ys) : Trace numSlots .refill (xs ++ ys)
  | pool : Trace numSlots .pool [.lock .gMutex, .unlock .gMutex]
  /-- The dump of `addNewMemPool` for lack of memory; the process is aborted after it. -/
  | pool_dump {xs ys : List (Op LockId Waypoint)} (hx : Trace numSlots .stdio xs)
      (hy : Trace numSlots .dump ys) :
      Trace numSlots .pool (.lock .gMutex :: (xs ++ ys ++ [.unlock .gMutex]))
  | limitDumps {xs ys : List (Op LockId Waypoint)} (hx : Trace numSlots .limitDump xs)
      (hy : Trace numSlots .limitDump ys) : Trace numSlots .limitDumps (xs ++ ys)
  | limitDump_none : Trace numSlots .limitDump []
  | limitDump_some {xs : List (Op LockId Waypoint)} (hx : Trace numSlots .dump xs) :
      Trace numSlots .limitDump xs
  /-- The slot is the one that the header names. -/
  | release {i : ℕ} : Trace numSlots .release [.mark (.serve i), .lock (.slot i), .unlock (.slot i)]
  | release_null : Trace numSlots .release []
  | dump {xs ys zs : List (Op LockId Waypoint)} (hx : Trace numSlots .stdio xs)
      (hy : Trace numSlots (.slots 0) ys) (hz : Trace numSlots .stdio zs) :
      Trace numSlots .dump (.mark .dump :: (xs ++ ys ++ zs))
  | slots_done {i : ℕ} (hi : numSlots ≤ i) : Trace numSlots (.slots i) []
  | slots_next {i : ℕ} {xs ys : List (Op LockId Waypoint)} (hi : i < numSlots)
      (hx : Trace numSlots .stdio xs) (hy : Trace numSlots (.slots (i + 1)) ys) :
      Trace numSlots (.slots i) (.lock (.slot i) :: (xs ++ [.unlock (.slot i)]) ++ ys)
  | stdio_done : Trace numSlots .stdio []
  | stdio_alloc {xs ys : List (Op LockId Waypoint)} (hx : Trace numSlots .alloc xs)
      (hy : Trace numSlots .stdio ys) : Trace numSlots .stdio (xs ++ ys)
  | stdio_release {xs ys : List (Op LockId Waypoint)} (hx : Trace numSlots .release xs)
      (hy : Trace numSlots .stdio ys) : Trace numSlots .stdio (xs ++ ys)

/-- Threads that hold no lock yet. -/
structure Starts {Thread : Type*} (numSlots : ℕ) (σ : System Thread LockId Waypoint) : Prop where
  held : ∀ t, σ.held t = []
  todo : ∀ t, Trace numSlots .thread (σ.todo t)

end GuardRails
