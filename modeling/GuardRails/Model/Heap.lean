import GuardRails.Lib.ByteMemory
import GuardRails.Lib.Hoare
import GuardRails.Model.Basic
import Mathlib.Logic.Function.Basic

/-!
# The process state and its primitive steps

The state of the process as the allocator sees it: the bytes and the page
protections of its memory, the static variables of `GuardRails.c`, and a history
of events which no code reads. A computation of `M` returns or halts; halting
keeps the state, so that what happened before an abort can still be told.

What the code asks of the system (`mmap`, `mprotect`, `mlock`, the racy
round-robin counter, the allocations that stdio makes on its own) is answered by
an environment. Each question is put at a new tick of a clock, so an environment
is just a table of answers.
-/

namespace GuardRails

open ByteMemory StateHoare

/-- Access rights of a page. An unmapped page has none. -/
inductive Prot
  | none | readWrite | readWriteExec
  deriving DecidableEq

structure MemPool where
  totalSizeBytes : ℕ
  remainingSizeBytes : ℕ
  start : ℕ
  startFree : ℕ
  endAddr : ℕ

/-- A `pthread_mutex_t`; `count` is `__data.__count`, which only a recursive
mutex keeps. -/
structure Mutex where
  recursive : Bool := false
  locked : Bool := false
  count : ℕ := 0
  deriving DecidableEq

structure MemFreeDelay where
  head : ℕ := 0
  tail : ℕ := 0
  numDelayed : ℕ := 0
  bytesDelayed : ℕ := 0
  elms : ℕ → ℕ := fun _ => 0

structure MemBin where
  allocs : ℕ := 0
  frees : ℕ := 0
  highWater : ℕ := 0
  lowWater : ℕ := 0
  numFree : ℕ := 0
  headFree : ℕ := 0
  headInUse : ℕ := 0

structure MemSlot where
  memBins : ℕ → MemBin := fun _ => {}
  delay : MemFreeDelay := {}
  totalUserRequestedBytes : ℕ := 0
  totalUserFreedBytes : ℕ := 0
  hwmUsrBytes : ℕ := 0
  lastHWMUsrBytesDump : ℕ := 0
  lock : Mutex := {}

structure MemHisto where
  allocs : ℕ := 0
  frees : ℕ := 0

inductive ListKind
  | free | inUse
  deriving DecidableEq

/-- A list head: `memSlots[slot].memBins[bin].headFree` or `.headInUse`. -/
structure HeadRef where
  kind : ListKind
  slot : ℕ
  bin : ℕ
  deriving DecidableEq

inductive LockId
  | slot (i : ℕ) | gMutex | initMutex
  deriving DecidableEq

structure Record where
  size : ℕ
  frames : List ℕ
  deriving DecidableEq

structure BinLine where
  bin : ℕ
  allocs : ℕ
  frees : ℕ
  leakedAllocs : ℕ
  leakedBytes : ℕ

/-- What one run of `onExitHelper` puts out: the records of each slot in the
tracker file, the two statistics of each slot in verbose mode, and the totals. -/
structure Dump where
  hwm : ℕ := 0
  records : ℕ → List Record := fun _ => []
  binLines : ℕ → List BinLine := fun _ => []
  histoLines : ℕ → List BinLine := fun _ => []
  totalUserRequestedBytes : ℕ := 0
  totalUserFreedBytes : ℕ := 0
  totalAllocedBytes : ℕ := 0
  totalAllocedBytesGP : ℕ := 0
  totalFreedBytesGP : ℕ := 0
  totalRequestedPow2Bytes : ℕ := 0

/-- A request that `getBuf` has counted: the block that serves it, the requested
size and the call stack it came from. -/
structure Request where
  hdr : ℕ
  size : ℕ
  bt : List ℕ
  deriving DecidableEq

structure Alloc where
  hdr : ℕ
  ptr : ℕ
  size : ℕ
  misalignment : ℕ
  bt : List ℕ
  deriving DecidableEq

/-- What has happened to the heap; the history is not read by the code. -/
inductive Event
  /-- `getFromPool` cut a block off a pool. -/
  | carved (hdr size : ℕ)
  /-- `replenishBin` wrote slot, bin and magic of a new block. -/
  | labelled (hdr slot bin : ℕ)
  /-- `insertElmHead` put a block into a list, `rmElm` took it out. -/
  | linked (r : HeadRef) (hdr : ℕ)
  | unlinked (r : HeadRef) (hdr : ℕ)
  /-- The requested bytes were added to, or taken off, the count of a slot. -/
  | counted (slot : ℕ) (r : Request)
  | uncounted (slot : ℕ) (hdr : ℕ)
  /-- The header of an allocation is complete; its pointer is returned. -/
  | filled (a : Alloc)
  /-- `putBuf` took the magic of a block in use away. -/
  | freeing (hdr : ℕ)
  /-- A client wrote behind the user data of a block. -/
  | overrun (hdr : ℕ)
  /-- A block went into the delay ring of a slot, or left it. -/
  | delayed (slot : ℕ) (hdr : ℕ)
  | drained (slot : ℕ) (hdr : ℕ)
  /-- `onExitHelper` began, its output, and its end. -/
  | dumpBegun
  | dumped (d : Dump)
  | dumpEnded
  /-- More bytes were requested than the options allow. -/
  | limitReached
  | mmapFailed | mlockFailed | mprotectFailed | poolsExhausted
  | acquired (l : LockId) | released (l : LockId)

inductive Site
  | guardRails (line : ℕ) | delayFree (line : ℕ)
  deriving DecidableEq

inductive Halt
  /-- A failed assertion. -/
  | abort (site : Site)
  /-- An access to a page without access rights. -/
  | fault (a : ℕ)
  /-- A division by zero. -/
  | divByZero
  /-- An access past the end of a static array, which C gives no meaning. -/
  | outOfBounds
  /-- A mutex that is not recursive is locked again by its owner. -/
  | deadlock
  /-- A loop or a recursion that does not end within its fuel. -/
  | hang
  deriving DecidableEq

structure Heap where
  mem : Mem := fun _ => 0
  pages : ℕ → Prot := fun _ => .none
  /-- The pools in use, `memPools[currMemPool]` first. -/
  memPools : List MemPool := []
  memSlots : ℕ → MemSlot := fun _ => {}
  memHisto : ℕ → ℕ → MemHisto := fun _ _ => {}
  grArgs : GRArgs
  isInit : Bool := false
  gMutex : Mutex := {}
  initMutex : Mutex := {}
  slopValArr : ℕ → UInt8 := fun _ => 0
  clock : ℕ := 0
  /-- The events so far, latest first. -/
  log : List Event := []

/-- A step that stdio takes on the heap while it opens, reads, writes or closes a
file: it allocates, it frees one of the buffers it got during the same call, or
it writes into one. -/
inductive StdioCall
  | alloc (bt : List ℕ) (alignment size : ℕ)
  | free (bt : List ℕ) (idx : ℕ)
  | store (idx off : ℕ) (bytes : List UInt8)

/-- Sizes are values of `size_t`. -/
def StdioCall.Ok : StdioCall → Prop
  | .alloc _ alignment size => alignment < 2 ^ 64 ∧ size < 2 ^ 64
  | _ => True

/-- Answers to what the code asks of the system, by the tick of the clock. -/
structure Env where
  /-- The options that `parseArgs` found. -/
  args : GRArgs
  /-- The value of `racySlotRr` that a thread reads. -/
  racySlotRr : ℕ → ℕ
  /-- The region that the kernel offers, if any. -/
  mmap : ℕ → Option ℕ
  mlock : ℕ → Bool
  mprotect : ℕ → Bool
  /-- The limit on address space, `RLIMIT_AS`. -/
  rlimAs : ℕ → ℕ
  /-- What `fopen`, `fgets` and `fclose` do to the heap in `dumpOffsets`. -/
  fileIO : ℕ → List StdioCall
  /-- What formatted output does to the heap. -/
  fmtIO : ℕ → List StdioCall
  /-- The arrivals of `SIGUSR2`, by source line and tick. -/
  sigusr2 : ℕ → ℕ → Bool

abbrev M := EStateM Halt Heap

/-- What a function of the allocator runs in: the environment and the two functions
that call back into the allocator, `onExitHelper` and `printf`. -/
structure Ctx where
  env : Env
  onExitHelper : Bool → ℕ → M Unit
  printf : M Unit

namespace Heap

abbrev bin (s : Heap) (slot bin : ℕ) : MemBin := (s.memSlots slot).memBins bin

def head (s : Heap) (r : HeadRef) : ℕ :=
  match r.kind with
  | .free => (s.bin r.slot r.bin).headFree
  | .inUse => (s.bin r.slot r.bin).headInUse

def updSlot (s : Heap) (i : ℕ) (f : MemSlot → MemSlot) : Heap :=
  { s with memSlots := Function.update s.memSlots i (f (s.memSlots i)) }

def updBin (s : Heap) (i b : ℕ) (f : MemBin → MemBin) : Heap :=
  s.updSlot i fun S => { S with memBins := Function.update S.memBins b (f (S.memBins b)) }

def setHead (s : Heap) (r : HeadRef) (h : ℕ) : Heap :=
  s.updBin r.slot r.bin fun b =>
    match r.kind with
    | .free => { b with headFree := h }
    | .inUse => { b with headInUse := h }

def updHisto (s : Heap) (i k : ℕ) (f : MemHisto → MemHisto) : Heap :=
  { s with
    memHisto := Function.update s.memHisto i
      (Function.update (s.memHisto i) k (f (s.memHisto i k))) }

def mutex (s : Heap) : LockId → Mutex
  | .slot i => (s.memSlots i).lock
  | .gMutex => s.gMutex
  | .initMutex => s.initMutex

def setMutex (s : Heap) (l : LockId) (m : Mutex) : Heap :=
  match l with
  | .slot i => s.updSlot i fun S => { S with lock := m }
  | .gMutex => { s with gMutex := m }
  | .initMutex => { s with initMutex := m }

end Heap

def Accessible (pages : ℕ → Prot) (a n : ℕ) : Prop :=
  ∀ k < n, pages ((a + k) / pageSize) ≠ .none

instance (pages : ℕ → Prot) (a n : ℕ) : Decidable (Accessible pages a n) :=
  Nat.decidableBallLT n fun k _ => pages ((a + k) / pageSize) ≠ .none

/-! ## Primitive steps -/

/-- `GR_ASSERT_ALWAYS`. -/
def grAssert (site : Site) (c : Prop) [Decidable c] : M Unit :=
  if c then pure () else throw (.abort site)

def emit (e : Event) : M Unit := modify fun s => { s with log := e :: s.log }

def tick : M ℕ := modifyGet fun s => (s.clock, { s with clock := s.clock + 1 })

/-- An access to `n` bytes faults unless all of them are accessible. -/
def touch (a n : ℕ) : M Unit := do
  let s ← get
  if Accessible s.pages a n then pure () else throw (.fault a)

def load64 (a : ℕ) : M ℕ := do
  touch a 8
  let s ← get
  pure (word s.mem a)

def store64 (a : ℕ) (v : ℕ) : M Unit := do
  touch a 8
  modify fun s => { s with mem := setWord s.mem a v }

def ldField (hdr : ℕ) (f : Field) : M ℕ := load64 (hdr + f.off)

def stField (hdr : ℕ) (f : Field) (v : ℕ) : M Unit := store64 (hdr + f.off) v

def memset (a : ℕ) (b : UInt8) (n : ℕ) : M Unit := do
  touch a n
  modify fun s => { s with mem := update s.mem a n fun _ => b }

def memcpy (dst src : ℕ) (n : ℕ) : M Unit := do
  touch src n
  touch dst n
  modify fun s => { s with mem := update s.mem dst n fun i => s.mem (src + i) }

/-- Whether the `n` bytes at `a` are those of an array. -/
def memcmp (a : ℕ) (arr : ℕ → UInt8) (n : ℕ) : M Bool := do
  touch a n
  let s ← get
  pure (decide (∀ i < n, s.mem (a + i) = arr i))

def storeBytes (a : ℕ) (bytes : List UInt8) : M Unit := do
  touch a bytes.length
  modify fun s => { s with mem := update s.mem a bytes.length fun i => bytes.getD i 0 }

def storeWords : ℕ → List ℕ → M Unit
  | _, [] => pure ()
  | a, w :: ws => do
      store64 a w
      storeWords (a + 8) ws

/-- The difference of two pointers or sizes of 64 bits. -/
def sub64 (a b : ℕ) : ℕ := (a + 2 ^ 64 - b) % 2 ^ 64

/-- The kernel's side of `mmap`: a region is granted when it is page-aligned, lies
in the user half of the address space and overlaps no region granted before. -/
def Granted (pools : List MemPool) (a size : ℕ) : Prop :=
  0 < a ∧ a % pageSize = 0 ∧ a + size ≤ 2 ^ 47 ∧
    ∀ P ∈ pools, a + size ≤ P.start ∨ P.start + P.totalSizeBytes ≤ a

instance (pools : List MemPool) (a size : ℕ) : Decidable (Granted pools a size) := by
  unfold Granted
  infer_instance

def protectPages (pages : ℕ → Prot) (a n : ℕ) (p : Prot) : ℕ → Prot :=
  fun k => if a / pageSize ≤ k ∧ k * pageSize < a + n then p else pages k

/-- `mmap`; `none` is `MAP_FAILED`. Fresh pages are zero. -/
def mmap (env : Env) (size : ℕ) : M (Option ℕ) := do
  let t ← tick
  let s ← get
  match env.mmap t with
  | none => do
      emit .mmapFailed
      pure none
  | some a =>
      if Granted s.memPools a size then do
        set { s with
          mem := update s.mem a size fun _ => 0
          pages := protectPages s.pages a size .readWrite }
        pure (some a)
      else do
        emit .mmapFailed
        pure none

/-- `mprotect`; the value is the return code. -/
def mprotect (env : Env) (a n : ℕ) (p : Prot) : M ℤ := do
  let t ← tick
  if env.mprotect t then do
    modify fun s => { s with pages := protectPages s.pages a n p }
    pure 0
  else do
    emit .mprotectFailed
    pure (-1)

/-- `mlock`; the value is the return code. -/
def mlock (env : Env) : M ℤ := do
  let t ← tick
  if env.mlock t then
    pure 0
  else do
    emit .mlockFailed
    pure (-1)

/-- A mutex after its owner or, when it is free, anybody has locked it. -/
def Mutex.lock (m : Mutex) : Mutex :=
  if m.locked then
    { m with count := m.count + 1 }
  else
    { m with locked := true, count := if m.recursive then 1 else 0 }

/-- A mutex after its owner has unlocked it. -/
def Mutex.unlock (m : Mutex) : Mutex :=
  if 1 < m.count then
    { m with count := m.count - 1 }
  else
    { m with locked := false, count := 0 }

/-- `pthread_mutex_lock`, on the only thread that runs. -/
def pthreadMutexLock (l : LockId) : M Unit := do
  let _ ← tick
  let s ← get
  if (s.mutex l).locked && !(s.mutex l).recursive then
    throw .deadlock
  else do
    set (s.setMutex l (s.mutex l).lock)
    emit (.acquired l)

def pthreadMutexUnlock (l : LockId) : M Unit := do
  modify fun s => s.setMutex l (s.mutex l).unlock
  emit (.released l)

/-- `verifyLocked`: reads the count that only a recursive mutex keeps. -/
def verifyLocked (l : LockId) : M Bool := do
  let s ← get
  pure (decide (0 < (s.mutex l).count))

/-- The statement boundary before a line of `GuardRails.c`: when `SIGUSR2` is
pending, `sigUsr2Handler` runs here and calls `onExit`. -/
def Ctx.poll (ctx : Ctx) (line : ℕ) : M Unit := do
  let s ← get
  if ctx.env.sigusr2 line s.clock then
    ctx.onExitHelper true 0
  else
    pure ()

end GuardRails
