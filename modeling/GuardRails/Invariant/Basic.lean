import GuardRails.Invariant.Header
import GuardRails.Lib.IntrusiveList
import GuardRails.Lib.RingBuffer
import Mathlib.Algebra.BigOperators.Group.Finset.Basic
import Mathlib.Data.Int.ModEq

/-!
# The representation invariant

`Rep env off s` ties the heap `s` to the ledger of its history: where the blocks
lie in the pools, which pages are open, what the headers and the list links hold,
what the rings and the counters say. While a function is between a move and the
counter that belongs to it, the counter is off by a known amount; `off` says by
how much, and nested calls leave it as it is.

`Keeps X s s'` is the frame of the allocator: from `s` to `s'` nothing happened to
blocks in use or in the hands of a function, and no other block was left in a place where
it cannot stay, those in `X` apart.
-/

namespace GuardRails

open ByteMemory StateHoare

/-! ## Pools and pages -/

structure PoolOk (P : MemPool) : Prop where
  start_pos : 0 < P.start
  start_aligned : P.start % 4096 = 0
  total_aligned : P.totalSizeBytes % 4096 = 0
  remaining_aligned : P.remainingSizeBytes % 4096 = 0
  startFree_eq : P.startFree + P.remainingSizeBytes = P.start + P.totalSizeBytes
  start_le : P.start ≤ P.startFree
  bounded : P.start + P.totalSizeBytes ≤ 2 ^ 47

/-- A block of `size` bytes at `h`, with its guard page, lies in the used part of a
pool. -/
structure BlockIn (pools : List MemPool) (h size : ℕ) : Prop where
  aligned : h % 4096 = 0
  size_pow : ∃ k, 12 ≤ k ∧ k < 40 ∧ size = 2 ^ k
  inPool : ∃ P ∈ pools, P.start ≤ h ∧ h + size + 4096 ≤ P.startFree

def Apart (a n b k : ℕ) : Prop := a + n ≤ b ∨ b + k ≤ a

structure Layout (pools : List MemPool) (L : Ledger) : Prop where
  pool : ∀ P ∈ pools, PoolOk P
  apart : pools.Pairwise fun P Q => Apart P.start P.totalSizeBytes Q.start Q.totalSizeBytes
  length_le : pools.length ≤ maxMemPools
  block : ∀ h B, L.block h = some B → BlockIn pools h B.size
  sep : ∀ h h' B B', L.block h = some B → L.block h' = some B' → h ≠ h' →
    Apart h (B.size + 4096) h' (B'.size + 4096)

structure PagesOk (pages : ℕ → Prot) (pools : List MemPool) (L : Ledger) : Prop where
  opened : ∀ h B, L.block h = some B → B.place ≠ .ring → Accessible pages h B.size
  shut : ∀ h B, L.block h = some B → B.place = .ring →
    ∀ x, h ≤ x → x < h + B.size → pages (x / 4096) = .none
  guard : ∀ h B, L.block h = some B →
    ∀ x, h + B.size ≤ x → x < h + B.size + 4096 → pages (x / 4096) = .none
  rest : ∀ P, pools.head? = some P → Accessible pages P.startFree P.remainingSizeBytes
  low : ∀ k, pages k ≠ .none → k * 4096 < 2 ^ 47

/-- The rest of the current pool is as `mmap` left it. -/
def FreshOk (m : Mem) (pools : List MemPool) : Prop :=
  ∀ P, pools.head? = some P →
    ∀ x, P.startFree ≤ x → x < P.startFree + P.remainingSizeBytes → m x = 0

/-! ## Headers, lists and rings -/

def BlocksOk (args : GRArgs) (m : Mem) (L : Ledger) : Prop :=
  ∀ h B, L.block h = some B → B.place ≠ .raw → HeaderOk args m h B

def HeaderList (m : Mem) (head : ℕ) (xs : List ℕ) : Prop :=
  IntrusiveList.IsList (fld m · .next) (fld m · .prev) head xs

def ListsOk (m : Mem) (head : HeadRef → ℕ) (L : Ledger) : Prop :=
  ∀ r, HeaderList m (head r) (L.list r)

def Ledger.sizeOf (L : Ledger) (h : ℕ) : ℕ := ((L.block h).map Block.size).getD 0

structure RingOk (L : Ledger) (d : MemFreeDelay) (xs : List ℕ) : Prop where
  tail_lt : d.tail < maxDelayElms
  head_eq : d.head = (d.tail + xs.length) % maxDelayElms
  count : d.numDelayed = xs.length
  contents : RingBuffer.contents d.elms maxDelayElms d.tail xs.length = xs
  bytes : d.bytesDelayed = (xs.map L.sizeOf).sum
  /-- A ring with few blocks has not been drained yet. -/
  young : xs.length < maxDelayElms / 4 → d.tail = 0 ∧ ∀ j, d.head ≤ j → d.elms j = 0

/-! ## Counters -/

/-- A figure that the allocator keeps. -/
inductive Counter
  | free (i b : ℕ) | inUse (i b : ℕ) | histo (i k : ℕ) | bytes (i : ℕ)
  deriving DecidableEq

def heapCount (s : Heap) : Counter → ℤ
  | .free i b => (s.bin i b).numFree
  | .inUse i b => (s.bin i b).allocs - (s.bin i b).frees
  | .histo i k => (s.memHisto i k).allocs - (s.memHisto i k).frees
  | .bytes i => (s.memSlots i).totalUserRequestedBytes - (s.memSlots i).totalUserFreedBytes

def Ledger.count (L : Ledger) : Counter → ℤ
  | .free i b => (L.list ⟨.free, i, b⟩).length
  | .inUse i b => (L.list ⟨.inUse, i, b⟩).length
  | .histo i k => (L.counted i).countP fun q => log2fast q.size = k
  | .bytes i => ((L.counted i).map Request.size).sum

/-- By how much the counters are ahead of the ledger. -/
abbrev Off := Counter → ℤ

structure CountsOk (off : Off) (s : Heap) (L : Ledger) : Prop where
  modEq : ∀ c, heapCount s c ≡ L.count c + off c [ZMOD 2 ^ 64]
  bytes_off : ∀ i, off (.bytes i) = 0
  numFree_lt : ∀ i b, (s.bin i b).numFree < 2 ^ 64
  allocs_lt : ∀ i b, (s.bin i b).allocs < 2 ^ 64
  frees_lt : ∀ i b, (s.bin i b).frees < 2 ^ 64
  histo_lt : ∀ i k, (s.memHisto i k).allocs < 2 ^ 64 ∧ (s.memHisto i k).frees < 2 ^ 64
  bytes_lt : ∀ i, (s.memSlots i).totalUserRequestedBytes < 2 ^ 64 ∧
    (s.memSlots i).totalUserFreedBytes < 2 ^ 64

/-! ## Locks -/

structure Mutex.Ok (m : Mutex) (recursive : Bool) : Prop where
  kind : m.recursive = recursive
  count : 0 < m.count ↔ m.locked = true ∧ recursive = true

structure LocksOk (s : Heap) : Prop where
  slot : ∀ i, (s.memSlots i).lock.Ok (decide (i < s.grArgs.numSlots))
  gMutex : s.gMutex.Ok false
  initMutex : s.initMutex.Ok false

/-! ## Dumps -/

def Env.Calm (env : Env) : Prop := ∀ line t, env.sigusr2 line t = false

/-- The allocator is set up for the request: there is a slot, and the padded size is that
of a bin. -/
structure Fits (args : GRArgs) (alignment usrSize : ℕ) : Prop where
  slots : 0 < args.numSlots
  size : elmHdrSz args + 8 + usrSize + (if alignment > 1 then alignment else 0) ≤ 2 ^ 39

/-- Stdio asks for no more than there are bins for. -/
def Env.StdioFits (env : Env) : Prop :=
  ∀ t, ∀ bt alignment size, .alloc bt alignment size ∈ env.fileIO t ++ env.fmtIO t →
    Fits env.args alignment size

def Env.Quiet (env : Env) : Prop := ∀ t, env.fmtIO t = []

/-- What a dump finds in the header of a block. -/
def Ledger.record (L : Ledger) (args : GRArgs) (h : ℕ) : Record :=
  match (L.block h).bind Block.owner with
  | some a => ⟨a.size, traceOf a.bt args.maxTrackFrames⟩
  | none => ⟨0, List.replicate args.maxTrackFrames 0⟩

def Ledger.records (L : Ledger) (args : GRArgs) (i : ℕ) : List Record :=
  (List.range maxAllocPower).flatMap fun b => (L.list ⟨.inUse, i, b⟩).map (L.record args)

def Ledger.bytes (L : Ledger) (i : ℕ) : ℕ := ((L.counted i).map Request.size).sum

/-- A dump puts out what the ledger has. -/
structure DumpOk (env : Env) (L : Ledger) (d : Dump) : Prop where
  records : ∀ i < env.args.numSlots, d.records i =
    if 0 < env.args.maxTrackFrames then L.records env.args i else []
  bytes : d.totalUserRequestedBytes ≡
    d.totalUserFreedBytes + ∑ i ∈ Finset.range env.args.numSlots, L.bytes i [MOD 2 ^ 64]
  binLines : env.Calm → env.args.verbose = true → ∀ i < env.args.numSlots,
    ((d.binLines i).map fun l => (l.bin, (l.leakedAllocs : ℤ))) =
      (List.range maxAllocPower).map fun b => (b, L.count (.inUse i b) % 2 ^ 64)
  histoLines : env.Calm → env.args.verbose = true → ∀ i < env.args.numSlots,
    ((d.histoLines i).map fun l => (l.bin, (l.leakedAllocs : ℤ))) =
      (List.range maxAllocPower).map fun k => (k, L.count (.histo i k) % 2 ^ 64)

def DumpsOk (env : Env) (log : List Event) : Prop :=
  env.Quiet → ∀ d pre, .dumped d :: pre <:+ log → DumpOk env (ledger pre) d

/-! ## The invariant -/

/-- The lines of `GuardRails.c` before which a signal is not safe: the links of a list
are half way, or the block that `getBuf` is about to take could be taken away. -/
def criticalLines : List ℕ :=
  [116, 119, 120, 121, 127, 130, 131, 134, 135, 268, 269, 271, 356, 364, 365]

structure Env.Ok (env : Env) : Prop where
  args : env.args.Ok
  stdio : ∀ t, ∀ c ∈ env.fileIO t ++ env.fmtIO t, c.Ok
  signals : ∀ line ∈ criticalLines, ∀ t, env.sigusr2 line t = false

structure Shape (env : Env) (off : Off) (L : Ledger) (s : Heap) : Prop where
  env_ok : env.Ok
  args_eq : s.grArgs = env.args
  slop_eq : ∀ i, s.slopValArr i = magicSlop
  layout : Layout s.memPools L
  pages : PagesOk s.pages s.memPools L
  fresh : FreshOk s.mem s.memPools
  blocks : BlocksOk env.args s.mem L
  lists : ListsOk s.mem s.head L
  rings : ∀ i, RingOk L (s.memSlots i).delay (L.ring i)
  counts : CountsOk off s L
  locks : LocksOk s

structure LogOk (env : Env) (log : List Event) : Prop where
  lawful : Lawful log
  dumps : DumpsOk env log

structure Rep (env : Env) (off : Off) (s : Heap) : Prop where
  log_ok : LogOk env s.log
  shape : Shape env off (ledger s.log) s

/-! ## Frame and failure -/

/-- The places in which a nested call does not touch a block. -/
def Block.Fixed (B : Block) : Prop := B.place = .raw ∨ B.place = .held ∨ B.place = .on .inUse

def Block.Settled (B : Block) : Prop :=
  B.place = .on .free ∨ B.place = .ring ∨ B.place = .on .inUse ∧ B.live = true

def SettledAt (s : Heap) (h : ℕ) : Prop :=
  ∀ B, (ledger s.log).block h = some B → B.Settled

/-- The bytes cut off the pools so far, guard pages included. -/
def poolsUsed (pools : List MemPool) : ℕ :=
  (pools.map fun P => P.totalSizeBytes - P.remainingSizeBytes).sum

def openDumps : List Event → ℕ
  | .dumpBegun :: log => openDumps log + 1
  | .dumpEnded :: log => openDumps log - 1
  | _ :: log => openDumps log
  | [] => 0

/-- The history goes on, and ends no dump that was open. -/
structure Extends (log log' : List Event) : Prop where
  suffix : log <:+ log'
  dumps : openDumps log ≤ openDumps log'

structure Keeps (X : Set ℕ) (s s' : Heap) : Prop where
  isInit : s'.isInit = s.isInit
  mutex : ∀ l, s'.mutex l = s.mutex l
  log : Extends s.log s'.log
  used : poolsUsed s.memPools ≤ poolsUsed s'.memPools
  block : ∀ h B, h ∉ X → (ledger s.log).block h = some B → B.Fixed →
    (ledger s'.log).block h = some B
  mem : ∀ h B, h ∉ X → (ledger s.log).block h = some B → B.Fixed →
    ∀ x, h ≤ x → x < h + B.size → (B.place = .on .inUse → x < h + 48 ∨ h + 64 ≤ x) →
      s'.mem x = s.mem x
  settled : ∀ h, h ∉ X → (∀ B, (ledger s.log).block h = some B → ¬ B.Fixed) → SettledAt s' h

/-- An event that excuses a halt: the system refused something, or a limit is reached. -/
def Event.Excuse : Event → Prop
  | .limitReached | .mmapFailed | .mlockFailed | .mprotectFailed | .poolsExhausted => True
  | _ => False

/-- Something happened that excuses a halt, or a dump is under way that asks for more than
there are bins for. -/
def Trouble (env : Env) (log : List Event) : Prop :=
  (0 < openDumps log ∧ ¬ env.StdioFits) ∨ ∃ e ∈ log, e.Excuse

/-- A dump that does not end: it starts the next one again and again, divides by zero, or
reads past the end of a block that is too small for the header and not filled in yet. -/
def DumpHalt (env : Env) (e : Halt) (log : List Event) : Prop :=
  0 < openDumps log ∧ (e = .hang ∨ e = .divByZero ∨
    (∃ a, e = .fault a) ∧ 4096 < elmHdrSz env.args ∧ ¬ env.Calm)

/-- The assertions that never fail while the client is well-behaved: a new pool is large
enough, and the slop behind an allocation is as it was left. -/
abbrev Halt.Barred (e : Halt) : Prop :=
  e = .abort (.guardRails 220) ∨ e = .abort (.guardRails 734)

/-- What is left when a function halts: the history is in order, under `F` there was
trouble or a dump did not end, under `G` no array was left, and it was no barred halt. -/
structure Halted (env : Env) (F G : Prop) (e : Halt) (s : Heap) : Prop where
  log_ok : LogOk env s.log
  excuse : F → Trouble env s.log ∨ DumpHalt env e s.log
  barred : ¬ e.Barred
  bounds : env.StdioFits → G → e ≠ .outOfBounds

/-- Large or not, the header fits a block that is in use and not filled in yet. -/
def Roomy (env : Env) (s : Heap) : Prop :=
  4096 < elmHdrSz env.args → env.Calm → ∀ h B, (ledger s.log).block h = some B →
    B.place = .on .inUse → B.live = false → elmHdrSz env.args ≤ B.size

/-- The heap is set up, and every block in use can be dumped. -/
structure SetUp (env : Env) (s : Heap) : Prop where
  isInit : s.isInit = true
  roomy : Roomy env s

/-- What a function may rely on while it runs: unless there was trouble nobody holds
`gMutex`, and the heap is set up or being set up. -/
structure Ready (env : Env) (F : Prop) (s : Heap) : Prop where
  gMutex : F → s.gMutex.locked = true → Trouble env s.log
  init : s.isInit = true ∨ s.initMutex.locked = true
  calm : F → env.Calm ∨ s.isInit = true ∨ Trouble env s.log

end GuardRails
