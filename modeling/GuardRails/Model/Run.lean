import GuardRails.Model.Dump

/-!
# Runs

A client calls the allocator and uses what it got. It keeps books of the pointers it
holds; a well-behaved client releases only those and touches no other memory. A run
begins with the constructor of the library, or with an allocation that comes before it, and
consists of calls that complete.
-/

namespace GuardRails

/-- The static variables before the constructor of the library has run. -/
def Heap.static : Heap where
  grArgs :=
    { maxTrackFrames := 0, maxTrackFreeFrames := 0, numSlots := 0, maxMemPct := 0
      slotHWMDumpIntervalBytes := 0, maxRequestedBytes := 0, poisonVal := 0
      useDelay := false, verbose := false, poison := false, abortOnOOM := false
      abortOnNull := false }

/-- The environment before the handler is installed. -/
def Env.unsignalled (env : Env) : Env := { env with sigusr2 := fun _ _ => false }

/-- The start of the program: the constructor of the library. -/
def boot (env : Env) (depth : ℕ) : M Unit := grInitialize (ctxOf env.unsignalled depth)

/-- What a client does: a call of the allocator, an access to memory that it holds, or
`onExit`, at the end or on a signal between two calls. -/
inductive Call
  | malloc (usrSize : ℕ)
  | calloc (nmemb usrSize : ℕ)
  | realloc (origBuf newUsrSize : ℕ)
  | memalign (alignment usrSize : ℕ)
  | posixMemalign (alignment usrSize : ℕ)
  | free (ptr : ℕ)
  | load (ptr off n : ℕ)
  | store (ptr off : ℕ) (bytes : List UInt8)
  | onExit

abbrev Books := List (ℕ × ℕ)

namespace Call

def size? : Call → Option ℕ
  | malloc usrSize => some usrSize
  | calloc nmemb usrSize => some (nmemb * usrSize % 2 ^ 64)
  | realloc _ newUsrSize => some newUsrSize
  | memalign _ usrSize => some usrSize
  | posixMemalign _ usrSize => some usrSize
  | _ => none

def alignment : Call → ℕ
  | malloc usrSize => if usrSize > 8 then 16 else 8
  | memalign alignment _ => alignment
  | posixMemalign alignment _ => alignment
  | _ => 8

def target? : Call → Option ℕ
  | realloc origBuf _ => some origBuf
  | free ptr => some ptr
  | store ptr _ _ => some ptr
  | _ => none

/-- The client is well-behaved: arguments are values of their types, it releases only what
it holds and accesses only what lies in it. -/
def Ok (held : Books) : Call → Prop
  | malloc usrSize => usrSize < 2 ^ 64
  | calloc nmemb usrSize => nmemb < 2 ^ 64 ∧ usrSize < 2 ^ 64
  | realloc origBuf newUsrSize => newUsrSize < 2 ^ 64 ∧ (origBuf = 0 ∨ ∃ n, (origBuf, n) ∈ held)
  | memalign alignment usrSize => alignment < 2 ^ 64 ∧ usrSize < 2 ^ 64
  | posixMemalign alignment usrSize => alignment < 2 ^ 64 ∧ usrSize < 2 ^ 64
  | free ptr => ptr = 0 ∨ ∃ n, (ptr, n) ∈ held
  | load ptr off n => ∃ size, (ptr, size) ∈ held ∧ off + n ≤ size
  | store ptr off bytes => ∃ size, (ptr, size) ∈ held ∧ off + bytes.length ≤ size
  | onExit => True

def book (held : Books) (p : ℕ) : Call → Books
  | realloc origBuf newUsrSize =>
      if p = 0 then held else (p, newUsrSize) :: held.filter fun e => e.1 ≠ origBuf
  | free ptr => held.filter fun e => e.1 ≠ ptr
  | c =>
      match c.size? with
      | some n => if p = 0 then held else (p, n) :: held
      | none => held

/-- The call itself, in the call stack `bt`; the value is the pointer that the client gets,
or `NULL`. -/
def exec (ctx : Ctx) (bt : List ℕ) : Call → M ℕ
  | malloc usrSize => GuardRails.malloc ctx bt usrSize
  | calloc nmemb usrSize => GuardRails.calloc ctx bt nmemb usrSize
  | realloc origBuf newUsrSize => GuardRails.realloc ctx bt origBuf newUsrSize
  | memalign alignment usrSize => GuardRails.memalign ctx bt alignment usrSize
  | posixMemalign alignment usrSize => do
      let (_, memptr) ← GuardRails.posixMemalign ctx bt alignment usrSize
      pure (memptr.getD 0)
  | free ptr => do
      GuardRails.free ctx bt ptr
      pure 0
  | load ptr off n => do
      touch (ptr + off) n
      pure 0
  | store ptr off bytes => do
      storeBytes (ptr + off) bytes
      pure 0
  | onExit => do
      ctx.onExitHelper true 0
      pure 0

end Call

structure Proc where
  heap : Heap
  held : Books

inductive Step (env : Env) (depth : ℕ) (st : Proc) (c : Call) : Proc → Prop
  | mk {bt : List ℕ} {p : ℕ} {s' : Heap} (hok : c.Ok st.held)
      (hexec : c.exec (ctxOf env depth) bt st.heap = .ok p s') : Step env depth st c ⟨s', c.book st.held p⟩

inductive Run (env : Env) (depth : ℕ) : Proc → List Call → Proc → Prop
  | refl {st : Proc} : Run env depth st [] st
  | tail {st st' st'' : Proc} {cs : List Call} {c : Call} (hrun : Run env depth st cs st')
      (hstep : Step env depth st' c st'') : Run env depth st (cs ++ [c]) st''

/-- A client that is not well-behaved: it writes a byte `k` past the end of its `n` bytes
at `p`. -/
def overrun (p n k : ℕ) (v : UInt8) : M Unit := do
  storeBytes (p + n + k) [v]
  emit (.overrun (ByteMemory.word (← get).mem (p - 8)))

/-- The states between the calls of a run that the constructor begins. -/
def Reachable (env : Env) (depth : ℕ) (st : Proc) : Prop :=
  ∃ s cs, boot env depth Heap.static = .ok () s ∧ Run env depth ⟨s, []⟩ cs st

/-- How a run begins: with the constructor, or with an allocation that is made before it,
say by the constructor of another library, and calls `initialize` itself. The handler of
`SIGUSR2` is not installed then, and those runs are taken without signals. -/
inductive Start (env : Env) (depth : ℕ) : Option Call → Proc → Prop
  | loaded {s : Heap} (hboot : boot env depth Heap.static = .ok () s) :
      Start env depth none ⟨s, []⟩
  | early {c : Call} {bt : List ℕ} {p : ℕ} {s' : Heap} (hcalm : env.unsignalled = env)
      (hok : c.Ok []) (hsize : c.size? ≠ none)
      (hexec : c.exec (ctxOf env depth) bt Heap.static = .ok p s') (hinit : s'.isInit = true) :
      Start env depth (some c) ⟨s', c.book [] p⟩

/-- The states between the calls of any run; `first?` is the call that initialised the
library, if the constructor did not. -/
def Launched (env : Env) (depth : ℕ) (first? : Option Call) (st : Proc) : Prop :=
  ∃ st₀ cs, Start env depth first? st₀ ∧ Run env depth st₀ cs st

end GuardRails
