import GuardRails.Model.Alloc

/-!
# Dumps

`onExitHelper` writes the state of the heap out. While it runs, stdio allocates
and frees memory through the same entry points, and an allocation may start the
next dump; `onExitHelper` at one depth is therefore built from the context of the
depth below, and a recursion that is too deep for its fuel hangs.
-/

namespace GuardRails

/-- Run what one call of stdio does to the heap; `own` are the buffers it holds. -/
def stdio (ctx : Ctx) : List StdioCall → List (ℕ × ℕ) → M Unit
  | [], _ => pure ()
  | .alloc bt alignment size :: calls, own => do
      let p ← memalignInt ctx bt alignment size
      stdio ctx calls (own ++ [(p, size)])
  | .free bt idx :: calls, own =>
      match own[idx]? with
      | none => stdio ctx calls own
      | some (p, _) => do
          free ctx bt p
          stdio ctx calls (own.eraseIdx idx)
  | .store idx off bytes :: calls, own =>
      match own[idx]? with
      | none => stdio ctx calls own
      | some (p, size) =>
          if p ≠ 0 ∧ off + bytes.length ≤ size then do
            storeBytes (p + off) bytes
            stdio ctx calls own
          else
            stdio ctx calls own

/-- A call of `printf`, `dprintf` or `setlocale`. -/
def fmtOut (ctx : Ctx) : M Unit := do
  let t ← tick
  stdio ctx (ctx.env.fmtIO t) []

/-- `grPrintf` prints in verbose mode only. -/
def grPrintf (ctx : Ctx) : M Unit := do
  if (← get).grArgs.verbose then fmtOut ctx else pure ()

/-- `dumpOffsets`, as far as the heap is concerned. -/
def dumpOffsets (ctx : Ctx) : M Unit := do
  let t ← tick
  stdio ctx (ctx.env.fileIO t) []

/-- A bound for the number of headers on a list: they lie on different pages. -/
def Heap.walkFuel (s : Heap) : ℕ :=
  (s.memPools.map fun P => P.totalSizeBytes / pageSize).sum

/-- The fields of a record that hold a trace of `n` frames. -/
def dumpFrames (ctx : Ctx) : ℕ → ℕ → M (List ℕ)
  | _, 0 => pure []
  | a, n + 1 => do
      let frame ← load64 a
      fmtOut ctx
      let frames ← dumpFrames ctx (a + 8) n
      pure (frame :: frames)

def dumpInUse (ctx : Ctx) : ℕ → ℕ → M (List Record)
  | fuel, headInUse =>
      if headInUse = 0 then
        pure []
      else
        match fuel with
        | 0 => throw .hang
        | fuel + 1 => do
            let usrDataSize ← ldField headInUse .usrDataSize
            fmtOut ctx
            let frames ← dumpFrames ctx (headInUse + allocBtOff) (← get).grArgs.maxTrackFrames
            fmtOut ctx
            let next ← ldField headInUse .next
            let rest ← dumpInUse ctx fuel next
            pure (⟨usrDataSize, frames⟩ :: rest)

def binLine (i allocs frees : ℕ) : BinLine :=
  { bin := i
    allocs := allocs
    frees := frees
    leakedAllocs := sub64 allocs frees
    leakedBytes := sub64 (allocs * 2 ^ i % 2 ^ 64) (frees * 2 ^ i % 2 ^ 64) }

/-- What class `i` of a slot adds to a dump: its line in the statistics of the blocks and
the records of its list. The totals are read after the line has been printed. -/
def Dump.addBin (d : Dump) (slotNum i : ℕ) (line : BinLine) (verbose : Bool) (bin : MemBin)
    (recs : List Record) : Dump :=
  { d with
    binLines := Function.update d.binLines slotNum
      (d.binLines slotNum ++ if verbose then [line] else [])
    records := Function.update d.records slotNum (d.records slotNum ++ recs)
    totalAllocedBytes := (d.totalAllocedBytes + bin.allocs * 2 ^ i) % 2 ^ 64
    totalAllocedBytesGP := (d.totalAllocedBytesGP + bin.allocs * (2 ^ i + pageSize)) % 2 ^ 64
    totalFreedBytesGP := (d.totalFreedBytesGP + bin.frees * (2 ^ i + pageSize)) % 2 ^ 64 }

def dumpBin (ctx : Ctx) (slotNum : ℕ) (d : Dump) (i : ℕ) : M Dump := do
  let printed := (← get).bin slotNum i
  let verbose := (← get).grArgs.verbose
  grPrintf ctx
  let bin := (← get).bin slotNum i
  let fuel := (← get).walkFuel
  let recs ←
    if (← get).grArgs.maxTrackFrames > 0 then dumpInUse ctx fuel bin.headInUse else pure []
  pure (d.addBin slotNum i (binLine i printed.allocs printed.frees) verbose bin recs)

/-- What class `i` of a slot adds to the statistics of the requests. -/
def Dump.addHisto (d : Dump) (slotNum i : ℕ) (histo : MemHisto) (verbose : Bool) : Dump :=
  { d with
    histoLines := Function.update d.histoLines slotNum
      (d.histoLines slotNum ++ if verbose then [binLine i histo.allocs histo.frees] else [])
    totalRequestedPow2Bytes :=
      (d.totalRequestedPow2Bytes + histo.allocs * 2 ^ i) % 2 ^ 64 }

def dumpHisto (ctx : Ctx) (slotNum : ℕ) (d : Dump) (i : ℕ) : M Dump := do
  let histo := (← get).memHisto slotNum i
  let verbose := (← get).grArgs.verbose
  grPrintf ctx
  pure (d.addHisto slotNum i histo verbose)

def Dump.addUsrBytes (d : Dump) (S : MemSlot) : Dump :=
  { d with
    totalUserRequestedBytes :=
      (d.totalUserRequestedBytes + S.totalUserRequestedBytes) % 2 ^ 64
    totalUserFreedBytes := (d.totalUserFreedBytes + S.totalUserFreedBytes) % 2 ^ 64 }

def dumpSlot (ctx : Ctx) (d : Dump) (slotNum : ℕ) : M Dump := do
  pthreadMutexLock (.slot slotNum)
  let S := (← get).memSlots slotNum
  fmtOut ctx
  grPrintf ctx
  let d ← (List.range maxAllocPower).foldlM (dumpBin ctx slotNum) (d.addUsrBytes S)
  grPrintf ctx
  let d ← (List.range maxAllocPower).foldlM (dumpHisto ctx slotNum) d
  pthreadMutexUnlock (.slot slotNum)
  pure d

/-- The body of `onExitHelper`; the figures of the dump are settled when the last slot has
been read, before the efficiencies are computed. Without tracking there is no file, and
nothing is written to it. -/
def onExitHelperBody (ctx : Ctx) (hwm : ℕ) : M Unit := do
  dumpOffsets ctx
  fmtOut ctx
  let numSlots := (← get).grArgs.numSlots
  let d ← (List.range numSlots).foldlM (dumpSlot ctx) { hwm := hwm }
  emit (.dumped d)
  if d.totalAllocedBytesGP = 0 ∨ d.totalAllocedBytes = 0 ∨ d.totalRequestedPow2Bytes = 0 then
    throw .divByZero
  fmtOut ctx

/-- The context whose `onExitHelper` may nest `depth` times. -/
def ctxOf (env : Env) : ℕ → Ctx
  | 0 =>
      { env := env
        onExitHelper := fun _ _ => do
          emit .dumpBegun
          throw .hang
        printf := throw .hang }
  | depth + 1 =>
      { env := env
        onExitHelper := fun _ hwm => do
          emit .dumpBegun
          onExitHelperBody (ctxOf env depth) hwm
          emit .dumpEnded
        printf := fmtOut (ctxOf env depth) }

end GuardRails
