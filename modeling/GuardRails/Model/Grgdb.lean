import GuardRails.Lib.RingBuffer
import GuardRails.Model.Dump
import GuardRails.Model.Grdump

/-!
# Debugger commands

`grgdb.py`: commands that inspect a stopped process. A command reads the memory of the
process and does not change it. The debugger reads mapped pages whatever their protection;
reading anything else, and formatting a string as a number, raises an exception.
-/

namespace GuardRails

/-- The debugger can read at `a`. -/
def Heap.mapped (s : Heap) (a : ℕ) : Bool :=
  s.memPools.any fun P => decide (P.start ≤ a ∧ a < P.start + P.totalSizeBytes)

/-! ## `gr-find-delay-list` -/

inductive DelaySearch
  | found (cursor elmPtr : ℕ)
  | notFound
  | raised
  deriving DecidableEq

def delayListCount (head tail maxDelayCt : ℕ) : ℕ :=
  if head > tail then head - tail else maxDelayCt - (tail - head)

/-- The address is in the element, its guard included. -/
def inElement (s : Heap) (elmPtr addrToFind : ℕ) : Prop :=
  elmPtr ≤ addrToFind ∧
    addrToFind ≤ elmPtr + 2 ^ ByteMemory.word s.mem (elmPtr + Field.binNum.off) + guardSize - 1

instance (s : Heap) (elmPtr addrToFind : ℕ) : Decidable (inElement s elmPtr addrToFind) :=
  inferInstanceAs (Decidable (_ ∧ _))

/-- The loop of the command, with the steps that are left and the cursor. An element with
another magic is reported with `%x` applied to a string. -/
def findDelayLoop (s : Heap) (d : MemFreeDelay) (addrToFind : ℕ) : ℕ → ℕ → DelaySearch
  | 0, _ => .notFound
  | n + 1, cursor =>
      let elmPtr := d.elms cursor
      if s.mapped elmPtr = false then
        .raised
      else if ByteMemory.word s.mem (elmPtr + Field.magic.off) ≠ magicFree then
        .raised
      else if inElement s elmPtr addrToFind then
        .found cursor elmPtr
      else
        findDelayLoop s d addrToFind n ((if cursor = 0 then maxDelayElms else cursor) - 1)

def findDelayList (s : Heap) (slot addrToFind : ℕ) : DelaySearch :=
  let d := (s.memSlots slot).delay
  findDelayLoop s d addrToFind (delayListCount d.head d.tail maxDelayElms) d.head

/-- The entries that the loop visits unless one of them stops it. -/
def delayListEntries (d : MemFreeDelay) : List ℕ :=
  RingBuffer.backwards d.elms maxDelayElms (delayListCount d.head d.tail maxDelayElms) d.head

/-! ## `gr-dump-in-flight` -/

def Heap.peek (s : Heap) (a : ℕ) : Option ℕ :=
  if s.mapped a then some (ByteMemory.word s.mem a) else none

def frameFields (s : Heap) (trace : ℕ) : ℕ → Option PyText.Text
  | 0 => some []
  | maxFrames + 1 => do
      let addrInt ← s.peek trace
      let ret ← frameFields s (trace + 8) maxFrames
      pure ((if addrInt ≠ 0 then hexadecimal addrInt ++ [','] else [',']) ++ ret)

/-- Without frames the command has nothing to add to the line, which raises an exception. -/
def getTraceCsv (s : Heap) (trace maxFrames : ℕ) : Option PyText.Text :=
  if maxFrames = 0 then none else frameFields s trace maxFrames

/-- The lines of the list from `hdr` on; there are none if the command raises an exception or
never comes to an end. -/
def inFlightLines (s : Heap) (maxAllocFrames : ℕ) : ℕ → ℕ → Option (List PyText.Text)
  | fuel, hdr =>
      if hdr = 0 then
        some []
      else
        match fuel with
        | 0 => none
        | fuel + 1 => do
            let csvTrace ← getTraceCsv s (hdr + allocBtOff) maxAllocFrames
            let elmSize ← s.peek (hdr + Field.usrDataSize.off)
            let next ← s.peek (hdr + Field.next.off)
            let lines ← inFlightLines s maxAllocFrames fuel next
            pure ((decimal elmSize ++ [','] ++ csvTrace) :: lines)

/-- What the command prints behind its marker. -/
def dumpInFlight (s : Heap) : Option (List PyText.Text) := do
  let lines ← ((List.range s.grArgs.numSlots).product (List.range maxAllocPower)).mapM fun x =>
    inFlightLines s s.grArgs.maxTrackFrames s.walkFuel (s.bin x.1 x.2).headInUse
  pure lines.flatten

/-! ## `gr-print-addr-info` -/

/-- `isValid`. -/
def isValidMagic (magic : ℕ) : Bool := magic == magicInuse || magic == magicFree

/-- The header for an address, and whether the address is that of a header; there is none if
it does not look valid, or if reading it raises an exception. -/
def findHeader (s : Heap) (addr : ℕ) : Option (ℕ × Bool) := do
  let magic ← s.peek (addr + Field.magic.off)
  if isValidMagic magic then
    pure (addr, true)
  else
    let hdr ← s.peek (sub64 addr 8)
    let magic ← s.peek (hdr + Field.magic.off)
    if isValidMagic magic then pure (hdr, false) else none

/-- `range(offset, maxFrames + offset)`. -/
def traceRange (offset maxFrames : ℕ) : List ℕ := List.range' offset maxFrames

def dumpSymTrace (s : Heap) (trace : ℕ) (range : List ℕ) : Option (List ℕ) := do
  let addrs ← range.mapM fun i => s.peek (trace + 8 * i)
  pure (addrs.filter (· ≠ 0))

def allocTraceRange (args : GRArgs) : List ℕ := traceRange 0 args.maxTrackFrames

def freeTraceRange (args : GRArgs) : List ℕ :=
  traceRange (args.maxTrackFrames + 1) args.maxTrackFreeFrames

structure AddrInfo where
  hdr : ℕ
  isHeader : Bool
  inUse : Bool
  allocTrace : List ℕ
  freeTrace : List ℕ

def printAddrInfo (s : Heap) (addr : ℕ) : Option AddrInfo := do
  let (hdr, isHeader) ← findHeader s addr
  let magic ← s.peek (hdr + Field.magic.off)
  let trace := hdr + allocBtOff
  let allocTrace ← dumpSymTrace s trace (allocTraceRange s.grArgs)
  let freeTrace ← dumpSymTrace s trace (freeTraceRange s.grArgs)
  pure { hdr := hdr, isHeader := isHeader, inUse := magic == magicInuse
         allocTrace := allocTrace, freeTrace := freeTrace }

/-! ## `gr-find-header` -/

/-- The loop of the command from a page on downwards. -/
def grFindHeaderLoop (s : Heap) : ℕ → Option ℕ
  | 0 => do
      let magic ← s.peek (0 * pageSize + Field.magic.off)
      if isValidMagic magic then pure (0 * pageSize) else none
  | page + 1 => do
      let currHeader := (page + 1) * pageSize
      let magic ← s.peek (currHeader + Field.magic.off)
      if isValidMagic magic then
        pure currHeader
      else if currHeader > pageSize then
        grFindHeaderLoop s page
      else
        none

/-- The header that the command prints; there is none if it raises an exception. -/
def grFindHeader (s : Heap) (addr : ℕ) : Option ℕ :=
  let mask := 0xffffffffffffffff - pageSize + 1
  grFindHeaderLoop s ((addr &&& mask) / pageSize)

/-! ## `gr-heap-meta-corruption` -/

/-- Whether the access appears to corrupt the heap or to overrun the buffer. -/
def heapMetaCorruption (s : Heap) (addr : ℕ) : Option Bool := do
  let hdrPtrAddr ← grFindHeader s addr
  let binNum ← s.peek (hdrPtrAddr + Field.binNum.off)
  let guardStartAddr := hdrPtrAddr + 2 ^ binNum
  let guardEndAddr := guardStartAddr + guardSize - 1
  let verifyGuard ← s.peek guardStartAddr
  if verifyGuard = magicGuard then
    pure (decide (guardStartAddr ≤ addr ∧ addr ≤ guardEndAddr))
  else
    none

/-! ## `grcoreheap.sh` -/

def startTraces : PyText.Text := ("===== START TRACES =====").toList

/-- `sed '1,/^marker/d'`: the marker is looked for from the second line on. -/
def sedAfter (marker : PyText.Text) (lines : List PyText.Text) : List PyText.Text :=
  ((lines.drop 1).dropWhile fun l => !marker.isPrefixOf l).drop 1

/-- The output file; `banner` is what the debugger prints before it runs the command. -/
def grcoreheap (banner : List PyText.Text) (s : Heap) : Option PyText.Text := do
  let traces ← dumpInFlight s
  pure ((sedAfter startTraces (banner ++ startTraces :: traces)).flatMap (· ++ ['\n']))

end GuardRails
