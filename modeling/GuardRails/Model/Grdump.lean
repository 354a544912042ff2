import GuardRails.Lib.PyText
import GuardRails.Model.Heap

/-!
# Tracker files

The text that `onExitHelper` writes to the tracker file, the text that `gr-dump-in-flight`
prints about a core file, and `grdump.py`, which reads either of them.
-/

namespace GuardRails

open PyText

/-! ## The writer -/

/-- `%lu`. -/
def decimal (n : ℕ) : Text := Nat.toDigits 10 n

/-- `0x%x`, and `%p` of a pointer that is not null. -/
def hexadecimal (n : ℕ) : Text := '0' :: 'x' :: Nat.toDigits 16 n

/-- `fgets` into a buffer with room for `n` characters and the null byte. -/
def fgets : ℕ → Text → Text
  | 0, _ => []
  | _ + 1, [] => []
  | n + 1, c :: cs => if c = '\n' then [c] else c :: fgets n cs

/-- What `dumpOffsets` writes, from the file `/proc/<tid>/maps`. -/
def offsetsText (maps : Text) : Text := (fgets 255 maps).takeWhile (· ≠ Char.ofNat 0)

/-- The field of a frame, with its comma. -/
def frameText (frame : ℕ) : Text := if frame = 0 then [','] else hexadecimal frame ++ [',']

def Record.text (r : Record) : Text :=
  decimal r.size ++ [','] ++ r.frames.flatMap frameText ++ ['\n']

def trackerText (maps : Text) (records : List Record) : Text :=
  offsetsText maps ++ records.flatMap Record.text

def Dump.trackerText (maps : Text) (numSlots : ℕ) (d : Dump) : Text :=
  GuardRails.trackerText maps ((List.range numSlots).flatMap d.records)

/-! ## The reader -/

inductive PyError
  | indexError
  | valueError
  deriving DecidableEq

structure Leak where
  count : ℤ
  elmBytes : ℤ
  totBytes : ℤ
  backtrace : List Text
  deriving DecidableEq

/-- `collections.Counter`: every line of the data with its frequency, in an order of its own. -/
structure PyCounter where
  items : List Text → List (Text × ℕ)
  perm : ∀ data, (items data).Perm (data.dedup.map fun x => (x, data.count x))

/-- The base address and the lines behind the first. -/
def loadData (text : Text) : Except PyError (ℤ × List Text) :=
  match splitlines text with
  | [] => .error .indexError
  | line :: data =>
      match int? 16 (line.takeWhile (· ≠ '-')) with
      | none => .error .valueError
      | some baseAddr => .ok (baseAddr, data)

def parseRow (row : List Text) : Except PyError Leak :=
  match row.filter (· ≠ []) with
  | [] => .error .indexError
  | count :: leak =>
      match int? 10 count, leak with
      | none, _ => .error .valueError
      | some _, [] => .error .indexError
      | some count, elmBytes :: backtrace =>
          match int? 10 elmBytes with
          | none => .error .valueError
          | some elmBytes =>
              .ok { count := count, elmBytes := elmBytes, totBytes := count * elmBytes
                    backtrace := backtrace }

/-- The leaks of the rows, and how many rows were skipped. -/
def parseRows : List (Option (List Text)) → Except PyError (List Leak × ℕ)
  | [] => .ok ([], 0)
  | none :: rows => do
      let (leaks, skipped) ← parseRows rows
      pure (leaks, skipped + 1)
  | some row :: rows => do
      let leak ← parseRow row
      let (leaks, skipped) ← parseRows rows
      pure (leak :: leaks, skipped)

def parseLeaks (ctr : PyCounter) (data : List Text) : Except PyError (List Leak × ℕ) :=
  let leakFreq := (ctr.items data).mergeSort fun x y => y.2 ≤ x.2
  parseRows (csvRows (leakFreq.map fun x => decimal x.2 ++ [','] ++ x.1))

/-- `grdump.py`, as far as the contexts. -/
def grdump (ctr : PyCounter) (text : Text) : Except PyError (List Leak × ℕ) := do
  let (_, data) ← loadData text
  parseLeaks ctr data

def totalBytesLeaked (leaks : List Leak) : ℤ := (leaks.map Leak.totBytes).sum

def totalLeakCount (leaks : List Leak) : ℤ := (leaks.map Leak.count).sum

/-! ## The report -/

def maxsize : ℤ := 2 ^ 63 - 1

/-- The options of `grdump.py`; without `-b` there is no binary. -/
structure GrdumpArgs where
  binary : Text := []
  sortct : Bool := false
  top : ℤ := maxsize

/-- What `addr2line` answers, by binary and addresses, and the searches of `blist.txt`. -/
structure Symbols where
  addr2line : Text → Text → Text
  blist : List (Text → Bool)

/-- The digits of a number with the lowest first, in groups of three. -/
def groups : Text → Text
  | a :: b :: c :: d :: cs => a :: b :: c :: ',' :: groups (d :: cs)
  | cs => cs

/-- `{:,d}`. -/
def commas (n : ℤ) : Text :=
  (if n < 0 then ['-'] else []) ++ (groups (decimal n.natAbs).reverse).reverse

/-- `{:>6}`. -/
def rjust (width : ℕ) (t : Text) : Text := List.replicate (width - t.length) ' ' ++ t

/-- `{: <2}`. -/
def ljust (width : ℕ) (t : Text) : Text := t ++ List.replicate (width - t.length) ' '

def isLong (n : ℤ) : Bool := n < -maxsize - 1 || maxsize < n

/-- `hex`; a long integer ends in `L`. -/
def hex (n : ℤ) (long : Bool) : Text :=
  (if n < 0 then ['-'] else []) ++ hexadecimal n.natAbs ++ if long then ['L'] else []

/-- `hex(int(x, 16) - self.baseAddr)`. -/
def absAddr (baseAddr : ℤ) (x : Text) : Except PyError Text :=
  match int? 16 x with
  | none => .error .valueError
  | some addr =>
      .ok (hex (addr - baseAddr) (isLong addr || isLong baseAddr || isLong (addr - baseAddr)))

/-- `re.sub` of an opening bracket and what follows it up to the next closing one, behind
an opening bracket and the text after it that are still open. -/
def shorten : Text → Text → Text
  | pending, [] => pending
  | [], c :: cs => if c = '(' then shorten [c] cs else c :: shorten [] cs
  | p :: ps, c :: cs => if c = ')' then shorten [] cs else shorten (p :: ps ++ [c]) cs

def frameLine (leakNum : ℕ) (t : Text) : Text :=
  '#' :: ljust 2 (decimal leakNum) ++ ' ' :: t ++ ['\n']

def frameLines (ts : List Text) : Text := ts.zipIdx.flatMap fun x => frameLine x.2 x.1

def contextHeader (context numContexts : ℕ) (leak : Leak) : Text :=
  ("================================ Context ").toList ++ rjust 6 (commas context) ++
  (" / ").toList ++ commas numContexts ++ (" ================================\n").toList ++
  ("Leaked ").toList ++ commas leak.totBytes ++ (" bytes across ").toList ++
  commas leak.count ++ (" allocations of ").toList ++ commas leak.elmBytes ++
  (" bytes each:\n").toList

/-- What is printed of a context, nothing where it is on the list of those to be skipped. -/
def contextText (args : GrdumpArgs) (symbols : Symbols) (baseAddr : ℤ)
    (numContexts context : ℕ) (leak : Leak) : Except PyError (Option Text) :=
  if args.binary = [] then
    -- The header is not printed here.
    .ok (some (frameLines (leak.backtrace.map fun addr =>
      addr ++ (" (No symbols, see -b option)").toList)))
  else do
    let absAddrs ← leak.backtrace.mapM (absAddr baseAddr)
    let syms := symbols.addr2line args.binary ([' '].intercalate absAddrs)
    let shortSyms := ((syms.splitOn '\n').filter (· ≠ [])).map (shorten [])
    if shortSyms.any fun sym => symbols.blist.any fun search => search sym then
      pure none
    else
      pure (some (contextHeader context numContexts leak ++ frameLines shortSyms))

/-- The contexts that are printed, from number `context` on. -/
def printContexts (args : GrdumpArgs) (symbols : Symbols) (baseAddr : ℤ) (numContexts : ℕ) :
    ℕ → List Leak → Except PyError Text
  | _, [] => .ok []
  | context, leak :: leaks => do
      match ← contextText args symbols baseAddr numContexts context leak with
      | none => printContexts args symbols baseAddr numContexts context leaks
      | some out =>
          if args.top ≤ context + 1 then
            pure out
          else do
            let rest ← printContexts args symbols baseAddr numContexts (context + 1) leaks
            pure (out ++ rest)

structure Report where
  totalBytesLeaked : ℤ
  totalLeakCount : ℤ
  numContexts : ℕ
  outStr : Text

def printLeaks (args : GrdumpArgs) (symbols : Symbols) (ctr : PyCounter) (baseAddr : ℤ)
    (data : List Text) : Except PyError Report := do
  let (leaks, _) ← parseLeaks ctr data
  let sorted := leaks.mergeSort fun x y =>
    if args.sortct then decide (y.count ≤ x.count) else decide (y.totBytes ≤ x.totBytes)
  let outStr ← printContexts args symbols baseAddr leaks.length 0 sorted
  pure { totalBytesLeaked := totalBytesLeaked leaks, totalLeakCount := totalLeakCount leaks
         numContexts := leaks.length, outStr := outStr }

/-- `grdump.py`. -/
def dumper (args : GrdumpArgs) (symbols : Symbols) (ctr : PyCounter) (text : Text) :
    Except PyError Report := do
  let (baseAddr, data) ← loadData text
  printLeaks args symbols ctr baseAddr data

end GuardRails
