import GuardRails.Lib.CommandLine
import GuardRails.Model.Run

/-!
# Options

`parseArgs` reads the options from `grargs.txt`. The two arrays that it writes are lists of
the length that they are declared with; a write past the end halts.
-/

namespace GuardRails

open CommandLine PyText

abbrev argMaxBytes : ℕ := 1024
abbrev argMaxNum : ℕ := 64

/-- What comes of opening and reading `grargs.txt`: there is no file, the read fails, or it
returns the bytes of the file up to its limit. -/
inductive ArgFile
  | absent
  | unreadable
  | content (text : Text) (hlen : text.length ≤ argMaxBytes - 1)

def ArgFile.bytes : ArgFile → Text
  | content text _ => text
  | _ => []

/-- The result of the read in a `size_t`. -/
def ArgFile.bytesRead : ArgFile → ℕ
  | absent => 0
  | unreadable => 2 ^ 64 - 1
  | content text _ => text.length

def argAssert (line : ℕ) (c : Prop) [Decidable c] : Except Halt Unit :=
  if c then pure () else throw (.abort (.guardRails line))

def writeAt {α : Type} (a : List α) (i : ℕ) (x : α) : Except Halt (List α) :=
  if i < a.length then pure (a.set i x) else throw .outOfBounds

abbrev nul : Char := Char.ofNat 0

def cString (a : Text) : Text := a.takeWhile (· ≠ nul)

/-- `argStr` after the file has been read. -/
def readArgStr (file : ArgFile) : Except Halt Text := do
  let bytesRead := file.bytesRead
  let argStr := file.bytes ++ List.replicate (argMaxBytes - file.bytes.length) nul
  argAssert 449 (0 ≤ bytesRead)
  let argStr ← writeAt argStr bytesRead nul
  if 0 < bytesRead ∧ argStr[bytesRead - 1]? = some '\n' then
    writeAt argStr (bytesRead - 1) nul
  else
    pure argStr

/-- `argc` and `argv`; an entry of the array is a string or null. -/
structure ArgVector where
  argc : ℕ
  argv : List (Option Text)

def pushArg (v : ArgVector) (cursor : Text) : Except Halt ArgVector := do
  let argc := v.argc + 1
  let argv ← writeAt v.argv argc (some cursor)
  pure { argc := argc, argv := argv }

def argVector (file : ArgFile) : Except Halt ArgVector := do
  let argStr ← readArgStr file
  let v ← (strtok (cString argStr)).foldlM pushArg
    { argc := 0, argv := List.replicate argMaxNum none }
  let argv ← writeAt v.argv 0 (some ("GuardRails").toList)
  pure { argc := v.argc + 1, argv := argv }

def ArgVector.elements (v : ArgVector) : List Text := ((v.argv.take v.argc).drop 1).filterMap id

/-- An `int` that is assigned to a `size_t`. -/
def sizeOfInt (n : ℤ) : ℕ := (n % 2 ^ 64).toNat

/-- A string that the code reads; a null pointer faults. -/
def deref (optarg : Option Text) : Except Halt Text :=
  match optarg with
  | none => throw (.fault 0)
  | some t => pure t

def setOption (args : GRArgs) (o : Opt) : Except Halt GRArgs :=
  match o.char with
  | 'a' => pure { args with abortOnOOM := true }
  | 'A' => pure { args with abortOnNull := true }
  | 'd' => pure { args with useDelay := true }
  | 'D' => do
      let optarg ← deref o.optarg
      pure { args with slotHWMDumpIntervalBytes := strtoull optarg * 1024 * 1024 % 2 ^ 64 }
  | 'm' => do
      let optarg ← deref o.optarg
      let args := { args with maxMemPct := sizeOfInt (atoi optarg) }
      argAssert 502 (args.maxMemPct ≤ 100)
      pure args
  | 'M' => do
      let optarg ← deref o.optarg
      pure { args with maxRequestedBytes := strtoull optarg * 1024 * 1024 % 2 ^ 64 }
  | 'p' => do
      let optarg ← deref o.optarg
      argAssert 509 (0 ≤ atoi optarg ∧ atoi optarg < 256)
      pure { args with poisonVal := UInt8.ofNat (sizeOfInt (atoi optarg)), poison := true }
  | 's' => do
      let optarg ← deref o.optarg
      pure { args with numSlots := sizeOfInt (atoi optarg) }
  | 't' => do
      let optarg ← deref o.optarg
      pure { args with maxTrackFrames := sizeOfInt (atoi optarg) }
  | 'T' => do
      let optarg ← deref o.optarg
      pure { args with maxTrackFreeFrames := sizeOfInt (atoi optarg) }
  | 'v' => pure { args with verbose := true }
  | _ => throw (.abort (.guardRails 526))

/-- The options before the loop over them; without a file, `parseArgs` is verbose. -/
def defaultArgs (file : ArgFile) : GRArgs :=
  { Heap.static.grArgs with
    verbose := match file with
      | .absent => true
      | _ => false
    numSlots := 1
    maxRequestedBytes := 2 ^ 64 - 1
    slotHWMDumpIntervalBytes := 2 ^ 64 - 1 }

def optstring : Text := ("aAdD:mM:p:s:t:T:v").toList

def parseArgs (posixlyCorrect : Bool) (file : ArgFile) : Except Halt (GRArgs × ℕ) := do
  let v ← argVector file
  let args ← (getopt posixlyCorrect optstring v.elements).foldlM setOption (defaultArgs file)
  argAssert 530 (args.numSlots < maxSlots)
  pure (args, v.argc)

end GuardRails
