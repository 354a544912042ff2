import Mathlib.Data.Nat.Log
import Mathlib.Tactic.Ring

/-!
# Constants, options and sizes

The constants of `GuardRails.h`, the options read by `parseArgs`, the layout of
a block header and `log2fast`, which picks the size class of a request. A
`size_t` is a natural below `2 ^ 64`; where the code adds two of them the sum is
taken modulo `2 ^ 64`. An address is a natural too, and `0` is `NULL`.
-/

namespace GuardRails

abbrev pageSize : ℕ := 4096
abbrev guardSize : ℕ := 1 * pageSize
abbrev maxSlots : ℕ := 128
abbrev maxMemPools : ℕ := 256
abbrev mempoolMinExpandSize : ℕ := 1000 * (1024 * 1024)
abbrev maxAllocPower : ℕ := 40
abbrev maxPreallocPower : ℕ := 18
abbrev startPoolMult : ℕ := 2
abbrev maxFloatingSize : ℕ := 1 * (1024 * 1024)
abbrev maxDelayElms : ℕ := 32 * 1024
abbrev magicInuse : ℕ := 0x4ef9e433f005ba11
abbrev magicFree : ℕ := 0xcd656727bedabb1e
abbrev magicGuard : ℕ := 0xfd44ba54deadbabe
abbrev magicSlop : UInt8 := 0xb6
abbrev maxSlop : ℕ := 32

structure GRArgs where
  maxTrackFrames : ℕ
  maxTrackFreeFrames : ℕ
  numSlots : ℕ
  maxMemPct : ℕ
  slotHWMDumpIntervalBytes : ℕ
  maxRequestedBytes : ℕ
  poisonVal : UInt8
  useDelay : Bool
  verbose : Bool
  poison : Bool
  abortOnOOM : Bool
  abortOnNull : Bool

/-- Options as the code uses them: `parseArgs` has checked the number of slots,
and the frame counts are non-negative numbers read by `atoi`. -/
structure GRArgs.Ok (args : GRArgs) : Prop where
  numSlots_lt : args.numSlots < maxSlots
  maxTrackFrames_lt : args.maxTrackFrames < 2 ^ 31
  maxTrackFreeFrames_lt : args.maxTrackFreeFrames < 2 ^ 31

/-- Offsets of the fields of `ElmHdr`. -/
inductive Field
  | magic | binNum | slotNum | usrData | usrDataSize | misalignment | next | prev
  deriving DecidableEq

def Field.off : Field → ℕ
  | magic => 0
  | binNum => 8
  | slotNum => 16
  | usrData => 24
  | usrDataSize => 32
  | misalignment => 40
  | next => 48
  | prev => 56

/-- The offset of `allocBt`, which is also `sizeof(ElmHdr)`. -/
abbrev allocBtOff : ℕ := 64

/-- `ELM_HDR_SZ`: the header with its two trace arrays. -/
def elmHdrSz (args : GRArgs) : ℕ :=
  (allocBtOff + args.maxTrackFrames * 8 + args.maxTrackFreeFrames * 8) % 2 ^ 64

theorem Field.off_le (f : Field) : f.off + 8 ≤ 64 := by
  cases f <;> decide

/-- Distinct fields do not overlap. -/
theorem Field.off_apart {f g : Field} (h : f ≠ g) : f.off + 8 ≤ g.off ∨ g.off + 8 ≤ f.off := by
  cases f <;> cases g <;> first | exact absurd rfl h | decide

/-- With non-negative frame counts the size of the header does not wrap. -/
theorem elmHdrSz_eq {args : GRArgs} (h : args.Ok) :
    elmHdrSz args = 64 + args.maxTrackFrames * 8 + args.maxTrackFreeFrames * 8 := by
  have h1 := h.maxTrackFrames_lt
  have h2 := h.maxTrackFreeFrames_lt
  unfold elmHdrSz allocBtOff
  omega

/-- `__builtin_clzll` on a positive 64-bit value. -/
def clzll (val : ℕ) : ℕ := 63 - Nat.log2 val

def isPow2 (val : ℕ) : Bool := val ≠ 0 && (val &&& (val - 1)) == 0

/-- The exponent of the least power of two that is at least `val`. -/
def log2fast (val : ℕ) : ℕ :=
  if val = 0 then
    0
  else if isPow2 val then
    8 * 8 - clzll val - 1
  else
    8 * 8 - clzll val

theorem isPow2_iff {val : ℕ} : isPow2 val = true ↔ ∃ k, val = 2 ^ k := by
  rw [isPow2, Bool.and_eq_true, decide_eq_true_iff, beq_iff_eq]
  exact Nat.ne_zero_and_sub_one_eq_zero_iff_isPowerOfTwo

/-- `log2fast` is the ceiling of the binary logarithm. -/
theorem log2fast_eq_clog {val : ℕ} (h : val < 2 ^ 64) : log2fast val = Nat.clog 2 val := by
  unfold log2fast clzll
  by_cases h0 : val = 0
  · rw [if_pos h0, h0, Nat.clog_zero_right]
  rw [if_neg h0]
  have hlog : Nat.log2 val < 64 := (Nat.log2_lt h0).2 h
  by_cases hp : isPow2 val = true
  · rw [if_pos hp]
    obtain ⟨k, rfl⟩ := isPow2_iff.1 hp
    rw [Nat.log2_two_pow] at hlog ⊢
    rw [Nat.clog_pow 2 k (by decide)]
    omega
  · rw [if_neg hp]
    have hle : 2 ^ Nat.log2 val ≤ val := Nat.log2_self_le h0
    have hne : 2 ^ Nat.log2 val ≠ val := fun he => hp (isPow2_iff.2 ⟨_, he.symm⟩)
    have hlt : val < 2 ^ (Nat.log2 val + 1) := Nat.lt_log2_self
    have hclog : Nat.clog 2 val = Nat.log2 val + 1 := by
      apply le_antisymm
      · exact Nat.clog_le_of_le_pow hlt.le
      · exact (Nat.lt_clog_iff_pow_lt (by decide)).2 (by omega)
    rw [hclog]
    omega

/-- The size class of a request holds it. -/
theorem le_pow_log2fast {val : ℕ} (h : val < 2 ^ 64) : val ≤ 2 ^ log2fast val := by
  rw [log2fast_eq_clog h]
  exact Nat.le_pow_clog (by decide) val

/-- The size class of a request is below `k + 1` iff the request is at most
`2 ^ k`. -/
theorem log2fast_le_iff {val k : ℕ} (h : val < 2 ^ 64) : log2fast val ≤ k ↔ val ≤ 2 ^ k := by
  rw [log2fast_eq_clog h]
  exact Nat.clog_le_iff_le_pow (by decide)

/-- The request size that `getBuf` classifies is at least a page, so its class is
at least that of a page. -/
theorem le_log2fast_page {val : ℕ} (h : val < 2 ^ 64) (hp : 4096 ≤ val) :
    12 ≤ log2fast val := by
  rw [log2fast_eq_clog h]
  calc 12 = Nat.clog 2 (2 ^ 12) := (Nat.clog_pow 2 12 (by decide)).symm
    _ ≤ Nat.clog 2 val := Nat.clog_mono_right 2 (show 2 ^ 12 ≤ val from hp)

example : log2fast 4097 = 13 := by decide

end GuardRails
