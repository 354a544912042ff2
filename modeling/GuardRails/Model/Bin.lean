import GuardRails.Model.ElmList
import GuardRails.Model.Pool

/-!
# Refilling bins and setting up the heap

`replenishBin` fills the free list of a bin from the pools, `grInitialize` sets up
the slots, maps the first pool and fills the bins that have water marks.
-/

namespace GuardRails

/-- The `do … while` loop of `replenishBin`; `0` or `-1` is returned. The fuel is
no bound of the code: an iteration cuts a block off the pools. -/
def replenishLoop (ctx : Ctx) (slotNum binNum : ℕ) : ℕ → M ℤ
  | 0 => throw .hang
  | fuel + 1 => do
      ctx.poll 259
      let hdr ← getFromPool ctx (2 ^ binNum)
      ctx.poll 260
      if hdr = 0 then
        pure (-1)
      else
        ctx.poll 264
        stField hdr .slotNum slotNum
        ctx.poll 265
        stField hdr .binNum binNum
        ctx.poll 266
        stField hdr .magic magicFree
        emit (.labelled hdr slotNum binNum)
        ctx.poll 267
        insertElmHead ctx ⟨.free, slotNum, binNum⟩ hdr
        ctx.poll 268
        modify fun s => s.updBin slotNum binNum fun b =>
          { b with numFree := (b.numFree + 1) % 2 ^ 64 }
        ctx.poll 269
        let bin := (← get).bin slotNum binNum
        if bin.numFree < bin.highWater then
          replenishLoop ctx slotNum binNum fuel
        else
          ctx.poll 271
          pure 0

def replenishBin (ctx : Ctx) (slotNum binNum : ℕ) : M ℤ := do
  ctx.poll 248
  grAssert (.guardRails 248) ((← verifyLocked (.slot slotNum)) = true)
  if maxAllocPower ≤ binNum then
    throw .outOfBounds
  else if 2 ^ binNum < pageSize then
    pure 0
  else
    ctx.poll 255
    let bin := (← get).bin slotNum binNum
    if bin.headFree = 0 ∨ bin.numFree < bin.lowWater then
      replenishLoop ctx slotNum binNum (2 ^ 64)
    else
      ctx.poll 271
      pure 0

/-- The bins from `binNum` on, up to the first that cannot be filled. -/
def replenishBins (ctx : Ctx) (slotNum : ℕ) : List ℕ → M ℤ
  | [] => pure 0
  | binNum :: rest => do
      let ret ← replenishBin ctx slotNum binNum
      if ret ≠ 0 then pure ret else replenishBins ctx slotNum rest

/-- The result of `replenishBins` is not looked at. -/
def replenishSlots (ctx : Ctx) : List ℕ → M Unit
  | [] => pure ()
  | slotNum :: rest => do
      pthreadMutexLock (.slot slotNum)
      grAssert (.guardRails 276) ((← verifyLocked (.slot slotNum)) = true)
      let _ ← replenishBins ctx slotNum (List.range maxPreallocPower)
      pthreadMutexUnlock (.slot slotNum)
      replenishSlots ctx rest

/-- The bins that get water marks: from that of a page up to `17`. -/
def markedBins : List ℕ := (List.range 18).filter fun b => log2fast pageSize ≤ b

def initSlot (S : MemSlot) : MemSlot :=
  { S with
    lock := { recursive := true }
    memBins := fun b =>
      if b ∈ markedBins then
        { S.memBins b with lowWater := 100, highWater := 200 }
      else
        S.memBins b }

/-- The bytes that the marked bins of one slot take at their high-water marks. -/
def slotInitSize : ℕ := (markedBins.map fun b => 200 * (2 ^ b + guardSize)).sum

/-- Sets up the slots in use; the value is `initSize`. -/
def initBinsMeta : M ℕ := do
  modify fun s =>
    { s with
      memSlots := fun i =>
        if i < s.grArgs.numSlots then initSlot (s.memSlots i) else s.memSlots i }
  let s ← get
  pure (s.grArgs.numSlots * slotInitSize)

/-- `initialize`, the library constructor, after `parseArgs` has read the options. -/
def grInitialize (ctx : Ctx) : M Unit := do
  let s ← get
  if s.isInit then
    pure ()
  else
    grAssert (.guardRails 547) (elmHdrSz s.grArgs < pageSize)
    grAssert (.guardRails 548) (elmHdrSz s.grArgs % 8 = 0)
    modify fun s => { s with grArgs := ctx.env.args }
    pthreadMutexLock .initMutex
    let initSize := startPoolMult * (← initBinsMeta)
    pthreadMutexLock .gMutex
    modify fun s => { s with slopValArr := fun _ => magicSlop }
    let ret ← addNewMemPool ctx initSize
    grAssert (.guardRails 565) (ret = 0)
    pthreadMutexUnlock .gMutex
    replenishSlots ctx (List.range ctx.env.args.numSlots)
    modify fun s => { s with isInit := true }
    pthreadMutexUnlock .initMutex

end GuardRails
