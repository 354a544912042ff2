import GuardRails.Model.ElmList

/-!
# The delay ring

`DelayFree.c`: blocks that are freed in delay mode wait in a ring of their slot
with all their pages protected, and are drained from it in batches.
-/

namespace GuardRails

def Heap.updDelay (s : Heap) (slot : ℕ) (f : MemFreeDelay → MemFreeDelay) : Heap :=
  s.updSlot slot fun S => { S with delay := f S.delay }

def circEmpty (d : MemFreeDelay) : Bool := d.head == d.tail

def circFull (d : MemFreeDelay) : Bool := (d.head + 1) % maxDelayElms == d.tail

def circCount (slot : ℕ) : M ℕ := do
  let d := ((← get).memSlots slot).delay
  if circEmpty d then
    pure 0
  else
    let ct := if d.head > d.tail then d.head - d.tail else maxDelayElms - (d.tail - d.head)
    grAssert (.delayFree 41) (ct = d.numDelayed)
    pure d.numDelayed

def circPut (slot : ℕ) (hdr : ℕ) : M Unit := do
  let d := ((← get).memSlots slot).delay
  grAssert (.delayFree 47) (circFull d = false)
  modify fun s => s.updDelay slot fun d =>
    { d with
      elms := Function.update d.elms d.head hdr
      head := (d.head + 1) % maxDelayElms
      numDelayed := (d.numDelayed + 1) % 2 ^ 64 }
  let binNum ← ldField hdr .binNum
  modify fun s => s.updDelay slot fun d =>
    { d with bytesDelayed := (d.bytesDelayed + 2 ^ binNum) % 2 ^ 64 }
  emit (.delayed slot hdr)

def circGet (ctx : Ctx) (slot : ℕ) : M ℕ := do
  let d := ((← get).memSlots slot).delay
  grAssert (.delayFree 59) (circEmpty d = false)
  let hdr := d.elms d.tail
  modify fun s => s.updDelay slot fun d => { d with tail := (d.tail + 1) % maxDelayElms }
  grAssert (.delayFree 62) (0 < d.numDelayed)
  modify fun s => s.updDelay slot fun d => { d with numDelayed := d.numDelayed - 1 }
  let ret ← mprotect ctx.env hdr pageSize .readWriteExec
  grAssert (.delayFree 68) (ret = 0)
  let binNum ← ldField hdr .binNum
  modify fun s => s.updDelay slot fun d =>
    { d with bytesDelayed := sub64 d.bytesDelayed (2 ^ binNum) }
  emit (.drained slot hdr)
  pure hdr

/-- One block from the ring to the free list of its bin. -/
def delayFreeOne (ctx : Ctx) (slot : ℕ) : M Unit := do
  let hdr ← circGet ctx slot
  let binNum ← ldField hdr .binNum
  if maxAllocPower ≤ binNum then
    throw .outOfBounds
  else
    if 2 ^ binNum > pageSize then
      let ret ← mprotect ctx.env hdr (2 ^ binNum) .readWriteExec
      grAssert (.delayFree 87) (ret = 0)
    insertElmHead ctx ⟨.free, slot, binNum⟩ hdr
    modify fun s => s.updBin slot binNum fun b =>
      { b with numFree := (b.numFree + 1) % 2 ^ 64 }

/-- The loop of `delayFreeBatch`; its fuel bounds the number of blocks in a ring. -/
def delayFreeLoop (ctx : Ctx) (slot : ℕ) : ℕ → M Unit
  | 0 => throw .hang
  | fuel + 1 => do
      if (← circCount slot) > maxDelayElms / 4 then
        delayFreeOne ctx slot
        delayFreeLoop ctx slot fuel
      else
        pure ()

def delayFreeBatch (ctx : Ctx) (slot : ℕ) : M Unit := delayFreeLoop ctx slot maxDelayElms

def delayPut (ctx : Ctx) (slot : ℕ) (hdr : ℕ) : M Unit := do
  grAssert (.delayFree 98) ((← verifyLocked (.slot slot)) = true)
  if (← circCount slot) > maxDelayElms / 2 then
    delayFreeBatch ctx slot
  circPut slot hdr
  let binNum ← ldField hdr .binNum
  let ret ← mprotect ctx.env hdr (2 ^ binNum) .none
  grAssert (.delayFree 107) (ret = 0)

end GuardRails
