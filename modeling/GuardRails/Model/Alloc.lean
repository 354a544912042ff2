import GuardRails.Model.Bin
import GuardRails.Model.DelayFree

/-!
# Allocation and release

`getBuf` and `putBuf` move a block between the lists of its bin and keep the
counters; `memalignInt` and `free` lay out and check the block. The public entry
points pass their own alignment to `memalignInt`. The list `bt` of an entry point
is the call stack it runs in, as `unw_step` would unwind it.
-/

namespace GuardRails

/-- `getBacktrace`: the first `maxFrames` frames of the stack go to `buf`. -/
def getBacktrace (bt : List ℕ) (buf : ℕ) (maxFrames : ℕ) : M ℕ := do
  storeWords buf (bt.take maxFrames)
  pure (bt.take maxFrames).length

/-- Clear a trace array and fill it with a backtrace. The count is an `int` in the
callers, which assert that it is not negative. -/
def putTrace (bt : List ℕ) (site : Site) (buf : ℕ) (maxFrames : ℕ) : M Unit := do
  memset buf 0 (8 * maxFrames % 2 ^ 64)
  let ret ← getBacktrace bt buf maxFrames
  grAssert site (ret % 2 ^ 32 < 2 ^ 31)

/-- The slot that serves a request: large ones all go to slot `0`. -/
def pickSlot (ctx : Ctx) (usrSize : ℕ) : M ℕ := do
  if usrSize < maxFloatingSize then
    let racySlotRr := ctx.env.racySlotRr (← tick)
    let numSlots := (← get).grArgs.numSlots
    if numSlots = 0 then
      throw .divByZero
    else
      pure (racySlotRr % numSlots)
  else
    pure 0

def takeBlock (ctx : Ctx) (slotNum binNum : ℕ) : M ℕ := do
  ctx.poll 364
  let hdr ← getHead ⟨.free, slotNum, binNum⟩
  ctx.poll 365
  rmElm ctx ⟨.free, slotNum, binNum⟩ hdr
  ctx.poll 366
  insertElmHead ctx ⟨.inUse, slotNum, binNum⟩ hdr
  ctx.poll 367
  modify fun s => s.updBin slotNum binNum fun b => { b with numFree := sub64 b.numFree 1 }
  pure hdr

def countAlloc (ctx : Ctx) (slotNum binNum usrSizeBin : ℕ) (r : Request) : M Unit := do
  ctx.poll 368
  modify fun s => s.updBin slotNum binNum fun b => { b with allocs := (b.allocs + 1) % 2 ^ 64 }
  ctx.poll 370
  grAssert (.guardRails 370) (usrSizeBin < maxAllocPower)
  ctx.poll 371
  modify fun s => s.updHisto slotNum usrSizeBin fun h => { h with allocs := (h.allocs + 1) % 2 ^ 64 }
  ctx.poll 372
  modify fun s => s.updSlot slotNum fun S =>
    { S with totalUserRequestedBytes := (S.totalUserRequestedBytes + r.size) % 2 ^ 64 }
  emit (.counted slotNum r)
  ctx.poll 373
  modify fun s => s.updSlot slotNum fun S =>
    { S with
      hwmUsrBytes :=
        max S.hwmUsrBytes (sub64 S.totalUserRequestedBytes S.totalUserFreedBytes) }

/-- The dumps that `getBuf` starts: at a new high-water mark, and at the limit on
requested bytes, where it aborts. -/
def limitDumps (ctx : Ctx) (slotNum : ℕ) : M Unit := do
  ctx.poll 378
  let S := (← get).memSlots slotNum
  let args := (← get).grArgs
  if S.hwmUsrBytes > (S.lastHWMUsrBytesDump + args.slotHWMDumpIntervalBytes) % 2 ^ 64 then
    ctx.poll 380
    modify fun s => s.updSlot slotNum fun S => { S with lastHWMUsrBytesDump := S.hwmUsrBytes }
    ctx.poll 381
    ctx.onExitHelper false ((← get).memSlots slotNum).hwmUsrBytes
  ctx.poll 384
  if ((← get).memSlots slotNum).totalUserRequestedBytes > args.maxRequestedBytes then
    emit .limitReached
    ctx.poll 386
    ctx.onExitHelper false 0
    throw (.abort (.guardRails 387))

/-- The block and the first address behind it; `NULL` when there is no memory. -/
def getBuf (ctx : Ctx) (bt : List ℕ) (allocSize usrSize : ℕ) : M (ℕ × ℕ) := do
  let reqSize := max pageSize allocSize
  let binNum := log2fast reqSize
  ctx.poll 345
  let slotNum ← pickSlot ctx usrSize
  let usrSizeBin := log2fast usrSize
  ctx.poll 352
  pthreadMutexLock (.slot slotNum)
  ctx.poll 355
  let ret ← replenishBin ctx slotNum binNum
  ctx.poll 356
  if ret ≠ 0 then
    pthreadMutexUnlock (.slot slotNum)
    ctx.poll 359
    pure (0, 0)
  else
    let hdr ← takeBlock ctx slotNum binNum
    countAlloc ctx slotNum binNum usrSizeBin ⟨hdr, usrSize, bt⟩
    limitDumps ctx slotNum
    ctx.poll 390
    pthreadMutexUnlock (.slot slotNum)
    ctx.poll 393
    grAssert (.guardRails 393) ((← ldField hdr .magic) = magicFree)
    ctx.poll 395
    pure (hdr, hdr + 2 ^ binNum)

def countFree (ctx : Ctx) (slotNum : ℕ) (hdr : ℕ) : M Unit := do
  ctx.poll 412
  let usrSizeBin := log2fast (← ldField hdr .usrDataSize)
  ctx.poll 413
  grAssert (.guardRails 413) (usrSizeBin < maxAllocPower)
  ctx.poll 414
  modify fun s => s.updHisto slotNum usrSizeBin fun h => { h with frees := (h.frees + 1) % 2 ^ 64 }
  ctx.poll 415
  let usrDataSize ← ldField hdr .usrDataSize
  modify fun s => s.updSlot slotNum fun S =>
    { S with totalUserFreedBytes := (S.totalUserFreedBytes + usrDataSize) % 2 ^ 64 }
  emit (.uncounted slotNum hdr)

/-- `putBuf` moves the block out of use: to the delay ring or to the free list. -/
def dropBlock (ctx : Ctx) (slotNum binNum : ℕ) (hdr : ℕ) : M Unit := do
  ctx.poll 417
  rmElm ctx ⟨.inUse, slotNum, binNum⟩ hdr
  ctx.poll 419
  if (← get).grArgs.useDelay then
    ctx.poll 420
    delayPut ctx slotNum hdr
  else
    ctx.poll 422
    insertElmHead ctx ⟨.free, slotNum, binNum⟩ hdr
    ctx.poll 423
    modify fun s => s.updBin slotNum binNum fun b =>
      { b with numFree := (b.numFree + 1) % 2 ^ 64 }
  ctx.poll 426
  modify fun s => s.updBin slotNum binNum fun b => { b with frees := (b.frees + 1) % 2 ^ 64 }

def putBuf (ctx : Ctx) (hdr : ℕ) : M Unit := do
  ctx.poll 402
  grAssert (.guardRails 402) ((← ldField hdr .magic) = magicInuse)
  ctx.poll 403
  stField hdr .magic magicFree
  emit (.freeing hdr)
  ctx.poll 405
  let slotNum ← ldField hdr .slotNum
  if maxSlots ≤ slotNum then
    throw .outOfBounds
  else
    ctx.poll 407
    pthreadMutexLock (.slot slotNum)
    ctx.poll 408
    let binNum ← ldField hdr .binNum
    if maxAllocPower ≤ binNum then
      throw .outOfBounds
    else
      countFree ctx slotNum hdr
      dropBlock ctx slotNum binNum hdr
      ctx.poll 428
      pthreadMutexUnlock (.slot slotNum)
      ctx.poll 429

/-- The size that `memalignInt` asks `getBuf` for: header, header pointer, user
data and, for an aligned request, the alignment. -/
def allocSizeOf (args : GRArgs) (alignment usrSize : ℕ) : ℕ :=
  (elmHdrSz args + 8 + usrSize + if alignment > 1 then alignment else 0) % 2 ^ 64

/-- The second half of `memalignInt`: fill in the header of the block `buf` that
ends at `endBuf` and place the user data. -/
def fillBlock (bt : List ℕ) (alignment usrSize buf endBuf : ℕ) : M ℕ := do
  let hdr := buf
  let args := (← get).grArgs
  if args.maxTrackFrames > 0 then
    putTrace bt (.guardRails 630) (hdr + allocBtOff) args.maxTrackFrames
  grAssert (.guardRails 633) ((← ldField hdr .magic) = magicFree)
  stField hdr .magic magicInuse
  stField hdr .usrDataSize usrSize
  grAssert (.guardRails 636) (endBuf > usrSize)
  grAssert (.guardRails 642) (endBuf - usrSize > buf)
  let misalignment := if alignment > 1 then (endBuf - usrSize) % alignment else 0
  let usrData := endBuf - usrSize - misalignment
  if misalignment > 0 then
    grAssert (.guardRails 649) (usrData % alignment = 0)
    memset (usrData + usrSize) magicSlop (min misalignment maxSlop)
  store64 (sub64 usrData 8) buf
  stField hdr .usrData usrData
  stField hdr .misalignment misalignment
  emit (.filled ⟨hdr, usrData, usrSize, misalignment, bt⟩)
  if args.poison then
    memset usrData args.poisonVal usrSize
  pure usrData

def memalignInt (ctx : Ctx) (bt : List ℕ) (alignment usrSize : ℕ) : M ℕ := do
  let allocSize := allocSizeOf (← get).grArgs alignment usrSize
  if (← get).isInit = false then
    grInitialize ctx
  let (buf, endBuf) ← getBuf ctx bt allocSize usrSize
  if buf = 0 then
    if (← get).grArgs.abortOnNull && decide (usrSize > 0) then
      throw (.abort (.guardRails 620))
    pure 0
  else
    fillBlock bt alignment usrSize buf endBuf

def memalign (ctx : Ctx) (bt : List ℕ) (alignment usrSize : ℕ) : M ℕ :=
  memalignInt ctx bt alignment usrSize

def malloc (ctx : Ctx) (bt : List ℕ) (usrSize : ℕ) : M ℕ :=
  memalignInt ctx bt (if usrSize > 8 then 16 else 8) usrSize

def calloc (ctx : Ctx) (bt : List ℕ) (nmemb usrSize : ℕ) : M ℕ := do
  let totalSize := nmemb * usrSize % 2 ^ 64
  let buf ← memalignInt ctx bt 8 totalSize
  if buf = 0 then
    pure buf
  else
    memset buf 0 totalSize
    pure buf

def checkSlop (hdr : ℕ) : M Unit := do
  let misalignment ← ldField hdr .misalignment
  if misalignment > 0 then
    let usrData ← ldField hdr .usrData
    let usrDataSize ← ldField hdr .usrDataSize
    let slopValArr := (← get).slopValArr
    let same ← memcmp (usrData + usrDataSize) slopValArr (min misalignment maxSlop)
    grAssert (.guardRails 734) (same = true)

def free (ctx : Ctx) (bt : List ℕ) (ptr : ℕ) : M Unit := do
  if ptr = 0 then
    pure ()
  else
    let hdr ← load64 (sub64 ptr 8)
    grAssert (.guardRails 728) ((← ldField hdr .magic) = magicInuse)
    checkSlop hdr
    let args := (← get).grArgs
    if args.maxTrackFreeFrames > 0 then
      putTrace bt (.guardRails 742) (hdr + allocBtOff + 8 * args.maxTrackFrames)
        args.maxTrackFreeFrames
    putBuf ctx hdr

def realloc (ctx : Ctx) (bt : List ℕ) (origBuf newUsrSize : ℕ) : M ℕ := do
  let newBuf ← memalignInt ctx bt 8 newUsrSize
  if origBuf = 0 ∨ newBuf = 0 then
    pure newBuf
  else
    let hdr ← load64 (sub64 origBuf 8)
    memcpy newBuf origBuf (min newUsrSize (← ldField hdr .usrDataSize))
    free ctx bt origBuf
    pure newBuf

/-- The return code, `EINVAL` or `ENOMEM` or `0`, and the pointer stored in
`*memptr`, if any. -/
def posixMemalign (ctx : Ctx) (bt : List ℕ) (alignment usrSize : ℕ) :
    M (ℕ × Option ℕ) := do
  if isPow2 alignment = false ∨ alignment % 8 ≠ 0 then
    pure (22, none)
  else
    let tmpPtr ← memalign ctx bt alignment usrSize
    if tmpPtr = 0 then
      pure (12, none)
    else
      pure (0, some tmpPtr)

end GuardRails
