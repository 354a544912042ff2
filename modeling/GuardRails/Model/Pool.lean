import GuardRails.Model.Heap

/-!
# Memory pools

`addNewMemPool` maps a new pool and `getFromPool` cuts the next block and its
guard page off the current one.
-/

namespace GuardRails

/-- The return code is `0`, or `-1` when the kernel grants no memory. -/
def addNewMemPool (ctx : Ctx) (poolSizeReq : ℕ) : M ℤ := do
  let poolSize := (poolSizeReq / pageSize + 1) * pageSize
  let s ← get
  grAssert (.guardRails 160) (s.gMutex.locked = true)
  grAssert (.guardRails 161) (poolSize % pageSize = 0)
  match ← mmap ctx.env poolSize with
  | none => do
      let limit := ctx.env.rlimAs (← tick)
      if s.grArgs.abortOnOOM && decide (poolSizeReq < limit) then
        ctx.printf
        ctx.onExitHelper false 0
        throw (.abort (.guardRails 173))
      pure (-1)
  | some mapStart => do
      grAssert (.guardRails 177) (mapStart % pageSize = 0)
      if s.grArgs.maxMemPct ≠ 0 then
        let ret ← mlock ctx.env
        if ret ≠ 0 then
          ctx.printf
          ctx.onExitHelper false 0
          throw (.abort (.guardRails 184))
      let s ← get
      if ¬ s.memPools.length < maxMemPools then
        emit .poolsExhausted
        throw (.abort (.guardRails 189))
      set { s with
        memPools :=
          { totalSizeBytes := poolSize
            remainingSizeBytes := poolSize
            start := mapStart
            startFree := mapStart
            endAddr := mapStart + poolSize - 1 } :: s.memPools }
      pure 0

/-- The bytes left in the current pool; there are none before the first pool. -/
def Heap.remaining (s : Heap) : ℕ :=
  match s.memPools with
  | [] => 0
  | P :: _ => P.remainingSizeBytes

def Heap.startFree (s : Heap) : ℕ :=
  match s.memPools with
  | [] => 0
  | P :: _ => P.startFree

def Heap.bump (s : Heap) (n : ℕ) : Heap :=
  match s.memPools with
  | [] => s
  | P :: Ps =>
      { s with
        memPools :=
          { P with
            startFree := P.startFree + n
            remainingSizeBytes := P.remainingSizeBytes - n } :: Ps }

/-- Write the guard magic behind a block and take the access rights of the guard
page away. -/
def putGuard (ctx : Ctx) (hdr : ℕ) (size : ℕ) : M Unit := do
  grAssert (.guardRails 225) (hdr % pageSize = 0)
  let guardStart := hdr + size
  grAssert (.guardRails 227) (guardStart % pageSize = 0)
  store64 guardStart magicGuard
  let ret ← mprotect ctx.env guardStart guardSize .none
  grAssert (.guardRails 236) (ret = 0)

def getFromPool (ctx : Ctx) (size : ℕ) : M ℕ := do
  let binTotalSize := size + guardSize
  pthreadMutexLock .gMutex
  let ret ←
    if (← get).remaining < binTotalSize then
      addNewMemPool ctx (max mempoolMinExpandSize size)
    else
      pure 0
  if ret ≠ 0 then
    pthreadMutexUnlock .gMutex
    pure 0
  else
    let s ← get
    let hdr := s.startFree
    grAssert (.guardRails 220) (binTotalSize ≤ s.remaining)
    set (s.bump binTotalSize)
    putGuard ctx hdr size
    emit (.carved hdr size)
    pthreadMutexUnlock .gMutex
    pure hdr

end GuardRails
