import GuardRails.Model.Heap

/-!
# `insertElmHead` and `rmElm`

The two operations on the intrusive lists of headers. The numbers handed to
`poll` are the lines of `GuardRails.c` before which a signal may arrive; the
boundary before the first statement of each function is that of its caller.
-/

namespace GuardRails

def getHead (r : HeadRef) : M ℕ := do
  let s ← get
  pure (s.head r)

def putHead (r : HeadRef) (h : ℕ) : M Unit := modify fun s => s.setHead r h

def insertElmHead (ctx : Ctx) (r : HeadRef) (elm : ℕ) : M Unit := do
  if (← getHead r) ≠ 0 then
    ctx.poll 116
    let head ← getHead r
    stField head .prev elm
  ctx.poll 119
  stField elm .next (← getHead r)
  ctx.poll 120
  stField elm .prev 0
  ctx.poll 121
  putHead r elm
  emit (.linked r elm)

def rmElm (ctx : Ctx) (r : HeadRef) (elm : ℕ) : M Unit := do
  if (← getHead r) = elm then
    ctx.poll 127
    putHead r (← ldField elm .next)
  ctx.poll 130
  if (← ldField elm .prev) ≠ 0 then
    ctx.poll 131
    let prev ← ldField elm .prev
    stField prev .next (← ldField elm .next)
  ctx.poll 134
  if (← ldField elm .next) ≠ 0 then
    ctx.poll 135
    let next ← ldField elm .next
    stField next .prev (← ldField elm .prev)
  emit (.unlinked r elm)
  ctx.poll 138
  stField elm .prev 0
  ctx.poll 139
  stField elm .next 0

end GuardRails
