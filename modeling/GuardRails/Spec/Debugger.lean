import GuardRails.Model.Grgdb
import GuardRails.Spec.Frame

/-!
# What the debugger reads

The debugger reads every byte of a block and of its guard page, and at the beginning of a block
that has been labelled it finds the magic of a header.
-/

namespace GuardRails

open ByteMemory

variable {env : Env} {off : Off} {L : Ledger} {s : Heap} {B : Block} {h x : ℕ}

/-- The guard page is mapped as well. -/
theorem Layout.mapped (hY : Layout s.memPools L) (hB : L.block h = some B) (hle : h ≤ x)
    (hlt : x < h + B.size + guardSize) : s.mapped x = true := by
  obtain ⟨P, hP, hstart, hend⟩ := (hY.block h B hB).inPool
  have hpool := (hY.pool P hP).startFree_eq
  have hguard : guardSize = 4096 := rfl
  exact List.any_eq_true.2 ⟨P, hP, decide_eq_true ⟨by omega, by omega⟩⟩

theorem Layout.peek (hY : Layout s.memPools L) (hB : L.block h = some B) (hle : h ≤ x)
    (hlt : x < h + B.size + guardSize) : s.peek x = some (word s.mem x) :=
  if_pos (hY.mapped hB hle hlt)

theorem HeaderOk.validMagic {args : GRArgs} {m : Mem} (hH : HeaderOk args m h B) :
    isValidMagic (word m h) = true := by
  have hmagic : word m h = if B.live then magicInuse else magicFree := hH.magic
  rw [hmagic]
  cases B.live <;> decide

/-- A header is recognised by its own address. -/
theorem Rep.findHeader (hR : Rep env off s) (hB : (ledger s.log).block h = some B)
    (hraw : B.place ≠ .raw) : findHeader s h = some (h, true) := by
  have hpeek : s.peek (h + Field.magic.off) = some (word s.mem h) :=
    hR.shape.layout.peek hB le_rfl (by change h < h + B.size + 4096; omega)
  rw [GuardRails.findHeader, hpeek, Option.bind_eq_bind, Option.bind_some,
    if_pos (hR.shape.blocks h B hB hraw).validMagic, Option.pure_def]

end GuardRails
