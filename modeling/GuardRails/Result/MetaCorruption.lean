import GuardRails.Result.ExitReport
import GuardRails.Result.PoolTiling
import GuardRails.Spec.Debugger

/-!
# From a faulting address to its block

`gr-find-header` goes back page by page until a page begins with the magic of a header. Over the
used part of a pool the scan always ends in the block that the address belongs to; it ends at its
header unless the program has written such a magic at the beginning of a page of its own. The guard
page is no obstacle: its magic is another one. `gr-heap-meta-corruption` then tells an access behind
the block from one to the block.
-/

namespace GuardRails

open ByteMemory StateHoare

variable {env : Env} {depth a h k q x page : ℕ} {st : Proc} {s : Heap} {B : Block}

/-- No page behind the header begins with the magic of a header, up to that of `x`. -/
def Unforged (s : Heap) (h x : ℕ) : Prop :=
  ∀ k, h < k * pageSize → k * pageSize ≤ x → isValidMagic (word s.mem (k * pageSize)) = false

/-- What the debugger says of an address in a block or in its guard page. -/
structure Diagnosis (s : Heap) (h : ℕ) (B : Block) (x : ℕ) : Prop where
  inBlock : ∃ h', grFindHeader s x = some h' ∧ h ≤ h' ∧ h' ≤ x
  found : grFindHeader s x = some h ↔ Unforged s h x
  corruption : Unforged s h x → heapMetaCorruption s x = some (decide (h + B.size ≤ x))
  fault : h + B.size ≤ x → ∀ v, storeBytes x [v] s = .error (.fault x) s
  onePage : B.size = pageSize → Unforged s h x

/-! ## The scan -/

/-- The mask takes off the offset in the page. -/
theorem page_of_masked (ha : a < 2 ^ 64) :
    (a &&& (0xffffffffffffffff - pageSize + 1)) / pageSize = a / 4096 := by
  have hmask : 0xffffffffffffffff - pageSize + 1 = (2 ^ 52 - 1) <<< 12 := by decide
  have hpage : ∀ x, x / 4096 = x >>> 12 := fun x => (Nat.shiftRight_eq_div_pow x 12).symm
  change _ / 4096 = _
  rw [hmask, hpage, hpage, Nat.shiftRight_and_distrib, Nat.shiftLeft_shiftRight,
    Nat.and_two_pow_sub_one_eq_mod, Nat.mod_eq_of_lt]
  rw [← hpage]
  omega

/-- One step of the scan, on a page that the debugger can read. -/
theorem grFindHeaderLoop_succ (hmapped : s.mapped ((page + 1) * pageSize) = true) :
    grFindHeaderLoop s (page + 1) =
      if isValidMagic (word s.mem ((page + 1) * pageSize)) then some ((page + 1) * pageSize)
      else if (page + 1) * pageSize > pageSize then grFindHeaderLoop s page else none := by
  rw [grFindHeaderLoop]
  generalize (page + 1) * pageSize = currHeader at hmapped ⊢
  have hpeek : s.peek (currHeader + Field.magic.off) = some (word s.mem currHeader) := if_pos hmapped
  rw [hpeek, Option.bind_eq_bind, Option.bind_some, Option.pure_def]

/-- Where there is a header at page `q`, the scan ends at the last page with a valid magic. -/
theorem grFindHeaderLoop_eq (hq : 0 < q) (hle : q ≤ page)
    (hmapped : ∀ k, q ≤ k → k ≤ page → s.mapped (k * pageSize) = true)
    (hmagic : isValidMagic (word s.mem (q * pageSize)) = true) :
    ∃ m, q ≤ m ∧ m ≤ page ∧ grFindHeaderLoop s page = some (m * pageSize) ∧
      isValidMagic (word s.mem (m * pageSize)) = true ∧
      ∀ k, m < k → k ≤ page → isValidMagic (word s.mem (k * pageSize)) = false := by
  induction page with
  | zero => exact absurd (hq.trans_le hle) (lt_irrefl 0)
  | succ page ih =>
      rw [grFindHeaderLoop_succ (hmapped (page + 1) hle le_rfl)]
      by_cases hvalid : isValidMagic (word s.mem ((page + 1) * pageSize)) = true
      · refine ⟨page + 1, hle, le_rfl, if_pos hvalid, hvalid, fun k hk hk' => ?_⟩
        exact absurd hk (Nat.not_lt.2 hk')
      · have hne : q ≠ page + 1 := by
          rintro rfl
          exact hvalid hmagic
        have hle' : q ≤ page := Nat.le_of_lt_succ (lt_of_le_of_ne hle hne)
        have hmore : (page + 1) * pageSize > pageSize := by
          rw [Nat.add_one_mul]
          exact Nat.lt_add_of_pos_left (Nat.mul_pos (hq.trans_le hle') (by decide))
        rw [if_neg hvalid, if_pos hmore]
        obtain ⟨m, hqm, hm, hfound, hm', hrest⟩ :=
          ih hle' fun k hk hk' => hmapped k hk (hk'.trans (Nat.le_succ page))
        refine ⟨m, hqm, hm.trans (Nat.le_succ page), hfound, hm', fun k hk hk' => ?_⟩
        rcases Nat.lt_or_ge page k with hlast | hbefore
        · obtain rfl := Nat.le_antisymm hk' hlast
          exact Bool.eq_false_iff.2 hvalid
        · exact hrest k hk hbefore

/-! ## Blocks -/

/-- The header that the scan comes to from an address of the block. -/
theorem Reachable.scan (henv : env.Ok) (hr : Reachable env depth st)
    (hB : (ledger st.heap.log).block h = some B) (hx : B.Owns h x) :
    ∃ m, h ≤ m * 4096 ∧ m * 4096 ≤ x ∧ grFindHeader st.heap x = some (m * 4096) ∧
      isValidMagic (word st.heap.mem (m * 4096)) = true ∧
      ∀ k, m < k → k * 4096 ≤ x → isValidMagic (word st.heap.mem (k * 4096)) = false := by
  have hst := hr.inv henv
  have hY := hst.rep.shape.layout
  have hraw : B.place ≠ .raw := by
    rcases hst.settled h B hB with hp | hp | ⟨hp, -⟩ <;> rw [hp] <;> decide
  have hh := hY.block_bounds hB
  obtain ⟨h₁, h₂⟩ : h ≤ x ∧ x < h + B.size + 4096 := hx
  have hstart : h / 4096 * 4096 = h := by omega
  have hmapped : ∀ k, h / 4096 ≤ k → k ≤ x / 4096 → st.heap.mapped (k * 4096) = true := fun k hk hk' =>
    hY.mapped hB (by omega) (by change _ < h + B.size + 4096; omega)
  obtain ⟨m, hqm, hm, hfound, hvalid, hrest⟩ := grFindHeaderLoop_eq (by omega)
    (Nat.div_le_div_right h₁) hmapped
    (hstart.symm ▸ (hst.rep.shape.blocks h B hB hraw).validMagic)
  refine ⟨m, by omega, by omega, ?_, hvalid, fun k hk hk' => hrest k hk (by omega)⟩
  rw [← hfound]
  exact congrArg (grFindHeaderLoop st.heap) (page_of_masked (by omega))

theorem Reachable.diagnosis (henv : env.Ok) (hr : Reachable env depth st)
    (hB : (ledger st.heap.log).block h = some B) (hx : B.Owns h x) : Diagnosis st.heap h B x := by
  have hst := hr.inv henv
  have hY := hst.rep.shape.layout
  have hh := hY.block_bounds hB
  have hguard := hr.hasGuard henv hB
  have hraw : B.place ≠ .raw := by
    rcases hst.settled h B hB with hp | hp | ⟨hp, -⟩ <;> rw [hp] <;> decide
  obtain ⟨m, hm, hm', hfound, hvalid, hrest⟩ := hr.scan henv hB hx
  obtain ⟨h₁, h₂⟩ : h ≤ x ∧ x < h + B.size + 4096 := hx
  have hiff : grFindHeader st.heap x = some h ↔ Unforged st.heap h x := by
    constructor
    · intro hfound' k hk hk'
      have hmh : m * 4096 = h := Option.some.inj (hfound.symm.trans hfound')
      have hk'' : h < k * 4096 := hk
      exact hrest k (by omega) hk'
    · intro hun
      have hmh : m * 4096 = h := by
        by_contra hne
        have hlt : h < m * pageSize := by
          change h < m * 4096
          omega
        exact absurd hvalid (Bool.eq_false_iff.1 (hun m hlt hm'))
      rw [hfound, hmh]
  refine ⟨⟨_, hfound, hm, hm'⟩, hiff, fun hun => ?_, fun hle v => ?_, fun hsize k hk hk' => ?_⟩
  · have hbin : word st.heap.mem (h + Field.binNum.off) = B.bin :=
      (hst.rep.shape.blocks h B hB hraw).binNum
    have hsize : 2 ^ B.bin = B.size :=
      ((hst.rep.log_ok.lawful.sound.block_ok h B hB).size_eq hraw).symm
    have hpeek : st.heap.peek (h + Field.binNum.off) = some B.bin := by
      rw [← hbin]
      exact hY.peek hB (by omega) (by change h + 8 < h + B.size + 4096; omega)
    have hverify : st.heap.peek (h + B.size) = some magicGuard := by
      rw [← hguard.magic]
      exact if_pos (hguard.shut.mapped _ rfl)
    rw [heapMetaCorruption, hiff.2 hun]
    change (st.heap.peek (h + Field.binNum.off) >>= _) = _
    rw [hpeek]
    change (st.heap.peek (h + 2 ^ B.bin) >>= _) = _
    rw [hsize, hverify]
    change (if magicGuard = magicGuard then some _ else none) = _
    rw [if_pos rfl]
    refine congrArg some (decide_eq_decide.2 ⟨And.left, fun hle => ⟨hle, ?_⟩⟩)
    change x ≤ h + B.size + 4096 - 1
    omega
  · have hpage : x / 4096 = (h + B.size) / 4096 := by
      have hal := hguard.aligned
      omega
    have hshut : ¬ Accessible st.heap.pages x 1 := fun hacc =>
      hacc 0 Nat.one_pos (hpage ▸ hguard.shut.prot)
    have hwp : wp (storeBytes x [v]) (fun _ _ => False)
        (fun e s' => e = .fault x ∧ s' = st.heap) st.heap :=
      wp_bind (wp_touch (fun hacc => absurd hacc hshut) fun _ => ⟨rfl, rfl⟩)
    obtain ⟨_, _, hrun, rfl, rfl⟩ := wp_halts hwp
    exact hrun
  · obtain ⟨hk₁, hk₂⟩ : h < k * 4096 ∧ k * 4096 ≤ x := ⟨hk, hk'⟩
    have hsize' : B.size = 4096 := hsize
    have hlast : k * 4096 = h + B.size := by omega
    change isValidMagic (word st.heap.mem (k * 4096)) = false
    rw [hlast, hguard.magic]
    decide

/-- The commands on every address of the used parts of the pools. -/
theorem address_diagnosed (henv : env.Ok) (hr : Reachable env depth st) (hx : st.heap.Used x) :
    ∃ h B, (ledger st.heap.log).block h = some B ∧ B.Owns h x ∧ Diagnosis st.heap h B x := by
  obtain ⟨h, B, hB, hown⟩ := hr.block_of_used henv hx
  exact ⟨h, B, hB, hown, hr.diagnosis henv hB hown⟩

/-- The address of a block in use. -/
theorem address_diagnosed_leak : ∃ st p, Reachable (Env.still (.tracing 1 0)) 1 st ∧ st.held = [(p, 24)] ∧
    ∃ h B, (ledger st.heap.log).block h = some B ∧ B.Owns h p ∧ Diagnosis st.heap h B p := by
  obtain ⟨st, p, hr, hheld⟩ := exists_leak
  have hst := hr.inv Env.still_traced
  obtain ⟨a, hptr, -, ha⟩ := hst.holds (hheld ▸ List.mem_singleton_self (p, 24))
  obtain ⟨B, hB, -, ho, hp⟩ := hst.rep.log_ok.lawful.sound.live_inUse ha
  have hbd := hst.rep.shape.user_bounds hB (by rw [hp]; decide) ho
  have hown : B.Owns a.hdr p := by
    rw [← hptr]
    exact ⟨by omega, by change _ < a.hdr + B.size + 4096; omega⟩
  exact ⟨st, p, hr, hheld, address_diagnosed Env.still_traced hr
    (hst.rep.shape.layout.used_of_owns hB hown)⟩

end GuardRails
