import GuardRails.Invariant.Counters
import GuardRails.Invariant.Rings
import GuardRails.Spec.ElmList

/-!
# The delay ring

`delayPut` puts a block behind the others of its slot and takes all rights on its pages
away; before that it drains the oldest blocks of a ring that is more than half full. No
signal arrives in here except inside `insertElmHead`.
-/

namespace GuardRails

open ByteMemory StateHoare

variable {env : Env} {off : Off} {L : Ledger} {s s' s₀ : Heap} {X : Set ℕ} {F G : Prop}
  {h i : ℕ} {B : Block} {ctx : Ctx} {xs : List ℕ} {E : Halt → Heap → Prop} {w : ℕ → ℕ}

theorem updDelay_updDelay (s : Heap) (i : ℕ) (f g : MemFreeDelay → MemFreeDelay) :
    (s.updDelay i f).updDelay i g = s.updDelay i fun d => g (f d) := by
  simp only [Heap.updDelay, Heap.updSlot, Function.update_self, Function.update_idem]

theorem wp_circCount {Q : ℕ → Heap → Prop} (hR : (s.memSlots i).delay.ring.Holds maxDelayElms w xs)
    (hlt : xs.length < maxDelayElms) (hq : Q xs.length s) : wp (circCount i) Q E s := by
  unfold circCount
  refine wp_bind (wp_get ?_)
  extract_lets d ct
  have hempty : circEmpty d = true ↔ xs = [] := beq_iff_eq.trans (hR.empty_iff hlt)
  refine wp_ite (fun he => wp_pure ?_) fun he => ?_
  · obtain rfl := hempty.1 he
    exact hq
  · have hne : xs ≠ [] := fun hnil => he (hempty.2 hnil)
    have hcount : d.numDelayed = xs.length := hR.count_eq
    refine wp_bind (wp_grAssert_of (hR.diff_eq hlt hne) (wp_pure ?_))
    rw [hcount]
    exact hq

def MemFreeDelay.get (d : MemFreeDelay) (binNum : ℕ) : MemFreeDelay :=
  { d with
    tail := (d.tail + 1) % maxDelayElms
    numDelayed := d.numDelayed - 1
    bytesDelayed := sub64 d.bytesDelayed (2 ^ binNum) }

def MemFreeDelay.put (d : MemFreeDelay) (hdr binNum : ℕ) : MemFreeDelay :=
  { d with
    elms := Function.update d.elms d.head hdr
    head := (d.head + 1) % maxDelayElms
    numDelayed := (d.numDelayed + 1) % 2 ^ 64
    bytesDelayed := (d.bytesDelayed + 2 ^ binNum) % 2 ^ 64 }

theorem wp_circGet {Q : ℕ → Heap → Prop} {b : ℕ}
    (hR : (s.memSlots i).delay.ring.Holds maxDelayElms w (h :: xs))
    (hlt : (h :: xs).length < maxDelayElms) (hal : h % 4096 = 0) (hb : fld s.mem h .binNum = b)
    (hq : Q h { (s.updDelay i fun d => d.get b) with
      pages := protectPages s.pages h pageSize .readWriteExec
      clock := s.clock + 1
      log := .drained i h :: s.log })
    (he : ∀ s', s'.log = .mprotectFailed :: s.log → E (.abort (.delayFree 68)) s') :
    wp (circGet ctx i) Q E s := by
  unfold circGet
  refine wp_bind (wp_get ?_)
  extract_lets d hdr
  have hne : circEmpty d = false :=
    beq_eq_false_iff_ne.2 fun h0 => List.cons_ne_nil h xs ((hR.empty_iff hlt).1 h0)
  have hhdr : hdr = h := hR.oldest
  have hpos : 0 < d.numDelayed := by
    rw [show d.numDelayed = _ from hR.count_eq, List.length_cons]
    exact Nat.succ_pos _
  clear_value hdr
  subst hhdr
  refine wp_bind (wp_grAssert_of hne (wp_bind (wp_modify (wp_bind (wp_grAssert_of hpos ?_)))))
  refine wp_bind (wp_modify (wp_bind (wp_mprotect ?_ ?_)))
  · refine wp_bind (wp_grAssert_of rfl (wp_bind (wp_ldField ?_ fun x hx => ?_)))
    · have hoff : Field.binNum.off = 8 ∧ pageSize = 4096 := ⟨rfl, rfl⟩
      exact (Accessible.of_protect hal (by simp)).mono (Nat.le_add_right _ _) (by omega)
    · obtain rfl : x = b := hx.trans hb
      refine wp_bind (wp_modify (wp_bind (wp_emit (wp_pure ?_))))
      have hd : ((s.updDelay i fun d => { d with tail := (d.tail + 1) % maxDelayElms }).updDelay i
          fun d => { d with numDelayed := d.numDelayed - 1 }).updDelay i
            (fun d => { d with bytesDelayed := sub64 d.bytesDelayed (2 ^ x) }) =
          s.updDelay i fun d => d.get x := by
        simp only [updDelay_updDelay]
        rfl
      rw [← hd] at hq
      exact hq
  · exact wp_bind (wp_grAssert (fun h0 => absurd h0 (by decide)) fun _ => he _ rfl)

/-- A block goes into or out of a ring. -/
theorem Keeps.ring {e : Event} {f : MemFreeDelay → MemFreeDelay} {pages' : ℕ → Prot} {t : ℕ}
    {C : Option Block} (hX : h ∈ X) (hended : e ≠ .dumpEnded)
    (hblock : ((ledger s.log).step e).block = Function.update (ledger s.log).block h C) :
    Keeps X s { (s.updDelay i f) with pages := pages', clock := t, log := e :: s.log } where
  isInit := rfl
  mutex l := by
    rw [← mutex_updDelay s i f l]
    cases l <;> rfl
  log := .cons hended
  used := le_rfl
  block y A hy hA _ := by
    have hne : y ≠ h := fun hyh => hy (hyh ▸ hX)
    rw [ledger, hblock, Function.update_of_ne hne, hA]
  mem _ _ _ _ _ _ _ _ _ := rfl
  settled y hy := by
    have hne : y ≠ h := fun hyh => hy (hyh ▸ hX)
    exact settledAt_of_not_fixed (by rw [ledger, hblock, Function.update_of_ne hne])

/-- The pages of a block that has left the ring. -/
theorem shape_drained {pages' : ℕ → Prot} (hR : Rep env off s)
    (hring : (ledger s.log).ring i = h :: xs) (hB : (ledger s.log).block h = some B)
    (hlen : maxDelayElms / 4 < (h :: xs).length)
    (hout : ∀ x, x < h ∨ h + B.size ≤ x → pages' (x / 4096) = s.pages (x / 4096))
    (hin : ∀ x, h ≤ x → x < h + B.size → pages' (x / 4096) ≠ .none) (t : ℕ) :
    Rep env off { (s.updDelay i fun d => d.get B.bin) with
      pages := pages', clock := t, log := .drained i h :: s.log } := by
  have hS := hR.shape
  have hL := hR.log_ok.lawful.sound
  have hmem : h ∈ (ledger s.log).ring i := by simp [hring]
  obtain ⟨hp, hs⟩ := (hL.mem_ring_iff hB i).1 hmem
  have hsize := (hL.block_ok h B hB).size_eq (by simp [hp])
  have hlt : xs.length < maxDelayElms := by
    have := hL.ring_le i
    rw [hring, List.length_cons] at this
    exact lt_of_le_of_lt (Nat.le_of_succ_le_succ this) (by decide)
  refine ⟨⟨⟨hR.log_ok.lawful, by simp [hring], hring ▸ hlen⟩, hR.log_ok.dumps.cons (by simp)⟩, ?_⟩
  have hrg := hS.rings i
  rw [hring] at hrg
  have hget := hrg.get hlt (Nat.le_of_lt_succ hlen) hS.layout (n := 2 ^ B.bin) (by rw [Ledger.sizeOf, hB, ← hsize]; rfl)
  have hrings : ((ledger s.log).step (.drained i h)).ring =
      Function.update (ledger s.log).ring i xs := by
    simp only [Ledger.step, Ledger.updRing, Ledger.updBlock, hring, List.tail_cons]
  have hblock : ((ledger s.log).step (.drained i h)).block =
      Function.update (ledger s.log).block h (some { B with place := .held }) :=
    Ledger.block_updBlock hB _
  have key := hS.ring (f := fun d => d.get B.bin) hB (by simp [hp]) hblock rfl rfl hrings
    hget hout fun x hx hx' => iff_of_false (hin x hx hx') (by simp)
  exact key.setLog (.drained i h :: s.log) t

theorem delayFreeOne_spec (hctx : ctx.Ok env) (hc : InCall env F off X s₀ s)
    (hring : (ledger s.log).ring i = h :: xs) (hlen : maxDelayElms / 4 < (h :: xs).length) :
    wp (delayFreeOne ctx i)
      (fun _ s' => InCall env F off X s₀ s' ∧ (ledger s'.log).ring i = xs)
      (Halted env F G) s := by
  have hS := hc.rep.shape
  have hL := hc.rep.log_ok.lawful.sound
  obtain ⟨B, hB, hp, hs⟩ := (hL.mem_ring i h).1 (by simp [hring])
  have hh := hS.layout.block_bounds hB
  have hH := hS.blocks h B hB (by simp [hp])
  have hsize := (hL.block_ok h B hB).size_eq (by simp [hp])
  have hrg := hS.rings i
  rw [hring] at hrg
  have hlt : (h :: xs).length < maxDelayElms := by
    have := hL.ring_le i
    rw [hring] at this
    exact lt_of_le_of_lt this (by decide)
  have hbin40 : B.bin < maxAllocPower := hc.rep.bin_lt hB (by simp [hp])
  have hlogok : LogOk env (.drained i h :: s.log) :=
    ⟨⟨hc.rep.log_ok.lawful, by simp [hring], hring ▸ hlen⟩, hc.rep.log_ok.dumps.cons (by simp)⟩
  unfold delayFreeOne
  refine wp_bind (wp_circGet hrg.holds hlt hh.2.1 hH.binNum ?_ fun s' hlog => ?_)
  · refine wp_bind (wp_ldField ?_ fun b hb => ?_)
    · have hoff : Field.binNum.off = 8 ∧ pageSize = 4096 := ⟨rfl, rfl⟩
      exact (Accessible.of_protect hh.2.1 (by simp)).mono (Nat.le_add_right _ _) (by omega)
    obtain rfl : b = B.bin := hb.trans hH.binNum
    refine wp_ite (fun hge => absurd hge (not_le.2 hbin40)) fun _ => ?_
    extract_lets rest
    -- the whole block is open: the list gets it
    have hrest : ∀ pages' t,
        (∀ x, x < h ∨ h + B.size ≤ x → pages' (x / 4096) = s.pages (x / 4096)) →
        (∀ x, h ≤ x → x < h + B.size → pages' (x / 4096) ≠ .none) →
        wp (rest ()) (fun _ s' => InCall env F off X s₀ s' ∧ (ledger s'.log).ring i = xs)
          (Halted env F G) { (s.updDelay i fun d => d.get B.bin) with
            pages := pages', clock := t, log := .drained i h :: s.log } := by
      intro pages' t hout hin
      have hR₁ := shape_drained hc.rep hring hB hlen hout hin t
      have hblock : ((ledger s.log).step (.drained i h)).block =
          Function.update (ledger s.log).block h (some { B with place := .held }) :=
        Ledger.block_updBlock hB _
      obtain ⟨s₁, hs₁⟩ : ∃ s₁ : Heap, s₁ = { (s.updDelay i fun d => d.get B.bin) with
        pages := pages', clock := t, log := .drained i h :: s.log } := ⟨_, rfl⟩
      have hlog₁ : s₁.log = .drained i h :: s.log := by rw [hs₁]
      have hK₁ : Keeps {h} s s₁ := hs₁ ▸ .ring (Set.mem_singleton h) (by simp) hblock
      rw [← hs₁] at hR₁ ⊢
      clear hs₁
      have hB₁ : (ledger s₁.log).block h = some { B with place := .held } := by
        rw [hlog₁, ledger, hblock, Function.update_self]
      refine wp_bind_of (insertElmHead_spec (r := ⟨.free, i, B.bin⟩) hctx hR₁ hB₁ rfl hs rfl) ?_
      rintro _ s₂ ⟨hR₂, hK₂, hlog₂⟩
      have hc₂ := ((InCall.refl hc.rep hc.ready).trans hR₁ hK₁).trans hR₂ hK₂
      have hcounts := hR₂.shape.counts.numFree_succ (i := i) (b := B.bin)
      rw [show HeadRef.counter ⟨.free, i, B.bin⟩ = .free i B.bin from rfl, Off.add_add,
        neg_add_cancel, Off.add_zero] at hcounts
      refine wp_count hc₂ (.updBin ⟨fun _ => rfl, fun _ => rfl⟩) rfl rfl rfl hcounts
        fun s₃ hc₃ _ hlog₃ => ⟨hc.trans hc₃.rep ((hc₃.keeps.absorb (fun A hA hF => ?_) ?_).mono
          (Set.empty_subset X)), ?_⟩
      · obtain rfl := Option.some.inj (hB.symm.trans hA)
        rcases hF with hF | hF | hF <;> simp [hp] at hF
      · refine .of_block (B := { B with place := .on .free }) ?_ (.inl rfl)
        rw [hlog₃, hlog₂, ledger, step_linked_block hB₁, Function.update_self]
      · rw [hlog₃, hlog₂, hlog₁]
        simp [ledger, Ledger.step, Ledger.updRing, Ledger.updBlock, Ledger.updList, hring]
    have hout₁ : ∀ x, x < h ∨ h + B.size ≤ x →
        protectPages s.pages h pageSize .readWriteExec (x / 4096) = s.pages (x / 4096) :=
      fun x hx => protectPages_of_notMem hh.2.1 rfl (by
        have hpg : pageSize = 4096 := rfl
        omega)
    refine wp_ite (fun hbig => ?_) fun hsmall => ?_
    · refine wp_bind (wp_mprotect ?_ ?_)
      · refine wp_bind (wp_grAssert_of rfl (hrest _ _ (fun x hx => ?_) fun x hx hx' => ?_))
        · rw [← hsize]
          exact (protectPages_of_notMem hh.2.1 hh.2.2.2.1 hx).trans (hout₁ x hx)
        · rw [← hsize, protectPages_of_mem hh.2.1 hx hx']
          simp
      · exact wp_bind (wp_grAssert (fun h0 => absurd h0 (by decide)) fun _ =>
          hlogok.refused (e := .mprotectFailed) trivial trivial rfl (by simp) (by simp))
    · refine hrest _ _ hout₁ fun x hx hx' => ?_
      have hpg : pageSize = 4096 := rfl
      rw [protectPages_of_mem hh.2.1 hx (by omega)]
      simp
  · exact hc.rep.log_ok.refused (e := .mprotectFailed) trivial trivial hlog (by simp) (by simp)

theorem delayFreeLoop_spec (hctx : ctx.Ok env) (fuel : ℕ) (hc : InCall env F off X s₀ s)
    (hring : (ledger s.log).ring i = xs) (hlt : xs.length < maxDelayElms) (hfuel : xs.length < fuel) :
    wp (delayFreeLoop ctx i fuel)
      (fun _ s' => InCall env F off X s₀ s' ∧
        ((ledger s'.log).ring i).length ≤ maxDelayElms / 4)
      (Halted env F G) s := by
  induction fuel generalizing s xs with
  | zero => exact absurd hfuel (Nat.not_lt_zero _)
  | succ fuel ih =>
      have hrg := hc.rep.shape.rings i
      rw [hring] at hrg
      unfold delayFreeLoop
      refine wp_bind (wp_circCount hrg.holds hlt ?_)
      refine wp_ite (fun hbig => ?_) fun hsmall => wp_pure ⟨hc, hring ▸ not_lt.1 hsmall⟩
      cases xs with
      | nil => exact absurd hbig (Nat.not_lt_zero _)
      | cons h xs =>
          refine wp_bind_of (delayFreeOne_spec hctx hc hring hbig) ?_
          rintro _ s₁ ⟨hc₁, hring₁⟩
          rw [List.length_cons] at hlt hfuel
          exact ih hc₁ hring₁ (by omega) (by omega)

theorem wp_circPut {Q : Unit → Heap → Prop} {b : ℕ}
    (hR : (s.memSlots i).delay.ring.Holds maxDelayElms w xs) (hlt : xs.length + 1 < maxDelayElms)
    (hb : fld s.mem h .binNum = b)
    (he : ¬ Accessible s.pages (h + Field.binNum.off) 8 → ∀ s', E (.fault (h + Field.binNum.off)) s')
    (hq : Q () { (s.updDelay i fun d => d.put h b) with log := .delayed i h :: s.log }) :
    wp (circPut i h) Q E s := by
  unfold circPut
  refine wp_bind (wp_get ?_)
  extract_lets d
  have hfull : circFull d = false := beq_eq_false_iff_ne.2 (hR.not_full hlt)
  refine wp_bind (wp_grAssert_of hfull (wp_bind (wp_modify ?_)))
  by_cases hacc : Accessible s.pages (h + Field.binNum.off) 8
  case neg => exact wp_bind (wp_load64 (fun h => absurd h hacc) fun _ => he hacc _)
  refine wp_bind (wp_ldField hacc fun x hx => ?_)
  obtain rfl : x = b := hx.trans hb
  refine wp_bind (wp_modify (wp_emit ?_))
  have hd : (s.updDelay i fun d => { d with
        elms := Function.update d.elms d.head h
        head := (d.head + 1) % maxDelayElms
        numDelayed := (d.numDelayed + 1) % 2 ^ 64 }).updDelay i
        (fun d => { d with bytesDelayed := (d.bytesDelayed + 2 ^ x) % 2 ^ 64 }) =
      s.updDelay i fun d => d.put h x := updDelay_updDelay ..
  rw [← hd] at hq
  exact hq

theorem delayPut_spec (hctx : ctx.Ok env) (hc : InCall env F off X s₀ s) (hX : h ∈ X)
    (hB : (ledger s.log).block h = some B) (hp : B.place = .held) (hs : B.slot = i)
    (hslot : i < env.args.numSlots) (hlock : (s.mutex (.slot i)).locked = true) :
    wp (delayPut ctx i h)
      (fun _ s' => InCall env F off X s₀ s' ∧
        (ledger s'.log).block h = some { B with place := .ring } ∧
        ∃ l, s'.log = .delayed i h :: l ∧ s.log <:+ l)
      (Halted env F G) s := by
  have hcount : 0 < (s.mutex (.slot i)).count := by
    have hm := (hc.rep.shape.locks.slot i).count
    rw [hc.rep.shape.args_eq] at hm
    exact hm.2 ⟨hlock, decide_eq_true hslot⟩
  have hlen := hc.rep.log_ok.lawful.sound.ring_le i
  have hlt : ((ledger s.log).ring i).length < maxDelayElms := lt_of_le_of_lt hlen (by decide)
  unfold delayPut
  refine wp_bind (wp_verifyLocked (wp_bind (wp_grAssert_of (decide_eq_true hcount) ?_)))
  refine wp_bind (wp_circCount (hc.rep.shape.rings i).holds hlt ?_)
  extract_lets rest
  -- the ring has room
  have hrest : ∀ s₁, InCall env F off ∅ s s₁ →
      ((ledger s₁.log).ring i).length ≤ maxDelayElms / 2 →
      wp (rest ()) (fun _ s' => InCall env F off X s₀ s' ∧
        (ledger s'.log).block h = some { B with place := .ring } ∧
        ∃ l, s'.log = .delayed i h :: l ∧ s.log <:+ l) (Halted env F G) s₁ := by
    intro s₁ hc₁ hlen₁
    have hR₁ := hc₁.rep
    have hS := hR₁.shape
    have hB₁ := hc₁.keeps.block h B (Set.notMem_empty h) hB (.inr (.inl hp))
    have hh := hS.layout.block_bounds hB₁
    have hH := hS.blocks h B hB₁ (by simp [hp])
    have hsize := (hR₁.log_ok.lawful.sound.block_ok h B hB₁).size_eq (by simp [hp])
    have hopen := hS.field_open hB₁ (by simp [hp]) .binNum
    have hblock : ((ledger s₁.log).step (.delayed i h)).block =
        Function.update (ledger s₁.log).block h (some { B with place := .ring }) :=
      Ledger.block_updBlock hB₁ _
    have hlogok : LogOk env (.delayed i h :: s₁.log) :=
      ⟨⟨hR₁.log_ok.lawful, hlen₁, B, hB₁, hp, hs⟩, hR₁.log_ok.dumps.cons (by simp)⟩
    refine wp_bind (wp_circPut (hS.rings i).holds ?_ hH.binNum (fun hn => absurd hopen hn) ?_)
    · exact lt_of_le_of_lt (Nat.succ_le_succ hlen₁) (by decide)
    refine wp_bind (wp_ldField hopen fun b hb => ?_)
    obtain rfl : b = B.bin := hb.trans hH.binNum
    refine wp_bind (wp_mprotect (wp_grAssert_of rfl ?_) ?_)
    · rw [← hsize]
      have hput := (hS.rings i).put hlen₁ hS.layout (n := 2 ^ B.bin)
        (by rw [Ledger.sizeOf, hB₁, ← hsize]; rfl)
      have hshape := hS.ring (f := fun d => d.put h B.bin) hB₁ (by simp [hp]) hblock rfl rfl rfl hput
        (fun x hx => protectPages_of_notMem hh.2.1 hh.2.2.2.1 hx) (shut_protect hh.2.1)
      have hc₂ : InCall env F off X s₀ { (s₁.updDelay i fun d => d.put h B.bin) with
          pages := protectPages s₁.pages h B.size .none
          clock := s₁.clock + 1
          log := .delayed i h :: s₁.log } :=
        hc.trans ⟨hlogok, hshape.setLog _ _⟩
          ((hc₁.keeps.mono (Set.empty_subset X)).trans (.ring hX (by simp) hblock))
      refine ⟨hc₂, ?_, s₁.log, rfl, hc₁.keeps.log.suffix⟩
      change (ledger (.delayed i h :: s₁.log)).block h = _
      rw [ledger, hblock, Function.update_self]
    · exact wp_grAssert (fun h0 => absurd h0 (by decide)) fun _ =>
        hlogok.refused (e := .mprotectFailed) trivial trivial rfl (by simp) (by simp)
  refine wp_ite (fun hbig => ?_) fun hsmall => hrest s (.refl hc.rep hc.ready) (not_lt.1 hsmall)
  unfold delayFreeBatch
  refine wp_bind_of (delayFreeLoop_spec (X := ∅) hctx maxDelayElms (.refl hc.rep hc.ready) rfl hlt hlt) ?_
  rintro _ s₁ ⟨hc₁, hlen₁⟩
  exact hrest s₁ hc₁ (hlen₁.trans (by decide))

end GuardRails
