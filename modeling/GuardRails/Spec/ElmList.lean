import GuardRails.Invariant.Links
import GuardRails.Model.ElmList
import GuardRails.Spec.Frame

/-!
# `insertElmHead` and `rmElm` move a held block

Inside the two functions the links are half way, so no signal arrives there; behind the
last link of `rmElm` a signal is safe again.
-/

namespace GuardRails

open ByteMemory StateHoare

variable {env : Env} {off : Off} {L : Ledger} {s s' s₀ : Heap} {X : Set ℕ} {F G : Prop}
  {h : ℕ} {B : Block} {ctx : Ctx} {r : HeadRef}

theorem Shape.field_open (hS : Shape env off L s) (hB : L.block h = some B)
    (hp : B.place ≠ .ring) (f : Field) : Accessible s.pages (h + f.off) 8 := by
  have h1 := f.off_le
  have h2 := hS.layout.block_bounds hB
  exact (hS.pages.opened h B hB hp).mono (by omega) (by omega)

theorem wp_getHead {Q : ℕ → Heap → Prop} {E : Halt → Heap → Prop} (hq : Q (s.head r) s) :
    wp (getHead r) Q E s :=
  wp_bind (wp_get (wp_pure hq))

theorem wp_putHead {x : ℕ} {Q : Unit → Heap → Prop} {E : Halt → Heap → Prop}
    (hq : Q () (s.setHead r x)) : wp (putHead r x) Q E s :=
  wp_modify hq

/-- A move that writes links of the moved block and of blocks on lists keeps the other
blocks. -/
theorem Keeps.move {e : Event} {m' : Mem} {x : ℕ} {T : Set ℕ}
    (hY : Layout s.memPools (ledger s.log))
    (hT : ∀ y ∈ T, ∃ A, (ledger s.log).block y = some A ∧ (y = h ∨ ∃ k, A.place = .on k))
    (hm : ∀ z, (∀ y ∈ T, z < y + 48 ∨ y + 64 ≤ z) → m' z = s.mem z)
    (hblock : ∀ y, y ≠ h → ((ledger s.log).step e).block y = (ledger s.log).block y)
    (hended : e ≠ .dumpEnded) :
    Keeps {h} s { (s.setHead r x) with mem := m', log := e :: s.log } where
  isInit := rfl
  mutex l := by
    rw [← mutex_setHead s r x l]
    cases l <;> rfl
  log := .cons hended
  used := le_rfl
  block y A hy hA _ := by
    rw [ledger, hblock y hy]
    exact hA
  mem y A hy hA hF z hz hz' hlink := by
    refine hm z fun w hw => ?_
    obtain ⟨C, hC, hwh⟩ := hT w hw
    have h1 := hY.block_bounds hC
    by_cases hwy : w = y
    · subst hwy
      obtain rfl := Option.some.inj (hA.symm.trans hC)
      rcases hwh with rfl | ⟨k, hk⟩
      · exact absurd rfl hy
      · refine hlink ?_
        rcases hF with hF | hF | hF
        · simp [hk] at hF
        · simp [hk] at hF
        · exact hF
    · have h2 := hY.notMem hC hA (Ne.symm hwy) hz (by omega)
      omega
  settled y hy := settledAt_of_not_fixed (by rw [ledger, hblock y hy])

theorem step_linked_block (hB : L.block h = some B) :
    (L.step (.linked r h)).block = Function.update L.block h (some { B with place := .on r.kind }) :=
  Ledger.block_updBlock hB _

theorem step_unlinked_block (hB : L.block h = some B) :
    (L.step (.unlinked r h)).block = Function.update L.block h (some { B with place := .held }) :=
  Ledger.block_updBlock hB _

theorem insertElmHead_spec (hctx : ctx.Ok env) (hR : Rep env off s)
    (hB : (ledger s.log).block h = some B) (hp : B.place = .held) (hs : B.slot = r.slot)
    (hb : B.bin = r.bin) :
    wp (insertElmHead ctx r h)
      (fun _ s' => Rep env (off.add r.counter (-1)) s' ∧ Keeps {h} s s' ∧
        s'.log = .linked r h :: s.log)
      (Halted env F G) s := by
  have hS := hR.shape
  have henv := hS.env_ok
  have hL := hR.log_ok.lawful.sound
  have hh := hS.layout.block_bounds hB
  have hopen := hS.field_open hB (by simp [hp])
  have hnl : ∀ r, h ∉ (ledger s.log).list r := fun r hr => by simp [hL.mem_list_iff hB, hp] at hr
  have hhead : s.head r ≠ 0 → ∃ A, (ledger s.log).block (s.head r) = some A ∧
      A.place = .on r.kind := by
    intro h0
    obtain ⟨A, hA, hp, -⟩ := (hL.mem_list r _).1 ((hS.lists r).head_mem h0)
    exact ⟨A, hA, hp⟩
  have hhead_lt : s.head r < 2 ^ 64 := by
    by_cases h0 : s.head r = 0
    · omega
    · obtain ⟨A, hA, -⟩ := hhead h0
      have := hS.layout.block_bounds hA
      omega
  unfold insertElmHead
  refine wp_bind (wp_getHead ?_)
  extract_lets rest
  -- what is left to do once the old head, if any, leads back to the new one
  have hrest : ∀ m₁, (∀ z, (s.head r ≠ 0 → z < s.head r + 48 ∨ s.head r + 64 ≤ z) →
        m₁ z = s.mem z) →
      (∀ x, x % 4096 = 0 → x ≠ 0 → fld m₁ x .next = fld s.mem x .next ∧
        fld m₁ x .prev = if x = s.head r then h else fld s.mem x .prev) →
      wp (rest ()) (fun _ s' => Rep env (off.add r.counter (-1)) s' ∧ Keeps {h} s s' ∧
        s'.log = .linked r h :: s.log) (Halted env F G) { s with mem := m₁ } := by
    intro m₁ hout hfld
    have hlinks : ∀ z, (∀ y ∈ ({x | x = h ∨ x = s.head r ∧ x ≠ 0} : Set ℕ),
        z < y + 48 ∨ y + 64 ≤ z) →
        setWord (setWord m₁ (h + Field.next.off) (s.head r)) (h + Field.prev.off) 0 z =
          s.mem z := by
      intro z hz
      have hzh := hz h (.inl rfl)
      have hoff : Field.next.off = 48 ∧ Field.prev.off = 56 := ⟨rfl, rfl⟩
      rw [setWord_of_notMem (by omega), setWord_of_notMem (by omega)]
      exact hout z fun h0 => hz _ (.inr ⟨rfl, h0⟩)
    have hblocks : ∀ y ∈ ({x | x = h ∨ x = s.head r ∧ x ≠ 0} : Set ℕ),
        ∃ A, (ledger s.log).block y = some A ∧ (y = h ∨ ∃ k, A.place = .on k) := by
      rintro y (rfl | ⟨rfl, h0⟩)
      · exact ⟨B, hB, .inl rfl⟩
      · obtain ⟨A, hA, hAp⟩ := hhead h0
        exact ⟨A, hA, .inr ⟨_, hAp⟩⟩
    refine wp_bind (wp_poll_critical hctx henv (by decide) ?_)
    refine wp_bind (wp_getHead (wp_bind (wp_stField (hopen _) ?_)))
    refine wp_bind (wp_poll_critical hctx henv (by decide) ?_)
    refine wp_bind (wp_stField (hopen _) ?_)
    refine wp_bind (wp_poll_critical hctx henv (by decide) ?_)
    refine wp_bind (wp_putHead (wp_emit ?_))
    refine ⟨⟨⟨⟨hR.log_ok.lawful, B, hB, hp, hs, hb⟩, hR.log_ok.dumps.cons (by simp)⟩, ?_⟩, ?_, rfl⟩
    · refine (hS.link hL hB hp (fun z hz => hlinks z fun y hy => ?_) ?_ ?_).setLog _ _
      · obtain ⟨A, hA, -⟩ := hblocks y hy
        exact hz y A hA
      · intro x A hA
        have hx := hS.layout.block_bounds hA
        obtain ⟨hn, -⟩ := hfld x hx.2.1 (by omega)
        rw [fld_setWord hh.2.1 hx.2.1, fld_setWord hh.2.1 hx.2.1, hn,
          Nat.mod_eq_of_lt hhead_lt]
        simp
      · intro x A hA
        have hx := hS.layout.block_bounds hA
        obtain ⟨-, hpv⟩ := hfld x hx.2.1 (by omega)
        rw [fld_setWord hh.2.1 hx.2.1, fld_setWord hh.2.1 hx.2.1, hpv]
        simp
    · refine Keeps.move hS.layout hblocks hlinks (fun y hy => ?_) nofun
      rw [step_linked_block hB, Function.update_of_ne hy]
  refine wp_ite (fun h0 => ?_) fun h0 => ?_
  · obtain ⟨A, hA, hAp⟩ := hhead h0
    have hhd := hS.layout.block_bounds hA
    refine wp_bind (wp_poll_critical hctx henv (by decide) ?_)
    refine wp_bind (wp_getHead (wp_bind (wp_stField (hS.field_open hA (by simp [hAp]) _) ?_)))
    refine hrest _ (fun z hz => ?_) fun x hx hx0 => ?_
    · have hoff : Field.prev.off = 56 := rfl
      have := hz h0
      exact setWord_of_notMem (by omega)
    · rw [fld_setWord hhd.2.1 hx, fld_setWord hhd.2.1 hx, Nat.mod_eq_of_lt (by omega : h < 2 ^ 64)]
      simp
  · refine hrest s.mem (fun z _ => rfl) fun x hx hx0 => ⟨rfl, ?_⟩
    rw [if_neg]
    omega

theorem setHead_head (s : Heap) (r : HeadRef) : s.setHead r (s.head r) = s := by
  obtain ⟨k, i, b⟩ := r
  cases k <;>
    simp only [Heap.setHead, Heap.head, Heap.updBin, Heap.updSlot, Heap.bin,
      Function.update_eq_self]

/-- A write into a block that the function has in its hands. -/
theorem InCall.write (hc : InCall env F off X s₀ s) (hX : h ∈ X)
    (hB : (ledger s.log).block h = some B) {m' : Mem}
    (hout : ∀ x, x < h ∨ h + B.size ≤ x → m' x = s.mem x)
    (hlinks : (∃ k, B.place = .on k) → ∀ x, h + 48 ≤ x → x < h + 64 → m' x = s.mem x)
    (hhdr : B.place ≠ .raw → HeaderOk env.args m' h B) :
    InCall env F off X s₀ { s with mem := m' } := by
  have hS := hc.rep.shape
  refine hc.trans ⟨hc.rep.log_ok, hS.write hc.rep.log_ok.lawful.sound hB hout hlinks hhdr⟩ ?_
  refine
    { isInit := rfl
      mutex := fun l => by cases l <;> rfl
      log := .refl
      used := le_rfl
      block := fun _ _ _ hA _ => hA
      mem := fun y A hy hA hF z hz hz' _ => ?_
      settled := fun _ _ => settledAt_of_not_fixed rfl }
  have hne : y ≠ h := fun hyh => hy (hyh ▸ hX)
  have := hS.layout.notMem hB hA hne hz (by omega)
  exact hout z (by omega)

/-- Storing into a link of a held block. -/
theorem wp_stField_held {f : Field} {v : ℕ} {Q : Unit → Heap → Prop}
    (hc : InCall env F off X s₀ s) (hX : h ∈ X) (hB : (ledger s.log).block h = some B)
    (hp : B.place = .held) (hf : 48 ≤ f.off)
    (hq : InCall env F off X s₀ { s with mem := setWord s.mem (h + f.off) v } →
      Q () { s with mem := setWord s.mem (h + f.off) v }) :
    wp (stField h f v) Q (Halted env F G) s := by
  have hS := hc.rep.shape
  have hh := hS.layout.block_bounds hB
  have hf' := f.off_le
  refine wp_stField (hS.field_open hB (by simp [hp]) _) (hq ?_)
  refine hc.write hX hB (fun x hx => setWord_of_notMem (by omega)) (by simp [hp]) fun _ => ?_
  refine (hS.blocks h B hB (by simp [hp])).congr hS.env_ok.args hh.2.2.1 fun y hy hy' hl => ?_
  exact setWord_of_notMem (by omega)

theorem rmElm_spec (hctx : ctx.Ok env) (hc : InCall env F off X s₀ s) (hX : h ∈ X)
    (hB : (ledger s.log).block h = some B) (hmem : h ∈ (ledger s.log).list r)
    (hlive : B.live = false) (hreq : B.request = none) :
    wp (rmElm ctx r h)
      (fun _ s' => InCall env F (off.add r.counter 1) X s₀ s' ∧
        (ledger s'.log).block h = some { B with place := .held })
      (Halted env F G) s := by
  have hR := hc.rep
  have hS := hR.shape
  have henv := hS.env_ok
  have hL := hR.log_ok.lawful.sound
  obtain ⟨hp, hs, hb⟩ := (hL.mem_list_iff hB r).1 hmem
  have hh := hS.layout.block_bounds hB
  have hopen := hS.field_open hB (by simp [hp])
  have hl : HeaderList s.mem (s.head r) ((ledger s.log).list r) := hS.lists r
  set nx := fld s.mem h .next with hnx
  set pv := fld s.mem h .prev with hpv
  have hnx_lt : nx < 2 ^ 64 := fld_lt
  have hpv_lt : pv < 2 ^ 64 := fld_lt
  have hlisted : ∀ y, y = pv ∨ y = nx → y ≠ 0 → ∃ A, (ledger s.log).block y = some A ∧
      A.place = .on r.kind := by
    rintro y hy h0
    have hyl : y ∈ (ledger s.log).list r := by
      rcases hy with rfl | rfl
      · exact (hl.prev_mem hmem).resolve_left h0
      · exact (hl.next_mem hmem).resolve_left h0
    obtain ⟨A, hA, hAp, -⟩ := (hL.mem_list r y).1 hyl
    exact ⟨A, hA, hAp⟩
  have haligned : ∀ y, y = pv ∨ y = nx → y % 4096 = 0 := by
    intro y hy
    by_cases h0 : y = 0
    · rw [h0]
    · obtain ⟨A, hA, -⟩ := hlisted y hy h0
      exact (hS.layout.block_bounds hA).2.1
  obtain ⟨x, hx⟩ : ∃ x, x = if s.head r = h then nx else s.head r := ⟨_, rfl⟩
  have hunlink := fun m' (hm : LinksOnly _ s.mem m') => hS.unlink (r := r) hL hB hmem hm
  rw [← hnx, ← hpv, ← hx] at hunlink
  clear_value nx pv
  unfold rmElm
  refine wp_bind (wp_getHead ?_)
  extract_lets rest₃ rest₂ rest₁
  -- behind the last link the block is held, and signals are safe again
  have hrest₃ : ∀ m₂,
      (∀ z, (∀ y ∈ ({y | (y = pv ∨ y = nx) ∧ y ≠ 0} : Set ℕ), z < y + 48 ∨ y + 64 ≤ z) →
        m₂ z = s.mem z) →
      (∀ y, y % 4096 = 0 → y ≠ 0 →
        fld m₂ y .next = (if y = pv then nx else fld s.mem y .next) ∧
        fld m₂ y .prev = if y = nx then pv else fld s.mem y .prev) →
      wp (rest₃ ()) (fun _ s' => InCall env F (off.add r.counter 1) X s₀ s' ∧
        (ledger s'.log).block h = some { B with place := .held }) (Halted env F G)
        { (s.setHead r x) with mem := m₂ } := by
    intro m₂ hout hfld
    have hT : ∀ y ∈ ({y | (y = pv ∨ y = nx) ∧ y ≠ 0} : Set ℕ),
        ∃ A, (ledger s.log).block y = some A ∧ (y = h ∨ ∃ k, A.place = .on k) := by
      rintro y ⟨hy, h0⟩
      obtain ⟨A, hA, hAp⟩ := hlisted y hy h0
      exact ⟨A, hA, .inr ⟨_, hAp⟩⟩
    refine wp_bind (wp_emit ?_)
    have hR₁ : Rep env (off.add r.counter 1)
        { (s.setHead r x) with mem := m₂, log := .unlinked r h :: s.log } := by
      refine ⟨⟨⟨hR.log_ok.lawful, B, hB, hp, hs, hb, hlive, hreq⟩,
        hR.log_ok.dumps.cons (by simp)⟩, ?_⟩
      refine (hunlink m₂ (fun z hz => hout z fun y hy => ?_) ?_ ?_).setLog _ _
      · obtain ⟨A, hA, -⟩ := hT y hy
        exact hz y A hA
      · intro y A hA
        have hy := hS.layout.block_bounds hA
        exact (hfld y hy.2.1 (by omega)).1
      · intro y A hA
        have hy := hS.layout.block_bounds hA
        exact (hfld y hy.2.1 (by omega)).2
    have hK₁ : Keeps {h} s { (s.setHead r x) with mem := m₂, log := .unlinked r h :: s.log } := by
      refine Keeps.move hS.layout hT hout (fun y hy => ?_) nofun
      rw [step_unlinked_block hB, Function.update_of_ne hy]
    have hB₁ : (ledger (.unlinked r h :: s.log)).block h = some { B with place := .held } := by
      rw [ledger, step_unlinked_block hB, Function.update_self]
    have hc₁ := hc.trans hR₁ (hK₁.mono (by simpa using hX))
    refine wp_bind (wp_poll_safe hctx hc₁ fun s₂ hc₂ hK₂ => ?_)
    have hB₂ := hK₂.block h _ (by simp) hB₁ (.inr (.inl rfl))
    refine wp_bind (wp_stField_held hc₂ hX hB₂ rfl (by decide) fun hc₃ => ?_)
    refine wp_bind (wp_poll_safe hctx hc₃ fun s₄ hc₄ hK₄ => ?_)
    have hB₄ := hK₄.block h _ (by simp) hB₂ (.inr (.inl rfl))
    exact wp_stField_held hc₄ hX hB₄ rfl (by decide) fun hc₅ => ⟨hc₅, hB₄⟩
  have hpages : (s.setHead r x).pages = s.pages := rfl
  have hrest₂ : ∀ m₁,
      (∀ z, (pv ≠ 0 → z < pv + 48 ∨ pv + 64 ≤ z) → m₁ z = s.mem z) →
      (∀ y, y % 4096 = 0 → y ≠ 0 →
        fld m₁ y .next = (if y = pv then nx else fld s.mem y .next) ∧
        fld m₁ y .prev = fld s.mem y .prev) →
      wp (rest₂ ()) (fun _ s' => InCall env F (off.add r.counter 1) X s₀ s' ∧
        (ledger s'.log).block h = some { B with place := .held }) (Halted env F G)
        { (s.setHead r x) with mem := m₁ } := by
    intro m₁ hout hfld
    obtain ⟨hn, hv⟩ := hfld h hh.2.1 (by omega)
    have hn' : fld m₁ h .next = nx := by rw [hn, ← hnx, ite_self]
    have hv' : fld m₁ h .prev = pv := hv.trans hpv.symm
    refine wp_bind (wp_poll_critical hctx henv (by decide) ?_)
    refine wp_bind (wp_ldField (hopen _) fun w hw => ?_)
    obtain rfl : w = nx := hw.trans hn'
    refine wp_ite (fun h0 => ?_) fun h0 => ?_
    · obtain ⟨A, hA, hAp⟩ := hlisted w (.inr rfl) h0
      refine wp_bind (wp_poll_critical hctx henv (by decide) ?_)
      refine wp_bind (wp_ldField (hopen _) fun w' hw' => ?_)
      obtain rfl : w' = w := hw'.trans hn'
      refine wp_bind (wp_ldField (hopen _) fun v hv => ?_)
      obtain rfl : v = pv := hv.trans hv'
      refine wp_bind (wp_stField (hS.field_open hA (by simp [hAp]) _) ?_)
      refine hrest₃ _ (fun z hz => ?_) fun y hy hy0 => ?_
      · have := hz w' ⟨.inr rfl, h0⟩
        have hoff : Field.prev.off = 56 := rfl
        rw [setWord_of_notMem (by omega)]
        exact hout z fun h0' => hz v ⟨.inl rfl, h0'⟩
      · obtain ⟨hyn, hyp⟩ := hfld y hy hy0
        have hal := haligned w' (.inr rfl)
        rw [fld_setWord hal hy, fld_setWord hal hy, hyn, hyp, Nat.mod_eq_of_lt hpv_lt]
        simp
    · have h0' : w = 0 := not_not.1 h0
      refine hrest₃ m₁ (fun z hz => hout z fun h1 => hz pv ⟨.inl rfl, h1⟩) fun y hy hy0 => ?_
      obtain ⟨hyn, hyp⟩ := hfld y hy hy0
      refine ⟨hyn, ?_⟩
      rw [hyp, if_neg (h0' ▸ hy0)]
  have hrest₁ : wp (rest₁ ()) (fun _ s' => InCall env F (off.add r.counter 1) X s₀ s' ∧
      (ledger s'.log).block h = some { B with place := .held }) (Halted env F G)
      (s.setHead r x) := by
    refine wp_bind (wp_poll_critical hctx henv (by decide) ?_)
    refine wp_bind (wp_ldField (hopen _) fun v hv => ?_)
    obtain rfl : v = pv := hv.trans hpv.symm
    refine wp_ite (fun h0 => ?_) fun h0 => ?_
    · obtain ⟨A, hA, hAp⟩ := hlisted v (.inl rfl) h0
      refine wp_bind (wp_poll_critical hctx henv (by decide) ?_)
      refine wp_bind (wp_ldField (hopen _) fun v' hv' => ?_)
      obtain rfl : v' = v := hv'.trans hpv.symm
      refine wp_bind (wp_ldField (hopen _) fun w hw => ?_)
      obtain rfl : w = nx := hw.trans hnx.symm
      refine wp_bind (wp_stField (hS.field_open hA (by simp [hAp]) _) ?_)
      refine hrest₂ _ (fun z hz => ?_) fun y hy hy0 => ?_
      · have := hz h0
        have hoff : Field.next.off = 48 := rfl
        exact setWord_of_notMem (by omega)
      · have hal := haligned v' (.inl rfl)
        change fld (setWord s.mem (v' + Field.next.off) w) y .next = _ ∧
          fld (setWord s.mem (v' + Field.next.off) w) y .prev = _
        rw [fld_setWord hal hy, fld_setWord hal hy, Nat.mod_eq_of_lt hnx_lt]
        simp
    · have h0' : v = 0 := not_not.1 h0
      refine hrest₂ s.mem (fun z _ => rfl) fun y hy hy0 => ⟨?_, rfl⟩
      rw [if_neg (h0' ▸ hy0)]
  refine wp_ite (fun h0 => ?_) fun h0 => ?_
  · rw [hx, if_pos h0] at hrest₁
    refine wp_bind (wp_poll_critical hctx henv (by decide) ?_)
    refine wp_bind (wp_ldField (hopen _) fun w hw => ?_)
    obtain rfl : w = nx := hw.trans hnx.symm
    exact wp_bind (wp_putHead hrest₁)
  · rw [hx, if_neg h0, setHead_head] at hrest₁
    exact hrest₁

end GuardRails
