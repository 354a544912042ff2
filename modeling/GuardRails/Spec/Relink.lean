import GuardRails.Spec.ElmList

/-!
# What `insertElmHead` and `rmElm` write

When no signal arrives the two functions are a few stores. They are told here for any headers
that lie apart, whether or not their links make up a list.
-/

namespace GuardRails

open ByteMemory IntrusiveList StateHoare

variable {env : Env} {s : Heap} {m m' : Mem} {h k t head : ℕ} {ctx : Ctx} {r r' : HeadRef}
  {headers : Set ℕ} {E : Halt → Heap → Prop}

/-- The headers lie apart from each other, in memory that may be accessed. -/
structure HeadersOk (headers : Set ℕ) (s : Heap) : Prop where
  pos : ∀ h ∈ headers, h ≠ 0
  lt : ∀ h ∈ headers, h < 2 ^ 64
  apart : ∀ h ∈ headers, ∀ k ∈ headers, h ≠ k → h + 64 ≤ k ∨ k + 64 ≤ h
  accessible : ∀ h ∈ headers, Accessible s.pages h 64

theorem HeadersOk.field (hH : HeadersOk headers s) (hh : h ∈ headers) (f : Field) :
    Accessible s.pages (h + f.off) 8 :=
  (hH.accessible h hh).mono (Nat.le_add_right _ _) (by have := f.off_le; omega)

theorem HeadersOk.fld_setWord (hH : HeadersOk headers s) (hh : h ∈ headers) (hk : k ∈ headers)
    (m : Mem) (f g : Field) {v : ℕ} (hv : v < 2 ^ 64) :
    fld (setWord m (h + f.off) v) k g = if k = h ∧ g = f then v else fld m k g := by
  rw [fld_setWord_apart (hH.apart k hk h hh), Nat.mod_eq_of_lt hv]

/-- The memory after a link of a neighbour has been set, if there is this neighbour. -/
def linkTo (m : Mem) (a : ℕ) (f : Field) (v : ℕ) : Mem := if a ≠ 0 then setWord m (a + f.off) v else m

def linkMem (m : Mem) (head h : ℕ) : Mem :=
  setWord (setWord (linkTo m head .prev h) (h + Field.next.off) head) (h + Field.prev.off) 0

def unlinkMem (m : Mem) (h : ℕ) : Mem :=
  setWord (setWord (linkTo (linkTo m (fld m h .prev) .next (fld m h .next)) (fld m h .next) .prev
    (fld m h .prev)) (h + Field.prev.off) 0) (h + Field.next.off) 0

theorem HeadersOk.fld_linkTo (hH : HeadersOk headers s) {a v : ℕ} (ha : a ≠ 0 → a ∈ headers)
    (hk : k ∈ headers) (m : Mem) (f g : Field) (hv : v < 2 ^ 64) :
    fld (linkTo m a f v) k g = if k = a ∧ g = f then v else fld m k g := by
  unfold linkTo
  by_cases h0 : a = 0
  · rw [if_neg (not_not.2 h0), if_neg fun hka => hH.pos k hk (hka.1.trans h0)]
  · rw [if_pos h0, hH.fld_setWord (ha h0) hk m f g hv]

theorem linkTo_of_notMem {a v z : ℕ} {f : Field} (hf : f = .next ∨ f = .prev)
    (hz : a ≠ 0 → z < a + 48 ∨ a + 64 ≤ z) : linkTo m a f v z = m z := by
  unfold linkTo
  split
  · rename_i h0
    have hza := hz h0
    have hoff : Field.next.off = 48 ∧ Field.prev.off = 56 := ⟨rfl, rfl⟩
    rcases hf with rfl | rfl <;> exact setWord_of_notMem (by omega)
  · rfl

theorem insertElmHead_mem (hctx : ctx.env = env) (hcalm : env.CalmFrom t) (ht : t ≤ s.clock)
    (hopen : ∀ f : Field, Accessible s.pages (h + f.off) 8)
    (hhead : s.head r ≠ 0 → ∀ f : Field, Accessible s.pages (s.head r + f.off) 8) :
    wp (insertElmHead ctx r h)
      (fun _ s' => s' = { (s.setHead r h) with
        mem := linkMem s.mem (s.head r) h, log := .linked r h :: s.log }) E s := by
  have hpoll : ∀ {line} {Q : Unit → Heap → Prop} {s' : Heap}, s'.clock = s.clock → Q () s' →
      wp (ctx.poll line) Q E s' :=
    fun hs' hq => wp_poll_calmFrom hctx hcalm (hs' ▸ ht) hq
  unfold insertElmHead
  refine wp_bind (wp_getHead ?_)
  extract_lets rest
  have hrest : ∀ m₁, m₁ = linkTo s.mem (s.head r) .prev h →
      wp (rest ()) (fun _ s' => s' = { (s.setHead r h) with
        mem := linkMem s.mem (s.head r) h, log := .linked r h :: s.log }) E { s with mem := m₁ } := by
    rintro m₁ rfl
    refine wp_bind (hpoll rfl (wp_bind (wp_getHead (wp_bind (wp_stField (hopen _) (wp_bind (hpoll rfl ?_)))))))
    exact wp_bind (wp_stField (hopen _) (wp_bind (hpoll rfl (wp_bind (wp_putHead (wp_emit rfl))))))
  refine wp_ite (fun h0 => ?_) fun h0 => hrest s.mem (if_neg h0).symm
  refine wp_bind (hpoll rfl (wp_bind (wp_getHead (wp_bind (wp_stField (hhead h0 _) ?_)))))
  exact hrest _ (if_pos h0).symm

/-- The links behind `insertElmHead`. -/
theorem fld_linkMem (hH : HeadersOk headers s) (hh : h ∈ headers) (hhead : head ≠ 0 → head ∈ headers)
    (hne : h ≠ head) (hk : k ∈ headers) (f : Field) :
    fld (linkMem m head h) k f =
      if k = h ∧ f = .next then head else if k = h ∧ f = .prev then 0
      else if k = head ∧ f = .prev then h else fld m k f := by
  have hlt : head < 2 ^ 64 := by
    by_cases h0 : head = 0
    · omega
    · exact hH.lt head (hhead h0)
  rw [linkMem, hH.fld_setWord hh hk _ .prev f (by decide), hH.fld_setWord hh hk _ .next f hlt,
    hH.fld_linkTo hhead hk m .prev f (hH.lt h hh)]
  by_cases hkh : k = h
  · subst hkh
    cases f <;> simp
  · simp [hkh]

theorem rmElm_mem (hctx : ctx.env = env) (hcalm : env.CalmFrom t) (ht : t ≤ s.clock)
    (hH : HeadersOk headers s) (hh : h ∈ headers)
    (hpv : fld s.mem h .prev ≠ 0 → fld s.mem h .prev ∈ headers)
    (hnx : fld s.mem h .next ≠ 0 → fld s.mem h .next ∈ headers) :
    wp (rmElm ctx r h)
      (fun _ s' => s' = { (s.setHead r (if s.head r = h then fld s.mem h .next else s.head r)) with
        mem := unlinkMem s.mem h, log := .unlinked r h :: s.log }) E s := by
  have hpoll : ∀ {line} {Q : Unit → Heap → Prop} {s' : Heap}, s'.clock = s.clock → Q () s' →
      wp (ctx.poll line) Q E s' :=
    fun hs' hq => wp_poll_calmFrom hctx hcalm (hs' ▸ ht) hq
  have hmem : ∀ nx pv, fld s.mem h .next = nx → fld s.mem h .prev = pv → unlinkMem s.mem h =
      setWord (setWord (linkTo (linkTo s.mem pv .next nx) nx .prev pv) (h + Field.prev.off) 0)
        (h + Field.next.off) 0 := by
    rintro nx pv rfl rfl
    rfl
  have hnx_lt : fld s.mem h .next < 2 ^ 64 := fld_lt
  have hpv_lt : fld s.mem h .prev < 2 ^ 64 := fld_lt
  generalize hnx₀ : fld s.mem h .next = nx at hnx hnx_lt ⊢
  generalize hpv₀ : fld s.mem h .prev = pv at hpv hpv_lt
  rw [hmem nx pv hnx₀ hpv₀]
  generalize hx : (if s.head r = h then nx else s.head r) = x
  unfold rmElm
  refine wp_bind (wp_getHead ?_)
  extract_lets rest₃ rest₂ rest₁
  have hrest₃ : ∀ m₂, m₂ = linkTo (linkTo s.mem pv .next nx) nx .prev pv →
      wp (rest₃ ()) (fun _ s' => s' = { (s.setHead r x) with
        mem := setWord (setWord (linkTo (linkTo s.mem pv .next nx) nx .prev pv) (h + Field.prev.off) 0)
          (h + Field.next.off) 0
        log := .unlinked r h :: s.log }) E { (s.setHead r x) with mem := m₂ } := by
    rintro m₂ rfl
    refine wp_bind (wp_emit (wp_bind (hpoll rfl (wp_bind (wp_stField (hH.field hh _) (wp_bind (hpoll rfl ?_)))))))
    exact wp_stField (hH.field hh _) rfl
  generalize setWord (setWord (linkTo (linkTo s.mem pv .next nx) nx .prev pv) (h + Field.prev.off) 0)
    (h + Field.next.off) 0 = m' at hrest₃ ⊢
  have hrest₂ : ∀ m₁, m₁ = linkTo s.mem pv .next nx →
      wp (rest₂ ()) (fun _ s' => s' = { (s.setHead r x) with
        mem := m', log := .unlinked r h :: s.log }) E { (s.setHead r x) with mem := m₁ } := by
    intro m₁ hm₁
    have hn : fld m₁ h .next = nx := by
      rw [hm₁, hH.fld_linkTo hpv hh _ _ _ hnx_lt, hnx₀]
      exact ite_self nx
    have hp : fld m₁ h .prev = pv := by
      rw [hm₁, hH.fld_linkTo hpv hh _ _ _ hnx_lt, hpv₀]
      simp
    refine wp_bind (hpoll rfl (wp_bind (wp_ldField (hH.field hh _) fun w hw => ?_)))
    obtain rfl : w = nx := hw.trans hn
    refine wp_ite (fun h0 => ?_) fun h0 => hrest₃ m₁ ?_
    · refine wp_bind (hpoll rfl (wp_bind (wp_ldField (hH.field hh _) fun w' hw' => ?_)))
      obtain rfl : w' = w := hw'.trans hn
      refine wp_bind (wp_ldField (hH.field hh _) fun v hv => ?_)
      obtain rfl : v = pv := hv.trans hp
      refine wp_bind (wp_stField (hH.field (hnx h0) _) (hrest₃ _ ?_))
      rw [← hm₁]
      exact (if_pos h0).symm
    · rw [← hm₁]
      exact (if_neg h0).symm
  have hrest₁ : wp (rest₁ ()) (fun _ s' => s' = { (s.setHead r x) with
      mem := m', log := .unlinked r h :: s.log }) E (s.setHead r x) := by
    refine wp_bind (hpoll rfl (wp_bind (wp_ldField (hH.field hh _) fun v hv => ?_)))
    obtain rfl : v = pv := hv.trans hpv₀
    refine wp_ite (fun h0 => ?_) fun h0 => hrest₂ s.mem (if_neg h0).symm
    refine wp_bind (hpoll rfl (wp_bind (wp_ldField (hH.field hh _) fun v' hv' => ?_)))
    obtain rfl : v' = v := hv'.trans hpv₀
    refine wp_bind (wp_ldField (hH.field hh _) fun w hw => ?_)
    obtain rfl : w = nx := hw.trans hnx₀
    exact wp_bind (wp_stField (hH.field (hpv h0) _) (hrest₂ _ (if_pos h0).symm))
  refine wp_ite (fun h0 => ?_) fun h0 => ?_
  · rw [if_pos h0] at hx
    refine wp_bind (hpoll rfl (wp_bind (wp_ldField (hH.field hh _) fun w hw => ?_)))
    obtain rfl : w = x := (hw.trans hnx₀).trans hx
    exact wp_bind (wp_putHead hrest₁)
  · rw [if_neg h0] at hx
    have hsame : s.setHead r x = s := by rw [← hx, setHead_head]
    exact Eq.subst (motive := wp (rest₁ ()) _ E) hsame hrest₁

/-- The links behind `rmElm`. -/
theorem fld_unlinkMem (hH : HeadersOk headers s) (hh : h ∈ headers)
    (hpv : fld m h .prev ≠ 0 → fld m h .prev ∈ headers)
    (hnx : fld m h .next ≠ 0 → fld m h .next ∈ headers) (hk : k ∈ headers) (f : Field) :
    fld (unlinkMem m h) k f =
      if k = h ∧ (f = .next ∨ f = .prev) then 0
      else if k = fld m h .next ∧ f = .prev then fld m h .prev
      else if k = fld m h .prev ∧ f = .next then fld m h .next else fld m k f := by
  rw [unlinkMem, hH.fld_setWord hh hk _ .next f (by decide), hH.fld_setWord hh hk _ .prev f (by decide),
    hH.fld_linkTo hnx hk _ .prev f fld_lt, hH.fld_linkTo hpv hk m .next f fld_lt]
  by_cases hkh : k = h
  · subst hkh
    cases f <;> simp
  · simp [hkh]

end GuardRails
