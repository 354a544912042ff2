import GuardRails.Spec.Free
import GuardRails.Spec.Memalign

/-!
# The other entry points

`calloc` and `realloc` write into the user data of the block they got, which no other
part of the heap looks at; `realloc` releases the old block only after the copy.
-/

namespace GuardRails

open ByteMemory StateHoare

variable {env : Env} {off : Off} {L : Ledger} {s s' s₀ s₁ : Heap} {X : Set ℕ} {F G : Prop}
  {h : ℕ} {B : Block} {ctx : Ctx} {a a₀ : Alloc} {bt : List ℕ} {alignment usrSize : ℕ}

/-! ## Writing user data -/

theorem Shape.user_bounds (hS : Shape env off L s) (hB : L.block h = some B)
    (hraw : B.place ≠ .raw) (ho : B.owner = some a) :
    h + 72 ≤ a.ptr ∧ a.ptr + a.size ≤ h + B.size := by
  have hO := (hS.blocks h B hB hraw).owner a ho
  have h1 := hO.above
  have h2 := hO.fits
  have h3 := elmHdrSz_eq hS.env_ok.args
  omega

theorem Shape.user_open (hS : Shape env off L s) (hB : L.block h = some B)
    (hp : B.place = .on .inUse) (ho : B.owner = some a) : Accessible s.pages a.ptr a.size := by
  have := hS.user_bounds hB (by simp [hp]) ho
  exact (hS.pages.opened h B hB (by simp [hp])).mono (by omega) (by omega)

/-- A write into the user data of a block. -/
theorem InCall.writeUser (hc : InCall env F off X s₀ s) (hX : h ∈ X)
    (hB : (ledger s.log).block h = some B) (hp : B.place = .on .inUse) (ho : B.owner = some a)
    {m : Mem} (hm : ∀ x, x < a.ptr ∨ a.ptr + a.size ≤ x → m x = s.mem x) :
    InCall env F off X s₀ { s with mem := m } := by
  have hS := hc.rep.shape
  have hbd := hS.user_bounds hB (by simp [hp]) ho
  refine hc.write hX hB (fun x hx => hm x (by omega)) (fun _ x hx hx' => hm x (by omega)) fun _ => ?_
  exact (hS.blocks h B hB (by simp [hp])).congr_user hS.env_ok.args ho fun y _ _ hy => hm y hy

theorem Served.writeUser (hs : Served env F off ∅ s₀ s bt alignment usrSize a B) {m : Mem}
    (hm : ∀ x, x < a.ptr ∨ a.ptr + a.size ≤ x → m x = s.mem x) :
    Served env F off ∅ s₀ { s with mem := m } bt alignment usrSize a B :=
  { hs with
    call := hs.call.absorb ((InCall.refl hs.call.rep hs.call.ready).writeUser
      (Set.mem_singleton a.hdr) hs.block hs.place hs.owner hm) hs.new hs.settledAt }

/-! ## `calloc` -/

theorem calloc_spec {nmemb : ℕ} (hctx : ctx.Ok env) (hR : Rep env off s) (hr : Ready env F s)
    (hoff : env.Calm → off = 0) (hset : F → SetUp env s ∨ Trouble env s.log)
    (hfits : F → Fits env.args 8 (nmemb * usrSize % 2 ^ 64) ∨ Trouble env s.log)
    (hclass : env.StdioFits → G → classOf env.args 8 (nmemb * usrSize % 2 ^ 64) < 40) :
    wp (calloc ctx bt nmemb usrSize)
      (fun p s' => (p = 0 ∧ InCall env F off ∅ s s' ∧ Trouble env s'.log) ∨
        (p ≠ 0 ∧ ∃ a B, a.ptr = p ∧
          Served env F off ∅ s s' bt 8 (nmemb * usrSize % 2 ^ 64) a B ∧
          ∀ i < nmemb * usrSize % 2 ^ 64, s'.mem (p + i) = 0))
      (Halted env F G) s := by
  unfold calloc
  extract_lets totalSize
  have htotal : totalSize < 2 ^ 64 := Nat.mod_lt _ (by norm_num)
  have hts : nmemb * usrSize % 2 ^ 64 = totalSize := rfl
  rw [hts] at hfits hclass ⊢
  clear_value totalSize
  refine wp_bind_of (memalignInt_spec hctx hR hr hoff hset (by decide) htotal hfits hclass) ?_
  rintro p s₁ (⟨rfl, hc, hT⟩ | ⟨h0, a, B, rfl, hs, -⟩)
  · exact wp_ite (fun _ => wp_pure (.inl ⟨rfl, hc, hT⟩)) fun h => absurd rfl h
  · refine wp_ite (fun h => absurd h h0) fun _ => ?_
    have hsize := hs.size_eq
    refine wp_bind (wp_memset_of ?_ (wp_pure (.inr ⟨h0, a, B, rfl, ?_, fun i hi => ?_⟩)))
    · rw [← hsize]
      exact hs.call.rep.shape.user_open hs.block hs.place hs.owner
    · exact hs.writeUser fun x hx => update_of_notMem (by omega)
    · exact update_of_mem (f := fun _ => 0) (by omega) (by omega)

/-! ## `posix_memalign` -/

theorem posixMemalign_spec (hctx : ctx.Ok env) (hR : Rep env off s) (hr : Ready env F s)
    (hoff : env.Calm → off = 0) (hset : F → SetUp env s ∨ Trouble env s.log)
    (halign : alignment < 2 ^ 64) (husr : usrSize < 2 ^ 64)
    (hfits : F → Fits env.args alignment usrSize ∨ Trouble env s.log)
    (hclass : env.StdioFits → G → classOf env.args alignment usrSize < 40) :
    wp (posixMemalign ctx bt alignment usrSize)
      (fun p s' => (p = (22, none) ∧ s' = s) ∨
        (p = (12, none) ∧ InCall env F off ∅ s s' ∧ Trouble env s'.log) ∨
        (∃ a B, p = (0, some a.ptr) ∧ Served env F off ∅ s s' bt alignment usrSize a B ∧
          Poisoned env.args s'.mem a))
      (Halted env F G) s := by
  unfold posixMemalign memalign
  refine wp_ite (fun _ => wp_pure (.inl ⟨rfl, rfl⟩)) fun _ => ?_
  refine wp_bind_of (memalignInt_spec hctx hR hr hoff hset halign husr hfits hclass) ?_
  rintro p s₁ (⟨rfl, hc, hT⟩ | ⟨h0, a, B, rfl, hs, hpoison⟩)
  · exact wp_ite (fun _ => wp_pure (.inr (.inl ⟨rfl, hc, hT⟩))) fun h => absurd rfl h
  · exact wp_ite (fun h => absurd h h0) fun _ => wp_pure (.inr (.inr ⟨a, B, rfl, hs, hpoison⟩))

/-! ## `realloc` -/

theorem realloc_null_spec (hctx : ctx.Ok env) (hR : Rep env off s) (hr : Ready env F s)
    (hoff : env.Calm → off = 0) (hset : F → SetUp env s ∨ Trouble env s.log)
    (husr : usrSize < 2 ^ 64) (hfits : F → Fits env.args 8 usrSize ∨ Trouble env s.log)
    (hclass : env.StdioFits → G → classOf env.args 8 usrSize < 40) :
    wp (realloc ctx bt 0 usrSize)
      (fun p s' => (p = 0 ∧ InCall env F off ∅ s s' ∧ Trouble env s'.log) ∨
        (p ≠ 0 ∧ ∃ a B, a.ptr = p ∧ Served env F off ∅ s s' bt 8 usrSize a B ∧
          Poisoned env.args s'.mem a))
      (Halted env F G) s := by
  unfold realloc
  refine wp_bind_of (memalignInt_spec hctx hR hr hoff hset (by decide) husr hfits hclass) ?_
  exact fun p s₁ h => wp_ite (fun _ => wp_pure h) fun h0 => absurd (.inl rfl) h0

structure Moved (args : GRArgs) (s s' : Heap) (a₀ a : Alloc) : Prop where
  hdr_ne : a.hdr ≠ a₀.hdr
  ptr_ne : a.ptr ≠ a₀.ptr
  apart : Apart a.ptr a.size a₀.ptr a₀.size
  copied : ∀ i < min a.size a₀.size, s'.mem (a.ptr + i) = s.mem (a₀.ptr + i)
  poisoned : args.poison = true → ∀ i < a.size, a₀.size ≤ i → s'.mem (a.ptr + i) = args.poisonVal

/-- A reallocation up to the release of the old block: `s₁` is the heap after the allocation
and `s₂` that after the copy. -/
theorem realloc_rule {Q T : ℕ → Heap → Prop} {E : Halt → Heap → Prop} (hctx : ctx.Ok env)
    (hR : Rep env off s) (hr : Ready env F s) (hoff : env.Calm → off = 0)
    (hset : F → SetUp env s ∨ Trouble env s.log) (husr : usrSize < 2 ^ 64)
    (hfits : F → Fits env.args 8 usrSize ∨ Trouble env s.log)
    (hclass : env.StdioFits → G → classOf env.args 8 usrSize < 40) (ha : (ledger s.log).Live a₀)
    (hT : wp (memalignInt ctx bt 8 usrSize) T (fun _ _ => True) s)
    (hE : ∀ e s', Halted env F G e s' → E e s')
    (hnone : ∀ s₁, T 0 s₁ → InCall env F off ∅ s s₁ → Trouble env s₁.log → Q 0 s₁)
    (hsome : ∀ a B s₁ s₂, a.ptr ≠ 0 → T a.ptr s₁ → (∃ mem, s₂ = { s₁ with mem := mem }) →
      Served env F off ∅ s s₂ bt 8 usrSize a B → (ledger s₂.log).Live a₀ → a.hdr ≠ a₀.hdr →
      (∀ i < min usrSize a₀.size, s₂.mem (a.ptr + i) = s.mem (a₀.ptr + i)) →
      (env.args.poison = true → ∀ i < a.size, a₀.size ≤ i →
        s₂.mem (a.ptr + i) = env.args.poisonVal) →
      wp (free ctx bt a₀.ptr) (fun _ s₃ => Q a.ptr s₃) E s₂) :
    wp (realloc ctx bt a₀.ptr usrSize) Q E s := by
  obtain ⟨B₀, hB₀, hlive₀, ho₀, hp₀⟩ := hR.log_ok.lawful.sound.live_inUse ha
  have hfix₀ : B₀.Fixed := .inr (.inr hp₀)
  have hmem : wp (memalignInt ctx bt 8 usrSize) _ (Halted env F G) s :=
    memalignInt_spec hctx hR hr hoff hset (by decide) husr hfits hclass
  unfold realloc
  refine wp_bind (wp_mono (wp_and hmem hT) ?_ fun _ _ h => hE _ _ h.1)
  rintro p s₁ ⟨⟨rfl, hc, hTr⟩ | ⟨h0, a, B, rfl, hs, hpoison⟩, hT₁⟩
  · exact wp_ite (fun _ => wp_pure (hnone s₁ hT₁ hc hTr)) fun h => absurd (.inr rfl) h
  have hc := hs.call
  have hS := hc.rep.shape
  have hne : a.hdr ≠ a₀.hdr := fun he => hs.new B₀ (he ▸ hB₀) hfix₀
  have hB₁ := hc.keeps.block _ B₀ (Set.notMem_empty _) hB₀ hfix₀
  have hbd₀ := hS.user_bounds hB₁ (by simp [hp₀]) ho₀
  have hbd := hS.user_bounds hs.block (by simp [hs.place]) hs.owner
  have hO₀ := (hS.blocks _ B₀ hB₁ (by simp [hp₀])).owner a₀ ho₀
  have hopen₀ := hS.pages.opened _ B₀ hB₁ (by simp [hp₀])
  have hsep := hS.layout.sep _ _ B B₀ hs.block hB₁ hne
  have hsub : sub64 a₀.ptr 8 = a₀.ptr - 8 := by
    have := hS.layout.block_bounds hB₁
    unfold sub64
    omega
  have hsize := hs.size_eq
  refine wp_ite (fun h => absurd h ?_) fun _ => ?_
  · rintro (h | h)
    · omega
    · exact h0 h
  rw [hsub]
  refine wp_bind (wp_load64_of (hopen₀.mono (by omega) (by omega)) ?_)
  rw [hO₀.ptrWord]
  refine wp_bind (wp_ldField (hS.field_open hB₁ (by simp [hp₀]) _) fun w hw => ?_)
  obtain rfl : w = a₀.size := hw.trans hO₀.usrDataSize
  refine wp_bind (wp_memcpy ((hS.user_open hB₁ hp₀ ho₀).mono le_rfl (by omega))
    ((hS.user_open hs.block hs.place hs.owner).mono le_rfl (by omega)) ?_)
  refine wp_bind (wp_mono (hsome a B s₁ _ h0 hT₁ ⟨_, rfl⟩ (hs.writeUser fun x hx => ?_)
    ⟨B₀, hB₁, hlive₀, ho₀, ha.intact hB₀⟩ hne (fun i hi => ?_) fun hp i hi hle => ?_)
    (fun _ _ h => wp_pure h) fun _ _ h => h)
  · exact update_of_notMem (by omega)
  · dsimp only
    rw [update_of_mem (by omega) (by omega), Nat.add_sub_cancel_left]
    exact hc.keeps.mem _ B₀ (Set.notMem_empty _) hB₀ hfix₀ _ (by omega) (by omega)
      fun _ => .inr (by omega)
  · dsimp only
    rw [update_of_notMem (by omega)]
    exact hpoison hp i hi

/-- The old allocation is copied and released, or kept when there is no memory. -/
theorem realloc_spec (hctx : ctx.Ok env) (hR : Rep env off s) (hr : Ready env F s)
    (hoff : env.Calm → off = 0) (hset : F → SetUp env s ∨ Trouble env s.log)
    (husr : usrSize < 2 ^ 64) (hfits : F → Fits env.args 8 usrSize ∨ Trouble env s.log)
    (hclass : env.StdioFits → G → classOf env.args 8 usrSize < 40) (ha : (ledger s.log).Live a₀) :
    wp (realloc ctx bt a₀.ptr usrSize)
      (fun p s' => (p = 0 ∧ InCall env F off ∅ s s' ∧ Trouble env s'.log) ∨
        (p ≠ 0 ∧ Released env s s' a₀.hdr ∧ ∃ a B, a.ptr = p ∧
          Served env F off {a₀.hdr} s s' bt 8 usrSize a B ∧ Moved env.args s s' a₀ a))
      (Halted env F G) s := by
  refine realloc_rule (T := fun _ _ => True) hctx hR hr hoff hset husr hfits hclass ha (wp_mono
    (memalignInt_spec hctx hR hr hoff hset (by decide) husr hfits hclass) (fun _ _ _ => trivial)
      fun _ _ _ => trivial) (fun _ _ h => h) (fun s₁ _ hc hT => .inl ⟨rfl, hc, hT⟩) ?_
  intro a B s₁ s₂ h0 _ _ hs hlive₂ hne hdata hrest
  obtain ⟨B₀, hB₀, -, ho₀, hp₀⟩ := hs.call.rep.log_ok.lawful.sound.live_inUse hlive₂
  have hS := hs.call.rep.shape
  have hbd₀ := hS.user_bounds hB₀ (by simp [hp₀]) ho₀
  have hbd := hS.user_bounds hs.block (by simp [hs.place]) hs.owner
  have hsep := hS.layout.sep _ _ B B₀ hs.block hB₀ hne
  have hsize := hs.size_eq
  refine wp_mono (free_spec hctx hs.call.rep hs.call.ready hlive₂) ?_ fun _ _ h => h
  rintro _ s₃ ⟨hc₃, hset₃⟩
  have hfix : B.Fixed := .inr (.inr hs.place)
  have hkept : ∀ i < a.size, s₃.mem (a.ptr + i) = s₂.mem (a.ptr + i) := fun i hi =>
    hc₃.keeps.mem _ B hne hs.block hfix _ (by omega) (by omega) fun _ => .inr (by omega)
  refine .inr ⟨h0, hset₃.since hs.call.keeps.log.suffix, a, B, rfl, ?_, ?_⟩
  · exact
      { hs with
        call := ⟨hc₃.rep, hc₃.ready, (hs.call.keeps.mono (Set.empty_subset _)).trans hc₃.keeps⟩
        block := hc₃.keeps.block _ B hne hs.block hfix }
  · refine ⟨hne, ?_, ?_, fun i hi => ?_, fun hp i hi hle => (hkept i hi).trans (hrest hp i hi hle)⟩
    · unfold Apart at hsep
      omega
    · unfold Apart at hsep ⊢
      omega
    · rw [hkept i (by omega)]
      exact hdata i (by omega)

end GuardRails
