import GuardRails.Model.Dump
import GuardRails.Spec.Entry

/-!
# Stdio on the heap

Inside a dump stdio is one more client: it frees and writes what it got during the same
call and nothing else.
-/

namespace GuardRails

open ByteMemory StateHoare

variable {env : Env} {off : Off} {s s' s₀ s₁ : Heap} {X : Set ℕ} {F G : Prop} {ctx : Ctx}
  {a a' : Alloc} {own : List (ℕ × ℕ)}

theorem Keeps.live (hK : Keeps X s s') (hR : Rep env off s) (ha : (ledger s.log).Live a)
    (hX : a.hdr ∉ X) : (ledger s'.log).Live a := by
  obtain ⟨B, hB, hlive, ho, hp⟩ := hR.log_ok.lawful.sound.live_inUse ha
  exact ⟨B, hK.block _ B hX hB (.inr (.inr hp)), hlive, ho, ha.intact hB⟩

/-- Different allocations have different pointers. -/
theorem Rep.live_inj (hR : Rep env off s) (ha : (ledger s.log).Live a)
    (ha' : (ledger s.log).Live a') (hptr : a.ptr = a'.ptr) : a = a' := by
  have hL := hR.log_ok.lawful.sound
  refine ha.hdr_inj ha' ?_
  obtain ⟨B, hB, -, ho, hp⟩ := hL.live_inUse ha
  obtain ⟨B', hB', -, ho', hp'⟩ := hL.live_inUse ha'
  have hbd := hR.shape.user_bounds hB (by simp [hp]) ho
  have hbd' := hR.shape.user_bounds hB' (by simp [hp']) ho'
  by_contra hne
  have := hR.shape.layout.notMem hB' hB hne (x := a.ptr) (by omega) (by omega)
  omega

structure OwnOk (s₀ s : Heap) (own : List (ℕ × ℕ)) : Prop where
  live : ∀ e ∈ own, e.1 ≠ 0 → ∃ a : Alloc, a.ptr = e.1 ∧ a.size = e.2 ∧ (ledger s.log).Live a ∧
    ∀ A, (ledger s₀.log).block a.hdr = some A → ¬ A.Fixed
  apart : own.Pairwise fun e e' => e.1 ≠ 0 → e.1 ≠ e'.1

theorem OwnOk.nil : OwnOk s₀ s [] := ⟨by simp, .nil⟩

theorem OwnOk.append {p size : ℕ} (hc : InCall env F off ∅ s₀ s) (ho : OwnOk s₀ s own)
    (hK : Keeps ∅ s s') (hR' : Rep env off s')
    (hp : p ≠ 0 → ∃ a : Alloc, a.ptr = p ∧ a.size = size ∧ (ledger s'.log).Live a ∧
      ∀ A, (ledger s.log).block a.hdr = some A → ¬ A.Fixed) :
    OwnOk s₀ s' (own ++ [(p, size)]) := by
  have hold : ∀ e ∈ own, e.1 ≠ 0 → ∃ a : Alloc, a.ptr = e.1 ∧ a.size = e.2 ∧
      (ledger s.log).Live a ∧ (ledger s'.log).Live a ∧
      ∀ A, (ledger s₀.log).block a.hdr = some A → ¬ A.Fixed := by
    intro e he h0
    obtain ⟨a, hptr, hsize, hl, hnew⟩ := ho.live e he h0
    exact ⟨a, hptr, hsize, hl, hK.live hc.rep hl (Set.notMem_empty _), hnew⟩
  refine ⟨fun e he h0 => ?_, List.pairwise_append.2 ⟨ho.apart, List.pairwise_singleton _ _, ?_⟩⟩
  · rcases List.mem_append.1 he with he | he
    · obtain ⟨a, hptr, hsize, -, hl, hnew⟩ := hold e he h0
      exact ⟨a, hptr, hsize, hl, hnew⟩
    · obtain rfl := List.mem_singleton.1 he
      obtain ⟨a, hptr, hsize, hl, hnew⟩ := hp h0
      exact ⟨a, hptr, hsize, hl, fun A hA hF =>
        hnew A (hc.keeps.block _ A (Set.notMem_empty _) hA hF) hF⟩
  · intro e he e' he' h0 heq
    obtain rfl := List.mem_singleton.1 he'
    obtain ⟨a, hptr, -, hl, hl', -⟩ := hold e he h0
    obtain ⟨a', hptr', -, hla', hnew'⟩ := hp fun hp0 => h0 (heq.trans hp0)
    obtain rfl := hR'.live_inj hl' hla' (hptr.trans (heq.trans hptr'.symm))
    obtain ⟨B, hB, -, -, hpl⟩ := hc.rep.log_ok.lawful.sound.live_inUse hl
    exact hnew' B hB (.inr (.inr hpl))

/-- What a buffer was is no longer looked at once it is released. -/
theorem OwnOk.eraseIdx {idx : ℕ} {e : ℕ × ℕ} (ho : OwnOk s₀ s own) (he : own[idx]? = some e)
    (hl : ∀ a : Alloc, (ledger s.log).Live a → a.ptr ≠ e.1 → (ledger s'.log).Live a)
    (h0 : e.1 = 0 → ledger s'.log = ledger s.log) : OwnOk s₀ s' (own.eraseIdx idx) := by
  obtain ⟨hlt, rfl⟩ := List.getElem?_eq_some_iff.1 he
  have hsplit : own = own.take idx ++ own[idx] :: own.drop (idx + 1) := by
    rw [← List.drop_eq_getElem_cons hlt, List.take_append_drop]
  have hap := ho.apart
  rw [hsplit, List.pairwise_append, List.pairwise_cons] at hap
  obtain ⟨-, ⟨hafter, -⟩, hbefore⟩ := hap
  rw [List.eraseIdx_eq_take_drop_succ]
  have hsub : (own.take idx ++ own.drop (idx + 1)).Sublist own := by
    rw [← List.eraseIdx_eq_take_drop_succ]
    exact List.eraseIdx_sublist own idx
  refine ⟨fun e' he' h0' => ?_, ho.apart.sublist hsub⟩
  obtain ⟨a, hptr, hsize, hla, hnew⟩ := ho.live e' (hsub.subset he') h0'
  refine ⟨a, hptr, hsize, ?_, hnew⟩
  by_cases hz : own[idx].1 = 0
  · exact h0 hz ▸ hla
  refine hl a hla ?_
  rw [hptr]
  rcases List.mem_append.1 he' with hb | hb
  · exact hbefore e' hb own[idx] List.mem_cons_self h0'
  · exact (hafter e' hb hz).symm

/-- The allocator is set up for what stdio asks for, or there was trouble. -/
def Chatty (env : Env) (s : Heap) : Prop := SetUp env s ∧ env.StdioFits ∨ Trouble env s.log

theorem Chatty.keeps (hT : Chatty env s) (hK : Keeps X s s') (hX : ∀ h ∈ X, SettledAt s' h) :
    Chatty env s' :=
  hT.imp (fun h => ⟨h.1.keeps hK hX, h.2⟩) fun h => h.mono hK.log

theorem stdio_spec (hctx : ctx.Ok env) (hoff : env.Calm → off = 0) {t : ℕ} (calls : List StdioCall)
    (hcalls : ∀ c ∈ calls, c ∈ env.fileIO t ++ env.fmtIO t) (hc : InCall env F off ∅ s₀ s)
    (ho : OwnOk s₀ s own) (hT : F → Chatty env s) :
    wp (stdio ctx calls own) (fun _ s' => InCall env F off ∅ s₀ s') (Halted env F G) s := by
  induction calls generalizing own s with
  | nil => exact wp_pure hc
  | cons c calls ih =>
      have hcalls' : ∀ c ∈ calls, c ∈ env.fileIO t ++ env.fmtIO t := fun c hc =>
        hcalls c (List.mem_cons_of_mem _ hc)
      have hmem := hcalls c List.mem_cons_self
      cases c with
      | alloc bt alignment size =>
          obtain ⟨halign, hsize⟩ := hc.rep.shape.env_ok.stdio t _ hmem
          have hfits : F → Fits env.args alignment size ∨ Trouble env s.log := fun hF =>
            (hT hF).imp_left fun h => h.2 t bt alignment size hmem
          refine wp_bind_of (memalignInt_spec hctx hc.rep hc.ready hoff
            (fun hF => (hT hF).imp_left And.left) halign hsize hfits
            fun hq _ => (hq t bt alignment size hmem).class_lt) ?_
          rintro p s₁ (⟨rfl, hc₁, -⟩ | ⟨h0, a, B, rfl, hs, -⟩)
          · exact ih hcalls' (hc.trans hc₁.rep hc₁.keeps)
              (ho.append hc hc₁.keeps hc₁.rep fun h => absurd rfl h) fun hF => (hT hF).keeps hc₁.keeps (by simp)
          · have hc₁ := hs.call
            exact ih hcalls' (hc.trans hc₁.rep hc₁.keeps)
              (ho.append hc hc₁.keeps hc₁.rep fun _ =>
                ⟨a, rfl, hs.size_eq, hs.isLive, hs.new⟩)
              fun hF => (hT hF).keeps hc₁.keeps (by simp)
      | free bt idx =>
          unfold stdio
          cases he : own[idx]? with
          | none => exact ih hcalls' hc ho hT
          | some e =>
              obtain ⟨p, size⟩ := e
              by_cases h0 : p = 0
              · subst h0
                refine wp_bind (wp_ite (fun _ => wp_pure ?_) fun h => absurd rfl h)
                exact ih hcalls' hc (ho.eraseIdx he (fun _ h _ => h) fun _ => rfl) hT
              · obtain ⟨a, rfl, -, hla, hnew⟩ := ho.live _ (List.mem_of_getElem? he) h0
                refine wp_bind_of (free_spec hctx hc.rep hc.ready hla) ?_
                rintro _ s₁ ⟨hc₁, ⟨hset, -⟩⟩
                refine ih hcalls' (hc.absorb hc₁ hnew hset) (ho.eraseIdx he (fun a' ha' hne => ?_)
                  fun h => absurd h h0) fun hF => (hT hF).keeps hc₁.keeps (by simpa using hset)
                exact hc₁.keeps.live hc.rep ha' fun heq => hne (congrArg _ (ha'.hdr_inj hla heq))
      | store idx off bytes =>
          unfold stdio
          cases he : own[idx]? with
          | none => exact ih hcalls' hc ho hT
          | some e =>
              obtain ⟨p, size⟩ := e
              refine wp_ite (fun hin => ?_) fun _ => ih hcalls' hc ho hT
              obtain ⟨a, rfl, rfl, hla, hnew⟩ := ho.live _ (List.mem_of_getElem? he) hin.1
              obtain ⟨B, hB, hlive, hoB, hp⟩ := hc.rep.log_ok.lawful.sound.live_inUse hla
              refine wp_bind (wp_storeBytes ?_ ?_)
              · exact (hc.rep.shape.user_open hB hp hoB).mono (by omega) (by omega)
              · have hc₁ := (InCall.refl hc.rep hc.ready).writeUser (Set.mem_singleton a.hdr) hB hp hoB
                  (m := ByteMemory.update s.mem (a.ptr + off) bytes.length fun i => bytes.getD i 0)
                  fun x hx => update_of_notMem (by omega)
                have hset : SettledAt s a.hdr := .of_block hB (.inr (.inr ⟨hp, hlive⟩))
                exact ih hcalls' (hc.absorb hc₁ hnew hset) ⟨ho.live, ho.apart⟩
                  fun hF => (hT hF).keeps hc₁.keeps fun h hh => (show h = a.hdr from hh) ▸ hset

/-- `fopen`, `fgets`, `fclose` and formatted output inside a dump. -/
theorem fmtOut_spec (hctx : ctx.Ok env) (hoff : env.Calm → off = 0) (hc : InCall env F off ∅ s₀ s)
    (hT : F → Chatty env s) :
    wp (fmtOut ctx) (fun _ s' => InCall env F off ∅ s₀ s' ∧ Keeps ∅ s s') (Halted env F G) s := by
  have hc₁ : InCall env F off ∅ s _ := (InCall.refl hc.rep hc.ready).trans (hc.rep.tick (s.clock + 1))
    (.tick _)
  unfold fmtOut
  refine wp_bind (wp_tick ?_)
  rw [hctx.env_eq]
  have key := stdio_spec (G := G) hctx hoff (t := s.clock) (env.fmtIO s.clock)
    (fun c hc' => List.mem_append_right _ hc') hc₁ .nil
    fun hF => (hT hF).keeps hc₁.keeps (by simp)
  exact wp_mono key (fun _ _ h => ⟨hc.trans h.rep h.keeps, h.keeps⟩) fun _ _ hE => hE

theorem dumpOffsets_spec (hctx : ctx.Ok env) (hoff : env.Calm → off = 0)
    (hc : InCall env F off ∅ s₀ s) (hT : F → Chatty env s) :
    wp (dumpOffsets ctx) (fun _ s' => InCall env F off ∅ s₀ s' ∧ Keeps ∅ s s') (Halted env F G) s := by
  have hc₁ : InCall env F off ∅ s _ := (InCall.refl hc.rep hc.ready).trans (hc.rep.tick (s.clock + 1))
    (.tick _)
  unfold dumpOffsets
  refine wp_bind (wp_tick ?_)
  rw [hctx.env_eq]
  have key := stdio_spec (G := G) hctx hoff (t := s.clock) (env.fileIO s.clock)
    (fun c hc' => List.mem_append_left _ hc') hc₁ .nil
    fun hF => (hT hF).keeps hc₁.keeps (by simp)
  exact wp_mono key (fun _ _ h => ⟨hc.trans h.rep h.keeps, h.keeps⟩) fun _ _ hE => hE

end GuardRails
