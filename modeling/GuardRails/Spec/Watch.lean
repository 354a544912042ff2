import GuardRails.Spec.HighWater
import GuardRails.Spec.Reading

/-!
# Watching a call

The marks stay right on every way through a call, the dumps that it starts included. A watch
says what else is to be kept of the history on the way: it hears of every event, of a request
whether it is made inside a dump, and of a dump why it begins. There are three reasons: a mark
is due for a dump, a slot has passed the limit of `-M`, or the kernel has refused memory. In the
last case `gMutex` is held, so that nothing inside the dump is short of memory again.
-/

namespace GuardRails

open StateHoare

inductive Want
  | no
  | message
  | dump

def requests : List StdioCall → ℕ
  | [] => 0
  | .alloc _ _ _ :: calls => requests calls + 1
  | _ :: calls => requests calls

/-- How many of `n` requests are made outside dumps, when `d` dumps are under way. -/
def outer (d n : ℕ) : ℕ := if d = 0 then n else 0

theorem outer_add (d m n : ℕ) : outer d (m + n) = outer d m + outer d n := by
  unfold outer
  split <;> rfl

/-- What is kept of the history: `P o d u` with at most `o` requests outside dumps, `d` dumps under
way and the want of memory `u`; and `E` when the call halts with `o` as `cap` allows. -/
structure Watch (env : Env) where
  P : ℕ → ℕ → Want → List Event → Prop
  E : List Event → Prop
  cap : ℕ → Prop
  cap_le {m n : ℕ} : m ≤ n → cap n → cap m
  halt {o d u log} : cap o → P o d u log → E log
  le {o o' d u log} : o ≤ o' → P o d u log → P o' d u log
  flat {o d u log} {e : Event} : e.Flat → P o d u log → P o d u (e :: log)
  uncounted {o d u log i h} : P o d u log → P o d u (.uncounted i h :: log)
  counted {o d u log i q} : P o d u log → P (o + outer d 1) d u (.counted i q :: log)
  due {o d u log i q} : i < env.args.numSlots →
    dumpMark i log + env.args.slotHWMDumpIntervalBytes < highWater i (.counted i q :: log) →
      P o d u (.counted i q :: log) → P o (d + 1) u (.dumpBegun :: .counted i q :: log)
  limit {o d u log} : P o d u log → P o (d + 1) u (.dumpBegun :: .limitReached :: log)
  short {o d log} : P o d .no log → P o d .message log
  last {o d log} : Rested log → P o d .message log → P o (d + 1) .dump (.dumpBegun :: log)
  ended {o d u log} : P o (d + 1) u log → P o d u (.dumpEnded :: log)

def Watch.idle (env : Env) : Watch env where
  P _ _ _ _ := True
  E _ := True
  cap _ := True
  cap_le _ _ := trivial
  halt _ _ := trivial
  le _ _ := trivial
  flat _ _ := trivial
  uncounted _ := trivial
  counted _ := trivial
  due _ _ _ := trivial
  limit _ := trivial
  short _ := trivial
  last _ _ := trivial
  ended _ := trivial

variable {env : Env} {W : Watch env} {s s' s₁ : Heap} {ctx : Ctx} {log : List Event} {i b d n o : ℕ}
  {u : Want} {X : Set ℕ} {α β : Type}

/-- There is room for a request and, while memory is not short, for the message. -/
structure Headroom (W : Watch env) (o d : ℕ) (u : Want) : Prop where
  request : W.cap (o + outer d 1)
  message : u = .no → ∀ t, W.cap (o + outer d (requests (env.fmtIO t)))

theorem Headroom.cap (h : Headroom W o d u) : W.cap o := W.cap_le (Nat.le_add_right _ _) h.request

theorem Watch.headroom_idle : Headroom (Watch.idle env) o d u := ⟨trivial, fun _ _ => trivial⟩

structure Kept (W : Watch env) (o d : ℕ) (u : Want) (s : Heap) : Prop where
  stocked : Stocked 0 s
  held : u ≠ .no → s.gMutex.locked = true
  watch : W.P o d u s.log

structure Marked (W : Watch env) (o d : ℕ) (u : Want) (s : Heap) : Prop extends Kept W o d u s where
  watered : Watered env.args.slotHWMDumpIntervalBytes s.log s.memSlots

/-- Nothing is in between, but for an answer to the latest request. -/
structure Grounded (W : Watch env) (o d : ℕ) (u : Want) (s : Heap) : Prop extends Kept W o d u s where
  rep : Rep env 0 s
  isInit : s.isInit = true
  pending : Pending s

/-- Between the calls and inside dumps the marks are right. -/
structure Afloat (W : Watch env) (o d : ℕ) (u : Want) (s : Heap) : Prop extends Grounded W o d u s where
  watered : Watered env.args.slotHWMDumpIntervalBytes s.log s.memSlots

theorem Afloat.marked (h : Afloat W o d u s) : Marked W o d u s := ⟨h.toKept, h.watered⟩

theorem Watch.append {evs : List Event} (h : W.P o d u log) (hevs : ∀ e ∈ evs, e.Flat) :
    W.P o d u (evs ++ log) := by
  induction evs with
  | nil => exact h
  | cons e evs ih =>
      exact W.flat (hevs e List.mem_cons_self) (ih fun e he => hevs e (List.mem_cons_of_mem _ he))

namespace Kept

theorem level (h : Kept W o d u s) (hl : Level s s') : Kept W o d u s' where
  stocked := hl.stocked 0 h.stocked
  held hu := (hl.gMutex 0 h.stocked).trans (h.held hu)
  watch := by
    obtain ⟨evs, hlog, hevs⟩ := hl.log
    rw [hlog]
    exact W.append h.watch hevs

theorem halt (h : Kept W o d u s) (hcap : W.cap o) (hf : Flat s s') : W.E s'.log := by
  obtain ⟨evs, hlog, hevs⟩ := hf.log
  rw [hlog]
  exact W.halt hcap (W.append h.watch hevs)

end Kept

theorem Marked.level (h : Marked W o d u s) (hl : Level s s') : Marked W o d u s' :=
  ⟨h.toKept.level hl, h.watered.flat hl.toFlat⟩

theorem Levels.marked {f : M α} (hf : Levels f) (hcap : W.cap o) :
    Maintains (Marked W o d u) (fun _ s' => W.E s'.log) f :=
  fun s h => wp_mono (hf s) (fun _ _ hl => h.level hl) fun _ _ hl => h.halt hcap hl

theorem Afloat.ready (h : Afloat W o d u s) : Ready env False s := ⟨nofun, .inl h.isInit, nofun⟩

theorem Afloat.next {o' : ℕ} (h : Afloat W o d u s) (hR : Rep env 0 s') (hK : Keeps X s s')
    (hX : ∀ h ∈ X, SettledAt s' h) (hm : Marked W o' d u s') : Afloat W o' d u s' where
  toKept := hm.toKept
  rep := hR
  isInit := hK.isInit.trans h.isInit
  pending := h.pending.keeps hR hK fun x hx _ _ hB hlive hreq =>
    absurd (hlive.symm.trans ((hX x hx).filled hR hB hreq)) nofun
  watered := hm.watered

theorem Afloat.level (h : Afloat W o d u s) (hR : Rep env 0 s') (hK : Keeps X s s')
    (hX : ∀ h ∈ X, SettledAt s' h) (hl : Level s s') : Afloat W o d u s' :=
  h.next hR hK hX (h.marked.level hl)

theorem Afloat.levels {f : M α} (h : Afloat W o d u s) (hcap : W.cap o) (hf : Levels f) :
    wp f (fun _ s' => Level s s') (fun _ s' => W.E s'.log) s :=
  wp_mono (hf s) (fun _ _ hl => hl) fun _ _ hl => h.halt hcap hl

/-- A level step whose specification is known. -/
theorem Afloat.bind {f : M α} {g : α → M β} {P : α → Heap → Prop} {Q : β → Heap → Prop}
    {E : Halt → Heap → Prop} (h : Afloat W o d u s)
    (hf : wp f (fun x s' => P x s' ∧ InCall env False 0 ∅ s s') (Halted env False False) s)
    (hl : wp f (fun _ s' => Level s s') E s)
    (hg : ∀ x s₁, P x s₁ → InCall env False 0 ∅ s s₁ → Afloat W o d u s₁ → Level s s₁ → wp (g x) Q E s₁) :
    wp (f >>= g) Q E s := by
  refine wp_bind (wp_mono (wp_and hf hl) ?_ fun _ _ hE => hE.2)
  rintro x s₁ ⟨⟨hP, hc⟩, hl⟩
  exact hg x s₁ hP hc (h.level hc.rep hc.keeps (by simp) hl) hl

/-! ## Dumps -/

structure Outset (W : Watch env) (o d : ℕ) (u : Want) (s : Heap) : Prop where
  rep : Rep env 0 s
  isInit : s.isInit = true
  pending : Pending s
  begun : Marked W o d u { s with log := .dumpBegun :: s.log }

/-- Dumps leave the marks right, and so does the message. -/
structure Ctx.Waters (W : Watch env) (ctx : Ctx) : Prop where
  dump : ∀ b hwm o d u s, W.cap o → Outset W o (d + 1) u s →
    wp (ctx.onExitHelper b hwm) (fun _ => Afloat W o d u) (fun _ s' => W.E s'.log) s
  printf : ∀ o d s, (∀ t, W.cap (o + outer d (requests (env.fmtIO t)))) → Afloat W o d .message s →
    wp ctx.printf (fun _ s' => ∃ t, Afloat W (o + outer d (requests (env.fmtIO t))) d .message s')
      (fun _ s' => W.E s'.log) s

/-- The message and the dump of a call that holds `gMutex`. -/
theorem Afloat.lastDump (h : Afloat W o d u s) (hW : ctx.Waters W) (hroom : Headroom W o d u)
    (hl : s.gMutex.locked = true → s.gMutex.recursive = true)
    (hg : GivesUp env (s.lockHeap .gMutex) s₁) :
    wp (do ctx.printf; ctx.onExitHelper false 0) (fun _ s' => ∀ _ : Site, W.E s'.log)
      (fun _ s' => W.E s'.log) s₁ := by
  have hfree := h.stocked.free hl
  obtain rfl : u = .no := by
    by_contra hu
    exact absurd (hfree.symm.trans (h.held hu)) nofun
  have hflat := (Flat.lock hl).trans hg.toFlat
  have hlocked : s₁.gMutex.locked = true :=
    (hg.gMutex 0 (h.stocked.lock hl)).trans (locked_lockHeap (l := .gMutex))
  have h₁ : Afloat W o d .message s₁ :=
    { stocked := hflat.stocked 0 h.stocked
      held := fun _ => hlocked
      watch := by
        obtain ⟨evs, hlog, hevs⟩ := hflat.log
        rw [hlog]
        exact W.short (W.append h.watch hevs)
      rep := hg.rep 0 (h.rep.lockHeap hl)
      isInit := hg.isInit.trans h.isInit
      pending := by
        unfold Pending
        rw [hg.ledger]
        exact h.pending
      watered := h.watered.flat hflat }
  refine wp_bind_of (hW.printf o d s₁ (hroom.message rfl) h₁) ?_
  rintro _ s₂ ⟨t, h₂⟩
  refine wp_mono (hW.dump false 0 _ d .dump s₂ (hroom.message rfl t) ⟨h₂.rep, h₂.isInit, h₂.pending, ?_⟩)
    (fun _ _ h₃ _ => W.halt (hroom.message rfl t) h₃.watch) fun _ _ hE => hE
  exact
    { stocked := h₂.stocked.same rfl rfl rfl
      held := fun _ => h₂.held nofun
      watch := W.last h₂.watered.rested h₂.watch
      watered := h₂.watered.cons nofun }

/-! ## Refills -/

theorem Afloat.getFromPool (h : Afloat W o d u s) (hctx : ctx.Ok env) (hW : ctx.Waters W)
    (hroom : Headroom W o d u) :
    wp (getFromPool ctx n) (fun _ s' => Level s s') (fun _ s' => W.E s'.log) s := by
  refine getFromPool_level (fun _ _ hf => h.halt hroom.cap hf) fun hl s₁ hg => ?_
  rw [hctx.env_eq] at hg
  exact h.lastDump hW hroom hl hg

theorem replenishLoop_afloat (hctx : ctx.Ok env) (hW : ctx.Waters W) (hcalm : env.Calm)
    (hroom : Headroom W o d u) (hb : 12 ≤ b) (hb' : b < 40) (hi : i < env.args.numSlots) (fuel : ℕ)
    (h : Afloat W o d u s) :
    wp (replenishLoop ctx i b fuel) (fun _ s' => Level s s') (fun _ s' => W.E s'.log) s := by
  have hcalm' : ctx.env.Calm := hctx.env_eq ▸ hcalm
  induction fuel generalizing s with
  | zero => exact wp_throw (h.halt hroom.cap .refl)
  | succ fuel ih =>
      rw [replenishLoop_succ]
      have hspec : wp (GuardRails.getFromPool ctx (2 ^ b)) _ _ s :=
        getFromPool_spec (F := False) (G := False) hctx h.rep h.ready (fun _ => rfl) hb hb'
      refine wp_bind (wp_poll_none hcalm' (wp_bind (wp_mono (wp_and hspec (h.getFromPool hctx hW hroom)) ?_
        fun _ _ hE => hE.2)))
      rintro hdr s₁ ⟨⟨h0, hC⟩ | ⟨rfl, -⟩, hl₁⟩
      · have hcall : InCall env False 0 {hdr} s₁ s₁ :=
          .refl hC.rep (h.ready.mono hC.keeps.isInit hC.keeps.mutex hC.keeps.log)
        refine wp_bind (wp_poll_none hcalm' (wp_ite (fun h => absurd h h0) fun _ => ?_))
        refine wp_bind (wp_mono (wp_and (labelBlock_spec (G := False) hctx hcall ⟨hC.block, hC.zero⟩ hb' hi)
          (levels_labelBlock hcalm' s₁)) ?_ fun _ _ hE => h.halt hroom.cap (hl₁.toFlat.trans hE.2))
        rintro _ s₂ ⟨⟨hc₂, hset, -⟩, hl₂⟩
        have hl₂ := hl₁.trans hl₂
        have h₂ : Afloat W o d u s₂ := h.level hc₂.rep ((hC.keeps.trans hc₂.keeps).absorb hC.new hset)
          (by simp) hl₂
        refine wp_bind (wp_get (wp_ite (fun _ => ?_) fun _ => wp_bind (wp_poll_none hcalm' (wp_pure hl₂))))
        exact wp_mono (ih h₂) (fun _ _ hl => hl₂.trans hl) fun _ _ hE => hE
      · exact wp_bind (wp_poll_none hcalm' (wp_ite (fun _ => wp_pure hl₁) fun h => absurd rfl h))

theorem replenishBin_afloat (hctx : ctx.Ok env) (hW : ctx.Waters W) (hcalm : env.Calm)
    (hroom : Headroom W o d u) (hb : 12 ≤ b) (h : Afloat W o d u s) :
    wp (replenishBin ctx i b) (fun _ s' => Level s s') (fun _ s' => W.E s'.log) s := by
  have hcalm' : ctx.env.Calm := hctx.env_eq ▸ hcalm
  have hE : W.E s.log := h.halt hroom.cap .refl
  unfold replenishBin
  refine wp_bind (wp_poll_none hcalm' (wp_bind (wp_verifyLocked ?_)))
  refine wp_bind (wp_grAssert (fun hlocked => wp_ite (fun _ => wp_throw hE) fun hlt => ?_) fun _ => hE)
  have hi : i < env.args.numSlots := by
    have hm := (h.rep.shape.locks.slot i).count
    rw [h.rep.shape.args_eq] at hm
    exact of_decide_eq_true (hm.1 (of_decide_eq_true hlocked)).2
  refine wp_ite (fun _ => wp_pure .refl) fun _ => wp_bind (wp_poll_none hcalm' (wp_bind (wp_get ?_)))
  refine wp_ite (fun _ => ?_) fun _ => wp_bind (wp_poll_none hcalm' (wp_pure .refl))
  exact replenishLoop_afloat hctx hW hcalm hroom hb (not_le.1 hlt) hi (2 ^ 64) h

end GuardRails
