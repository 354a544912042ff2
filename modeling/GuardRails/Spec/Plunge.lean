import GuardRails.Spec.Drain
import GuardRails.Spec.Nesting

/-!
# Dumps that start each other

A request of more than the interval on top of the mark of its slot starts a dump. If stdio
requests such a buffer for the dump, each dump starts the next before it has done anything else,
as long as there is memory. With an interval of zero any buffer will do.
-/

namespace GuardRails

open StateHoare

variable {env : Env} {ctx : Ctx} {s s' : Heap} {log base evs new : List Event} {e : Event} {q : Request}
  {bt : List ℕ} {a b d i j k n o B : ℕ} {u : Want} {E : Halt → Heap → Prop}

/-! ## The history -/

/-- `j` dumps have begun, and none of them has requested more than `B` bytes itself. -/
structure Fallen (B j : ℕ) (evs : List Event) : Prop where
  begun : GuardRails.begun evs = j
  modest : Modest B evs
  limit : .limitReached ∉ evs

/-- The latest of them has requested nothing yet. -/
structure Poised (B j : ℕ) (evs : List Event) : Prop extends Fallen B j evs where
  fresh : ∀ n ∈ (spending evs).head?, n = 0

theorem Modest.cons (h : Modest B evs) (he : ∀ n ∈ spending (e :: evs), n ≤ B) :
    Modest B (e :: evs) := by
  intro l hl
  rcases List.suffix_cons_iff.1 hl with rfl | hl
  · exact he
  · exact h l hl

theorem Poised.nil : Poised B 0 [] where
  begun := rfl
  modest l hl := by
    rw [List.suffix_nil.1 hl]
    exact fun n hn => absurd hn List.not_mem_nil
  limit := List.not_mem_nil
  fresh n hn := absurd hn (Option.not_mem_none n)

theorem Fallen.begin (h : Fallen B j evs) : Poised B (j + 1) (.dumpBegun :: evs) where
  begun := congrArg (· + 1) h.begun
  modest := by
    refine h.modest.cons fun n hn => ?_
    rcases List.mem_cons.1 hn with rfl | hn
    · exact Nat.zero_le B
    · exact h.modest evs List.suffix_rfl n hn
  limit hl := h.limit ((List.mem_cons.1 hl).resolve_left nofun)
  fresh n hn := (Option.some.inj hn).symm

theorem Poised.cons (h : Poised B j evs) (he : e.Flat) (hp : e.Plain) : Poised B j (e :: evs) where
  begun := he.begun.trans h.begun
  modest := by
    refine h.modest.cons ?_
    rw [he.spending]
    exact h.modest evs List.suffix_rfl
  limit hl := by
    rcases List.mem_cons.1 hl with rfl | hl
    · exact hp
    · exact h.limit hl
  fresh := by
    rw [he.spending]
    exact h.fresh

theorem Poised.append (h : Poised B j evs) (hnew : ∀ e ∈ new, e.Flat ∧ e.Plain) :
    Poised B j (new ++ evs) := by
  induction new with
  | nil => exact h
  | cons e new ih =>
      obtain ⟨he, hp⟩ := hnew e List.mem_cons_self
      exact (ih fun e he => hnew e (List.mem_cons_of_mem _ he)).cons he hp

theorem Poised.counted (h : Poised B j evs) (hq : q.size ≤ B) : Fallen B j (.counted i q :: evs) where
  begun := h.begun
  modest := by
    refine h.modest.cons fun n hn => ?_
    have hspent := h.modest evs List.suffix_rfl
    have hfresh := h.fresh
    change n ∈ (spending evs).modifyHead (· + q.size) at hn
    cases hs : spending evs with
    | nil =>
        rw [hs] at hn
        exact absurd hn List.not_mem_nil
    | cons m ms =>
        rw [hs] at hn hspent hfresh
        obtain rfl := hfresh m rfl
        rcases List.mem_cons.1 hn with rfl | hn
        · exact (Nat.zero_add q.size).trans_le hq
        · exact hspent n (List.mem_cons_of_mem _ hn)
  limit hl := h.limit ((List.mem_cons.1 hl).resolve_left nofun)

/-! ## The heap -/

/-- Slot 0 has never had more than it has now, and the only pool has room for `k` blocks of
class `b`. -/
structure Brimming (b k : ℕ) (s : Heap) : Prop where
  pool : ∃ P, s.memPools = [P] ∧ k * (2 ^ b + guardSize) ≤ P.remainingSizeBytes
  unmarked : (s.bin 0 b).highWater = 0
  unlocked : s.gMutex.locked = false
  brim : highWater 0 s.log = (ledger s.log).bytes 0

theorem size_lt_of_fit (hb : b < 40) (hfit : n ≤ 2 ^ b) : n < 2 ^ 64 :=
  hfit.trans_lt (Nat.pow_lt_pow_right (by decide) (hb.trans (by decide)))

/-- A request takes slot 0 above its mark by all of its size. -/
theorem claimBuf_brims (hctx : ctx.Ok env) (hW : ctx.Waters (.idle env)) (hu : env.Granting)
    (hb : 12 ≤ b) (hb' : b < 40) (hfit : n ≤ 2 ^ b) (h : Afloat (.idle env) o d u s)
    (hbrim : Brimming b (k + 1) s) :
    wp (claimBuf ctx bt b n)
      (fun r s' => ∃ hdr new, r = (0, some hdr) ∧
        Claimed (.idle env) (o + outer d 1) d u 0 ⟨hdr, n, bt⟩ s s' ∧ Brimming b k s' ∧
        s'.log = .counted 0 ⟨hdr, n, bt⟩ :: (new ++ s.log) ∧ (∀ e ∈ new, e.Flat ∧ e.Plain) ∧
        dumpMark 0 (new ++ s.log) + n ≤ highWater 0 s'.log)
      (fun _ _ => False) s := by
  obtain ⟨P, hP, hroom⟩ := hbrim.pool
  rw [Nat.succ_mul] at hroom
  have hslots : 0 < env.args.numSlots := hu.numSlots ▸ Nat.one_pos
  have hsize : log2fast n < 40 := ((log2fast_le_iff (size_lt_of_fit hb' hfit)).2 hfit).trans_lt hb'
  have hslot : env.slotFor s.clock n = 0 := by
    unfold Env.slotFor
    rw [hu.numSlots, Nat.mod_one, ite_self]
  obtain ⟨hs, p, Q, hdraws, hp, -, -, hleft⟩ : ∃ hs p Q, s.Draws env b n hs p ∧ _ :=
    Heap.draws_one hu hP hbrim.unmarked ((Nat.le_add_left _ _).trans hroom)
  have hrun : wp (claimBuf ctx bt b n) _ _ s :=
    claimBuf_run hctx (fun line t _ => hu.calm line t) h.rep h.ready hbrim.unlocked hslots hb hb'
  have hdrawn : wp (claimBuf ctx bt b n) _ _ s :=
    claimBuf_draws hctx hu h.rep h.ready hbrim.unlocked hb hb' hdraws
  refine wp_mono (wp_and hrun (wp_and hdrawn
    (claimBuf_afloat hctx hW hu.calm Watch.headroom_idle h hb))) ?_ ?_
  · rintro _ s₁ ⟨-, ⟨hpools, hdr, rfl, he⟩, -, hclaim⟩
    have hclaim := hclaim hfit
    obtain ⟨new, hflat, hraised⟩ := hclaim.raised
    have hplain : ∀ e ∈ new, e.Plain := by
      have hlogs : (.counted 0 ⟨hdr, n, bt⟩ :: new) ++ s.log = _ := hraised.log.symm.trans he.log
      have hsame := List.append_cancel_right hlogs
      exact fun e he' => he.plain e (hsame ▸ List.mem_cons_of_mem _ he')
    have hbytes : (ledger (new ++ s.log)).bytes 0 = (ledger s.log).bytes 0 := bytes_append hflat 0 s.log
    have hhigh : highWater 0 s₁.log = (ledger s.log).bytes 0 + n := by
      rw [hraised.log, highWater_counted, highWater_append hflat, hbrim.brim, hbytes]
      exact max_eq_right (Nat.le_add_right _ _)
    refine ⟨hdr, new, rfl, hclaim, ⟨⟨Q, hpools.trans hp, ?_⟩, ?_, ?_, ?_⟩, hraised.log,
      fun e he => ⟨hflat e he, hplain e he⟩, ?_⟩
    · exact (Nat.le_sub_of_add_le hroom).trans hleft
    · exact (he.water 0 b).2.trans hbrim.unmarked
    · exact hclaim.unlocked.trans hbrim.unlocked
    · rw [hhigh, hraised.log, bytes_counted, hbytes]
    · have hle : dumpMark 0 (new ++ s.log) ≤ highWater 0 (new ++ s.log) :=
        (hraised.mark 0).elim (fun h0 => h0.trans_le (Nat.zero_le _)) And.right
      rw [highWater_append hflat, hbrim.brim] at hle
      rw [hhigh]
      exact Nat.add_le_add_right hle n
  · rintro e s₁ ⟨⟨-, hlacks, -⟩, -⟩
    rcases hlacks with hlacks | hlarge
    · have hgrants := hlacks.lacks
      rw [hslot] at hgrants
      rcases hdraws with ⟨-, hgranted⟩ | ⟨hfull, -⟩
      · exact hgrants hs p hgranted
      · exact hfull (hslot ▸ hlacks.refills)
    · exact absurd hsize (not_lt.2 hlarge)

/-- A request of more than the interval does not come back if its dump does not. -/
theorem memalignInt_plunges (hctx : ctx.Ok env) (hW : ctx.Waters (.idle env)) (hu : env.Granting)
    (hI : env.args.slotHWMDumpIntervalBytes < n) (hb : b = classOf env.args a n) (hb' : b < 40)
    (hfit : n ≤ 2 ^ b) (h : Afloat (.idle env) o d u s) (hbrim : Brimming b (k + 1) s)
    (hdump : ∀ hwm s₁, Outset (.idle env) (o + outer d 1) (d + 1) u s₁ → Brimming b k s₁ →
      (∃ hdr new, s₁.log = .counted 0 ⟨hdr, n, bt⟩ :: (new ++ s.log) ∧ ∀ e ∈ new, e.Flat ∧ e.Plain) →
        wp (ctx.onExitHelper false hwm) (fun _ _ => False) E s₁) :
    wp (memalignInt ctx bt a n) (fun _ _ => False) E s := by
  have hcalm' : ctx.env.Calm := hctx.env_eq ▸ hu.calm
  unfold memalignInt
  refine wp_bind (wp_get ?_)
  rw [h.rep.shape.args_eq]
  extract_lets allocSize done rest
  refine wp_bind (wp_get (wp_ite (fun h0 => absurd (h0.symm.trans h.isInit) nofun) fun _ => ?_))
  refine wp_bind_of (Q := fun _ _ => False) ?_ fun _ _ h => h.elim
  rw [getBuf_eq]
  change wp (claimBuf ctx bt (classOf env.args a n) n >>= handOut ctx (classOf env.args a n)) _ _ _
  rw [← hb]
  refine wp_bind (wp_mono (claimBuf_brims hctx hW hu (hb ▸ le_classOf _ _ _) hb' hfit h hbrim) ?_
    fun _ _ h => h.elim)
  rintro _ s₁ ⟨hdr, new, rfl, hclaim, hbrim₁, hlog, hnew, hhigh⟩
  refine wp_bind_of (Q := fun _ _ => False) ?_ fun _ _ h => h.elim
  unfold limitDumps
  refine wp_bind (wp_poll_none hcalm' (wp_bind (wp_get ?_)))
  extract_lets S
  refine wp_bind (wp_get ?_)
  extract_lets args rest'
  have hargs : args = env.args := hclaim.rep.shape.args_eq
  rw [hargs]
  have hI' : env.args.slotHWMDumpIntervalBytes < 2 ^ 64 := hI.trans (size_lt_of_fit hb' hfit)
  have hgt : (s₁.memSlots 0).hwmUsrBytes >
      ((s₁.memSlots 0).lastHWMUsrBytesDump + env.args.slotHWMDumpIntervalBytes) % 2 ^ 64 := by
    obtain ⟨evs, -, hraised⟩ := hclaim.raised
    have hevs : evs ++ s.log = new ++ s.log := (List.cons.inj (hraised.log.symm.trans hlog)).2
    rw [hevs] at hraised
    refine (hraised.trigger hI').2 ?_
    rw [← hlog]
    exact (Nat.add_lt_add_left hI _).trans_le hhigh
  refine wp_ite (fun _ => ?_) fun hle => absurd hgt hle
  refine wp_bind (wp_poll_none hcalm' (wp_bind (wp_modify (wp_bind (wp_poll_none hcalm' ?_)))))
  refine wp_bind (wp_get (wp_bind_of (Q := fun _ _ => False) ?_ fun _ _ h => h.elim))
  refine hdump _ _ (hclaim.outset hI' hgt) ⟨hbrim₁.pool, ?_, hbrim₁.unlocked, hbrim₁.brim⟩ ⟨hdr, new, hlog, hnew⟩
  simpa [Heap.bin, Heap.updSlot] using hbrim₁.unmarked

/-- Every dump requests such a buffer first. -/
def Env.Buffers (env : Env) (bt : List ℕ) (a n : ℕ) : Prop :=
  ∀ t, ∃ calls, env.fileIO t = .alloc bt a n :: calls

/-- Dumps that may nest to any depth do. -/
theorem onExitHelper_plunges (hu : env.Granting) (hI : env.args.slotHWMDumpIntervalBytes < n)
    (hbuf : env.Buffers bt a n) (hb : b = classOf env.args a n) (hb' : b < 40) (hfit : n ≤ 2 ^ b) {hwm : ℕ} (h : Outset (.idle env) o (d + 1) u s) (hbrim : Brimming b k s)
    (hlog : s.log = evs ++ base) (hfall : Fallen n j evs) :
    wp ((ctxOf env k).onExitHelper false hwm) (fun _ _ => False)
      (fun e s' => e = .hang ∧ ∃ evs', s'.log = evs' ++ base ∧ Fallen n (j + k + 1) evs') s := by
  induction k generalizing s o d evs j hwm with
  | zero => exact wp_bind (wp_emit (wp_throw ⟨rfl, .dumpBegun :: evs, by rw [hlog]; rfl, hfall.begin.toFallen⟩))
  | succ k ih =>
      have hctx := ctxOf_ok env k
      have hW : (ctxOf env k).Waters (.idle env) :=
        ctxOf_waters hu.calm (hI.trans (size_lt_of_fit hb' hfit)) (.inl fun _ => trivial) k
      have hd := h.rep.dumpBegun (F := False) ⟨nofun, .inl h.isInit, nofun⟩ nofun
      have hbegun : Afloat (.idle env) o (d + 1) u { s with log := .dumpBegun :: s.log } :=
        { h.begun with rep := hd.call.rep, isInit := h.isInit, pending := h.pending }
      refine wp_bind (wp_emit (wp_bind_of (Q := fun _ _ => False) ?_ fun _ _ h => h.elim))
      refine wp_bind_of (Q := fun _ _ => False) ?_ fun _ _ h => h.elim
      refine wp_bind (wp_tick ?_)
      obtain ⟨calls, hcalls⟩ := hbuf s.clock
      rw [hctx.env_eq]
      change wp (stdio _ (env.fileIO s.clock) []) _ _ _
      rw [hcalls]
      refine wp_bind_of (Q := fun _ _ => False) ?_ fun _ _ h => h.elim
      refine memalignInt_plunges hctx hW hu hI hb hb' hfit hbegun.tick
        ⟨hbrim.pool, hbrim.unmarked, hbrim.unlocked, ?_⟩ ?_
      · exact (highWater_cons (e := .dumpBegun) nofun 0).trans hbrim.brim
      · rintro hwm' s₁ hout hbrim₁ ⟨hdr, new, hlog₁, hnew⟩
        have hfall₁ := (hfall.begin.append hnew).counted (i := 0) (q := ⟨hdr, n, bt⟩) le_rfl
        refine wp_mono (ih hout hbrim₁ ?_ hfall₁) (fun _ _ h => h) ?_
        · rw [hlog₁, hlog, List.cons_append, List.append_assoc]
          rfl
        · rintro e s₂ ⟨he, evs', hlog₂, hfall₂⟩
          refine ⟨he, evs', hlog₂, ?_⟩
          rwa [Nat.add_right_comm j 1 k] at hfall₂

end GuardRails
