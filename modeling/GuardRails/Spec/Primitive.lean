import GuardRails.Invariant.Shape

/-!
# Rules for the primitive steps

A weakest-precondition rule for each primitive step of the model. An access that is
known to be allowed has a rule without a faulting case.
-/

namespace GuardRails

open ByteMemory StateHoare

variable {α : Type} {E : Halt → Heap → Prop} {s : Heap} {a n v : ℕ}

theorem wp_grAssert {site : Site} {c : Prop} [Decidable c] {Q : Unit → Heap → Prop}
    (h : c → Q () s) (he : ¬ c → E (.abort site) s) : wp (grAssert site c) Q E s :=
  wp_ite (fun hc => wp_pure (h hc)) fun hc => wp_throw (he hc)

theorem wp_grAssert_of {site : Site} {c : Prop} [Decidable c] {Q : Unit → Heap → Prop}
    (hc : c) (h : Q () s) : wp (grAssert site c) Q E s :=
  wp_grAssert (fun _ => h) fun hn => absurd hc hn

theorem wp_emit {e : Event} {Q : Unit → Heap → Prop} (h : Q () { s with log := e :: s.log }) :
    wp (emit e) Q E s := h

theorem wp_tick {Q : ℕ → Heap → Prop} (h : Q s.clock { s with clock := s.clock + 1 }) :
    wp tick Q E s := h

theorem wp_touch {Q : Unit → Heap → Prop} (h : Accessible s.pages a n → Q () s)
    (he : ¬ Accessible s.pages a n → E (.fault a) s) : wp (touch a n) Q E s :=
  wp_bind (wp_get (wp_ite (fun hc => wp_pure (h hc)) fun hc => wp_throw (he hc)))

theorem wp_load64 {Q : ℕ → Heap → Prop} (h : Accessible s.pages a 8 → Q (word s.mem a) s)
    (he : ¬ Accessible s.pages a 8 → E (.fault a) s) : wp (load64 a) Q E s :=
  wp_bind (wp_touch (fun hc => wp_bind (wp_get (wp_pure (h hc)))) he)

theorem wp_load64_of {Q : ℕ → Heap → Prop} (hacc : Accessible s.pages a 8)
    (h : Q (word s.mem a) s) : wp (load64 a) Q E s :=
  wp_load64 (fun _ => h) fun hn => absurd hacc hn

/-- A load whose value is given a name. -/
theorem wp_load64_eq {Q : ℕ → Heap → Prop}
    (h : Accessible s.pages a 8 → ∀ w, w = word s.mem a → Q w s)
    (he : ¬ Accessible s.pages a 8 → E (.fault a) s) : wp (load64 a) Q E s :=
  wp_load64 (fun hacc => h hacc _ rfl) he

theorem wp_store64 {Q : Unit → Heap → Prop}
    (h : Accessible s.pages a 8 → Q () { s with mem := setWord s.mem a v })
    (he : ¬ Accessible s.pages a 8 → E (.fault a) s) : wp (store64 a v) Q E s :=
  wp_bind (wp_touch (fun hc => wp_modify (h hc)) he)

theorem wp_store64_of {Q : Unit → Heap → Prop} (hacc : Accessible s.pages a 8)
    (h : Q () { s with mem := setWord s.mem a v }) : wp (store64 a v) Q E s :=
  wp_store64 (fun _ => h) fun hn => absurd hacc hn

theorem wp_ldField {f : Field} {Q : ℕ → Heap → Prop} (hacc : Accessible s.pages (a + f.off) 8)
    (h : ∀ x, x = fld s.mem a f → Q x s) : wp (ldField a f) Q E s :=
  wp_load64_of hacc (h _ rfl)

theorem wp_stField {f : Field} {Q : Unit → Heap → Prop}
    (hacc : Accessible s.pages (a + f.off) 8)
    (h : Q () { s with mem := setWord s.mem (a + f.off) v }) : wp (stField a f v) Q E s :=
  wp_store64_of hacc h

theorem wp_memset {b : UInt8} {Q : Unit → Heap → Prop}
    (h : Accessible s.pages a n → Q () { s with mem := update s.mem a n fun _ => b })
    (he : ¬ Accessible s.pages a n → E (.fault a) s) : wp (memset a b n) Q E s :=
  wp_bind (wp_touch (fun hc => wp_modify (h hc)) he)

theorem wp_memset_of {b : UInt8} {Q : Unit → Heap → Prop} (hacc : Accessible s.pages a n)
    (h : Q () { s with mem := update s.mem a n fun _ => b }) : wp (memset a b n) Q E s :=
  wp_memset (fun _ => h) fun hn => absurd hacc hn

theorem wp_memcpy {dst src : ℕ} {Q : Unit → Heap → Prop}
    (hsrc : Accessible s.pages src n) (hdst : Accessible s.pages dst n)
    (h : Q () { s with mem := update s.mem dst n fun i => s.mem (src + i) }) :
    wp (memcpy dst src n) Q E s :=
  wp_bind (wp_touch (fun _ => wp_bind (wp_touch (fun _ => wp_modify h) fun hn => absurd hdst hn))
    fun hn => absurd hsrc hn)

theorem wp_memcmp {arr : ℕ → UInt8} {Q : Bool → Heap → Prop} (hacc : Accessible s.pages a n)
    (h : Q (decide (∀ i < n, s.mem (a + i) = arr i)) s) : wp (memcmp a arr n) Q E s :=
  wp_bind (wp_touch (fun _ => wp_bind (wp_get (wp_pure h))) fun hn => absurd hacc hn)

theorem wp_storeBytes {bytes : List UInt8} {Q : Unit → Heap → Prop}
    (hacc : Accessible s.pages a bytes.length)
    (h : Q () { s with mem := update s.mem a bytes.length fun i => bytes.getD i 0 }) :
    wp (storeBytes a bytes) Q E s :=
  wp_bind (wp_touch (fun _ => wp_modify h) fun hn => absurd hacc hn)

theorem wp_storeWords {ws : List ℕ} {Q : Unit → Heap → Prop}
    (hacc : Accessible s.pages a (8 * ws.length))
    (h : Q () { s with mem := setWords s.mem a ws }) : wp (storeWords a ws) Q E s := by
  induction ws generalizing s a with
  | nil => exact wp_pure h
  | cons w ws ih =>
      rw [List.length_cons] at hacc
      refine wp_bind (wp_store64_of (hacc.mono (le_refl a) (by omega)) ?_)
      exact ih (hacc.mono (by omega) (by omega)) h

/-- `mmap` grants fresh pages or fails. -/
theorem wp_mmap {env : Env} {Q : Option ℕ → Heap → Prop}
    (hnone : Q none { s with clock := s.clock + 1, log := .mmapFailed :: s.log })
    (hsome : ∀ a, Granted s.memPools a n → Q (some a)
      { s with
        clock := s.clock + 1
        mem := update s.mem a n fun _ => 0
        pages := protectPages s.pages a n .readWrite }) :
    wp (mmap env n) Q E s := by
  refine wp_bind (wp_tick (wp_bind (wp_get ?_)))
  split
  · exact wp_bind (wp_emit (wp_pure hnone))
  · rename_i a _
    exact wp_ite (fun hg => wp_bind (wp_set (wp_pure (hsome a hg))))
      fun _ => wp_bind (wp_emit (wp_pure hnone))

theorem wp_mprotect {env : Env} {p : Prot} {Q : ℤ → Heap → Prop}
    (hok : Q 0 { s with clock := s.clock + 1, pages := protectPages s.pages a n p })
    (hfail : Q (-1) { s with clock := s.clock + 1, log := .mprotectFailed :: s.log }) :
    wp (mprotect env a n p) Q E s := by
  refine wp_bind (wp_tick (wp_ite (fun _ => ?_) fun _ => ?_))
  · exact wp_bind (wp_modify (wp_pure hok))
  · exact wp_bind (wp_emit (wp_pure hfail))

theorem wp_mlock {env : Env} {Q : ℤ → Heap → Prop}
    (hok : Q 0 { s with clock := s.clock + 1 })
    (hfail : Q (-1) { s with clock := s.clock + 1, log := .mlockFailed :: s.log }) :
    wp (mlock env) Q E s := by
  refine wp_bind (wp_tick (wp_ite (fun _ => ?_) fun _ => ?_))
  · exact wp_pure hok
  · exact wp_bind (wp_emit (wp_pure hfail))

def Heap.lockHeap (s : Heap) (l : LockId) : Heap :=
  { (s.setMutex l (s.mutex l).lock) with clock := s.clock + 1, log := .acquired l :: s.log }

def Heap.unlockHeap (s : Heap) (l : LockId) : Heap :=
  { (s.setMutex l (s.mutex l).unlock) with log := .released l :: s.log }

theorem wp_pthreadMutexLock {l : LockId} {Q : Unit → Heap → Prop}
    (h : ((s.mutex l).locked = true → (s.mutex l).recursive = true) → Q () (s.lockHeap l))
    (he : (s.mutex l).locked = true → (s.mutex l).recursive = false →
      E .deadlock { s with clock := s.clock + 1 }) :
    wp (pthreadMutexLock l) Q E s := by
  have hm : ({ s with clock := s.clock + 1 } : Heap).mutex l = s.mutex l := by cases l <;> rfl
  have hset : ∀ m, ({ (({ s with clock := s.clock + 1 } : Heap).setMutex l m) with
      log := .acquired l :: s.log } : Heap) =
      { (s.setMutex l m) with clock := s.clock + 1, log := .acquired l :: s.log } := by
    cases l <;> exact fun _ => rfl
  refine wp_bind (wp_tick (wp_bind (wp_get (wp_ite (fun hc => ?_) fun hc => ?_))))
  · rw [hm, Bool.and_eq_true, Bool.not_eq_true'] at hc
    exact wp_throw (he hc.1 hc.2)
  · rw [hm, Bool.and_eq_true, Bool.not_eq_true'] at hc
    have hq : Q () (s.lockHeap l) := h fun hl => by simpa [hl] using hc
    rw [Heap.lockHeap, ← hset, ← hm] at hq
    refine wp_bind (wp_set (wp_emit ?_))
    cases l <;> exact hq

theorem wp_pthreadMutexUnlock {l : LockId} {Q : Unit → Heap → Prop}
    (h : Q () (s.unlockHeap l)) : wp (pthreadMutexUnlock l) Q E s := by
  refine wp_bind (wp_modify (wp_emit ?_))
  cases l <;> exact h

theorem wp_verifyLocked {l : LockId} {Q : Bool → Heap → Prop}
    (h : Q (decide (0 < (s.mutex l).count)) s) : wp (verifyLocked l) Q E s :=
  wp_bind (wp_get (wp_pure h))

/-- At a boundary either no signal arrives or a dump runs. -/
theorem wp_poll {ctx : Ctx} {line : ℕ} {Q : Unit → Heap → Prop} (hq : Q () s)
    (hdump : ctx.env.sigusr2 line s.clock = true → wp (ctx.onExitHelper true 0) Q E s) :
    wp (ctx.poll line) Q E s :=
  wp_bind (wp_get (wp_ite hdump fun _ => wp_pure hq))

end GuardRails
