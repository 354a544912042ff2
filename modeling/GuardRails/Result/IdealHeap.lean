import GuardRails.Lib.ObjectHeap
import GuardRails.Result.Isolation

/-!
# The allocator as a heap of objects

A well-behaved client cannot tell the allocator from a heap of separate objects: each call stands
for actions on the objects that it holds, and what it returns and reads is what that heap gives.
Of headers, guard pages, lists and delayed blocks nothing is seen.
-/

namespace GuardRails

open ByteMemory ObjectHeap StateHoare

variable {env : Env} {depth : ℕ} {st st' : Proc} {c : Call} {s s' : Heap} {bt : List ℕ} {p q n : ℕ}
  {held : Books} {args : GRArgs} {data : List UInt8}

/-- What the client can see of a call: the pointer that it returns and the bytes that it reads. -/
structure Outline where
  call : Call
  result : ℕ
  data : List UInt8

def Call.loaded (m : Mem) : Call → List UInt8
  | load ptr off n => bytesAt m (ptr + off) n
  | _ => []

inductive Seen (env : Env) (depth : ℕ) (st : Proc) : Outline → Proc → Prop
  | mk {c : Call} {bt : List ℕ} {p : ℕ} {s' : Heap} (hok : c.Ok st.held)
      (hexec : c.exec (ctxOf env depth) bt st.heap = .ok p s') :
      Seen env depth st ⟨c, p, c.loaded s'.mem⟩ ⟨s', c.book st.held p⟩

def Proc.objects (st : Proc) : Objects ℕ UInt8 := fun p =>
  (st.held.lookup p).map (bytesAt st.heap.mem p)

def Uncleared (args : GRArgs) (n : ℕ) (bytes : List UInt8) : Prop :=
  bytes.length = n ∧ (args.poison = true → ∀ b ∈ bytes, b = args.poisonVal)

/-- The actions that a call stands for. -/
inductive Outline.Means (args : GRArgs) : Outline → List (HeapAction ℕ UInt8) → Prop
  | malloc {n p : ℕ} {bytes : List UInt8} (hp : p ≠ 0) (hbytes : Uncleared args n bytes) :
      Means args ⟨.malloc n, p, []⟩ [.create p bytes]
  | memalign {alignment n p : ℕ} {bytes : List UInt8} (hp : p ≠ 0) (hbytes : Uncleared args n bytes) :
      Means args ⟨.memalign alignment n, p, []⟩ [.create p bytes]
  | posixMemalign {alignment n p : ℕ} {bytes : List UInt8} (hp : p ≠ 0)
      (hbytes : Uncleared args n bytes) : Means args ⟨.posixMemalign alignment n, p, []⟩ [.create p bytes]
  | calloc {nmemb n p : ℕ} (hp : p ≠ 0) :
      Means args ⟨.calloc nmemb n, p, []⟩ [.create p (List.replicate (nmemb * n % 2 ^ 64) 0)]
  | reallocNull {n p : ℕ} {bytes : List UInt8} (hp : p ≠ 0) (hbytes : Uncleared args n bytes) :
      Means args ⟨.realloc 0 n, p, []⟩ [.create p bytes]
  | realloc {q n p : ℕ} {bytes : List UInt8} (hp : p ≠ 0) (hq : q ≠ 0) (hbytes : bytes.length = n) :
      Means args ⟨.realloc q n, p, []⟩ [.move q p bytes]
  /-- An allocation that is refused leaves all objects as they are. -/
  | refused {c : Call} (hsize : c.size? ≠ none) : Means args ⟨c, 0, []⟩ []
  | freeNull : Means args ⟨.free 0, 0, []⟩ []
  | free {p : ℕ} (hp : p ≠ 0) : Means args ⟨.free p, 0, []⟩ [.destroy p]
  | load {p off n : ℕ} {bytes : List UInt8} (hbytes : bytes.length = n) :
      Means args ⟨.load p off n, 0, bytes⟩ [.read p off bytes]
  | store {p off : ℕ} {bytes : List UInt8} : Means args ⟨.store p off bytes, 0, []⟩ [.write p off bytes]
  | onExit : Means args ⟨.onExit, 0, []⟩ []

/-! ## The books -/

theorem lookup_eq_of_mem (hnodup : (held.map Prod.fst).Nodup) (hmem : (p, n) ∈ held) :
    held.lookup p = some n := by
  induction held with
  | nil => exact absurd hmem List.not_mem_nil
  | cons e held ih =>
      rw [List.map_cons, List.nodup_cons] at hnodup
      rcases List.mem_cons.1 hmem with rfl | hmem
      · exact List.lookup_cons_self
      · have hne : p ≠ e.1 := fun heq => hnodup.1 (heq ▸ List.mem_map_of_mem (f := Prod.fst) hmem)
        rw [List.lookup_cons, beq_false_of_ne hne]
        exact ih hnodup.2 hmem

theorem mem_of_lookup (h : held.lookup p = some n) : (p, n) ∈ held := by
  obtain ⟨l, l', rfl, -⟩ := List.lookup_eq_some_iff.1 h
  simp

theorem lookup_filter_ne (held : Books) (q p : ℕ) :
    (held.filter fun e => e.1 ≠ q).lookup p = if p = q then none else held.lookup p := by
  induction held with
  | nil => simp
  | cons e held ih =>
      by_cases he : e.1 = q
      · rw [List.filter_cons_of_neg (by simpa using he), ih, List.lookup_cons]
        grind
      · rw [List.filter_cons_of_pos (by simpa using he), List.lookup_cons, ih, List.lookup_cons]
        grind

theorem objects_eq_none (s : Heap) (h : p ∉ held.map Prod.fst) : (Proc.mk s held).objects p = none := by
  have hnone : held.lookup p = none := by
    rw [List.lookup_eq_none_iff]
    exact fun e he => bne_iff_ne.2 fun heq => h (heq ▸ List.mem_map_of_mem he)
  rw [Proc.objects, hnone]
  rfl

theorem objects_congr (h : ∀ q n, (q, n) ∈ held → bytesAt s'.mem q n = bytesAt s.mem q n) :
    (Proc.mk s' held).objects = (Proc.mk s held).objects := by
  funext q
  unfold Proc.objects
  cases hq : held.lookup q with
  | none => rfl
  | some n => exact congrArg some (h q n (mem_of_lookup hq))

theorem objects_cons (s : Heap) (held : Books) (p n : ℕ) : (Proc.mk s ((p, n) :: held)).objects =
    Function.update (Proc.mk s held).objects p (some (bytesAt s.mem p n)) := by
  funext q
  rw [Function.update_apply, Proc.objects, List.lookup_cons]
  by_cases hq : q = p
  · rw [if_pos hq, hq, beq_self_eq_true]
    rfl
  · rw [if_neg hq, beq_false_of_ne hq]
    rfl

theorem objects_filter (s : Heap) (held : Books) (p : ℕ) :
    (Proc.mk s (held.filter fun e => e.1 ≠ p)).objects = Function.update (Proc.mk s held).objects p none := by
  funext q
  rw [Function.update_apply, Proc.objects, lookup_filter_ne]
  split <;> rfl

theorem Proc.Inv.object (hst : st.Inv env) (hmem : (p, n) ∈ st.held) :
    st.objects p = some (bytesAt st.heap.mem p n) := by
  rw [Proc.objects, lookup_eq_of_mem hst.nodup hmem]
  rfl

theorem Proc.Inv.held_ne_zero (hst : st.Inv env) (hmem : (p, n) ∈ st.held) : p ≠ 0 := by
  obtain ⟨a, rfl, -, ha⟩ := hst.holds hmem
  exact hst.rep.ptr_ne_zero ha

/-! ## One call -/

/-- What a call leaves as it is. -/
theorem Effect.objects_kept (heff : Effect args c p st.heap s') (hst : st.Inv env)
    (ht : ∀ q n, (q, n) ∈ held → (q, n) ∈ st.held ∧ c.target? ≠ some q) :
    (Proc.mk s' held).objects = (Proc.mk st.heap held).objects := by
  refine objects_congr fun q n hmem => ?_
  obtain ⟨hmem, htarget⟩ := ht q n hmem
  obtain ⟨a, rfl, rfl, ha⟩ := hst.holds hmem
  exact bytesAt_congr (heff.others a ha htarget).2

/-- A new object. -/
theorem Effect.created (heff : Effect args c p st.heap s') (hst : st.Inv env)
    (hst' : Proc.Inv env ⟨s', (p, n) :: st.held⟩) (ht : ∀ q n, (q, n) ∈ st.held → c.target? ≠ some q) :
    st.objects.run [.create p (bytesAt s'.mem p n)] = some (Proc.mk s' ((p, n) :: st.held)).objects := by
  have hnew : st.objects p = none := objects_eq_none st.heap (List.nodup_cons.1 hst'.nodup).1
  rw [Objects.run_singleton, Objects.next_create hnew, objects_cons,
    heff.objects_kept hst fun q n hmem => ⟨hmem, ht q n hmem⟩]

/-- A refused request, and a dump. -/
theorem Effect.unchanged (heff : Effect args c p st.heap s') (hst : st.Inv env)
    (hrefused : c.size? ≠ none ∧ p = 0 ∨ c.target? = none) :
    st.objects.run [] = some (Proc.mk s' st.held).objects := by
  refine congrArg some (objects_congr fun q n hmem => ?_).symm
  obtain ⟨a, rfl, rfl, ha⟩ := hst.holds hmem
  rcases hrefused with ⟨hsize, hp⟩ | ht
  · exact bytesAt_congr (heff.refused hsize hp a ha).2
  · exact bytesAt_congr (heff.others a ha (by rw [ht]; nofun)).2

theorem uncleared_of_poisoned {a : Alloc} (h : Poisoned args s'.mem a) :
    Uncleared args a.size (bytesAt s'.mem a.ptr a.size) := by
  refine ⟨length_bytesAt, fun hpoison b hb => ?_⟩
  obtain ⟨i, hi, rfl⟩ := List.mem_map.1 hb
  exact h hpoison i (List.mem_range.1 hi)

/-- Calls that only poison what they hand out. -/
theorem Effect.uninitialized (heff : Effect args c p st.heap s') (hst : st.Inv env)
    (hst' : Proc.Inv env ⟨s', c.book st.held p⟩) (hc : c.Uninitialized n) :
    ∃ as, Outline.Means args ⟨c, p, []⟩ as ∧
      st.objects.run as = some (Proc.mk s' (c.book st.held p)).objects := by
  by_cases hp : p = 0
  · have hsize : c.size? ≠ none := by cases hc <;> nofun
    have hbook : c.book st.held p = st.held := by cases hc <;> exact if_pos hp
    rw [hbook]
    exact ⟨[], hp ▸ .refused hsize, heff.unchanged hst (.inl ⟨hsize, hp⟩)⟩
  · obtain ⟨a, rfl, hsize, -, -, hfill, -⟩ := heff.served hp
    have hbook : c.book st.held a.ptr = (a.ptr, a.size) :: st.held := by
      cases hc <;> (obtain rfl := Option.some.inj hsize; exact if_neg hp)
    rw [hbook] at hst' ⊢
    refine ⟨[.create a.ptr (bytesAt s'.mem a.ptr a.size)], ?_, heff.created hst hst' ?_⟩
    · cases hc <;> obtain rfl := Option.some.inj hsize
      · exact .malloc hp (uncleared_of_poisoned hfill)
      · exact .memalign hp (uncleared_of_poisoned hfill)
      · exact .posixMemalign hp (uncleared_of_poisoned hfill)
    · cases hc <;> exact fun _ _ _ => nofun

theorem Effect.calloc_actions {nmemb : ℕ} (heff : Effect args (.calloc nmemb n) p st.heap s')
    (hst : st.Inv env) (hst' : Proc.Inv env ⟨s', (Call.calloc nmemb n).book st.held p⟩) :
    ∃ as, Outline.Means args ⟨.calloc nmemb n, p, []⟩ as ∧
      st.objects.run as = some (Proc.mk s' ((Call.calloc nmemb n).book st.held p)).objects := by
  by_cases hp : p = 0
  · have hbook : (Call.calloc nmemb n).book st.held p = st.held := if_pos hp
    rw [hbook]
    exact ⟨[], hp ▸ .refused nofun, heff.unchanged hst (.inl ⟨nofun, hp⟩)⟩
  · obtain ⟨a, rfl, hsize, -, -, hzero, -⟩ := heff.served hp
    have hsize : nmemb * n % 2 ^ 64 = a.size := Option.some.inj hsize
    have hbook : (Call.calloc nmemb n).book st.held a.ptr = (a.ptr, nmemb * n % 2 ^ 64) :: st.held := if_neg hp
    have hbytes : bytesAt s'.mem a.ptr (nmemb * n % 2 ^ 64) = List.replicate (nmemb * n % 2 ^ 64) 0 := by
      refine List.eq_replicate_iff.2 ⟨length_bytesAt, fun b hb => ?_⟩
      obtain ⟨i, hi, rfl⟩ := List.mem_map.1 hb
      exact hzero i (hsize ▸ List.mem_range.1 hi)
    rw [hbook] at hst' ⊢
    refine ⟨_, .calloc hp, ?_⟩
    rw [← hbytes]
    exact heff.created hst hst' fun _ _ _ => nofun

theorem Effect.realloc_actions (heff : Effect args (.realloc q n) p st.heap s') (hst : st.Inv env)
    (hok : (Call.realloc q n).Ok st.held)
    (hst' : Proc.Inv env ⟨s', (Call.realloc q n).book st.held p⟩) :
    ∃ as, Outline.Means args ⟨.realloc q n, p, []⟩ as ∧
      st.objects.run as = some (Proc.mk s' ((Call.realloc q n).book st.held p)).objects := by
  by_cases hp : p = 0
  · have hbook : (Call.realloc q n).book st.held p = st.held := if_pos hp
    rw [hbook]
    exact ⟨[], hp ▸ .refused nofun, heff.unchanged hst (.inl ⟨nofun, hp⟩)⟩
  · obtain ⟨a, rfl, hsize, -, -, ⟨hpoison, hmoved⟩, -⟩ := heff.served hp
    obtain rfl : n = a.size := Option.some.inj hsize
    have hbook : (Call.realloc q a.size).book st.held a.ptr =
        (a.ptr, a.size) :: st.held.filter fun e => e.1 ≠ q := if_neg hp
    rw [hbook] at hst' ⊢
    rcases hok.2 with rfl | ⟨k, hk⟩
    · have hall : st.held.filter (fun e => e.1 ≠ 0) = st.held :=
        List.filter_eq_self.2 fun e he => by simpa using hst.held_ne_zero (n := e.2) he
      rw [hall] at hst' ⊢
      refine ⟨_, .reallocNull hp (uncleared_of_poisoned (hpoison rfl)), heff.created hst hst' ?_⟩
      exact fun r m hmem heq => hst.held_ne_zero hmem (Option.some.inj heq).symm
    · obtain ⟨a₀, rfl, rfl, ha₀⟩ := hst.holds hk
      have hm := hmoved a₀ ha₀ rfl
      have hfree : st.objects a.ptr = none := by
        refine objects_eq_none st.heap fun hmem => ?_
        obtain ⟨e, he, heq⟩ := List.mem_map.1 hmem
        have hin : e ∈ st.held.filter fun e => e.1 ≠ a₀.ptr :=
          List.mem_filter.2 ⟨he, by simpa [heq] using hm.ptr_ne⟩
        have hkey := List.mem_map_of_mem (f := Prod.fst) hin
        rw [heq] at hkey
        exact (List.nodup_cons.1 hst'.nodup).1 hkey
      have hkept := take_bytesAt (m := st.heap.mem) (p := a₀.ptr) hm.copied
      refine ⟨_, .realloc hp (hst.held_ne_zero hk) (length_bytesAt (m := s'.mem) (p := a.ptr)), ?_⟩
      have hmove : st.objects.next (.move a₀.ptr a.ptr (bytesAt s'.mem a.ptr a.size)) = _ :=
        Objects.next_move (hst.object hk) hfree (by rw [length_bytesAt, length_bytesAt]; exact hkept)
      rw [Objects.run_singleton, hmove, objects_cons, heff.objects_kept hst, objects_filter,
        Function.update_comm hm.ptr_ne]
      intro r m hmem
      obtain ⟨hmem, hne⟩ := List.mem_filter.1 hmem
      exact ⟨hmem, fun heq => absurd (Option.some.inj heq).symm (by simpa using hne)⟩

theorem Effect.free_actions (heff : Effect args (.free q) p st.heap s') (hst : st.Inv env)
    (hok : (Call.free q).Ok st.held) (hp : p = 0) :
    ∃ as, Outline.Means args ⟨.free q, p, []⟩ as ∧
      st.objects.run as = some (Proc.mk s' ((Call.free q).book st.held p)).objects := by
  have hbook : (Call.free q).book st.held p = st.held.filter fun e => e.1 ≠ q := rfl
  subst hp
  rw [hbook, heff.objects_kept hst, objects_filter]
  · rcases hok with rfl | ⟨n, hn⟩
    · have hnone : st.objects 0 = none := objects_eq_none st.heap fun hmem => by
        obtain ⟨e, he, h0⟩ := List.mem_map.1 hmem
        exact hst.held_ne_zero (n := e.2) he h0
      exact ⟨[], .freeNull, congrArg some (Function.update_eq_self_iff.2 hnone.symm).symm⟩
    · exact ⟨_, .free (hst.held_ne_zero hn), Objects.run_singleton.trans (Objects.next_destroy (hst.object hn))⟩
  · intro r m hmem
    obtain ⟨hmem, hne⟩ := List.mem_filter.1 hmem
    exact ⟨hmem, fun heq => absurd (Option.some.inj heq).symm (by simpa using hne)⟩

/-! ## Accesses -/

/-- A call that returns nothing. -/
theorem silent_result {α : Type} {x : M α} (h : (x >>= fun _ => pure 0) s = .ok p s') : p = 0 := by
  have hwp : wp (x >>= fun _ => pure 0) (fun p _ => p = 0) (fun _ _ => True) s :=
    wp_bind (wp_run (fun _ _ _ => wp_pure rfl) fun _ _ _ => trivial)
  have h := wp_ok hwp h
  exact h

theorem load_heap {ctx : Ctx} {off : ℕ} (h : (Call.load q off n).exec ctx bt s = .ok p s') :
    p = 0 ∧ s' = s := by
  have hwp : wp ((Call.load q off n).exec ctx bt) (fun p s' => p = 0 ∧ s' = s) (fun _ _ => True) s :=
    wp_bind (wp_touch (fun _ => wp_pure ⟨rfl, rfl⟩) fun _ => trivial)
  have h := wp_ok hwp h
  exact h

theorem load_actions {off : ℕ} (hst : st.Inv env) (hok : (Call.load q off n).Ok st.held)
    (hexec : (Call.load q off n).exec (ctxOf env depth) bt st.heap = .ok p s') :
    ∃ as, Outline.Means args ⟨.load q off n, p, (Call.load q off n).loaded s'.mem⟩ as ∧
      st.objects.run as = some (Proc.mk s' ((Call.load q off n).book st.held p)).objects := by
  obtain ⟨rfl, hs⟩ := load_heap hexec
  obtain ⟨size, hmem, hfits⟩ := hok
  have hloaded : (Call.load q off n).loaded s'.mem = bytesAt st.heap.mem (q + off) n := by
    rw [hs]
    rfl
  rw [hloaded, hs]
  refine ⟨_, .load length_bytesAt, Objects.run_singleton.trans (Objects.next_read (hst.object hmem) ?_ ?_)⟩
  · rw [length_bytesAt, length_bytesAt]
    exact hfits
  · rw [length_bytesAt]
    exact take_drop_bytesAt hfits

theorem Effect.store_actions {off : ℕ} {bytes : List UInt8}
    (heff : Effect args (.store q off bytes) p st.heap s') (hst : st.Inv env)
    (hok : (Call.store q off bytes).Ok st.held)
    (hexec : (Call.store q off bytes).exec (ctxOf env depth) bt st.heap = .ok p s') :
    ∃ as, Outline.Means args ⟨.store q off bytes, p, []⟩ as ∧
      st.objects.run as = some (Proc.mk s' ((Call.store q off bytes).book st.held p)).objects := by
  obtain rfl := silent_result hexec
  obtain ⟨size, hmem, hfits⟩ := hok
  have hsplice : bytesAt s'.mem q size = splice (bytesAt st.heap.mem q size) off bytes := by
    rw [store_mem hexec]
    refine bytesAt_splice hfits (fun i hi => ?_) fun i _ hout => update_of_notMem (by omega)
    rw [update_of_mem (by omega) (by omega), show q + (off + i) - (q + off) = i by omega,
      List.getD_eq_getElem _ _ hi]
  refine ⟨_, .store, Objects.run_singleton.trans ?_⟩
  rw [Objects.next_write (hst.object hmem) (by rw [length_bytesAt]; exact hfits), ← hsplice]
  have hkept : (Proc.mk s' (st.held.filter fun e => e.1 ≠ q)).objects =
      (Proc.mk st.heap (st.held.filter fun e => e.1 ≠ q)).objects := heff.objects_kept hst fun r m hr => by
    obtain ⟨hr, hne⟩ := List.mem_filter.1 hr
    exact ⟨hr, fun heq => absurd (Option.some.inj heq).symm (by simpa using hne)⟩
  rw [objects_filter, objects_filter] at hkept
  have hobject : (Proc.mk s' st.held).objects q = some (bytesAt s'.mem q size) := by
    rw [Proc.objects, lookup_eq_of_mem hst.nodup hmem]
    rfl
  refine congrArg some (funext fun r => ?_)
  rw [Function.update_apply]
  split
  · next hr => exact hr ▸ hobject.symm
  · next hr =>
      have h := congrFun hkept r
      rw [Function.update_of_ne hr, Function.update_of_ne hr] at h
      exact h.symm

/-! ## The refinement -/

/-- One call of a well-behaved client. -/
theorem Seen.refines {o : Outline} (hst : st.Inv env) (hstep : Seen env depth st o st') :
    st'.Inv env ∧ ∃ as, o.Means env.args as ∧ st.objects.run as = some st'.objects := by
  obtain ⟨hok, hexec⟩ := hstep
  rename_i c bt p s'
  obtain ⟨hst', heff⟩ := wp_ok (exec_spec hst hok) hexec
  refine ⟨hst', ?_⟩
  cases c with
  | malloc n => exact heff.uninitialized hst hst' .malloc
  | memalign alignment n => exact heff.uninitialized hst hst' .memalign
  | posixMemalign alignment n => exact heff.uninitialized hst hst' .posixMemalign
  | calloc nmemb n => exact heff.calloc_actions hst hst'
  | realloc q n => exact heff.realloc_actions hst hok hst'
  | free q => exact heff.free_actions hst hok (silent_result hexec)
  | load q off n => exact load_actions hst hok hexec
  | store q off bytes => exact heff.store_actions hst hok hexec
  | onExit =>
      obtain rfl := silent_result hexec
      exact ⟨[], .onExit, heff.unchanged hst (.inr rfl)⟩

def ApartObjects (H : Objects ℕ UInt8) : Prop :=
  ∀ p q b c, H p = some b → H q = some c → p ≠ q → Apart p b.length q c.length

theorem Proc.Inv.apartObjects (hst : st.Inv env) : ApartObjects st.objects := by
  have hobject : ∀ p b, st.objects p = some b → (p, b.length) ∈ st.held := by
    intro p b hb
    obtain ⟨n, hn, rfl⟩ := Option.map_eq_some_iff.1 hb
    rw [length_bytesAt]
    exact mem_of_lookup hn
  intro p q b c hb hc hne
  obtain ⟨x, rfl, hx, hlx⟩ := hst.holds (hobject p b hb)
  obtain ⟨y, rfl, hy, hly⟩ := hst.holds (hobject q c hc)
  have hS := hst.rep.shape
  obtain ⟨A, hA, -, hxA, hpA⟩ := hst.rep.log_ok.lawful.sound.live_inUse hlx
  obtain ⟨B, hB, -, hyB, hpB⟩ := hst.rep.log_ok.lawful.sound.live_inUse hly
  have hbx := hS.user_bounds hA (by simp [hpA]) hxA
  have hby := hS.user_bounds hB (by simp [hpB]) hyB
  have hsep := hS.layout.sep x.hdr y.hdr A B hA hB fun heq => hne (congrArg Alloc.ptr (hlx.hdr_inj hly heq))
  unfold Apart at hsep ⊢
  omega

/-- Whatever a well-behaved client does from the start of the program on, and whatever is refused
or delayed on the way: what it sees is what a heap of separate objects shows. -/
theorem refines_object_heap (henv : env.Ok) {os : List Outline}
    (hboot : boot env depth Heap.static = .ok () s) (hrun : Runs (Seen env depth) ⟨s, []⟩ os st) :
    ∃ ass, List.Forall₂ (Outline.Means env.args) os ass ∧
      Objects.run (fun _ => none) ass.flatten = some st.objects ∧ ApartObjects st.objects := by
  have hstep : ∀ (st : Proc) (o : Outline) (st' : Proc), st.Inv env → Seen env depth st o st' →
      st'.Inv env ∧ ∃ as, o.Means env.args as ∧ st.objects.run as = some st'.objects :=
    fun _ _ _ => Seen.refines
  obtain ⟨hst, ass, hmeans, hobj⟩ := hrun.refines hstep (boot_inv henv hboot)
  exact ⟨ass, hmeans, hobj, hst.apartObjects⟩

/-- What a client sees of a run. -/
theorem Run.seen {cs : List Call} (hrun : Run env depth st cs st') :
    ∃ os : List Outline, os.map Outline.call = cs ∧ Runs (Seen env depth) st os st' := by
  induction hrun with
  | refl => exact ⟨[], rfl, .refl⟩
  | tail _ hstep ih =>
      obtain ⟨os, rfl, hos⟩ := ih
      obtain ⟨hok, hexec⟩ := hstep
      exact ⟨_, List.map_append, hos.tail (.mk hok hexec)⟩

theorem refines_object_heap_malloc : ∃ s os st p,
    boot (Env.still .defaults) 1 Heap.static = .ok () s ∧
    Runs (Seen (Env.still .defaults) 1) ⟨s, []⟩ os st ∧ st.held = [(p, 24)] ∧
    ∃ ass, List.Forall₂ (Outline.Means .defaults) os ass ∧
      Objects.run (fun _ => none) ass.flatten = some st.objects ∧ ApartObjects st.objects := by
  obtain ⟨st, a, -, ⟨s, cs, hboot, hrun⟩, -, hheld, -⟩ := exists_served 1 24 (by decide) rfl (by decide)
  obtain ⟨os, -, hos⟩ := hrun.seen
  exact ⟨s, os, st, a.ptr, hboot, hos, hheld,
    refines_object_heap (Env.still_ok GRArgs.defaults_ok) hboot hos⟩

end GuardRails
