import GuardRails.Model.Heap
import Mathlib.Data.List.Nodup

/-!
# The ledger of blocks

The allocator described without memory: every block is in one place, the lists
of a bin and the delay ring of a slot are sequences of blocks, and an event moves
one block. `Ledger.Legal` says which events are allowed, `Ledger.Sound` what holds
of the ledger of every lawful history. The delay ring is a queue: a block leaves
it when it is the oldest and more than a quarter of the ring is in use.
-/

namespace GuardRails

/-- Where a block is: cut off a pool and not labelled yet, in the hands of a
function that moves it, in the delay ring, or on a list of its bin. -/
inductive Place
  | raw | held | ring | on (kind : ListKind)
  deriving DecidableEq

/-- What the ledger says of a block. The owner is the latest allocation that
filled it; it stays on record when the block is free again. A block is intact while nobody
has written behind the user data of its owner. -/
structure Block where
  size : ℕ
  slot : ℕ := 0
  bin : ℕ := 0
  place : Place := .raw
  owner : Option Alloc := none
  live : Bool := false
  intact : Bool := true
  request : Option Request := none

structure Block.Ok (B : Block) (h : ℕ) : Prop where
  size_eq : B.place ≠ .raw → B.size = 2 ^ B.bin
  owner_hdr : ∀ a, B.owner = some a → a.hdr = h
  live_owner : B.live = true →
    ∃ a q, B.owner = some a ∧ B.request = some q ∧ q.size = a.size ∧ q.bt = a.bt
  request_hdr : ∀ q, B.request = some q → q.hdr = h
  request_place : B.request ≠ none → B.place = .on .inUse

/-- The blocks, the lists, the delay rings, and the requests counted in a slot. -/
structure Ledger where
  block : ℕ → Option Block := fun _ => none
  list : HeadRef → List ℕ := fun _ => []
  ring : ℕ → List ℕ := fun _ => []
  counted : ℕ → List Request := fun _ => []

namespace Ledger

def updBlock (L : Ledger) (h : ℕ) (f : Block → Block) : Ledger :=
  { L with block := Function.update L.block h ((L.block h).map f) }

def updList (L : Ledger) (r : HeadRef) (f : List ℕ → List ℕ) : Ledger :=
  { L with list := Function.update L.list r (f (L.list r)) }

def updRing (L : Ledger) (i : ℕ) (f : List ℕ → List ℕ) : Ledger :=
  { L with ring := Function.update L.ring i (f (L.ring i)) }

def updCounted (L : Ledger) (i : ℕ) (f : List Request → List Request) : Ledger :=
  { L with counted := Function.update L.counted i (f (L.counted i)) }

def step (L : Ledger) : Event → Ledger
  | .carved h size => { L with block := Function.update L.block h (some { size := size }) }
  | .labelled h slot bin =>
      L.updBlock h fun B => { B with slot := slot, bin := bin, place := .held }
  | .linked r h =>
      (L.updBlock h fun B => { B with place := .on r.kind }).updList r fun xs => h :: xs
  | .unlinked r h =>
      (L.updBlock h fun B => { B with place := .held }).updList r fun xs => xs.erase h
  | .counted i q =>
      (L.updBlock q.hdr fun B => { B with request := some q }).updCounted i fun qs => q :: qs
  | .uncounted i h =>
      (L.updBlock h fun B => { B with request := none }).updCounted i fun qs =>
        qs.filter fun q => q.hdr ≠ h
  | .filled a => L.updBlock a.hdr fun B => { B with owner := some a, live := true, intact := true }
  | .freeing h => L.updBlock h fun B => { B with live := false }
  | .overrun h => L.updBlock h fun B => { B with intact := false }
  | .delayed i h =>
      (L.updBlock h fun B => { B with place := .ring }).updRing i fun xs => xs ++ [h]
  | .drained i h =>
      (L.updBlock h fun B => { B with place := .held }).updRing i List.tail
  | _ => L

def Legal (L : Ledger) : Event → Prop
  | .carved h _ => L.block h = none
  | .labelled h _ bin => ∃ B, L.block h = some B ∧ B.place = .raw ∧ B.size = 2 ^ bin
  | .linked r h => ∃ B, L.block h = some B ∧ B.place = .held ∧ B.slot = r.slot ∧ B.bin = r.bin
  | .unlinked r h =>
      ∃ B, L.block h = some B ∧ B.place = .on r.kind ∧ B.slot = r.slot ∧ B.bin = r.bin ∧
        B.live = false ∧ B.request = none
  | .counted i q =>
      ∃ B, L.block q.hdr = some B ∧ B.place = .on .inUse ∧ B.slot = i ∧ B.live = false ∧
        B.request = none
  | .uncounted i h =>
      ∃ B, L.block h = some B ∧ B.slot = i ∧ B.live = false ∧ B.request ≠ none
  | .filled a =>
      ∃ B q, L.block a.hdr = some B ∧ B.live = false ∧ B.request = some q ∧ q.size = a.size ∧
        q.bt = a.bt
  | .freeing h => ∃ B, L.block h = some B ∧ B.live = true
  | .overrun h => ∃ B, L.block h = some B
  | .delayed i h =>
      (L.ring i).length ≤ maxDelayElms / 2 ∧
        ∃ B, L.block h = some B ∧ B.place = .held ∧ B.slot = i
  | .drained i h => (L.ring i).head? = some h ∧ maxDelayElms / 4 < (L.ring i).length
  | _ => True

structure Sound (L : Ledger) : Prop where
  block_ok : ∀ h B, L.block h = some B → B.Ok h
  mem_list : ∀ r h, h ∈ L.list r ↔
    ∃ B, L.block h = some B ∧ B.place = .on r.kind ∧ B.slot = r.slot ∧ B.bin = r.bin
  nodup_list : ∀ r, (L.list r).Nodup
  mem_ring : ∀ i h, h ∈ L.ring i ↔ ∃ B, L.block h = some B ∧ B.place = .ring ∧ B.slot = i
  nodup_ring : ∀ i, (L.ring i).Nodup
  ring_le : ∀ i, (L.ring i).length ≤ maxDelayElms / 2 + 1
  mem_counted : ∀ i q, q ∈ L.counted i ↔
    ∃ B, L.block q.hdr = some B ∧ B.slot = i ∧ B.request = some q
  nodup_counted : ∀ i, ((L.counted i).map Request.hdr).Nodup

variable {L L' : Ledger} {h : ℕ} {B B' : Block}

theorem sound_init : ({} : Ledger).Sound where
  block_ok := by simp
  mem_list := by simp
  nodup_list := by simp
  mem_ring := by simp
  nodup_ring := by simp
  ring_le := by simp
  mem_counted := by simp
  nodup_counted := by simp

/-- An event that changes one block: it is enough to see that the block is
well-formed and that the sequences hold it exactly when its place says so. -/
theorem Sound.update (hS : L.Sound) (B' : Block) (hB' : B'.Ok h)
    (hblock : L'.block = Function.update L.block h (some B'))
    (hlist : ∀ r x, x ∈ L'.list r ↔
      if x = h then B'.place = .on r.kind ∧ B'.slot = r.slot ∧ B'.bin = r.bin else x ∈ L.list r)
    (hlistN : ∀ r, (L'.list r).Nodup)
    (hring : ∀ i x, x ∈ L'.ring i ↔
      if x = h then B'.place = .ring ∧ B'.slot = i else x ∈ L.ring i)
    (hringN : ∀ i, (L'.ring i).Nodup)
    (hringle : ∀ i, (L'.ring i).length ≤ maxDelayElms / 2 + 1)
    (hcounted : ∀ i q, q ∈ L'.counted i ↔
      if q.hdr = h then B'.slot = i ∧ B'.request = some q else q ∈ L.counted i)
    (hcountedN : ∀ i, ((L'.counted i).map Request.hdr).Nodup) : L'.Sound where
  block_ok x A hx := by
    rw [hblock, Function.update_apply] at hx
    by_cases hxh : x = h
    · rw [if_pos hxh, Option.some.injEq] at hx
      exact hx ▸ hxh ▸ hB'
    · rw [if_neg hxh] at hx
      exact hS.block_ok x A hx
  mem_list r x := by
    rw [hlist, hblock, Function.update_apply]
    by_cases hxh : x = h
    · simp [hxh]
    · simp only [hxh, if_false]
      exact hS.mem_list r x
  nodup_list := hlistN
  mem_ring i x := by
    rw [hring, hblock, Function.update_apply]
    by_cases hxh : x = h
    · simp [hxh]
    · simp only [hxh, if_false]
      exact hS.mem_ring i x
  nodup_ring := hringN
  ring_le := hringle
  mem_counted i q := by
    rw [hcounted, hblock, Function.update_apply]
    by_cases hxh : q.hdr = h
    · simp [hxh]
    · simp only [hxh, if_false]
      exact hS.mem_counted i q
  nodup_counted := hcountedN

theorem Sound.mem_list_iff (hS : L.Sound) (hB : L.block h = some B) (r : HeadRef) :
    h ∈ L.list r ↔ B.place = .on r.kind ∧ B.slot = r.slot ∧ B.bin = r.bin := by
  simp [hS.mem_list, hB]

theorem Sound.mem_ring_iff (hS : L.Sound) (hB : L.block h = some B) (i : ℕ) :
    h ∈ L.ring i ↔ B.place = .ring ∧ B.slot = i := by
  simp [hS.mem_ring, hB]

theorem Sound.mem_counted_iff (hS : L.Sound) {q : Request} (hB : L.block q.hdr = some B)
    (i : ℕ) : q ∈ L.counted i ↔ B.slot = i ∧ B.request = some q := by
  simp [hS.mem_counted, hB]

theorem block_updBlock (hB : L.block h = some B) (f : Block → Block) :
    (L.updBlock h f).block = Function.update L.block h (some (f B)) := by
  simp [updBlock, hB]

/-- An event after which a block is on the same sequences as before. -/
theorem Sound.updBlock_same (hS : L.Sound) (hB : L.block h = some B) {f : Block → Block}
    (hok : (f B).Ok h)
    (hseq : ((f B).place = B.place ∧ (f B).slot = B.slot ∧ (f B).bin = B.bin) ∨
      (B.place ∈ [.raw, .held] ∧ (f B).place ∈ [.raw, .held]))
    (hreq : (f B).request = B.request ∧ ((f B).slot = B.slot ∨ B.request = none)) :
    (L.updBlock h f).Sound := by
  refine hS.update _ hok (block_updBlock hB f) (fun r x => ?_) hS.nodup_list (fun i x => ?_)
    hS.nodup_ring hS.ring_le (fun i q => ?_) hS.nodup_counted
  · change x ∈ L.list r ↔ _
    split
    · subst x
      rw [hS.mem_list_iff hB]
      grind
    · rfl
  · change x ∈ L.ring i ↔ _
    split
    · subst x
      rw [hS.mem_ring_iff hB]
      grind
    · rfl
  · change q ∈ L.counted i ↔ _
    split
    · subst h
      rw [hS.mem_counted_iff hB]
      grind
    · rfl

theorem Sound.carved (hS : L.Sound) {size : ℕ} (hB : L.block h = none) :
    (L.step (.carved h size)).Sound := by
  have hl : ∀ r, h ∉ L.list r := fun r hr => by simpa [hB] using (hS.mem_list r h).1 hr
  have hr : ∀ i, h ∉ L.ring i := fun i hi => by simpa [hB] using (hS.mem_ring i h).1 hi
  have hc : ∀ i q, q ∈ L.counted i → q.hdr ≠ h := by
    rintro i q hq rfl
    simpa [hB] using (hS.mem_counted i q).1 hq
  refine hS.update (h := h) { size := size } (by constructor <;> simp) rfl
    (fun r x => ?_) hS.nodup_list (fun i x => ?_) hS.nodup_ring hS.ring_le (fun i q => ?_)
    hS.nodup_counted
  · change x ∈ L.list r ↔ _
    grind
  · change x ∈ L.ring i ↔ _
    grind
  · change q ∈ L.counted i ↔ _
    grind

theorem Sound.linked (hS : L.Sound) {r : HeadRef} (hl : L.Legal (.linked r h)) :
    (L.step (.linked r h)).Sound := by
  obtain ⟨B, hB, hp, hs, hb⟩ := hl
  have hok := hS.block_ok h B hB
  have hreq : B.request = none := by
    by_contra hq
    simp [hok.request_place hq] at hp
  have hnl : ∀ r, h ∉ L.list r := fun r hr => by simp [hS.mem_list_iff hB, hp] at hr
  have hnr : ∀ i, h ∉ L.ring i := fun i hi => by simp [hS.mem_ring_iff hB, hp] at hi
  refine hS.update (h := h) { B with place := .on r.kind } ?_ (block_updBlock hB _)
    (fun r' x => ?_) (fun r' => ?_) (fun i x => ?_) hS.nodup_ring hS.ring_le (fun i q => ?_)
    hS.nodup_counted
  · exact { hok with
      size_eq := fun _ => hok.size_eq (by simp [hp])
      request_place := fun hq => absurd hreq hq }
  · change x ∈ Function.update L.list r (h :: L.list r) r' ↔ _
    rw [Function.update_apply]
    cases r
    cases r'
    grind
  · change (Function.update L.list r (h :: L.list r) r').Nodup
    rw [Function.update_apply]
    split
    · exact List.nodup_cons.2 ⟨hnl r, hS.nodup_list r⟩
    · exact hS.nodup_list r'
  · change x ∈ L.ring i ↔ _
    grind
  · change q ∈ L.counted i ↔ _
    split
    · subst h
      simp [hS.mem_counted_iff hB]
    · rfl

theorem Sound.unlinked (hS : L.Sound) {r : HeadRef} (hl : L.Legal (.unlinked r h)) :
    (L.step (.unlinked r h)).Sound := by
  obtain ⟨B, hB, hp, hs, hb, hlive, hreq⟩ := hl
  have hok := hS.block_ok h B hB
  have hnl : ∀ r', r' ≠ r → h ∉ L.list r' := by
    intro r' hne hr
    cases r
    cases r'
    simp_all [hS.mem_list_iff hB]
  have hnr : ∀ i, h ∉ L.ring i := fun i hi => by simp [hS.mem_ring_iff hB, hp] at hi
  refine hS.update (h := h) { B with place := .held } ?_ (block_updBlock hB _)
    (fun r' x => ?_) (fun r' => ?_) (fun i x => ?_) hS.nodup_ring hS.ring_le (fun i q => ?_)
    hS.nodup_counted
  · exact { hok with
      size_eq := fun _ => hok.size_eq (by simp [hp])
      request_place := fun hq => absurd hreq hq }
  · change x ∈ Function.update L.list r ((L.list r).erase h) r' ↔ _
    rw [Function.update_apply]
    have := hS.nodup_list r
    split
    · subst r'
      rw [(hS.nodup_list r).mem_erase_iff]
      grind
    · grind
  · change (Function.update L.list r ((L.list r).erase h) r').Nodup
    rw [Function.update_apply]
    split
    · exact (hS.nodup_list r).erase h
    · exact hS.nodup_list r'
  · change x ∈ L.ring i ↔ _
    grind
  · change q ∈ L.counted i ↔ _
    split
    · subst h
      simp [hS.mem_counted_iff hB]
    · rfl

theorem Sound.counted_step (hS : L.Sound) {i : ℕ} {q : Request} (hl : L.Legal (.counted i q)) :
    (L.step (.counted i q)).Sound := by
  obtain ⟨B, hB, hp, hs, hlive, hreq⟩ := hl
  have hok := hS.block_ok q.hdr B hB
  have hnc : ∀ i q', q' ∈ L.counted i → q'.hdr ≠ q.hdr := by
    intro i q' hq' heq
    rw [hS.mem_counted_iff (heq ▸ hB)] at hq'
    simp [hreq] at hq'
  refine hS.update (h := q.hdr) { B with request := some q } ?_ (block_updBlock hB _)
    (fun r x => ?_) hS.nodup_list (fun i x => ?_) hS.nodup_ring hS.ring_le (fun j q' => ?_)
    (fun j => ?_)
  · exact { hok with
      live_owner := fun h => by simp [hlive] at h
      request_hdr := fun q' hq' => by simpa using congrArg Request.hdr (Option.some.inj hq').symm
      request_place := fun _ => hp }
  · change x ∈ L.list r ↔ _
    split
    · subst x
      exact hS.mem_list_iff hB r
    · rfl
  · change x ∈ L.ring i ↔ _
    split
    · subst x
      exact hS.mem_ring_iff hB i
    · rfl
  · change q' ∈ Function.update L.counted i (q :: L.counted i) j ↔ _
    rw [Function.update_apply]
    grind
  · change ((Function.update L.counted i (q :: L.counted i) j).map Request.hdr).Nodup
    rw [Function.update_apply]
    split
    · rw [List.map_cons, List.nodup_cons]
      refine ⟨fun hm => ?_, hS.nodup_counted i⟩
      obtain ⟨q', hq', heq⟩ := List.mem_map.1 hm
      exact hnc i q' hq' heq
    · exact hS.nodup_counted j

theorem Sound.uncounted (hS : L.Sound) {i : ℕ} (hl : L.Legal (.uncounted i h)) :
    (L.step (.uncounted i h)).Sound := by
  obtain ⟨B, hB, hs, hlive, hreq⟩ := hl
  have hok := hS.block_ok h B hB
  refine hS.update (h := h) { B with request := none } ?_ (block_updBlock hB _)
    (fun r x => ?_) hS.nodup_list (fun i x => ?_) hS.nodup_ring hS.ring_le (fun j q => ?_)
    (fun j => ?_)
  · exact { hok with
      live_owner := fun h => by simp [hlive] at h
      request_hdr := by simp
      request_place := by simp }
  · change x ∈ L.list r ↔ _
    split
    · subst x
      exact hS.mem_list_iff hB r
    · rfl
  · change x ∈ L.ring i ↔ _
    split
    · subst x
      exact hS.mem_ring_iff hB i
    · rfl
  · change q ∈ Function.update L.counted i ((L.counted i).filter fun q => q.hdr ≠ h) j ↔ _
    rw [Function.update_apply]
    split
    · subst j
      grind
    · split
      · subst h
        simp only [hS.mem_counted_iff hB]
        grind
      · rfl
  · change ((Function.update L.counted i ((L.counted i).filter fun q => q.hdr ≠ h) j).map
      Request.hdr).Nodup
    rw [Function.update_apply]
    split
    · exact (hS.nodup_counted i).sublist (List.filter_sublist.map _)
    · exact hS.nodup_counted j

theorem Sound.delayed (hS : L.Sound) {i : ℕ} (hl : L.Legal (.delayed i h)) :
    (L.step (.delayed i h)).Sound := by
  obtain ⟨hlen, B, hB, hp, hs⟩ := hl
  have hok := hS.block_ok h B hB
  have hreq : B.request = none := by
    by_contra hq
    simp [hok.request_place hq] at hp
  have hnl : ∀ r, h ∉ L.list r := fun r hr => by simp [hS.mem_list_iff hB, hp] at hr
  have hnr : ∀ i, h ∉ L.ring i := fun i hi => by simp [hS.mem_ring_iff hB, hp] at hi
  refine hS.update (h := h) { B with place := .ring } ?_ (block_updBlock hB _)
    (fun r x => ?_) hS.nodup_list (fun j x => ?_) (fun j => ?_) (fun j => ?_) (fun j q => ?_)
    hS.nodup_counted
  · exact { hok with
      size_eq := fun _ => hok.size_eq (by simp [hp])
      request_place := fun hq => absurd hreq hq }
  · change x ∈ L.list r ↔ _
    grind
  · change x ∈ Function.update L.ring i (L.ring i ++ [h]) j ↔ _
    rw [Function.update_apply]
    grind
  · change (Function.update L.ring i (L.ring i ++ [h]) j).Nodup
    rw [Function.update_apply]
    split
    · exact (hS.nodup_ring i).append (List.nodup_singleton h) (by simpa using hnr i)
    · exact hS.nodup_ring j
  · change (Function.update L.ring i (L.ring i ++ [h]) j).length ≤ _
    rw [Function.update_apply]
    split
    · simpa using hlen
    · exact hS.ring_le j
  · change q ∈ L.counted j ↔ _
    split
    · subst h
      simp [hS.mem_counted_iff hB]
    · rfl

theorem Sound.drained (hS : L.Sound) {i : ℕ} (hl : L.Legal (.drained i h)) :
    (L.step (.drained i h)).Sound := by
  obtain ⟨hhd, -⟩ := hl
  obtain ⟨xs, hxs⟩ : ∃ xs, L.ring i = h :: xs := by
    cases hr : L.ring i with
    | nil => simp [hr] at hhd
    | cons x xs =>
        simp only [hr, List.head?_cons, Option.some.injEq] at hhd
        exact ⟨xs, hhd ▸ rfl⟩
  obtain ⟨B, hB, hp, hs⟩ := (hS.mem_ring i h).1 (by simp [hxs])
  have hok := hS.block_ok h B hB
  have hreq : B.request = none := by
    by_contra hq
    simp [hok.request_place hq] at hp
  have hnd := hS.nodup_ring i
  have hle := hS.ring_le i
  rw [hxs, List.nodup_cons] at hnd
  rw [hxs, List.length_cons] at hle
  have hnr : ∀ j, j ≠ i → h ∉ L.ring j := fun j hj hr => by
    rw [hS.mem_ring_iff hB] at hr
    exact hj (hr.2.symm.trans hs)
  have hnl : ∀ r, h ∉ L.list r := fun r hr => by simp [hS.mem_list_iff hB, hp] at hr
  refine hS.update (h := h) { B with place := .held } ?_ (block_updBlock hB _)
    (fun r x => ?_) hS.nodup_list (fun j x => ?_) (fun j => ?_) (fun j => ?_) (fun j q => ?_)
    hS.nodup_counted
  · exact { hok with
      size_eq := fun _ => hok.size_eq (by simp [hp])
      request_place := fun hq => absurd hreq hq }
  · change x ∈ L.list r ↔ _
    grind
  · change x ∈ Function.update L.ring i (L.ring i).tail j ↔ _
    rw [Function.update_apply, hxs, List.tail_cons]
    grind
  · change (Function.update L.ring i (L.ring i).tail j).Nodup
    rw [Function.update_apply, hxs, List.tail_cons]
    split
    · exact hnd.2
    · exact hS.nodup_ring j
  · change (Function.update L.ring i (L.ring i).tail j).length ≤ _
    rw [Function.update_apply, hxs, List.tail_cons]
    split
    · omega
    · exact hS.ring_le j
  · change q ∈ L.counted j ↔ _
    split
    · subst h
      simp [hS.mem_counted_iff hB]
    · rfl

/-- A legal event keeps the ledger sound. -/
theorem Sound.step (hS : L.Sound) {e : Event} (hl : L.Legal e) : (L.step e).Sound := by
  cases e with
  | carved h size => exact hS.carved hl
  | labelled h slot bin =>
      obtain ⟨B, hB, hp, hsz⟩ := hl
      have hok := hS.block_ok h B hB
      have hreq : B.request = none := by
        by_contra hq
        simp [hok.request_place hq] at hp
      refine hS.updBlock_same hB ?_ (.inr (by simp [hp])) ⟨rfl, .inr hreq⟩
      exact { hok with
        size_eq := fun _ => hsz
        request_place := fun hq => absurd hreq hq }
  | linked r h => exact hS.linked hl
  | unlinked r h => exact hS.unlinked hl
  | counted i q => exact hS.counted_step hl
  | uncounted i h => exact hS.uncounted hl
  | filled a =>
      obtain ⟨B, q, hB, hlive, hq, hsz, hbt⟩ := hl
      have hok := hS.block_ok a.hdr B hB
      refine hS.updBlock_same hB ?_ (.inl ⟨rfl, rfl, rfl⟩) ⟨rfl, .inl rfl⟩
      exact { hok with
        owner_hdr := fun b hb => congrArg Alloc.hdr (Option.some.inj hb).symm
        live_owner := fun _ => ⟨a, q, rfl, hq, hsz, hbt⟩ }
  | freeing h =>
      obtain ⟨B, hB, hlive⟩ := hl
      have hok := hS.block_ok h B hB
      refine hS.updBlock_same hB ?_ (.inl ⟨rfl, rfl, rfl⟩) ⟨rfl, .inl rfl⟩
      exact { hok with live_owner := by simp }
  | overrun h =>
      obtain ⟨B, hB⟩ := hl
      have hok := hS.block_ok h B hB
      exact hS.updBlock_same hB { hok with } (.inl ⟨rfl, rfl, rfl⟩) ⟨rfl, .inl rfl⟩
  | delayed i h => exact hS.delayed hl
  | drained i h => exact hS.drained hl
  | _ => exact hS

/-- An allocation that has not been released, with nothing written behind it. -/
def Live (L : Ledger) (a : Alloc) : Prop :=
  ∃ B, L.block a.hdr = some B ∧ B.live = true ∧ B.owner = some a ∧ B.intact = true

/-- A block has one owner. -/
theorem Live.hdr_inj {a b : Alloc} (ha : L.Live a) (hb : L.Live b) (hab : a.hdr = b.hdr) :
    a = b := by
  obtain ⟨A, hA, -, hoA, -⟩ := ha
  obtain ⟨B, hB, -, hoB, -⟩ := hb
  rw [hab, hB] at hA
  obtain rfl := Option.some.inj hA
  exact Option.some.inj (hoA.symm.trans hoB)

theorem Sound.live_inUse {a : Alloc} (hS : L.Sound) (ha : L.Live a) :
    ∃ B, L.block a.hdr = some B ∧ B.live = true ∧ B.owner = some a ∧ B.place = .on .inUse := by
  obtain ⟨B, hB, hlive, ho, -⟩ := ha
  obtain ⟨-, q, -, hq, -⟩ := (hS.block_ok _ B hB).live_owner hlive
  exact ⟨B, hB, hlive, ho, (hS.block_ok _ B hB).request_place (by simp [hq])⟩

theorem Live.intact {a : Alloc} (ha : L.Live a) (hB : L.block a.hdr = some B) :
    B.intact = true := by
  obtain ⟨A, hA, -, -, hi⟩ := ha
  obtain rfl := Option.some.inj (hA.symm.trans hB)
  exact hi

end Ledger

def ledger : List Event → Ledger
  | [] => {}
  | e :: log => (ledger log).step e

def Lawful : List Event → Prop
  | [] => True
  | e :: log => Lawful log ∧ (ledger log).Legal e

theorem Lawful.sound {log : List Event} (h : Lawful log) : (ledger log).Sound := by
  induction log with
  | nil => exact Ledger.sound_init
  | cons e log ih => exact (ih h.1).step h.2

end GuardRails
