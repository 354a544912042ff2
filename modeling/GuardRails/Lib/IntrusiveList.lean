import Mathlib.Data.List.Basic
import Mathlib.Tactic.Common

/-!
# Intrusive doubly linked lists

The nodes of a list carry its links: `next x` and `prev x` are the neighbours of
the node `x`, and `0` stands for no node. `IsList next prev head xs` says that
the list that starts at `head` consists of the nodes `xs` in this order, with
the links of each node agreeing with its neighbours. Putting a node in front
(`IsList.insert`) and taking one out (`IsList.erase`) are described by what the
new links are; how a program stores them is left to it. A change of links
elsewhere leaves a list alone (`IsList.congr`).
-/

namespace IntrusiveList

variable {α : Type*} [Zero α]

/-- The nodes `xs` are linked in this order from `h` on, and `p` is the node
before the first of them. -/
def Chain (next prev : α → α) : α → α → List α → Prop
  | _, h, [] => h = 0
  | p, h, x :: xs => h = x ∧ x ≠ 0 ∧ prev x = p ∧ Chain next prev x (next x) xs

/-- The list with first node `head` consists of the nodes `xs`. -/
def IsList (next prev : α → α) (head : α) (xs : List α) : Prop :=
  Chain next prev 0 head xs

variable {next prev next' prev' : α → α} {p h head e : α} {xs : List α}

theorem Chain.ne_zero {x : α} (hc : Chain next prev p h xs) (hx : x ∈ xs) : x ≠ 0 := by
  induction xs generalizing p h with
  | nil => cases hx
  | cons y ys ih =>
      rcases List.mem_cons.1 hx with rfl | hx
      · exact hc.2.1
      · exact ih hc.2.2.2 hx

theorem Chain.congr (hc : Chain next prev p h xs)
    (hn : ∀ x ∈ xs, next' x = next x) (hp : ∀ x ∈ xs, prev' x = prev x) :
    Chain next' prev' p h xs := by
  induction xs generalizing p h with
  | nil => exact hc
  | cons y ys ih =>
      obtain ⟨rfl, hy, hpy, hrest⟩ := hc
      refine ⟨rfl, hy, (hp h List.mem_cons_self).trans hpy, ?_⟩
      rw [hn h List.mem_cons_self]
      exact ih hrest (fun x hx => hn x (List.mem_cons_of_mem h hx))
        fun x hx => hp x (List.mem_cons_of_mem h hx)

/-- The links leave no choice. -/
theorem Chain.unique {ys : List α} (hx : Chain next prev p h xs) (hy : Chain next prev p h ys) :
    xs = ys := by
  induction xs generalizing p h ys with
  | nil =>
      cases ys with
      | nil => rfl
      | cons y ys => exact absurd (hy.1.symm.trans hx) hy.2.1
  | cons x xs ih =>
      cases ys with
      | nil => exact absurd (hx.1.symm.trans hy) hx.2.1
      | cons y ys =>
          obtain rfl := hx.1.symm.trans hy.1
          rw [ih hx.2.2.2 hy.2.2.2]

/-- The chain behind a member. -/
theorem Chain.tail {x : α} {ys zs : List α} (hc : Chain next prev p h (ys ++ x :: zs)) :
    Chain next prev x (next x) zs := by
  induction ys generalizing p h with
  | nil => exact hc.2.2.2
  | cons y ys ih => exact ih hc.2.2.2

/-- A chain that ends has no node twice. -/
theorem Chain.nodup (hc : Chain next prev p h xs) : xs.Nodup := by
  induction xs generalizing p h with
  | nil => exact List.nodup_nil
  | cons x xs ih =>
      obtain ⟨-, -, -, hrest⟩ := hc
      refine List.nodup_cons.2 ⟨fun hmem => ?_, ih hrest⟩
      obtain ⟨ys, zs, rfl⟩ := List.append_of_mem hmem
      have hlen := congrArg List.length (hrest.unique hrest.tail)
      simp at hlen
      omega

/-- The links of a list are determined by its nodes. -/
theorem Chain.links_eq {h' : α} (hc : Chain next prev p h xs) (hc' : Chain next' prev' p h' xs) :
    ∀ x ∈ xs, next' x = next x ∧ prev' x = prev x := by
  induction xs generalizing p h h' with
  | nil => exact fun x hx => absurd hx List.not_mem_nil
  | cons y ys ih =>
      obtain ⟨rfl, -, hpy, hrest⟩ := hc
      obtain ⟨rfl, -, hpy', hrest'⟩ := hc'
      intro x hx
      rcases List.mem_cons.1 hx with rfl | hx
      · refine ⟨?_, hpy'.trans hpy.symm⟩
        cases ys with
        | nil => exact hrest'.trans hrest.symm
        | cons z zs => exact hrest'.1.trans hrest.1.symm
      · exact ih hrest hrest' x hx

/-- The node before a member is the starting one or a member. -/
theorem Chain.prev_mem {x : α} (hc : Chain next prev p h xs) (hx : x ∈ xs) :
    prev x = p ∨ prev x ∈ xs := by
  induction xs generalizing p h with
  | nil => cases hx
  | cons y ys ih =>
      obtain ⟨rfl, -, hpy, hrest⟩ := hc
      rcases List.mem_cons.1 hx with rfl | hx
      · exact .inl hpy
      · rcases ih hrest hx with h' | h'
        · exact .inr (h' ▸ List.mem_cons_self)
        · exact .inr (List.mem_cons_of_mem h h')

/-- The node after a member is null or a member. -/
theorem Chain.next_mem {x : α} (hc : Chain next prev p h xs) (hx : x ∈ xs) :
    next x = 0 ∨ next x ∈ xs := by
  induction xs generalizing p h with
  | nil => cases hx
  | cons y ys ih =>
      obtain ⟨rfl, -, -, hrest⟩ := hc
      rcases List.mem_cons.1 hx with rfl | hx
      · cases ys with
        | nil => exact .inl hrest
        | cons z zs => exact .inr (hrest.1 ▸ List.mem_cons_of_mem x List.mem_cons_self)
      · rcases ih hrest hx with h' | h'
        · exact .inl h'
        · exact .inr (List.mem_cons_of_mem h h')

/-- Neighbours agree on each other: `x` is before `e` iff `e` is after `x`. -/
theorem Chain.next_eq_iff {x : α} (hc : Chain next prev p h xs) (hd : xs.Nodup)
    (hp : p ∉ xs) (hx : x ∈ xs) (he : e ∈ xs) : next x = e ↔ prev e = x := by
  induction xs generalizing p h with
  | nil => cases hx
  | cons y ys ih =>
      obtain ⟨rfl, hy, hpy, hrest⟩ := hc
      obtain ⟨hyys, hdys⟩ := List.nodup_cons.1 hd
      have hpne : p ≠ h := fun hph => hp (hph ▸ List.mem_cons_self)
      rcases List.mem_cons.1 he with rfl | hey
      · -- nothing in the list leads to its first node
        constructor
        · intro hxe
          have hne : next x ≠ 0 := hxe ▸ hy
          rcases List.mem_cons.1 hx with rfl | hxy
          · cases ys with
            | nil => exact absurd hrest hne
            | cons z zs => exact absurd (hrest.1.symm.trans hxe ▸ List.mem_cons_self) hyys
          · rcases hrest.next_mem hxy with h0 | hmem
            · exact absurd h0 hne
            · exact absurd (hxe ▸ hmem) hyys
        · intro hxe
          exact absurd (hpy.symm.trans hxe ▸ hx) hp
      · rcases List.mem_cons.1 hx with rfl | hxy
        · constructor
          · intro hxe
            cases ys with
            | nil => cases hey
            | cons z zs =>
                obtain ⟨hz, -, hpz, -⟩ := hrest
                rw [← hxe, hz, hpz]
          · intro hpe
            cases ys with
            | nil => cases hey
            | cons z zs =>
                obtain ⟨hz, -, hpz, hrest'⟩ := hrest
                rcases List.mem_cons.1 hey with rfl | hez
                · exact hz
                · rcases hrest'.prev_mem hez with h' | h'
                  · exact absurd (h'.symm.trans hpe ▸ List.mem_cons_self) hyys
                  · exact absurd (List.mem_cons_of_mem z (hpe ▸ h')) hyys
        · exact ih hrest hdys hyys hxy hey

namespace IsList

theorem nil : IsList next prev 0 [] := rfl

theorem head_eq_zero_iff (hl : IsList next prev head xs) : head = 0 ↔ xs = [] := by
  cases xs with
  | nil => exact ⟨fun _ => rfl, fun _ => hl⟩
  | cons x xs => exact ⟨fun h0 => absurd (hl.1 ▸ h0) hl.2.1, fun h0 => by cases h0⟩

theorem ne_zero {x : α} (hl : IsList next prev head xs) (hx : x ∈ xs) : x ≠ 0 :=
  Chain.ne_zero hl hx

theorem zero_notMem (hl : IsList next prev head xs) : (0 : α) ∉ xs :=
  fun h0 => hl.ne_zero h0 rfl

theorem unique {ys : List α} (hx : IsList next prev head xs) (hy : IsList next prev head ys) :
    xs = ys :=
  Chain.unique hx hy

theorem head_mem (hl : IsList next prev head xs) (h0 : head ≠ 0) : head ∈ xs := by
  cases xs with
  | nil => exact absurd hl h0
  | cons x xs => exact hl.1 ▸ List.mem_cons_self

/-- A list whose nodes keep their links stays what it is. -/
theorem congr (hl : IsList next prev head xs)
    (hn : ∀ x ∈ xs, next' x = next x) (hp : ∀ x ∈ xs, prev' x = prev x) :
    IsList next' prev' head xs :=
  Chain.congr hl hn hp

/-- A node put in front: it leads to the old head, which leads back to it. -/
theorem insert (hl : IsList next prev head xs) (he : e ∉ xs) (he0 : e ≠ 0)
    (hd : xs.Nodup)
    (hne : next' e = head) (hpe : prev' e = 0) (hph : head ≠ 0 → prev' head = e)
    (hn : ∀ x ∈ xs, next' x = next x) (hp : ∀ x ∈ xs, x ≠ head → prev' x = prev x) :
    IsList next' prev' e (e :: xs) := by
  refine ⟨rfl, he0, hpe, ?_⟩
  rw [hne]
  cases xs with
  | nil => exact hl
  | cons y ys =>
      obtain ⟨rfl, hy, -, hrest⟩ := hl
      refine ⟨rfl, hy, hph hy, ?_⟩
      rw [hn head List.mem_cons_self]
      refine hrest.congr (fun x hx => hn x (List.mem_cons_of_mem head hx)) fun x hx => ?_
      exact hp x (List.mem_cons_of_mem head hx)
        fun hxh => (List.nodup_cons.1 hd).1 (hxh ▸ hx)

end IsList

section Erase

variable [DecidableEq α]

/-- The chain behind a removed node, whose first node now leads back to the node
before the removed one. -/
theorem Chain.skip (hc : Chain next prev e h xs) (he : e ∉ xs) (hd : xs.Nodup)
    (he0 : e ≠ 0)
    (hn : ∀ x ∈ xs, next' x = if next x = e then next e else next x)
    (hp : ∀ x ∈ xs, prev' x = if prev x = e then prev e else prev x) :
    Chain next' prev' (prev e) h xs := by
  cases xs with
  | nil => exact hc
  | cons y ys =>
      obtain ⟨rfl, hy, hpy, hrest⟩ := hc
      have hnext : ∀ x ∈ h :: ys, next x ≠ e := by
        intro x hx hxe
        have hc' : Chain next prev e h (h :: ys) := ⟨rfl, hy, hpy, hrest⟩
        rcases hc'.next_mem hx with h0 | hmem
        · exact he0 (hxe ▸ h0)
        · exact he (hxe ▸ hmem)
      have hprev : ∀ x ∈ ys, prev x ≠ e := by
        intro x hx hxe
        rcases hrest.prev_mem hx with h' | h'
        · exact he (hxe ▸ h' ▸ List.mem_cons_self)
        · exact he (hxe ▸ List.mem_cons_of_mem h h')
      refine ⟨rfl, hy, ?_, ?_⟩
      · rw [hp h List.mem_cons_self, if_pos hpy]
      · rw [hn h List.mem_cons_self, if_neg (hnext h List.mem_cons_self)]
        refine hrest.congr (fun x hx => ?_) fun x hx => ?_
        · rw [hn x (List.mem_cons_of_mem h hx), if_neg (hnext x (List.mem_cons_of_mem h hx))]
        · rw [hp x (List.mem_cons_of_mem h hx), if_neg (hprev x hx)]

theorem Chain.erase (hc : Chain next prev p h xs) (hd : xs.Nodup) (he0 : e ≠ 0)
    (hpe : p ≠ e)
    (hn : ∀ x ∈ xs, x ≠ e → next' x = if next x = e then next e else next x)
    (hp : ∀ x ∈ xs, x ≠ e → prev' x = if prev x = e then prev e else prev x) :
    Chain next' prev' p (if h = e then next e else h) (xs.erase e) := by
  induction xs generalizing p h with
  | nil =>
      have h0 : h = 0 := hc
      rw [List.erase_nil, if_neg (h0 ▸ he0.symm)]
      exact h0
  | cons y ys ih =>
      obtain ⟨rfl, hy, hpy, hrest⟩ := hc
      obtain ⟨hyys, hdys⟩ := List.nodup_cons.1 hd
      by_cases hye : h = e
      · subst hye
        rw [List.erase_cons_head, if_pos rfl]
        have hne : ∀ x ∈ ys, x ≠ h := fun x hx hxh => hyys (hxh ▸ hx)
        exact hpy ▸ hrest.skip hyys hdys he0
          (fun x hx => hn x (List.mem_cons_of_mem h hx) (hne x hx))
          fun x hx => hp x (List.mem_cons_of_mem h hx) (hne x hx)
      · rw [List.erase_cons_tail (by simpa using hye), if_neg hye]
        refine ⟨rfl, hy, ?_, ?_⟩
        · rw [hp h List.mem_cons_self hye, hpy, if_neg hpe]
        · rw [hn h List.mem_cons_self hye]
          exact ih hrest hdys hye
            (fun x hx => hn x (List.mem_cons_of_mem h hx))
            fun x hx => hp x (List.mem_cons_of_mem h hx)

/-- A node taken out: its neighbours lead to each other, and the head moves on
when it was the node. -/
theorem IsList.erase (hl : IsList next prev head xs) (hd : xs.Nodup) (he0 : e ≠ 0)
    (hn : ∀ x ∈ xs, x ≠ e → next' x = if next x = e then next e else next x)
    (hp : ∀ x ∈ xs, x ≠ e → prev' x = if prev x = e then prev e else prev x) :
    IsList next' prev' (if head = e then next e else head) (xs.erase e) :=
  Chain.erase hl hd he0 he0.symm hn hp

end Erase

end IntrusiveList
