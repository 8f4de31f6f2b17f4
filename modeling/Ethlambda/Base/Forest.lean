import Mathlib.Algebra.BigOperators.Group.Finset.Basic
import Mathlib.Data.Finset.Card
import Mathlib.Data.Prod.Lex
import Mathlib.Logic.Relation

namespace Ethlambda.Base

open Relation
open scoped BigOperators

section Reach

variable {α : Type} {parent : α → Option α}

/-- The first node leads to the second along parents, in any number of steps. -/
def Reaches (parent : α → Option α) (x b : α) : Prop :=
  ReflTransGen (fun y p ↦ parent y = some p) x b

/-- A node that has a parent in the forest lies above it. -/
def Falling (parent : α → Option α) (depth : α → ℕ) : Prop :=
  ∀ x p, parent x = some p → (parent p).isSome → depth p < depth x

theorem reaches_iff {x p b : α} (h : parent x = some p) :
    Reaches parent x b ↔ x = b ∨ Reaches parent p b := by
  constructor
  · intro hr
    cases hr.cases_head with
    | inl heq => exact .inl heq
    | inr hstep =>
      obtain ⟨q, hq, hr⟩ := hstep
      rw [h] at hq
      cases hq
      exact .inr hr
  · intro hr
    cases hr with
    | inl heq => exact heq ▸ .refl
    | inr hr => exact .head h hr

theorem reaches_iff_of_none {x b : α} (h : parent x = none) : Reaches parent x b ↔ x = b := by
  constructor
  · intro hr
    cases hr.cases_head with
    | inl heq => exact heq
    | inr hstep =>
      obtain ⟨q, hq, -⟩ := hstep
      exact nomatch h.symm.trans hq
  · intro heq
    exact heq ▸ .refl

theorem Reaches.depth_le {depth : α → ℕ} (hfall : Falling parent depth) {x b : α}
    (h : Reaches parent x b) (hb : (parent b).isSome) :
    (parent x).isSome ∧ depth b ≤ depth x := by
  induction h using ReflTransGen.head_induction_on with
  | refl => exact ⟨hb, le_rfl⟩
  | head hstep _ ih =>
    obtain ⟨hp, hle⟩ := ih
    exact ⟨by rw [hstep]; rfl, hle.trans (hfall _ _ hstep hp).le⟩

/-- No node lies below one of its own children. -/
theorem not_reaches_child {depth : α → ℕ} (hfall : Falling parent depth) {p c : α}
    (hc : parent c = some p) : ¬Reaches parent p c := by
  intro h
  obtain ⟨hp, hle⟩ := h.depth_le hfall (by rw [hc]; rfl)
  exact absurd hle (hfall c p hc hp).not_ge

/-- A node leads to at most one of several siblings. -/
theorem Reaches.sibling_unique {depth : α → ℕ} (hfall : Falling parent depth) {x p c c' : α}
    (h : Reaches parent x c) (h' : Reaches parent x c') (hc : parent c = some p)
    (hc' : parent c' = some p) : c = c' := by
  have huniq : Relator.RightUnique fun y q ↦ parent y = some q := by
    intro y q q' hq hq'
    exact Option.some.inj (hq.symm.trans hq')
  cases ReflTransGen.total_of_right_unique huniq h h' with
  | inl hcc =>
    refine ((reaches_iff hc).mp hcc).resolve_right ?_
    exact not_reaches_child hfall hc'
  | inr hcc =>
    refine (((reaches_iff hc').mp hcc).resolve_right ?_).symm
    exact not_reaches_child hfall hc

end Reach

section Acyclic

variable {α : Type} {R : α → α → Prop}

/-- Where no node lies below itself, the nodes of a list have heights that fall towards what lies
below them: the number of listed nodes that a node is above. -/
theorem exists_height (hR : ∀ a, ¬TransGen R a a) (l : List α) :
    ∃ height : α → ℕ, ∀ a ∈ l, ∀ b, TransGen R b a → height b < height a := by
  classical
  refine ⟨fun a ↦ (l.toFinset.filter fun b ↦ ReflTransGen R b a).card, fun a ha b hb ↦ ?_⟩
  refine Finset.card_lt_card (Finset.ssubset_iff_of_subset ?_ |>.mpr ⟨a, ?_, ?_⟩)
  · intro c hc
    obtain ⟨hmem, hcb⟩ := Finset.mem_filter.mp hc
    exact Finset.mem_filter.mpr ⟨hmem, hcb.trans hb.to_reflTransGen⟩
  · exact Finset.mem_filter.mpr ⟨List.mem_toFinset.mpr ha, .refl⟩
  · intro hmem
    exact hR b (hb.trans_left (Finset.mem_filter.mp hmem).2)

end Acyclic

section Support

variable {α ι : Type} {parent : α → Option α} {votes : ι → Option α} {S : Finset ι}

open Classical in
/-- The voters whose node leads to `b`. -/
noncomputable def supporters (parent : α → Option α) (votes : ι → Option α) (S : Finset ι) (b : α) :
    Finset ι := S.filter fun v ↦ ∃ x, votes v = some x ∧ Reaches parent x b

open Classical in
/-- The voters that name `b` itself. -/
noncomputable def directVoters (votes : ι → Option α) (S : Finset ι) (b : α) : Finset ι :=
  S.filter fun v ↦ votes v = some b

theorem mem_supporters {v : ι} {b : α} :
    v ∈ supporters parent votes S b ↔ v ∈ S ∧ ∃ x, votes v = some x ∧ Reaches parent x b := by
  classical
  exact Finset.mem_filter

theorem mem_directVoters {v : ι} {b : α} :
    v ∈ directVoters votes S b ↔ v ∈ S ∧ votes v = some b := by
  classical
  exact Finset.mem_filter

theorem supporters_disjoint {depth : α → ℕ} (hfall : Falling parent depth) {p c c' : α}
    (hc : parent c = some p) (hc' : parent c' = some p) (hne : c ≠ c') :
    Disjoint (supporters parent votes S c) (supporters parent votes S c') := by
  rw [Finset.disjoint_left]
  intro v hv hv'
  obtain ⟨-, x, hx, hreach⟩ := mem_supporters.mp hv
  obtain ⟨-, x', hx', hreach'⟩ := mem_supporters.mp hv'
  obtain rfl := Option.some.inj (hx.symm.trans hx')
  exact hne (hreach.sibling_unique hfall hreach' hc hc')

/-- A node's supporters name it, or they support one of its children. -/
theorem card_supporters {depth : α → ℕ} (hfall : Falling parent depth) {b : α} {children : Finset α}
    (hchildren : ∀ c, c ∈ children ↔ parent c = some b) :
    (supporters parent votes S b).card =
      (directVoters votes S b).card + ∑ c ∈ children, (supporters parent votes S c).card := by
  classical
  have hsplit : supporters parent votes S b =
      directVoters votes S b ∪ children.biUnion (supporters parent votes S) := by
    ext v
    rw [Finset.mem_union, Finset.mem_biUnion, mem_supporters, mem_directVoters]
    constructor
    · intro hv
      obtain ⟨hS, x, hx, hreach⟩ := hv
      cases hreach.cases_tail with
      | inl heq => exact .inl ⟨hS, heq ▸ hx⟩
      | inr hstep =>
        obtain ⟨c, hreach, hc⟩ := hstep
        exact .inr ⟨c, (hchildren c).mpr hc, mem_supporters.mpr ⟨hS, x, hx, hreach⟩⟩
    · intro hv
      cases hv with
      | inl hv => exact ⟨hv.1, b, hv.2, .refl⟩
      | inr hv =>
        obtain ⟨c, hc, hv⟩ := hv
        obtain ⟨hS, x, hx, hreach⟩ := mem_supporters.mp hv
        exact ⟨hS, x, hx, hreach.tail ((hchildren c).mp hc)⟩
  have hdisjoint : Disjoint (directVoters votes S b)
      (children.biUnion (supporters parent votes S)) := by
    rw [Finset.disjoint_left]
    intro v hv hv'
    obtain ⟨c, hc, hv'⟩ := Finset.mem_biUnion.mp hv'
    obtain ⟨-, x, hx, hreach⟩ := mem_supporters.mp hv'
    obtain rfl := Option.some.inj ((mem_directVoters.mp hv).2.symm.trans hx)
    exact not_reaches_child hfall ((hchildren c).mp hc) hreach
  rw [hsplit, Finset.card_union_of_disjoint hdisjoint, Finset.card_biUnion]
  intro c hc c' hc' hne
  exact supporters_disjoint hfall ((hchildren c).mp hc) ((hchildren c').mp hc') hne

/-- Two siblings share the votes. -/
theorem card_supporters_add_le {depth : α → ℕ} (hfall : Falling parent depth) {p c c' : α}
    (hc : parent c = some p) (hc' : parent c' = some p) (hne : c ≠ c') :
    (supporters parent votes S c).card + (supporters parent votes S c').card ≤ S.card := by
  classical
  rw [← Finset.card_union_of_disjoint (supporters_disjoint hfall hc hc' hne)]
  refine Finset.card_le_card fun v hv ↦ ?_
  cases Finset.mem_union.mp hv with
  | inl hv => exact (mem_supporters.mp hv).1
  | inr hv => exact (mem_supporters.mp hv).1

end Support

section Descent

variable {α κ : Type} [LinearOrder κ] {child : α → α → Prop} {key : α → κ}

/-- The child with the greatest key. -/
def Greedy (child : α → α → Prop) (key : α → κ) (p c : α) : Prop :=
  child p c ∧ ∀ c', child p c' → key c' ≤ key c

/-- Greedy moves lead from the start to the end, which has no child left. -/
def Settles (child : α → α → Prop) (key : α → κ) (start head : α) : Prop :=
  ReflTransGen (Greedy child key) start head ∧ ∀ c, ¬child head c

theorem greedy_rightUnique (hkey : Function.Injective key) : Relator.RightUnique (Greedy child key) := by
  intro p c c' hc hc'
  exact hkey (le_antisymm (hc'.2 c hc.1) (hc.2 c' hc'.1))

/-- Whatever the greedy moves pass lies on the way to their end. -/
theorem Settles.passes (hkey : Function.Injective key) {start head x : α}
    (h : Settles child key start head) (hx : ReflTransGen (Greedy child key) start x) :
    ReflTransGen (Greedy child key) x head := by
  cases ReflTransGen.total_of_right_unique (greedy_rightUnique hkey) hx h.1 with
  | inl hx => exact hx
  | inr hx =>
    cases hx.cases_head with
    | inl heq => exact heq ▸ .refl
    | inr hstep =>
      obtain ⟨c, hc, -⟩ := hstep
      exact absurd hc.1 (h.2 c)

theorem Settles.unique (hkey : Function.Injective key) {start head head' : α}
    (h : Settles child key start head) (h' : Settles child key start head') : head = head' := by
  cases (h.passes hkey h'.1).cases_head with
  | inl heq => exact heq.symm
  | inr hstep =>
    obtain ⟨c, hc, -⟩ := hstep
    exact absurd hc.1 (h'.2 c)

/-- Greedy moves see no other children than those of the nodes they pass. -/
theorem Settles.congr {child' : α → α → Prop} {P : α → Prop} {start head : α}
    (hchild : ∀ p, P p → ∀ c, child' p c ↔ child p c) (hstep : ∀ p c, P p → child p c → P c)
    (hstart : P start) (h : Settles child key start head) : Settles child' key start head := by
  obtain ⟨hpath, hend⟩ := h
  have hmoves : P head ∧ ReflTransGen (Greedy child' key) start head := by
    clear hend
    induction hpath with
    | refl => exact ⟨hstart, .refl⟩
    | tail _ hmove ih =>
      obtain ⟨hp, hpath⟩ := ih
      refine ⟨hstep _ _ hp hmove.1, hpath.tail ?_⟩
      simpa only [Greedy, hchild _ hp] using hmove
  exact ⟨hmoves.2, fun c hc ↦ hend c ((hchild head hmoves.1 c).mp hc)⟩

theorem injective_weight_root {α : Type} [LinearOrder α] (weight : α → ℕ) :
    Function.Injective fun c ↦ toLex (weight c, c) := by
  intro c c' h
  exact (Prod.mk.inj (toLex.injective h)).2

/-- A child that outweighs its siblings is the greedy choice among all of them. -/
theorem greedy_of_outweighs {α : Type} [LinearOrder α] {child : α → α → Prop} {weight : α → ℕ}
    {p c : α} (hc : child p c) (hlt : ∀ c', child p c' → c' ≠ c → weight c' < weight c) :
    Greedy child (fun c ↦ toLex (weight c, c)) p c := by
  refine ⟨hc, fun c' hc' ↦ ?_⟩
  by_cases heq : c' = c
  · rw [heq]
  · exact (Prod.Lex.toLex_lt_toLex.mpr (.inl (hlt c' hc' heq))).le

end Descent

end Ethlambda.Base
