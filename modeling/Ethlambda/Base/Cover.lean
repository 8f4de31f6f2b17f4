import Mathlib.Data.Finset.Card
import Mathlib.Data.List.Induction

namespace Ethlambda.Base

variable {α β : Type}

/-- Every entry of the list meets a point that no earlier entry meets. -/
def Fresh (meets : α → β → Prop) (points : β → Prop) (l : List α) : Prop :=
  ∀ pre a post, l = pre ++ a :: post → ∃ x, points x ∧ meets a x ∧ ∀ b ∈ pre, ¬meets b x

namespace Fresh

variable {meets : α → β → Prop} {points points' : β → Prop} {l m : List α} {a : α}

theorem nil : Fresh meets points [] := by
  intro pre a post h
  simp at h

theorem append (hl : Fresh meets points l)
    (hm : Fresh meets (fun x ↦ points x ∧ ∀ a ∈ l, ¬meets a x) m) :
    Fresh meets points (l ++ m) := by
  intro pre a post h
  rcases List.append_eq_append_iff.mp h with ⟨rest, hpre, hm'⟩ | ⟨rest, hl', hpost⟩
  · obtain ⟨x, ⟨hx, hold⟩, ha, hpre'⟩ := hm rest a post hm'
    refine ⟨x, hx, ha, fun b hb ↦ ?_⟩
    rw [hpre] at hb
    rcases List.mem_append.mp hb with hb | hb
    · exact hold b hb
    · exact hpre' b hb
  · cases rest with
    | nil =>
      obtain ⟨x, ⟨hx, hold⟩, ha, -⟩ := hm [] a post (by simpa using hpost.symm)
      refine ⟨x, hx, ha, fun b hb ↦ hold b ?_⟩
      simpa [hl'] using hb
    | cons c rest =>
      obtain ⟨rfl, -⟩ : a = c ∧ post = rest ++ m := by simpa using hpost
      exact hl pre a rest hl'

theorem singleton {x : β} (hx : points x) (ha : meets a x) : Fresh meets points [a] := by
  intro pre b post h
  obtain ⟨rfl, rfl, -⟩ : pre = [] ∧ b = a ∧ post = [] := by
    cases pre with
    | nil => simpa [eq_comm] using h
    | cons c pre => simp at h
  exact ⟨x, hx, ha, fun c hc ↦ absurd hc List.not_mem_nil⟩

theorem cons {x : β} (hx : points x) (ha : meets a x)
    (hl : Fresh meets (fun x ↦ points x ∧ ¬meets a x) l) : Fresh meets points (a :: l) := by
  refine (singleton hx ha).append (m := l) fun pre b post h ↦ ?_
  obtain ⟨y, ⟨hy, hya⟩, hb, hpre⟩ := hl pre b post h
  refine ⟨y, ⟨hy, fun c hc ↦ ?_⟩, hb, hpre⟩
  rwa [List.mem_singleton.mp hc]

theorem mono (h : Fresh meets points l) (hsub : ∀ x, points x → points' x) :
    Fresh meets points' l := by
  intro pre a post hl
  obtain ⟨x, hx, ha, hpre⟩ := h pre a post hl
  exact ⟨x, hsub x hx, ha, hpre⟩

theorem of_append (h : Fresh meets points (l ++ m)) : Fresh meets points l := by
  intro pre a post hl
  exact h pre a (post ++ m) (by simp [hl])

open Classical in
/-- There are no more entries than points. -/
theorem length_le_card {s : Finset β} (h : Fresh meets (· ∈ s) l) : l.length ≤ s.card := by
  suffices hmet : l.length ≤ (s.filter fun x ↦ ∃ a ∈ l, meets a x).card from
    hmet.trans (Finset.card_filter_le _ _)
  induction l using List.reverseRecOn with
  | nil => simp
  | append_singleton l a ih =>
    obtain ⟨x, hx, ha, hold⟩ := h l a [] rfl
    have hinit := ih h.of_append
    have hlt : (s.filter fun y ↦ ∃ b ∈ l, meets b y).card <
        (s.filter fun y ↦ ∃ b ∈ l ++ [a], meets b y).card := by
      refine Finset.card_lt_card (Finset.ssubset_iff_of_subset ?_ |>.mpr ⟨x, ?_, ?_⟩)
      · intro y hy
        obtain ⟨hy, b, hb, hmeets⟩ := Finset.mem_filter.mp hy
        exact Finset.mem_filter.mpr ⟨hy, b, List.mem_append_left _ hb, hmeets⟩
      · exact Finset.mem_filter.mpr ⟨hx, a, by simp, ha⟩
      · intro hmem
        obtain ⟨-, b, hb, hmeets⟩ := Finset.mem_filter.mp hmem
        exact hold b hb hmeets
    rw [List.length_append, List.length_singleton]
    omega

end Fresh

end Ethlambda.Base
