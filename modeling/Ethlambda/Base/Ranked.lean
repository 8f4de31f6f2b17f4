import Mathlib.Data.List.Count
import Mathlib.Data.List.Sort
import Mathlib.Order.Lattice
import Mathlib.Order.OrderDual

namespace Ethlambda.Base

section Extremal

variable {α κ : Type} [LinearOrder κ]

/-- The last element with the greatest key. -/
def maxByKey (key : α → κ) : List α → Option α
  | [] => none
  | a :: l => some (l.foldl (fun best x ↦ if key best ≤ key x then x else best) a)

/-- The first element with the least key. -/
def minByKey (key : α → κ) : List α → Option α
  | [] => none
  | a :: l => some (l.foldl (fun best x ↦ if key x < key best then x else best) a)

theorem foldl_pick_mem {p : α → α → Bool} {l : List α} {a b : α}
    (h : l.foldl (fun best x ↦ if p best x then x else best) a = b) : b ∈ a :: l := by
  induction l generalizing a with
  | nil => simp_all
  | cons x l ih =>
    rw [List.foldl_cons] at h
    have hmem := ih h
    rcases List.mem_cons.mp hmem with rfl | hmem
    · split <;> simp
    · exact List.mem_cons_of_mem a (List.mem_cons_of_mem x hmem)

theorem maxByKey_mem {key : α → κ} {l : List α} {a : α} (h : maxByKey key l = some a) : a ∈ l := by
  cases l with
  | nil => exact nomatch h
  | cons x l =>
    have hfold := Option.some.inj h
    exact foldl_pick_mem (p := fun best x ↦ decide (key best ≤ key x)) (by simpa using hfold)

theorem le_foldl_max (key : α → κ) (l : List α) (a : α) :
    ∀ x ∈ a :: l, key x ≤ key (l.foldl (fun best x ↦ if key best ≤ key x then x else best) a) := by
  induction l generalizing a with
  | nil => simp
  | cons b l ih =>
    intro x hx
    rw [List.foldl_cons]
    by_cases hle : key a ≤ key b
    · rw [if_pos hle]
      cases List.mem_cons.mp hx with
      | inl heq => exact heq ▸ hle.trans (ih b b List.mem_cons_self)
      | inr hx => exact ih b x hx
    · rw [if_neg hle]
      cases List.mem_cons.mp hx with
      | inl heq => exact heq ▸ ih a a List.mem_cons_self
      | inr hx =>
        cases List.mem_cons.mp hx with
        | inl heq => exact heq ▸ (not_le.mp hle).le.trans (ih a a List.mem_cons_self)
        | inr hx => exact ih a x (List.mem_cons_of_mem a hx)

theorem le_maxByKey {key : α → κ} {l : List α} {a : α} (h : maxByKey key l = some a) :
    ∀ x ∈ l, key x ≤ key a := by
  cases l with
  | nil => exact nomatch h
  | cons b l =>
    rw [← Option.some.inj h]
    exact le_foldl_max key l b

theorem maxByKey_eq_none {key : α → κ} {l : List α} : maxByKey key l = none ↔ l = [] := by
  cases l with
  | nil => simp [maxByKey]
  | cons a l => simp [maxByKey]

end Extremal

/-- How many nodes lie at or below `x`. A walk down a finite set of nodes is over before this
number of steps is used up. -/
def rank {α κ : Type} [LinearOrder κ] (measure : α → κ) (nodes : List α) (x : α) : ℕ :=
  nodes.countP fun y ↦ decide (measure y ≤ measure x)

section Rank

variable {α κ : Type} [LinearOrder κ] {measure : α → κ} {nodes : List α} {x y : α}

theorem rank_le_length : rank measure nodes x ≤ nodes.length := List.countP_le_length

theorem rank_lt (hx : x ∈ nodes) (h : measure y < measure x) :
    rank measure nodes y < rank measure nodes x := by
  induction nodes with
  | nil => exact absurd hx List.not_mem_nil
  | cons z nodes ih =>
    have hmono : rank measure nodes y ≤ rank measure nodes x := by
      refine List.countP_mono_left fun w _ hw ↦ ?_
      simp only [decide_eq_true_eq] at hw ⊢
      exact hw.trans h.le
    unfold rank at ih hmono ⊢
    rw [List.countP_cons, List.countP_cons]
    rcases List.mem_cons.mp hx with rfl | hx
    · have hle : measure x ≤ measure x := le_rfl
      have hnot : ¬measure x ≤ measure y := not_le.mpr h
      simp only [hle, hnot, decide_true, decide_false, if_true, Bool.false_eq_true, if_false]
      omega
    · have hlt := ih hx
      by_cases hz : measure z ≤ measure y
      · have hz' : measure z ≤ measure x := hz.trans h.le
        simp only [hz, hz', decide_true, if_true]
        omega
      · simp only [hz, decide_false, Bool.false_eq_true, if_false]
        split <;> omega

end Rank

theorem insertionSort_pairwise {α : Type} (key : α → ℕ) (l : List α) :
    (l.insertionSort fun a b ↦ key b ≤ key a).Pairwise fun a b ↦ key b ≤ key a := by
  have : Std.Total fun a b : α ↦ key b ≤ key a := ⟨fun a b ↦ Nat.le_total (key b) (key a)⟩
  have : IsTrans α fun a b ↦ key b ≤ key a := ⟨fun _ _ _ hab hbc ↦ hbc.trans hab⟩
  exact List.pairwise_insertionSort _ _

/-- In a list that is sorted by a key, what stands behind the first `n` entries has at least that
many others of its own key or a greater one. -/
theorem lt_countP_of_mem_drop {α κ : Type} [LinearOrder κ] (key : α → κ) {l : List α}
    (hl : l.Pairwise fun a b ↦ key b ≤ key a) {a : α} {n : ℕ} (ha : a ∈ l.drop n) :
    n < l.countP fun b ↦ decide (key a ≤ key b) := by
  have hlength : n < l.length := by
    have hpos := List.length_pos_of_mem ha
    rw [List.length_drop] at hpos
    omega
  rw [← List.take_append_drop n l] at hl
  have hfirst : (l.take n).countP (fun b ↦ decide (key a ≤ key b)) = n := by
    have hall : ∀ b ∈ l.take n, decide (key a ≤ key b) = true := fun b hb ↦
      decide_eq_true ((List.pairwise_append.mp hl).2.2 b hb a ha)
    rw [List.countP_eq_length.mpr hall, List.length_take, min_eq_left hlength.le]
  have hrest : 0 < (l.drop n).countP fun b ↦ decide (key a ≤ key b) :=
    List.countP_pos_iff.mpr ⟨a, ha, decide_eq_true le_rfl⟩
  have hsplit : l.countP (fun b ↦ decide (key a ≤ key b)) =
      (l.take n).countP (fun b ↦ decide (key a ≤ key b)) +
        (l.drop n).countP fun b ↦ decide (key a ≤ key b) := by
    rw [← List.countP_append, List.take_append_drop]
  omega

/-- In a list with falling keys, an element with `n` greater keys lies past the first `n`. -/
theorem mem_drop_of_pairwise {α κ : Type} [LinearOrder κ] (key : α → κ) {l : List α}
    (hl : l.Pairwise fun a b ↦ key b ≤ key a) {a : α} (ha : a ∈ l) {n : ℕ}
    (hn : n ≤ l.countP fun b ↦ decide (key a < key b)) : a ∈ l.drop n := by
  obtain ⟨pre, post, rfl⟩ := List.append_of_mem ha
  -- from `a` on there are no greater keys, so all of them stand before it
  have hpost : (a :: post).countP (fun b ↦ decide (key a < key b)) = 0 := by
    rw [List.countP_eq_zero]
    intro b hb
    have hle : key b ≤ key a := by
      rcases List.mem_cons.mp hb with rfl | hb
      · exact le_rfl
      · exact (List.pairwise_cons.mp (List.pairwise_append.mp hl).2.1).1 b hb
    simpa using hle
  rw [List.countP_append, hpost, Nat.add_zero] at hn
  rw [List.drop_append_of_le_length (hn.trans List.countP_le_length)]
  exact List.mem_append_right _ List.mem_cons_self

/-- Stopping early is harmless when nothing that counts stands behind something that does not. -/
theorem takeWhile_eq_filter {α : Type} {p : α → Bool} {l : List α}
    (h : l.Pairwise fun a b ↦ p b = true → p a = true) : l.takeWhile p = l.filter p := by
  induction l with
  | nil => rfl
  | cons a l ih =>
    obtain ⟨ha, hl⟩ := List.pairwise_cons.mp h
    cases hp : p a with
    | true => rw [List.takeWhile_cons_of_pos hp, List.filter_cons_of_pos hp, ih hl]
    | false =>
      have hnone : l.filter p = [] := by
        refine List.filter_eq_nil_iff.mpr fun b hb hpb ↦ ?_
        rw [ha b hb hpb] at hp
        exact nomatch hp
      rw [List.takeWhile_cons_of_neg (by simp [hp]), List.filter_cons_of_neg (by simp [hp]), hnone]

end Ethlambda.Base
