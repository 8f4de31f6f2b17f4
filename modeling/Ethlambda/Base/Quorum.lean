import Ethlambda.Base.Bounded
import Mathlib.Data.Finset.Card
import Mathlib.Data.Finset.Range
import Mathlib.Data.List.Count
import Mathlib.Tactic.Linarith
import Mathlib.Data.List.GetD

namespace Ethlambda.Base

def flagged (row : List Bool) : Finset ℕ :=
  (Finset.range row.length).filter fun i ↦ row.getD i false = true

theorem card_flagged (row : List Bool) : (flagged row).card = row.count true := by
  induction row with
  | nil => rfl
  | cons b row ih =>
    have hsplit : flagged (b :: row) = (if b then {0} else ∅) ∪
        (flagged row).map ⟨Nat.succ, Nat.succ_injective⟩ := by
      ext i
      cases i with
      | zero => cases b <;> simp [flagged]
      | succ i => cases b <;> simp [flagged]
    have hdisj : Disjoint (if b then {0} else ∅ : Finset ℕ)
        ((flagged row).map ⟨Nat.succ, Nat.succ_injective⟩) := by
      rw [Finset.disjoint_left]
      intro i hi hm
      obtain ⟨j, -, rfl⟩ := Finset.mem_map.mp hm
      cases b <;> simp at hi
    rw [hsplit, Finset.card_union_of_disjoint hdisj, Finset.card_map, ih, List.count_cons]
    cases b <;> simp [Nat.add_comm]

theorem mem_flagged {row : List Bool} {i : ℕ} : i ∈ flagged row ↔ row[i]? = some true := by
  rw [flagged, Finset.mem_filter, Finset.mem_range, List.getD_eq_getElem?_getD]
  by_cases h : i < row.length
  · simp [h]
  · simp [h]

theorem flagged_replicate {n : ℕ} : flagged (List.replicate n false) = ∅ := by
  apply Finset.eq_empty_of_forall_notMem
  intro i hi
  have hmem := List.mem_of_getElem? (mem_flagged.mp hi)
  exact nomatch (List.mem_replicate.mp hmem).2

theorem flagged_orBits {bits marks : List Bool} (h : marks.length ≤ bits.length) :
    flagged (orBits bits marks) = flagged bits ∪ flagged marks := by
  ext i
  simp only [flagged, Finset.mem_union, Finset.mem_filter, Finset.mem_range, length_orBits]
  by_cases hi : i < bits.length
  · rw [getD_orBits hi, Bool.or_eq_true]
    by_cases him : i < marks.length
    · simp [hi, him]
    · simp [hi, him]
  · simp [hi, show ¬i < marks.length by omega]

theorem count_orBits_le {bits marks marks₁ : List Bool}
    (h : ∀ i, marks₁.getD i false = true → marks.getD i false = true) :
    (orBits bits marks₁).count true ≤ (orBits bits marks).count true := by
  rw [← card_flagged, ← card_flagged]
  refine Finset.card_le_card fun i hi ↦ ?_
  obtain ⟨hlt, hflag⟩ := Finset.mem_filter.mp hi
  rw [length_orBits, Finset.mem_range] at hlt
  refine Finset.mem_filter.mpr ⟨by rwa [length_orBits, Finset.mem_range], ?_⟩
  rw [getD_orBits hlt] at hflag ⊢
  rcases (Bool.or_eq_true _ _).mp hflag with hbit | hmark
  · rw [hbit, Bool.true_or]
  · rw [h i hmark, Bool.or_true]

theorem third_le_card_inter {A B : Finset ℕ} {n : ℕ} (hA : A ⊆ Finset.range n)
    (hB : B ⊆ Finset.range n) (ha : 2 * n ≤ 3 * A.card) (hb : 2 * n ≤ 3 * B.card) :
    n ≤ 3 * (A ∩ B).card := by
  have hunion := Finset.card_union_add_card_inter A B
  have hle := Finset.card_le_card (Finset.union_subset hA hB)
  rw [Finset.card_range] at hle
  omega

end Ethlambda.Base
