import Mathlib.Data.Finset.Max
import Mathlib.Tactic

namespace Ethlambda.Base

variable {α : Type} [DecidableEq α] {rank : α → ℕ} {n : ℕ} {S K W D R : Finset α}

/-- The `n` elements of a set that rank highest, and all of them if there are fewer. Where ranks are
equal, any choice will do. -/
structure Newest (rank : α → ℕ) (n : ℕ) (S K : Finset α) : Prop where
  subset : K ⊆ S
  card : K.card = min n S.card
  least : ∀ a ∈ K, ∀ b ∈ S, b ∉ K → rank b ≤ rank a

theorem exists_newest (rank : α → ℕ) (n : ℕ) (S : Finset α) : ∃ K, Newest rank n S K := by
  induction n with
  | zero => exact ⟨∅, Finset.empty_subset S, by simp, fun a ha ↦ absurd ha (Finset.notMem_empty a)⟩
  | succ n ih =>
    obtain ⟨K, hK⟩ := ih
    by_cases hrest : (S \ K).Nonempty
    · -- the highest of the rest comes next
      obtain ⟨a, ha, hmax⟩ := Finset.exists_max_image (S \ K) rank hrest
      obtain ⟨haS, haK⟩ := Finset.mem_sdiff.mp ha
      refine ⟨insert a K, Finset.insert_subset haS hK.subset, ?_, fun b hb c hc hcK ↦ ?_⟩
      · have hlt : K.card < S.card :=
          Finset.card_lt_card ((Finset.ssubset_iff_of_subset hK.subset).mpr ⟨a, haS, haK⟩)
        have hcard := hK.card
        rw [Finset.card_insert_of_notMem haK]
        omega
      · rw [Finset.mem_insert, not_or] at hcK
        rcases Finset.mem_insert.mp hb with rfl | hb
        · exact hmax c (Finset.mem_sdiff.mpr ⟨hc, hcK.2⟩)
        · exact hK.least b hb c hc hcK.2
    · have hall : K = S := by
        rw [Finset.not_nonempty_iff_eq_empty, Finset.sdiff_eq_empty_iff_subset] at hrest
        exact hK.subset.antisymm hrest
      have hcard := hK.card
      rw [hall] at hcard
      exact ⟨S, subset_rfl, by omega, fun a _ b hb hbS ↦ absurd hb hbS⟩

/-- A window is made of the elements that rank highest in a larger set. -/
structure Window (rank : α → ℕ) (n : ℕ) (W D : Finset α) : Prop where
  disjoint : Disjoint W D
  le : ∀ w ∈ W, ∀ d ∈ D, rank d ≤ rank w
  card_le : W.card ≤ n
  full : D.Nonempty → W.card = n

/-- What is kept of a set where the window is laid over a larger one: what lies inside it and what
is kept in any case. -/
def keptBy (S W R : Finset α) : Finset α := S.filter fun a ↦ a ∈ W ∨ a ∈ R

theorem mem_keptBy {a : α} : a ∈ keptBy S W R ↔ a ∈ S ∧ (a ∈ W ∨ a ∈ R) := Finset.mem_filter

theorem card_inter_add_gaps (S W : Finset α) : (S ∩ W).card + (W \ S).card = W.card := by
  rw [Finset.inter_comm, Finset.card_inter_add_card_sdiff]

section Window

variable (hwin : Window rank n W D) (hS : S ⊆ W ∪ D)
include hwin hS

/-- If the newest of the set are kept, the gaps in the window are made up for. -/
theorem Window.gaps_le (hK : Newest rank n S K) (hkept : keptBy S W R = K ∪ S ∩ R) {p : α}
    (hp : p ∈ S) (hpW : p ∉ W) (hpR : p ∉ R) :
    (W \ S).card ≤ ((S ∩ R ∩ D).filter fun a ↦ rank p ≤ rank a).card := by
  have hrest {a : α} (ha : a ∈ S) (haW : a ∉ W) : a ∈ D :=
    (Finset.mem_union.mp (hS ha)).resolve_left haW
  have hpK : p ∉ K := by
    intro h
    have hmem : p ∈ keptBy S W R := hkept ▸ Finset.mem_union_left _ h
    exact (mem_keptBy.mp hmem).2.elim hpW hpR
  have hlt : K.card < S.card :=
    Finset.card_lt_card ((Finset.ssubset_iff_of_subset hK.subset).mpr ⟨p, hp, hpK⟩)
  have hfull := hwin.full ⟨p, hrest hp hpW⟩
  have hsub : K ⊆ S ∩ W ∪ (S ∩ R ∩ D).filter fun a ↦ rank p ≤ rank a := by
    intro a ha
    have haS := hK.subset ha
    rw [Finset.mem_union]
    by_cases haW : a ∈ W
    · exact .inl (Finset.mem_inter.mpr ⟨haS, haW⟩)
    · have hmem : a ∈ keptBy S W R := hkept ▸ Finset.mem_union_left _ ha
      have haR := (mem_keptBy.mp hmem).2.resolve_left haW
      refine .inr (Finset.mem_filter.mpr ⟨?_, hK.least a ha p hp hpK⟩)
      exact Finset.mem_inter.mpr ⟨Finset.mem_inter.mpr ⟨haS, haR⟩, hrest haS haW⟩
  have hcard := (Finset.card_le_card hsub).trans (Finset.card_union_le _ _)
  have hsplit := card_inter_add_gaps S W
  have hK' := hK.card
  omega

/-- If the gaps in the window are made up for, the newest of the set are kept. -/
theorem Window.exists_newest_kept (hgaps : ∀ p ∈ S, p ∉ W → p ∉ R →
      (W \ S).card ≤ ((S ∩ R ∩ D).filter fun a ↦ rank p ≤ rank a).card) :
    ∃ K, Newest rank n S K ∧ keptBy S W R = K ∪ S ∩ R := by
  have hrest {a : α} (ha : a ∈ S) (haW : a ∉ W) : a ∈ D :=
    (Finset.mem_union.mp (hS ha)).resolve_left haW
  have hinter : (S ∩ W).card ≤ S.card := Finset.card_le_card Finset.inter_subset_left
  have hsplit := card_inter_add_gaps S W
  have hle := hwin.card_le
  -- the window first, then the newest of what is kept outside it
  obtain ⟨E, hE⟩ := exists_newest rank (min n S.card - (S ∩ W).card) (S ∩ R ∩ D)
  have henough : min n S.card ≤ (S ∩ W).card + (S ∩ R ∩ D).card := by
    by_cases hnone : ∀ p ∈ S, p ∉ W → p ∈ R
    · have hsub : S ⊆ S ∩ W ∪ S ∩ R ∩ D := by
        intro a ha
        rw [Finset.mem_union]
        by_cases haW : a ∈ W
        · exact .inl (Finset.mem_inter.mpr ⟨ha, haW⟩)
        · refine .inr (Finset.mem_inter.mpr ⟨?_, hrest ha haW⟩)
          exact Finset.mem_inter.mpr ⟨ha, hnone a ha haW⟩
      have hcard := (Finset.card_le_card hsub).trans (Finset.card_union_le _ _)
      omega
    · push Not at hnone
      obtain ⟨p, hp, hpW, hpR⟩ := hnone
      have hfull := hwin.full ⟨p, hrest hp hpW⟩
      have hcard := (hgaps p hp hpW hpR).trans (Finset.card_le_card (Finset.filter_subset _ _))
      omega
  have hEsub : ∀ a ∈ E, a ∈ S ∧ a ∈ R ∧ a ∈ D := by
    intro a ha
    obtain ⟨haSR, haD⟩ := Finset.mem_inter.mp (hE.subset ha)
    exact ⟨(Finset.mem_inter.mp haSR).1, (Finset.mem_inter.mp haSR).2, haD⟩
  have hdisj : Disjoint (S ∩ W) E := by
    refine Finset.disjoint_left.mpr fun a ha haE ↦ ?_
    exact Finset.disjoint_left.mp hwin.disjoint (Finset.mem_inter.mp ha).2 (hEsub a haE).2.2
  have hEcard := hE.card
  have hcardK : (S ∩ W ∪ E).card = min n S.card := by
    rw [Finset.card_union_of_disjoint hdisj]
    omega
  refine ⟨S ∩ W ∪ E, ⟨?_, hcardK, fun a ha b hb hbK ↦ ?_⟩, ?_⟩
  · exact Finset.union_subset Finset.inter_subset_left fun a ha ↦ (hEsub a ha).1
  · rw [Finset.mem_union, not_or] at hbK
    have hbW : b ∉ W := fun hbW ↦ hbK.1 (Finset.mem_inter.mpr ⟨hb, hbW⟩)
    have hbD := hrest hb hbW
    rcases Finset.mem_union.mp ha with ha | ha
    · exact hwin.le a (Finset.mem_inter.mp ha).2 b hbD
    · by_cases hbR : b ∈ R
      · refine hE.least a ha b ?_ hbK.2
        exact Finset.mem_inter.mpr ⟨Finset.mem_inter.mpr ⟨hb, hbR⟩, hbD⟩
      · -- otherwise too few are left to make up for the gaps
        by_contra hlt
        have hsub : ((S ∩ R ∩ D).filter fun x ↦ rank b ≤ rank x) ⊆ E.erase a := by
          intro x hx
          obtain ⟨hxT, hbx⟩ := Finset.mem_filter.mp hx
          have hxE : x ∈ E := by
            by_contra hxE
            have := hE.least a ha x hxT hxE
            omega
          exact Finset.mem_erase.mpr ⟨fun h ↦ hlt (h ▸ hbx), hxE⟩
        have hfew := (hgaps b hb hbW hbR).trans (Finset.card_le_card hsub)
        have hfull := hwin.full ⟨b, hbD⟩
        have hpos : 0 < E.card := Finset.card_pos.mpr ⟨a, ha⟩
        rw [Finset.card_erase_of_mem ha] at hfew
        omega
  · ext a
    simp only [mem_keptBy, Finset.mem_union, Finset.mem_inter]
    constructor
    · rintro ⟨haS, haW | haR⟩
      · exact .inl (.inl ⟨haS, haW⟩)
      · exact .inr ⟨haS, haR⟩
    · rintro ((⟨haS, haW⟩ | haE) | ⟨haS, haR⟩)
      · exact ⟨haS, .inl haW⟩
      · exact ⟨(hEsub a haE).1, .inr (hEsub a haE).2.1⟩
      · exact ⟨haS, .inr haR⟩

/-- A window over a larger set keeps the newest of the set itself exactly if each element that is
dropped has as many kept ones behind the window, no older than itself, as the window has gaps. -/
theorem Window.keeps_newest_iff :
    (∃ K, Newest rank n S K ∧ keptBy S W R = K ∪ S ∩ R) ↔ ∀ p ∈ S, p ∉ W → p ∉ R →
      (W \ S).card ≤ ((S ∩ R ∩ D).filter fun a ↦ rank p ≤ rank a).card := by
  constructor
  · intro h
    obtain ⟨K, hK, hkept⟩ := h
    exact fun p hp hpW hpR ↦ hwin.gaps_le hS hK hkept hp hpW hpR
  · exact hwin.exists_newest_kept hS

end Window

end Ethlambda.Base
