import Mathlib.Data.List.Basic

namespace Ethlambda.Base

variable {α : Type}

/-- Add an element to a queue of at most `cap`. A full queue drops its oldest element. -/
def offer (cap : ℕ) (q : List α) (a : α) : List α :=
  (if cap ≤ q.length then q.drop 1 else q) ++ [a]

section Offer

variable {cap : ℕ} {q l : List α}

theorem length_offer_le (hcap : 0 < cap) (hq : q.length ≤ cap) (a : α) :
    (offer cap q a).length ≤ cap := by
  unfold offer
  split
  · rw [List.length_append, List.length_drop, List.length_singleton]
    omega
  · rw [List.length_append, List.length_singleton]
    omega

theorem length_foldl_offer_le (hcap : 0 < cap) (hq : q.length ≤ cap) (l : List α) :
    (l.foldl (offer cap) q).length ≤ cap := by
  induction l generalizing q with
  | nil => exact hq
  | cons a l ih => exact ih (length_offer_le hcap hq a)

/-- A queue that took a batch holds its newest elements. -/
theorem foldl_offer (hcap : 0 < cap) (hq : q.length ≤ cap) (l : List α) :
    l.foldl (offer cap) q = (q ++ l).drop (q.length + l.length - cap) := by
  induction l generalizing q with
  | nil =>
    have hzero : q.length + ([] : List α).length - cap = 0 := Nat.sub_eq_zero_of_le hq
    rw [hzero, List.foldl_nil, List.append_nil, List.drop_zero]
  | cons a l ih =>
    rw [List.foldl_cons, ih (length_offer_le hcap hq a), List.length_cons]
    unfold offer
    by_cases hfull : cap ≤ q.length
    · cases q with
      | nil => exact absurd hfull (Nat.not_le.mpr hcap)
      | cons b q =>
        rw [if_pos hfull, List.drop_succ_cons, List.drop_zero, List.append_assoc,
          List.singleton_append, List.length_append, List.length_singleton, List.length_cons,
          List.cons_append]
        rw [List.length_cons] at hq hfull
        have hl : q.length + 1 + l.length - cap = l.length := by omega
        have hr : q.length + 1 + (l.length + 1) - cap = l.length + 1 := by omega
        rw [hl, hr, List.drop_succ_cons]
    · rw [if_neg hfull, List.append_assoc, List.singleton_append, List.length_append,
        List.length_singleton]
      congr 1
      omega

/-- A batch that fits is in the queue. -/
theorem mem_foldl_offer (hcap : 0 < cap) (hq : q.length ≤ cap) (hl : l.length ≤ cap) {a : α}
    (ha : a ∈ l) : a ∈ l.foldl (offer cap) q := by
  rw [foldl_offer hcap hq, List.drop_append_of_le_length (by omega)]
  exact List.mem_append_right _ ha

/-- A longer batch drives out everything before it and its own first elements. -/
theorem foldl_offer_of_lt (hq : q.length ≤ cap) (hcap : 0 < cap) (hl : cap < l.length) :
    l.foldl (offer cap) q = l.drop (l.length - cap) := by
  rw [foldl_offer hcap hq, List.drop_append]
  have hdrop : q.drop (q.length + l.length - cap) = [] := List.drop_eq_nil_of_le (by omega)
  rw [hdrop, List.nil_append]
  congr 1
  omega

/-- With distinct keys a whole batch is in the queue exactly if it fits. -/
theorem batch_kept_iff {κ : Type} {key : α → κ} (hcap : 0 < cap) (hq : q.length ≤ cap)
    (hl : (l.map key).Nodup) :
    (∀ a ∈ l, key a ∈ (l.foldl (offer cap) q).map key) ↔ l.length ≤ cap := by
  constructor
  · intro h
    by_contra hlt
    rw [Nat.not_le] at hlt
    cases l with
    | nil => exact absurd hlt (Nat.not_lt_zero _)
    | cons a l =>
      have hmem := h a List.mem_cons_self
      have hsplit : (a :: l).length - cap = l.length - cap + 1 := by
        rw [List.length_cons] at hlt ⊢
        omega
      rw [foldl_offer_of_lt hq hcap hlt, hsplit, List.drop_succ_cons] at hmem
      obtain ⟨b, hb, heq⟩ := List.mem_map.mp hmem
      rw [List.map_cons, List.nodup_cons] at hl
      exact hl.1 (heq ▸ List.mem_map_of_mem (List.mem_of_mem_drop hb))
  · intro h a ha
    exact List.mem_map_of_mem (mem_foldl_offer hcap hq h ha)

end Offer

end Ethlambda.Base
