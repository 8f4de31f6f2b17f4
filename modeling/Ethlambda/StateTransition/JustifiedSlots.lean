import Ethlambda.Types.Containers
import Mathlib.Data.Nat.Sqrt
import Mathlib.Data.Set.Insert

namespace Ethlambda.StateTransition

open Ethlambda.Base Ethlambda.Types

variable {ε : Type}

/-- Whether a slot is a candidate for justification, by its distance from the finalized slot:
at most five, a perfect square, or a pronic number. The multiplication and the addition of the
third test are checked 64-bit ones. -/
def slotIsJustifiableAfter (slot finalizedSlot : ℕ) : Bool :=
  if slot < finalizedSlot then false
  else
    let delta := slot - finalizedSlot
    decide (delta ≤ 5) || decide (delta.sqrt ^ 2 = delta) ||
      (decide (4 * delta < 2 ^ 64) && decide (4 * delta + 1 < 2 ^ 64) &&
        decide ((4 * delta + 1).sqrt ^ 2 = 4 * delta + 1) && decide ((4 * delta + 1) % 2 = 1))

theorem slotIsJustifiableAfter_self (slot : ℕ) : slotIsJustifiableAfter slot slot = true := by
  simp [slotIsJustifiableAfter]

/-- The index of a slot after the finalized one; the slots up to the finalized one have none. -/
def relativeIndex (targetSlot finalizedSlot : ℕ) : Option ℕ :=
  if targetSlot < finalizedSlot then none
  else if targetSlot - finalizedSlot < 1 then none
  else some (targetSlot - finalizedSlot - 1)

theorem relativeIndex_of_le {t f : ℕ} (h : t ≤ f) : relativeIndex t f = none := by
  unfold relativeIndex
  split
  · rfl
  · rw [if_pos (by omega)]

theorem relativeIndex_of_lt {t f : ℕ} (h : f < t) : relativeIndex t f = some (t - f - 1) := by
  rw [relativeIndex, if_neg (by omega), if_neg (by omega)]

def isSlotJustified (slots : JustifiedSlots) (finalizedSlot targetSlot : ℕ) : Bool :=
  match relativeIndex targetSlot finalizedSlot with
  | some i => (slots.get i).getD false
  | none => true

def setJustified (slots : JustifiedSlots) (finalizedSlot targetSlot : ℕ) : Exec ε JustifiedSlots :=
  match relativeIndex targetSlot finalizedSlot with
  | some i => Exec.expect "index out of bounds" (BitList.set slots i true)
  | none => .ok slots

def extendToSlot (slots : JustifiedSlots) (finalizedSlot targetSlot : ℕ) : Exec ε JustifiedSlots :=
  match relativeIndex targetSlot finalizedSlot with
  | none => .ok slots
  | some requiredIdx => do
    let requiredCapacity := requiredIdx + 1
    if requiredCapacity ≤ slots.len then
      pure slots
    else
      let extended ← Exec.expect "capacity limit exceeded"
        (BitList.withCapacity historicalRootsLimit requiredCapacity)
      pure (BitList.union slots extended)

def shiftWindow (slots : JustifiedSlots) (delta : ℕ) : Exec ε JustifiedSlots :=
  if delta = 0 then
    .ok slots
  else if slots.len ≤ delta then
    Exec.unwrap (BitList.withCapacity historicalRootsLimit 0)
  else do
    let remaining := slots.len - delta
    let newBits ← Exec.unwrap (BitList.withCapacity historicalRootsLimit remaining)
    -- the loop over `0..remaining` sets the bits one after the other
    let moved := (List.range remaining).map fun i ↦ (slots.get (i + delta)).getD false
    let bits ← Exec.unwrap (raise moved newBits.toList)
    Exec.unwrap (VariableList.new historicalRootsLimit bits)

theorem isSlotJustified_of_le {w : JustifiedSlots} {f t : ℕ} (h : t ≤ f) :
    isSlotJustified w f t = true := by
  rw [isSlotJustified, relativeIndex_of_le h]

theorem isSlotJustified_of_lt {w : JustifiedSlots} {f t : ℕ} (h : f < t) :
    isSlotJustified w f t = w.toList.getD (t - f - 1) false := by
  rw [isSlotJustified, relativeIndex_of_lt h, List.getD_eq_getElem?_getD]
  rfl

theorem lt_of_not_isSlotJustified {w : JustifiedSlots} {f t : ℕ}
    (h : isSlotJustified w f t = false) : f < t := by
  by_contra hle
  rw [isSlotJustified_of_le (by omega)] at h
  exact nomatch h

theorem lt_length_of_isSlotJustified {w : JustifiedSlots} {f t : ℕ} (hf : f < t)
    (h : isSlotJustified w f t = true) : t - f - 1 < w.toList.length := by
  by_contra hlen
  rw [isSlotJustified_of_lt hf, List.getD_eq_default _ _ (by omega)] at h
  exact nomatch h

theorem setJustified_eq_ok {w : JustifiedSlots} {f t : ℕ} (hf : f < t)
    (hlen : t - f - 1 < w.toList.length) :
    ∃ w', (setJustified w f t : Exec ε JustifiedSlots) = .ok w' ∧
      w'.toList.length = w.toList.length ∧
      ∀ u, isSlotJustified w' f u = (decide (u = t) || isSlotJustified w f u) := by
  refine ⟨⟨w.toList.set (t - f - 1) true, by simpa using w.length_le⟩, ?_, by simp, fun u ↦ ?_⟩
  · rw [setJustified, relativeIndex_of_lt hf, Exec.expect_eq_ok]
    exact BitList.set_eq_some.mpr ⟨hlen, rfl⟩
  · rcases Nat.lt_or_ge f u with hu | hu
    · rw [isSlotJustified_of_lt hu, isSlotJustified_of_lt hu]
      by_cases h : u = t
      · subst h
        simp [List.getD_eq_getElem?_getD, hlen]
      · have hne : t - f - 1 ≠ u - f - 1 := by omega
        simp [List.getD_eq_getElem?_getD, h, hne]
    · rw [isSlotJustified_of_le hu, isSlotJustified_of_le hu, Bool.or_true]

theorem extendToSlot_eq_ok {w : JustifiedSlots} {f t : ℕ} (hw : w.toList.length ≤ t - f)
    (hlimit : t - f ≤ historicalRootsLimit) :
    ∃ w', (extendToSlot w f t : Exec ε JustifiedSlots) = .ok w' ∧ w'.toList.length = t - f ∧
      ∀ u, isSlotJustified w' f u = isSlotJustified w f u := by
  unfold extendToSlot
  rcases Nat.lt_or_ge f t with hf | hf
  · rw [relativeIndex_of_lt hf]
    dsimp only
    split
    · rename_i hcap
      simp only [VariableList.len] at hcap
      exact ⟨w, rfl, by omega, fun u ↦ rfl⟩
    · rename_i hcap
      have hn : t - f - 1 + 1 ≤ historicalRootsLimit := by omega
      obtain ⟨e, he, hlist⟩ := BitList.exists_withCapacity hn
      rw [he]
      refine ⟨BitList.union w e, rfl, ?_, fun u ↦ ?_⟩
      · rw [BitList.length_union, hlist, List.length_replicate]
        omega
      · rcases Nat.lt_or_ge f u with hu | hu
        · rw [isSlotJustified_of_lt hu, isSlotJustified_of_lt hu, BitList.getD_union, hlist,
            List.getD_eq_getElem?_getD, List.getD_eq_getElem?_getD,
            List.getElem?_getD_replicate_default_eq, Bool.or_false]
        · rw [isSlotJustified_of_le hu, isSlotJustified_of_le hu]
  · rw [relativeIndex_of_le hf]
    exact ⟨w, rfl, by omega, fun u ↦ rfl⟩

theorem extendToSlot_spec {w w' : JustifiedSlots} {f target : ℕ}
    (h : (extendToSlot w f target : Exec ε JustifiedSlots) = .ok w') :
    target ≤ f + w'.toList.length ∧ ∀ u, isSlotJustified w' f u = isSlotJustified w f u := by
  unfold extendToSlot at h
  rcases Nat.lt_or_ge f target with hf | hf
  · rw [relativeIndex_of_lt hf] at h
    dsimp only at h
    split at h
    · rename_i hcap
      rw [VariableList.len] at hcap
      obtain rfl := Except.ok.inj h
      exact ⟨by omega, fun _ ↦ rfl⟩
    · obtain ⟨e, he, h⟩ := Exec.bind_eq_ok.mp h
      obtain rfl := Except.ok.inj h
      have hlist := BitList.withCapacity_eq_some.mp (Exec.expect_eq_ok.mp he)
      refine ⟨?_, fun u ↦ ?_⟩
      · rw [BitList.length_union, hlist, List.length_replicate]
        omega
      · rcases Nat.lt_or_ge f u with hu | hu
        · rw [isSlotJustified_of_lt hu, isSlotJustified_of_lt hu, BitList.getD_union, hlist,
            List.getD_eq_getElem?_getD, List.getD_eq_getElem?_getD,
            List.getElem?_getD_replicate_default_eq, Bool.or_false]
        · rw [isSlotJustified_of_le hu, isSlotJustified_of_le hu]
  · rw [relativeIndex_of_le hf] at h
    obtain rfl := Except.ok.inj h
    exact ⟨by omega, fun _ ↦ rfl⟩

theorem extendToSlot_noPanic_iff {w : JustifiedSlots} {f target : ℕ} :
    Exec.NoPanic (extendToSlot w f target : Exec ε JustifiedSlots) ↔
      target - f ≤ historicalRootsLimit := by
  have hw := w.length_le
  unfold extendToSlot
  rcases Nat.lt_or_ge f target with hf | hf
  · rw [relativeIndex_of_lt hf]
    dsimp only
    split
    · rename_i hcap
      rw [VariableList.len] at hcap
      exact ⟨fun _ ↦ by omega, fun _ ↦ .ok _⟩
    · by_cases hfits : target - f - 1 + 1 ≤ historicalRootsLimit
      · obtain ⟨e, he, -⟩ := BitList.exists_withCapacity hfits
        rw [he]
        exact ⟨fun _ ↦ by omega, fun _ ↦ .ok _⟩
      · have hnone : BitList.withCapacity historicalRootsLimit (target - f - 1 + 1) = none := by
          rw [BitList.withCapacity, VariableList.new, dif_neg (by simpa using hfits)]
        rw [hnone]
        exact ⟨fun h ↦ absurd rfl (h (.expect "capacity limit exceeded")), fun _ ↦ by omega⟩
  · rw [relativeIndex_of_le hf]
    exact ⟨fun _ ↦ by omega, fun _ ↦ .ok _⟩

theorem shiftWindow_eq_ok (w : JustifiedSlots) (d : ℕ) :
    ∃ w', (shiftWindow w d : Exec ε JustifiedSlots) = .ok w' ∧ w'.toList = w.toList.drop d := by
  have hlen := w.length_le
  unfold shiftWindow
  split
  · rename_i h
    exact ⟨w, rfl, by simp [h]⟩
  · split
    · rename_i h
      obtain ⟨e, he, hlist⟩ := BitList.exists_withCapacity (Nat.zero_le historicalRootsLimit)
      exact ⟨e, by simp [he], by simp [hlist, List.drop_eq_nil_of_le h]⟩
    · rename_i h
      simp only [VariableList.len, Nat.not_le] at h
      have hn : w.toList.length - d ≤ historicalRootsLimit := by omega
      obtain ⟨e, he, hlist⟩ := BitList.exists_withCapacity hn
      have hmoved : (List.range (w.toList.length - d)).map (fun i ↦ (w.get (i + d)).getD false) =
          w.toList.drop d := by
        refine List.ext_getElem (by simp) fun i hi _ ↦ ?_
        simp only [List.length_map, List.length_range] at hi
        have hd : i + d < w.toList.length := by omega
        simp [VariableList.get, hd, Nat.add_comm d i]
      have hraise : raise (w.toList.drop d) e.toList = some (w.toList.drop d) := by
        rw [hlist, raise_eq_some (by simp), orBits_replicate (by simp)]
      obtain ⟨w', hw', hdrop⟩ := VariableList.exists_new (N := historicalRootsLimit)
        (show (w.toList.drop d).length ≤ historicalRootsLimit by simp; omega)
      refine ⟨w', ?_, hdrop⟩
      simp only [VariableList.len, he, Exec.unwrap_some, Exec.ok_bind, hmoved, hraise, hw']

theorem isSlotJustified_drop {w w' : JustifiedSlots} {f f' t : ℕ} (hf : f ≤ f') (ht : f' < t)
    (hw : w'.toList = w.toList.drop (f' - f)) :
    isSlotJustified w' f' t = isSlotJustified w f t := by
  rw [isSlotJustified_of_lt ht, isSlotJustified_of_lt (by omega), hw]
  have h : f' - f + (t - f' - 1) = t - f - 1 := by omega
  simp [List.getD_eq_getElem?_getD, h]

section Represents

/-- The slots for which a window and its boundary stand. -/
def justifiedSet (w : JustifiedSlots) (f : ℕ) : Set ℕ := {t | isSlotJustified w f t = true}

/-- The slot is finalized, or its index is in the window. -/
def Addressable (w : JustifiedSlots) (f t : ℕ) : Prop :=
  ∀ i, relativeIndex t f = some i → i < w.len

theorem addressable_iff {w : JustifiedSlots} {f t : ℕ} :
    Addressable w f t ↔ t ≤ f + w.toList.length := by
  unfold Addressable VariableList.len
  rcases Nat.lt_or_ge f t with hf | hf
  · rw [relativeIndex_of_lt hf]
    constructor
    · intro h
      have hindex := h _ rfl
      omega
    · intro h i hi
      obtain rfl := Option.some.inj hi
      omega
  · rw [relativeIndex_of_le hf]
    exact iff_of_true nofun (by omega)

theorem extendToSlot_represents {w : JustifiedSlots} {f t : ℕ}
    (hlimit : t - f ≤ historicalRootsLimit) :
    ∃ w', (extendToSlot w f t : Exec ε JustifiedSlots) = .ok w' ∧
      justifiedSet w' f = justifiedSet w f ∧ ∀ u ≤ t, Addressable w' f u := by
  obtain ⟨w', hw'⟩ : ∃ w', (extendToSlot w f t : Exec ε JustifiedSlots) = .ok w' := by
    rcases Nat.le_total w.toList.length (t - f) with hshort | hlong
    · obtain ⟨w', hw', -⟩ := extendToSlot_eq_ok hshort hlimit
      exact ⟨w', hw'⟩
    · refine ⟨w, ?_⟩
      unfold extendToSlot
      rcases Nat.lt_or_ge f t with hf | hf
      · rw [relativeIndex_of_lt hf]
        dsimp only
        rw [if_pos (by rw [VariableList.len]; omega)]
        rfl
      · rw [relativeIndex_of_le hf]
  obtain ⟨hreach, hsame⟩ := extendToSlot_spec hw'
  refine ⟨w', hw', ?_, fun u hu ↦ addressable_iff.mpr (hu.trans hreach)⟩
  ext u
  rw [justifiedSet, Set.mem_ofPred_eq, hsame]
  rfl

theorem setJustified_represents {w : JustifiedSlots} {f t : ℕ} (h : Addressable w f t) :
    ∃ w', (setJustified w f t : Exec ε JustifiedSlots) = .ok w' ∧
      justifiedSet w' f = justifiedSet w f ∪ {t} := by
  rw [addressable_iff] at h
  rcases Nat.lt_or_ge f t with hf | hf
  · obtain ⟨w', hw', -, hbits⟩ := setJustified_eq_ok (ε := ε) (w := w) hf (by omega)
    refine ⟨w', hw', ?_⟩
    ext u
    simp only [justifiedSet, Set.mem_ofPred_eq, hbits, Bool.or_eq_true, decide_eq_true_eq,
      Set.mem_union, Set.mem_singleton_iff]
    exact or_comm
  · refine ⟨w, by rw [setJustified, relativeIndex_of_le hf], ?_⟩
    have hmem : t ∈ justifiedSet w f := isSlotJustified_of_le hf
    rw [Set.union_eq_self_of_subset_right (Set.singleton_subset_iff.mpr hmem)]

theorem shiftWindow_represents (w : JustifiedSlots) {f f' : ℕ} (hf : f ≤ f') :
    ∃ w', (shiftWindow w (f' - f) : Exec ε JustifiedSlots) = .ok w' ∧
      justifiedSet w' f' = justifiedSet w f ∪ {u | u ≤ f'} := by
  obtain ⟨w', hw', hdrop⟩ := shiftWindow_eq_ok (ε := ε) w (f' - f)
  refine ⟨w', hw', ?_⟩
  ext u
  simp only [justifiedSet, Set.mem_ofPred_eq, Set.mem_union]
  rcases Nat.lt_or_ge f' u with hu | hu
  · rw [isSlotJustified_drop hf hu hdrop]
    exact ⟨.inl, fun h ↦ h.resolve_right (Nat.not_le.mpr hu)⟩
  · exact iff_of_true (isSlotJustified_of_le hu) (.inr hu)

/-- The window and its boundary stand for a set of slots. Extending leaves it alone and reaches the
target, setting adds one slot, and shifting adds the slots up to the new boundary. -/
theorem window_represents_slots (w : JustifiedSlots) (f : ℕ) :
    (∀ t, t - f ≤ historicalRootsLimit →
      ∃ w', (extendToSlot w f t : Exec ε JustifiedSlots) = .ok w' ∧
        justifiedSet w' f = justifiedSet w f ∧ ∀ u ≤ t, Addressable w' f u) ∧
    (∀ t, Addressable w f t →
      ∃ w', (setJustified w f t : Exec ε JustifiedSlots) = .ok w' ∧
        justifiedSet w' f = justifiedSet w f ∪ {t}) ∧
    ∀ f', f ≤ f' →
      ∃ w', (shiftWindow w (f' - f) : Exec ε JustifiedSlots) = .ok w' ∧
        justifiedSet w' f' = justifiedSet w f ∪ {u | u ≤ f'} :=
  ⟨fun _ ht ↦ extendToSlot_represents ht, fun _ ht ↦ setJustified_represents ht,
    fun _ hf' ↦ shiftWindow_represents w hf'⟩

/-- Slot 5 is justified after slot 3. The window grows to slot 8, slot 4 is added, and the boundary
moves past the whole window. -/
theorem window_represents_slots_sample :
    let w : JustifiedSlots := ⟨[false, true], by decide⟩
    (∃ w', (extendToSlot w 3 8 : Exec Empty JustifiedSlots) = .ok w' ∧
      justifiedSet w' 3 = justifiedSet w 3 ∧ ∀ u ≤ 8, Addressable w' 3 u) ∧
    (∃ w', (setJustified w 3 4 : Exec Empty JustifiedSlots) = .ok w' ∧
      justifiedSet w' 3 = justifiedSet w 3 ∪ {4}) ∧
    ∃ w', (shiftWindow w (10 - 3) : Exec Empty JustifiedSlots) = .ok w' ∧
      justifiedSet w' 10 = justifiedSet w 3 ∪ {u | u ≤ 10} := by
  intro w
  obtain ⟨hextend, hset, hshift⟩ := window_represents_slots (ε := Empty) w 3
  exact ⟨hextend 8 (by decide), hset 4 (addressable_iff.mpr (by decide)), hshift 10 (by decide)⟩

end Represents

end Ethlambda.StateTransition
