import Mathlib.Data.List.Basic
import Mathlib.Data.List.GetD
import Mathlib.Tactic

namespace Ethlambda.Base

/-- A list of at most `N` entries. -/
@[ext] structure VariableList (α : Type) (N : ℕ) where
  toList : List α
  length_le : toList.length ≤ N
deriving DecidableEq

namespace VariableList

variable {α : Type} {N : ℕ}

def new (N : ℕ) (l : List α) : Option (VariableList α N) :=
  if h : l.length ≤ N then some ⟨l, h⟩ else none

def empty : VariableList α N := ⟨[], Nat.zero_le _⟩

def len (l : VariableList α N) : ℕ := l.toList.length

def get (l : VariableList α N) (i : ℕ) : Option α := l.toList[i]?

@[simp] theorem toList_empty : (empty : VariableList α N).toList = [] := rfl

theorem new_eq_some {l : List α} {v : VariableList α N} : new N l = some v ↔ v.toList = l := by
  unfold new
  split
  · constructor
    · intro h
      rw [← Option.some.inj h]
    · intro h
      exact congrArg some (VariableList.ext h.symm)
  · rename_i hlong
    constructor
    · intro h
      exact nomatch h
    · rintro rfl
      exact absurd v.length_le hlong

theorem exists_new {l : List α} (h : l.length ≤ N) : ∃ v, new N l = some v ∧ v.toList = l :=
  ⟨⟨l, h⟩, by simp [new, h], rfl⟩

end VariableList

abbrev BitList (N : ℕ) := VariableList Bool N

def raiseAt (bits : List Bool) (mark : Bool × ℕ) : Option (List Bool) :=
  if mark.1 then (if mark.2 < bits.length then some (bits.set mark.2 true) else none) else some bits

/-- Raise every position of `bits` that `marks` raises, one index at a time. An index beyond
the end of `bits` has no result. -/
def raise (marks bits : List Bool) : Option (List Bool) := marks.zipIdx.foldlM raiseAt bits

def orBits (bits marks : List Bool) : List Bool :=
  bits.mapIdx fun i b ↦ b || marks.getD i false

@[simp] theorem length_orBits (bits marks : List Bool) : (orBits bits marks).length = bits.length := by
  simp [orBits]

theorem getD_orBits {bits marks : List Bool} {i : ℕ} (h : i < bits.length) :
    (orBits bits marks).getD i false = (bits.getD i false || marks.getD i false) := by
  simp [orBits, List.getD_eq_getElem?_getD, h]

theorem raise_zipIdx (marks bits : List Bool) (k : ℕ) (h : k + marks.length ≤ bits.length) :
    (marks.zipIdx k).foldlM raiseAt bits =
      some (bits.mapIdx fun i b ↦ b || (decide (k ≤ i) && marks.getD (i - k) false)) := by
  induction marks generalizing bits k with
  | nil =>
    simp only [List.zipIdx_nil, List.foldlM_nil, List.getD_nil, Bool.and_false, Bool.or_false]
    exact congrArg some (List.ext_getElem? fun i ↦ by simp)
  | cons m marks ih =>
    simp only [List.length_cons] at h
    have hk : k < bits.length := by omega
    have hstep : raiseAt bits (m, k) = some (if m then bits.set k true else bits) := by
      cases m <;> simp [raiseAt, hk]
    rw [List.zipIdx_cons, List.foldlM_cons, hstep]
    refine (ih _ (k + 1) (by cases m <;> simp <;> omega)).trans (congrArg some ?_)
    refine List.ext_getElem? fun i ↦ ?_
    rcases lt_trichotomy i k with hi | rfl | hi
    · have h₁ : ¬k ≤ i := by omega
      have h₂ : ¬k < i := by omega
      have h₃ : k ≠ i := by omega
      cases m <;> simp [h₁, h₂, h₃]
    · cases m <;> simp [hk]
    · obtain ⟨j, rfl⟩ : ∃ j, i = k + 1 + j := ⟨i - (k + 1), by omega⟩
      have h₁ : k + 1 + j - k = j + 1 := by omega
      have h₂ : k ≤ k + 1 + j := by omega
      have h₃ : k ≠ k + 1 + j := by omega
      cases m <;> simp [h₁, h₂, h₃, hi]

theorem raise_eq_some {marks bits : List Bool} (h : marks.length ≤ bits.length) :
    raise marks bits = some (orBits bits marks) := by
  rw [raise, raise_zipIdx marks bits 0 (by omega)]
  simp [orBits]

theorem orBits_replicate {marks : List Bool} {n : ℕ} (h : marks.length = n) :
    orBits (List.replicate n false) marks = marks := by
  subst h
  refine List.ext_getElem? fun i ↦ ?_
  rcases lt_or_ge i marks.length with hi | hi
  · simp [orBits, hi]
  · simp [orBits, hi]

theorem orBits_orBits {bits marks marks₁ marks₂ : List Bool}
    (h : ∀ i, marks.getD i false = (marks₁.getD i false || marks₂.getD i false)) :
    orBits (orBits bits marks₁) marks₂ = orBits bits marks := by
  refine List.ext_getElem (by simp) fun i hi hi' ↦ ?_
  have hi := h i
  simp only [List.getD_eq_getElem?_getD] at hi
  simp [orBits, hi, Bool.or_assoc]

/-- Rows of one length, laid end to end, are cut apart again by their offsets. -/
theorem take_drop_flatten {rows : List (List Bool)} {n i : ℕ} (h : ∀ row ∈ rows, row.length = n)
    (hi : i < rows.length) : (rows.flatten.drop (i * n)).take n = rows[i] := by
  induction rows generalizing i with
  | nil => exact absurd hi (Nat.not_lt_zero i)
  | cons row rows ih =>
    have hrow : row.length = n := h row (by simp)
    cases i with
    | zero => simp [List.take_append_of_le_length hrow.ge, List.take_of_length_le hrow.le]
    | succ i =>
      have hi' : i < rows.length := by simpa using hi
      have hoff : (i + 1) * n = row.length + i * n := by rw [hrow]; ring
      rw [List.flatten_cons, hoff, ← List.drop_drop, List.drop_left, List.getElem_cons_succ]
      exact ih (fun r hr ↦ h r (by simp [hr])) hi'

theorem length_flatten_of_rows {rows : List (List Bool)} {n : ℕ} (h : ∀ row ∈ rows, row.length = n) :
    rows.flatten.length = rows.length * n := by
  induction rows with
  | nil => simp
  | cons row rows ih =>
    rw [List.flatten_cons, List.length_append, ih fun r hr ↦ h r (by simp [hr]), h row (by simp),
      List.length_cons]
    ring

theorem mapM_lookup {α β : Type} {f : α → Option β} {l : List α} (g : α → β)
    (h : ∀ a ∈ l, f a = some (g a)) : l.mapM f = some (l.map g) := by
  induction l with
  | nil => rfl
  | cons a l ih =>
    rw [List.mapM_cons, h a (by simp), ih fun b hb ↦ h b (by simp [hb])]
    rfl

namespace BitList

variable {N : ℕ}

def withCapacity (N numBits : ℕ) : Option (BitList N) :=
  VariableList.new N (List.replicate numBits false)

def set (b : BitList N) (i : ℕ) (value : Bool) : Option (BitList N) :=
  if i < b.toList.length then some ⟨b.toList.set i value, by simpa using b.length_le⟩ else none

def union (b c : BitList N) : BitList N :=
  ⟨(List.range (max b.len c.len)).map fun i ↦ b.toList.getD i false || c.toList.getD i false, by
    have hb := b.length_le
    have hc := c.length_le
    simp [VariableList.len]
    omega⟩

theorem withCapacity_eq_some {n : ℕ} {b : BitList N} :
    withCapacity N n = some b ↔ b.toList = List.replicate n false :=
  VariableList.new_eq_some

theorem exists_withCapacity {n : ℕ} (h : n ≤ N) :
    ∃ b, withCapacity N n = some b ∧ b.toList = List.replicate n false :=
  VariableList.exists_new (by simpa using h)

theorem set_eq_some {b c : BitList N} {i : ℕ} {value : Bool} :
    b.set i value = some c ↔ i < b.toList.length ∧ c.toList = b.toList.set i value := by
  unfold set
  split
  · rename_i h
    simp only [Option.some.injEq, h, true_and]
    constructor
    · rintro rfl
      rfl
    · intro hc
      exact VariableList.ext hc.symm
  · rename_i h
    simp [h]

@[simp] theorem length_union (b c : BitList N) :
    (b.union c).toList.length = max b.toList.length c.toList.length := by
  simp [union, VariableList.len]

theorem getD_union (b c : BitList N) (i : ℕ) :
    (b.union c).toList.getD i false = (b.toList.getD i false || c.toList.getD i false) := by
  rcases lt_or_ge i (max b.toList.length c.toList.length) with h | h
  · simp [union, VariableList.len, List.getD_eq_getElem?_getD, h]
  · have hb : b.toList.length ≤ i := by omega
    have hc : c.toList.length ≤ i := by omega
    rw [List.getD_eq_default _ _ (by simpa [length_union] using h), List.getD_eq_default _ _ hb,
      List.getD_eq_default _ _ hc]
    rfl

end BitList

end Ethlambda.Base
