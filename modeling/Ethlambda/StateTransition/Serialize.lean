import Ethlambda.StateTransition.Tally

namespace Ethlambda.StateTransition

open Ethlambda.Base Ethlambda.Types

set_option linter.unusedSectionVars false

variable {H : Type} [LinearOrder H] [Zero H] {th : TreeHash H} {st st' : State H}
  {slots : Table H ℕ} {n : ℕ} {t t' : Tally H}

def noteSlot (st : State H) (t : Table H ℕ) (slot : ℕ) : Table H ℕ :=
  match st.historicalBlockHashes.get slot with
  | none => t
  | some root => match t.lookup root with
    | some x => t.insert root (max x slot)
    | none => t.insert root slot

theorem lookup_foldl_noteSlot {l : List ℕ} {r : H} {s : ℕ}
    (huniq : ∀ x ∈ l, st.historicalBlockHashes.toList[x]? = some r → x = s)
    (u : Table H ℕ) (hu : u.lookup r = none ∨ u.lookup r = some s) :
    (l.foldl (noteSlot st) u).lookup r =
      if ∃ x ∈ l, st.historicalBlockHashes.toList[x]? = some r then some s else u.lookup r := by
  induction l generalizing u with
  | nil => simp
  | cons x l ih =>
    rw [List.foldl_cons]
    have huniq' : ∀ y ∈ l, st.historicalBlockHashes.toList[y]? = some r → y = s :=
      fun y hy ↦ huniq y (by simp [hy])
    by_cases hx : st.historicalBlockHashes.toList[x]? = some r
    · obtain rfl : x = s := huniq x (by simp) hx
      have hnote : (noteSlot st u x).lookup r = some x := by
        unfold noteSlot VariableList.get
        rw [hx]
        rcases hu with hu | hu <;> simp [hu]
      rw [ih huniq' _ (.inr hnote), hnote, ite_self, if_pos ⟨x, List.mem_cons_self, hx⟩]
    · have hnote : (noteSlot st u x).lookup r = u.lookup r := by
        unfold noteSlot VariableList.get
        cases hroot : st.historicalBlockHashes.toList[x]? with
        | none => rfl
        | some root =>
          have hne : r ≠ root := by
            rintro rfl
            exact hx hroot
          dsimp only
          split
          · exact AList.lookup_insert_ne hne
          · exact AList.lookup_insert_ne hne
      rw [ih huniq' _ (by rw [hnote]; exact hu), hnote]
      simp [hx]

theorem Aligned.rootToSlot (hth : th.CollisionFree) (h : Aligned th n st) :
    ∃ slots, rootToSlot st = .ok slots ∧
      ∀ r s, st.historicalBlockHashes.toList[s]? = some r → r ≠ 0 →
        st.latestFinalized.slot.toNat < s → slots.lookup r = some s := by
  have hfin := h.finalized_le
  have hbound := st.latestBlockHeader.slot.toNat_lt
  have hsmall : st.latestFinalized.slot.toNat + 1 < 2 ^ 64 := by omega
  refine ⟨(List.range' (st.latestFinalized.slot.toNat + 1) (st.historicalBlockHashes.len -
    (st.latestFinalized.slot.toNat + 1))).foldl (noteSlot st) ∅, ?_, fun r s hs hr hf ↦ ?_⟩
  · simp only [StateTransition.rootToSlot, Exec.add64, hsmall, if_true, Exec.ok_bind]
    rfl
  · have hlt := (List.getElem?_eq_some_iff.mp hs).1
    have hmem : s ∈ List.range' (st.latestFinalized.slot.toNat + 1)
        (st.historicalBlockHashes.len - (st.latestFinalized.slot.toNat + 1)) := by
      rw [List.mem_range'_1, VariableList.len]
      omega
    rw [lookup_foldl_noteSlot (s := s) (fun x _ hx ↦ h.slot_unique hth hx hs hr) _ (.inl rfl),
      if_pos ⟨s, hmem, hs⟩]

theorem lookup_loadJustifications (hroots : st.justificationsRoots.toList.Nodup) {r : H}
    {row : List Bool} :
    (loadJustifications st).lookup r = some row ↔
      ∃ i, st.justificationsRoots.toList[i]? = some r ∧
        row = (st.justificationsValidators.toList.drop (i * st.validators.len)).take
          st.validators.len := by
  unfold loadJustifications
  rw [Table.lookup_ofPairs]
  · simp only [List.mem_map, Prod.mk.injEq, Prod.exists, List.mem_zipIdx_iff_getElem?]
    constructor
    · rintro ⟨x, i, hi, rfl, rfl⟩
      exact ⟨i, hi, rfl⟩
    · rintro ⟨i, hi, rfl⟩
      exact ⟨r, i, hi, rfl, rfl⟩
  · rw [List.map_map]
    have hfst : (Prod.fst ∘ fun p : H × ℕ ↦ (p.1, (st.justificationsValidators.toList.drop
        (p.2 * st.validators.len)).take st.validators.len)) = Prod.fst := rfl
    rw [hfst, List.zipIdx_map_fst]
    exact hroots

theorem Rows.keys_length_le {m : VoteMap H} (h : Rows n st m) :
    (Table.sortedKeys m).length ≤ st.historicalBlockHashes.toList.length := by
  refine (List.subperm_of_subset (Table.sortedKeys_pairwise m).nodup fun r hr ↦ ?_).length_le
  obtain ⟨row, hrow⟩ := Table.mem_iff_lookup.mp (Table.mem_sortedKeys.mp hr)
  obtain ⟨-, s, hs, -⟩ := h.target r row hrow
  exact List.mem_of_getElem? hs

/-- Writing the votes back into the state never fails, and reading them again gives the same
votes. -/
theorem Rows.serialize {m : VoteMap H} (h : Rows n st m) (hn : st.validators.toList.length = n) :
    ∃ roots votes, serializeJustifications ⟨st, m⟩ n =
        .ok { st with justificationsRoots := roots, justificationsValidators := votes } ∧
      roots.toList = Table.sortedKeys m ∧ votes.toList.length = roots.toList.length * n ∧
      ∀ r, (loadJustifications
        { st with justificationsRoots := roots, justificationsValidators := votes }).lookup r =
          m.lookup r := by
  have hkeys := h.keys_length_le
  have hhist : _ ≤ 262144 := st.historicalBlockHashes.length_le
  have hvals : _ ≤ 4096 := st.validators.length_le
  have hcap : (Table.sortedKeys m).length * n ≤ historicalRootsLimit * validatorRegistryLimit := by
    refine Nat.mul_le_mul ?_ ?_
    · exact hkeys.trans hhist
    · rw [← hn]
      exact hvals
  obtain ⟨bits, hbits, hbl⟩ := BitList.exists_withCapacity hcap
  let row (r : H) : List Bool := (m.lookup r).getD []
  have hlookup : ∀ r ∈ Table.sortedKeys m, m.lookup r = some (row r) := by
    intro r hr
    obtain ⟨x, hx⟩ := Table.mem_iff_lookup.mp (Table.mem_sortedKeys.mp hr)
    simp [row, hx]
  have hlen : ∀ x ∈ (Table.sortedKeys m).map row, x.length = n := by
    intro x hx
    obtain ⟨r, hr, rfl⟩ := List.mem_map.mp hx
    exact h.length_eq r _ (hlookup r hr)
  have hflat : ((Table.sortedKeys m).map row).flatten.length = (Table.sortedKeys m).length * n := by
    rw [length_flatten_of_rows hlen, List.length_map]
  obtain ⟨votes, hvotes, hvl⟩ := VariableList.exists_new (hflat.trans_le hcap)
  obtain ⟨roots, hroots, hrl⟩ := VariableList.exists_new (hkeys.trans hhist)
  refine ⟨roots, votes, ?_, hrl, by rw [hvl, hrl, hflat], fun r ↦ ?_⟩
  · simp only [serializeJustifications, hbits, Exec.expect_some, Exec.ok_bind,
      mapM_lookup row hlookup, Exec.index_some]
    rw [hbl, raise_eq_some (by simp [hflat]), orBits_replicate hflat]
    simp only [Exec.expect_some, Exec.ok_bind, hvotes, hroots]
    rfl
  · apply Option.ext
    intro x
    rw [lookup_loadJustifications (by rw [hrl]; exact (Table.sortedKeys_pairwise m).nodup)]
    dsimp only
    rw [hrl, hvl, show st.validators.len = n from hn]
    constructor
    · rintro ⟨i, hi, rfl⟩
      obtain ⟨hilt, rfl⟩ := List.getElem?_eq_some_iff.mp hi
      rw [take_drop_flatten hlen (by simpa using hilt), List.getElem_map]
      exact hlookup _ (List.getElem_mem _)
    · intro hx
      have hr : r ∈ Table.sortedKeys m :=
        Table.mem_sortedKeys.mpr (Table.mem_iff_lookup.mpr ⟨x, hx⟩)
      obtain ⟨i, hi, rfl⟩ := List.getElem_of_mem hr
      refine ⟨i, List.getElem?_eq_getElem hi, ?_⟩
      rw [take_drop_flatten hlen (by simpa using hi), List.getElem_map]
      simp [row, hx]

end Ethlambda.StateTransition
