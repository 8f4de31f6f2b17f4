import Ethlambda.StateTransition.Steps

namespace Ethlambda.StateTransition

open Ethlambda.Base Ethlambda.Types

set_option linter.unusedSectionVars false

variable {H : Type} [LinearOrder H] [Zero H] {th : TreeHash H} {st st' : State H}
  {slots : Table H ℕ} {n : ℕ} {t t' : Tally H} {a : AggregatedAttestation H}

def justifiedAt (st : State H) (slot : ℕ) : Bool :=
  isSlotJustified st.justifiedSlots st.latestFinalized.slot.toNat slot

theorem checkpointExists_iff {c : Checkpoint H} :
    checkpointExists st c = true ↔
      st.historicalBlockHashes.toList[c.slot.toNat]? = some c.root := by
  unfold checkpointExists VariableList.get
  cases st.historicalBlockHashes.toList[c.slot.toNat]? <;> simp

theorem isValidVote_iff {source target : Checkpoint H} :
    isValidVote st source target = true ↔
      justifiedAt st source.slot.toNat = true ∧ justifiedAt st target.slot.toNat = false ∧
      source.root ≠ 0 ∧ target.root ≠ 0 ∧
      st.historicalBlockHashes.toList[source.slot.toNat]? = some source.root ∧
      st.historicalBlockHashes.toList[target.slot.toNat]? = some target.root ∧
      source.slot.toNat < target.slot.toNat ∧
      slotIsJustifiableAfter target.slot.toNat st.latestFinalized.slot.toNat = true := by
  have hlt : ¬target.slot ≤ source.slot ↔ source.slot.toNat < target.slot.toNat := by
    rw [UInt64.not_le]
    exact UInt64.lt_iff_toNat_lt
  rw [← hlt, ← checkpointExists_iff, ← checkpointExists_iff]
  unfold isValidVote justifiedAt
  split_ifs <;> simp_all <;> grind

/-- A header whose parent is the last block below it in the history. -/
def Linked (history : List H) (h : BlockHeader H) : Prop :=
  h.slot.toNat = 0 ∨ ∃ p < h.slot.toNat, history[p]? = some h.parentRoot ∧ h.parentRoot ≠ 0 ∧
    ∀ j, p < j → j < h.slot.toNat → history[j]? = some 0

theorem getElem?_append_of_some {l m : List H} {i : ℕ} {r : H} (h : l[i]? = some r) :
    (l ++ m)[i]? = some r := by
  rw [List.getElem?_append_left (List.getElem?_eq_some_iff.mp h).1, h]

theorem Linked.append {history rest : List H} {h : BlockHeader H} (hl : Linked history h) :
    Linked (history ++ rest) h := by
  refine hl.imp id ?_
  rintro ⟨p, hp, hroot, hne, hzero⟩
  exact ⟨p, hp, getElem?_append_of_some hroot, hne,
    fun j hj hlt ↦ getElem?_append_of_some (hzero j hj hlt)⟩

/-- The history, the window and the two checkpoints agree with the latest header. -/
structure Aligned (th : TreeHash H) (n : ℕ) (st : State H) : Prop where
  history_length : st.historicalBlockHashes.toList.length = st.latestBlockHeader.slot.toNat
  validators_length : st.validators.toList.length = n
  finalized_le : st.latestFinalized.slot.toNat ≤ st.latestBlockHeader.slot.toNat - 1
  justified_le : st.latestJustified.slot.toNat ≤ st.latestBlockHeader.slot.toNat - 1
  finalized_le_justified : st.latestFinalized.slot.toNat ≤ st.latestJustified.slot.toNat
  justified_marked : justifiedAt st st.latestJustified.slot.toNat = true
  window_length : st.justifiedSlots.toList.length =
    st.latestBlockHeader.slot.toNat - 1 - st.latestFinalized.slot.toNat
  history_linked : ∀ i r, st.historicalBlockHashes.toList[i]? = some r → r ≠ 0 →
    ∃ h, h.slot.toNat = i ∧ th.header h = r ∧ Linked st.historicalBlockHashes.toList h
  header_linked : Linked st.historicalBlockHashes.toList st.latestBlockHeader
  finalized_root : 0 < st.latestBlockHeader.slot.toNat →
    st.historicalBlockHashes.toList[st.latestFinalized.slot.toNat]? = some st.latestFinalized.root
  justified_root : 0 < st.latestBlockHeader.slot.toNat →
    st.historicalBlockHashes.toList[st.latestJustified.slot.toNat]? = some st.latestJustified.root

/-- Every row has one flag for each validator and belongs to a block of the history that can
still be justified. -/
structure Rows (n : ℕ) (st : State H) (m : VoteMap H) : Prop where
  length_eq : ∀ r row, m.lookup r = some row → row.length = n
  target : ∀ r row, m.lookup r = some row → r ≠ 0 ∧
    ∃ s, st.historicalBlockHashes.toList[s]? = some r ∧ st.latestFinalized.slot.toNat < s ∧
      justifiedAt st s = false

theorem Aligned.slot_unique (hth : th.CollisionFree) (h : Aligned th n st) {i j : ℕ} {r : H}
    (hi : st.historicalBlockHashes.toList[i]? = some r)
    (hj : st.historicalBlockHashes.toList[j]? = some r) (hr : r ≠ 0) : i = j := by
  obtain ⟨hdr, rfl, hroot, -⟩ := h.history_linked i r hi hr
  obtain ⟨hdr', rfl, hroot', -⟩ := h.history_linked j r hj hr
  rw [hth.header_injective (hroot.trans hroot'.symm)]

theorem aligned_genesis (th : TreeHash H) (time : UInt64)
    (vs : VariableList Validator validatorRegistryLimit) :
    Aligned th vs.toList.length (genesisState th time vs) where
  history_length := rfl
  validators_length := rfl
  finalized_le := le_rfl
  justified_le := le_rfl
  finalized_le_justified := le_rfl
  justified_marked := isSlotJustified_of_le le_rfl
  window_length := rfl
  history_linked := fun i r h ↦ by simp [genesisState] at h
  header_linked := .inl rfl
  finalized_root := fun h ↦ absurd h (Nat.lt_irrefl 0)
  justified_root := fun h ↦ absurd h (Nat.lt_irrefl 0)

theorem Aligned.processSlots {slot : UInt64} (h : Aligned th n st)
    (hs : processSlots th st slot = .ok st') : Aligned th n st' := by
  obtain ⟨-, rfl⟩ := processSlots_eq_ok.mp hs
  constructor
  case header_linked => simpa [Linked] using h.header_linked
  case history_linked => exact h.history_linked
  case validators_length => exact h.validators_length
  case finalized_le_justified => exact h.finalized_le_justified
  case justified_marked => exact h.justified_marked
  case history_length => simpa using h.history_length
  case finalized_le => simpa using h.finalized_le
  case justified_le => simpa using h.justified_le
  case window_length => simpa using h.window_length
  case finalized_root => simpa using h.finalized_root
  case justified_root => simpa using h.justified_root

theorem appended_getElem? {l : List H} {r : H} {k i : ℕ} {x : H}
    (h : (l ++ r :: List.replicate k 0)[i]? = some x) :
    l[i]? = some x ∨ (i = l.length ∧ x = r) ∨ (l.length < i ∧ x = 0) := by
  rcases lt_trichotomy i l.length with hi | hi | hi
  · rw [List.getElem?_append_left hi] at h
    exact .inl h
  · subst hi
    rw [List.getElem?_append_right le_rfl] at h
    exact .inr (.inl ⟨rfl, by simpa [eq_comm] using h⟩)
  · obtain ⟨j, rfl⟩ : ∃ j, i = l.length + (j + 1) := ⟨i - l.length - 1, by omega⟩
    rw [List.getElem?_append_right (by omega), Nat.add_sub_cancel_left, List.getElem?_cons_succ,
      List.getElem?_replicate] at h
    split at h
    · exact .inr (.inr ⟨hi, (Option.some.inj h).symm⟩)
    · exact nomatch h

/-- What the header step leaves as it was, as the rest of block processing reads it. -/
structure HeaderStep (th : TreeHash H) (n : ℕ) (st : State H) (block : Block H) (st' : State H) :
    Prop where
  parent_lt : st.latestBlockHeader.slot.toNat < block.slot.toNat
  parentRoot_eq : block.parentRoot = th.header st.latestBlockHeader
  slot_eq : st'.slot = block.slot
  header_slot : st'.latestBlockHeader.slot = block.slot
  history_eq : st'.historicalBlockHashes.toList = st.historicalBlockHashes.toList ++
    th.header st.latestBlockHeader ::
      List.replicate (block.slot.toNat - st.latestBlockHeader.slot.toNat - 1) 0
  finalized_slot : st'.latestFinalized.slot = st.latestFinalized.slot
  finalized_eq : 0 < st.latestBlockHeader.slot.toNat → st'.latestFinalized = st.latestFinalized
  justified_slot : st'.latestJustified.slot = st.latestJustified.slot
  justifiedAt_eq : ∀ u, justifiedAt st' u = justifiedAt st u
  validators_eq : st'.validators = st.validators
  roots_eq : st'.justificationsRoots = st.justificationsRoots
  votes_eq : st'.justificationsValidators = st.justificationsValidators

theorem Aligned.processBlockHeader {block : Block H} (hth : th.CollisionFree)
    (h : Aligned th n st) (hs : processBlockHeader th st block = .ok st') :
    Aligned th n st' ∧ HeaderStep th n st block st' := by
  obtain ⟨hslot, hparent, hpos, hprop, hroot, hashes, window, hhashes, hwindow, rfl⟩ :=
    processBlockHeader_eq_ok hs
  have hlt : st.latestBlockHeader.slot.toNat < block.slot.toNat := UInt64.lt_iff_toNat_lt.mp hparent
  have hlen : hashes.toList.length = block.slot.toNat := by
    rw [hhashes, List.length_append, List.length_cons, List.length_replicate, h.history_length]
    omega
  have hfin := h.finalized_le
  have hjust := h.justified_le
  have hwl := h.window_length
  have hle := hashes.length_le
  obtain ⟨w, hw, hwlen, hwj⟩ := extendToSlot_eq_ok (ε := Error H) (w := st.justifiedSlots)
    (f := st.latestFinalized.slot.toNat) (t := block.slot.toNat - 1) (by omega) (by omega)
  obtain rfl : window = w := by
    rw [hw] at hwindow
    exact (Except.ok.inj hwindow).symm
  have hfs : (if st.latestBlockHeader.slot = 0 then
      (⟨th.header st.latestBlockHeader, st.latestFinalized.slot⟩ : Checkpoint H)
      else st.latestFinalized).slot = st.latestFinalized.slot := by
    split <;> rfl
  have hjs : (if st.latestBlockHeader.slot = 0 then
      (⟨th.header st.latestBlockHeader, st.latestJustified.slot⟩ : Checkpoint H)
      else st.latestJustified).slot = st.latestJustified.slot := by
    split <;> rfl
  have hzero : st.latestBlockHeader.slot = 0 ↔ st.latestBlockHeader.slot.toNat = 0 := by
    rw [← UInt64.toNat_inj]
    rfl
  have hp : hashes.toList[st.latestBlockHeader.slot.toNat]? =
      some (th.header st.latestBlockHeader) := by
    rw [hhashes, List.getElem?_append_right (by rw [h.history_length]), h.history_length]
    simp
  have hold {i : ℕ} {r : H} (hi : st.historicalBlockHashes.toList[i]? = some r) :
      hashes.toList[i]? = some r := by
    rw [hhashes]
    exact getElem?_append_of_some hi
  refine ⟨?_, ⟨hlt, hroot, hslot.symm, rfl, hhashes, hfs, fun hpos ↦ ?_, hjs, fun u ↦ ?_, rfl, rfl,
    rfl⟩⟩
  · constructor
    case history_length => exact hlen
    case validators_length => exact h.validators_length
    case finalized_le => rw [hfs]; dsimp only; omega
    case justified_le => rw [hjs]; dsimp only; omega
    case finalized_le_justified => rw [hfs, hjs]; exact h.finalized_le_justified
    case justified_marked =>
      unfold justifiedAt
      rw [hfs, hjs, hwj]
      exact h.justified_marked
    case window_length => rw [hfs]; exact hwlen
    case history_linked =>
      intro i r hi hr
      rw [hhashes] at hi
      rcases appended_getElem? hi with hi | ⟨rfl, rfl⟩ | ⟨-, rfl⟩
      · obtain ⟨hdr, hs, hh, hl⟩ := h.history_linked i r hi hr
        exact ⟨hdr, hs, hh, by rw [hhashes]; exact hl.append⟩
      · exact ⟨st.latestBlockHeader, h.history_length.symm, rfl, by
          rw [hhashes]; exact h.header_linked.append⟩
      · exact absurd rfl hr
    case header_linked =>
      refine .inr ⟨st.latestBlockHeader.slot.toNat, hlt, hroot ▸ hp, ?_, fun j hj hjlt ↦ ?_⟩
      · rw [hroot]
        exact hth.header_ne_zero _
      · have hj' : j < hashes.toList.length := by rw [hlen]; exact hjlt
        obtain ⟨x, hx⟩ : ∃ x, hashes.toList[j]? = some x := ⟨_, List.getElem?_eq_getElem hj'⟩
        have hx' := hx
        rw [hhashes] at hx'
        rcases appended_getElem? hx' with hi | ⟨rfl, -⟩ | ⟨-, rfl⟩
        · have hlt' := (List.getElem?_eq_some_iff.mp hi).1
          rw [h.history_length] at hlt'
          omega
        · rw [h.history_length] at hj
          omega
        · exact hx
    case finalized_root =>
      intro _
      dsimp only
      by_cases hz : st.latestBlockHeader.slot = 0
      · have hz' := hzero.mp hz
        have hf0 : st.latestFinalized.slot.toNat = st.latestBlockHeader.slot.toNat := by omega
        simpa [hz, hf0] using hp
      · have hz' := mt hzero.mpr hz
        simpa [hz] using hold (h.finalized_root (by omega))
    case justified_root =>
      intro _
      dsimp only
      by_cases hz : st.latestBlockHeader.slot = 0
      · have hz' := hzero.mp hz
        have hj0 : st.latestJustified.slot.toNat = st.latestBlockHeader.slot.toNat := by omega
        simpa [hz, hj0] using hp
      · have hz' := mt hzero.mpr hz
        simpa [hz] using hold (h.justified_root (by omega))
  · have hz : st.latestBlockHeader.slot ≠ 0 := fun hz ↦ by
      have hz' := hzero.mp hz
      omega
    dsimp only
    rw [if_neg hz]
  · unfold justifiedAt
    rw [hfs, hwj]

end Ethlambda.StateTransition
