import Ethlambda.StateTransition.Representation

namespace Ethlambda.StateTransition

open Ethlambda.Base Ethlambda.Types

set_option linter.unusedSectionVars false

variable {H : Type} [LinearOrder H] [Zero H] {th : TreeHash H} {st st' : State H} {n : ℕ}
  {block : Block H}

/-- The same block with another state root. -/
def withRoot (block : Block H) (root : H) : Block H := { block with stateRoot := root }

/-- The first of the four header checks that the block fails, in the order of the code. -/
def headerVerdict (th : TreeHash H) (st : State H) (block : Block H) : Option (Error H) :=
  if block.slot ≤ st.slot then
    some (.stateSlotIsNewer block.slot st.slot)
  else match currentProposer block.slot.toNat st.validators.len with
    | none => some .noValidators
    | some expected =>
      if block.proposerIndex.toNat ≠ expected then
        some (.invalidProposer (UInt64.ofNat expected) block.proposerIndex)
      else if block.parentRoot ≠ th.header (cachedHeader th st) then
        some (.invalidParent (th.header (cachedHeader th st)) block.parentRoot)
      else if historicalRootsLimit < block.slot.toNat then
        some (.slotGapTooLarge (block.slot.toNat - st.slot.toNat - 1) st.slot.toNat
          historicalRootsLimit)
      else none

/-- A block without a verdict against it, spelled out. -/
structure WellPlaced (th : TreeHash H) (st : State H) (block : Block H) : Prop where
  slot_lt : st.slot < block.slot
  attended : 0 < st.validators.len
  proposer_eq : block.proposerIndex.toNat = block.slot.toNat % st.validators.len
  parentRoot_eq : block.parentRoot = th.header (cachedHeader th st)
  slot_le : block.slot.toNat ≤ historicalRootsLimit

theorem headerVerdict_eq_none : headerVerdict th st block = none ↔ WellPlaced th st block := by
  unfold headerVerdict currentProposer
  constructor
  · intro h
    by_cases hattended : 0 < st.validators.len
    · rw [if_pos hattended] at h
      dsimp only at h
      split_ifs at h with hslot hproposer hparent hlimit
      exact ⟨UInt64.not_le.mp hslot, hattended, not_not.mp hproposer, not_not.mp hparent,
        Nat.not_lt.mp hlimit⟩
    · rw [if_neg hattended] at h
      split_ifs at h
  · intro h
    simp [UInt64.not_le.mpr h.slot_lt, h.attended, h.proposer_eq, h.parentRoot_eq, h.slot_le]

/-- The state that the header of the block is checked against. -/
def atSlot (th : TreeHash H) (st : State H) (slot : UInt64) : State H :=
  { st with latestBlockHeader := cachedHeader th st, slot := slot }

theorem stateTransition_of_slot_lt (hslot : st.slot < block.slot) :
    stateTransition th st block = (do
      let post ← processBlock th (atSlot th st block.slot) block
      if block.stateRoot ≠ th.state post then
        Exec.fail (.stateRootMismatch block.stateRoot (th.state post))
      else
        pure post) := by
  have hslots : processSlots th st block.slot = .ok (atSlot th st block.slot) :=
    processSlots_eq_ok.mpr ⟨hslot, rfl⟩
  unfold stateTransition
  rw [hslots, Exec.ok_bind]

theorem Wellformed.stateTransition_eq_fail (h : Wellformed th n st) {e : Error H}
    (he : headerVerdict th st block = some e) :
    StateTransition.stateTransition th st block = Exec.fail e := by
  unfold headerVerdict at he
  split at he
  · rename_i hslot
    obtain rfl := Option.some.inj he
    simp only [StateTransition.stateTransition, processSlots, if_pos hslot]
    rfl
  rename_i hslot
  have hlt := UInt64.not_le.mp hslot
  rw [stateTransition_of_slot_lt hlt]
  have hheader : (cachedHeader th st).slot = st.slot := by rw [cachedHeader_slot, h.slot_eq]
  have hlen : st.historicalBlockHashes.len = st.slot.toNat := by
    rw [h.slot_eq]
    exact h.aligned.history_length
  have hnat : st.slot.toNat < block.slot.toNat := UInt64.lt_iff_toNat_lt.mp hlt
  have hbound := block.slot.toNat_lt
  suffices hfail : processBlockHeader th (atSlot th st block.slot) block = Exec.fail e by
    unfold processBlock
    rw [hfail]
    rfl
  unfold processBlockHeader
  simp only [atSlot, ne_eq, not_true, if_false, hheader, hslot]
  cases hexpected : currentProposer block.slot.toNat st.validators.len with
  | none =>
    rw [hexpected] at he
    obtain rfl := Option.some.inj he
    rfl
  | some expected =>
    rw [hexpected] at he
    dsimp only at he ⊢
    split_ifs at he with hproposer hparent hlimit
    all_goals obtain rfl := Option.some.inj he
    · simp only [hproposer, if_true, not_false_eq_true]
    · simp only [not_not.mp hproposer, hparent, not_true, if_true, if_false, not_false_eq_true]
    · -- the gap is the last check, and none of the sums before it leaves the machine word
      have h₁ : st.slot.toNat ≤ block.slot.toNat := hnat.le
      have h₂ : 1 ≤ block.slot.toNat - st.slot.toNat := by omega
      have h₃ : st.slot.toNat + 1 < 2 ^ 64 := by omega
      have h₄ : st.slot.toNat + 1 + (block.slot.toNat - st.slot.toNat - 1) < 2 ^ 64 := by omega
      have h₅ : historicalRootsLimit <
          st.slot.toNat + 1 + (block.slot.toNat - st.slot.toNat - 1) := by omega
      simp only [not_not.mp hproposer, not_not.mp hparent, not_true, if_false, hlen, Exec.sub64,
        Exec.add64, h₁, h₂, h₃, h₄, h₅, if_true, Exec.ok_bind]

theorem WellPlaced.withRoot (h : WellPlaced th st block) (root : H) :
    WellPlaced th st (withRoot block root) :=
  ⟨h.slot_lt, h.attended, h.proposer_eq, h.parentRoot_eq, h.slot_le⟩

theorem Wellformed.exists_processBlock (hth : th.CollisionFree) (h : Wellformed th n st)
    (hb : WellPlaced th st block) :
    ∃ post, processBlock th (atSlot th st block.slot) block = .ok post := by
  have hheader : (cachedHeader th st).slot = st.slot := by rw [cachedHeader_slot, h.slot_eq]
  have hlen : st.historicalBlockHashes.len = st.slot.toNat := by
    rw [h.slot_eq]
    exact h.aligned.history_length
  have hnat : st.slot.toNat < block.slot.toNat := UInt64.lt_iff_toNat_lt.mp hb.slot_lt
  have hlimit := hb.slot_le
  have haccepted : HeaderAccepted th (atSlot th st block.slot) block :=
    ⟨rfl, by rw [show (atSlot th st block.slot).latestBlockHeader.slot = st.slot from hheader]
             exact hb.slot_lt, hb.attended, hb.proposer_eq, hb.parentRoot_eq⟩
  obtain ⟨st₂, h₂⟩ : ∃ st₂, processBlockHeader th (atSlot th st block.slot) block = .ok st₂ := by
    refine exists_processBlockHeader haccepted ?_ ?_
    · rw [show (atSlot th st block.slot).latestBlockHeader.slot = st.slot from hheader,
        show (atSlot th st block.slot).historicalBlockHashes.len = st.slot.toNat from hlen]
      omega
    · omega
  obtain ⟨hstep, hload, hvals, slots, hslots, hopen⟩ :=
    h.openTally hth (processSlots_eq_ok.mpr ⟨hb.slot_lt, rfl⟩) h₂
  obtain ⟨t, ht⟩ := hopen.exists_run block.body.attestations.toList
  have hclosed := hopen.run ht
  obtain ⟨roots, votes, hser, -⟩ := hclosed.rows.serialize hclosed.aligned.validators_length
  have hzero : ¬(st₂.justificationsRoots.toList.any fun root ↦ decide (root = 0)) = true := by
    rw [hstep.roots_eq, List.any_eq_true]
    rintro ⟨r, hr, hr0⟩
    exact h.roots_ne_zero r hr (of_decide_eq_true hr0)
  refine ⟨{ t.state with justificationsRoots := roots, justificationsValidators := votes }, ?_⟩
  unfold processBlock processAttestations
  rw [h₂, Exec.ok_bind, if_neg hzero, hslots, Exec.ok_bind, hvals, ht, Exec.ok_bind]
  exact hser

/-- What a block gets as an answer is decided by its header and its state root. A failed check of
the header is reported, and otherwise exactly one state root is accepted. -/
theorem Wellformed.stateTransition_verdict (hth : th.CollisionFree) (h : Wellformed th n st) :
    (∀ e, headerVerdict th st block = some e →
      StateTransition.stateTransition th st block = Exec.fail e) ∧
    (headerVerdict th st block = none → ∃ post, ∀ root,
      StateTransition.stateTransition th st (withRoot block root) =
        if root = th.state post then .ok post
        else Exec.fail (.stateRootMismatch root (th.state post))) := by
  refine ⟨fun e he ↦ h.stateTransition_eq_fail he, fun hnone ↦ ?_⟩
  have hb := headerVerdict_eq_none.mp hnone
  obtain ⟨post, hpost⟩ := h.exists_processBlock hth hb
  refine ⟨post, fun root ↦ ?_⟩
  have hsame : processBlock th (atSlot th st (withRoot block root).slot) (withRoot block root) =
      .ok post := hpost
  rw [stateTransition_of_slot_lt (hb.withRoot root).slot_lt, hsame, Exec.ok_bind,
    show (withRoot block root).stateRoot = root from rfl]
  by_cases hroot : root = th.state post
  · simp [hroot]
  · simp [hroot]

/-- From every state that a chain reaches, a block that the header checks let through is accepted
with one state root and no other, whatever votes it carries; a block they stop gets the error of the
first check it fails. -/
theorem reachable_verdict {validators : List Validator} {time : UInt64} {g : State H}
    {blocks : List (Block H)} (hth : th.CollisionFree)
    (hg : State.fromGenesis th time validators = (.ok g : Result H (State H)))
    (hr : runChain th g blocks = .ok st) (block : Block H) :
    (∀ e, headerVerdict th st block = some e → stateTransition th st block = Exec.fail e) ∧
    (headerVerdict th st block = none → ∃ post, ∀ root,
      stateTransition th st (withRoot block root) =
        if root = th.state post then .ok post
        else Exec.fail (.stateRootMismatch root (th.state post))) := by
  obtain ⟨vs, rfl, rfl⟩ := State.fromGenesis_eq_ok hg
  exact ((wellformed_genesis th time vs).runChain hth hr).stateTransition_verdict hth

namespace Sample

def elsewhere : Block ℕ := sampleBlock sampleOrigin 9 .empty

/-- All it carries is a vote for a block that is on no chain. -/
def stray : Block ℕ := sampleBlock fourth 5
  ⟨[sampleVote ⟨[true, true, true], three_le_limit⟩ elsewhere elsewhere], one_le_limit⟩

end Sample

theorem reachable_verdict_sample :
    ∃ st, runChain sampleHash sampleGenesis Sample.chain = .ok st ∧
      stateTransition sampleHash st { Sample.stray with proposerIndex := 0 } =
        Exec.fail (.invalidProposer 2 0) ∧
      ∃ post, ∀ root, stateTransition sampleHash st (withRoot Sample.stray root) =
        if root = sampleHash.state post then .ok post
        else Exec.fail (.stateRootMismatch root (sampleHash.state post)) := by
  have hrun : (runChain sampleHash sampleGenesis Sample.chain).toOption.map (fun st ↦
      (headerVerdict sampleHash st { Sample.stray with proposerIndex := 0 },
        headerVerdict sampleHash st Sample.stray)) =
      some (some (.invalidProposer 2 0), none) := by decide +kernel
  obtain ⟨st, hst, hview⟩ := Exec.exists_ok_of_map hrun
  obtain ⟨hwrong, hright⟩ := Prod.mk.inj hview
  exact ⟨st, hst,
    (reachable_verdict sampleHash_collisionFree sampleGenesis_eq hst _).1 _ hwrong,
    (reachable_verdict sampleHash_collisionFree sampleGenesis_eq hst _).2 hright⟩

end Ethlambda.StateTransition
