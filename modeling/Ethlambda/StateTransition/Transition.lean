import Ethlambda.Base.Runs
import Ethlambda.Base.Table
import Ethlambda.StateTransition.JustifiedSlots

namespace Ethlambda.StateTransition

open Ethlambda.Base Ethlambda.Types

variable {H : Type} [LinearOrder H] [Zero H]

inductive Error (H : Type)
  | stateSlotIsNewer (targetSlot currentSlot : UInt64)
  | slotMismatch (stateSlot blockSlot : UInt64)
  | parentSlotIsNewer (parentSlot blockSlot : UInt64)
  | invalidProposer (expected found : UInt64)
  | invalidParent (expected found : H)
  | noValidators
  | stateRootMismatch (expected computed : H)
  | slotGapTooLarge (gap current max : ℕ)
  | zeroHashInJustificationRoots
deriving DecidableEq

abbrev Result (H α : Type) := Exec (Error H) α

/-- The latest header with its state root filled in, unless it already was. -/
def cachedHeader (th : TreeHash H) (st : State H) : BlockHeader H :=
  if st.latestBlockHeader.stateRoot = 0 then
    { st.latestBlockHeader with stateRoot := th.state st } else st.latestBlockHeader

/-- Jump to the target slot. The state is hashed before its slot moves. -/
def processSlots (th : TreeHash H) (st : State H) (targetSlot : UInt64) : Result H (State H) :=
  if targetSlot ≤ st.slot then
    Exec.fail (.stateSlotIsNewer targetSlot st.slot)
  else
    .ok { st with latestBlockHeader := cachedHeader th st, slot := targetSlot }

def currentProposer (slot numValidators : ℕ) : Option ℕ :=
  if 0 < numValidators then some (slot % numValidators) else none

def isProposer (validatorIndex slot numValidators : ℕ) : Bool :=
  currentProposer slot numValidators == some validatorIndex

def processBlockHeader (th : TreeHash H) (st : State H) (block : Block H) :
    Result H (State H) := do
  let parentHeader := st.latestBlockHeader
  if block.slot ≠ st.slot then
    Exec.fail (.slotMismatch st.slot block.slot)
  else if block.slot ≤ parentHeader.slot then
    Exec.fail (.parentSlotIsNewer parentHeader.slot block.slot)
  else
    match currentProposer block.slot.toNat st.validators.len with
    | none => Exec.fail .noValidators
    | some expected =>
      if block.proposerIndex.toNat ≠ expected then
        Exec.fail (.invalidProposer (UInt64.ofNat expected) block.proposerIndex)
      else
        let parentRoot := th.header parentHeader
        if block.parentRoot ≠ parentRoot then
          Exec.fail (.invalidParent parentRoot block.parentRoot)
        else
          -- the first block after genesis names the genesis root in both checkpoints
          let isGenesisParent := parentHeader.slot = 0
          let latestJustified := if isGenesisParent then
            { st.latestJustified with root := parentRoot } else st.latestJustified
          let latestFinalized := if isGenesisParent then
            { st.latestFinalized with root := parentRoot } else st.latestFinalized
          let gap ← Exec.sub64 block.slot.toNat parentHeader.slot.toNat
          let numEmptySlots ← Exec.sub64 gap 1
          let currentLen := st.historicalBlockHashes.len
          let pushed ← Exec.add64 currentLen 1
          let newTotal ← Exec.add64 pushed numEmptySlots
          if historicalRootsLimit < newTotal then
            Exec.fail (.slotGapTooLarge numEmptySlots currentLen historicalRootsLimit)
          else
            let hashes ← Exec.expect "pre-validated: total does not exceed limit"
              (VariableList.new historicalRootsLimit
                (st.historicalBlockHashes.toList ++ parentRoot :: List.replicate numEmptySlots 0))
            let lastMaterializedSlot ← Exec.sub64 block.slot.toNat 1
            let justifiedSlots ← extendToSlot st.justifiedSlots latestFinalized.slot.toNat
              lastMaterializedSlot
            pure { st with
              latestJustified := latestJustified
              latestFinalized := latestFinalized
              historicalBlockHashes := hashes
              justifiedSlots := justifiedSlots
              latestBlockHeader :=
                { slot := block.slot
                  proposerIndex := block.proposerIndex
                  parentRoot := block.parentRoot
                  -- filled in once the post-state's own root is known
                  stateRoot := 0
                  bodyRoot := th.body block.body } }

abbrev VoteMap (H : Type) := Table H (List Bool)

/-- The votes stored in the state, cut back into rows. -/
def loadJustifications (st : State H) : VoteMap H :=
  Table.ofPairs (st.justificationsRoots.toList.zipIdx.map fun p ↦
    (p.1, (st.justificationsValidators.toList.drop (p.2 * st.validators.len)).take
      st.validators.len))

/-- The greatest unfinalized slot of each root of the history. -/
def rootToSlot (st : State H) : Result H (Table H ℕ) := do
  let start ← Exec.add64 st.latestFinalized.slot.toNat 1
  pure ((List.range' start (st.historicalBlockHashes.len - start)).foldl
    (fun t slot ↦ match st.historicalBlockHashes.get slot with
      | none => t
      | some root => match t.lookup root with
        | some x => t.insert root (max x slot)
        | none => t.insert root slot) ∅)

def checkpointExists (st : State H) (checkpoint : Checkpoint H) : Bool :=
  match st.historicalBlockHashes.get checkpoint.slot.toNat with
  | some root => decide (root = checkpoint.root)
  | none => false

def isValidVote (st : State H) (source target : Checkpoint H) : Bool :=
  if !isSlotJustified st.justifiedSlots st.latestFinalized.slot.toNat source.slot.toNat then false
  else if isSlotJustified st.justifiedSlots st.latestFinalized.slot.toNat target.slot.toNat then
    false
  else if source.root = 0 ∨ target.root = 0 then false
  else if !checkpointExists st source || !checkpointExists st target then false
  else if target.slot ≤ source.slot then false
  else if !slotIsJustifiableAfter target.slot.toNat st.latestFinalized.slot.toNat then false
  else true

/-- What the attestation loop carries from one attestation to the next. -/
structure Tally (H : Type) where
  state : State H
  justifications : VoteMap H

/-- Whether some slot strictly between source and target is justifiable after `base`. -/
def justifiableBetween (base : ℕ) (source target : Checkpoint H) : Result H Bool := do
  let first ← Exec.add64 source.slot.toNat 1
  pure ((List.range' first (target.slot.toNat - first)).any fun slot ↦
    slotIsJustifiableAfter slot base)

/-- Move the finalized checkpoint to `source`, shift the window and drop the stale rows. -/
def advanceFinalized (slots : Table H ℕ) (t : Tally H) (source : Checkpoint H) :
    Result H (Tally H) := do
  let delta ← Exec.sub64 source.slot.toNat t.state.latestFinalized.slot.toNat
  let window ← shiftWindow t.state.justifiedSlots delta
  pure
    { state := { t.state with latestFinalized := source, justifiedSlots := window }
      justifications := Table.retain (fun root _ ↦ match slots.lookup root with
        | some slot => decide (source.slot.toNat < slot)
        | none => false) t.justifications }

def tryFinalize (slots : Table H ℕ) (t : Tally H) (source target : Checkpoint H) :
    Result H (Tally H) := do
  if ← justifiableBetween t.state.latestFinalized.slot.toNat source target then
    pure t
  else
    advanceFinalized slots t source

/-- The part of the loop body after the threshold is crossed, up to the finalization check. -/
def justify (t : Tally H) (target : Checkpoint H) : Result H (Tally H) := do
  let window ← setJustified t.state.justifiedSlots t.state.latestFinalized.slot.toNat
    target.slot.toNat
  pure
    { state := { t.state with latestJustified := target, justifiedSlots := window }
      justifications := t.justifications.erase target.root }

def entry (validatorCount : ℕ) (m : VoteMap H) (root : H) : List Bool :=
  (m.lookup root).getD (List.replicate validatorCount false)

def supermajority (voteCount validatorCount : ℕ) : Bool :=
  decide (2 * validatorCount ≤ 3 * voteCount)

theorem supermajority_mono {k l n : ℕ} (h : k ≤ l) (hk : supermajority k n = true) :
    supermajority l n = true := by
  rw [supermajority, decide_eq_true_eq] at hk ⊢
  omega

/-- One round of the attestation loop. A target that crosses the threshold is justified and
handed to `finish`. -/
def processAttestationWith (finish : Tally H → Checkpoint H → Checkpoint H → Result H (Tally H))
    (validatorCount : ℕ) (t : Tally H) (attestation : AggregatedAttestation H) :
    Result H (Tally H) := do
  let source := attestation.data.source
  let target := attestation.data.target
  if !isValidVote t.state source target then
    pure t
  else
    let votes := entry validatorCount t.justifications target.root
    -- the row exists from here on, also when the attestation is skipped below
    let touched := { t with justifications := t.justifications.insert target.root votes }
    if validatorCount < attestation.aggregationBits.len then
      pure touched
    else
      let votes ← Exec.index (raise attestation.aggregationBits.toList votes)
      let recorded := { t with justifications := t.justifications.insert target.root votes }
      if supermajority (votes.count true) validatorCount then
        let justified ← justify recorded target
        finish justified source target
      else
        pure recorded

def processAttestation (slots : Table H ℕ) :
    ℕ → Tally H → AggregatedAttestation H → Result H (Tally H) :=
  processAttestationWith (tryFinalize slots)

def serializeJustifications (t : Tally H) (validatorCount : ℕ) : Result H (State H) := do
  let roots := Table.sortedKeys t.justifications
  let bits ← Exec.expect "maximum validator justifications reached"
    (BitList.withCapacity (historicalRootsLimit * validatorRegistryLimit)
      (roots.length * validatorCount))
  let rows ← Exec.index (roots.mapM fun root ↦ t.justifications.lookup root)
  let bits ← Exec.expect "we just updated the capacity" (raise rows.flatten bits.toList)
  let validators ← Exec.expect "we just updated the capacity"
    (VariableList.new (historicalRootsLimit * validatorRegistryLimit) bits)
  let roots ← Exec.expect "justifications_roots limit exceeded"
    (VariableList.new historicalRootsLimit roots)
  pure { t.state with justificationsRoots := roots, justificationsValidators := validators }

def openTally (st : State H) : Tally H := ⟨st, loadJustifications st⟩

def processAttestations (st : State H) (attestations : List (AggregatedAttestation H)) :
    Result H (State H) := do
  if st.justificationsRoots.toList.any (fun root ↦ root = 0) then
    Exec.fail .zeroHashInJustificationRoots
  else
    let slots ← rootToSlot st
    let t ← Runs.run (processAttestation slots st.validators.len) (openTally st) attestations
    serializeJustifications t st.validators.len

def processBlock (th : TreeHash H) (st : State H) (block : Block H) : Result H (State H) := do
  let st ← processBlockHeader th st block
  processAttestations st block.body.attestations.toList

def stateTransition (th : TreeHash H) (st : State H) (block : Block H) : Result H (State H) := do
  let st ← processSlots th st block.slot
  let st ← processBlock th st block
  let computed := th.state st
  if block.stateRoot ≠ computed then
    Exec.fail (.stateRootMismatch block.stateRoot computed)
  else
    pure st

def runChain (th : TreeHash H) (st : State H) (blocks : List (Block H)) : Result H (State H) :=
  Runs.run (stateTransition th) st blocks

end Ethlambda.StateTransition
