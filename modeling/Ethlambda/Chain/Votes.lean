import Ethlambda.ForkChoice.LmdGhost
import Ethlambda.StateTransition.Transition
import Ethlambda.Storage.Store

namespace Ethlambda.Chain

open Ethlambda.Base Ethlambda.Types Ethlambda.Storage Ethlambda.ForkChoice

set_option linter.unusedSectionVars false

abbrev millisecondsPerInterval : ℕ := 800

abbrev intervalsPerSlot : ℕ := 5

abbrev millisecondsPerSlot : ℕ := millisecondsPerInterval * intervalsPerSlot

abbrev attestationCommitteeCount : ℕ := 1

inductive StoreError (H : Type)
  | missingParentState (parentRoot : H) (slot : UInt64)
  | invalidValidatorIndex
  | pubkeyDecodingFailed (validator : UInt64)
  | signatureDecodingFailed
  | signatureVerificationFailed
  | proposerSignatureDecodingFailed
  | proposerSignatureVerificationFailed
  | stateTransitionFailed (e : StateTransition.Error H)
  | unknownSourceBlock (root : H)
  | unknownTargetBlock (root : H)
  | unknownHeadBlock (root : H)
  | sourceExceedsTarget
  | headOlderThanTarget (headSlot targetSlot : UInt64)
  | sourceSlotMismatch (checkpointSlot blockSlot : UInt64)
  | targetSlotMismatch (checkpointSlot blockSlot : UInt64)
  | headSlotMismatch (checkpointSlot blockSlot : UInt64)
  | attestationTooFarInFuture (attestationSlot : UInt64) (currentSlot : ℕ)
  | attestationSignatureMismatch (signatures attestations : ℕ)
  | participantsMismatch
  | aggregateVerificationFailed (e : VerificationError)
  | missingTargetState (root : H)
  | notProposer (validatorIndex slot : UInt64)
  | proposerAttestationMismatch (attestationId proposerIndex : UInt64)
deriving DecidableEq

variable {H : Type} [LinearOrder H] [Zero H] (host : Host H) {ε : Type}

abbrev Result (H α : Type) := Exec (StoreError H) α

def okOr {α : Type} (e : ε) : Option α → Exec ε α
  | some a => .ok a
  | none => Exec.fail e

def computeSubnetId (validatorId : UInt64) : ℕ := validatorId.toNat % attestationCommitteeCount

def inOurSubnet (localValidatorIds : List UInt64) (validatorId : UInt64) : Bool :=
  localValidatorIds.any fun vid ↦ computeSubnetId vid == computeSubnetId validatorId

/-- Run fork choice from the justified block over all live blocks and the known votes. -/
def updateHead : Op (Store H) ε Unit := do
  let s ← Op.get
  let r ← Op.lift (computeLmdGhostHead host s.latestJustified.root (s.getLiveChain host)
    (s.extractLatestKnownAttestations host) 0)
  Op.modify fun s ↦ s.updateCheckpoints host (.headOnly r.1)

def acceptNewAttestations : Op (Store H) ε Unit := do
  Op.modify Store.promoteNewAggregatedPayloads
  updateHead host

/-- The votes that the safe target counts: those of both buffers. -/
def allKeys (s : Store H) : List (SignatureKey H) :=
  host.order (s.knownPayloads.uniqueKeys ++ s.newPayloads.uniqueKeys).dedup

def updateSafeTarget : Op (Store H) ε Unit := do
  let s ← Op.get
  let headState ← Op.lift (Exec.expect "head state exists" (s.getState s.head))
  let minTargetScore := (headState.validators.len * 2 + 2) / 3
  let r ← Op.lift (computeLmdGhostHead host s.latestJustified.root (s.getLiveChain host)
    (s.extractLatestAttestations (allKeys host s)) minTargetScore)
  Op.modify fun s ↦ { s with safeTarget := r.1 }

def aggregationBitsFromValidatorIndices (ids : List UInt64) : Exec ε AggregationBits :=
  match (ids.map UInt64.toNat).max? with
  | none => Exec.expect "max capacity is non-zero" (BitList.withCapacity validatorRegistryLimit 0)
  | some maxId => do
    let capacity ← Exec.add64 maxId 1
    let bits ← Exec.expect "validator count exceeds limit"
      (BitList.withCapacity validatorRegistryLimit capacity)
    ids.foldlM (fun bits vid ↦ Exec.expect "capacity support highest validator id"
      (BitList.set bits vid.toNat true)) bits

def signatureGroups (sigs : List (SignatureKey H × StoredSignature)) :
    Table H (List (UInt64 × host.Signature)) :=
  sigs.foldl (fun groups e ↦ match e.2.toValidatorSignature host with
    | some sig => groups.insert e.1.2 ((groups.lookup e.1.2).getD [] ++ [(e.1.1, sig)])
    | none => groups) ∅

def knownSigners (validators : List Validator) (group : List (UInt64 × host.Signature)) :
    List (UInt64 × host.PublicKey × host.Signature) :=
  group.filterMap fun p ↦ do
    let validator ← validators[p.1.toNat]?
    let pubkey ← host.getPubkey validator
    pure (p.1, pubkey, p.2)

structure Aggregation (H : Type) where
  newAggregates : List (SignedAggregatedAttestation H)
  payloadEntries : List (SignatureKey H × StoredAggregatedPayload)
  keysToDelete : List (SignatureKey H)

def aggregateGroup (s : Store H) (validators : List Validator) (acc : Aggregation H)
    (group : H × List (UInt64 × host.Signature)) : Exec ε (Aggregation H) :=
  match s.getAttestationDataByRoot group.1 with
  | none => .ok acc
  | some data =>
    let signers := knownSigners host validators group.2
    let ids := signers.map fun p ↦ p.1
    if ids = [] then .ok acc
    else match host.aggregateSignatures (signers.map fun p ↦ p.2.1) (signers.map fun p ↦ p.2.2)
        group.1 data.slot.toUInt32 with
      | .error _ => .ok acc
      | .ok proofData => do
        let participants ← aggregationBitsFromValidatorIndices ids
        let proof : AggregatedSignatureProof := ⟨participants, proofData⟩
        pure
          { newAggregates := acc.newAggregates ++ [⟨data, proof⟩]
            payloadEntries := acc.payloadEntries ++
              ids.map fun vid ↦ ((vid, group.1), ⟨data.slot, proof⟩)
            keysToDelete := acc.keysToDelete ++ ids.map fun vid ↦ (vid, group.1) }

def aggregateCommitteeSignatures : Op (Store H) ε (List (SignedAggregatedAttestation H)) := do
  let s ← Op.get
  let gossipSigs := s.iterGossipSignatures host
  if gossipSigs = [] then
    pure []
  else
    let headState ← Op.lift s.headState
    let groups := host.order (Table.pairs (signatureGroups host gossipSigs))
    let acc ← Op.lift (groups.foldlM (aggregateGroup host s headState.validators.toList) ⟨[], [], []⟩)
    Op.modify fun s ↦ s.insertNewAggregatedPayloadsBatch acc.payloadEntries
    Op.modify fun s ↦ s.deleteGossipSignatures acc.keysToDelete
    pure acc.newAggregates

def validateAttestationData (s : Store H) (data : AttestationData H) : Result H Unit := do
  let sourceHeader ← okOr (.unknownSourceBlock data.source.root) (s.getBlockHeader data.source.root)
  let targetHeader ← okOr (.unknownTargetBlock data.target.root) (s.getBlockHeader data.target.root)
  let headHeader ← okOr (.unknownHeadBlock data.head.root) (s.getBlockHeader data.head.root)
  if data.target.slot < data.source.slot then
    Exec.fail .sourceExceedsTarget
  else if data.head.slot < data.target.slot then
    Exec.fail (.headOlderThanTarget data.head.slot data.target.slot)
  else if sourceHeader.slot ≠ data.source.slot then
    Exec.fail (.sourceSlotMismatch data.source.slot sourceHeader.slot)
  else if targetHeader.slot ≠ data.target.slot then
    Exec.fail (.targetSlotMismatch data.target.slot targetHeader.slot)
  else if headHeader.slot ≠ data.head.slot then
    Exec.fail (.headSlotMismatch data.head.slot headHeader.slot)
  else
    let currentSlot := s.time.toNat / intervalsPerSlot
    -- one slot of clock disparity is allowed
    if currentSlot + 1 < data.slot.toNat then
      Exec.fail (.attestationTooFarInFuture data.slot currentSlot)
    else
      pure ()

/-- What a tick does in each interval of a slot. -/
def processInterval (interval : ℕ) (signalProposal isAggregator : Bool) :
    Op (Store H) ε (List (SignedAggregatedAttestation H)) :=
  match interval with
  | 0 => if signalProposal then do
      acceptNewAttestations host
      pure []
    else pure []
  | 1 => pure []
  | 2 => if isAggregator then aggregateCommitteeSignatures host else pure []
  | 3 => do
    updateSafeTarget host
    pure []
  | 4 => do
    acceptNewAttestations host
    pure []
  | _ => Op.lift (Exec.panic .assertion)

/-- Move the time forward one interval after the other. Every turn raises it by one, so there are
as many turns as intervals between the store's time and the target. -/
def tickIntervals (time : ℕ) (hasProposal isAggregator : Bool) :
    ℕ → Op (Store H) ε (List (SignedAggregatedAttestation H))
  | 0 => pure []
  | turns + 1 => do
    let s ← Op.get
    if s.time.toNat < time then
      Op.modify fun s ↦ { s with time := s.time + 1 }
      let s ← Op.get
      let new ← processInterval host (s.time.toNat % intervalsPerSlot)
        (hasProposal && s.time.toNat == time) isAggregator
      let rest ← tickIntervals time hasProposal isAggregator turns
      pure (new ++ rest)
    else
      pure []

def onTick (timestampMs : UInt64) (hasProposal isAggregator : Bool) :
    Op (Store H) ε (List (SignedAggregatedAttestation H)) := do
  let s ← Op.get
  let genesisTimeMs ← Op.lift (Exec.mul64 s.config.genesisTime.toNat 1000)
  let time := (timestampMs.toNat - genesisTimeMs) / millisecondsPerInterval
  -- more than a slot behind: jump to a slot before the target
  let _ ← (if intervalsPerSlot < time - s.time.toNat then
      Op.modify fun s ↦ { s with time := UInt64.ofNat (time - intervalsPerSlot) }
    else pure ())
  let s ← Op.get
  tickIntervals host time hasProposal isAggregator (time - s.time.toNat)

def verifyGossipAttestation (s : Store H) (signed : SignedAttestation H) :
    Result H host.Signature := do
  validateAttestationData s signed.data
  let target := signed.data.target
  let targetState ← okOr (.missingTargetState target.root) (s.getState target.root)
  if targetState.validators.len ≤ signed.validatorId.toNat then
    Exec.fail .invalidValidatorIndex
  else
    let validator ← Exec.index (targetState.validators.get signed.validatorId.toNat)
    let pubkey ← okOr (.pubkeyDecodingFailed signed.validatorId) (host.getPubkey validator)
    let slot ← slot32 signed.data.slot
    let signature ← okOr .signatureDecodingFailed (host.signatureFromBytes signed.signature.toList)
    if host.isValid signature pubkey slot (host.attestationData signed.data) then
      pure signature
    else
      Exec.fail .signatureVerificationFailed

def onGossipAttestation (signed : SignedAttestation H) (localValidatorIds : List UInt64) :
    Op (Store H) (StoreError H) Unit := do
  let s ← Op.get
  let signature ← Op.lift (verifyGossipAttestation host s signed)
  let dataRoot := host.attestationData signed.data
  Op.modify fun s ↦ s.insertAttestationDataByRoot dataRoot signed.data
  if inOurSubnet localValidatorIds signed.validatorId then
    Op.modify fun s ↦
      s.insertGossipSignature host dataRoot signed.data.slot signed.validatorId signature
  else
    pure ()

def participantKeys (validators : List Validator) (ids : List ℕ) :
    Result H (List host.PublicKey) :=
  ids.mapM fun vid ↦ do
    let validator ← Exec.index validators[vid]?
    okOr (.pubkeyDecodingFailed (UInt64.ofNat vid)) (host.getPubkey validator)

def checkAggregate (proofData : ByteListMiB) (pubkeys : List host.PublicKey) (message : H)
    (slot : UInt32) : Result H Unit :=
  match host.verifyAggregatedSignature proofData pubkeys message slot with
  | .ok () => .ok ()
  | .error e => Exec.fail (.aggregateVerificationFailed e)

def verifyGossipAggregate (s : Store H) (aggregated : SignedAggregatedAttestation H) :
    Result H Unit := do
  validateAttestationData s aggregated.data
  let target := aggregated.data.target
  let targetState ← okOr (.missingTargetState target.root) (s.getState target.root)
  let ids := aggregated.proof.participantIndices
  if ids.any fun vid ↦ decide (targetState.validators.len ≤ vid) then
    Exec.fail .invalidValidatorIndex
  else
    let pubkeys ← participantKeys host targetState.validators.toList ids
    let slot ← slot32 aggregated.data.slot
    checkAggregate host aggregated.proof.proofData pubkeys (host.attestationData aggregated.data) slot

def onGossipAggregatedAttestation (aggregated : SignedAggregatedAttestation H) :
    Op (Store H) (StoreError H) Unit := do
  let s ← Op.get
  Op.lift (verifyGossipAggregate host s aggregated)
  let dataRoot := host.attestationData aggregated.data
  Op.modify fun s ↦ s.insertAttestationDataByRoot dataRoot aggregated.data
  Op.modify fun s ↦ s.insertNewAggregatedPayloadsBatch
    (aggregated.proof.participantIndices.map fun vid ↦
      ((UInt64.ofNat vid, dataRoot), ⟨aggregated.data.slot, aggregated.proof⟩))

end Ethlambda.Chain
