import Ethlambda.Chain.Votes

namespace Ethlambda.Chain

open Ethlambda.Base Ethlambda.Types Ethlambda.Storage Ethlambda.StateTransition

set_option linter.unusedSectionVars false

variable {H : Type} [LinearOrder H] [Zero H] (host : Host H)

def verifyAttestation (validators : List Validator) (attestation : AggregatedAttestation H)
    (proof : AggregatedSignatureProof) : Chain.Result H Unit :=
  if attestation.aggregationBits ≠ proof.participants then
    Exec.fail .participantsMismatch
  else
    let validatorIds := validatorIndices attestation.aggregationBits
    if validatorIds.any fun vid ↦ decide (validators.length ≤ vid) then
      Exec.fail .invalidValidatorIndex
    else do
      let slot ← slot32 attestation.data.slot
      let publicKeys ← participantKeys host validators validatorIds
      checkAggregate host proof.proofData publicKeys (host.attestationData attestation.data) slot

/-- Check the proposer's signature. It covers the proposer's attestation and nothing else. -/
def verifyProposer (validators : List Validator) (signedBlock : SignedBlockWithAttestation H) :
    Chain.Result H Unit :=
  let block := signedBlock.message.block
  let attestation := signedBlock.message.proposerAttestation
  if attestation.validatorId ≠ block.proposerIndex then
    Exec.fail (.proposerAttestationMismatch attestation.validatorId block.proposerIndex)
  else do
    let signature ← okOr .proposerSignatureDecodingFailed
      (host.signatureFromBytes signedBlock.signature.proposerSignature.toList)
    let proposer ← okOr .invalidValidatorIndex validators[block.proposerIndex.toNat]?
    let pubkey ← okOr (.pubkeyDecodingFailed proposer.index) (host.getPubkey proposer)
    let slot ← slot32 attestation.data.slot
    if host.isValid signature pubkey slot (host.attestationData attestation.data) then
      pure ()
    else
      Exec.fail .proposerSignatureVerificationFailed

def verifyAttestations (validators : List Validator) :
    List (AggregatedAttestation H × AggregatedSignatureProof) → Chain.Result H Unit
  | [] => .ok ()
  | p :: rest => do
    verifyAttestation host validators p.1 p.2
    verifyAttestations validators rest

def provedAttestations (signedBlock : SignedBlockWithAttestation H) :
    List (AggregatedAttestation H × AggregatedSignatureProof) :=
  signedBlock.message.block.body.attestations.toList.zip
    signedBlock.signature.attestationSignatures.toList

def verifySignatures (state : State H) (signedBlock : SignedBlockWithAttestation H) :
    Chain.Result H Unit :=
  let attestations := signedBlock.message.block.body.attestations
  let signatures := signedBlock.signature.attestationSignatures
  if attestations.len ≠ signatures.len then
    Exec.fail (.attestationSignatureMismatch signatures.len attestations.len)
  else do
    verifyAttestations host state.validators.toList (provedAttestations signedBlock)
    verifyProposer host state.validators.toList signedBlock

/-- The state of a block that is not imported yet, or why there is none. -/
def postState (s : Store H) (signedBlock : SignedBlockWithAttestation H) (verify : Bool) :
    Chain.Result H (State H) := do
  let block := signedBlock.message.block
  let parentState ← okOr (.missingParentState block.parentRoot block.slot)
    (s.getState block.parentRoot)
  let _ ← (if verify then verifySignatures host parentState signedBlock else .ok ())
  let post ← Exec.mapError .stateTransitionFailed
    (stateTransition host.toTreeHash parentState block)
  pure { post with
    latestBlockHeader := { post.latestBlockHeader with stateRoot := block.stateRoot } }

/-- Take over the checkpoints of a new state that lie above the store's own. -/
def adoptCheckpoints (s : Store H) (post : State H) : Store H :=
  let justified := if s.latestJustified.slot < post.latestJustified.slot then
    some post.latestJustified else none
  let finalized := if s.latestFinalized.slot < post.latestFinalized.slot then
    some post.latestFinalized else none
  if justified.isSome || finalized.isSome then
    s.updateCheckpoints host ⟨s.head, justified, finalized⟩
  else s

def attestationDataEntries (signedBlock : SignedBlockWithAttestation H) :
    List (H × AttestationData H) :=
  (provedAttestations signedBlock).map (fun p ↦ (host.attestationData p.1.data, p.1.data)) ++
    [(host.attestationData signedBlock.message.proposerAttestation.data,
      signedBlock.message.proposerAttestation.data)]

def knownEntries (signedBlock : SignedBlockWithAttestation H) :
    List (SignatureKey H × StoredAggregatedPayload) :=
  (provedAttestations signedBlock).flatMap fun p ↦
    (validatorIndices p.1.aggregationBits).map fun vid ↦
      ((UInt64.ofNat vid, host.attestationData p.1.data), ⟨p.1.data.slot, p.2⟩)

def writeBlock (signedBlock : SignedBlockWithAttestation H) (post : State H) (s : Store H) :
    Store H :=
  let blockRoot := host.block signedBlock.message.block
  let stored := (s.insertSignedBlock host blockRoot signedBlock).insertState blockRoot post
  (stored.insertAttestationDataByRootBatch
    (attestationDataEntries host signedBlock)).insertKnownAggregatedPayloadsBatch
    (knownEntries host signedBlock)

def recordBlock (signedBlock : SignedBlockWithAttestation H) (post : State H) (s : Store H) :
    Store H := writeBlock host signedBlock post (adoptCheckpoints host s post)

/-- Keep the proposer's vote for later, after fork choice has run without it. -/
def recordProposerVote (signedBlock : SignedBlockWithAttestation H) (verify : Bool)
    (localValidatorIds : List UInt64) : Op (Store H) (StoreError H) Unit :=
  let attestation := signedBlock.message.proposerAttestation
  let dataRoot := host.attestationData attestation.data
  if !verify then do
    let participants ← Op.lift (aggregationBitsFromValidatorIndices [attestation.validatorId])
    Op.modify fun s ↦ s.insertNewAggregatedPayload (attestation.validatorId, dataRoot)
      ⟨attestation.data.slot, .empty participants⟩
  else if inOurSubnet localValidatorIds attestation.validatorId then do
    let signature ← Op.lift (okOr .signatureDecodingFailed
      (host.signatureFromBytes signedBlock.signature.proposerSignature.toList))
    Op.modify fun s ↦ s.insertGossipSignature host dataRoot attestation.data.slot
      attestation.validatorId signature
  else
    pure ()

def onBlockCore (signedBlock : SignedBlockWithAttestation H) (verify : Bool)
    (localValidatorIds : List UInt64) : Op (Store H) (StoreError H) Unit := do
  let s ← Op.get
  -- importing a block again changes nothing
  if s.hasState (host.block signedBlock.message.block) then
    pure ()
  else
    let post ← Op.lift (postState host s signedBlock verify)
    Op.modify (recordBlock host signedBlock post)
    updateHead host
    recordProposerVote host signedBlock verify localValidatorIds

def onBlock (signedBlock : SignedBlockWithAttestation H) (localValidatorIds : List UInt64) :
    Op (Store H) (StoreError H) Unit := onBlockCore host signedBlock true localValidatorIds

def onBlockWithoutVerification (signedBlock : SignedBlockWithAttestation H) :
    Op (Store H) (StoreError H) Unit := onBlockCore host signedBlock false []

end Ethlambda.Chain
