import Ethlambda.Base.Runs
import Ethlambda.Chain.Proposal

namespace Ethlambda.Chain

open Ethlambda.Base Ethlambda.Types Ethlambda.Storage Ethlambda.StateTransition

set_option linter.unusedSectionVars false

inductive KeyManagerError
  | validatorKeyNotFound (validatorId : UInt64)
  | signingError
  | signatureConversionError
deriving DecidableEq

inductive Outgoing (H : Type)
  | attestation (a : SignedAttestation H)
  | aggregatedAttestation (a : SignedAggregatedAttestation H)
  | block (b : SignedBlockWithAttestation H)
  | fetchBlock (root : H)

/-- The actor that owns the store and sequences all updates of it. -/
structure Server {H : Type} (host : Host H) where
  store : Store H
  p2p : Bool
  keys : Table UInt64 host.SecretKey
  /-- The blocks that wait for each parent. -/
  pendingBlocks : Table H (List H)
  /-- The missing ancestor of each block that waits. -/
  pendingBlockParents : Table H H
  isAggregator : Bool
  sent : List (Outgoing H)

inductive Message (H : Type)
  | initP2P
  | tick (timestampMs : UInt64)
  | newBlock (block : SignedBlockWithAttestation H)
  | newAttestation (attestation : SignedAttestation H)
  | newAggregatedAttestation (attestation : SignedAggregatedAttestation H)

variable {H : Type} [LinearOrder H] [Zero H] {ε : Type}

namespace Server

variable (host : Host H)

def spawn (store : Store H) (keys : Table UInt64 host.SecretKey) (isAggregator : Bool) :
    Server host := ⟨store, false, keys, ∅, ∅, isAggregator, []⟩

def onStore {α : Type} (x : Op (Store H) ε α) : Op (Server host) ε α :=
  x.within Server.store fun s server ↦ { server with store := s }

def validatorIds (server : Server host) : List UInt64 := host.order server.keys.keys

def publish (messages : List (Outgoing H)) : Op (Server host) ε Unit :=
  Op.modify fun server ↦ if server.p2p then { server with sent := server.sent ++ messages }
    else server

def signAttestation (server : Server host) (validatorId : UInt64) (data : AttestationData H) :
    Except KeyManagerError XmssSignature :=
  match server.keys.lookup validatorId with
  | none => .error (.validatorKeyNotFound validatorId)
  | some key => match host.sign key data.slot.toUInt32 (host.attestationData data) with
    | none => .error .signingError
    | some signature =>
      let bytes := host.signatureToBytes signature
      if h : bytes.length = 3112 then .ok ⟨bytes.toArray, by simpa using h⟩
      else .error .signatureConversionError

def getOurProposer (server : Server host) (slot : UInt64) : Exec ε (Option UInt64) := do
  let headState ← server.store.headState
  pure ((validatorIds host server).find? fun vid ↦
    isProposer vid.toNat slot.toNat headState.validators.len)

def produceAttestations (slot : UInt64) : Op (Server host) ε Unit := do
  let server ← Op.get
  let headState ← Op.lift server.store.headState
  let data ← Op.lift (produceAttestationData server.store slot)
  let signed := (validatorIds host server).filterMap fun vid ↦
    if isProposer vid.toNat slot.toNat headState.validators.len then none
    else match signAttestation host server vid data with
      | .error _ => none
      | .ok signature => some (Outgoing.attestation ⟨vid, data, signature⟩)
  publish host signed

def processBlock (signedBlock : SignedBlockWithAttestation H) :
    Op (Server host) (StoreError H) Unit := do
  let server ← Op.get
  onStore host (Chain.onBlock host signedBlock (validatorIds host server))
  let server ← Op.get
  -- the gauge of the head slot is set from the header
  let _ ← Op.lift server.store.headSlot

def signAndProcess (slot validatorId : UInt64) (block : Block H)
    (proofs : List AggregatedSignatureProof) : Op (Server host) ε Unit := do
  let server ← Op.get
  let target ← Op.lift (getAttestationTarget server.store)
  let data : AttestationData H :=
    ⟨slot, ⟨host.block block, block.slot⟩, target, server.store.latestJustified⟩
  match signAttestation host server validatorId data with
  | .error _ => pure ()
  | .ok signature =>
    let proofs ← Op.lift (Exec.expect "attestation signatures within limit"
      (VariableList.new validatorRegistryLimit proofs))
    let signedBlock : SignedBlockWithAttestation H :=
      ⟨⟨block, ⟨validatorId, data⟩⟩, ⟨proofs, signature⟩⟩
    match ← Op.attempt (processBlock host signedBlock) with
    | .error _ => pure ()
    | .ok () => publish host [.block signedBlock]

def proposeBlock (slot validatorId : UInt64) : Op (Server host) ε Unit := do
  match ← Op.attempt (onStore host (produceBlockWithSignatures host slot validatorId)) with
  | .error _ => pure ()
  | .ok (block, proofs) => signAndProcess host slot validatorId block proofs

def tickSlot (timestampMs slot : UInt64) (interval : ℕ) : Op (Server host) ε Unit := do
  let server ← Op.get
  let proposer ← (if interval = 0 ∧ 0 < slot then Op.lift (getOurProposer host server slot)
    else pure none)
  let newAggregates ← onStore host
    (Chain.onTick host timestampMs proposer.isSome server.isAggregator)
  publish host (newAggregates.map .aggregatedAttestation)
  let _ ← (match proposer with
    | some validatorId => proposeBlock host slot validatorId
    | none => pure ())
  let _ ← (if interval = 1 then produceAttestations host slot else pure ())
  let server ← Op.get
  let _ ← Op.lift server.store.safeTargetSlot
  let _ ← Op.lift server.store.headSlot

def onTick (timestampMs : UInt64) : Op (Server host) ε Unit := do
  let server ← Op.get
  let genesisTimeMs ← Op.lift (Exec.mul64 server.store.config.genesisTime.toNat 1000)
  let sinceGenesisMs := timestampMs.toNat - genesisTimeMs
  let headState ← Op.lift server.store.headState
  if headState.validators.toList = [] then
    pure ()
  else
    tickSlot host timestampMs (UInt64.ofNat (sinceGenesisMs / millisecondsPerSlot))
      (sinceGenesisMs % millisecondsPerSlot / millisecondsPerInterval)

/-- Follow the recorded ancestors. A walk of more steps than there are records meets a root again
and never ends. -/
def missingAncestor (parents : Table H H) : ℕ → H → Exec ε H
  | 0, _ => Exec.panic .diverge
  | steps + 1, root => match parents.lookup root with
    | some ancestor => missingAncestor parents steps ancestor
    | none => .ok root

def addPending (parentRoot blockRoot : H) (server : Server host) : Server host :=
  let waiting := (server.pendingBlocks.lookup parentRoot).getD []
  { server with
    pendingBlocks := server.pendingBlocks.insert parentRoot
      (if blockRoot ∈ waiting then waiting else waiting ++ [blockRoot]) }

/-- Climb through the stored headers to the first block that is missing, or to one whose parent
has a state. A climb of more steps than there are headers never ends. -/
def climb : ℕ → H → Op (Server host) ε (List (SignedBlockWithAttestation H))
  | 0, _ => Op.lift (Exec.panic .diverge)
  | steps + 1, missingRoot => do
    let server ← Op.get
    match server.store.getBlockHeader missingRoot with
    | none =>
      publish host [.fetchBlock missingRoot]
      pure []
    | some header =>
      if server.store.hasState header.parentRoot then
        let block ← Op.lift
          (Exec.expect "header and parent state exist, so the full signed block must too"
            (server.store.getSignedBlock host missingRoot))
        pure [block]
      else
        Op.modify (addPending host header.parentRoot missingRoot)
        Op.modify fun server ↦ { server with
          pendingBlockParents := server.pendingBlockParents.insert missingRoot header.parentRoot }
        climb steps header.parentRoot

def pendBlock (signedBlock : SignedBlockWithAttestation H) :
    Op (Server host) ε (List (SignedBlockWithAttestation H)) := do
  let blockRoot := host.block signedBlock.message.block
  let parentRoot := signedBlock.message.block.parentRoot
  let server ← Op.get
  let missingRoot ← Op.lift (missingAncestor server.pendingBlockParents
    (server.pendingBlockParents.keys.length + 1) parentRoot)
  Op.modify fun server ↦ { server with
    pendingBlockParents := server.pendingBlockParents.insert blockRoot missingRoot
    store := server.store.insertPendingBlock host blockRoot signedBlock }
  Op.modify (addPending host parentRoot blockRoot)
  let server ← Op.get
  climb host (server.store.blockHeaders.keys.length + 1) missingRoot

def collectPendingChildren (parentRoot : H) :
    Op (Server host) ε (List (SignedBlockWithAttestation H)) := do
  let server ← Op.get
  match server.pendingBlocks.lookup parentRoot with
  | none => pure []
  | some children =>
    let childRoots := host.order children
    Op.modify fun server ↦ { server with
      pendingBlocks := server.pendingBlocks.erase parentRoot
      pendingBlockParents := childRoots.foldl (fun t r ↦ t.erase r) server.pendingBlockParents }
    pure (childRoots.filterMap fun root ↦ server.store.getSignedBlock host root)

/-- Process one block, or keep it as pending. The result goes to the end of the work queue. -/
def processOrPendBlock (signedBlock : SignedBlockWithAttestation H) :
    Op (Server host) ε (List (SignedBlockWithAttestation H)) := do
  let server ← Op.get
  if !server.store.hasState signedBlock.message.block.parentRoot then
    pendBlock host signedBlock
  else
    match ← Op.attempt (processBlock host signedBlock) with
    | .ok () => collectPendingChildren host (host.block signedBlock.message.block)
    | .error _ => pure []

/-- Work through the queue. A queue that is not empty after the given turns has no result yet. -/
def drainQueue : ℕ → List (SignedBlockWithAttestation H) → Op (Server host) ε Unit
  | _, [] => pure ()
  | 0, _ :: _ => Op.lift (Exec.panic .diverge)
  | turns + 1, block :: queue => do
    let more ← processOrPendBlock host block
    drainQueue turns (queue ++ more)

def onBlock (turns : ℕ) (signedBlock : SignedBlockWithAttestation H) :
    Op (Server host) ε Unit := do
  drainQueue host turns [signedBlock]
  Op.modify fun server ↦ { server with store := server.store.pruneOldData host }

def onGossipAttestation (attestation : SignedAttestation H) : Op (Server host) ε Unit := do
  let server ← Op.get
  if !server.isAggregator then
    pure ()
  else
    let _ ← Op.attempt (onStore host
      (Chain.onGossipAttestation host attestation (validatorIds host server)))

def onGossipAggregatedAttestation (attestation : SignedAggregatedAttestation H) :
    Op (Server host) ε Unit := do
  let _ ← Op.attempt (onStore host (Chain.onGossipAggregatedAttestation host attestation))

def handle (turns : ℕ) : Message H → Op (Server host) ε Unit
  | .initP2P => Op.modify fun server ↦ { server with p2p := true }
  | .tick timestampMs => onTick host timestampMs
  | .newBlock block => onBlock host turns block
  | .newAttestation attestation => onGossipAttestation host attestation
  | .newAggregatedAttestation attestation => onGossipAggregatedAttestation host attestation

/-- A message together with enough turns for the work queue it sets off. -/
structure Delivery (H : Type) where
  turns : ℕ
  message : Message H

/-- Handlers have no error of their own: what fails inside them is logged. -/
def step (server : Server host) (d : Delivery H) : Except Panic (Server host) :=
  match (handle host d.turns d.message : Op (Server host) Empty Unit) server with
  | .ok (_, server') => .ok server'
  | .error p => .error p

def run (server : Server host) (ds : List (Delivery H)) : Except Panic (Server host) :=
  Runs.run (step host) server ds

end Server

end Ethlambda.Chain
