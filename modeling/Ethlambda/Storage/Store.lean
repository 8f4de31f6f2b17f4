import Ethlambda.Base.Op
import Ethlambda.Base.Table
import Ethlambda.Types.Signed

namespace Ethlambda.Storage

open Ethlambda.Base Ethlambda.Types

set_option linter.unusedSectionVars false

variable {H : Type}

abbrev SignatureKey (H : Type) := UInt64 × H

abbrev blocksToKeep : ℕ := 21600

abbrev statesToKeep : ℕ := 3000

abbrev aggregatedPayloadCap : ℕ := 4096

abbrev newPayloadCap : ℕ := 512

structure StoredSignature where
  slot : UInt64
  signatureBytes : List UInt8
deriving DecidableEq

def StoredSignature.new (host : Host H) (slot : UInt64) (signature : host.Signature) :
    StoredSignature := ⟨slot, host.signatureToBytes signature⟩

def StoredSignature.toValidatorSignature (host : Host H) (s : StoredSignature) :
    Option host.Signature := host.signatureFromBytes s.signatureBytes

structure StoredAggregatedPayload where
  slot : UInt64
  proof : AggregatedSignatureProof
deriving DecidableEq

/-- A bounded queue of proofs. A full one drops its oldest entry for the next. -/
structure PayloadBuffer (H : Type) where
  entries : List (SignatureKey H × StoredAggregatedPayload)
  capacity : ℕ
deriving DecidableEq

namespace PayloadBuffer

def new (capacity : ℕ) : PayloadBuffer H := ⟨[], capacity⟩

def push (b : PayloadBuffer H) (key : SignatureKey H) (payload : StoredAggregatedPayload) :
    PayloadBuffer H :=
  let kept := if b.capacity ≤ b.entries.length then b.entries.drop 1 else b.entries
  { b with entries := kept ++ [(key, payload)] }

def pushBatch (b : PayloadBuffer H) (l : List (SignatureKey H × StoredAggregatedPayload)) :
    PayloadBuffer H := l.foldl (fun b e ↦ b.push e.1 e.2) b

section

variable [DecidableEq H]

def grouped (b : PayloadBuffer H) : Table (SignatureKey H) (List StoredAggregatedPayload) :=
  b.entries.foldl (fun t e ↦ t.insert e.1 ((t.lookup e.1).getD [] ++ [e.2])) ∅

def uniqueKeys (b : PayloadBuffer H) : List (SignatureKey H) := (b.entries.map Prod.fst).dedup

end

end PayloadBuffer

structure ForkCheckpoints (H : Type) where
  head : H
  justified : Option (Checkpoint H)
  finalized : Option (Checkpoint H)

def ForkCheckpoints.headOnly (head : H) : ForkCheckpoints H := ⟨head, none, none⟩

/-- The fork choice store: its metadata, its tables and its two proof buffers. -/
structure Store (H : Type) where
  time : UInt64
  config : ChainConfig
  head : H
  safeTarget : H
  latestJustified : Checkpoint H
  latestFinalized : Checkpoint H
  blockHeaders : Table H (BlockHeader H)
  blockBodies : Table H (BlockBody H)
  blockSignatures : Table H (BlockSignaturesWithAttestation H)
  states : Table H (State H)
  gossipSignatures : Table (SignatureKey H) StoredSignature
  attestationDataByRoot : Table H (AttestationData H)
  /-- The parent of each block that fork choice sees, under the block's slot and root. -/
  liveChain : Table (UInt64 × H) H
  newPayloads : PayloadBuffer H
  knownPayloads : PayloadBuffer H
  gossipSignaturesCount : ℕ

namespace Store

variable [LinearOrder H] [Zero H] (host : Host H) (s : Store H)

/-- The anchor state with its header's state root filled in, next to the header's own root. -/
def anchor (anchorState : State H) : State H × H :=
  let zeroed := { anchorState with
    latestBlockHeader := { anchorState.latestBlockHeader with stateRoot := 0 } }
  let header := { anchorState.latestBlockHeader with stateRoot := host.state zeroed }
  ({ anchorState with latestBlockHeader := header }, host.header header)

def initStore (anchorState : State H) (anchorBody : Option (BlockBody H)) :
    Except Panic (Store H) :=
  let originalStateRoot := anchorState.latestBlockHeader.stateRoot
  let (anchorState, anchorBlockRoot) := anchor host anchorState
  let header := anchorState.latestBlockHeader
  if originalStateRoot = 0 ∨ originalStateRoot = header.stateRoot then
    .ok
      { time := 0
        config := anchorState.config
        head := anchorBlockRoot
        safeTarget := anchorBlockRoot
        latestJustified := ⟨anchorBlockRoot, header.slot⟩
        latestFinalized := ⟨anchorBlockRoot, header.slot⟩
        blockHeaders := AList.singleton anchorBlockRoot header
        blockBodies := match anchorBody with
          | some body => AList.singleton anchorBlockRoot body
          | none => ∅
        blockSignatures := ∅
        states := AList.singleton anchorBlockRoot anchorState
        gossipSignatures := ∅
        attestationDataByRoot := ∅
        liveChain := AList.singleton (header.slot, anchorBlockRoot) header.parentRoot
        newPayloads := .new newPayloadCap
        knownPayloads := .new aggregatedPayloadCap
        gossipSignaturesCount := 0 }
  else
    .error .assertion

/-- What is stored when a node starts on an anchor: the anchor alone, and no votes. -/
def anchorStore (anchorState : State H) (anchorBody : Option (BlockBody H)) : Store H where
  time := 0
  config := anchorState.config
  head := (anchor host anchorState).2
  safeTarget := (anchor host anchorState).2
  latestJustified := ⟨(anchor host anchorState).2, anchorState.latestBlockHeader.slot⟩
  latestFinalized := ⟨(anchor host anchorState).2, anchorState.latestBlockHeader.slot⟩
  blockHeaders := AList.singleton (anchor host anchorState).2
    (anchor host anchorState).1.latestBlockHeader
  blockBodies := match anchorBody with
    | some body => AList.singleton (anchor host anchorState).2 body
    | none => ∅
  blockSignatures := ∅
  states := AList.singleton (anchor host anchorState).2 (anchor host anchorState).1
  gossipSignatures := ∅
  attestationDataByRoot := ∅
  liveChain := AList.singleton (anchorState.latestBlockHeader.slot, (anchor host anchorState).2)
    anchorState.latestBlockHeader.parentRoot
  newPayloads := .new newPayloadCap
  knownPayloads := .new aggregatedPayloadCap
  gossipSignaturesCount := 0

/-- A node starts on an anchor whose header names the root of the state or no root yet. -/
theorem initStore_eq_ok {host : Host H} {s : Store H} {anchorState : State H}
    {anchorBody : Option (BlockBody H)} : initStore host anchorState anchorBody = .ok s ↔
    (anchorState.latestBlockHeader.stateRoot = 0 ∨ anchorState.latestBlockHeader.stateRoot =
      (anchor host anchorState).1.latestBlockHeader.stateRoot) ∧
    s = anchorStore host anchorState anchorBody := by
  unfold initStore
  dsimp only
  split
  · rename_i hroot
    exact ⟨fun h ↦ ⟨hroot, (Except.ok.inj h).symm⟩, fun h ↦ congrArg Except.ok h.2.symm⟩
  · rename_i hroot
    constructor
    · intro h
      cases h
    · exact fun h ↦ absurd h.1 hroot

def fromAnchorState (anchorState : State H) : Except Panic (Store H) :=
  initStore host anchorState none

def getForkchoiceStore (anchorState : State H) (anchorBlock : Block H) : Except Panic (Store H) :=
  if { anchorState.latestBlockHeader with stateRoot := 0 } =
      { anchorBlock.header host.toTreeHash with stateRoot := 0 } then
    initStore host anchorState (some anchorBlock.body)
  else
    .error .assertion

/-- Drop the live chain entries below the finalized slot. The table is read until an entry at or
above it turns up. -/
def pruneLiveChain (finalizedSlot : UInt64) : Store H :=
  let keys := ((host.order s.liveChain.keys).takeWhile fun k ↦ decide (k.1 < finalizedSlot))
  { s with liveChain := Table.deleteBatch keys s.liveChain }

def pruneGossipSignatures (finalizedSlot : UInt64) : Store H :=
  let kept := Table.retain (fun _ sig ↦ decide (finalizedSlot < sig.slot)) s.gossipSignatures
  let pruned := s.gossipSignatures.keys.length - kept.keys.length
  { s with
    gossipSignatures := kept
    gossipSignaturesCount := s.gossipSignaturesCount - pruned }

def pruneAttestationDataByRoot (finalizedSlot : UInt64) : Store H :=
  { s with attestationDataByRoot :=
      Table.retain (fun _ data ↦ decide (finalizedSlot < data.slot)) s.attestationDataByRoot }

def setCheckpoints (c : ForkCheckpoints H) : Store H :=
  { s with
    head := c.head
    latestJustified := c.justified.getD s.latestJustified
    latestFinalized := c.finalized.getD s.latestFinalized }

def updateCheckpoints (c : ForkCheckpoints H) : Store H :=
  let updated := setCheckpoints s c
  match c.finalized with
  | some finalized =>
    if s.latestFinalized.slot < finalized.slot then
      pruneAttestationDataByRoot
        (pruneGossipSignatures (pruneLiveChain host updated finalized.slot) finalized.slot)
        finalized.slot
    else updated
  | none => updated

def rootsByAge : List H :=
  ((host.order (Table.pairs s.blockHeaders)).insertionSort
    fun a b ↦ b.2.slot.toNat ≤ a.2.slot.toNat).map Prod.fst

def expired (window : ℕ) (protectedRoots : List H) : List H :=
  if s.blockHeaders.keys.length ≤ window then []
  else ((rootsByAge host s).drop window).filter fun root ↦ decide (root ∉ protectedRoots)

def pruneOldStates (protectedRoots : List H) : Store H :=
  { s with states := Table.deleteBatch (expired host s statesToKeep protectedRoots) s.states }

def pruneOldBlocks (protectedRoots : List H) : Store H :=
  let keys := expired host s blocksToKeep protectedRoots
  { s with
    blockHeaders := Table.deleteBatch keys s.blockHeaders
    blockBodies := Table.deleteBatch keys s.blockBodies
    blockSignatures := Table.deleteBatch keys s.blockSignatures }

def protectedRoots : List H := [s.latestFinalized.root, s.latestJustified.root]

def pruneOldData : Store H :=
  pruneOldBlocks host (pruneOldStates host s (protectedRoots s)) (protectedRoots s)

def getLiveChain : Table H (UInt64 × H) :=
  Table.ofPairs ((host.order (Table.pairs s.liveChain)).map fun e ↦ (e.1.2, (e.1.1, e.2)))

def getBlockRoots : List H := s.liveChain.keys.map Prod.snd

def getBlockHeader (root : H) : Option (BlockHeader H) := s.blockHeaders.lookup root

/-- Write the header, the body and the signatures. An empty body is not stored. -/
def writeSignedBlock (root : H) (signedBlock : SignedBlockWithAttestation H) : Store H :=
  let block := signedBlock.message.block
  let header := block.header host.toTreeHash
  { s with
    blockHeaders := s.blockHeaders.insert root header
    blockBodies := if header.bodyRoot ≠ host.body .default then
      s.blockBodies.insert root block.body else s.blockBodies
    blockSignatures := s.blockSignatures.insert root
      ⟨signedBlock.message.proposerAttestation, signedBlock.signature⟩ }

def insertPendingBlock (root : H) (signedBlock : SignedBlockWithAttestation H) : Store H :=
  writeSignedBlock host s root signedBlock

def insertSignedBlock (root : H) (signedBlock : SignedBlockWithAttestation H) : Store H :=
  let block := signedBlock.message.block
  { writeSignedBlock host s root signedBlock with
    liveChain := s.liveChain.insert (block.slot, root) block.parentRoot }

def getSignedBlock (root : H) : Option (SignedBlockWithAttestation H) := do
  let header ← s.blockHeaders.lookup root
  let signatures ← s.blockSignatures.lookup root
  let body ← if header.bodyRoot = host.body .default then some .default
    else s.blockBodies.lookup root
  pure (signatures.toSignedBlock (.fromHeaderAndBody header body))

def getState (root : H) : Option (State H) := s.states.lookup root

def hasState (root : H) : Bool := (s.states.lookup root).isSome

def insertState (root : H) (st : State H) : Store H := { s with states := s.states.insert root st }

def insertAttestationDataByRoot (root : H) (data : AttestationData H) : Store H :=
  { s with attestationDataByRoot := s.attestationDataByRoot.insert root data }

def insertAttestationDataByRootBatch (l : List (H × AttestationData H)) : Store H :=
  { s with attestationDataByRoot := Table.putBatch l s.attestationDataByRoot }

def getAttestationDataByRoot (root : H) : Option (AttestationData H) :=
  s.attestationDataByRoot.lookup root

/-- The stored vote of the greatest slot of each validator; the first of several wins. -/
def extractLatestAttestations (keys : List (SignatureKey H)) : Table UInt64 (AttestationData H) :=
  keys.foldl (fun result key ↦ match getAttestationDataByRoot s key.2 with
    | none => result
    | some data => match result.lookup key.1 with
      | none => result.insert key.1 data
      | some existing =>
        if existing.slot < data.slot then result.insert key.1 data else result) ∅

def extractLatestKnownAttestations : Table UInt64 (AttestationData H) :=
  extractLatestAttestations s (host.order s.knownPayloads.uniqueKeys)

def insertKnownAggregatedPayloadsBatch (l : List (SignatureKey H × StoredAggregatedPayload)) :
    Store H := { s with knownPayloads := s.knownPayloads.pushBatch l }

def insertNewAggregatedPayload (key : SignatureKey H) (payload : StoredAggregatedPayload) :
    Store H := { s with newPayloads := s.newPayloads.push key payload }

def insertNewAggregatedPayloadsBatch (l : List (SignatureKey H × StoredAggregatedPayload)) :
    Store H := { s with newPayloads := s.newPayloads.pushBatch l }

def promoteNewAggregatedPayloads : Store H :=
  { s with
    newPayloads := { s.newPayloads with entries := [] }
    knownPayloads := s.knownPayloads.pushBatch s.newPayloads.entries }

def deleteGossipSignatures (keys : List (SignatureKey H)) : Store H :=
  { s with
    gossipSignatures := Table.deleteBatch keys s.gossipSignatures
    gossipSignaturesCount := s.gossipSignaturesCount - keys.length }

def iterGossipSignatures : List (SignatureKey H × StoredSignature) :=
  host.order (Table.pairs s.gossipSignatures)

def insertGossipSignature (dataRoot : H) (slot validatorId : UInt64) (signature : host.Signature) :
    Store H :=
  let key := (validatorId, dataRoot)
  let isNew := (s.gossipSignatures.lookup key).isNone
  { s with
    gossipSignatures := s.gossipSignatures.insert key (.new host slot signature)
    gossipSignaturesCount := if isNew then s.gossipSignaturesCount + 1
      else s.gossipSignaturesCount }

variable {ε : Type}

def headSlot : Exec ε UInt64 := do
  let header ← Exec.expect "head block exists" (getBlockHeader s s.head)
  pure header.slot

def safeTargetSlot : Exec ε UInt64 := do
  let header ← Exec.expect "safe target exists" (getBlockHeader s s.safeTarget)
  pure header.slot

def headState : Exec ε (State H) :=
  Exec.expect "head state is always available" (getState s s.head)

end Store

end Ethlambda.Storage
