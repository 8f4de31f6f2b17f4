import Ethlambda.Chain.Import

namespace Ethlambda.Chain

open Ethlambda.Base Ethlambda.Types Ethlambda.Storage Ethlambda.StateTransition

set_option linter.unusedSectionVars false

variable {H : Type} [LinearOrder H] [Zero H] (host : Host H) {ε : Type}

abbrev justificationLookbackSlots : ℕ := 3

abbrev Located (H : Type) := H × BlockHeader H

def stepBack (s : Store H) (t : Located H) : Exec ε (Located H) := do
  let header ← Exec.expect "parent block exists" (s.getBlockHeader t.2.parentRoot)
  pure (t.2.parentRoot, header)

def lookBack (s : Store H) (safeTargetSlot : UInt64) : ℕ → Located H → Exec ε (Located H)
  | 0, t => .ok t
  | steps + 1, t =>
    if safeTargetSlot < t.2.slot then do
      let parent ← stepBack s t
      lookBack s safeTargetSlot steps parent
    else .ok t

/-- Walk back until the slot can be justified. A walk of more steps than there are headers meets a
header again and never ends. -/
def backToJustifiable (s : Store H) (finalizedSlot : UInt64) : ℕ → Located H → Exec ε (Located H)
  | 0, _ => Exec.panic .diverge
  | steps + 1, t =>
    if finalizedSlot < t.2.slot ∧
        slotIsJustifiableAfter t.2.slot.toNat finalizedSlot.toNat = false then do
      let parent ← stepBack s t
      backToJustifiable s finalizedSlot steps parent
    else .ok t

def getAttestationTarget (s : Store H) : Exec ε (Checkpoint H) := do
  let headHeader ← Exec.expect "head block exists" (s.getBlockHeader s.head)
  let safeTargetSlot ← s.safeTargetSlot
  let t ← lookBack s safeTargetSlot justificationLookbackSlots (s.head, headHeader)
  let t ← backToJustifiable s s.latestFinalized.slot (s.blockHeaders.keys.length + 1) t
  -- the walk may end behind the source, which would make the vote void
  if t.2.slot < s.latestJustified.slot then
    pure s.latestJustified
  else
    pure ⟨t.1, t.2.slot⟩

def produceAttestationData (s : Store H) (slot : UInt64) : Exec ε (AttestationData H) := do
  let headSlot ← s.headSlot
  let target ← getAttestationTarget s
  pure ⟨slot, ⟨s.head, headSlot⟩, target, s.latestJustified⟩

def getProposalHead (slot : UInt64) : Op (Store H) ε H := do
  let s ← Op.get
  let genesisTimeMs ← Op.lift (Exec.mul64 s.config.genesisTime.toNat 1000)
  let slotOffsetMs ← Op.lift (Exec.mul64 slot.toNat millisecondsPerSlot)
  let slotTimeMs ← Op.lift (Exec.add64 genesisTimeMs slotOffsetMs)
  let _ ← onTick host (UInt64.ofNat slotTimeMs) true false
  acceptNewAttestations host
  let s ← Op.get
  pure s.head

/-- The order in which a hash map or a table hands out its entries. -/
structure Enumeration where
  order : {α : Type} → List α → List α
  order_perm : ∀ {α : Type} (l : List α), (order l).Perm l

theorem Enumeration.mem_order (e : Enumeration) {α : Type} {l : List α} {a : α} :
    a ∈ e.order l ↔ a ∈ l :=
  (e.order_perm l).mem_iff

/-- The same host, with another order for its maps. -/
def enumerating (host : Host H) (e : Enumeration) : Host H :=
  { host with order := e.order, order_perm := e.order_perm }

/-- The maps and sets that one call of the builder makes, each with an order of its own: the groups
of each turn, the groups that proofs are selected for, and for each of these the set of validators
left, which is asked for its next element round by round. -/
structure BuilderOrders (H : Type) where
  turn : ℕ → Enumeration
  groups : Enumeration
  left : AttestationData H → ℕ → Enumeration

/-- All maps of a call in the host's order. -/
def BuilderOrders.uniform (host : Host H) : BuilderOrders H :=
  ⟨fun _ ↦ ⟨host.order, host.order_perm⟩, ⟨host.order, host.order_perm⟩,
    fun _ _ ↦ ⟨host.order, host.order_perm⟩⟩

abbrev ProofMap (H : Type) := Table (SignatureKey H) (List AggregatedSignatureProof)

def dataGroups (attestations : List (Attestation H)) : Table H (AttestationData H × List UInt64) :=
  attestations.foldl (fun groups a ↦
    let dataRoot := host.attestationData a.data
    let group := (groups.lookup dataRoot).getD (a.data, [])
    groups.insert dataRoot (group.1, group.2 ++ [a.validatorId])) ∅

def aggregateGroupBits (ids : List UInt64) : Exec ε AggregationBits := do
  let capacity ← Exec.add64 (((ids.map UInt64.toNat).max?).getD 0) 1
  let bits ← Exec.expect "validator count exceeds limit"
    (BitList.withCapacity validatorRegistryLimit capacity)
  ids.foldlM (fun bits vid ↦ Exec.expect "validator id exceeds capacity"
    (BitList.set bits vid.toNat true)) bits

/-- One aggregate for each distinct vote, in the order the groups come out of their map. -/
def aggregateAttestationsByData (attestations : List (Attestation H)) :
    Exec ε (List (AggregatedAttestation H)) :=
  (host.order (Table.pairs (dataGroups host attestations))).mapM fun group ↦ do
    let bits ← aggregateGroupBits group.2.2
    pure ⟨bits, group.2.1⟩

def applyBlock (headState : State H) (block : Block H) : Chain.Result H (State H) :=
  Exec.mapError .stateTransitionFailed (do
    let st ← processSlots host.toTreeHash headState block.slot
    processBlock host.toTreeHash st block)

def candidateBlock (slot proposerIndex : UInt64) (parentRoot : H)
    (attestations : AggregatedAttestations H) : Block H :=
  ⟨slot, proposerIndex, parentRoot, 0, ⟨attestations⟩⟩

/-- Pick the votes that the post-state would count and that have a proof, each once. -/
def newAttestations (available : List (Attestation H)) (knownBlockRoots : List H)
    (payloads : ProofMap H) (latestJustified : Checkpoint H) (keys : List (SignatureKey H)) :
    List (Attestation H) × List (SignatureKey H) :=
  available.foldl (fun acc a ↦
    let key := (a.validatorId, host.attestationData a.data)
    if a.data.head.root ∉ knownBlockRoots then acc
    else if a.data.source ≠ latestJustified then acc
    else if key ∈ acc.2 then acc
    else if (payloads.lookup key).isSome then (acc.1 ++ [a], key :: acc.2)
    else acc) ([], keys)

/-- Add votes until the post-state makes no further one eligible. Every turn but the last adds a
vote, so one turn more than there are votes is enough. -/
def includeAttestations (turn : ℕ → Enumeration) (headState : State H)
    (slot proposerIndex : UInt64) (parentRoot : H) (available : List (Attestation H))
    (knownBlockRoots : List H) (payloads : ProofMap H) :
    ℕ → List (Attestation H) → List (SignatureKey H) → Chain.Result H (List (Attestation H))
  | 0, _, _ => Exec.panic .diverge
  | turns + 1, included, keys => do
    let aggregated ← aggregateAttestationsByData (enumerating host (turn turns)) included
    let attestations ← Exec.expect "attestation count exceeds limit"
      (VariableList.new validatorRegistryLimit aggregated)
    let post ← applyBlock host headState
      (candidateBlock slot proposerIndex parentRoot attestations)
    if available = [] ∨ knownBlockRoots = [] then
      pure included
    else
      let new := newAttestations host available knownBlockRoots payloads post.latestJustified keys
      if new.1 = [] then
        pure included
      else
        includeAttestations turn headState slot proposerIndex parentRoot available knownBlockRoots
          payloads turns (included ++ new.1) new.2

def covered (remaining : List ℕ) (proof : AggregatedSignatureProof) : List ℕ :=
  proof.participantIndices.filter fun vid ↦ decide (vid ∈ remaining)

/-- Take the proof that covers most of what is left, as long as one covers any. -/
def coverRemaining (left : ℕ → Enumeration) (payloads : ProofMap H) (data : AttestationData H) :
    ℕ → List ℕ → Exec ε (List (AggregatedAttestation H × AggregatedSignatureProof))
  | 0, _ => Exec.panic .diverge
  | turns + 1, remaining => match ((left turns).order remaining).head? with
    | none => .ok []
    | some targetId =>
      match (payloads.lookup (UInt64.ofNat targetId, host.attestationData data)).bind
          (maxByKey fun p ↦ (covered remaining p).length) with
      | none => .ok []
      | some proof =>
        if covered remaining proof = [] then .ok []
        else do
          let rest ← coverRemaining left payloads data turns
            (remaining.filter fun vid ↦ decide (vid ∉ covered remaining proof))
          pure ((⟨proof.participants, data⟩, proof) :: rest)

def selectAggregatedProofs (orders : BuilderOrders H) (attestations : List (Attestation H))
    (payloads : ProofMap H) :
    Exec ε (List (AggregatedAttestation H) × List AggregatedSignatureProof) := do
  let aggregates ← aggregateAttestationsByData (enumerating host orders.groups) attestations
  let results ← aggregates.mapM fun a ↦
    let remaining := validatorIndices a.aggregationBits
    coverRemaining host (orders.left a.data) payloads a.data (remaining.length + 1) remaining
  pure results.flatten.unzip

def buildBlock (orders : BuilderOrders H) (headState : State H) (slot proposerIndex : UInt64)
    (parentRoot : H) (available : List (Attestation H)) (knownBlockRoots : List H)
    (payloads : ProofMap H) :
    Chain.Result H (Block H × State H × List AggregatedSignatureProof) := do
  let included ← includeAttestations host orders.turn headState slot proposerIndex parentRoot
    available knownBlockRoots payloads (available.length + 1) [] []
  let selected ← selectAggregatedProofs host orders included payloads
  let attestations ← Exec.expect "attestation count exceeds limit"
    (VariableList.new validatorRegistryLimit selected.1)
  let block := candidateBlock slot proposerIndex parentRoot attestations
  let post ← applyBlock host headState block
  pure ({ block with stateRoot := host.state post }, post, selected.2)

def produceBlockFrom (s : Store H) (headRoot : H) (slot validatorIndex : UInt64) :
    Chain.Result H (Block H × List AggregatedSignatureProof) := do
  let headState ← okOr (.missingParentState headRoot slot) (s.getState headRoot)
  if !isProposer validatorIndex.toNat slot.toNat headState.validators.len then
    Exec.fail (.notProposer validatorIndex slot)
  else
    let knownPayloads := host.order (Table.pairs s.knownPayloads.grouped)
    let known := s.extractLatestAttestations (knownPayloads.map Prod.fst)
    let available := (host.order (Table.pairs known)).map fun p ↦ ⟨p.1, p.2⟩
    let payloads := Table.ofPairs (knownPayloads.map fun p ↦ (p.1, p.2.map fun sp ↦ sp.proof))
    let r ← buildBlock host (.uniform host) headState slot validatorIndex headRoot available
      s.getBlockRoots payloads
    pure (r.1, r.2.2)

def produceBlockWithSignatures (slot validatorIndex : UInt64) :
    Op (Store H) (StoreError H) (Block H × List AggregatedSignatureProof) := do
  let headRoot ← getProposalHead host slot
  let s ← Op.get
  Op.lift (produceBlockFrom host s headRoot slot validatorIndex)

end Ethlambda.Chain
