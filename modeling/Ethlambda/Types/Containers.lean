import Ethlambda.Base.Bounded
import Ethlambda.Base.Exec

namespace Ethlambda.Types

open Ethlambda.Base

abbrev validatorRegistryLimit : ℕ := 4096

abbrev historicalRootsLimit : ℕ := 262144

variable {H : Type}

@[ext] structure Checkpoint (H : Type) where
  root : H
  slot : UInt64
deriving DecidableEq

structure AttestationData (H : Type) where
  slot : UInt64
  head : Checkpoint H
  target : Checkpoint H
  source : Checkpoint H
deriving DecidableEq

structure Attestation (H : Type) where
  validatorId : UInt64
  data : AttestationData H
deriving DecidableEq

abbrev AggregationBits := BitList validatorRegistryLimit

def validatorIndices (bits : AggregationBits) : List ℕ :=
  bits.toList.zipIdx.filterMap fun p ↦ if p.1 then some p.2 else none

theorem mem_validatorIndices {bits : AggregationBits} {i : ℕ} :
    i ∈ validatorIndices bits ↔ bits.toList[i]? = some true := by
  unfold validatorIndices
  rw [List.mem_filterMap]
  constructor
  · intro h
    obtain ⟨⟨bit, j⟩, hmem, heq⟩ := h
    rw [List.mem_zipIdx_iff_getElem?] at hmem
    cases bit with
    | false => exact nomatch heq
    | true => exact Option.some.inj heq ▸ hmem
  · intro h
    exact ⟨(true, i), List.mem_zipIdx_iff_getElem?.mpr h, rfl⟩

theorem validatorIndices_sublist (bits : AggregationBits) :
    (validatorIndices bits).Sublist (List.range bits.toList.length) := by
  have hsub (l : List (Bool × ℕ)) :
      (l.filterMap fun p ↦ if p.1 then some p.2 else none).Sublist (l.map Prod.snd) := by
    induction l with
    | nil => exact .slnil
    | cons p l ih =>
      obtain ⟨bit, i⟩ := p
      cases bit with
      | false => exact ih.cons i
      | true => exact ih.cons_cons i
  rw [List.range_eq_range', ← List.zipIdx_map_snd]
  exact hsub _

structure AggregatedAttestation (H : Type) where
  aggregationBits : AggregationBits
  data : AttestationData H
deriving DecidableEq

abbrev AggregatedAttestations (H : Type) :=
  VariableList (AggregatedAttestation H) validatorRegistryLimit

structure BlockBody (H : Type) where
  attestations : AggregatedAttestations H
deriving DecidableEq

def BlockBody.default : BlockBody H := ⟨.empty⟩

structure BlockHeader (H : Type) where
  slot : UInt64
  proposerIndex : UInt64
  parentRoot : H
  stateRoot : H
  bodyRoot : H
deriving DecidableEq

structure Block (H : Type) where
  slot : UInt64
  proposerIndex : UInt64
  parentRoot : H
  stateRoot : H
  body : BlockBody H
deriving DecidableEq

abbrev ValidatorPubkeyBytes := Vector UInt8 52

structure Validator where
  pubkey : ValidatorPubkeyBytes
  index : UInt64
deriving DecidableEq

structure ChainConfig where
  genesisTime : UInt64
deriving DecidableEq

abbrev JustifiedSlots := BitList historicalRootsLimit

structure State (H : Type) where
  config : ChainConfig
  slot : UInt64
  latestBlockHeader : BlockHeader H
  latestJustified : Checkpoint H
  latestFinalized : Checkpoint H
  historicalBlockHashes : VariableList H historicalRootsLimit
  justifiedSlots : JustifiedSlots
  validators : VariableList Validator validatorRegistryLimit
  justificationsRoots : VariableList H historicalRootsLimit
  justificationsValidators : BitList (historicalRootsLimit * validatorRegistryLimit)
deriving DecidableEq

/-- The Merkle hash of each container. It is the hashing library's, so it stays a parameter. -/
structure TreeHash (H : Type) where
  header : BlockHeader H → H
  body : BlockBody H → H
  block : Block H → H
  state : State H → H
  attestationData : AttestationData H → H

/-- Headers with one root are one header, and no header hashes to zero. -/
structure TreeHash.CollisionFree [Zero H] (th : TreeHash H) : Prop where
  header_injective : Function.Injective th.header
  header_ne_zero : ∀ h, th.header h ≠ 0

def Block.header (th : TreeHash H) (b : Block H) : BlockHeader H where
  slot := b.slot
  proposerIndex := b.proposerIndex
  parentRoot := b.parentRoot
  stateRoot := b.stateRoot
  bodyRoot := th.body b.body

def genesisHeader [Zero H] (th : TreeHash H) : BlockHeader H where
  slot := 0
  proposerIndex := 0
  parentRoot := 0
  stateRoot := 0
  bodyRoot := th.body .default

def genesisState [Zero H] (th : TreeHash H) (genesisTime : UInt64)
    (validators : VariableList Validator validatorRegistryLimit) : State H where
  config := ⟨genesisTime⟩
  slot := 0
  latestBlockHeader := genesisHeader th
  latestJustified := ⟨0, 0⟩
  latestFinalized := ⟨0, 0⟩
  historicalBlockHashes := .empty
  justifiedSlots := .empty
  validators := validators
  justificationsRoots := .empty
  justificationsValidators := .empty

def State.fromGenesis {ε : Type} [Zero H] (th : TreeHash H) (genesisTime : UInt64)
    (validators : List Validator) : Exec ε (State H) := do
  let validators ← Exec.unwrap (VariableList.new validatorRegistryLimit validators)
  pure (genesisState th genesisTime validators)

theorem State.fromGenesis_eq_ok {ε : Type} [Zero H] {th : TreeHash H} {genesisTime : UInt64}
    {validators : List Validator} {g : State H}
    (h : (State.fromGenesis th genesisTime validators : Exec ε (State H)) = .ok g) :
    ∃ vs, vs.toList = validators ∧ g = genesisState th genesisTime vs := by
  obtain ⟨vs, hvs, hg⟩ := Exec.bind_eq_ok.mp h
  refine ⟨vs, VariableList.new_eq_some.mp (by simpa using hvs), ?_⟩
  simpa [eq_comm] using hg

end Ethlambda.Types
