import Ethlambda.Types.Containers

namespace Ethlambda.Types

open Ethlambda.Base

variable {H : Type}

abbrev ByteListMiB := VariableList UInt8 1048576

abbrev XmssSignature := Vector UInt8 3112

structure AggregatedSignatureProof where
  participants : AggregationBits
  proofData : ByteListMiB
deriving DecidableEq

def AggregatedSignatureProof.empty (participants : AggregationBits) : AggregatedSignatureProof :=
  ⟨participants, .empty⟩

def AggregatedSignatureProof.participantIndices (p : AggregatedSignatureProof) : List ℕ :=
  validatorIndices p.participants

structure BlockSignatures where
  attestationSignatures : VariableList AggregatedSignatureProof validatorRegistryLimit
  proposerSignature : XmssSignature
deriving DecidableEq

structure BlockWithAttestation (H : Type) where
  block : Block H
  proposerAttestation : Attestation H
deriving DecidableEq

structure SignedBlockWithAttestation (H : Type) where
  message : BlockWithAttestation H
  signature : BlockSignatures
deriving DecidableEq

structure BlockSignaturesWithAttestation (H : Type) where
  proposerAttestation : Attestation H
  signatures : BlockSignatures
deriving DecidableEq

def BlockSignaturesWithAttestation.toSignedBlock (s : BlockSignaturesWithAttestation H)
    (block : Block H) : SignedBlockWithAttestation H :=
  ⟨⟨block, s.proposerAttestation⟩, s.signatures⟩

def Block.fromHeaderAndBody (header : BlockHeader H) (body : BlockBody H) : Block H where
  slot := header.slot
  proposerIndex := header.proposerIndex
  parentRoot := header.parentRoot
  stateRoot := header.stateRoot
  body := body

structure SignedAttestation (H : Type) where
  validatorId : UInt64
  data : AttestationData H
  signature : XmssSignature
deriving DecidableEq

structure SignedAggregatedAttestation (H : Type) where
  data : AttestationData H
  proof : AggregatedSignatureProof
deriving DecidableEq

/-- What the node takes from outside: the Merkle hashes, the signature scheme and its proofs, and
the order in which hash maps and tables hand out their entries. -/
structure Host (H : Type) extends TreeHash H where
  PublicKey : Type
  Signature : Type
  SecretKey : Type
  Aggregate : Type
  publicKeyFromBytes : ValidatorPubkeyBytes → Option PublicKey
  signatureFromBytes : List UInt8 → Option Signature
  signatureToBytes : Signature → List UInt8
  sign : SecretKey → UInt32 → H → Option Signature
  isValid : Signature → PublicKey → UInt32 → H → Bool
  aggregateFromBytes : List UInt8 → Option Aggregate
  aggregateToBytes : Aggregate → List UInt8
  xmssAggregateSignatures : List PublicKey → List Signature → H → UInt32 → Option Aggregate
  xmssVerifyAggregatedSignatures : List PublicKey → H → Aggregate → UInt32 → Bool
  order : {α : Type} → List α → List α
  order_perm : ∀ {α : Type} (l : List α), (order l).Perm l

inductive AggregationError
  | emptyInput
  | countMismatch (publicKeys signatures : ℕ)
  | aggregationFailed
  | proofTooBig (bytes : ℕ)
deriving DecidableEq

inductive VerificationError
  | deserializationFailed
  | proofError
deriving DecidableEq

namespace Host

variable (host : Host H)

def getPubkey (v : Validator) : Option host.PublicKey := host.publicKeyFromBytes v.pubkey

def aggregateSignatures (publicKeys : List host.PublicKey) (signatures : List host.Signature)
    (message : H) (slot : UInt32) : Except AggregationError ByteListMiB :=
  if publicKeys.length ≠ signatures.length then
    .error (.countMismatch publicKeys.length signatures.length)
  else if publicKeys = [] then
    .error .emptyInput
  else
    match host.xmssAggregateSignatures publicKeys signatures message slot with
    | none => .error .aggregationFailed
    | some aggregate =>
      let serialized := host.aggregateToBytes aggregate
      match VariableList.new 1048576 serialized with
      | none => .error (.proofTooBig serialized.length)
      | some bytes => .ok bytes

def verifyAggregatedSignature (proofData : ByteListMiB) (publicKeys : List host.PublicKey)
    (message : H) (slot : UInt32) : Except VerificationError Unit :=
  match host.aggregateFromBytes proofData.toList with
  | none => .error .deserializationFailed
  | some aggregate =>
    if host.xmssVerifyAggregatedSignatures publicKeys message aggregate slot then .ok ()
    else .error .proofError

theorem mem_order {α : Type} {l : List α} {a : α} : a ∈ host.order l ↔ a ∈ l :=
  (host.order_perm l).mem_iff

end Host

/-- The conversion of a slot for the signature scheme, whose slots have 32 bits. -/
def slot32 {ε : Type} (slot : UInt64) : Exec ε UInt32 :=
  Exec.expect "slot exceeds u32" (if slot.toNat < 2 ^ 32 then some slot.toUInt32 else none)

theorem slot32_of_lt {ε : Type} {slot : UInt64} (h : slot.toNat < 2 ^ 32) :
    (slot32 slot : Exec ε UInt32) = .ok slot.toUInt32 := by
  rw [slot32, if_pos h, Exec.expect_some]

theorem slot32_of_le {ε : Type} {slot : UInt64} (h : 2 ^ 32 ≤ slot.toNat) :
    (slot32 slot : Exec ε UInt32) = Exec.panic (.expect "slot exceeds u32") := by
  rw [slot32, if_neg (Nat.not_lt.mpr h)]
  rfl

end Ethlambda.Types
