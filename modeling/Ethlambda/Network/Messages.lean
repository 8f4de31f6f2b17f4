import Ethlambda.Types.Signed

namespace Ethlambda.Network

open Ethlambda.Base Ethlambda.Types

abbrev StreamProtocol := String

def statusProtocolV1 : StreamProtocol := "/leanconsensus/req/status/1/ssz_snappy"

def blocksByRootProtocolV1 : StreamProtocol := "/leanconsensus/req/blocks_by_root/1/ssz_snappy"

theorem statusProtocolV1_ne_blocksByRoot : statusProtocolV1 ≠ blocksByRootProtocolV1 := by decide

variable {H : Type}

structure Status (H : Type) where
  finalized : Checkpoint H
  head : Checkpoint H
deriving DecidableEq

abbrev maxRequestBlocks : ℕ := 1024

abbrev maxErrorMessageLength : ℕ := 256

abbrev RequestedBlockRoots (H : Type) := VariableList H maxRequestBlocks

abbrev ErrorMessage := VariableList UInt8 maxErrorMessageLength

structure BlocksByRootRequest (H : Type) where
  roots : RequestedBlockRoots H
deriving DecidableEq

inductive Request (H : Type)
  | status (status : Status H)
  | blocksByRoot (request : BlocksByRootRequest H)
deriving DecidableEq

abbrev ResponseCode := UInt8

def ResponseCode.success : ResponseCode := 0

inductive ResponsePayload (H : Type)
  | status (status : Status H)
  | blocksByRoot (blocks : List (SignedBlockWithAttestation H))
deriving DecidableEq

inductive Response (H : Type)
  | success (payload : ResponsePayload H)
  | error (code : ResponseCode) (message : ErrorMessage)
deriving DecidableEq

/-- The protocol that a request of each kind goes out on. -/
def Request.protocol : Request H → StreamProtocol
  | .status _ => statusProtocolV1
  | .blocksByRoot _ => blocksByRootProtocolV1

/-- The protocol that a response of each kind is read on. Only the status protocol hands out the
errors of a peer. -/
def Response.protocol : Response H → StreamProtocol
  | .success (.status _) => statusProtocolV1
  | .success (.blocksByRoot _) => blocksByRootProtocolV1
  | .error _ _ => statusProtocolV1

/-- A block that carries a slot and nothing else. -/
def slotBlock (root : H) (slot : UInt64) : SignedBlockWithAttestation H where
  message := ⟨⟨slot, 0, root, root, .default⟩, 0, ⟨slot, ⟨root, 0⟩, ⟨root, 0⟩, ⟨root, 0⟩⟩⟩
  signature := ⟨.empty, Vector.replicate 3112 0⟩

end Ethlambda.Network
