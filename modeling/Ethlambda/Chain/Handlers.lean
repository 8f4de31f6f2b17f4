import Ethlambda.Chain.Pruning
import Ethlambda.Chain.Server

namespace Ethlambda.Chain.Server

open Ethlambda.Base Ethlambda.Types Ethlambda.Storage Ethlambda.StateTransition

set_option linter.unusedSectionVars false

variable {H : Type} [LinearOrder H] [Zero H] {host : Host H} {I : Store H → Prop}
  {D : SignedBlockWithAttestation H → Prop} {K : Server host → Prop} {ε : Type} {server server' : Server host}

def Holds (I : Store H → Prop) (server : Server host) : Prop := I server.store

theorem onStore_of_eq {α : Type} {x : Op (Store H) ε α} {r : Except ε α} {s : Store H}
    (h : x server.store = .ok (r, s)) : onStore host x server = .ok (r, { server with store := s }) := by
  unfold onStore Op.within
  rw [h]

/-- A property of the server that stands for `I` on its store, whatever the node sends. -/
structure Carries (I : Store H → Prop) (K : Server host → Prop) : Prop where
  store : ∀ {server}, K server → I server.store
  put : ∀ {server s}, K server → I s → K { server with store := s }
  send : ∀ {server sent}, K server → K { server with sent := sent }
  connect : ∀ {server}, K server → K { server with p2p := true }

theorem holds_carries : Carries I (Holds I : Server host → Prop) := ⟨id, fun _ h ↦ h, id, id⟩

/-- The same for a property that the records of waiting blocks mean nothing to. -/
structure CarriesWaiting (I : Store H → Prop) (K : Server host → Prop) : Prop
    extends Carries I K where
  waiting : ∀ {server} blocks parents, K server →
    K { server with pendingBlocks := blocks, pendingBlockParents := parents }

theorem holds_carriesWaiting : CarriesWaiting I (Holds I : Server host → Prop) :=
  ⟨holds_carries, fun _ _ h ↦ h⟩

/-- What it takes for a server to keep `I` while the blocks it imports are of the kind `D`. -/
structure SteadyOn (host : Host H) (D : SignedBlockWithAttestation H → Prop) (I : Store H → Prop) :
    Prop extends Calm host I where
  onBlock : ∀ {sb} ids, D sb → Op.Keeps I (Chain.onBlock host sb ids)

theorem steadyOn (hI : Steady host I) (D : SignedBlockWithAttestation H → Prop) :
    SteadyOn host D I :=
  ⟨hI.toCalm, fun ids _ ↦ onBlockCore_keeps hI _ true ids⟩

/-- The blocks that the server signs itself are of the kind `D`. -/
def Signs (K : Server host → Prop) (D : SignedBlockWithAttestation H → Prop) : Prop :=
  ∀ server vid data sig block proofs, K server → signAttestation host server vid data = .ok sig →
    D ⟨⟨block, ⟨vid, data⟩⟩, ⟨proofs, sig⟩⟩

theorem onStore_keeps (hK : Carries I K) {α : Type} {x : Op (Store H) ε α} (hx : Op.Keeps I x) :
    Op.Keeps K (onStore host x) :=
  Op.Keeps.within hK.store hK.put hx

theorem publish_keeps (hK : Carries I K) (messages : List (Outgoing H)) :
    Op.Keeps K (publish host messages : Op (Server host) ε Unit) := by
  apply Op.Keeps.modify
  intro server h
  split
  · exact hK.send h
  · exact h

theorem produceAttestations_keeps (hK : Carries I K) (slot : UInt64) :
    Op.Keeps K (produceAttestations host slot : Op (Server host) ε Unit) := by
  refine Op.Keeps.bind Op.Keeps.get fun server ↦ Op.Keeps.bind (Op.Keeps.lift _) fun st ↦ ?_
  exact Op.Keeps.bind (Op.Keeps.lift _) fun data ↦ publish_keeps hK _

theorem processBlock_keeps (hI : SteadyOn host D I) (hK : Carries I K)
    {sb : SignedBlockWithAttestation H} (hsb : D sb) : Op.Keeps K (processBlock host sb) := by
  refine Op.Keeps.bind Op.Keeps.get fun server ↦ ?_
  apply Op.Keeps.bind
  · exact onStore_keeps hK (hI.onBlock _ hsb)
  · intro _
    refine Op.Keeps.bind Op.Keeps.get fun server ↦ ?_
    exact Op.Keeps.bind (Op.Keeps.lift _) fun _ ↦ Op.Keeps.pure _

theorem signAndProcess_keeps (hI : SteadyOn host D I) (hK : Carries I K) (hsign : Signs K D)
    (slot validatorId : UInt64) (block : Block H) (proofs : List AggregatedSignatureProof) :
    Op.Keeps K
      (signAndProcess host slot validatorId block proofs : Op (Server host) ε Unit) := by
  refine Op.Keeps.get_bind fun server h ↦ Op.Keeps.bind (Op.Keeps.lift _) fun target ↦ ?_
  dsimp only
  split
  · exact Op.Keeps.pure _
  · rename_i signature hsigned
    refine Op.Keeps.bind (Op.Keeps.lift _) fun proofs ↦ ?_
    have hsb := hsign server validatorId _ signature block proofs h hsigned
    refine Op.Keeps.bind (Op.Keeps.attempt (processBlock_keeps hI hK hsb)) fun result ↦ ?_
    cases result with
    | error e => exact Op.Keeps.pure _
    | ok u => exact publish_keeps hK _

theorem proposeBlock_keeps (hI : SteadyOn host D I) (hK : Carries I K) (hsign : Signs K D)
    (slot validatorId : UInt64) :
    Op.Keeps K (proposeBlock host slot validatorId : Op (Server host) ε Unit) := by
  have hproduce := onStore_keeps hK (produceBlockWithSignatures_keeps hI.ticking slot validatorId)
  refine Op.Keeps.bind (Op.Keeps.attempt hproduce) fun result ↦ ?_
  cases result with
  | error e => exact Op.Keeps.pure _
  | ok produced => exact signAndProcess_keeps hI hK hsign slot validatorId produced.1 produced.2

theorem tickSlot_keeps (hI : SteadyOn host D I) (hK : Carries I K) (hsign : Signs K D)
    (timestampMs slot : UInt64) (interval : ℕ) :
    Op.Keeps K (tickSlot host timestampMs slot interval : Op (Server host) ε Unit) := by
  refine Op.Keeps.bind Op.Keeps.get fun server ↦ ?_
  refine Op.Keeps.bind (Op.Keeps.ite (fun _ ↦ Op.Keeps.lift _) fun _ ↦ Op.Keeps.pure _) fun proposer ↦ ?_
  refine Op.Keeps.bind (onStore_keeps hK (onTick_keeps hI.ticking _ _ _)) fun aggregates ↦ ?_
  refine Op.Keeps.bind (publish_keeps hK _) fun _ ↦ ?_
  apply Op.Keeps.bind
  · cases proposer with
    | none => exact Op.Keeps.pure _
    | some validatorId => exact proposeBlock_keeps hI hK hsign slot validatorId
  · intro _
    apply Op.Keeps.bind
    · exact Op.Keeps.ite (fun _ ↦ produceAttestations_keeps hK slot) fun _ ↦ Op.Keeps.pure _
    · intro _
      refine Op.Keeps.bind Op.Keeps.get fun server ↦ Op.Keeps.bind (Op.Keeps.lift _) fun _ ↦ ?_
      exact Op.Keeps.bind (Op.Keeps.lift _) fun _ ↦ Op.Keeps.pure _

theorem handleTick_keeps (hI : SteadyOn host D I) (hK : Carries I K) (hsign : Signs K D)
    (timestampMs : UInt64) :
    Op.Keeps K (onTick host timestampMs : Op (Server host) ε Unit) := by
  refine Op.Keeps.bind Op.Keeps.get fun server ↦ Op.Keeps.bind (Op.Keeps.lift _) fun g ↦ ?_
  refine Op.Keeps.bind (Op.Keeps.lift _) fun st ↦ ?_
  apply Op.Keeps.ite
  · exact fun _ ↦ Op.Keeps.pure _
  · exact fun _ ↦ tickSlot_keeps hI hK hsign _ _ _

theorem climb_keeps (hK : CarriesWaiting I K) (steps : ℕ) (missingRoot : H) :
    Op.Keeps K
      (climb host steps missingRoot : Op (Server host) ε (List (SignedBlockWithAttestation H))) := by
  induction steps generalizing missingRoot with
  | zero => exact Op.Keeps.lift _
  | succ steps ih =>
    refine Op.Keeps.bind Op.Keeps.get fun server ↦ ?_
    split
    · exact Op.Keeps.bind (publish_keeps hK.toCarries _) fun _ ↦ Op.Keeps.pure _
    · apply Op.Keeps.ite
      · exact fun _ ↦ Op.Keeps.bind (Op.Keeps.lift _) fun _ ↦ Op.Keeps.pure _
      · intro _
        refine Op.Keeps.bind (Op.Keeps.modify fun _ h ↦ hK.waiting _ _ h) fun _ ↦ ?_
        exact Op.Keeps.bind (Op.Keeps.modify fun _ h ↦ hK.waiting _ _ h) fun _ ↦ ih _

theorem pendBlock_keeps (hI : Steady host I) (hK : CarriesWaiting I K)
    (sb : SignedBlockWithAttestation H) :
    Op.Keeps K
      (pendBlock host sb : Op (Server host) ε (List (SignedBlockWithAttestation H))) := by
  refine Op.Keeps.bind Op.Keeps.get fun server ↦ Op.Keeps.bind (Op.Keeps.lift _) fun missing ↦ ?_
  apply Op.Keeps.bind
  · exact Op.Keeps.modify fun server h ↦
      hK.waiting server.pendingBlocks _ (hK.put h (hI.pending sb (hK.store h)))
  · intro _
    refine Op.Keeps.bind (Op.Keeps.modify fun _ h ↦ hK.waiting _ _ h) fun _ ↦ ?_
    exact Op.Keeps.bind Op.Keeps.get fun server ↦ climb_keeps hK _ missing

theorem collectPendingChildren_keeps (hK : CarriesWaiting I K) (parentRoot : H) :
    Op.Keeps K (collectPendingChildren host parentRoot :
      Op (Server host) ε (List (SignedBlockWithAttestation H))) := by
  refine Op.Keeps.bind Op.Keeps.get fun server ↦ ?_
  split
  · exact Op.Keeps.pure _
  · exact Op.Keeps.bind (Op.Keeps.modify fun _ h ↦ hK.waiting _ _ h) fun _ ↦ Op.Keeps.pure _

theorem processOrPendBlock_keeps (hI : Steady host I) (hK : CarriesWaiting I K)
    (sb : SignedBlockWithAttestation H) :
    Op.Keeps K
      (processOrPendBlock host sb : Op (Server host) ε (List (SignedBlockWithAttestation H))) := by
  refine Op.Keeps.bind Op.Keeps.get fun server ↦ ?_
  apply Op.Keeps.ite
  · exact fun _ ↦ pendBlock_keeps hI hK sb
  · intro _
    have hprocess : Op.Keeps K (processBlock host sb) :=
      processBlock_keeps (steadyOn hI fun _ ↦ True) hK.toCarries trivial
    refine Op.Keeps.bind (Op.Keeps.attempt hprocess) fun result ↦ ?_
    cases result with
    | error e => exact Op.Keeps.pure _
    | ok u => exact collectPendingChildren_keeps hK _

theorem drainQueue_keeps (hI : Steady host I) (hK : CarriesWaiting I K) (turns : ℕ)
    (queue : List (SignedBlockWithAttestation H)) :
    Op.Keeps K (drainQueue host turns queue : Op (Server host) ε Unit) := by
  induction turns generalizing queue with
  | zero =>
    cases queue with
    | nil => exact Op.Keeps.pure _
    | cons block queue => exact Op.Keeps.lift _
  | succ turns ih =>
    cases queue with
    | nil => exact Op.Keeps.pure _
    | cons block queue =>
      exact Op.Keeps.bind (processOrPendBlock_keeps hI hK block) fun more ↦ ih _

theorem handle_keeps (hI : SteadyOn host D I) (hK : Carries I K) (hsign : Signs K D) (turns : ℕ)
    {message : Message H} (hm : ∀ block, message ≠ .newBlock block) :
    Op.Keeps K (handle host turns message : Op (Server host) ε Unit) := by
  cases message with
  | initP2P => exact Op.Keeps.modify fun _ h ↦ hK.connect h
  | tick timestampMs => exact handleTick_keeps hI hK hsign timestampMs
  | newBlock block => exact absurd rfl (hm block)
  | newAttestation attestation =>
    refine Op.Keeps.bind Op.Keeps.get fun server ↦ ?_
    apply Op.Keeps.ite
    · exact fun _ ↦ Op.Keeps.pure _
    · intro _
      have hx := onStore_keeps hK
        (onGossipAttestation_keeps hI.toCalm attestation (validatorIds host server))
      exact Op.Keeps.bind (Op.Keeps.attempt hx) fun _ ↦ Op.Keeps.pure _
  | newAggregatedAttestation attestation =>
    have hx := onStore_keeps hK (onGossipAggregatedAttestation_keeps hI.toCalm attestation)
    exact Op.Keeps.bind (Op.Keeps.attempt hx) fun _ ↦ Op.Keeps.pure _

theorem handle_of_step {d : Delivery H} (h : step host server d = .ok server') :
    ∃ r, (handle host d.turns d.message : Op (Server host) Empty Unit) server = .ok (r, server') := by
  unfold step at h
  split at h
  · rename_i r t heq
    exact ⟨r, by rw [heq, Except.ok.inj h]⟩
  · exact nomatch h

/-- The server in which the handler of a block calls the prune. -/
def Drained (host : Host H) (p : Server host × Delivery H) (server : Server host) : Prop :=
  ∃ block, p.2.message = .newBlock block ∧
    (drainQueue host p.2.turns [block] : Op (Server host) Empty Unit) p.1 = .ok (.ok (), server)

/-- A step keeps an invariant of the store if the prune at its end does. -/
theorem step_keeps (hI : Steady host I) {d : Delivery H}
    (h : I server.store)
    (hprune : ∀ drained, Drained host (server, d) drained → I drained.store →
      I (drained.store.pruneOldData host))
    (hs : step host server d = .ok server') : I server'.store := by
  obtain ⟨r, hr⟩ := handle_of_step hs
  by_cases hm : ∃ block, d.message = .newBlock block
  · obtain ⟨block, hblock⟩ := hm
    rw [hblock] at hr
    rcases Op.bind_eq_ok.mp hr with ⟨u, drained, hdrain, hrest⟩ | ⟨e, -, -⟩
    · obtain ⟨-, rfl⟩ := Prod.mk.inj (Except.ok.inj hrest)
      exact hprune drained ⟨block, hblock, hdrain⟩
        (drainQueue_keeps hI holds_carriesWaiting d.turns [block] server _ drained h hdrain)
    · exact nomatch e
  · exact handle_keeps (steadyOn hI fun _ ↦ True) holds_carries (fun _ _ _ _ _ _ _ _ ↦ trivial)
      d.turns (fun block hb ↦ hm ⟨block, hb⟩) server r server' h hr

end Ethlambda.Chain.Server
