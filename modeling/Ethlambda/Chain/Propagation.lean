import Ethlambda.Chain.ProvenVotes

namespace Ethlambda.Chain

open Ethlambda.Base Ethlambda.Types Ethlambda.Storage Ethlambda.StateTransition Ethlambda.ForkChoice

set_option linter.unusedSectionVars false

variable {H : Type} [LinearOrder H] [Zero H] {host : Host H} {s s' : Store H} {g : State H}
  {validators : List Validator} {n : ℕ} {sb : SignedBlockWithAttestation H} {e : Enumeration}

section Import

theorem StatesOnChain.onBlock (hh : HashSound host) (hg : Origin host.toTreeHash n g)
    (h : StatesOnChain host g s) {ids : List UInt64}
    (hr : onBlock host sb ids s = .ok (.ok (), s')) :
    StatesOnChain host g s' ∧ ∃ st, s'.states.lookup (host.block sb.message.block) = some st := by
  obtain ⟨rfl, hknown | ⟨_, herror⟩⟩ | ⟨post, head, -, hpost, -, hs⟩ := onBlock_eq_ok hr
  · exact ⟨h, Option.isSome_iff_exists.mp hknown⟩
  · cases herror
  have hrecord := h.recordBlock hh hg hpost
  have hnew : (Chain.recordBlock host sb post s).states.lookup (host.block sb.message.block) = some post := by
    rw [lookup_recordBlock_states, if_pos rfl]
  generalize Chain.recordBlock host sb post s = t at hrecord hnew hs
  obtain rfl | ⟨-, sig, -, rfl⟩ := hs
  · exact ⟨fun r st hst ↦ hrecord r st hst, post, hnew⟩
  · exact ⟨fun r st hst ↦ hrecord r st hst, post, hnew⟩

theorem SignedBy.enumerating {v : UInt64} (h : SignedBy host validators v sb) :
    SignedBy (enumerating host e) validators v sb :=
  ⟨h.validator, h.narrow, h.signed⟩

theorem verifyAttestations_enumerating
    {l : List (AggregatedAttestation H × AggregatedSignatureProof)}
    (h : verifyAttestations host validators l = .ok ()) :
    verifyAttestations (enumerating host e) validators l = .ok () := by
  rw [verifyAttestations_eq_ok] at h ⊢
  intro p hp
  obtain ⟨hmatched, hnarrow, keys, hkeys, hverify⟩ := h p hp
  exact ⟨hmatched, hnarrow, keys, hkeys,
    (verifyAggregatedSignature_enumerating _ _ _ _).trans hverify⟩

end Import

section Produced

/-- A block with valid signatures that leads on from the state of the chain under its parent's
root. -/
structure Importable (host : Host H) (g : State H) (validators : List Validator)
    (sb : SignedBlockWithAttestation H) (post : State H) : Prop where
  parent : ∃ st, OnChain host.toTreeHash g sb.message.block.parentRoot st ∧
    stateTransition host.toTreeHash st sb.message.block = .ok post
  count : sb.message.block.body.attestations.len = sb.signature.attestationSignatures.len
  proved : verifyAttestations host validators (provedAttestations sb) = .ok ()
  signed : SignedBy host validators sb.message.block.proposerIndex sb

/-- Wherever the parent's state is kept, such a block is imported, and its state is the same
everywhere. -/
theorem Importable.imported (hh : HashSound host) (hbody : Function.Injective host.body)
    (hg : Origin host.toTreeHash n g) {post : State H}
    (h : Importable host g g.validators.toList sb post) (htree : BlockTree host s)
    (hon : StatesOnChain host g s) {parent : State H}
    (hparent : s.states.lookup sb.message.block.parentRoot = some parent) (ids : List UInt64) :
    ∃ t, onBlock host sb ids s = .ok (.ok (), t) ∧
      t.states.lookup (host.block sb.message.block) =
        some (withStateRoot post sb.message.block.stateRoot) := by
  obtain ⟨st, hst, htransition⟩ := h.parent
  obtain rfl := hst.unique hh.collisionFree hbody hg (hon _ _ hparent)
  have hsigned := h.signed
  have hproved := h.proved
  rw [← hst.validators_eq] at hsigned hproved
  have hverify : verifySignatures host st sb = .ok () :=
    verifySignatures_eq_ok.mpr ⟨h.count, hproved, hsigned.verifyProposer⟩
  obtain ⟨t, ht⟩ := onBlock_accepts hh htree hparent hverify htransition hsigned ids
  obtain ⟨hon', new, hnew⟩ := hon.onBlock hh hg ht
  have hnext := hg.transition hh.collisionFree hst htransition
  rw [← hh.block_eq] at hnext
  obtain rfl := (hon' _ _ hnew).unique hh.collisionFree hbody hg hnext
  exact ⟨t, ht, hnew⟩

theorem Importable.enumerating {post : State H} (h : Importable host g validators sb post) :
    Importable (enumerating host e) g validators sb post :=
  ⟨h.parent, h.count, verifyAttestations_enumerating h.proved, h.signed.enumerating⟩

theorem OrderedRun.ready (hh : HashSound host) {time : UInt64}
    (hg : State.fromGenesis host.toTreeHash time validators =
      (.ok g : StateTransition.Result H (State H))) (h : OrderedRun host g s) : Ready host s := by
  obtain ⟨anchor, body, s₀, calls, ⟨blocks, u, root, hu, hanchor⟩, h₀, hrun, -⟩ := h
  have hst : Anchor host anchor := ⟨time, validators, g, blocks, u, root, hg, hu, hanchor⟩
  exact ⟨Call.run_keeps (blockTree_invariant hh).steady (fun h ↦ h.pruneOldData)
    (blockTree_initStore hh hst h₀) hrun, Vouched.run h₀ hrun, DataFiled.run h₀ hrun⟩

theorem Node.blockTree (hh : HashSound host) {time : UInt64}
    (hg : State.fromGenesis host.toTreeHash time validators =
      (.ok g : StateTransition.Result H (State H))) (node : Node host g) :
    BlockTree host node.server.store := by
  obtain ⟨blocks, u, root, hu, hanchor⟩ := node.anchored
  have hst : Anchor host node.anchor := ⟨time, validators, g, blocks, u, root, hg, hu, hanchor⟩
  exact Server.run_keeps (blockTree_invariant hh).steady (fun h ↦ h.pruneOldData)
    (blockTree_initStore hh hst node.start_eq) node.run_eq

/-- A node produces blocks that can be imported. -/
theorem OrderedRun.produce (hsound : SoundSignatures host)
    (hinj : Function.Injective host.attestationData) (hh : HashSound host) {time : UInt64}
    (hg : State.fromGenesis host.toTreeHash time validators =
      (.ok g : StateTransition.Result H (State H))) (h : OrderedRun host g s)
    {slot validatorIndex : UInt64} {proofs : List AggregatedSignatureProof}
    (hproduce : produceBlockWithSignatures host slot validatorIndex s =
      .ok (.ok (sb.message.block, proofs), s'))
    (hproofs : sb.signature.attestationSignatures.toList = proofs)
    (hsigned : SignedBy host validators validatorIndex sb) :
    BlockTree host s' ∧ StatesOnChain host g s' ∧
      (∃ parent, s'.states.lookup sb.message.block.parentRoot = some parent) ∧
      ∃ post, Importable host g validators sb post := by
  have hready := h.ready hh hg
  obtain ⟨vs, rfl, rfl⟩ := State.fromGenesis_eq_ok hg
  have horigin := origin_genesis host.toTreeHash time vs
  obtain ⟨headRoot, t, hhead, hproduce⟩ := Op.bind_eq_ok_ok.mp hproduce
  have hsealed := (sealed_quiet hh horigin).getProposalHead slot s _ t
    (h.sealed hsound hinj hh horigin) hhead
  have hready := hready.getProposalHead hh hhead
  rw [Op.get_bind] at hproduce
  obtain ⟨hproduced, rfl⟩ := Op.lift_eq_ok_ok.mp hproduce
  obtain ⟨headState, post, hstate, hbuild⟩ := produceBlockFrom_eq_ok hproduced
  obtain ⟨included, candidate, last, hbuilt⟩ := buildBlock_eq_ok hbuild
  have hspec := hbuilt.covered hinj hready.vouched.filed noEmptyEntry_proofTable
  have hparent : sb.message.block.parentRoot = headRoot := congrArg Block.parentRoot hbuilt.block
  have hproposer : sb.message.block.proposerIndex = validatorIndex :=
    congrArg Block.proposerIndex hbuilt.block
  have hattestations := hready.verifies hinj (hsealed.2.knownProofsVerify hinj)
    (fun a ha ↦ (hbuilt.fixed.pooled a ha).1) hbuilt.selected hspec
  rw [← hparent] at hstate
  subst hproofs
  refine ⟨hready.tree, hsealed.1, ⟨headState, hstate⟩, post,
    ⟨headState, hsealed.1 _ _ hstate, hbuilt.transition⟩, hspec.length_eq, hattestations, ?_⟩
  rw [hproposer]
  exact hsigned

/-- What one node produces, all nodes import. A block that a node of a network builds, with a vote
that its proposer has signed, is accepted by every node that has the parent's state, whatever the
two of them have been sent and in whatever order their tables are read, and both the producer and
the other node then keep the same state for it. -/
theorem produced_block_spreads (hsound : SoundSignatures host)
    (hinj : Function.Injective host.attestationData) (hh : HashSound host)
    (hbody : Function.Injective host.body) {time : UInt64}
    (hg : State.fromGenesis host.toTreeHash time validators =
      (.ok g : StateTransition.Result H (State H))) (h : OrderedRun host g s)
    {slot validatorIndex : UInt64} {proofs : List AggregatedSignatureProof}
    (hproduce : produceBlockWithSignatures host slot validatorIndex s =
      .ok (.ok (sb.message.block, proofs), s'))
    (hproofs : sb.signature.attestationSignatures.toList = proofs)
    (hsigned : SignedBy host validators validatorIndex sb) (node : Node (enumerating host e) g)
    {parent : State H}
    (hparent : node.server.store.states.lookup sb.message.block.parentRoot = some parent)
    (ids ids' : List UInt64) :
    ∃ t t' post, onBlock host sb ids s' = .ok (.ok (), t) ∧
      onBlock (enumerating host e) sb ids' node.server.store = .ok (.ok (), t') ∧
      t.states.lookup (host.block sb.message.block) = some post ∧
      t'.states.lookup (host.block sb.message.block) = some post := by
  obtain ⟨htree, hon, ⟨own, hown⟩, post, himportable⟩ :=
    h.produce hsound hinj hh hg hproduce hproofs hsigned
  have hother : HashSound (enumerating host e) := hh.congr rfl
  have htree' := node.blockTree hother hg
  obtain ⟨vs, rfl, rfl⟩ := State.fromGenesis_eq_ok hg
  have horigin := origin_genesis host.toTreeHash time vs
  obtain ⟨t, ht, hstate⟩ := himportable.imported hh hbody horigin htree hon hown ids
  obtain ⟨t', ht', hstate'⟩ := himportable.enumerating.imported hother hbody horigin htree'
    (node.onChain hother horigin) hparent ids'
  exact ⟨t, t', _, ht, ht', hstate, hstate'⟩

end Produced

section Sample

theorem ownSigned_signedBy_distinct (block : Block ℕ) :
    SignedBy distinctHost sampleValidators 2 (ownSigned block) := by
  have hnarrow : (rivalVote Sample.first).slot.toNat < 2 ^ 32 := by decide
  have hvalid : distinctHost.isValid (sampleSignature 2 (rivalVote Sample.first)).toList (2 : UInt8)
      (rivalVote Sample.first).slot.toUInt32
      (distinctHost.attestationData (rivalVote Sample.first)) = true := by decide +kernel
  exact ⟨rfl, hnarrow, _, (2 : UInt8), rfl, rfl, hvalid⟩

/-- One node produces a block for slot 2, the other one has the first block only. -/
theorem produced_block_spreads_sample :
    ∃ s block s' t t' post, Call.run distinctHost sampleStore readyCalls = .ok s ∧
      produceBlockWithSignatures distinctHost 2 2 s =
        .ok (.ok (block, [(rivalAggregate Sample.first).proof]), s') ∧
      block.body.attestations.toList.length = 1 ∧
      onBlock distinctHost (ownSigned block) [2] s' = .ok (.ok (), t) ∧
      (∃ server, Server.run mirroredHost (Server.spawn mirroredHost sampleStore ∅ false)
          [⟨1, .newBlock sampleFirst⟩] = .ok server ∧
        onBlock mirroredHost (ownSigned block) [] server.store = .ok (.ok (), t')) ∧
      t.states.lookup (distinctHost.block block) = some post ∧
      t'.states.lookup (distinctHost.block block) = some post := by
  have hview₁ : ((Call.run distinctHost sampleStore readyCalls).toOption.bind fun s ↦
      (produceBlockWithSignatures distinctHost 2 2 s).toOption.bind fun r ↦
        r.1.toOption.map fun produced ↦
          decide (produced.2 = [(rivalAggregate Sample.first).proof] ∧
            produced.1.body.attestations.toList.length = 1 ∧
            produced.1.parentRoot = distinctHost.block Sample.first)) = some true := by
    decide +kernel
  have hview₂ : (Server.run mirroredHost (Server.spawn mirroredHost sampleStore ∅ false)
      [⟨1, .newBlock sampleFirst⟩]).toOption.map (fun server ↦
        (server.store.states.lookup (distinctHost.block Sample.first)).isSome) = some true := by
    decide +kernel
  obtain ⟨s, hs, hview₁⟩ := Option.bind_eq_some_iff.mp hview₁
  obtain ⟨⟨r, s'⟩, hproduce, hview₁⟩ := Option.bind_eq_some_iff.mp hview₁
  obtain ⟨⟨block, proofs⟩, hr, hview₁⟩ := Option.map_eq_some_iff.mp hview₁
  obtain ⟨hproofs, hlength, hparent⟩ := of_decide_eq_true hview₁
  have hrun := Exec.eq_ok_of_toOption hs
  have hproduced := Exec.eq_ok_of_toOption hproduce
  obtain rfl : r = .ok (block, proofs) := Exec.eq_ok_of_toOption hr
  obtain rfl : proofs = [(rivalAggregate Sample.first).proof] := hproofs
  obtain ⟨server, h₂, hview₂⟩ := Exec.exists_ok_of_map hview₂
  rw [← hparent] at hview₂
  obtain ⟨st, hst⟩ := Option.isSome_iff_exists.mp hview₂
  obtain ⟨t, t', post, ht, ht', hpost, hpost'⟩ := produced_block_spreads distinctHost_sound
    sampleHost_attestationData_injective distinctHost_hashSound bodyCode_injective distinctGenesis_eq
    (orderedRun_of_check (by decide +kernel) hrun) hproduced rfl
    (ownSigned_signedBy_distinct block) (mirroredNode h₂) hst [2] []
  exact ⟨s, block, s', t, t', post, hrun, hproduced, hlength, ht, ⟨server, h₂, ht'⟩, hpost, hpost'⟩

end Sample

end Ethlambda.Chain
