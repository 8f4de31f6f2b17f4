import Ethlambda.Chain.Redelivery

namespace Ethlambda.Chain

open Ethlambda.Base Ethlambda.Types Ethlambda.Storage Ethlambda.StateTransition Ethlambda.ForkChoice

set_option linter.unusedSectionVars false

variable {H : Type} [LinearOrder H] [Zero H] {host : Host H} {s s' : Store H}
  {server server' : Server host} {sb : SignedBlockWithAttestation H} {ε : Type}

section Loading

/-- If bodies do not collide either, a root stands for a whole block. -/
theorem HashSound.block_injective (hh : HashSound host) (hbody : Function.Injective host.body) :
    Function.Injective host.block := by
  intro b b' h
  rw [hh.block_eq, hh.block_eq] at h
  have hheader := hh.collisionFree.header_injective h
  cases b
  cases b'
  simp only [Block.header, BlockHeader.mk.injEq] at hheader
  obtain ⟨rfl, rfl, rfl, rfl, heq⟩ := hheader
  rw [hbody heq]

theorem getSignedBlock_congr (host : Host H) (hheaders : s'.blockHeaders = s.blockHeaders)
    (hbodies : s'.blockBodies = s.blockBodies) (hsigs : s'.blockSignatures = s.blockSignatures)
    (r : H) : s'.getSignedBlock host r = s.getSignedBlock host r := by
  unfold Store.getSignedBlock
  rw [hheaders, hbodies, hsigs]

/-- What was written under a root is what is read from it, the empty body included, which is never
stored. -/
theorem getSignedBlock_writeSignedBlock (hbody : Function.Injective host.body)
    (sb : SignedBlockWithAttestation H) (root r : H) :
    (s.writeSignedBlock host root sb).getSignedBlock host r =
      if r = root then some sb else s.getSignedBlock host r := by
  unfold Store.getSignedBlock Store.writeSignedBlock
  simp only [Table.lookup_insert_eq_ite]
  by_cases hr : r = root
  · subst hr
    simp only [if_true, Option.bind_eq_bind, Option.bind_some, Block.header]
    by_cases hempty : host.body sb.message.block.body = host.body .default
    · have hdefault := hbody hempty
      simp only [hempty, if_true, BlockSignaturesWithAttestation.toSignedBlock,
        Block.fromHeaderAndBody, ← hdefault]
      rfl
    · simp only [hempty, if_false, ne_eq, not_false_eq_true, if_true, AList.lookup_insert,
        Option.bind_some]
      rfl
  · have hbodies : (if (sb.message.block.header host.toTreeHash).bodyRoot ≠ host.body .default then
        s.blockBodies.insert root sb.message.block.body else s.blockBodies).lookup r =
        s.blockBodies.lookup r := by
      split
      · exact AList.lookup_insert_ne hr
      · rfl
    simp only [hr, if_false, hbodies]

theorem getSignedBlock_recordBlock (hbody : Function.Injective host.body)
    (sb : SignedBlockWithAttestation H) (post : State H) (r : H) :
    (recordBlock host sb post s).getSignedBlock host r =
      if r = host.block sb.message.block then some sb else s.getSignedBlock host r := by
  have ha := adopted host s post
  rw [← getSignedBlock_congr host ha.headers ha.bodies ha.signatures,
    ← getSignedBlock_writeSignedBlock hbody sb]
  apply getSignedBlock_congr <;>
    simp only [recordBlock, writeBlock, Store.insertKnownAggregatedPayloadsBatch,
      Store.insertAttestationDataByRootBatch, Store.insertState, Store.insertSignedBlock]

section Imported

variable {post : State H} {head : H}

/-- What is in the tables after an import, root by root. -/
theorem lookup_states_of_import (h : Frame { recordBlock host sb post s with head := head } s')
    (r : H) : s'.states.lookup r =
      if r = host.block sb.message.block then some post else s.states.lookup r := by
  rw [h.states]
  dsimp only
  exact lookup_recordBlock_states sb post r

theorem lookup_headers_of_import (h : Frame { recordBlock host sb post s with head := head } s')
    (r : H) : s'.blockHeaders.lookup r =
      if r = host.block sb.message.block then some (sb.message.block.header host.toTreeHash)
      else s.blockHeaders.lookup r := by
  rw [h.headers]
  dsimp only
  exact lookup_recordBlock_headers sb post r

theorem getSignedBlock_of_import (hbody : Function.Injective host.body)
    (h : Frame { recordBlock host sb post s with head := head } s') (r : H) :
    s'.getSignedBlock host r =
      if r = host.block sb.message.block then some sb else s.getSignedBlock host r := by
  rw [getSignedBlock_congr host h.headers h.bodies h.signatures,
    ← getSignedBlock_recordBlock hbody sb post]
  rfl

end Imported

theorem header_of_getSignedBlock {r : H} (h : s.getSignedBlock host r = some sb) :
    ∃ hdr, s.blockHeaders.lookup r = some hdr := by
  obtain ⟨hdr, hhdr, -⟩ := Option.bind_eq_some_iff.mp h
  exact ⟨hdr, hhdr⟩

end Loading

theorem Frame.refl (s : Store H) : Frame s s := ⟨rfl, rfl, rfl, rfl, rfl, rfl, rfl, rfl, rfl, rfl⟩

theorem Frame.trans {t : Store H} (h : Frame s t) (h' : Frame t s') : Frame s s' :=
  ⟨h'.config.trans h.config, h'.states.trans h.states, h'.headers.trans h.headers,
    h'.bodies.trans h.bodies, h'.signatures.trans h.signatures, h'.liveChain.trans h.liveChain,
    h'.justified.trans h.justified, h'.finalized.trans h.finalized, h'.head.trans h.head,
    h'.safeTarget.trans h.safeTarget⟩

/-- What may become of a block that is handed to the store. -/
inductive Handled (host : Host H) (s : Store H) (sb : SignedBlockWithAttestation H) :
    Except (StoreError H) Unit → Store H → Prop
  | known {st : State H} (hst : s.states.lookup (host.block sb.message.block) = some st) :
      Handled host s sb (.ok ()) s
  | rejected {e : StoreError H} (hst : s.states.lookup (host.block sb.message.block) = none)
      (he : postState host s sb true = Exec.fail e) : Handled host s sb (.error e) s
  | imported {post : State H} {head : H} {s' : Store H}
      (hst : s.states.lookup (host.block sb.message.block) = none)
      (hpost : postState host s sb true = .ok post)
      (hframe : Frame { recordBlock host sb post s with head := head } s') :
      Handled host s sb (.ok ()) s'

section Handled

variable {r : Except (StoreError H) Unit}

theorem recordProposerVote_frame {verify : Bool} {ids : List UInt64}
    (h : recordProposerVote host sb verify ids s = .ok (r, s')) : Frame s s' :=
  recordProposerVote_keeps (I := Frame s) (fun hs hframe ↦ hs.trans hframe) ids s r s' (Frame.refl s) h

/-- The signature was decoded when it was verified, so it can be decoded once more. -/
theorem recordProposerVote_of_verified {st : State H} {ids : List UInt64}
    (hverify : verifySignatures host st sb = .ok ())
    (h : recordProposerVote host sb true ids s = .ok (r, s')) : r = .ok () := by
  obtain ⟨sig, -, hsig, -⟩ := verifyProposer_eq_ok (verifySignatures_eq_ok.mp hverify).2.2
  unfold recordProposerVote at h
  rw [Bool.not_true, if_neg Bool.false_ne_true, hsig] at h
  split at h
  · have hdecode : okOr (ε := StoreError H) .signatureDecodingFailed (some sig) = .ok sig := rfl
    rw [Op.lift_bind_of_ok hdecode] at h
    exact (Prod.mk.inj (Except.ok.inj h)).1.symm
  · exact (Prod.mk.inj (Except.ok.inj h)).1.symm

theorem handled_of_onBlock {ids : List UInt64} (h : onBlock host sb ids s = .ok (r, s')) :
    Handled host s sb r s' := by
  rcases onBlockCore_eq_ok h with ⟨hst, rfl, rfl⟩ |
    ⟨hst, ⟨e, hfail, rfl, rfl⟩ | ⟨post, g, hpost, -, hvote⟩⟩
  · obtain ⟨st, hst⟩ := Option.isSome_iff_exists.mp hst
    exact .known hst
  · exact .rejected (Option.isSome_eq_false_iff.mp hst |> Option.isNone_iff_eq_none.mp) hfail
  · obtain ⟨parent, -, -, hverify, -⟩ := postState_eq_ok hpost
    obtain rfl := recordProposerVote_of_verified (hverify rfl) hvote
    exact .imported (Option.isSome_eq_false_iff.mp hst |> Option.isNone_iff_eq_none.mp) hpost
      (recordProposerVote_frame hvote)

/-- What the check of a block's signatures can end in. -/
inductive SignatureFault : Failure (StoreError H) → Prop
  | signatureMismatch (signatures attestations : ℕ) :
    SignatureFault (.error (.attestationSignatureMismatch signatures attestations))
  | participantsMismatch : SignatureFault (.error .participantsMismatch)
  | invalidValidatorIndex : SignatureFault (.error .invalidValidatorIndex)
  | pubkeyDecodingFailed (validator : UInt64) : SignatureFault (.error (.pubkeyDecodingFailed validator))
  | aggregateVerificationFailed (e : VerificationError) :
    SignatureFault (.error (.aggregateVerificationFailed e))
  | proposerMismatch (attestationId proposerIndex : UInt64) :
    SignatureFault (.error (.proposerAttestationMismatch attestationId proposerIndex))
  | proposerDecodingFailed : SignatureFault (.error .proposerSignatureDecodingFailed)
  | proposerVerificationFailed : SignatureFault (.error .proposerSignatureVerificationFailed)
  | wideSlot : SignatureFault (.panic (.expect "slot exceeds u32"))
  | index : SignatureFault (.panic .index)

section Faults

variable {validators : List Validator}

theorem okOr_raises {α : Type} {faults : Failure ε → Prop} {e : ε} (h : faults (.error e))
    (x : Option α) : Exec.Raises faults (okOr e x) := by
  cases x with
  | none => exact Exec.raises_fail h
  | some a => exact Exec.raises_ok a

theorem participantKeys_raises (vids : List ℕ) :
    Exec.Raises SignatureFault (participantKeys host validators vids) :=
  Exec.raises_mapM fun _ _ ↦ Exec.raises_bind (Exec.raises_index .index) fun _ _ ↦
    okOr_raises (.pubkeyDecodingFailed _) _

theorem verifyAttestation_raises (p : AggregatedAttestation H × AggregatedSignatureProof) :
    Exec.Raises SignatureFault (verifyAttestation host validators p.1 p.2) := by
  unfold verifyAttestation
  split
  · exact Exec.raises_fail .participantsMismatch
  · dsimp only
    split
    · exact Exec.raises_fail .invalidValidatorIndex
    · refine Exec.raises_bind (Exec.raises_expect .wideSlot) fun slot _ ↦ ?_
      refine Exec.raises_bind (participantKeys_raises _) fun keys _ ↦ ?_
      unfold checkAggregate
      split
      · exact Exec.raises_ok ()
      · exact Exec.raises_fail (.aggregateVerificationFailed _)

theorem verifyAttestations_raises (pairs : List (AggregatedAttestation H × AggregatedSignatureProof)) :
    Exec.Raises SignatureFault (verifyAttestations host validators pairs) := by
  induction pairs with
  | nil => exact Exec.raises_ok ()
  | cons p rest ih => exact Exec.raises_bind (verifyAttestation_raises p) fun _ _ ↦ ih

theorem verifyProposer_raises : Exec.Raises SignatureFault (verifyProposer host validators sb) := by
  unfold verifyProposer
  dsimp only
  split
  · exact Exec.raises_fail (.proposerMismatch _ _)
  · refine Exec.raises_bind (okOr_raises .proposerDecodingFailed _) fun sig _ ↦ ?_
    refine Exec.raises_bind (okOr_raises .invalidValidatorIndex _) fun proposer _ ↦ ?_
    refine Exec.raises_bind (okOr_raises (.pubkeyDecodingFailed _) _) fun key _ ↦ ?_
    refine Exec.raises_bind (Exec.raises_expect .wideSlot) fun slot _ ↦ ?_
    split
    · exact Exec.raises_ok ()
    · exact Exec.raises_fail .proposerVerificationFailed

theorem verifySignatures_raises (st : State H) :
    Exec.Raises SignatureFault (verifySignatures host st sb) := by
  unfold verifySignatures
  dsimp only
  split
  · exact Exec.raises_fail (.signatureMismatch _ _)
  · exact Exec.raises_bind (verifyAttestations_raises _) fun _ _ ↦ verifyProposer_raises

end Faults

/-- Before anything is written, an undecodable signature has an error of its own. -/
theorem postState_ne_fail : postState host s sb true ≠ Exec.fail .signatureDecodingFailed := by
  unfold postState
  refine Exec.bind_ne_fail ((okOr_raises rfl _).ne_fail nofun) fun parent _ ↦ ?_
  refine Exec.bind_ne_fail ?_ fun _ _ ↦ Exec.bind_ne_fail ?_ fun _ _ ↦ nofun
  · rw [if_pos rfl]
    exact (verifySignatures_raises parent).ne_fail nofun
  · rcases stateTransition host.toTreeHash parent sb.message.block with (e | p) | st
    · exact nofun
    · exact nofun
    · exact nofun

/-- A rejected block leaves the store as it was: whatever is wrong with it shows before the first
write. -/
theorem rejected_block_leaves_store {ids : List UInt64} {e : StoreError H}
    (h : onBlock host sb ids s = .ok (.error e, s')) :
    s' = s ∧ postState host s sb true = Exec.fail e ∧ e ≠ .signatureDecodingFailed := by
  cases handled_of_onBlock h with
  | rejected hst hfail =>
    refine ⟨rfl, hfail, ?_⟩
    rintro rfl
    exact postState_ne_fail hfail

/-- The first block with a signature that is not its proposer's. -/
def sampleForged : SignedBlockWithAttestation ℕ :=
  ⟨sampleFirst.message, ⟨.empty, sampleSignature 2 (ownVote Sample.first sampleOrigin)⟩⟩

theorem rejected_block_leaves_store_sample : ∃ e s',
    onBlock sampleHost sampleForged [0] sampleStore = .ok (.error e, s') ∧
      e = .proposerSignatureVerificationFailed ∧ s' = sampleStore ∧
      postState sampleHost sampleStore sampleForged true = Exec.fail e ∧
      e ≠ .signatureDecodingFailed := by
  have hview : ((onBlock sampleHost sampleForged [0] sampleStore).toOption.map fun r ↦
      match r.1 with
      | .error e => some e
      | .ok _ => none) = some (some .proposerSignatureVerificationFailed) := by decide +kernel
  obtain ⟨⟨r, s'⟩, hrun, hr⟩ := Exec.exists_ok_of_map hview
  cases r with
  | ok u => exact nomatch hr
  | error e => exact ⟨e, s', hrun, Option.some.inj hr, rejected_block_leaves_store hrun⟩

theorem headSlot_ne_fail {e : ε} : s.headSlot ≠ Exec.fail e :=
  Exec.bind_ne_fail Exec.expect_ne_fail fun _ _ ↦ nofun

theorem handled_of_processBlock (h : Server.processBlock host sb server = .ok (r, server')) :
    ∃ s', Handled host server.store sb r s' ∧ server' = { server with store := s' } := by
  unfold Server.processBlock at h
  rw [Op.get_bind] at h
  have hstore {r' : Except (StoreError H) Unit} {t : Server host}
      (ht : Server.onStore host (onBlock host sb (Server.validatorIds host server)) server =
        .ok (r', t)) :
      ∃ s', Handled host server.store sb r' s' ∧ t = { server with store := s' } := by
    unfold Server.onStore Op.within at ht
    split at ht
    · exact nomatch ht
    · rename_i r'' s' hblock
      obtain ⟨rfl, rfl⟩ := Prod.mk.inj (Except.ok.inj ht)
      exact ⟨s', handled_of_onBlock hblock, rfl⟩
  rcases Op.bind_eq_ok.mp h with ⟨u, t, ht, hrest⟩ | ⟨e, he, rfl⟩
  · rw [Op.get_bind] at hrest
    rcases Op.bind_eq_ok.mp hrest with ⟨slot, v, hlift, hend⟩ | ⟨e, hlift, rfl⟩
    · obtain ⟨-, rfl⟩ := Op.lift_eq_ok_ok.mp hlift
      obtain ⟨rfl, rfl⟩ := Prod.mk.inj (Except.ok.inj hend)
      exact hstore ht
    · obtain ⟨-, ⟨slot, -, hok⟩ | ⟨e', hfail, -⟩⟩ := Op.lift_eq_ok.mp hlift
      · exact nomatch hok
      · exact absurd hfail headSlot_ne_fail
  · exact hstore he

end Handled

/-- The block under `c` is recorded as one that waits for the block under `p`. -/
def Waits (server : Server host) (p c : H) : Prop :=
  ∃ children, server.pendingBlocks.lookup p = some children ∧ c ∈ children

theorem waits_addPending {p c q d : H} :
    Waits (Server.addPending host p c server) q d ↔ Waits server q d ∨ q = p ∧ d = c := by
  unfold Waits Server.addPending
  simp only [Table.lookup_insert_eq_ite]
  by_cases hq : q = p
  · subst hq
    cases hlookup : server.pendingBlocks.lookup q with
    | none => simp
    | some children =>
      by_cases hc : c ∈ children
      · simp only [if_true, Option.getD_some, hc, Option.some.injEq, exists_eq_left', true_and]
        exact ⟨.inl, fun h ↦ h.elim id fun h ↦ h ▸ hc⟩
      · simp [hc]
  · simp [hq]

/-- If the ancestors lie lower and lower, the walk comes to its end within the steps it has. -/
theorem exists_missingAncestor {parents : Table H H} {f : H → ℕ} {r : H}
    (hlt : ∀ x y, parents.lookup x = some y → f y < f x) {steps : ℕ}
    (hsteps : rank f parents.keys r < steps) :
    ∃ m, (Server.missingAncestor parents steps r : Exec ε H) = .ok m ∧ parents.lookup m = none ∧
      Relation.ReflTransGen (fun x y ↦ parents.lookup x = some y) r m := by
  induction steps generalizing r with
  | zero => exact absurd hsteps (Nat.not_lt_zero _)
  | succ steps ih =>
    rw [Server.missingAncestor]
    cases hr : parents.lookup r with
    | none => exact ⟨r, rfl, hr, .refl⟩
    | some a =>
      have hmem : r ∈ parents.keys := AList.mem_keys.mpr (Table.mem_iff_lookup.mpr ⟨a, hr⟩)
      have hrank := rank_lt hmem (hlt r a hr)
      obtain ⟨m, hm, hnone, hpath⟩ := ih (r := a) (by omega)
      exact ⟨m, hm, hnone, .head hr hpath⟩

/-- What a climb through the stored headers may do: it records blocks that wait for their parent and
comes back with a block that can be processed, or with none. -/
structure Climbed (server : Server host) (more : List (SignedBlockWithAttestation H))
    (server' : Server host) : Prop where
  store : server'.store = server.store
  waits : ∀ p c, Waits server p c → Waits server' p c
  recorded : ∀ p c, Waits server' p c → Waits server p c ∨
    ∃ hdr, server.store.blockHeaders.lookup c = some hdr ∧ hdr.parentRoot = p
  ready : ∀ x ∈ more, ∃ r hdr st, server.store.blockHeaders.lookup r = some hdr ∧
    server.store.getSignedBlock host r = some x ∧
    server.store.states.lookup hdr.parentRoot = some st

theorem climbed {steps : ℕ} {root : H} {more : List (SignedBlockWithAttestation H)}
    (h : (Server.climb host steps root :
      Op (Server host) ε (List (SignedBlockWithAttestation H))) server = .ok (.ok more, server')) :
    Climbed server more server' := by
  induction steps generalizing root server with
  | zero => exact nomatch h
  | succ steps ih =>
    cases hhdr : server.store.blockHeaders.lookup root with
    | none =>
      obtain ⟨sent, hclimb⟩ := climb_of_missing (ε := ε) server steps hhdr
      obtain ⟨hmore, rfl⟩ := Prod.mk.inj (Except.ok.inj (h.symm.trans hclimb))
      obtain rfl := Except.ok.inj hmore
      exact ⟨rfl, fun p c ↦ id, fun p c ↦ .inl, fun x hx ↦ absurd hx List.not_mem_nil⟩
    | some hdr =>
      cases hst : server.store.states.lookup hdr.parentRoot with
      | none =>
        have hno : server.store.hasState hdr.parentRoot = false := by
          rw [Store.hasState, hst]
          rfl
        rw [climb_of_waiting steps hhdr hno] at h
        have hrest := ih h
        refine ⟨hrest.store, fun p c hp ↦ hrest.waits p c (waits_addPending.mpr (.inl hp)),
          fun p c hp ↦ ?_, hrest.ready⟩
        rcases hrest.recorded p c hp with hp | hp
        · rcases waits_addPending.mp hp with hp | ⟨rfl, rfl⟩
          · exact .inl hp
          · exact .inr ⟨hdr, hhdr, rfl⟩
        · exact .inr hp
      | some st =>
        rw [Server.climb, Op.get_bind, Store.getBlockHeader, hhdr] at h
        dsimp only at h
        rw [if_pos (by rw [Store.hasState, hst]; rfl)] at h
        obtain ⟨x, t, hlift, hrest⟩ := Op.bind_eq_ok_ok.mp h
        obtain ⟨hx, rfl⟩ := Op.lift_eq_ok_ok.mp hlift
        obtain ⟨hmore, rfl⟩ := Prod.mk.inj (Except.ok.inj hrest)
        obtain rfl := Except.ok.inj hmore
        refine ⟨rfl, fun p c ↦ id, fun p c ↦ .inl, fun y hy ↦ ?_⟩
        obtain rfl := List.mem_singleton.mp hy
        exact ⟨root, hdr, st, hhdr, Exec.expect_eq_ok.mp hx, hst⟩

/-- A block without a parent state is written down and recorded, and then the climb begins. -/
theorem pendBlock_eq_ok {more : List (SignedBlockWithAttestation H)}
    (h : (Server.pendBlock host sb :
      Op (Server host) ε (List (SignedBlockWithAttestation H))) server = .ok (.ok more, server')) :
    ∃ waiting, waiting.store = server.store.insertPendingBlock host (host.block sb.message.block) sb ∧
      (∀ p c, Waits waiting p c ↔ Waits server p c ∨
        p = sb.message.block.parentRoot ∧ c = host.block sb.message.block) ∧
      Climbed waiting more server' := by
  unfold Server.pendBlock at h
  rw [Op.get_bind] at h
  obtain ⟨missing, t, hlift, hrest⟩ := Op.bind_eq_ok_ok.mp h
  obtain ⟨-, rfl⟩ := Op.lift_eq_ok_ok.mp hlift
  rw [Op.modify_bind, Op.modify_bind, Op.get_bind] at hrest
  refine ⟨_, ?_, fun p c ↦ ?_, climbed hrest⟩
  · rfl
  · exact waits_addPending

/-- The children of a block leave the records and come back as far as they can be loaded. -/
structure Collected (server : Server host) (root : H) (more : List (SignedBlockWithAttestation H))
    (server' : Server host) : Prop where
  store : server'.store = server.store
  lookup : ∀ p, server'.pendingBlocks.lookup p =
    if p = root then none else server.pendingBlocks.lookup p
  released : ∀ c, Waits server root c → server'.pendingBlockParents.lookup c = none
  kept : ∀ c, ¬Waits server root c →
    server'.pendingBlockParents.lookup c = server.pendingBlockParents.lookup c
  mem : ∀ x, x ∈ more ↔ ∃ c, Waits server root c ∧ server.store.getSignedBlock host c = some x
  length_le : ∀ children, server.pendingBlocks.lookup root = some children →
    more.length ≤ children.length
  erased : server'.pendingBlocks = server.pendingBlocks.erase root
  loaded : ∃ roots : List H, roots.Perm ((server.pendingBlocks.lookup root).getD []) ∧
    more = roots.filterMap (server.store.getSignedBlock host)

theorem Collected.waits {root : H} {more : List (SignedBlockWithAttestation H)}
    (h : Collected server root more server') (p c : H) :
    Waits server' p c ↔ p ≠ root ∧ Waits server p c := by
  unfold Waits
  rw [h.lookup]
  by_cases hp : p = root
  · simp [hp]
  · simp [hp]

theorem exists_collected (server : Server host) (root : H) :
    ∃ more server', (Server.collectPendingChildren host root :
      Op (Server host) ε (List (SignedBlockWithAttestation H))) server = .ok (.ok more, server') ∧
      Collected server root more server' := by
  unfold Server.collectPendingChildren
  rw [Op.get_bind]
  cases hroot : server.pendingBlocks.lookup root with
  | none =>
    have hnone (c : H) : ¬Waits server root c := by
      rintro ⟨children, hlookup, -⟩
      exact nomatch hroot.symm.trans hlookup
    refine ⟨[], server, rfl, rfl, fun p ↦ ?_, fun c hc ↦ absurd hc (hnone c), fun c _ ↦ rfl,
      fun x ↦ ?_, fun children hlookup ↦ (nomatch hroot.symm.trans hlookup), ?_, [], ?_, rfl⟩
    · split
      · rename_i hp
        rw [hp, hroot]
      · rfl
    · simp [hnone]
    · refine (AList.ext ?_).symm
      exact List.kerase_of_notMem_keys (AList.lookup_eq_none.mp hroot)
    · rw [hroot]
      exact .refl _
  | some children =>
    have hwaits (c : H) : Waits server root c ↔ c ∈ host.order children := by
      simp [Waits, hroot, host.mem_order]
    dsimp only
    rw [Op.modify_bind]
    refine ⟨_, _, rfl, rfl, fun p ↦ ?_, fun c hc ↦ ?_, fun c hc ↦ ?_, fun x ↦ ?_,
      fun children' hlookup ↦ ?_, rfl, host.order children, ?_, rfl⟩
    · exact Table.lookup_erase_eq_ite p root _
    · exact (Table.lookup_foldl_erase _ _ c).trans (if_pos ((hwaits c).mp hc))
    · exact (Table.lookup_foldl_erase _ _ c).trans (if_neg fun hmem ↦ hc ((hwaits c).mpr hmem))
    · simp only [List.mem_filterMap, hwaits]
    · obtain rfl := Option.some.inj (hroot.symm.trans hlookup)
      exact (List.length_filterMap_le _ _).trans (host.order_perm children).length_eq.le
    · rw [hroot]
      exact host.order_perm children

/-- One turn of the work queue. -/
inductive Turn (server : Server host) (sb : SignedBlockWithAttestation H) :
    List (SignedBlockWithAttestation H) → Server host → Prop
  | pended {waiting server' : Server host} {more : List (SignedBlockWithAttestation H)}
      (hparent : server.store.states.lookup sb.message.block.parentRoot = none)
      (hstore : waiting.store =
        server.store.insertPendingBlock host (host.block sb.message.block) sb)
      (hwaits : ∀ p c, Waits waiting p c ↔ Waits server p c ∨
        p = sb.message.block.parentRoot ∧ c = host.block sb.message.block)
      (hclimb : Climbed waiting more server') : Turn server sb more server'
  | passed {s' : Store H} {server' : Server host} {more : List (SignedBlockWithAttestation H)}
      (hparent : ∃ st, server.store.states.lookup sb.message.block.parentRoot = some st)
      (hhandled : Handled host server.store sb (.ok ()) s')
      (hmore : Collected { server with store := s' } (host.block sb.message.block) more server') :
      Turn server sb more server'
  | rejected {e : StoreError H}
      (hparent : ∃ st, server.store.states.lookup sb.message.block.parentRoot = some st)
      (he : postState host server.store sb true = Exec.fail e) : Turn server sb [] server

theorem turn_of_processOrPendBlock {more : List (SignedBlockWithAttestation H)}
    (h : (Server.processOrPendBlock host sb :
      Op (Server host) ε (List (SignedBlockWithAttestation H))) server = .ok (.ok more, server')) :
    Turn server sb more server' := by
  unfold Server.processOrPendBlock at h
  rw [Op.get_bind, Store.hasState] at h
  cases hparent : server.store.states.lookup sb.message.block.parentRoot with
  | none =>
    rw [hparent, Option.isSome_none, Bool.not_false, if_pos rfl] at h
    obtain ⟨waiting, hstore, hwaits, hclimb⟩ := pendBlock_eq_ok h
    exact .pended hparent hstore hwaits hclimb
  | some st =>
    rw [hparent, Option.isSome_some, Bool.not_true, if_neg Bool.false_ne_true] at h
    obtain ⟨r, t, hattempt, hrest⟩ := Op.bind_eq_ok_ok.mp h
    have hprocess := Op.attempt_eq_ok.mp hattempt
    obtain ⟨s', hhandled, rfl⟩ := handled_of_processBlock hprocess
    cases hhandled with
    | rejected hst he =>
      obtain ⟨hmore, rfl⟩ := Prod.mk.inj (Except.ok.inj hrest)
      obtain rfl := Except.ok.inj hmore
      exact .rejected ⟨st, hparent⟩ he
    | known hst =>
      obtain ⟨more', server'', heq, hcollected⟩ := exists_collected (ε := ε)
        { server with store := server.store } (host.block sb.message.block)
      obtain ⟨hmore, rfl⟩ := Prod.mk.inj (Except.ok.inj (hrest.symm.trans heq))
      obtain rfl := Except.ok.inj hmore
      exact .passed ⟨st, hparent⟩ (.known hst) hcollected
    | @imported post head s' hst hpost hframe =>
      obtain ⟨more', server'', heq, hcollected⟩ := exists_collected (ε := ε)
        { server with store := s' } (host.block sb.message.block)
      obtain ⟨hmore, rfl⟩ := Prod.mk.inj (Except.ok.inj (hrest.symm.trans heq))
      obtain rfl := Except.ok.inj hmore
      exact .passed ⟨st, hparent⟩ (.imported hst hpost hframe) hcollected

end Ethlambda.Chain
