import Ethlambda.Chain.Agreement
import Ethlambda.Chain.Production

namespace Ethlambda.Chain

open Ethlambda.Base Ethlambda.Types Ethlambda.Storage Ethlambda.StateTransition Ethlambda.ForkChoice

set_option linter.unusedSectionVars false

variable {H : Type} [LinearOrder H] [Zero H] {host : Host H} {s s' : Store H} {g : State H}
  {validators : List Validator} {root : H} {ε : Type}

section Signatures

/-- What the signature library promises: bytes decode to what they were made of, and an aggregate of
valid signatures verifies for their keys in the order of the signatures. -/
structure SoundSignatures (host : Host H) : Prop where
  decode : ∀ sig, host.signatureFromBytes (host.signatureToBytes sig) = some sig
  decodeAggregate : ∀ aggregate, host.aggregateFromBytes (host.aggregateToBytes aggregate) =
    some aggregate
  aggregate : ∀ keys signatures message slot aggregate,
    host.xmssAggregateSignatures keys signatures message slot = some aggregate →
    List.Forall₂ (fun sig key ↦ host.isValid sig key slot message = true) signatures keys →
    host.xmssVerifyAggregatedSignatures keys message aggregate slot = true

theorem aggregateSignatures_eq_ok {keys : List host.PublicKey} {signatures : List host.Signature}
    {message : H} {slot : UInt32} {bytes : ByteListMiB}
    (h : host.aggregateSignatures keys signatures message slot = .ok bytes) :
    keys ≠ [] ∧ ∃ aggregate, host.xmssAggregateSignatures keys signatures message slot =
      some aggregate ∧ bytes.toList = host.aggregateToBytes aggregate := by
  unfold Host.aggregateSignatures at h
  split at h
  · cases h
  split at h
  · cases h
  rename_i hne
  refine ⟨hne, ?_⟩
  split at h
  · cases h
  rename_i aggregate hmade
  dsimp only at h
  split at h
  · cases h
  rename_i made hnew
  rw [← Except.ok.inj h]
  exact ⟨aggregate, hmade, (VariableList.new_eq_some.mp hnew)⟩

/-- An aggregate that was put together from valid signatures verifies. -/
theorem SoundSignatures.verifies (hsound : SoundSignatures host) {keys : List host.PublicKey}
    {signatures : List host.Signature} {message : H} {slot : UInt32} {bytes : ByteListMiB}
    (h : host.aggregateSignatures keys signatures message slot = .ok bytes)
    (hvalid : List.Forall₂ (fun sig key ↦ host.isValid sig key slot message = true)
      signatures keys) : host.verifyAggregatedSignature bytes keys message slot = .ok () := by
  obtain ⟨-, aggregate, hmade, hbytes⟩ := aggregateSignatures_eq_ok h
  have hverify := hsound.aggregate keys signatures message slot aggregate hmade hvalid
  unfold Host.verifyAggregatedSignature
  rw [hbytes, hsound.decodeAggregate]
  exact if_pos hverify

end Signatures

section Proven

/-- The stored bytes are a signature of the data by the key that the validator is registered with. -/
def SignatureVerifies (host : Host H) (validators : List Validator) (v : UInt64)
    (stored : StoredSignature) (data : AttestationData H) : Prop :=
  data.slot.toNat < 2 ^ 32 ∧ ∃ key sig, keyOf host validators v.toNat = some key ∧
    stored.toValidatorSignature host = some sig ∧
    host.isValid sig key data.slot.toUInt32 (host.attestationData data) = true

/-- The proof is valid for data with the root it is filed under. -/
def PayloadVerifies (host : Host H) (validators : List Validator)
    (e : SignatureKey H × StoredAggregatedPayload) : Prop :=
  ∃ data, host.attestationData data = e.1.2 ∧ ProofVerifies host validators data e.2.proof

/-- Every signature and every proof that the store has is valid. -/
structure Proven (host : Host H) (validators : List Validator) (s : Store H) : Prop where
  gossip : ∀ key stored, s.gossipSignatures.lookup key = some stored →
    ∃ data, host.attestationData data = key.2 ∧
      SignatureVerifies host validators key.1 stored data
  known : ∀ e ∈ s.knownPayloads.entries, PayloadVerifies host validators e
  new : ∀ e ∈ s.newPayloads.entries, PayloadVerifies host validators e
  filed : DataFiled host s

variable {l : List (SignatureKey H × StoredAggregatedPayload)}

theorem Proven.fewer (h : Proven host validators s) (hf : Fewer s s') :
    Proven host validators s' := by
  refine ⟨fun key stored hk ↦ h.gossip key stored (hf.gossip key stored hk), ?_, ?_,
    (dataFiled_invariant host).fewer h.filed hf⟩
  · rw [hf.knownPayloads]
    exact h.known
  · rw [hf.newPayloads]
    exact h.new

theorem Proven.promote (h : Proven host validators s) :
    Proven host validators s.promoteNewAggregatedPayloads := by
  refine ⟨h.gossip, fun e he ↦ ?_, fun e he ↦ absurd he List.not_mem_nil, h.filed⟩
  cases mem_entries_pushBatch he with
  | inl he => exact h.known e he
  | inr he => exact h.new e he

theorem Proven.insertNew (h : Proven host validators s)
    (hl : ∀ e ∈ l, PayloadVerifies host validators e) :
    Proven host validators (s.insertNewAggregatedPayloadsBatch l) := by
  refine ⟨h.gossip, h.known, fun e he ↦ ?_, h.filed⟩
  cases mem_entries_pushBatch he with
  | inl he => exact h.new e he
  | inr he => exact hl e he

theorem Proven.insertKnown (h : Proven host validators s)
    (hl : ∀ e ∈ l, PayloadVerifies host validators e) :
    Proven host validators (s.insertKnownAggregatedPayloadsBatch l) := by
  refine ⟨h.gossip, fun e he ↦ ?_, h.new, h.filed⟩
  cases mem_entries_pushBatch he with
  | inl he => exact h.known e he
  | inr he => exact hl e he

theorem Proven.insertData (h : Proven host validators s) (data : AttestationData H) :
    Proven host validators (s.insertAttestationDataByRoot (host.attestationData data) data) :=
  ⟨h.gossip, h.known, h.new, h.filed.insertData data⟩

theorem Proven.insertGossip (hsound : SoundSignatures host) (h : Proven host validators s)
    {data : AttestationData H} {v : UInt64} {sig : host.Signature} {key : host.PublicKey}
    (hnarrow : data.slot.toNat < 2 ^ 32) (hkey : keyOf host validators v.toNat = some key)
    (hvalid : host.isValid sig key data.slot.toUInt32 (host.attestationData data) = true) :
    Proven host validators
      (s.insertGossipSignature host (host.attestationData data) data.slot v sig) := by
  refine ⟨fun k stored hk ↦ ?_, h.known, h.new, h.filed⟩
  rw [Store.insertGossipSignature, Table.lookup_insert_eq_ite] at hk
  split at hk
  · rename_i hpair
    rw [hpair, ← Option.some.inj hk]
    exact ⟨data, rfl, hnarrow, key, sig, hkey, hsound.decode sig, hvalid⟩
  · exact h.gossip k stored hk

theorem proven_quiet (host : Host H) (validators : List Validator) :
    Quiet host (Proven host validators) where
  clock := fun _ h ↦ h.fewer (.of_eq rfl rfl rfl rfl)
  promote := Proven.promote
  updateHead := by
    intro ε s r s' h hr
    obtain ⟨_, -, rfl⟩ := updateHead_eq_ok hr
    exact h.fewer (.of_eq rfl rfl rfl rfl)
  updateSafeTarget := by
    intro ε s r s' h hr
    obtain rfl | ⟨_, -, rfl⟩ := updateSafeTarget_eq_ok hr
    · exact h
    · exact h.fewer (.of_eq rfl rfl rfl rfl)

end Proven

section Aggregates

/-- Each proof of an aggregation is that of an aggregate for the data stored under its root. -/
def Returned (s : Store H) (acc : Aggregation H) : Prop :=
  ∀ e ∈ acc.payloadEntries, ∃ aggregate ∈ acc.newAggregates, e.2.proof = aggregate.proof ∧
    s.getAttestationDataByRoot e.1.2 = some aggregate.data

theorem aggregateGroup_returned {acc acc' : Aggregation H}
    {group : H × List (UInt64 × host.Signature)} (hacc : Returned s acc)
    (h : (aggregateGroup host s validators acc group : Exec ε _) = .ok acc') : Returned s acc' := by
  unfold aggregateGroup at h
  cases hdata : s.getAttestationDataByRoot group.1 with
  | none =>
    rw [hdata] at h
    rw [← Except.ok.inj h]
    exact hacc
  | some data =>
    rw [hdata] at h
    dsimp only at h
    split at h
    · rw [← Except.ok.inj h]
      exact hacc
    split at h
    · rw [← Except.ok.inj h]
      exact hacc
    obtain ⟨participants, -, h⟩ := Exec.bind_eq_ok.mp h
    rw [← Except.ok.inj h]
    intro e he
    cases List.mem_append.mp he with
    | inl he =>
      obtain ⟨aggregate, hmem, heq⟩ := hacc e he
      exact ⟨aggregate, List.mem_append_left _ hmem, heq⟩
    | inr he =>
      obtain ⟨vid, -, rfl⟩ := List.mem_map.mp he
      exact ⟨_, List.mem_append_right _ List.mem_cons_self, rfl, hdata⟩

/-- What an aggregation leaves behind: the signatures it used up are gone, and its proofs are those
of the aggregates that it returns. -/
theorem aggregateCommitteeSignatures_returned {r : Except ε (List (SignedAggregatedAttestation H))}
    (h : aggregateCommitteeSignatures host s = .ok (r, s')) :
    s' = s ∨ ∃ acc keys, r = .ok acc.newAggregates ∧ Returned s acc ∧
      s' = (s.insertNewAggregatedPayloadsBatch acc.payloadEntries).deleteGossipSignatures keys := by
  unfold aggregateCommitteeSignatures at h
  rw [Op.get_bind] at h
  dsimp only at h
  split at h
  · obtain ⟨-, rfl⟩ := Prod.mk.inj (Except.ok.inj h)
    exact .inl rfl
  rcases Op.bind_eq_ok.mp h with ⟨headState, t, hlift, hrest⟩ | ⟨e, he, -⟩
  · obtain ⟨-, rfl⟩ := Op.lift_eq_ok_ok.mp hlift
    rcases Op.bind_eq_ok.mp hrest with ⟨acc, u, hlift', hwrite⟩ | ⟨e, he, -⟩
    · obtain ⟨hacc, rfl⟩ := Op.lift_eq_ok_ok.mp hlift'
      obtain ⟨rfl, rfl⟩ := Prod.mk.inj (Except.ok.inj hwrite)
      refine .inr ⟨acc, acc.keysToDelete, rfl, ?_, rfl⟩
      exact Runs.run_invariant (P := Returned u) (fun _ _ _ hi hs ↦ aggregateGroup_returned hi hs)
        (fun e he ↦ absurd he List.not_mem_nil) hacc
    · obtain ⟨rfl, -⟩ := Op.lift_eq_ok.mp he
      exact .inl rfl
  · obtain ⟨rfl, -⟩ := Op.lift_eq_ok.mp he
    exact .inl rfl

/-- An aggregate of checked signatures verifies where the table hands them out in the order of their
validators. -/
theorem MadeFor.verifies (hsound : SoundSignatures host)
    (hinj : Function.Injective host.attestationData) (hproven : Proven host validators s)
    {aggregate : SignedAggregatedAttestation H} (h : MadeFor host s validators root aggregate)
    (hascending : Ascending host validators (s.iterGossipSignatures host) root) :
    host.attestationData aggregate.data = root ∧
      ProofVerifies host validators aggregate.data aggregate.proof := by
  have hroot : host.attestationData aggregate.data = root := hproven.filed _ _ h.data_eq
  obtain ⟨rebuilt, hrebuilt, hsame, -⟩ := h.same_keys
  have hproof := h.proof_eq
  have hsigners : ∀ p ∈ signersOf host validators (s.iterGossipSignatures host) root,
      aggregate.data.slot.toNat < 2 ^ 32 ∧
        host.isValid p.2.2 p.2.1 aggregate.data.slot.toUInt32 root = true := by
    intro p hp
    obtain ⟨e, he, heq⟩ := List.mem_filterMap.mp hp
    obtain ⟨hkey, hpubkey⟩ := signer_key heq
    have hlookup := Table.mem_pairs.mp (host.mem_order.mp he)
    obtain ⟨data, hdata, hnarrow, key, sig, hregistered, hstored, hvalid⟩ :=
      hproven.gossip e.1 e.2 hlookup
    rw [hkey] at hdata hregistered
    obtain rfl := hinj (hdata.trans hroot.symm)
    obtain rfl := Option.some.inj (hpubkey.symm.trans hregistered)
    have hsig : p.2.2 = sig := by
      rw [if_pos (congrArg Prod.snd hkey)] at heq
      obtain ⟨stored, hbytes, heq⟩ := Option.bind_eq_some_iff.mp heq
      obtain ⟨validator, -, heq⟩ := Option.bind_eq_some_iff.mp heq
      obtain ⟨pubkey, -, heq⟩ := Option.bind_eq_some_iff.mp heq
      rw [← Option.some.inj heq]
      exact Option.some.inj (hbytes.symm.trans hstored)
    rw [hsig, ← hroot]
    exact ⟨hnarrow, hvalid⟩
  have hvalid : List.Forall₂
      (fun sig key ↦ host.isValid sig key aggregate.data.slot.toUInt32 root = true)
      (passedSignatures host validators (s.iterGossipSignatures host) root)
      (passedKeys host validators (s.iterGossipSignatures host) root) := by
    rw [passedSignatures, passedKeys, knownSigners_group, List.forall₂_map_left_iff,
      List.forall₂_map_right_iff, List.forall₂_same]
    exact fun p hp ↦ (hsigners p hp).2
  have hnarrow : aggregate.data.slot.toNat < 2 ^ 32 := by
    obtain ⟨hne, -⟩ := aggregateSignatures_eq_ok hproof
    rw [passedKeys, knownSigners_group, ne_eq, List.map_eq_nil_iff] at hne
    obtain ⟨p, hp⟩ := List.exists_mem_of_ne_nil _ hne
    exact (hsigners p hp).1
  refine ⟨hroot, hnarrow, rebuilt, participantKeys_eq_ok.mp hrebuilt, ?_⟩
  rw [← hsame hascending, hroot]
  exact hsound.verifies hproof hvalid

end Aggregates

section Ticks

variable {I J : Store H → Prop} {isAggregator hasProposal : Bool} {timestampMs : UInt64}
  {Q : SignedAggregatedAttestation H → Prop}

theorem Quiet.and (hI : Quiet host I) (hJ : Quiet host J) : Quiet host fun s ↦ I s ∧ J s where
  clock := fun time h ↦ ⟨hI.clock time h.1, hJ.clock time h.2⟩
  promote := fun h ↦ ⟨hI.promote h.1, hJ.promote h.2⟩
  updateHead := fun s r s' h hr ↦ ⟨hI.updateHead s r s' h.1 hr, hJ.updateHead s r s' h.2 hr⟩
  updateSafeTarget := fun s r s' h hr ↦
    ⟨hI.updateSafeTarget s r s' h.1 hr, hJ.updateSafeTarget s r s' h.2 hr⟩

/-- From stores with `I` the computation returns only what meets `Q`. -/
def Yields (I : Store H → Prop) (Q : SignedAggregatedAttestation H → Prop)
    (x : Op (Store H) ε (List (SignedAggregatedAttestation H))) : Prop :=
  ∀ s l s', I s → x s = .ok (.ok l, s') → ∀ a ∈ l, Q a

theorem Yields.none {β : Type} {x : Op (Store H) ε β} : Yields I Q (x >>= fun _ ↦ pure []) := by
  intro s l s' _ h a ha
  obtain ⟨_, _, -, h⟩ := Op.bind_eq_ok_ok.mp h
  obtain ⟨hl, -⟩ := Prod.mk.inj (Except.ok.inj h)
  rw [← Except.ok.inj hl] at ha
  exact absurd ha List.not_mem_nil

theorem Quiet.processInterval_yields
    (haggregate : isAggregator = true → Yields I Q (aggregateCommitteeSignatures host :
      Op (Store H) ε _)) (interval : ℕ) (signal : Bool) :
    Yields I Q (Chain.processInterval host interval signal isAggregator : Op (Store H) ε _) := by
  have hnone : Yields I Q (pure [] : Op (Store H) ε _) := Yields.none (x := pure ())
  unfold Chain.processInterval
  split
  · split
    · exact .none
    · exact hnone
  · exact hnone
  · split
    · rename_i ha
      exact haggregate ha
    · exact hnone
  · exact .none
  · exact .none
  · intro s l s' _ h
    obtain ⟨h, -⟩ := Op.lift_eq_ok_ok.mp h
    cases h

theorem Quiet.tickIntervals_yields (hI : Quiet host I)
    (hkeeps : isAggregator = true → Op.Keeps I (aggregateCommitteeSignatures host :
      Op (Store H) ε _))
    (haggregate : isAggregator = true → Yields I Q (aggregateCommitteeSignatures host :
      Op (Store H) ε _)) (time turns : ℕ) :
    Yields I Q (Chain.tickIntervals host time hasProposal isAggregator turns :
      Op (Store H) ε _) := by
  induction turns with
  | zero => exact Yields.none (x := pure ())
  | succ turns ih =>
    intro s l s' h hr
    rw [Chain.tickIntervals, Op.get_bind] at hr
    split at hr
    · rw [Op.modify_bind, Op.get_bind] at hr
      have hclock := hI.clock (s.time + 1) h
      obtain ⟨new, t, hnew, hr⟩ := Op.bind_eq_ok_ok.mp hr
      obtain ⟨rest, u, hrest, hr⟩ := Op.bind_eq_ok_ok.mp hr
      obtain ⟨hl, -⟩ := Prod.mk.inj (Except.ok.inj hr)
      rw [← Except.ok.inj hl]
      intro a ha
      cases List.mem_append.mp ha with
      | inl ha => exact Quiet.processInterval_yields haggregate _ _ _ _ _ hclock hnew a ha
      | inr ha =>
        have ht := hI.processInterval hkeeps _ _ _ _ _ hclock hnew
        exact ih t rest u ht hrest a ha
    · obtain ⟨hl, -⟩ := Prod.mk.inj (Except.ok.inj hr)
      rw [← Except.ok.inj hl]
      exact fun a ha ↦ absurd ha List.not_mem_nil

/-- What a tick returns is what its aggregations return. -/
theorem Quiet.onTick_yields (hI : Quiet host I)
    (hkeeps : isAggregator = true → Op.Keeps I (aggregateCommitteeSignatures host :
      Op (Store H) ε _))
    (haggregate : isAggregator = true → Yields I Q (aggregateCommitteeSignatures host :
      Op (Store H) ε _)) :
    Yields I Q (Chain.onTick host timestampMs hasProposal isAggregator : Op (Store H) ε _) := by
  intro s l s' h hr
  rw [Chain.onTick, Op.get_bind] at hr
  obtain ⟨_, t, hlift, hr⟩ := Op.bind_eq_ok_ok.mp hr
  obtain ⟨-, rfl⟩ := Op.lift_eq_ok_ok.mp hlift
  obtain ⟨_, u, hjump, hr⟩ := Op.bind_eq_ok_ok.mp hr
  have hu : I u := by
    split at hjump
    · obtain ⟨-, rfl⟩ := Prod.mk.inj (Except.ok.inj hjump)
      exact hI.clock _ h
    · obtain ⟨-, rfl⟩ := Prod.mk.inj (Except.ok.inj hjump)
      exact h
  rw [Op.get_bind] at hr
  exact hI.tickIntervals_yields hkeeps haggregate _ _ u l s' hu hr

end Ticks

section Run

variable {n : ℕ}

theorem OnChain.validators_eq {th : TreeHash H} {st : State H} (h : OnChain th g root st) :
    st.validators = g.validators := by
  obtain ⟨blocks, u, hu, -, rfl⟩ := h
  have hfixed : u.validators = g.validators := Runs.run_invariant
    (P := fun st : State H ↦ st.validators = g.validators)
    (fun _ _ _ hi hs ↦ (stateTransition_fixed hs).2.trans hi) rfl hu
  exact hfixed

/-- All states are of the chain, and all signatures and proofs are valid for its validators. -/
def Sealed (host : Host H) (g : State H) (s : Store H) : Prop :=
  StatesOnChain host g s ∧ Proven host g.validators.toList s

/-- The other table has no further signatures, and these stand as before. -/
def SignaturesLeft (s t : Store H) : Prop :=
  (Table.pairs t.gossipSignatures).Sublist (Table.pairs s.gossipSignatures)

/-- Where a node aggregates, its table hands out the signatures over one root in the order of their
validators, however many of them are left. -/
def OrderedTick (host : Host H) (validators : List Validator) (p : Store H × Call H) : Prop :=
  ∀ time hasProposal, p.2 = .onTick time hasProposal true → ∀ t, SignaturesLeft p.1 t →
    ∀ root, Ascending host validators (t.iterGossipSignatures host) root

theorem signaturesLeft_quiet (host : Host H) (s : Store H) : Quiet host (SignaturesLeft s) where
  clock := fun _ h ↦ h
  promote := fun h ↦ h
  updateHead := by
    intro ε t r t' h hr
    obtain ⟨_, -, rfl⟩ := updateHead_eq_ok hr
    exact h
  updateSafeTarget := by
    intro ε t r t' h hr
    obtain rfl | ⟨_, -, rfl⟩ := updateSafeTarget_eq_ok hr
    · exact h
    · exact h

theorem sealed_quiet (hh : HashSound host) (hg : Origin host.toTreeHash n g) :
    Quiet host (Sealed host g) :=
  (statesOnChain_invariant hh hg).steady.ticking.quiet.and (proven_quiet host g.validators.toList)

/-- What an aggregate has to be for others to accept it. -/
def Attested (host : Host H) (validators : List Validator)
    (aggregate : SignedAggregatedAttestation H) : Prop :=
  ProofVerifies host validators aggregate.data aggregate.proof

theorem verifyAggregatedSignature_enumerating {e : Enumeration} (bytes : ByteListMiB)
    (keys : List host.PublicKey) (message : H) (slot : UInt32) :
    (enumerating host e).verifyAggregatedSignature bytes keys message slot =
      host.verifyAggregatedSignature bytes keys message slot := by
  unfold Host.verifyAggregatedSignature
  dsimp only [enumerating]
  cases host.aggregateFromBytes bytes.toList with
  | none => rfl
  | some aggregate => rfl

/-- The order of the tables is no matter for a proof. -/
theorem ProofVerifies.enumerating {e : Enumeration} {data : AttestationData H}
    {proof : AggregatedSignatureProof} (h : ProofVerifies host validators data proof) :
    ProofVerifies (enumerating host e) validators data proof := by
  obtain ⟨hnarrow, keys, hkeys, hverify⟩ := h
  exact ⟨hnarrow, keys, hkeys, (verifyAggregatedSignature_enumerating _ _ _ _).trans hverify⟩

theorem Sealed.aggregate (hsound : SoundSignatures host)
    (hinj : Function.Injective host.attestationData) (hh : HashSound host)
    (hg : Origin host.toTreeHash n g) (h : Sealed host g s)
    (hascending : ∀ root, Ascending host g.validators.toList (s.iterGossipSignatures host) root)
    {r : Except ε (List (SignedAggregatedAttestation H))}
    (hr : aggregateCommitteeSignatures host s = .ok (r, s')) :
    (Sealed host g s' ∧ SignaturesLeft s s') ∧
      ∀ aggregates, r = .ok aggregates → ∀ a ∈ aggregates, Attested host g.validators.toList a := by
  have hmade : ∀ aggregates, r = .ok aggregates → ∀ a ∈ aggregates,
      Attested host g.validators.toList a := by
    rintro aggregates rfl a ha
    obtain ⟨headState, root, hstate, hmade⟩ := aggregateCommitteeSignatures_made hr a ha
    have hvalidators := (h.1 s.head headState hstate).validators_eq
    rw [hvalidators] at hmade
    exact (hmade.verifies hsound hinj h.2 (hascending root)).2
  have hstates : StatesOnChain host g s' :=
    (statesOnChain_invariant hh hg).steady.ticking.aggregate s r s' h.1 hr
  refine ⟨?_, hmade⟩
  obtain rfl | ⟨acc, keys, rfl, hreturned, rfl⟩ := aggregateCommitteeSignatures_returned hr
  · exact ⟨h, .refl _⟩
  have hinsert : Proven host g.validators.toList
      (s.insertNewAggregatedPayloadsBatch acc.payloadEntries) := by
    refine h.2.insertNew fun e he ↦ ?_
    obtain ⟨a, ha, hproof, hdata⟩ := hreturned e he
    refine ⟨a.data, h.2.filed e.1.2 a.data hdata, ?_⟩
    rw [hproof]
    exact hmade acc.newAggregates rfl a ha
  have hfewer := fewer_deleteGossipSignatures
    (s.insertNewAggregatedPayloadsBatch acc.payloadEntries) keys
  exact ⟨⟨hstates, hinsert.fewer hfewer⟩, Table.pairs_retain_sublist _ _⟩

/-- A tick keeps all proofs valid and returns aggregates that others accept. -/
theorem Sealed.onTick (hsound : SoundSignatures host)
    (hinj : Function.Injective host.attestationData) (hh : HashSound host)
    (hg : Origin host.toTreeHash n g) (h : Sealed host g s) {time : UInt64}
    {hasProposal isAggregator : Bool} (hordered : OrderedTick host g.validators.toList
      (s, .onTick time hasProposal isAggregator))
    {r : Except ε (List (SignedAggregatedAttestation H))}
    (hr : Chain.onTick host time hasProposal isAggregator s = .ok (r, s')) :
    Sealed host g s' ∧
      ∀ aggregates, r = .ok aggregates → ∀ a ∈ aggregates, Attested host g.validators.toList a := by
  have hquiet := (sealed_quiet hh hg).and (signaturesLeft_quiet host s)
  have haggregate (ha : isAggregator = true) {t t' : Store H}
      {r : Except ε (List (SignedAggregatedAttestation H))}
      (ht : Sealed host g t ∧ SignaturesLeft s t)
      (hr : aggregateCommitteeSignatures host t = .ok (r, t')) :
      (Sealed host g t' ∧ SignaturesLeft s t') ∧
        ∀ aggregates, r = .ok aggregates → ∀ a ∈ aggregates,
          Attested host g.validators.toList a := by
    obtain ⟨⟨hkept, hleft⟩, hmade⟩ := ht.1.aggregate hsound hinj hh hg
      (hordered time hasProposal (by rw [ha]) t ht.2) hr
    exact ⟨⟨hkept, List.Sublist.trans hleft ht.2⟩, hmade⟩
  have hstart : Sealed host g s ∧ SignaturesLeft s s := ⟨h, .refl _⟩
  constructor
  · exact (hquiet.onTick (fun ha t r t' ht hr ↦ (haggregate ha ht hr).1) time hasProposal s r s' hstart
      hr).1
  · rintro aggregates rfl
    exact hquiet.onTick_yields (fun ha t r t' ht hr ↦ (haggregate ha ht hr).1)
      (fun ha t l t' ht hr ↦ (haggregate ha ht hr).2 l rfl) s aggregates s' hstart hr

theorem payloadVerifies_participantEntries {aggregated : SignedAggregatedAttestation H}
    (h : Attested host validators aggregated) :
    ∀ e ∈ participantEntries host aggregated, PayloadVerifies host validators e := by
  intro e he
  obtain ⟨vid, -, rfl⟩ := List.mem_map.mp he
  exact ⟨aggregated.data, rfl, h⟩

theorem slot32_eq_ok {slot : UInt64} {slot' : UInt32} (h : (slot32 slot : Exec ε UInt32) = .ok slot') :
    slot.toNat < 2 ^ 32 ∧ slot' = slot.toUInt32 := by
  by_cases hlt : slot.toNat < 2 ^ 32
  · rw [slot32_of_lt hlt] at h
    exact ⟨hlt, (Except.ok.inj h).symm⟩
  · rw [slot32_of_le (Nat.not_lt.mp hlt)] at h
    cases h

theorem keyOf_lt {vid : ℕ} {key : host.PublicKey} (h : keyOf host validators vid = some key) :
    vid < validators.length := by
  obtain ⟨v, hv, -⟩ := Option.bind_eq_some_iff.mp h
  exact (List.getElem?_eq_some_iff.mp hv).1

/-- A node accepts the aggregates that it may vote for and that verify for the validators of the
target's state. -/
theorem verifyGossipAggregate_eq_ok {aggregated : SignedAggregatedAttestation H} :
    verifyGossipAggregate host s aggregated = .ok () ↔
      validateAttestationData s aggregated.data = .ok () ∧
      ∃ st, s.states.lookup aggregated.data.target.root = some st ∧
        Attested host st.validators.toList aggregated := by
  constructor
  · intro h
    obtain ⟨_, hvalid, h⟩ := Exec.bind_eq_ok.mp h
    obtain ⟨st, hst, h⟩ := Exec.bind_eq_ok.mp h
    dsimp only at h
    split at h
    · cases h
    obtain ⟨keys, hkeys, h⟩ := Exec.bind_eq_ok.mp h
    obtain ⟨slot, hslot, h⟩ := Exec.bind_eq_ok.mp h
    obtain ⟨hnarrow, rfl⟩ := slot32_eq_ok hslot
    exact ⟨hvalid, st, okOr_eq_ok.mp hst, hnarrow, keys, participantKeys_eq_ok.mp hkeys,
      checkAggregate_eq_ok.mp h⟩
  · rintro ⟨hvalid, st, hst, hnarrow, keys, hkeys, hverify⟩
    have hlow : ¬(aggregated.proof.participantIndices.any
        fun vid ↦ decide (st.validators.len ≤ vid)) = true := by
      rw [List.any_eq_true]
      rintro ⟨vid, hvid, hle⟩
      obtain ⟨key, -, hkey⟩ := exists_of_forall₂_right hkeys.flip hvid
      exact absurd (keyOf_lt hkey) (Nat.not_lt.mpr (of_decide_eq_true hle))
    unfold verifyGossipAggregate Store.getState
    dsimp only
    rw [hvalid, Exec.ok_bind, hst, okOr, Exec.ok_bind, if_neg hlow,
      participantKeys_eq_ok.mpr hkeys, Exec.ok_bind, slot32_of_lt hnarrow, Exec.ok_bind]
    exact checkAggregate_eq_ok.mpr hverify

/-- A signature that a node checks is one of the validator's key in the target's state. -/
theorem verifyGossipAttestation_eq_ok {signed : SignedAttestation H} {sig : host.Signature}
    (h : verifyGossipAttestation host s signed = .ok sig) :
    ∃ st key, s.states.lookup signed.data.target.root = some st ∧
      signed.data.slot.toNat < 2 ^ 32 ∧
      keyOf host st.validators.toList signed.validatorId.toNat = some key ∧
      host.isValid sig key signed.data.slot.toUInt32 (host.attestationData signed.data) = true := by
  obtain ⟨_, -, h⟩ := Exec.bind_eq_ok.mp h
  obtain ⟨st, hst, h⟩ := Exec.bind_eq_ok.mp h
  split at h
  · cases h
  obtain ⟨v, hv, h⟩ := Exec.bind_eq_ok.mp h
  obtain ⟨key, hkey, h⟩ := Exec.bind_eq_ok.mp h
  obtain ⟨slot, hslot, h⟩ := Exec.bind_eq_ok.mp h
  obtain ⟨hnarrow, rfl⟩ := slot32_eq_ok hslot
  obtain ⟨sig', -, h⟩ := Exec.bind_eq_ok.mp h
  split at h
  · rename_i hvalid
    obtain rfl := Except.ok.inj h
    exact ⟨st, key, okOr_eq_ok.mp hst, hnarrow,
      Option.bind_eq_some_iff.mpr ⟨v, Exec.index_eq_ok.mp hv, okOr_eq_ok.mp hkey⟩, hvalid⟩
  · cases h

theorem signedBy_of_verifyProposer {sb : SignedBlockWithAttestation H}
    (h : verifyProposer host validators sb = .ok ()) :
    SignedBy host validators sb.message.block.proposerIndex sb := by
  unfold verifyProposer at h
  dsimp only at h
  split at h
  · cases h
  rename_i hsame
  obtain ⟨sig, hsig, h⟩ := Exec.bind_eq_ok.mp h
  obtain ⟨v, hv, h⟩ := Exec.bind_eq_ok.mp h
  obtain ⟨key, hkey, h⟩ := Exec.bind_eq_ok.mp h
  obtain ⟨slot, hslot, h⟩ := Exec.bind_eq_ok.mp h
  obtain ⟨hnarrow, rfl⟩ := slot32_eq_ok hslot
  split at h
  · rename_i hvalid
    exact ⟨not_not.mp hsame, hnarrow, sig, key, okOr_eq_ok.mp hsig,
      Option.bind_eq_some_iff.mpr ⟨v, okOr_eq_ok.mp hv, okOr_eq_ok.mp hkey⟩, hvalid⟩
  · cases h

theorem payloadVerifies_knownEntries {sb : SignedBlockWithAttestation H}
    (h : verifyAttestations host validators (provedAttestations sb) = .ok ()) :
    ∀ e ∈ knownEntries host sb, PayloadVerifies host validators e := by
  intro e he
  obtain ⟨p, hp, he⟩ := List.mem_flatMap.mp he
  obtain ⟨vid, -, rfl⟩ := List.mem_map.mp he
  obtain ⟨⟨hbits, -⟩, hnarrow, keys, hkeys, hverify⟩ := verifyAttestations_eq_ok.mp h p hp
  rw [hbits] at hkeys
  exact ⟨p.1.data, rfl, hnarrow, keys, hkeys, hverify⟩

theorem Proven.writeBlock (h : Proven host validators s) {sb : SignedBlockWithAttestation H}
    (hproved : verifyAttestations host validators (provedAttestations sb) = .ok ())
    (post : State H) : Proven host validators (writeBlock host sb post s) := by
  have hstored : Proven host validators (((s.insertSignedBlock host (host.block sb.message.block)
      sb).insertState (host.block sb.message.block) post).insertAttestationDataByRootBatch
        (attestationDataEntries host sb)) :=
    ⟨h.gossip, h.known, h.new, DataFiled.putBatch (attestationDataEntries_filed host sb) h.filed⟩
  exact hstored.insertKnown (payloadVerifies_knownEntries hproved)

theorem Proven.recordBlock (h : Proven host validators s) {sb : SignedBlockWithAttestation H}
    (hproved : verifyAttestations host validators (provedAttestations sb) = .ok ())
    (post : State H) : Proven host validators (recordBlock host sb post s) :=
  (h.fewer (fewer_adoptCheckpoints host s post)).writeBlock hproved post

/-- What a step does to a store whose signatures and proofs are all valid. -/
theorem Sealed.step (hsound : SoundSignatures host)
    (hinj : Function.Injective host.attestationData) (hh : HashSound host)
    (hg : Origin host.toTreeHash n g) (h : Sealed host g s) {c : Call H}
    (hordered : OrderedTick host g.validators.toList (s, c))
    (hs : Call.step host s c = .ok s') : Sealed host g s' := by
  have hstates : StatesOnChain host g s' := Call.step_keeps (statesOnChain_invariant hh hg).steady
    (fun _ hon ↦ hon.pruneOldData) h.1 hs
  have hvalidators {r : H} {st : State H} (hst : s.states.lookup r = some st) :
      st.validators.toList = g.validators.toList := by rw [(h.1 r st hst).validators_eq]
  refine ⟨hstates, (proven_quiet host g.validators.toList).step Proven.fewer h.2 hs ?_ ?_ ?_ ?_⟩
  · rintro time hasProposal r rfl hr
    exact (h.onTick hsound hinj hh hg hordered hr).1.2
  · intro signed ids sig _ hsig
    obtain ⟨st, key, hst, hnarrow, hkey, hvalid⟩ := verifyGossipAttestation_eq_ok hsig
    rw [hvalidators hst] at hkey
    have hdata := h.2.insertData signed.data
    exact ⟨hdata, hdata.insertGossip hsound hnarrow hkey hvalid⟩
  · intro aggregated _ hverify
    obtain ⟨-, st, hst, hattested⟩ := verifyGossipAggregate_eq_ok.mp hverify
    rw [hvalidators hst] at hattested
    exact (h.2.insertData aggregated.data).insertNew (payloadVerifies_participantEntries hattested)
  · intro sb ids post _ _ hpost
    obtain ⟨parent, -, hparent, hverify, -⟩ := postState_eq_ok hpost
    obtain ⟨-, hattestations, hproposer⟩ := verifySignatures_eq_ok.mp (hverify rfl)
    rw [hvalidators hparent] at hattestations hproposer
    have hrecord := h.2.recordBlock hattestations post
    refine ⟨hrecord, fun head sig _ hsig ↦ ?_⟩
    obtain ⟨hvalidator, hnarrow, sig', key, hsig', hkey, hvalid⟩ :=
      signedBy_of_verifyProposer hproposer
    obtain rfl := Option.some.inj (hsig.symm.trans hsig')
    rw [← hvalidator] at hkey
    have hmoved : Proven host g.validators.toList { recordBlock host sb post s with head := head } :=
      hrecord.fewer (.of_eq rfl rfl rfl rfl)
    exact hmoved.insertGossip hsound hnarrow hkey hvalid

/-- A store that calls lead to from a state of the chain, with the signatures in order wherever the
node aggregates. -/
def OrderedRun (host : Host H) (g : State H) (s : Store H) : Prop :=
  ∃ anchor body s₀ calls, Anchored host.toTreeHash g anchor ∧
    Store.initStore host anchor body = .ok s₀ ∧ Call.run host s₀ calls = .ok s ∧
    ∀ p ∈ Runs.trace (Call.step host) s₀ calls, OrderedTick host g.validators.toList p

theorem OrderedRun.sealed (hsound : SoundSignatures host)
    (hinj : Function.Injective host.attestationData) (hh : HashSound host)
    (hg : Origin host.toTreeHash n g) (h : OrderedRun host g s) : Sealed host g s := by
  obtain ⟨anchor, body, s₀, calls, hanchor, h₀, hrun, hordered⟩ := h
  refine Runs.run_invariant_of_trace (P := Sealed host g) (fun t c t' ht hc hs ↦
    ht.step hsound hinj hh hg hc hs) ⟨statesOnChain_initStore hh hg hanchor h₀, ?_⟩ hordered hrun
  obtain ⟨-, rfl⟩ := Store.initStore_eq_ok.mp h₀
  refine ⟨fun _ _ hk ↦ ?_, fun e he ↦ absurd he List.not_mem_nil,
    fun e he ↦ absurd he List.not_mem_nil, fun _ _ hd ↦ ?_⟩
  · cases hk
  · cases hd

theorem Proven.knownProofsVerify (hinj : Function.Injective host.attestationData)
    (h : Proven host validators s) : KnownProofsVerify host validators s := by
  intro e he data hdata
  obtain ⟨data', hroot, hverify⟩ := h.known e he
  obtain rfl := hinj ((h.filed _ _ hdata).trans hroot.symm)
  exact hverify

/-- A node never keeps an invalid signature or proof, whatever it was sent: each proof of either
buffer verifies for the keys of its participants, and each kept signature for its validator's key,
over the data that is stored under its root. -/
theorem stored_proofs_verify (hsound : SoundSignatures host)
    (hinj : Function.Injective host.attestationData) (hh : HashSound host) {time : UInt64}
    (hg : State.fromGenesis host.toTreeHash time validators =
      (.ok g : StateTransition.Result H (State H))) (h : OrderedRun host g s) :
    (∀ e ∈ s.knownPayloads.entries ++ s.newPayloads.entries, ∀ data,
      s.attestationDataByRoot.lookup e.1.2 = some data →
        ProofVerifies host validators data e.2.proof) ∧
    ∀ key stored data, s.gossipSignatures.lookup key = some stored →
      s.attestationDataByRoot.lookup key.2 = some data →
        SignatureVerifies host validators key.1 stored data := by
  obtain ⟨vs, rfl, rfl⟩ := State.fromGenesis_eq_ok hg
  have hproven := (h.sealed hsound hinj hh (origin_genesis host.toTreeHash time vs)).2
  constructor
  · intro e he data hdata
    obtain ⟨data', hroot, hverify⟩ : PayloadVerifies host vs.toList e := by
      cases List.mem_append.mp he with
      | inl he => exact hproven.known e he
      | inr he => exact hproven.new e he
    obtain rfl := hinj ((hproven.filed _ _ hdata).trans hroot.symm)
    exact hverify
  · intro key stored data hstored hdata
    obtain ⟨data', hroot, hverify⟩ := hproven.gossip key stored hstored
    obtain rfl := hinj ((hproven.filed _ _ hdata).trans hroot.symm)
    exact hverify

/-- Every other node accepts what a node aggregates. The aggregates that a tick returns verify at any
node that may vote for their data and has the target's state, whatever its tables look like. -/
theorem published_aggregates_accepted (hsound : SoundSignatures host)
    (hinj : Function.Injective host.attestationData) (hh : HashSound host) {time₀ : UInt64}
    (hg : State.fromGenesis host.toTreeHash time₀ validators =
      (.ok g : StateTransition.Result H (State H))) (h : OrderedRun host g s) {time : UInt64}
    {hasProposal : Bool} (hordered : OrderedTick host validators (s, .onTick time hasProposal true))
    {aggregates : List (SignedAggregatedAttestation H)}
    (htick : (onTick host time hasProposal true : Op (Store H) ε _) s = .ok (.ok aggregates, s'))
    {a : SignedAggregatedAttestation H} (ha : a ∈ aggregates) {e : Enumeration}
    (node : Node (enumerating host e) g)
    (hadmissible : validateAttestationData node.server.store a.data = .ok ())
    {st : State H} (hst : node.server.store.states.lookup a.data.target.root = some st) :
    ∃ t, onGossipAggregatedAttestation (enumerating host e) a node.server.store = .ok (.ok (), t) := by
  obtain ⟨vs, rfl, rfl⟩ := State.fromGenesis_eq_ok hg
  have horigin := origin_genesis host.toTreeHash time₀ vs
  have hattested : Attested host vs.toList a :=
    ((h.sealed hsound hinj hh horigin).onTick hsound hinj hh horigin hordered htick).2 aggregates rfl
      a ha
  have hother : HashSound (enumerating host e) := hh.congr rfl
  have hvalidators := (node.onChain hother horigin _ st hst).validators_eq
  have hverify : verifyGossipAggregate (enumerating host e) node.server.store a = .ok () := by
    refine verifyGossipAggregate_eq_ok.mpr ⟨hadmissible, st, hst, ?_⟩
    rw [hvalidators]
    exact hattested.enumerating
  exact ⟨_, onGossipAggregatedAttestation_of_verified hverify⟩

end Run

section Sample

theorem distinctHost_sound : SoundSignatures distinctHost where
  decode := fun _ ↦ rfl
  decodeAggregate := fun _ ↦ rfl
  aggregate := by
    intro keys signatures message slot aggregate hmade _
    rw [← Option.some.inj hmade]
    exact decide_eq_true rfl

/-- Where the validators of all signatures ascend, those of one root do. -/
theorem orderedTick_of_pairwise {s : Store ℕ} {c : Call ℕ}
    (h : (s.gossipSignatures.keys.map fun key ↦ key.1.toNat).Pairwise (· < ·)) :
    OrderedTick distinctHost validators (s, c) := by
  intro _ _ _ t hleft root
  rw [← Table.map_fst_pairs, List.map_map] at h
  exact (h.sublist (hleft.map _)).sublist (signersOf_sublist _ _ _)

/-- The first block comes in with its proposer's signature, and another vote for it by itself. -/
def keptCalls : List (Call ℕ) :=
  [.onBlock sampleFirst [1], .onGossipAttestation ⟨0, ownVote Sample.first sampleOrigin,
    sampleSignature 0 (ownVote Sample.first sampleOrigin)⟩ [1]]

theorem orderedRun_of_check {calls : List (Call ℕ)} {s : Store ℕ}
    (hcheck : (Runs.trace (Call.step distinctHost) sampleStore calls).all (fun p ↦
      decide ((p.1.gossipSignatures.keys.map fun key ↦ key.1.toNat).Pairwise (· < ·))) = true)
    (hrun : Call.run distinctHost sampleStore calls = .ok s) : OrderedRun distinctHost sampleGenesis s :=
  ⟨sampleGenesis, none, sampleStore, calls, ⟨[], sampleGenesis, 0, rfl, rfl⟩, distinctHost_initStore,
    hrun, fun p hp ↦ orderedTick_of_pairwise (of_decide_eq_true (List.all_eq_true.mp hcheck p hp))⟩

theorem stored_proofs_verify_sample :
    ∃ s, Call.run distinctHost sampleStore (keptCalls ++ [.onTick 5600 false true]) = .ok s ∧
      (s.newPayloads.entries.map fun e ↦ e.2.proof.participantIndices) = [[0, 1], [0, 1]] ∧
      (∀ e ∈ s.knownPayloads.entries ++ s.newPayloads.entries, ∀ data,
        s.attestationDataByRoot.lookup e.1.2 = some data →
          ProofVerifies distinctHost sampleValidators data e.2.proof) ∧
      ∀ key stored data, s.gossipSignatures.lookup key = some stored →
        s.attestationDataByRoot.lookup key.2 = some data →
          SignatureVerifies distinctHost sampleValidators key.1 stored data := by
  have hview : (Call.run distinctHost sampleStore
      (keptCalls ++ [.onTick 5600 false true])).toOption.map
      (fun s ↦ s.newPayloads.entries.map fun e ↦ e.2.proof.participantIndices) =
      some [[0, 1], [0, 1]] := by decide +kernel
  obtain ⟨s, hs, hnew⟩ := Exec.exists_ok_of_map hview
  exact ⟨s, hs, hnew, stored_proofs_verify distinctHost_sound
    sampleHost_attestationData_injective distinctHost_hashSound distinctGenesis_eq
    (orderedRun_of_check (by decide +kernel) hs)⟩

/-- The node that aggregates and one that got the same block on another machine. -/
theorem published_aggregates_accepted_sample :
    ∃ s aggregate s' t t', Call.run distinctHost sampleStore keptCalls = .ok s ∧
      (onTick distinctHost 5600 false true : Op (Store ℕ) (StoreError ℕ) _) s =
        .ok (.ok [aggregate], s') ∧
      (∃ server, Server.run mirroredHost (Server.spawn mirroredHost sampleStore ∅ false)
        [⟨1, .newBlock sampleFirst⟩] = .ok server ∧ server.store = t) ∧
      onGossipAggregatedAttestation mirroredHost aggregate t = .ok (.ok (), t') := by
  have hview₁ : ((Call.run distinctHost sampleStore keptCalls).toOption.bind fun s ↦
      ((onTick distinctHost 5600 false true : Op (Store ℕ) (StoreError ℕ) _) s).toOption.bind
        fun r ↦ r.1.toOption.map fun l ↦
          (decide ((s.gossipSignatures.keys.map fun key ↦ key.1.toNat).Pairwise (· < ·)),
            l.map fun a ↦ a.data)) = some (true, [ownVote Sample.first sampleOrigin]) := by
    decide +kernel
  have hview₂ : (Server.run mirroredHost (Server.spawn mirroredHost sampleStore ∅ false)
      [⟨1, .newBlock sampleFirst⟩]).toOption.map (fun server ↦
        decide ((validateAttestationData server.store
          (ownVote Sample.first sampleOrigin)).toOption = some ()) &&
        (server.store.states.lookup (ownVote Sample.first sampleOrigin).target.root).isSome) =
      some true := by decide +kernel
  obtain ⟨s, hs, hview₁⟩ := Option.bind_eq_some_iff.mp hview₁
  obtain ⟨⟨r, s'⟩, htick, hview₁⟩ := Option.bind_eq_some_iff.mp hview₁
  obtain ⟨aggregates, hr, hview₁⟩ := Option.map_eq_some_iff.mp hview₁
  obtain ⟨hascending, hdata⟩ := Prod.mk.inj hview₁
  obtain ⟨aggregate, rfl, hvote⟩ := List.map_eq_singleton_iff.mp hdata
  have hrun := Exec.eq_ok_of_toOption hs
  obtain rfl : r = .ok [aggregate] := Exec.eq_ok_of_toOption hr
  have htick := Exec.eq_ok_of_toOption htick
  obtain ⟨server, h₂, hview₂⟩ := Exec.exists_ok_of_map hview₂
  obtain ⟨hvalid, hstate⟩ := Bool.and_eq_true_iff.mp hview₂
  obtain ⟨st, hst⟩ := Option.isSome_iff_exists.mp hstate
  rw [← hvote] at hvalid hst
  obtain ⟨t', ht'⟩ := published_aggregates_accepted distinctHost_sound
    sampleHost_attestationData_injective distinctHost_hashSound distinctGenesis_eq
    (orderedRun_of_check (by decide +kernel) hrun)
    (orderedTick_of_pairwise (of_decide_eq_true hascending)) htick List.mem_cons_self
    (mirroredNode h₂) (Exec.eq_ok_of_toOption (of_decide_eq_true hvalid)) hst
  exact ⟨s, aggregate, s', server.store, t', hrun, htick, ⟨server, h₂, rfl⟩, ht'⟩

end Sample

end Ethlambda.Chain
