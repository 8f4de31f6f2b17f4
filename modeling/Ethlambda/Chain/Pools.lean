import Ethlambda.Chain.Reachable

namespace Ethlambda.Chain

open Ethlambda.Base Ethlambda.Types Ethlambda.Storage Ethlambda.StateTransition Ethlambda.ForkChoice

set_option linter.unusedSectionVars false

variable {H : Type} [LinearOrder H] [Zero H] {host : Host H} {s s' : Store H} {ε : Type}

theorem mem_uniqueKeys {b : PayloadBuffer H} {key : SignatureKey H} :
    key ∈ b.uniqueKeys ↔ key ∈ b.entries.map Prod.fst := List.mem_dedup

theorem mem_entries_pushBatch {b : PayloadBuffer H} {e : SignatureKey H × StoredAggregatedPayload}
    {l : List (SignatureKey H × StoredAggregatedPayload)} (h : e ∈ (b.pushBatch l).entries) :
    e ∈ b.entries ∨ e ∈ l := by
  unfold PayloadBuffer.pushBatch at h
  induction l generalizing b with
  | nil => exact .inl h
  | cons a l ih =>
    cases ih h with
    | inl he =>
      cases List.mem_append.mp he with
      | inl he =>
        refine .inl ?_
        split at he
        · exact List.mem_of_mem_drop he
        · exact he
      | inr he => exact .inr (List.mem_singleton.mp he ▸ List.mem_cons_self)
    | inr he => exact .inr (List.mem_cons_of_mem a he)

theorem mem_uniqueKeys_pushBatch {b : PayloadBuffer H}
    {l : List (SignatureKey H × StoredAggregatedPayload)} {key : SignatureKey H}
    (h : key ∈ (b.pushBatch l).uniqueKeys) : key ∈ b.uniqueKeys ∨ key ∈ l.map Prod.fst := by
  obtain ⟨e, he, rfl⟩ := List.mem_map.mp (mem_uniqueKeys.mp h)
  cases mem_entries_pushBatch he with
  | inl he => exact .inl (mem_uniqueKeys.mpr (List.mem_map_of_mem he))
  | inr he => exact .inr (List.mem_map_of_mem he)

/-- The other store has the same buffers and no further signatures or data. -/
structure Fewer (s s' : Store H) : Prop where
  newPayloads : s'.newPayloads = s.newPayloads
  knownPayloads : s'.knownPayloads = s.knownPayloads
  gossip : ∀ k sig, s'.gossipSignatures.lookup k = some sig → s.gossipSignatures.lookup k = some sig
  data : ∀ r d, s'.attestationDataByRoot.lookup r = some d → s.attestationDataByRoot.lookup r = some d

/-- What it takes for ticks and block production to keep an invariant about votes. -/
structure VoteInvariant (I : Store H → Prop) : Prop where
  fewer : ∀ {s s'}, I s → Fewer s s' → I s'
  promote : ∀ {s}, I s → I s.promoteNewAggregatedPayloads
  aggregate : ∀ {s l}, I s → (∀ e ∈ l, ∃ sig, s.gossipSignatures.lookup e.1 = some sig) →
    I (s.insertNewAggregatedPayloadsBatch l)

section Aggregation

/-- The signatures of a group that aggregation uses up. -/
def aggregatedOf (host : Host H) (s : Store H) (validators : List Validator)
    (group : H × List (UInt64 × host.Signature)) : List (SignatureKey H) :=
  match s.getAttestationDataByRoot group.1 with
  | none => []
  | some data =>
    let signers := knownSigners host validators group.2
    match host.aggregateSignatures (signers.map fun p ↦ p.2.1) (signers.map fun p ↦ p.2.2)
        group.1 data.slot.toUInt32 with
    | .error _ => []
    | .ok _ => signers.map fun p ↦ (p.1, group.1)

/-- The signatures that aggregation uses up: those of the groups whose data is stored and whose
signatures can be put together. -/
def aggregatedKeys (host : Host H) (s : Store H) : List (SignatureKey H) :=
  match s.getState s.head with
  | none => []
  | some st => (host.order (Table.pairs (signatureGroups host (s.iterGossipSignatures host)))).flatMap
      (aggregatedOf host s st.validators.toList)

theorem aggregateGroup_eq_ok {validators : List Validator} {acc acc' : Aggregation H}
    {group : H × List (UInt64 × host.Signature)}
    (h : (aggregateGroup host s validators acc group : Exec ε _) = .ok acc') :
    acc'.payloadEntries.map Prod.fst =
        acc.payloadEntries.map Prod.fst ++ aggregatedOf host s validators group ∧
      acc'.keysToDelete = acc.keysToDelete ++ aggregatedOf host s validators group := by
  unfold aggregateGroup at h
  unfold aggregatedOf
  cases hdata : s.getAttestationDataByRoot group.1 with
  | none =>
    rw [hdata] at h
    rw [← Except.ok.inj h]
    simp
  | some data =>
    rw [hdata] at h
    dsimp only at h ⊢
    generalize knownSigners host validators group.2 = signers at h ⊢
    by_cases hids : signers.map (fun p ↦ p.1) = []
    · rw [if_pos hids] at h
      rw [← Except.ok.inj h]
      obtain rfl : signers = [] := List.map_eq_nil_iff.mp hids
      simp [Host.aggregateSignatures]
    · rw [if_neg hids] at h
      cases haggregate : host.aggregateSignatures (signers.map fun p ↦ p.2.1)
          (signers.map fun p ↦ p.2.2) group.1 data.slot.toUInt32 with
      | error e =>
        rw [haggregate] at h
        rw [← Except.ok.inj h]
        simp
      | ok proofData =>
        rw [haggregate] at h
        obtain ⟨participants, -, h⟩ := Exec.bind_eq_ok.mp h
        rw [← Except.ok.inj h]
        simp [Function.comp_def]

theorem foldlM_aggregateGroup_eq_ok {validators : List Validator} {acc acc' : Aggregation H}
    {groups : List (H × List (UInt64 × host.Signature))}
    (h : (groups.foldlM (aggregateGroup host s validators) acc : Exec ε _) = .ok acc') :
    acc'.payloadEntries.map Prod.fst =
        acc.payloadEntries.map Prod.fst ++ groups.flatMap (aggregatedOf host s validators) ∧
      acc'.keysToDelete = acc.keysToDelete ++ groups.flatMap (aggregatedOf host s validators) := by
  induction groups generalizing acc with
  | nil =>
    rw [← Except.ok.inj h]
    simp
  | cons group groups ih =>
    rw [List.foldlM_cons] at h
    obtain ⟨acc₁, h₁, h⟩ := Exec.bind_eq_ok.mp h
    obtain ⟨hentries₁, hkeys₁⟩ := aggregateGroup_eq_ok h₁
    obtain ⟨hentries, hkeys⟩ := ih h
    rw [hentries, hkeys, hentries₁, hkeys₁, List.flatMap_cons, List.append_assoc, List.append_assoc]
    exact ⟨rfl, rfl⟩

/-- A group lists signatures of the table, in the table's order. -/
theorem signatureGroups_sublist (sigs : List (SignatureKey H × StoredSignature)) {r : H}
    {group : List (UInt64 × host.Signature)}
    (h : (signatureGroups host sigs).lookup r = some group) :
    (group.map fun p ↦ (p.1, r)).Sublist (sigs.map Prod.fst) := by
  induction sigs using List.reverseRecOn generalizing r group with
  | nil => exact nomatch h
  | append_singleton sigs e ih =>
    unfold signatureGroups at h ih
    rw [List.foldl_append, List.foldl_cons, List.foldl_nil] at h
    generalize List.foldl _ _ sigs = groups at h ih
    rw [List.map_append]
    cases hsig : e.2.toValidatorSignature host with
    | none =>
      rw [hsig] at h
      exact (ih h).trans (List.sublist_append_left _ _)
    | some sig =>
      rw [hsig] at h
      dsimp only at h
      rw [Table.lookup_insert_eq_ite] at h
      split at h
      · rename_i hr
        subst hr
        rw [← Option.some.inj h, List.map_append]
        refine List.Sublist.append ?_ (.refl _)
        cases hold : groups.lookup e.1.2 with
        | none => exact List.nil_sublist _
        | some old => exact ih hold
      · exact (ih h).trans (List.sublist_append_left _ _)

theorem knownSigners_sublist (validators : List Validator) (group : List (UInt64 × host.Signature)) :
    ((knownSigners host validators group).map fun p ↦ p.1).Sublist (group.map Prod.fst) := by
  unfold knownSigners
  induction group with
  | nil => exact .slnil
  | cons p group ih =>
    rw [List.filterMap_cons]
    split
    · exact ih.cons _
    · rename_i q hq
      obtain ⟨validator, -, hq⟩ := Option.bind_eq_some_iff.mp hq
      obtain ⟨pubkey, -, hq⟩ := Option.bind_eq_some_iff.mp hq
      obtain rfl := Option.some.inj hq
      exact ih.cons_cons _

theorem aggregatedOf_sublist (host : Host H) (s : Store H) (validators : List Validator)
    (group : H × List (UInt64 × host.Signature)) :
    (aggregatedOf host s validators group).Sublist (group.2.map fun p ↦ (p.1, group.1)) := by
  unfold aggregatedOf
  split
  · exact List.nil_sublist _
  · dsimp only
    split
    · exact List.nil_sublist _
    · have hsub := (knownSigners_sublist validators group.2).map fun v ↦ (v, group.1)
      rw [List.map_map, List.map_map] at hsub
      exact hsub

/-- Aggregation uses up signatures of the table, each once. -/
theorem aggregatedKeys_nodup (host : Host H) (s : Store H) :
    (aggregatedKeys host s).Nodup ∧ ∀ key ∈ aggregatedKeys host s, key ∈ s.gossipSignatures.keys := by
  have hsigs : ((s.iterGossipSignatures host).map Prod.fst).Perm s.gossipSignatures.keys := by
    rw [← Table.map_fst_pairs]
    exact (host.order_perm _).map _
  have hnodup : ((s.iterGossipSignatures host).map Prod.fst).Nodup :=
    hsigs.nodup_iff.mpr s.gossipSignatures.keys_nodup
  unfold aggregatedKeys
  split
  · exact ⟨List.nodup_nil, fun key hkey ↦ absurd hkey List.not_mem_nil⟩
  rename_i st hst
  generalize hg : signatureGroups host (s.iterGossipSignatures host) = groups
  have hgroup (group : H × List (UInt64 × host.Signature))
      (hmem : group ∈ host.order (Table.pairs groups)) :
      (aggregatedOf host s st.validators.toList group).Sublist
        ((s.iterGossipSignatures host).map Prod.fst) := by
    refine (aggregatedOf_sublist host s _ group).trans (signatureGroups_sublist _ ?_)
    rw [hg]
    exact Table.mem_pairs.mp (host.mem_order.mp hmem)
  constructor
  · rw [List.nodup_flatMap]
    refine ⟨fun group hmem ↦ hnodup.sublist (hgroup group hmem), ?_⟩
    have hroots : ((host.order (Table.pairs groups)).map Prod.fst).Nodup := by
      refine ((host.order_perm _).map _).nodup_iff.mpr ?_
      rw [Table.map_fst_pairs]
      exact groups.keys_nodup
    refine (List.pairwise_map.mp hroots).imp fun {g g'} hne ↦ ?_
    -- keys of two groups differ in their root
    intro key hkey hkey'
    obtain ⟨p, -, rfl⟩ := List.mem_map.mp ((aggregatedOf_sublist host s _ g).subset hkey)
    obtain ⟨p', -, heq⟩ := List.mem_map.mp ((aggregatedOf_sublist host s _ g').subset hkey')
    exact hne (Prod.mk.inj heq).2.symm
  · intro key hkey
    obtain ⟨group, hmem, hkey⟩ := List.mem_flatMap.mp hkey
    exact hsigs.mem_iff.mp ((hgroup group hmem).subset hkey)

theorem deleteGossipSignatures_nil (s : Store H) : s.deleteGossipSignatures [] = s := by
  unfold Store.deleteGossipSignatures
  have hkeep : Table.deleteBatch [] s.gossipSignatures = s.gossipSignatures :=
    Table.retain_eq_self fun key sig _ ↦ decide_eq_true List.not_mem_nil
  rw [hkeep]
  rfl

/-- Aggregation moves signatures from the table to the buffer of new votes. -/
theorem aggregateCommitteeSignatures_eq_ok {r : Except ε (List (SignedAggregatedAttestation H))}
    (h : aggregateCommitteeSignatures host s = .ok (r, s')) :
    s' = s ∧ (∃ e, r = .error e) ∨ ∃ entries, entries.map Prod.fst = aggregatedKeys host s ∧
      s' = (s.insertNewAggregatedPayloadsBatch entries).deleteGossipSignatures
        (aggregatedKeys host s) := by
  unfold aggregateCommitteeSignatures at h
  rw [Op.get_bind] at h
  dsimp only at h
  split at h
  · rename_i hnil
    obtain ⟨-, rfl⟩ := Prod.mk.inj (Except.ok.inj h)
    have hkeys : aggregatedKeys host s = [] := by
      unfold aggregatedKeys
      split
      · rfl
      · have hpairs : Table.pairs (signatureGroups host (s.iterGossipSignatures host)) = [] := by
          rw [hnil]
          rfl
        rw [hpairs, (host.order_perm _).eq_nil, List.flatMap_nil]
    refine .inr ⟨[], hkeys.symm, ?_⟩
    rw [hkeys, deleteGossipSignatures_nil]
    rfl
  · rcases Op.bind_eq_ok.mp h with ⟨st, t, hlift, hrest⟩ | ⟨e, he, rfl⟩
    · obtain ⟨hst, rfl⟩ := Op.lift_eq_ok_ok.mp hlift
      rcases Op.bind_eq_ok.mp hrest with ⟨acc, u, hlift', hwrite⟩ | ⟨e, he, rfl⟩
      · obtain ⟨hacc, rfl⟩ := Op.lift_eq_ok_ok.mp hlift'
        obtain ⟨-, rfl⟩ := Prod.mk.inj (Except.ok.inj hwrite)
        obtain ⟨hentries, hkeys⟩ := foldlM_aggregateGroup_eq_ok hacc
        have hstate : u.getState u.head = some st := Exec.expect_eq_ok.mp hst
        have hall : aggregatedKeys host u = (host.order (Table.pairs (signatureGroups host
            (u.iterGossipSignatures host)))).flatMap (aggregatedOf host u st.validators.toList) := by
          unfold aggregatedKeys
          rw [hstate]
        refine .inr ⟨acc.payloadEntries, hentries.trans hall.symm, ?_⟩
        rw [hall, ← List.nil_append (List.flatMap _ _), ← hkeys]
      · obtain ⟨rfl, -⟩ := Op.lift_eq_ok.mp he
        exact .inl ⟨rfl, e, rfl⟩
    · obtain ⟨rfl, -⟩ := Op.lift_eq_ok.mp he
      exact .inl ⟨rfl, e, rfl⟩

end Aggregation

section Calls

variable {I : Store H → Prop} {sb : SignedBlockWithAttestation H} {post : State H}

theorem Fewer.of_eq (hn : s'.newPayloads = s.newPayloads) (hk : s'.knownPayloads = s.knownPayloads)
    (hg : s'.gossipSignatures = s.gossipSignatures)
    (hd : s'.attestationDataByRoot = s.attestationDataByRoot) : Fewer s s' :=
  ⟨hn, hk, fun _ _ h ↦ hg ▸ h, fun _ _ h ↦ hd ▸ h⟩

theorem fewer_deleteGossipSignatures (s : Store H) (keys : List (SignatureKey H)) :
    Fewer s (s.deleteGossipSignatures keys) := by
  refine ⟨rfl, rfl, fun k sig hk ↦ ?_, fun _ _ h ↦ h⟩
  have hlookup := Table.lookup_deleteBatch keys s.gossipSignatures k
  rw [show (s.deleteGossipSignatures keys).gossipSignatures.lookup k = _ from hlookup] at hk
  split at hk
  · exact nomatch hk
  · exact hk

theorem fewer_updateCheckpoints (host : Host H) (s : Store H) (c : ForkCheckpoints H) :
    Fewer s (s.updateCheckpoints host c) := by
  have hretain {K V : Type} [DecidableEq K] (keep : K → V → Bool) (t : Table K V) (a : K) (v : V)
      (h : (Table.retain keep t).lookup a = some v) : t.lookup a = some v := by
    rw [Table.lookup_retain] at h
    exact (Option.filter_eq_some_iff.mp h).1
  unfold Store.updateCheckpoints
  cases c.finalized with
  | none => exact .of_eq rfl rfl rfl rfl
  | some finalized =>
    dsimp only
    split
    · exact ⟨rfl, rfl, fun k sig hk ↦ hretain _ _ k sig hk, fun r d hd ↦ hretain _ _ r d hd⟩
    · exact .of_eq rfl rfl rfl rfl

theorem fewer_adoptCheckpoints (host : Host H) (s : Store H) (post : State H) :
    Fewer s (adoptCheckpoints host s post) := by
  unfold adoptCheckpoints
  dsimp only
  generalize (if s.latestJustified.slot < post.latestJustified.slot then
    some post.latestJustified else none) = justified
  generalize (if s.latestFinalized.slot < post.latestFinalized.slot then
    some post.latestFinalized else none) = finalized
  split
  · exact fewer_updateCheckpoints host s _
  · exact .of_eq rfl rfl rfl rfl

theorem VoteInvariant.ticking (hI : VoteInvariant I) : Ticking host I where
  clock := fun _ h ↦ hI.fewer h (.of_eq rfl rfl rfl rfl)
  promote := hI.promote
  updateHead := by
    intro ε s r s' h hr
    obtain ⟨g, -, rfl⟩ := updateHead_eq_ok hr
    exact hI.fewer h (.of_eq rfl rfl rfl rfl)
  updateSafeTarget := by
    intro ε s r s' h hr
    obtain rfl | ⟨g, -, rfl⟩ := updateSafeTarget_eq_ok hr
    · exact h
    · exact hI.fewer h (.of_eq rfl rfl rfl rfl)
  aggregate := by
    intro ε s r s' h hr
    obtain ⟨rfl, -⟩ | ⟨entries, hentries, rfl⟩ := aggregateCommitteeSignatures_eq_ok hr
    · exact h
    · refine hI.fewer (hI.aggregate h fun e he ↦ ?_) (fewer_deleteGossipSignatures _ _)
      have hkey := (aggregatedKeys_nodup host s).2 e.1 (hentries ▸ List.mem_map_of_mem he)
      exact Table.mem_iff_lookup.mp (AList.mem_keys.mpr hkey)

/-- Importing a block does nothing, or it records the block, moves the head where fork choice leads
and may keep the proposer's signature. -/
theorem onBlock_eq_ok {ids : List UInt64} {r : Except (StoreError H) Unit}
    (h : onBlock host sb ids s = .ok (r, s')) :
    s' = s ∧ (s.hasState (host.block sb.message.block) = true ∨ ∃ e, r = .error e) ∨
      ∃ post head, s.hasState (host.block sb.message.block) = false ∧
      postState host s sb true = .ok post ∧
      (∃ w, (computeLmdGhostHead host (recordBlock host sb post s).latestJustified.root
        ((recordBlock host sb post s).getLiveChain host)
        ((recordBlock host sb post s).extractLatestKnownAttestations host) 0 :
          Exec (StoreError H) (H × Weights H)) = .ok (head, w)) ∧
      (s' = { recordBlock host sb post s with head := head } ∨
        inOurSubnet ids sb.message.proposerAttestation.validatorId = true ∧ ∃ sig,
        host.signatureFromBytes sb.signature.proposerSignature.toList = some sig ∧
        s' = Store.insertGossipSignature host { recordBlock host sb post s with head := head }
          (host.attestationData sb.message.proposerAttestation.data)
          sb.message.proposerAttestation.data.slot sb.message.proposerAttestation.validatorId sig) := by
  rcases onBlockCore_eq_ok h with ⟨hstate, -, rfl⟩ |
    ⟨hstate, ⟨e, -, rfl, rfl⟩ | ⟨post, g, hpost, hg, hvote⟩⟩
  · exact .inl ⟨rfl, .inl hstate⟩
  · exact .inl ⟨rfl, .inr ⟨e, rfl⟩⟩
  · refine .inr ⟨post, g.1, hstate, hpost, ⟨g.2, hg⟩, ?_⟩
    unfold recordProposerVote at hvote
    rw [Bool.not_true, if_neg Bool.false_ne_true] at hvote
    split at hvote
    · rename_i hsub
      rcases Op.bind_eq_ok.mp hvote with ⟨sig, w, hsig, hvote⟩ | ⟨e, he, -⟩
      · obtain ⟨hdecode, rfl⟩ := Op.lift_eq_ok_ok.mp hsig
        obtain ⟨-, rfl⟩ := Prod.mk.inj (Except.ok.inj hvote)
        exact .inr ⟨hsub, sig, okOr_eq_ok.mp hdecode, rfl⟩
      · obtain ⟨rfl, -⟩ := Op.lift_eq_ok.mp he
        exact .inl rfl
    · obtain ⟨-, rfl⟩ := Prod.mk.inj (Except.ok.inj hvote)
      exact .inl rfl

theorem onGossipAttestation_eq_ok {signed : SignedAttestation H} {ids : List UInt64}
    {r : Except (StoreError H) Unit} (h : onGossipAttestation host signed ids s = .ok (r, s')) :
    s' = s ∨ ∃ sig, verifyGossipAttestation host s signed = .ok sig ∧
      (s' = s.insertAttestationDataByRoot (host.attestationData signed.data) signed.data ∨
      s' = Store.insertGossipSignature host
        (s.insertAttestationDataByRoot (host.attestationData signed.data) signed.data)
        (host.attestationData signed.data) signed.data.slot signed.validatorId sig) := by
  unfold onGossipAttestation at h
  rw [Op.get_bind] at h
  rcases Op.bind_eq_ok.mp h with ⟨sig, t, hlift, hrest⟩ | ⟨e, he, -⟩
  · obtain ⟨hsig, rfl⟩ := Op.lift_eq_ok_ok.mp hlift
    rw [Op.modify_bind] at hrest
    refine .inr ⟨sig, hsig, ?_⟩
    split at hrest
    · obtain ⟨-, rfl⟩ := Prod.mk.inj (Except.ok.inj hrest)
      exact .inr rfl
    · obtain ⟨-, rfl⟩ := Prod.mk.inj (Except.ok.inj hrest)
      exact .inl rfl
  · obtain ⟨rfl, -⟩ := Op.lift_eq_ok.mp he
    exact .inl rfl

/-- The store entries of an aggregate: one for every validator that takes part. -/
def participantEntries (host : Host H) (aggregated : SignedAggregatedAttestation H) :
    List (SignatureKey H × StoredAggregatedPayload) :=
  aggregated.proof.participantIndices.map fun vid ↦
    ((UInt64.ofNat vid, host.attestationData aggregated.data), ⟨aggregated.data.slot, aggregated.proof⟩)

theorem onGossipAggregatedAttestation_eq_ok {aggregated : SignedAggregatedAttestation H}
    {r : Except (StoreError H) Unit}
    (h : onGossipAggregatedAttestation host aggregated s = .ok (r, s')) :
    s' = s ∧ (∃ e, r = .error e) ∨ verifyGossipAggregate host s aggregated = .ok () ∧
      s' = (s.insertAttestationDataByRoot (host.attestationData aggregated.data)
        aggregated.data).insertNewAggregatedPayloadsBatch (participantEntries host aggregated) := by
  unfold onGossipAggregatedAttestation at h
  rw [Op.get_bind] at h
  rcases Op.bind_eq_ok.mp h with ⟨u, t, hlift, hrest⟩ | ⟨e, he, rfl⟩
  · obtain ⟨hverify, rfl⟩ := Op.lift_eq_ok_ok.mp hlift
    obtain ⟨-, rfl⟩ := Prod.mk.inj (Except.ok.inj hrest)
    exact .inr ⟨hverify, rfl⟩
  · obtain ⟨rfl, -⟩ := Op.lift_eq_ok.mp he
    exact .inl ⟨rfl, e, rfl⟩

theorem onGossipAggregatedAttestation_of_verified {aggregated : SignedAggregatedAttestation H}
    (h : verifyGossipAggregate host s aggregated = .ok ()) :
    onGossipAggregatedAttestation host aggregated s = .ok (.ok (),
      (s.insertAttestationDataByRoot (host.attestationData aggregated.data)
        aggregated.data).insertNewAggregatedPayloadsBatch (participantEntries host aggregated)) := by
  unfold onGossipAggregatedAttestation
  rw [Op.get_bind, Op.lift_bind_of_ok h]
  rfl

/-- What a call keeps of an invariant that holds of fewer votes as well and that the ticks keep while
nothing is put together. The ticks of an aggregator and the votes that the call brings in are left to
show. -/
theorem Quiet.step (hI : Quiet host I) (hfewer : ∀ {s s'}, I s → Fewer s s' → I s') {c : Call H}
    (h : I s) (hs : Call.step host s c = .ok s')
    (htick : ∀ time hasProposal r, c = .onTick time hasProposal true →
      (Chain.onTick host time hasProposal true : Op (Store H) (StoreError H) _) s = .ok (r, s') → I s')
    (hvote : ∀ signed ids sig, c = .onGossipAttestation signed ids →
      verifyGossipAttestation host s signed = .ok sig →
      I (s.insertAttestationDataByRoot (host.attestationData signed.data) signed.data) ∧
      I (Store.insertGossipSignature host
        (s.insertAttestationDataByRoot (host.attestationData signed.data) signed.data)
        (host.attestationData signed.data) signed.data.slot signed.validatorId sig))
    (haggregate : ∀ aggregated, c = .onGossipAggregatedAttestation aggregated →
      verifyGossipAggregate host s aggregated = .ok () →
      I ((s.insertAttestationDataByRoot (host.attestationData aggregated.data)
        aggregated.data).insertNewAggregatedPayloadsBatch (participantEntries host aggregated)))
    (hblock : ∀ sb ids post, c = .onBlock sb ids →
      s.hasState (host.block sb.message.block) = false → postState host s sb true = .ok post →
      I (recordBlock host sb post s) ∧
      ∀ head sig, inOurSubnet ids sb.message.proposerAttestation.validatorId = true →
        host.signatureFromBytes sb.signature.proposerSignature.toList = some sig →
        I (Store.insertGossipSignature host { recordBlock host sb post s with head := head }
          (host.attestationData sb.message.proposerAttestation.data)
          sb.message.proposerAttestation.data.slot sb.message.proposerAttestation.validatorId sig)) :
    I s' := by
  obtain ⟨r, hr⟩ := Call.perform_of_step hs
  cases c with
  | onBlock sb ids =>
    obtain ⟨rfl, -⟩ | ⟨post, head, hnew, hpost, -, hs'⟩ := onBlock_eq_ok hr
    · exact h
    obtain ⟨hrecord, hsig⟩ := hblock sb ids post rfl hnew hpost
    obtain rfl | ⟨hsub, sig, hdecode, rfl⟩ := hs'
    · exact hfewer hrecord (.of_eq rfl rfl rfl rfl)
    · exact hsig head sig hsub hdecode
  | insertPendingBlock sb =>
    obtain ⟨-, rfl⟩ := Prod.mk.inj (Except.ok.inj hr)
    exact hfewer h (.of_eq rfl rfl rfl rfl)
  | onTick t p a =>
    rcases Op.bind_eq_ok.mp hr with ⟨new, u, htick', hdone⟩ | ⟨e, htick', -⟩
    · obtain ⟨-, rfl⟩ := Prod.mk.inj (Except.ok.inj hdone)
      cases a with
      | true => exact htick t p _ rfl htick'
      | false => exact hI.onTick (fun ha ↦ absurd ha Bool.false_ne_true) t p s _ u h htick'
    · cases a with
      | true => exact htick t p _ rfl htick'
      | false => exact hI.onTick (fun ha ↦ absurd ha Bool.false_ne_true) t p s _ s' h htick'
  | onGossipAttestation signed ids =>
    obtain rfl | ⟨sig, hsig, hs'⟩ := onGossipAttestation_eq_ok hr
    · exact h
    obtain rfl | rfl := hs'
    · exact (hvote signed ids sig rfl hsig).1
    · exact (hvote signed ids sig rfl hsig).2
  | onGossipAggregatedAttestation aggregated =>
    obtain ⟨rfl, -⟩ | ⟨hverify, rfl⟩ := onGossipAggregatedAttestation_eq_ok hr
    · exact h
    · exact haggregate aggregated rfl hverify
  | produceBlockWithSignatures slot vid =>
    exact Op.Keeps.bind (hI.produceBlockWithSignatures slot vid)
      (fun _ ↦ Op.Keeps.pure _) s r s' h hr
  | pruneOldData =>
    obtain ⟨-, rfl⟩ := Prod.mk.inj (Except.ok.inj hr)
    exact hfewer h (.of_eq rfl rfl rfl rfl)

/-- What a call keeps of an invariant that its ticks keep and that fewer votes meet as well. The
votes it brings in are left to show. -/
theorem Ticking.step (hI : Ticking host I) (hfewer : ∀ {s s'}, I s → Fewer s s' → I s') {c : Call H}
    (h : I s) (hs : Call.step host s c = .ok s')
    (hvote : ∀ signed ids sig, c = .onGossipAttestation signed ids →
      verifyGossipAttestation host s signed = .ok sig →
      I (s.insertAttestationDataByRoot (host.attestationData signed.data) signed.data) ∧
      I (Store.insertGossipSignature host
        (s.insertAttestationDataByRoot (host.attestationData signed.data) signed.data)
        (host.attestationData signed.data) signed.data.slot signed.validatorId sig))
    (haggregate : ∀ aggregated, c = .onGossipAggregatedAttestation aggregated →
      verifyGossipAggregate host s aggregated = .ok () →
      I ((s.insertAttestationDataByRoot (host.attestationData aggregated.data)
        aggregated.data).insertNewAggregatedPayloadsBatch (participantEntries host aggregated)))
    (hblock : ∀ sb ids post, c = .onBlock sb ids →
      s.hasState (host.block sb.message.block) = false → postState host s sb true = .ok post →
      I (recordBlock host sb post s) ∧
      ∀ head sig, inOurSubnet ids sb.message.proposerAttestation.validatorId = true →
        I (Store.insertGossipSignature host { recordBlock host sb post s with head := head }
          (host.attestationData sb.message.proposerAttestation.data)
          sb.message.proposerAttestation.data.slot sb.message.proposerAttestation.validatorId sig)) :
    I s' :=
  hI.quiet.step hfewer h hs
    (fun time hasProposal r _ hr ↦ onTick_keeps hI time hasProposal true s r s' h hr) hvote haggregate
    fun sb ids post hc hnew hpost ↦
      ⟨(hblock sb ids post hc hnew hpost).1, fun head sig hsub _ ↦
        (hblock sb ids post hc hnew hpost).2 head sig hsub⟩

/-- What a call keeps of an invariant about votes. The votes it brings in are left to show. -/
theorem VoteInvariant.step (hI : VoteInvariant I) {c : Call H} (h : I s)
    (hs : Call.step host s c = .ok s')
    (hvote : ∀ signed ids sig, c = .onGossipAttestation signed ids →
      verifyGossipAttestation host s signed = .ok sig →
      I (s.insertAttestationDataByRoot (host.attestationData signed.data) signed.data) ∧
      I (Store.insertGossipSignature host
        (s.insertAttestationDataByRoot (host.attestationData signed.data) signed.data)
        (host.attestationData signed.data) signed.data.slot signed.validatorId sig))
    (haggregate : ∀ aggregated, c = .onGossipAggregatedAttestation aggregated →
      verifyGossipAggregate host s aggregated = .ok () →
      I ((s.insertAttestationDataByRoot (host.attestationData aggregated.data)
        aggregated.data).insertNewAggregatedPayloadsBatch (participantEntries host aggregated)))
    (hblock : ∀ sb ids post, c = .onBlock sb ids →
      s.hasState (host.block sb.message.block) = false → postState host s sb true = .ok post →
      I (recordBlock host sb post s) ∧
      ∀ head sig, inOurSubnet ids sb.message.proposerAttestation.validatorId = true →
        I (Store.insertGossipSignature host { recordBlock host sb post s with head := head }
          (host.attestationData sb.message.proposerAttestation.data)
          sb.message.proposerAttestation.data.slot sb.message.proposerAttestation.validatorId sig)) :
    I s' :=
  hI.ticking.step hI.fewer h hs hvote haggregate hblock

end Calls

end Ethlambda.Chain
