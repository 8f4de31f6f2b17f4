import Ethlambda.Chain.Building
import Ethlambda.Chain.FadedVotes
import Ethlambda.Chain.KeyOrder
import Ethlambda.Chain.LatestMessages

namespace Ethlambda.Chain

open Ethlambda.Base Ethlambda.Types Ethlambda.Storage Ethlambda.StateTransition Ethlambda.ForkChoice

set_option linter.unusedSectionVars false

variable {H : Type} [LinearOrder H] [Zero H] {host : Host H} {s s' : Store H} {ε : Type}

section Vouched

/-- The proof is filed under a validator that takes part in it. -/
def Vouches (e : SignatureKey H × StoredAggregatedPayload) : Prop :=
  e.1.1.toNat ∈ e.2.proof.participantIndices

structure Vouched (s : Store H) : Prop where
  known : ∀ e ∈ s.knownPayloads.entries, Vouches e
  new : ∀ e ∈ s.newPayloads.entries, Vouches e

variable {l : List (SignatureKey H × StoredAggregatedPayload)}

theorem Vouched.fewer (h : Vouched s) (hf : Fewer s s') : Vouched s' := by
  constructor
  · rw [hf.knownPayloads]
    exact h.known
  · rw [hf.newPayloads]
    exact h.new

theorem Vouched.promote (h : Vouched s) : Vouched s.promoteNewAggregatedPayloads := by
  constructor
  · intro e he
    cases mem_entries_pushBatch he with
    | inl he => exact h.known e he
    | inr he => exact h.new e he
  · intro e he
    exact absurd he List.not_mem_nil

theorem Vouched.insertNew (h : Vouched s) (hl : ∀ e ∈ l, Vouches e) :
    Vouched (s.insertNewAggregatedPayloadsBatch l) := by
  constructor
  · exact h.known
  · intro e he
    cases mem_entries_pushBatch he with
    | inl he => exact h.new e he
    | inr he => exact hl e he

theorem Vouched.insertKnown (h : Vouched s) (hl : ∀ e ∈ l, Vouches e) :
    Vouched (s.insertKnownAggregatedPayloadsBatch l) := by
  constructor
  · intro e he
    cases mem_entries_pushBatch he with
    | inl he => exact h.known e he
    | inr he => exact hl e he
  · exact h.new

theorem lt_of_mem_validatorIndices {bits : AggregationBits} {i : ℕ} (h : i ∈ validatorIndices bits) :
    i < 4096 := by
  have hlt := (List.getElem?_eq_some_iff.mp (mem_validatorIndices.mp h)).1
  have hle : bits.toList.length ≤ 4096 := bits.length_le
  omega

theorem toNat_ofNat_of_mem {bits : AggregationBits} {i : ℕ} (h : i ∈ validatorIndices bits) :
    (UInt64.ofNat i).toNat = i := by
  have hlt := lt_of_mem_validatorIndices h
  rw [UInt64.toNat_ofNat', Nat.mod_eq_of_lt (by omega)]

theorem vouches_participantEntries (aggregated : SignedAggregatedAttestation H) :
    ∀ e ∈ participantEntries host aggregated, Vouches e := by
  intro e he
  obtain ⟨vid, hvid, rfl⟩ := List.mem_map.mp he
  rw [Vouches, toNat_ofNat_of_mem hvid]
  exact hvid

/-- A block whose proofs name its attestations' participants brings in vouched proofs. -/
theorem vouches_knownEntries {sb : SignedBlockWithAttestation H}
    (h : ∀ p ∈ provedAttestations sb, p.1.aggregationBits = p.2.participants) :
    ∀ e ∈ knownEntries host sb, Vouches e := by
  intro e he
  obtain ⟨p, hp, he⟩ := List.mem_flatMap.mp he
  obtain ⟨vid, hvid, rfl⟩ := List.mem_map.mp he
  rw [Vouches, toNat_ofNat_of_mem hvid, AggregatedSignatureProof.participantIndices, ← h p hp]
  exact hvid

theorem lt_of_mem_knownSigners {validators : List Validator}
    {group : List (UInt64 × host.Signature)} {p : UInt64 × host.PublicKey × host.Signature}
    (h : p ∈ knownSigners host validators group) : p.1.toNat < validators.length := by
  obtain ⟨q, -, hq⟩ := List.mem_filterMap.mp h
  obtain ⟨validator, hvalidator, hq⟩ := Option.bind_eq_some_iff.mp hq
  obtain ⟨key, -, hq⟩ := Option.bind_eq_some_iff.mp hq
  rw [← Option.some.inj hq]
  exact (List.getElem?_eq_some_iff.mp hvalidator).1

theorem aggregateGroup_vouches {validators : List Validator} (hlimit : validators.length ≤ 4096)
    {acc acc' : Aggregation H} {group : H × List (UInt64 × host.Signature)}
    (hacc : ∀ e ∈ acc.payloadEntries, Vouches e)
    (h : (aggregateGroup host s validators acc group : Exec ε _) = .ok acc') :
    ∀ e ∈ acc'.payloadEntries, Vouches e := by
  unfold aggregateGroup at h
  cases hdata : s.getAttestationDataByRoot group.1 with
  | none =>
    rw [hdata] at h
    rw [← Except.ok.inj h]
    exact hacc
  | some data =>
    rw [hdata] at h
    dsimp only at h
    split at h
    · rw [← Except.ok.inj h]
      exact hacc
    · split at h
      · rw [← Except.ok.inj h]
        exact hacc
      · obtain ⟨participants, hbits, h⟩ := Exec.bind_eq_ok.mp h
        rw [← Except.ok.inj h]
        intro e he
        cases List.mem_append.mp he with
        | inl he => exact hacc e he
        | inr he =>
          obtain ⟨vid, hvid, rfl⟩ := List.mem_map.mp he
          refine (aggregationBitsFromValidatorIndices_spec ?_ hbits vid.toNat).mpr ⟨vid, hvid, rfl⟩
          intro id hid
          obtain ⟨p, hp, rfl⟩ := List.mem_map.mp hid
          exact lt_of_lt_of_le (lt_of_mem_knownSigners hp) hlimit

theorem foldlM_aggregateGroup_vouches {validators : List Validator}
    (hlimit : validators.length ≤ 4096) {acc acc' : Aggregation H}
    {groups : List (H × List (UInt64 × host.Signature))}
    (hacc : ∀ e ∈ acc.payloadEntries, Vouches e)
    (h : (groups.foldlM (aggregateGroup host s validators) acc : Exec ε _) = .ok acc') :
    ∀ e ∈ acc'.payloadEntries, Vouches e := by
  induction groups generalizing acc with
  | nil =>
    rw [← Except.ok.inj h]
    exact hacc
  | cons group groups ih =>
    rw [List.foldlM_cons] at h
    obtain ⟨acc₁, h₁, h⟩ := Exec.bind_eq_ok.mp h
    exact ih (aggregateGroup_vouches hlimit hacc h₁) h

theorem Vouched.aggregate : Op.Keeps Vouched
    (aggregateCommitteeSignatures host : Op (Store H) ε (List (SignedAggregatedAttestation H))) := by
  intro s r s' h hr
  unfold aggregateCommitteeSignatures at hr
  rw [Op.get_bind] at hr
  dsimp only at hr
  split at hr
  · obtain ⟨-, rfl⟩ := Prod.mk.inj (Except.ok.inj hr)
    exact h
  · rcases Op.bind_eq_ok.mp hr with ⟨headState, t, hlift, hrest⟩ | ⟨e, he, -⟩
    · obtain ⟨-, rfl⟩ := Op.lift_eq_ok_ok.mp hlift
      rcases Op.bind_eq_ok.mp hrest with ⟨acc, u, hlift', hwrite⟩ | ⟨e, he, -⟩
      · obtain ⟨hacc, rfl⟩ := Op.lift_eq_ok_ok.mp hlift'
        obtain ⟨-, rfl⟩ := Prod.mk.inj (Except.ok.inj hwrite)
        refine (h.insertNew ?_).fewer (fewer_deleteGossipSignatures _ _)
        exact foldlM_aggregateGroup_vouches headState.validators.length_le
          (fun e he ↦ absurd he List.not_mem_nil) hacc
      · obtain ⟨rfl, -⟩ := Op.lift_eq_ok.mp he
        exact h
    · obtain ⟨rfl, -⟩ := Op.lift_eq_ok.mp he
      exact h

theorem Vouched.ticking (host : Host H) : Ticking host Vouched where
  clock := fun _ h ↦ h.fewer (.of_eq rfl rfl rfl rfl)
  promote := Vouched.promote
  updateHead := by
    intro ε s r s' h hr
    obtain ⟨g, -, rfl⟩ := updateHead_eq_ok hr
    exact h.fewer (.of_eq rfl rfl rfl rfl)
  updateSafeTarget := by
    intro ε s r s' h hr
    obtain rfl | ⟨g, -, rfl⟩ := updateSafeTarget_eq_ok hr
    · exact h
    · exact h.fewer (.of_eq rfl rfl rfl rfl)
  aggregate := Vouched.aggregate

/-- In every reachable store the proofs are filed under validators that take part in them. -/
theorem Vouched.run {st : State H} {body : Option (BlockBody H)} {s₀ : Store H}
    {calls : List (Call H)} (h₀ : Store.initStore host st body = .ok s₀)
    (hrun : Call.run host s₀ calls = .ok s) : Vouched s := by
  refine Runs.run_invariant (P := Vouched) (fun t c t' h hs ↦ ?_) ?_ hrun
  · refine (Vouched.ticking host).step Vouched.fewer h hs ?_ ?_ ?_
    · exact fun signed ids sig _ _ ↦ ⟨⟨h.known, h.new⟩, ⟨h.known, h.new⟩⟩
    · intro aggregated _ _
      have hdata : Vouched (t.insertAttestationDataByRoot (host.attestationData aggregated.data)
          aggregated.data) := ⟨h.known, h.new⟩
      exact hdata.insertNew (vouches_participantEntries aggregated)
    · intro sb ids post _ _ hpost
      have hmatched : ∀ p ∈ provedAttestations sb, p.1.aggregationBits = p.2.participants := by
        obtain ⟨parent, -, -, hverify, -⟩ := postState_eq_ok hpost
        obtain ⟨-, hattestations, -⟩ := verifySignatures_eq_ok.mp (hverify rfl)
        exact fun p hp ↦ (verifyAttestations_eq_ok.mp hattestations p hp).1.1
      have hrecord : Vouched (recordBlock host sb post t) := by
        have hadopt : Vouched (adoptCheckpoints host t post) :=
          h.fewer (fewer_adoptCheckpoints host t post)
        have hstored : Vouched ((((adoptCheckpoints host t post).insertSignedBlock host
            (host.block sb.message.block) sb).insertState (host.block sb.message.block)
              post).insertAttestationDataByRootBatch (attestationDataEntries host sb)) :=
          ⟨hadopt.known, hadopt.new⟩
        exact hstored.insertKnown (vouches_knownEntries hmatched)
      exact ⟨hrecord, fun head sig _ ↦ ⟨hrecord.known, hrecord.new⟩⟩
  · obtain ⟨-, rfl⟩ := Store.initStore_eq_ok.mp h₀
    exact ⟨fun e he ↦ absurd he List.not_mem_nil, fun e he ↦ absurd he List.not_mem_nil⟩

end Vouched

section Pool

/-- The proofs that the builder is handed, by voter and data root. -/
def proofTable (host : Host H) (s : Store H) : ProofMap H :=
  Table.ofPairs ((host.order (Table.pairs s.knownPayloads.grouped)).map fun p ↦
    (p.1, p.2.map fun sp ↦ sp.proof))

/-- The votes that the builder is handed: the latest of each validator. -/
def votePool (host : Host H) (s : Store H) : List (Attestation H) :=
  (host.order (Table.pairs (s.extractLatestAttestations
    ((host.order (Table.pairs s.knownPayloads.grouped)).map Prod.fst)))).map fun p ↦ ⟨p.1, p.2⟩

/-- The payloads of a key are those of its entries, and there is one at least. -/
theorem lookup_grouped {entries : List (SignatureKey H × StoredAggregatedPayload)} {capacity : ℕ}
    {key : SignatureKey H} {payloads : List StoredAggregatedPayload}
    (h : (PayloadBuffer.grouped ⟨entries, capacity⟩).lookup key = some payloads) :
    payloads ≠ [] ∧ ∀ p ∈ payloads, (key, p) ∈ entries := by
  induction entries using List.reverseRecOn generalizing payloads with
  | nil => exact nomatch h
  | append_singleton entries e ih =>
    rw [PayloadBuffer.grouped, List.foldl_append] at h
    change ((PayloadBuffer.grouped ⟨entries, capacity⟩).insert e.1
      (((PayloadBuffer.grouped ⟨entries, capacity⟩).lookup e.1).getD [] ++ [e.2])).lookup key =
        some payloads at h
    rw [Table.lookup_insert_eq_ite] at h
    split at h
    · rename_i hkey
      rw [← Option.some.inj h]
      refine ⟨by simp, fun p hp ↦ ?_⟩
      cases List.mem_append.mp hp with
      | inl hp =>
        refine List.mem_append_left _ ?_
        cases hold : (PayloadBuffer.grouped ⟨entries, capacity⟩).lookup e.1 with
        | none =>
          rw [hold] at hp
          exact absurd hp List.not_mem_nil
        | some olds =>
          rw [hold] at hp
          rw [hkey]
          rw [hkey] at ih
          exact (ih hold).2 p hp
      | inr hp =>
        obtain rfl := List.mem_singleton.mp hp
        rw [hkey]
        exact List.mem_append_right _ List.mem_cons_self
    · obtain ⟨hne, hall⟩ := ih h
      exact ⟨hne, fun p hp ↦ List.mem_append_left _ (hall p hp)⟩

theorem lookup_proofTable {key : SignatureKey H} {proofs : List AggregatedSignatureProof}
    (h : (proofTable host s).lookup key = some proofs) :
    proofs ≠ [] ∧ ∀ p ∈ proofs, ∃ payload, (key, payload) ∈ s.knownPayloads.entries ∧
      payload.proof = p := by
  have hnodup : (((host.order (Table.pairs s.knownPayloads.grouped)).map fun p ↦
      (p.1, p.2.map fun sp ↦ sp.proof)).map Prod.fst).Nodup := by
    rw [List.map_map]
    change ((host.order (Table.pairs s.knownPayloads.grouped)).map Prod.fst).Nodup
    rw [((host.order_perm _).map Prod.fst).nodup_iff, Table.map_fst_pairs]
    exact AList.keys_nodup _
  rw [proofTable, Table.lookup_ofPairs hnodup] at h
  obtain ⟨entry, hentry, heq⟩ := List.mem_map.mp h
  obtain ⟨rfl, rfl⟩ := Prod.mk.inj heq
  obtain ⟨hne, hall⟩ := lookup_grouped (Table.mem_pairs.mp (host.mem_order.mp hentry))
  refine ⟨by simpa using hne, fun p hp ↦ ?_⟩
  obtain ⟨payload, hpayload, rfl⟩ := List.mem_map.mp hp
  exact ⟨payload, hall payload hpayload, rfl⟩

theorem noEmptyEntry_proofTable : NoEmptyEntry (proofTable host s) :=
  fun _ hlookup ↦ (lookup_proofTable hlookup).1 rfl

theorem Vouched.filed (h : Vouched s) : FiledByParticipant (proofTable host s) := by
  intro v root proofs hlookup p hp
  obtain ⟨payload, hpayload, rfl⟩ := (lookup_proofTable hlookup).2 p hp
  exact h.known _ hpayload

/-- A vote of the pool has a proof on file, and its data is stored under the proof's root. -/
theorem mem_votePool {a : Attestation H} (h : a ∈ votePool host s) :
    ∃ root payload, ((a.validatorId, root), payload) ∈ s.knownPayloads.entries ∧
      s.attestationDataByRoot.lookup root = some a.data := by
  obtain ⟨entry, hentry, rfl⟩ := List.mem_map.mp h
  have hlookup := Table.mem_pairs.mp (host.mem_order.mp hentry)
  obtain ⟨⟨root, hroot, hdata⟩, -⟩ := (extract_latest _ entry.1).1 entry.2 hlookup
  obtain ⟨group, hgroup, hkey⟩ := List.mem_map.mp hroot
  obtain ⟨hne, hall⟩ := lookup_grouped (Table.mem_pairs.mp (host.mem_order.mp hgroup))
  obtain ⟨payload, rest, hpayloads⟩ := List.exists_cons_of_ne_nil hne
  refine ⟨root, payload, ?_, hdata⟩
  rw [← hkey]
  exact hall payload (hpayloads ▸ List.mem_cons_self)

theorem Vouched.id_lt (h : Vouched s) {a : Attestation H} (ha : a ∈ votePool host s) :
    a.validatorId.toNat < 4096 := by
  obtain ⟨root, payload, hentry, -⟩ := mem_votePool ha
  exact lt_of_mem_validatorIndices (h.known _ hentry)

/-- There is one vote for each validator, so no more than a registry can hold. -/
theorem Vouched.length_votePool (h : Vouched s) : (votePool host s).length ≤ 4096 := by
  have hnodup : ((votePool host s).map fun a ↦ a.validatorId.toNat).Nodup := by
    rw [votePool, List.map_map]
    change ((host.order _).map ((fun v : UInt64 ↦ v.toNat) ∘ Prod.fst)).Nodup
    rw [← List.map_map, List.nodup_map_iff fun v w hvw ↦ UInt64.toNat_inj.mp hvw,
      ((host.order_perm _).map Prod.fst).nodup_iff, Table.map_fst_pairs]
    exact AList.keys_nodup _
  have hsub : ((votePool host s).map fun a ↦ a.validatorId.toNat) ⊆ List.range 4096 := by
    intro v hv
    obtain ⟨a, ha, rfl⟩ := List.mem_map.mp hv
    exact List.mem_range.mpr (h.id_lt ha)
  have hle := (List.subperm_of_subset hnodup hsub).length_le
  rwa [List.length_map, List.length_range] at hle

end Pool

section Ends

variable {headState : State H} {slot proposerIndex : UInt64} {parentRoot : H}
  {available included : List (Attestation H)} {knownRoots : List H} {payloads : ProofMap H}
  {keys : List (SignatureKey H)} {n : ℕ} {orders : BuilderOrders H}

theorem applyBlock_noPanic (hw : Wellformed host.toTreeHash n headState) (block : Block H) :
    Exec.NoPanic (applyBlock host headState block) := by
  have h := hw.stateTransition_noPanic block
  unfold stateTransition at h
  rw [Exec.noPanic_bind] at h
  rw [applyBlock, Exec.noPanic_mapError, Exec.noPanic_bind]
  refine ⟨h.1, fun st hst ↦ ?_⟩
  exact (Exec.noPanic_bind.mp (h.2 st hst)).1

/-- The votes of the pool that are not in yet. -/
def leftOver (th : TreeHash H) (available : List (Attestation H)) (keys : List (SignatureKey H)) :
    List (Attestation H) := available.filter fun a ↦ decide (voteKey th a ∉ keys)

theorem Gathered.leftOver_lt {justified : Checkpoint H}
    {new : List (Attestation H) × List (SignatureKey H)}
    (h : Gathered host available knownRoots payloads justified keys new) (hne : new.1 ≠ []) :
    (leftOver host.toTreeHash available new.2).length <
      (leftOver host.toTreeHash available keys).length := by
  have hsplit : leftOver host.toTreeHash available new.2 =
      (leftOver host.toTreeHash available keys).filter fun a ↦
        decide (voteKey host.toTreeHash a ∉ new.2) := by
    rw [leftOver, leftOver, List.filter_filter]
    apply List.filter_congr
    intro a _
    rw [← Bool.decide_and]
    apply decide_eq_decide.mpr
    exact ⟨fun hkey ↦ ⟨hkey, fun hold ↦ hkey ((h.taken _).mpr (.inl hold))⟩, And.left⟩
  obtain ⟨a, ha⟩ := List.exists_mem_of_ne_nil _ hne
  rw [hsplit, List.length_filter_lt_length_iff_exists]
  refine ⟨a, ?_, ?_⟩
  · rw [leftOver, List.mem_filter, decide_eq_true_eq]
    exact ⟨(h.sound a ha).1, h.fresh a ha⟩
  · rw [decide_eq_true_eq, not_not, h.taken]
    exact .inr ⟨a, ha, rfl⟩

/-- Aggregates are for distinct data, so there are no more of them than votes in the pool. -/
theorem length_aggregates_le (hinj : Function.Injective host.attestationData)
    (hids : ∀ a ∈ included, a.validatorId.toNat < 4096) (hincluded : ∀ a ∈ included, a ∈ available)
    {aggregates : List (AggregatedAttestation H)}
    (h : (aggregateAttestationsByData host included : Exec ε _) = .ok aggregates) :
    aggregates.length ≤ available.length := by
  obtain ⟨groups, hok, hgrouped⟩ := aggregateAttestationsByData_eq_ok (ε := ε) hids
    fun a _ b _ hroots ↦ hinj hroots
  obtain rfl : groups = aggregates := Except.ok.inj (hok.symm.trans h)
  have hsub : (groups.map fun g ↦ g.data) ⊆ available.map fun a ↦ a.data := by
    intro d hd
    obtain ⟨g, hg, rfl⟩ := List.mem_map.mp hd
    obtain ⟨a, ha, hdata⟩ := data_of_aggregate h g hg
    exact hdata ▸ List.mem_map_of_mem (hincluded a ha)
  have hle := (List.subperm_of_subset (List.pairwise_map.mpr hgrouped.distinct) hsub).length_le
  rwa [List.length_map, List.length_map] at hle

/-- The loop ends, since every turn but the last takes a vote that was left over, and on the way
no list grows beyond its limit. -/
theorem includeAttestations_noPanic (hinj : Function.Injective host.attestationData)
    (hw : Wellformed host.toTreeHash n headState)
    (hids : ∀ a ∈ available, a.validatorId.toNat < 4096) (hlength : available.length ≤ 4096)
    {turns : ℕ} (hincluded : ∀ a ∈ included, a ∈ available)
    (hturns : (leftOver host.toTreeHash available keys).length < turns) :
    Exec.NoPanic (includeAttestations host orders.turn headState slot proposerIndex parentRoot
      available knownRoots payloads turns included keys) := by
  induction turns generalizing included keys with
  | zero => omega
  | succ turns ih =>
    have hids_included : ∀ a ∈ included, a.validatorId.toNat < 4096 :=
      fun a ha ↦ hids a (hincluded a ha)
    obtain ⟨aggregates, haggregates, -⟩ : ∃ aggregates,
        (aggregateAttestationsByData (enumerating host (orders.turn turns)) included :
          Chain.Result H _) = .ok aggregates ∧ Grouped included aggregates :=
      aggregateAttestationsByData_eq_ok hids_included fun a _ b _ hroots ↦ hinj hroots
    have hfew := @length_aggregates_le H _ _ (enumerating host (orders.turn turns)) _ available
      included hinj hids_included hincluded aggregates haggregates
    obtain ⟨attestations, hattestations, -⟩ := VariableList.exists_new
      (show aggregates.length ≤ validatorRegistryLimit from hfew.trans hlength)
    rw [includeAttestations, haggregates, Exec.ok_bind, hattestations, Exec.expect_some,
      Exec.ok_bind, Exec.noPanic_bind]
    refine ⟨applyBlock_noPanic hw _, fun post hpost ↦ ?_⟩
    have hgathered : Gathered host available knownRoots payloads post.latestJustified keys
        (newAttestations host available knownRoots payloads post.latestJustified keys) :=
      newAttestations_gathered available
    split
    · exact .ok _
    · dsimp only
      split
      · exact .ok _
      · rename_i hne
        apply ih
        · intro a ha
          cases List.mem_append.mp ha with
          | inl ha => exact hincluded a ha
          | inr ha => exact (hgathered.sound a ha).1
        · have hless := hgathered.leftOver_lt hne
          omega

/-- Building a block stops at no expect. -/
theorem buildBlock_noPanic (hinj : Function.Injective host.attestationData)
    (hw : Wellformed host.toTreeHash n headState)
    (hids : ∀ a ∈ available, a.validatorId.toNat < 4096) (hlength : available.length ≤ 4096)
    (hfiled : FiledByParticipant payloads) (hentries : NoEmptyEntry payloads) :
    Exec.NoPanic (buildBlock host orders headState slot proposerIndex parentRoot available
      knownRoots payloads) := by
  rw [buildBlock, Exec.noPanic_bind]
  constructor
  · apply includeAttestations_noPanic hinj hw hids hlength
    · exact fun a ha ↦ absurd ha List.not_mem_nil
    · exact Nat.lt_succ_of_le (List.length_filter_le _ _)
  intro included hincluded
  obtain ⟨candidate, last, hfixed⟩ := includeAttestations_eq_ok (pooled_nil host available
    knownRoots payloads) hincluded
  obtain ⟨selected, hselected, hspec⟩ := exists_selected (ε := StoreError H) orders
    (fun a _ b _ hroots ↦ hinj hroots) (fun a ha ↦ hids a (hfixed.pooled a ha).1) hfiled
    fun a ha ↦ hentries.exists_proof (hfixed.pooled a ha).2.proved
  have hfew : selected.1.length ≤ 4096 := by
    have hzip : (selected.1.zip selected.2).length = selected.1.length := by
      rw [List.length_zip, ← hspec.length_eq, Nat.min_self]
    have hsub : (included.map fun a ↦ (a.validatorId, a.data)).dedup ⊆
        available.map fun a ↦ (a.validatorId, a.data) := by
      intro vote hvote
      obtain ⟨a, ha, rfl⟩ := List.mem_map.mp (List.mem_dedup.mp hvote)
      exact List.mem_map_of_mem (hfixed.pooled a ha).1
    have hle := (List.subperm_of_subset (List.nodup_dedup _) hsub).length_le
    rw [List.length_map] at hle
    have hcount := hspec.count
    omega
  obtain ⟨attestations, hattestations, -⟩ := VariableList.exists_new
    (show selected.1.length ≤ validatorRegistryLimit from hfew)
  rw [hselected, Exec.ok_bind]
  dsimp only
  rw [hattestations, Exec.expect_some, Exec.ok_bind, Exec.noPanic_bind]
  exact ⟨applyBlock_noPanic hw _, fun _ _ ↦ .ok _⟩

end Ends

section Acceptance

variable {validators : List Validator} {sb : SignedBlockWithAttestation H} {headState : State H}
  {slot proposerIndex : UInt64} {parentRoot : H} {available : List (Attestation H)}
  {knownRoots : List H} {payloads : ProofMap H} {orders : BuilderOrders H}
  {result : Block H × State H × List AggregatedSignatureProof}

/-- A proof is valid for the keys of its participants and the root and slot of a data. -/
def ProofVerifies (host : Host H) (validators : List Validator) (data : AttestationData H)
    (proof : AggregatedSignatureProof) : Prop :=
  data.slot.toNat < 2 ^ 32 ∧ ∃ keys,
    List.Forall₂ (fun vid key ↦ keyOf host validators vid = some key) proof.participantIndices keys ∧
    host.verifyAggregatedSignature proof.proofData keys (host.attestationData data)
      data.slot.toUInt32 = .ok ()

/-- The block comes with an attestation that the validator has signed. -/
structure SignedBy (host : Host H) (validators : List Validator) (validatorIndex : UInt64)
    (sb : SignedBlockWithAttestation H) : Prop where
  validator : sb.message.proposerAttestation.validatorId = validatorIndex
  narrow : sb.message.proposerAttestation.data.slot.toNat < 2 ^ 32
  signed : ∃ sig key, host.signatureFromBytes sb.signature.proposerSignature.toList = some sig ∧
    keyOf host validators validatorIndex.toNat = some key ∧
    host.isValid sig key sb.message.proposerAttestation.data.slot.toUInt32
      (host.attestationData sb.message.proposerAttestation.data) = true

theorem SignedBy.verifyProposer (h : SignedBy host validators sb.message.block.proposerIndex sb) :
    Chain.verifyProposer host validators sb = .ok () := by
  obtain ⟨hvalidator, hnarrow, sig, key, hsig, hkey, hvalid⟩ := h
  obtain ⟨v, hv, hpubkey⟩ := Option.bind_eq_some_iff.mp hkey
  unfold Chain.verifyProposer
  dsimp only
  rw [if_neg (not_not.mpr hvalidator), hsig, okOr, Exec.ok_bind, hv, okOr, Exec.ok_bind, hpubkey,
    okOr, Exec.ok_bind, slot32_of_lt hnarrow, Exec.ok_bind, if_pos hvalid]
  rfl

theorem ProofVerifies.matched {p : ProvedVote H} (hbits : p.1.aggregationBits = p.2.participants)
    (h : ProofVerifies host validators p.1.data p.2) :
    Matched validators p ∧ p.1.data.slot.toNat < 2 ^ 32 ∧ Proved host validators p := by
  obtain ⟨hnarrow, keys, hkeys, hverified⟩ := h
  have hindices : validatorIndices p.1.aggregationBits = p.2.participantIndices := by
    rw [hbits]
    rfl
  refine ⟨⟨hbits, fun vid hvid ↦ ?_⟩, hnarrow, keys, ?_, hverified⟩
  · rw [hindices] at hvid
    obtain ⟨key, -, hkey⟩ := exists_of_forall₂_right hkeys.flip hvid
    obtain ⟨v, hv, -⟩ := Option.bind_eq_some_iff.mp hkey
    exact (List.getElem?_eq_some_iff.mp hv).1
  · rw [hindices]
    exact hkeys

/-- The state root of a block is no matter for the state it leads to. -/
theorem stateTransition_of_applyBlock {block : Block H} {post : State H}
    (h : applyBlock host headState block = .ok post) :
    stateTransition host.toTreeHash headState { block with stateRoot := host.state post } =
      .ok post := by
  obtain ⟨st, hslots, hblock⟩ := Exec.bind_eq_ok.mp (Exec.mapError_eq_ok.mp h)
  have hblock' : processBlock host.toTreeHash st { block with stateRoot := host.state post } =
      .ok post := hblock
  unfold stateTransition
  rw [hslots, Exec.ok_bind, hblock', Exec.ok_bind]
  exact if_neg (not_not.mpr rfl)

theorem Built.transition {included : List (Attestation H)} {candidate : AggregatedAttestations H}
    {last : State H} (h : Built host orders headState slot proposerIndex parentRoot available knownRoots
      payloads included candidate last result) :
    stateTransition host.toTreeHash headState result.1 = .ok result.2.1 := by
  rw [h.block]
  exact stateTransition_of_applyBlock h.applied

/-- A new block that verifies and can be applied to its parent's state is imported. -/
theorem onBlock_accepts (hh : HashSound host) (htree : BlockTree host s) {parent post : State H}
    (hparent : s.states.lookup sb.message.block.parentRoot = some parent)
    (hverify : verifySignatures host parent sb = .ok ())
    (htransition : stateTransition host.toTreeHash parent sb.message.block = .ok post)
    (hsigned : SignedBy host parent.validators.toList sb.message.block.proposerIndex sb)
    (ids : List UInt64) : ∃ s', onBlock host sb ids s = .ok (.ok (), s') := by
  unfold onBlock onBlockCore
  rw [Op.get_bind]
  split
  · exact ⟨s, rfl⟩
  have hpost : postState host s sb true =
      .ok (withStateRoot post sb.message.block.stateRoot) := by
    unfold postState Store.getState
    dsimp only
    rw [hparent, okOr, Exec.ok_bind, if_pos rfl, hverify, Exec.ok_bind, htransition]
    rfl
  rw [Op.lift_bind_of_ok hpost, Op.modify_bind]
  have hrecord := htree.recordBlock hh hpost
  obtain ⟨r, hr⟩ := hrecord.exists_computeLmdGhostHead (ε := StoreError H) hh
    (Store.extractLatestKnownAttestations host
      (recordBlock host sb (withStateRoot post sb.message.block.stateRoot) s)) 0
  generalize recordBlock host sb (withStateRoot post sb.message.block.stateRoot) s = t at hr ⊢
  have hhead : (updateHead host : Op (Store H) (StoreError H) Unit) t =
      .ok (.ok (), { t with head := r.1 }) := by
    unfold updateHead
    rw [Op.get_bind, Op.lift_bind_of_ok hr]
    rfl
  rw [Op.bind_of_ok hhead]
  obtain ⟨-, -, sig, key, hsig, -⟩ := hsigned
  unfold recordProposerVote
  rw [if_neg (by decide)]
  split
  · have hdecode : (okOr .signatureDecodingFailed (host.signatureFromBytes
        sb.signature.proposerSignature.toList) : Exec (StoreError H) host.Signature) = .ok sig := by
      rw [hsig]
      rfl
    rw [Op.lift_bind_of_ok hdecode]
    exact ⟨_, rfl⟩
  · exact ⟨_, rfl⟩

/-- What the builder is given: a store that fork choice and the buffers leave in order. -/
structure Ready (host : Host H) (s : Store H) : Prop where
  tree : BlockTree host s
  vouched : Vouched s
  filed : DataFiled host s

theorem Ready.getProposalHead (hh : HashSound host) (h : Ready host s) {slot : UInt64}
    {headRoot : H} (hr : (getProposalHead host slot : Op (Store H) ε H) s = .ok (.ok headRoot, s')) :
    Ready host s' where
  tree := getProposalHead_keeps (blockTree_invariant hh).steady.ticking slot s _ s' h.tree hr
  vouched := getProposalHead_keeps (Vouched.ticking host) slot s _ s' h.vouched hr
  filed := getProposalHead_keeps (dataFiled_invariant host).ticking slot s _ s' h.filed hr

theorem getProposalHead_head {slot : UInt64} {headRoot : H}
    (h : (getProposalHead host slot : Op (Store H) ε H) s = .ok (.ok headRoot, s')) :
    headRoot = s'.head := by
  unfold getProposalHead at h
  rw [Op.get_bind] at h
  obtain ⟨_, _, -, h⟩ := Op.bind_eq_ok_ok.mp h
  obtain ⟨_, _, -, h⟩ := Op.bind_eq_ok_ok.mp h
  obtain ⟨_, _, -, h⟩ := Op.bind_eq_ok_ok.mp h
  obtain ⟨_, _, -, h⟩ := Op.bind_eq_ok_ok.mp h
  obtain ⟨_, t, -, h⟩ := Op.bind_eq_ok_ok.mp h
  obtain ⟨hhead, rfl⟩ := Prod.mk.inj (Except.ok.inj h)
  exact (Except.ok.inj hhead).symm

theorem Ready.produce_noPanic (hinj : Function.Injective host.attestationData) (h : Ready host s)
    (headRoot : H) (slot validatorIndex : UInt64) :
    Exec.NoPanic (produceBlockFrom host s headRoot slot validatorIndex) := by
  unfold produceBlockFrom
  rw [noPanic_okOr_bind]
  intro headState hstate
  have hw := (h.tree.states headRoot headState hstate).wellformed
  rw [Exec.noPanic_ite]
  refine ⟨fun _ ↦ .fail _, fun _ ↦ ?_⟩
  rw [Exec.noPanic_bind]
  constructor
  · exact buildBlock_noPanic hinj hw (fun a ha ↦ h.vouched.id_lt ha) h.vouched.length_votePool
      h.vouched.filed noEmptyEntry_proofTable
  · exact fun _ _ ↦ .ok _

theorem produceBlockFrom_eq_ok {headRoot : H} {slot validatorIndex : UInt64} {block : Block H}
    {proofs : List AggregatedSignatureProof}
    (h : produceBlockFrom host s headRoot slot validatorIndex = .ok (block, proofs)) :
    ∃ headState post, s.states.lookup headRoot = some headState ∧
      buildBlock host (.uniform host) headState slot validatorIndex headRoot (votePool host s)
        s.getBlockRoots (proofTable host s) = .ok (block, post, proofs) := by
  obtain ⟨headState, hstate, h⟩ := Exec.bind_eq_ok.mp h
  split at h
  · exact nomatch h
  obtain ⟨⟨block', post, proofs'⟩, hbuild, h⟩ := Exec.bind_eq_ok.mp h
  obtain ⟨rfl, rfl⟩ := Prod.mk.inj (Except.ok.inj h)
  exact ⟨headState, post, okOr_eq_ok.mp hstate, hbuild⟩

/-- Every proof that the node knows is valid for the data stored under its root. -/
def KnownProofsVerify (host : Host H) (validators : List Validator) (s : Store H) : Prop :=
  ∀ e ∈ s.knownPayloads.entries, ∀ data, s.attestationDataByRoot.lookup e.1.2 = some data →
    ProofVerifies host validators data e.2.proof

/-- The selected proofs are among those that the node knows, and their data is stored. -/
theorem Ready.verifies (hinj : Function.Injective host.attestationData) (h : Ready host s)
    (hknown : KnownProofsVerify host validators s) {included : List (Attestation H)}
    (hincluded : ∀ a ∈ included, a ∈ votePool host s)
    {selected : List (AggregatedAttestation H) × List AggregatedSignatureProof}
    (hselected : (selectAggregatedProofs host orders included (proofTable host s) : Exec ε _) =
      .ok selected) (hspec : Selected host included (proofTable host s) selected) :
    verifyAttestations host validators (selected.1.zip selected.2) = .ok () := by
  rw [verifyAttestations_eq_ok]
  intro p hp
  obtain ⟨hbits, v, proofs, hlookup, hmem⟩ := hspec.stored p hp
  apply ProofVerifies.matched hbits
  obtain ⟨payload, hentry, hproof⟩ := (lookup_proofTable hlookup).2 p.2 hmem
  obtain ⟨a, ha, hdata, -⟩ := selected_sound hinj (fun a ha ↦ h.vouched.id_lt (hincluded a ha))
    hselected p.1 (List.of_mem_zip hp).1
  obtain ⟨root, _, -, hstored⟩ := mem_votePool (hincluded a ha)
  rw [← h.filed root a.data hstored, hdata] at hstored
  rw [← hproof]
  exact hknown _ hentry p.1.data hstored

/-- A node imports the blocks it produces. Production does not stop at any limit. What it returns
lists one proof for each attestation, leads from the head's state to the state root it names, and is
accepted with the proposer's signed attestation, provided that the known proofs are valid. -/
theorem produced_block_accepted (hh : HashSound host)
    (hinj : Function.Injective host.attestationData) {anchor : State H}
    (hanchor : Anchor host anchor) {body : Option (BlockBody H)} {s₀ : Store H}
    {calls : List (Call H)} (h₀ : Store.initStore host anchor body = .ok s₀)
    (hrun : Call.run host s₀ calls = .ok s) (slot validatorIndex : UInt64) :
    (∀ headRoot t, (getProposalHead host slot : Op (Store H) (StoreError H) H) s =
        .ok (.ok headRoot, t) →
      Exec.NoPanic (produceBlockFrom host t headRoot slot validatorIndex)) ∧
    ∀ block proofs s', produceBlockWithSignatures host slot validatorIndex s =
        .ok (.ok (block, proofs), s') →
      ∃ headState, s'.states.lookup s'.head = some headState ∧
        block.body.attestations.toList.length = proofs.length ∧
        (∀ p ∈ block.body.attestations.toList.zip proofs, p.2.participants = p.1.aggregationBits) ∧
        (∃ post, stateTransition host.toTreeHash headState block = .ok post) ∧
        (KnownProofsVerify host headState.validators.toList s' →
          ∀ (sb : SignedBlockWithAttestation H) (ids : List UInt64), sb.message.block = block →
            sb.signature.attestationSignatures.toList = proofs →
            SignedBy host headState.validators.toList validatorIndex sb →
            ∃ s'', onBlock host sb ids s' = .ok (.ok (), s'')) := by
  have hready : Ready host s := by
    constructor
    · exact Call.run_keeps (blockTree_invariant hh).steady (fun h ↦ h.pruneOldData)
        (blockTree_initStore hh hanchor h₀) hrun
    · exact Vouched.run h₀ hrun
    · exact DataFiled.run h₀ hrun
  constructor
  · intro headRoot t ht
    exact (hready.getProposalHead hh ht).produce_noPanic hinj headRoot slot validatorIndex
  intro block proofs s' hproduce
  obtain ⟨headRoot, t, hhead, hproduce⟩ := Op.bind_eq_ok_ok.mp hproduce
  have hready := hready.getProposalHead hh hhead
  rw [Op.get_bind] at hproduce
  obtain ⟨hproduced, rfl⟩ := Op.lift_eq_ok_ok.mp hproduce
  obtain ⟨headState, post, hstate, hbuild⟩ := produceBlockFrom_eq_ok hproduced
  obtain ⟨included, candidate, last, hbuilt⟩ := buildBlock_eq_ok hbuild
  have hspec := hbuilt.covered hinj hready.vouched.filed noEmptyEntry_proofTable
  have htransition := hbuilt.transition
  have hparent : block.parentRoot = headRoot := congrArg Block.parentRoot hbuilt.block
  have hproposer : block.proposerIndex = validatorIndex := congrArg Block.proposerIndex hbuilt.block
  rw [getProposalHead_head hhead] at hparent hstate
  refine ⟨headState, hstate, hspec.length_eq, fun p hp ↦ (hspec.stored p hp).1.symm,
    ⟨post, htransition⟩, fun hknown sb ids hblock hproofs hsigned ↦ ?_⟩
  subst hblock hproofs
  rw [← hproposer] at hsigned
  refine onBlock_accepts hh hready.tree (hparent ▸ hstate) ?_ htransition hsigned ids
  have hattestations := hready.verifies hinj hknown (fun a ha ↦ (hbuilt.fixed.pooled a ha).1)
    hbuilt.selected hspec
  exact verifySignatures_eq_ok.mpr ⟨hspec.length_eq, hattestations, hsigned.verifyProposer⟩

end Acceptance

section Sample

/-- Validator 0 votes for the first block, and the node knows its proof. -/
def readyCalls : List (Call ℕ) :=
  [.onBlock sampleFirst [], .onGossipAggregatedAttestation (rivalAggregate Sample.first)]

/-- The block that validator 2 produces, with its vote. -/
def ownSigned (block : Block ℕ) : SignedBlockWithAttestation ℕ :=
  ⟨⟨block, ⟨2, rivalVote Sample.first⟩⟩,
    ⟨⟨[(rivalAggregate Sample.first).proof], one_le_limit⟩, sampleSignature 2 (rivalVote Sample.first)⟩⟩

theorem rivalAggregate_verifies :
    ProofVerifies sampleHost sampleValidators (rivalVote Sample.first)
      (rivalAggregate Sample.first).proof := by
  refine ⟨by decide, [(0 : UInt8)], ?_, by decide +kernel⟩
  exact .cons rfl .nil

theorem ownSigned_signedBy (block : Block ℕ) :
    SignedBy sampleHost sampleValidators 2 (ownSigned block) := by
  have hnarrow : (rivalVote Sample.first).slot.toNat < 2 ^ 32 := by decide
  have hvalid : sampleHost.isValid (sampleSignature 2 (rivalVote Sample.first)).toList (2 : UInt8)
      (rivalVote Sample.first).slot.toUInt32
      (sampleHost.attestationData (rivalVote Sample.first)) = true := by decide +kernel
  exact ⟨rfl, hnarrow, _, (2 : UInt8), rfl, rfl, hvalid⟩

/-- The only known proof is the one for the vote for the first block. -/
def onlyRival (s : Store ℕ) : Bool :=
  s.knownPayloads.entries.all fun e ↦ decide (e.2.proof = (rivalAggregate Sample.first).proof ∧
    s.attestationDataByRoot.lookup e.1.2 = some (rivalVote Sample.first))

theorem knownProofsVerify_of_onlyRival {s : Store ℕ} (h : onlyRival s = true) :
    KnownProofsVerify sampleHost sampleValidators s := by
  intro e he data hdata
  obtain ⟨hproof, hstored⟩ := of_decide_eq_true (List.all_eq_true.mp h e he)
  obtain rfl := Option.some.inj (hstored.symm.trans hdata)
  rw [hproof]
  exact rivalAggregate_verifies

theorem produced_block_accepted_sample :
    ∃ s block proofs s' s'', Call.run sampleHost sampleStore readyCalls = .ok s ∧
      produceBlockWithSignatures sampleHost 2 2 s = .ok (.ok (block, proofs), s') ∧
      block.body.attestations.toList.length = 1 ∧ block.body.attestations.toList.length = proofs.length ∧
      onBlock sampleHost (ownSigned block) [2] s' = .ok (.ok (), s'') := by
  have hview : ((Call.run sampleHost sampleStore readyCalls).toOption.bind fun s ↦
      (produceBlockWithSignatures sampleHost 2 2 s).toOption.bind fun r ↦
        r.1.toOption.map fun produced ↦
          decide (produced.2 = [(rivalAggregate Sample.first).proof] ∧ onlyRival r.2 = true ∧
            (r.2.states.lookup r.2.head).map (fun st ↦ st.validators.toList) =
              some sampleValidators)) = some true := by decide +kernel
  obtain ⟨s, hs, hview⟩ := Option.bind_eq_some_iff.mp hview
  obtain ⟨⟨r, s'⟩, hproduce, hview⟩ := Option.bind_eq_some_iff.mp hview
  obtain ⟨⟨block, proofs⟩, hr, hview⟩ := Option.map_eq_some_iff.mp hview
  obtain ⟨hproofs, hknown, hvalidators⟩ := of_decide_eq_true hview
  have hrun := Exec.eq_ok_of_toOption hs
  obtain rfl : r = .ok (block, proofs) := Exec.eq_ok_of_toOption hr
  have hproduced := Exec.eq_ok_of_toOption hproduce
  obtain ⟨headState, hstate, hlength, -, -, haccept⟩ := (produced_block_accepted
    sampleHost_hashSound sampleHost_attestationData_injective sampleGenesis_anchor sampleStore_eq hrun
    2 2).2 block proofs s' hproduced
  rw [hstate] at hvalidators
  have hsame : headState.validators.toList = sampleValidators := Option.some.inj hvalidators
  rw [hsame] at haccept
  obtain ⟨s'', haccepted⟩ := haccept (knownProofsVerify_of_onlyRival hknown) (ownSigned block) [2] rfl
    hproofs.symm (ownSigned_signedBy block)
  refine ⟨s, block, proofs, s', s'', hrun, hproduced, ?_, hlength, haccepted⟩
  exact hlength.trans (congrArg List.length hproofs)

end Sample

end Ethlambda.Chain
