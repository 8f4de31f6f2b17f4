import Ethlambda.Chain.Levels

namespace Ethlambda.Chain

open Ethlambda.Base Ethlambda.Types Ethlambda.Storage Ethlambda.StateTransition

set_option linter.unusedSectionVars false

variable {H : Type} [LinearOrder H] [Zero H] {host : Host H} {ε : Type}
  {headState post opened : State H} {slot proposerIndex : UInt64} {parentRoot : H}
  {available included votes : List (Attestation H)} {knownRoots : List H} {payloads : ProofMap H}
  {keys : List (SignatureKey H)} {orders : BuilderOrders H} {n : ℕ} {target final : Checkpoint H}
  {stray : AttestationData H → Prop} {attestations : List (AggregatedAttestation H)}

section Sources

/-- Of the votes of a block, those of one level are all in it, and the others are apart. -/
structure Gathers (votes : List (Attestation H)) (stray : AttestationData H → Prop)
    (included : List (Attestation H)) : Prop where
  sound : ∀ a ∈ included, a ∈ votes ∨ stray a.data
  complete : ∀ a ∈ votes, a ∈ included
  apart : ∀ a ∈ votes, ¬stray a.data

theorem Gathers.voters (h : Gathers votes stray included) {a : Attestation H} (ha : a ∈ votes) :
    votersFor included a.data = votersFor votes a.data := by
  ext v
  rw [mem_votersFor, mem_votersFor]
  constructor
  · rintro ⟨b, hb, hdata, hid⟩
    refine ⟨b, (h.sound b hb).resolve_right fun hs ↦ h.apart a ha ?_, hdata, hid⟩
    rwa [← hdata]
  · rintro ⟨b, hb, hdata, hid⟩
    exact ⟨b, h.complete b hb, hdata, hid⟩

theorem mem_signers {g : AggregatedAttestation H} {i : ℕ} :
    i ∈ signers g ↔ i ∈ validatorIndices g.aggregationBits := by
  rw [signers, mem_flagged, mem_validatorIndices]

theorem signers_participants (p : AggregatedSignatureProof) (data : AttestationData H) :
    signers ⟨p.participants, data⟩ = participants p := by
  ext i
  rw [mem_signers, participants, List.mem_toFinset]
  rfl

theorem foldlM_set_length {message : String} {ids : List UInt64} {bits bits' : AggregationBits}
    (h : ids.foldlM (fun b vid ↦ Exec.expect message (BitList.set b vid.toNat true)) bits =
      (.ok bits' : Exec ε AggregationBits)) : bits'.toList.length = bits.toList.length := by
  induction ids generalizing bits with
  | nil =>
    obtain rfl := Except.ok.inj h
    rfl
  | cons id ids ih =>
    rw [List.foldlM_cons] at h
    obtain ⟨next, hnext, h⟩ := Exec.bind_eq_ok.mp h
    obtain ⟨-, hset⟩ := BitList.set_eq_some.mp (Exec.expect_eq_ok.mp hnext)
    rw [ih h, hset, List.length_set]

/-- The bitfield of an aggregate ends with the highest validator that it holds. -/
theorem tight_of_aggregate {aggregates : List (AggregatedAttestation H)}
    (h : (aggregateAttestationsByData host included : Exec ε _) = .ok aggregates)
    {g : AggregatedAttestation H} (hg : g ∈ aggregates)
    (hsmall : ∀ v ∈ validatorIndices g.aggregationBits, v < n) : g.aggregationBits.len ≤ n := by
  obtain ⟨group, hmem, hgroup⟩ := exists_of_forall₂_right (Exec.mapM_eq_ok.mp h) hg
  obtain ⟨bits, hbits, hgroup⟩ := Exec.bind_eq_ok.mp hgroup
  obtain rfl := Except.ok.inj hgroup
  have hlookup := Table.mem_pairs.mp (host.mem_order.mp hmem)
  rw [lookup_dataGroups, Option.map_eq_some_iff] at hlookup
  obtain ⟨a, hhead, hdata⟩ := hlookup
  have hids : ∀ id ∈ group.2.2, id.toNat < 4096 := by
    intro id hid
    rw [← hdata] at hid
    obtain ⟨b, hb, rfl⟩ := List.mem_map.mp hid
    exact ids_of_aggregate h b (mem_votesFor.mp hb).1
  have ha : a.validatorId ∈ group.2.2 := by
    rw [← hdata]
    exact List.mem_map_of_mem (List.mem_of_mem_head? hhead)
  obtain ⟨bits', hbits', hindices⟩ := aggregateGroupBits_eq_ok (ε := ε) hids
  obtain rfl : bits' = bits := Except.ok.inj (hbits'.symm.trans hbits)
  obtain ⟨maxId, hmax, -⟩ := le_max?_of_mem ha
  obtain ⟨id, hid, rfl⟩ := List.mem_map.mp (List.max?_mem hmax)
  obtain ⟨capacity, hcapacity, hrest⟩ := Exec.bind_eq_ok.mp hbits
  obtain ⟨zeros, hzeros, hfold⟩ := Exec.bind_eq_ok.mp hrest
  obtain ⟨-, rfl⟩ := Exec.add64_eq_ok.mp hcapacity
  have hlen : bits'.toList.length = id.toNat + 1 := by
    rw [foldlM_set_length hfold, BitList.withCapacity_eq_some.mp (Exec.expect_eq_ok.mp hzeros),
      List.length_replicate, hmax, Option.getD_some]
  have hlt := hsmall id.toNat ((hindices id.toNat).mpr ⟨id, hid, rfl⟩)
  exact hlen.trans_le hlt

/-- A candidate brings the votes themselves. -/
theorem Gathers.aggregated (h : Gathers votes stray included)
    (hinj : Function.Injective host.attestationData)
    (hok : (aggregateAttestationsByData host included : Exec ε _) = .ok attestations) :
    Made n votes (ownBallots n votes) stray attestations := by
  obtain ⟨aggregates, haggregates, hgrouped⟩ := aggregateAttestationsByData_eq_ok (ε := ε)
    (ids_of_aggregate hok) fun a _ b _ hroots ↦ hinj hroots
  obtain rfl : aggregates = attestations := Except.ok.inj (haggregates.symm.trans hok)
  have hsigners {g : AggregatedAttestation H} (hg : g ∈ aggregates) {a : Attestation H}
      (ha : a ∈ votes) (hdata : a.data = g.data) : signers g = votersFor votes g.data := by
    ext v
    rw [mem_signers, hgrouped.sound g hg, ← hdata, ← h.voters ha, mem_votersFor]
  constructor
  · intro g hg
    obtain ⟨a, ha, hdata⟩ := data_of_aggregate hok g hg
    refine (h.sound a ha).imp (fun ha ↦ ⟨a, ha, hdata, fun hlen ↦ ?_⟩) fun hs ↦ hdata ▸ hs
    have hlt : ∀ v ∈ votersFor votes g.data, v < n := by
      intro v hv
      rw [← hsigners hg ha hdata, signers, mem_flagged] at hv
      exact (List.getElem?_eq_some_iff.mp hv).1.trans_le hlen
    rw [ownBallots, if_pos hlt, hsigners hg ha hdata]
    exact List.mem_singleton_self _
  · intro a ha b hb
    obtain ⟨g, hg, hdata⟩ := hgrouped.complete a (h.complete a ha)
    have heq := hsigners hg ha hdata.symm
    rw [ownBallots] at hb
    split at hb
    · rename_i hlt
      rw [List.mem_singleton.mp hb, ← hdata]
      refine ⟨g, hg, rfl, tight_of_aggregate hok hg fun v hv ↦ ?_, heq⟩
      apply hlt
      rw [← hdata, ← heq]
      exact mem_signers.mpr hv
    · exact absurd hb List.not_mem_nil

/-- The pairs of a group are those of its data. -/
theorem filter_flatten {aggregates : List (AggregatedAttestation H)}
    {results : List (List (ProvedVote H))}
    {R : AggregatedAttestation H → List (ProvedVote H) → Prop}
    (hall : List.Forall₂ (fun g pairs ↦ (∀ p ∈ pairs, p.1.data = g.data) ∧ R g pairs) aggregates
      results) (hdistinct : aggregates.Pairwise fun g g' ↦ g.data ≠ g'.data) :
    ∀ g ∈ aggregates, R g (results.flatten.filter fun p ↦ decide (p.1.data = g.data)) := by
  induction hall with
  | nil => exact fun g hg ↦ absurd hg List.not_mem_nil
  | @cons g pairs aggregates results hpairs hrest ih =>
    obtain ⟨hother, hdistinct⟩ := List.pairwise_cons.mp hdistinct
    intro g' hg'
    rw [List.flatten_cons, List.filter_append]
    cases List.mem_cons.mp hg' with
    | inl heq =>
      have hown : pairs.filter (fun p ↦ decide (p.1.data = g.data)) = pairs :=
        List.filter_eq_self.mpr fun p hp ↦ decide_eq_true (hpairs.1 p hp)
      have hnone : results.flatten.filter (fun p ↦ decide (p.1.data = g.data)) = [] := by
        rw [List.filter_eq_nil_iff]
        intro p hp
        obtain ⟨group, hgroup, hp⟩ := List.mem_flatten.mp hp
        obtain ⟨g'', hg'', hgroup, -⟩ := exists_of_forall₂_right hrest hgroup
        rw [hgroup p hp, decide_eq_true_eq]
        exact (hother g'' hg'').symm
      rw [heq, hown, hnone, List.append_nil]
      exact hpairs.2
    | inr hg' =>
      have hnone : pairs.filter (fun p ↦ decide (p.1.data = g'.data)) = [] := by
        rw [List.filter_eq_nil_iff]
        intro p hp
        rw [hpairs.1 p hp, decide_eq_true_eq]
        exact hother g' hg'
      rw [hnone, List.nil_append]
      exact ih hdistinct g' hg'

/-- The selection is a choice of proofs for each data. -/
theorem exists_choice (hinj : Function.Injective host.attestationData)
    {selected : List (AggregatedAttestation H) × List AggregatedSignatureProof}
    (h : (selectAggregatedProofs host orders included payloads : Exec ε _) = .ok selected) :
    ∃ choice, Choice host.toTreeHash payloads included choice ∧
      ∀ g, g ∈ selected.1 ↔ ∃ a ∈ included, ∃ p ∈ choice a.data, g = ⟨p.participants, a.data⟩ := by
  obtain ⟨aggregates, haggregates, h⟩ := Exec.bind_eq_ok.mp h
  obtain ⟨results, hresults, h⟩ := Exec.bind_eq_ok.mp h
  obtain rfl := Except.ok.inj h
  obtain ⟨groups, hgroups, hgrouped⟩ := @aggregateAttestationsByData_eq_ok H _ _
    (enumerating host orders.groups) ε _ (ids_of_aggregate haggregates)
    fun a _ b _ hroots ↦ hinj hroots
  obtain rfl : groups = aggregates := Except.ok.inj (hgroups.symm.trans haggregates)
  have hall := (Exec.mapM_eq_ok.mp hresults).imp fun g pairs hpairs ↦ coverRemaining_chosen hpairs
  have hdatas := hall.imp fun g pairs hpairs ↦
    And.intro (fun p hp ↦ congrArg AggregatedAttestation.data (hpairs.2 p hp)) hpairs
  have hchosen := filter_flatten hdatas hgrouped.distinct
  have hvoters {g : AggregatedAttestation H} (hg : g ∈ groups) :
      (validatorIndices g.aggregationBits).toFinset = votersFor included g.data := by
    ext v
    rw [List.mem_toFinset, hgrouped.sound g hg, mem_votersFor]
  refine ⟨fun data ↦ (results.flatten.filter fun p ↦ decide (p.1.data = data)).map Prod.snd,
    ?_, ?_⟩
  · intro a ha
    obtain ⟨g, hg, hdata⟩ := hgrouped.complete a ha
    have hgroup := (hchosen g hg).1
    rw [hvoters hg, hdata] at hgroup
    exact hgroup
  · intro g
    rw [List.unzip_eq_map]
    constructor
    · intro hg
      obtain ⟨pair, hpair, rfl⟩ := List.mem_map.mp hg
      obtain ⟨pairs, hpairs, hmem⟩ := List.mem_flatten.mp hpair
      obtain ⟨group, hgroup, hspec⟩ := exists_of_forall₂_right hall hpairs
      obtain ⟨a, ha, hdata⟩ := data_of_aggregate haggregates group hgroup
      have heq := hspec.2 pair hmem
      refine ⟨a, ha, pair.2, List.mem_map_of_mem (List.mem_filter.mpr ⟨hpair, ?_⟩), ?_⟩
      · rw [decide_eq_true_eq, heq, hdata]
      · rw [heq, hdata]
    · rintro ⟨a, ha, p, hp, rfl⟩
      obtain ⟨pair, hpair, rfl⟩ := List.mem_map.mp hp
      obtain ⟨hpair, hdata⟩ := List.mem_filter.mp hpair
      obtain ⟨pairs, hpairs, hmem⟩ := List.mem_flatten.mp hpair
      obtain ⟨group, -, hspec⟩ := exists_of_forall₂_right hall hpairs
      refine List.mem_map.mpr ⟨pair, hpair, ?_⟩
      have heq := hspec.2 pair hmem
      rw [decide_eq_true_eq, heq] at hdata
      rw [heq, ← hdata]

/-- The block brings what the chosen proofs bring. -/
theorem Gathers.selected (h : Gathers votes stray included)
    (hinj : Function.Injective host.attestationData)
    {selected : List (AggregatedAttestation H) × List AggregatedSignatureProof}
    (hok : (selectAggregatedProofs host orders included payloads : Exec ε _) = .ok selected) :
    ∃ choice, Choice host.toTreeHash payloads votes choice ∧
      Made n votes (proofBallots n choice) stray selected.1 := by
  obtain ⟨choice, hchoice, hselected⟩ := exists_choice hinj hok
  refine ⟨choice, fun a ha ↦ ?_, ?_, ?_⟩
  · rw [← h.voters ha]
    exact hchoice a (h.complete a ha)
  · intro g hg
    obtain ⟨a, ha, p, hp, rfl⟩ := (hselected g).mp hg
    refine (h.sound a ha).imp_left fun ha ↦ ⟨a, ha, rfl, fun hlen ↦ ?_⟩
    rw [signers_participants]
    exact List.mem_map_of_mem (List.mem_filter.mpr ⟨hp, decide_eq_true hlen⟩)
  · intro a ha b hb
    obtain ⟨p, hp, rfl⟩ := List.mem_map.mp hb
    obtain ⟨hp, hlen⟩ := List.mem_filter.mp hp
    exact ⟨⟨p.participants, a.data⟩, (hselected _).mpr ⟨a, h.complete a ha, p, hp, rfl⟩, rfl,
      of_decide_eq_true hlen, signers_participants p a.data⟩

end Sources

section Loop

end Loop

section Levels

end Levels

section Sample

/-- Entries in the order in which they were filed, and the other way round. -/
def listed : Enumeration := ⟨fun l ↦ l, .refl⟩

end Sample

end Ethlambda.Chain
