import Ethlambda.Base.Cover
import Ethlambda.Chain.Authenticity

namespace Ethlambda.Chain

open Ethlambda.Base Ethlambda.Types Ethlambda.Storage Ethlambda.StateTransition

set_option linter.unusedSectionVars false

variable {H : Type} [LinearOrder H] [Zero H] {host : Host H} {ε : Type}

section Bits

theorem setBit_iff {bits bits' : AggregationBits} {i j : ℕ} (h : BitList.set bits i true = some bits') :
    bits'.toList[j]? = some true ↔ bits.toList[j]? = some true ∨ j = i := by
  obtain ⟨hlt, hset⟩ := BitList.set_eq_some.mp h
  rw [hset]
  by_cases hj : j = i
  · subst hj
    simp [hlt]
  · rw [List.getElem?_set_ne (Ne.symm hj)]
    simp [hj]

/-- Setting bits within the length succeeds and raises just these. -/
theorem foldlM_set_eq_ok {message : String} {ids : List UInt64} {bits : AggregationBits}
    (h : ∀ id ∈ ids, id.toNat < bits.toList.length) :
    ∃ bits', ids.foldlM (fun b vid ↦ Exec.expect message (BitList.set b vid.toNat true)) bits =
        (.ok bits' : Exec ε AggregationBits) ∧
      ∀ i, bits'.toList[i]? = some true ↔ bits.toList[i]? = some true ∨ ∃ id ∈ ids, id.toNat = i := by
  induction ids generalizing bits with
  | nil => exact ⟨bits, rfl, fun i ↦ by simp⟩
  | cons id ids ih =>
    have hlt := h id List.mem_cons_self
    have hset : BitList.set bits id.toNat true =
        some ⟨bits.toList.set id.toNat true, by simpa using bits.length_le⟩ := by
      rw [BitList.set_eq_some]
      exact ⟨hlt, rfl⟩
    set next : AggregationBits :=
      ⟨bits.toList.set id.toNat true, by simpa using bits.length_le⟩ with hnext
    have hrest : ∀ id' ∈ ids, id'.toNat < next.toList.length := fun id' hid' ↦ by
      simpa [hnext] using h id' (List.mem_cons_of_mem id hid')
    obtain ⟨bits', hfold, hbits⟩ := ih hrest
    refine ⟨bits', ?_, fun i ↦ ?_⟩
    · rw [List.foldlM_cons, hset, Exec.expect_some, Exec.ok_bind, hfold]
    · rw [hbits, setBit_iff hset]
      simp only [List.mem_cons, exists_eq_or_imp, or_assoc, eq_comm (a := i)]

/-- A bitfield that is long enough for its ids, and holds them and no others. -/
theorem raiseIds_eq_ok {limitMessage setMessage : String} {ids : List UInt64} {maxId : ℕ}
    (hmax : ∀ id ∈ ids, id.toNat ≤ maxId) (hlimit : maxId < 4096) :
    ∃ bits, (do
        let capacity ← Exec.add64 maxId 1
        let bits ← Exec.expect limitMessage (BitList.withCapacity validatorRegistryLimit capacity)
        ids.foldlM (fun b vid ↦ Exec.expect setMessage (BitList.set b vid.toNat true)) bits) =
          (.ok bits : Exec ε AggregationBits) ∧
      ∀ v, v ∈ validatorIndices bits ↔ ∃ id ∈ ids, id.toNat = v := by
  have hcapacity : (Exec.add64 maxId 1 : Exec ε ℕ) = .ok (maxId + 1) := if_pos (by omega)
  obtain ⟨zeros, hzeros, hlist⟩ := BitList.exists_withCapacity (N := validatorRegistryLimit)
    (n := maxId + 1) (show _ ≤ 4096 by omega)
  have hlength : ∀ id ∈ ids, id.toNat < zeros.toList.length := by
    intro id hid
    rw [hlist, List.length_replicate]
    exact Nat.lt_succ_of_le (hmax id hid)
  obtain ⟨bits, hfold, hbits⟩ := @foldlM_set_eq_ok ε setMessage ids zeros hlength
  refine ⟨bits, ?_, fun v ↦ ?_⟩
  · rw [hcapacity, Exec.ok_bind, hzeros, Exec.expect_some, Exec.ok_bind, hfold]
  · rw [mem_validatorIndices, hbits, hlist]
    have hnone : (List.replicate (maxId + 1) false)[v]? ≠ some true := by
      intro hsome
      exact nomatch (List.mem_replicate.mp (List.mem_of_getElem? hsome)).2
    simp [hnone]

theorem le_max?_of_mem {ids : List UInt64} {id : UInt64} (hid : id ∈ ids) :
    ∃ maxId, (ids.map UInt64.toNat).max? = some maxId ∧ id.toNat ≤ maxId := by
  have hmem : id.toNat ∈ ids.map UInt64.toNat := List.mem_map_of_mem hid
  cases hmax : (ids.map UInt64.toNat).max? with
  | none => simp [List.max?_eq_none_iff.mp hmax] at hmem
  | some maxId => exact ⟨maxId, rfl, (List.max?_eq_some_iff.mp hmax).2 id.toNat hmem⟩

theorem aggregateGroupBits_eq_ok {ids : List UInt64} (h : ∀ id ∈ ids, id.toNat < 4096) :
    ∃ bits, aggregateGroupBits ids = (.ok bits : Exec ε AggregationBits) ∧
      ∀ v, v ∈ validatorIndices bits ↔ ∃ id ∈ ids, id.toNat = v := by
  refine raiseIds_eq_ok (fun id hid ↦ ?_) ?_
  · obtain ⟨maxId, hmax, hle⟩ := le_max?_of_mem hid
    rwa [hmax, Option.getD_some]
  · cases hmax : (ids.map UInt64.toNat).max? with
    | none => simp
    | some maxId =>
      obtain ⟨id, hid, rfl⟩ := List.mem_map.mp (List.max?_mem hmax)
      exact h id hid

end Bits

section Groups

/-- The attestations of a list for one data root. -/
def votesFor (host : Host H) (attestations : List (Attestation H)) (root : H) :
    List (Attestation H) :=
  attestations.filter fun a ↦ decide (host.attestationData a.data = root)

theorem lookup_dataGroups (host : Host H) (attestations : List (Attestation H)) (root : H) :
    (dataGroups host attestations).lookup root = (votesFor host attestations root).head?.map
      fun a ↦ (a.data, (votesFor host attestations root).map fun a ↦ a.validatorId) := by
  induction attestations using List.reverseRecOn with
  | nil => rfl
  | append_singleton l a ih =>
    have hfold : dataGroups host (l ++ [a]) = (dataGroups host l).insert (host.attestationData a.data)
        ((((dataGroups host l).lookup (host.attestationData a.data)).getD (a.data, [])).1,
          (((dataGroups host l).lookup (host.attestationData a.data)).getD (a.data, [])).2 ++
            [a.validatorId]) := by
      simp [dataGroups, List.foldl_append]
    have hsplit : votesFor host (l ++ [a]) root =
        votesFor host l root ++ if host.attestationData a.data = root then [a] else [] := by
      rw [votesFor, List.filter_append, votesFor]
      congr 1
      by_cases h : host.attestationData a.data = root
      · simp [h]
      · simp [h]
    rw [hfold, Table.lookup_insert_eq_ite, hsplit]
    by_cases h : root = host.attestationData a.data
    · subst h
      rw [if_pos rfl, if_pos rfl, ih]
      cases votesFor host l (host.attestationData a.data) with
      | nil => rfl
      | cons b rest => simp
    · rw [if_neg h, if_neg (Ne.symm h), List.append_nil, ih]

theorem mem_votesFor {attestations : List (Attestation H)} {root : H} {a : Attestation H} :
    a ∈ votesFor host attestations root ↔
      a ∈ attestations ∧ host.attestationData a.data = root := by
  rw [votesFor, List.mem_filter, decide_eq_true_eq]

/-- Within a list, one data root stands for one data. -/
def DistinctRoots (host : Host H) (attestations : List (Attestation H)) : Prop :=
  ∀ a ∈ attestations, ∀ b ∈ attestations,
    host.attestationData a.data = host.attestationData b.data → a.data = b.data

theorem lookup_dataGroups_eq_some {attestations : List (Attestation H)}
    (hroots : DistinctRoots host attestations) {root : H} {group : AttestationData H × List UInt64}
    (h : (dataGroups host attestations).lookup root = some group) :
    host.attestationData group.1 = root ∧
      ∀ v, v ∈ group.2 ↔ ⟨v, group.1⟩ ∈ attestations := by
  rw [lookup_dataGroups, Option.map_eq_some_iff] at h
  obtain ⟨a, hhead, rfl⟩ := h
  have ha := mem_votesFor.mp (List.mem_of_mem_head? hhead)
  refine ⟨ha.2, fun v ↦ ?_⟩
  rw [List.mem_map]
  constructor
  · rintro ⟨b, hb, rfl⟩
    obtain ⟨hb, hroot⟩ := mem_votesFor.mp hb
    rw [hroots a ha.1 b hb (ha.2.trans hroot.symm)]
    exact hb
  · intro hv
    exact ⟨_, mem_votesFor.mpr ⟨hv, ha.2⟩, rfl⟩

theorem exists_of_forall₂_right {α β : Type} {R : α → β → Prop} {l : List α} {m : List β}
    (h : List.Forall₂ R l m) {b : β} (hb : b ∈ m) : ∃ a ∈ l, R a b := by
  induction h with
  | nil => exact absurd hb List.not_mem_nil
  | cons hR _ ih =>
    rcases List.mem_cons.mp hb with rfl | hb
    · exact ⟨_, List.mem_cons_self, hR⟩
    · obtain ⟨a, ha, hR⟩ := ih hb
      exact ⟨a, List.mem_cons_of_mem _ ha, hR⟩

/-- One aggregate for each distinct data, with just the validators that voted for it. -/
structure Grouped (attestations : List (Attestation H))
    (aggregates : List (AggregatedAttestation H)) : Prop where
  sound : ∀ g ∈ aggregates, ∀ v, v ∈ validatorIndices g.aggregationBits ↔
    ∃ a ∈ attestations, a.data = g.data ∧ a.validatorId.toNat = v
  complete : ∀ a ∈ attestations, ∃ g ∈ aggregates, g.data = a.data
  distinct : aggregates.Pairwise fun g g' ↦ g.data ≠ g'.data

theorem aggregateAttestationsByData_eq_ok {attestations : List (Attestation H)}
    (hids : ∀ a ∈ attestations, a.validatorId.toNat < 4096)
    (hroots : DistinctRoots host attestations) :
    ∃ aggregates, (aggregateAttestationsByData host attestations :
        Exec ε (List (AggregatedAttestation H))) = .ok aggregates ∧
      Grouped attestations aggregates := by
  set groups := host.order (Table.pairs (dataGroups host attestations)) with hgroups
  have hgroup : ∀ p ∈ groups, host.attestationData p.2.1 = p.1 ∧
      ∀ v, v ∈ p.2.2 ↔ ⟨v, p.2.1⟩ ∈ attestations := by
    intro p hp
    rw [hgroups, host.mem_order, Table.mem_pairs] at hp
    exact lookup_dataGroups_eq_some hroots hp
  obtain ⟨aggregates, hok, hall⟩ := Exec.exists_mapM_eq_ok (ε := ε) (l := groups)
    (f := fun group ↦ do
      let bits ← aggregateGroupBits group.2.2
      pure (⟨bits, group.2.1⟩ : AggregatedAttestation H))
    (R := fun p g ↦ g.data = p.2.1 ∧ ∀ v, v ∈ validatorIndices g.aggregationBits ↔
      ∃ id ∈ p.2.2, id.toNat = v) fun p hp ↦ by
    have hsmall : ∀ id ∈ p.2.2, id.toNat < 4096 :=
      fun id hid ↦ hids _ (((hgroup p hp).2 id).mp hid)
    obtain ⟨bits, hbits, hmem⟩ := aggregateGroupBits_eq_ok (ε := ε) hsmall
    exact ⟨⟨bits, p.2.1⟩, by rw [hbits]; rfl, rfl, hmem⟩
  refine ⟨aggregates, hok, ?_, ?_, ?_⟩
  · intro g hg v
    obtain ⟨p, hp, hdata, hmem⟩ := exists_of_forall₂_right hall hg
    rw [hmem]
    constructor
    · rintro ⟨id, hid, rfl⟩
      exact ⟨_, ((hgroup p hp).2 id).mp hid, hdata.symm, rfl⟩
    · rintro ⟨a, ha, haeq, rfl⟩
      refine ⟨a.validatorId, ((hgroup p hp).2 _).mpr ?_, rfl⟩
      rw [← hdata, ← haeq]
      exact ha
  · intro a ha
    obtain ⟨group, hlookup⟩ : ∃ group,
        (dataGroups host attestations).lookup (host.attestationData a.data) = some group := by
      rw [lookup_dataGroups]
      obtain ⟨b, rest, hcons⟩ := List.exists_cons_of_ne_nil
        (List.ne_nil_of_mem (mem_votesFor.mpr ⟨ha, rfl⟩))
      rw [hcons]
      exact ⟨_, rfl⟩
    have hp : (host.attestationData a.data, group) ∈ groups := by
      rw [hgroups, host.mem_order, Table.mem_pairs]
      exact hlookup
    obtain ⟨g, hg, hdata, -⟩ := exists_of_forall₂_right hall.flip hp
    refine ⟨g, hg, hdata.trans ?_⟩
    rw [lookup_dataGroups, Option.map_eq_some_iff] at hlookup
    obtain ⟨b, hhead, rfl⟩ := hlookup
    obtain ⟨hb, hroot⟩ := mem_votesFor.mp (List.mem_of_mem_head? hhead)
    exact hroots b hb a ha hroot
  · have hkeys : (groups.map Prod.fst).Nodup := by
      rw [hgroups, ((host.order_perm _).map Prod.fst).nodup_iff, Table.map_fst_pairs]
      exact AList.keys_nodup _
    have hdata : groups.map (fun p ↦ p.2.1) = aggregates.map fun g ↦ g.data := by
      rw [← List.forall₂_eq_eq_eq, List.forall₂_map_left_iff, List.forall₂_map_right_iff]
      exact hall.imp fun p g hpg ↦ hpg.1.symm
    have hdistinct : (aggregates.map fun g ↦ g.data).Pairwise (· ≠ ·) := by
      rw [← hdata, List.pairwise_map]
      refine (List.pairwise_map.mp hkeys).imp_of_mem fun {p q} hp hq hne heq ↦ hne ?_
      rw [← (hgroup p hp).1, ← (hgroup q hq).1, heq]
    exact List.pairwise_map.mp hdistinct

end Groups

section Cover

abbrev ProvedVote (H : Type) := AggregatedAttestation H × AggregatedSignatureProof

/-- A selected proof covers the vote of a validator for a data. -/
def Proves (p : ProvedVote H) (vote : ℕ × AttestationData H) : Prop :=
  p.1.data = vote.2 ∧ vote.1 ∈ p.2.participantIndices

variable {payloads : ProofMap H} {data : AttestationData H} {remaining : List ℕ}

/-- Every proof is filed under a validator that takes part in it. -/
def FiledByParticipant (payloads : ProofMap H) : Prop :=
  ∀ v root proofs, payloads.lookup (v, root) = some proofs →
    ∀ p ∈ proofs, v.toNat ∈ p.participantIndices

/-- A selected pair is a stored proof for its data, with the proof's participants as its bits. -/
def OnFile (host : Host H) (payloads : ProofMap H) (p : ProvedVote H) : Prop :=
  p.1.aggregationBits = p.2.participants ∧ ∃ v proofs,
    payloads.lookup (v, host.attestationData p.1.data) = some proofs ∧ p.2 ∈ proofs

theorem mem_covered {proof : AggregatedSignatureProof} {v : ℕ} :
    v ∈ covered remaining proof ↔ v ∈ proof.participantIndices ∧ v ∈ remaining := by
  rw [covered, List.mem_filter, decide_eq_true_eq]

/-- It is enough to go through the entries. -/
theorem filed_of_pairs
    (h : ∀ e ∈ Table.pairs payloads, ∀ p ∈ e.2, e.1.1.toNat ∈ p.participantIndices) :
    FiledByParticipant payloads :=
  fun v root proofs hlookup p hp ↦ h ((v, root), proofs) (Table.mem_pairs.mpr hlookup) p hp

/-- The greedy loop covers everything, and each proof it takes covers something new. -/
theorem coverRemaining_eq_ok (left : ℕ → Enumeration) (hfiled : FiledByParticipant payloads)
    (hproofs : ∀ v ∈ remaining, v < 4096 ∧ ∃ proof proofs,
      payloads.lookup (UInt64.ofNat v, host.attestationData data) = some (proof :: proofs))
    {turns : ℕ} (hturns : remaining.length < turns) :
    ∃ pairs, (coverRemaining host left payloads data turns remaining :
        Exec ε (List (ProvedVote H))) = .ok pairs ∧
      (∀ p ∈ pairs, p.1.data = data ∧ OnFile host payloads p) ∧
      (∀ v ∈ remaining, ∃ p ∈ pairs, Proves p (v, data)) ∧
      Fresh Proves (fun vote ↦ vote.2 = data ∧ vote.1 ∈ remaining) pairs := by
  induction turns generalizing remaining with
  | zero => omega
  | succ turns ih =>
    rw [coverRemaining]
    cases hhead : ((left turns).order remaining).head? with
    | none =>
      have hnil : remaining = [] := by
        have hperm := (left turns).order_perm remaining
        rw [List.head?_eq_none_iff.mp hhead] at hperm
        exact hperm.nil_eq.symm
      subst hnil
      exact ⟨[], rfl, by simp, by simp, .nil⟩
    | some targetId =>
      have htarget : targetId ∈ remaining :=
        (left turns).mem_order.mp (List.mem_of_mem_head? hhead)
      obtain ⟨hsmall, first, proofs, hlookup⟩ := hproofs targetId htarget
      obtain ⟨proof, hmax⟩ : ∃ proof, maxByKey (fun p ↦ (covered remaining p).length)
          (first :: proofs) = some proof := ⟨_, rfl⟩
      have hmem : proof ∈ first :: proofs := maxByKey_mem hmax
      -- the target itself is among the participants of whatever is filed under it
      have hpart : targetId ∈ proof.participantIndices := by
        have hin := hfiled _ _ _ hlookup proof hmem
        rwa [UInt64.toNat_ofNat', Nat.mod_eq_of_lt (by omega)] at hin
      have hcovered : covered remaining proof ≠ [] :=
        List.ne_nil_of_mem (mem_covered.mpr ⟨hpart, htarget⟩)
      set rest := remaining.filter fun vid ↦ decide (vid ∉ covered remaining proof) with hrest
      have hsub : ∀ v ∈ rest, v ∈ remaining := fun v hv ↦ (List.mem_filter.mp hv).1
      have hshorter : rest.length < turns := by
        have hlt : rest.length < remaining.length :=
          List.length_filter_lt_length_iff_exists.mpr
            ⟨targetId, htarget, by simp [mem_covered, hpart, htarget]⟩
        omega
      obtain ⟨pairs, hok, hstored, hcovers, hfresh⟩ :=
        ih (fun v hv ↦ hproofs v (hsub v hv)) hshorter
      refine ⟨(⟨proof.participants, data⟩, proof) :: pairs, ?_, ?_, ?_, ?_⟩
      · simp only [hlookup, Option.bind_some, hmax, hcovered, if_false, ← hrest, hok, Exec.ok_bind]
        rfl
      · intro p hp
        rcases List.mem_cons.mp hp with rfl | hp
        · exact ⟨rfl, rfl, _, _, hlookup, hmem⟩
        · exact hstored p hp
      · intro v hv
        by_cases hpv : v ∈ proof.participantIndices
        · exact ⟨_, List.mem_cons_self, rfl, hpv⟩
        · have hleft : v ∈ rest := by
            rw [hrest, List.mem_filter, decide_eq_true_eq, mem_covered]
            exact ⟨hv, fun h ↦ hpv h.1⟩
          obtain ⟨p, hp, hcov⟩ := hcovers v hleft
          exact ⟨p, List.mem_cons_of_mem _ hp, hcov⟩
      · refine .cons (x := (targetId, data)) ⟨rfl, htarget⟩ ⟨rfl, hpart⟩ ?_
        refine hfresh.mono fun vote hvote ↦ ⟨⟨hvote.1, hsub _ hvote.2⟩, fun hcov ↦ ?_⟩
        have hout := (List.mem_filter.mp hvote.2).2
        rw [decide_eq_true_eq, mem_covered] at hout
        exact hout ⟨hcov.2, hsub _ hvote.2⟩

end Cover

section Select

variable {attestations : List (Attestation H)} {payloads : ProofMap H}

/-- The selection covers all votes with stored proofs, none of them in vain. -/
structure Selected (host : Host H) (attestations : List (Attestation H)) (payloads : ProofMap H)
    (selected : List (AggregatedAttestation H) × List AggregatedSignatureProof) : Prop where
  length_eq : selected.1.length = selected.2.length
  stored : ∀ p ∈ selected.1.zip selected.2, OnFile host payloads p
  covers : ∀ a ∈ attestations, ∃ p ∈ selected.1.zip selected.2, Proves p (a.validatorId.toNat, a.data)
  fresh : Fresh Proves (fun vote ↦ ∃ a ∈ attestations, vote = (a.validatorId.toNat, a.data))
    (selected.1.zip selected.2)
  count : (selected.1.zip selected.2).length ≤
    (attestations.map fun a ↦ (a.validatorId, a.data)).dedup.length

theorem flatten_fresh {aggregates : List (AggregatedAttestation H)} {results : List (List (ProvedVote H))}
    (hall : List.Forall₂ (fun g pairs ↦ (∀ p ∈ pairs, p.1.data = g.data) ∧
      Fresh Proves (fun vote ↦ vote.2 = g.data ∧ vote.1 ∈ validatorIndices g.aggregationBits) pairs)
      aggregates results) (hdistinct : aggregates.Pairwise fun g g' ↦ g.data ≠ g'.data) :
    Fresh Proves (fun vote ↦ ∃ g ∈ aggregates, vote.2 = g.data ∧
      vote.1 ∈ validatorIndices g.aggregationBits) results.flatten := by
  induction hall with
  | nil => exact .nil
  | @cons g pairs aggregates results hg _ ih =>
    obtain ⟨hother, hdistinct⟩ := List.pairwise_cons.mp hdistinct
    rw [List.flatten_cons]
    refine .append (hg.2.mono fun vote hvote ↦ ⟨g, List.mem_cons_self, hvote⟩) ?_
    refine (ih hdistinct).mono fun vote hvote ↦ ?_
    obtain ⟨g', hg', hdata, hmem⟩ := hvote
    refine ⟨⟨g', List.mem_cons_of_mem g hg', hdata, hmem⟩, fun p hp hcov ↦ ?_⟩
    exact hother g' hg' ((hg.1 p hp).symm.trans (hcov.1.trans hdata))

theorem exists_selected (orders : BuilderOrders H) (hroots : DistinctRoots host attestations)
    (hids : ∀ a ∈ attestations, a.validatorId.toNat < 4096) (hfiled : FiledByParticipant payloads)
    (hproofs : ∀ a ∈ attestations, ∃ proof proofs,
      payloads.lookup (a.validatorId, host.attestationData a.data) = some (proof :: proofs)) :
    ∃ selected, (selectAggregatedProofs host orders attestations payloads : Exec ε _) = .ok selected ∧
      Selected host attestations payloads selected := by
  obtain ⟨aggregates, haggregates, hgrouped⟩ :=
    @aggregateAttestationsByData_eq_ok H _ _ (enumerating host orders.groups) ε _ hids hroots
  obtain ⟨results, hresults, hall⟩ := Exec.exists_mapM_eq_ok (ε := ε) (l := aggregates)
    (f := fun a ↦ coverRemaining host (orders.left a.data) payloads a.data
      ((validatorIndices a.aggregationBits).length + 1) (validatorIndices a.aggregationBits))
    (R := fun g pairs ↦ (∀ p ∈ pairs, p.1.data = g.data ∧ OnFile host payloads p) ∧
      (∀ v ∈ validatorIndices g.aggregationBits, ∃ p ∈ pairs, Proves p (v, g.data)) ∧
      Fresh Proves (fun vote ↦ vote.2 = g.data ∧ vote.1 ∈ validatorIndices g.aggregationBits) pairs)
    fun g hg ↦ by
      have hstored : ∀ v ∈ validatorIndices g.aggregationBits, v < 4096 ∧ ∃ proof proofs,
          payloads.lookup (UInt64.ofNat v, host.attestationData g.data) = some (proof :: proofs) := by
        intro v hv
        obtain ⟨a, ha, hdata, rfl⟩ := (hgrouped.sound g hg v).mp hv
        refine ⟨hids a ha, ?_⟩
        rw [UInt64.ofNat_toNat, ← hdata]
        exact hproofs a ha
      obtain ⟨pairs, hok, hspec⟩ := coverRemaining_eq_ok (ε := ε) (orders.left g.data) hfiled hstored
        (Nat.lt_succ_self _)
      exact ⟨pairs, hok, hspec⟩
  have hzip : results.flatten.unzip.1.zip results.flatten.unzip.2 = results.flatten :=
    List.zip_unzip _
  have hfresh : Fresh Proves (fun vote ↦ ∃ a ∈ attestations, vote = (a.validatorId.toNat, a.data))
      results.flatten := by
    refine (flatten_fresh (hall.imp fun g pairs h ↦ ⟨fun p hp ↦ (h.1 p hp).1, h.2.2⟩)
      hgrouped.distinct).mono fun vote hvote ↦ ?_
    obtain ⟨g, hg, hdata, hmem⟩ := hvote
    obtain ⟨a, ha, hadata, hav⟩ := (hgrouped.sound g hg _).mp hmem
    exact ⟨a, ha, Prod.ext hav.symm (hdata.trans hadata.symm)⟩
  refine ⟨results.flatten.unzip, ?_, ?_, ?_, ?_, ?_, ?_⟩
  · rw [selectAggregatedProofs, haggregates, Exec.ok_bind]
    dsimp only
    rw [hresults]
    rfl
  · rw [List.unzip_eq_map]
    simp only [List.length_map]
  · rw [hzip]
    intro p hp
    obtain ⟨pairs, hpairs, hp⟩ := List.mem_flatten.mp hp
    obtain ⟨g, -, hstored, -⟩ := exists_of_forall₂_right hall hpairs
    exact (hstored p hp).2
  · rw [hzip]
    intro a ha
    obtain ⟨g, hg, hdata⟩ := hgrouped.complete a ha
    obtain ⟨pairs, hpairs, -, hcovers, -⟩ := exists_of_forall₂_right hall.flip hg
    obtain ⟨p, hp, hcov⟩ := hcovers a.validatorId.toNat
      ((hgrouped.sound g hg _).mpr ⟨a, ha, hdata.symm, rfl⟩)
    exact ⟨p, List.mem_flatten.mpr ⟨pairs, hpairs, hp⟩, hcov.1.trans hdata, hcov.2⟩
  · rw [hzip]
    exact hfresh
  · rw [hzip, ← List.card_toFinset]
    refine (Fresh.length_le_card (s := (attestations.map fun a ↦ (a.validatorId, a.data)).toFinset.image
      fun vote ↦ (vote.1.toNat, vote.2)) (hfresh.mono fun vote hvote ↦ ?_)).trans Finset.card_image_le
    obtain ⟨a, ha, rfl⟩ := hvote
    refine Finset.mem_image.mpr ⟨(a.validatorId, a.data), ?_, rfl⟩
    exact List.mem_toFinset.mpr (List.mem_map_of_mem ha)

/-- Proof selection covers every vote, in whatever order each of its maps and sets is enumerated. -/
theorem selectAggregatedProofs_covers (orders : BuilderOrders H) (hroots : DistinctRoots host attestations)
    (hids : ∀ a ∈ attestations, a.validatorId.toNat < 4096) (hfiled : FiledByParticipant payloads)
    (hproofs : ∀ a ∈ attestations, ∃ proof proofs,
      payloads.lookup (a.validatorId, host.attestationData a.data) = some (proof :: proofs)) :
    ∃ selected, (selectAggregatedProofs host orders attestations payloads : Exec ε _) = .ok selected ∧
      Selected host attestations payloads selected :=
  exists_selected orders hroots hids hfiled hproofs

/-- Two votes, a proof of both and a proof of one. -/
def sampleVotes : List (Attestation ℕ) :=
  [⟨0, ownVote Sample.first sampleOrigin⟩, ⟨1, ownVote Sample.first sampleOrigin⟩]

def samplePayloads : ProofMap ℕ :=
  let root := sampleHost.attestationData (ownVote Sample.first sampleOrigin)
  (AList.singleton (0, root) [.empty ⟨[true, true], two_le_limit⟩, .empty ⟨[true], one_le_limit⟩]).insert
    (1, root) [.empty ⟨[true, true], two_le_limit⟩]

theorem samplePayloads_complete : ∀ a ∈ sampleVotes, ∃ proof proofs, samplePayloads.lookup
    (a.validatorId, sampleHost.attestationData a.data) = some (proof :: proofs) := by
  intro a ha
  have hsome : ∀ a ∈ sampleVotes, (samplePayloads.lookup
      (a.validatorId, sampleHost.attestationData a.data)).getD [] ≠ [] := by decide +kernel
  have hne := hsome a ha
  cases hlookup : samplePayloads.lookup (a.validatorId, sampleHost.attestationData a.data) with
  | none =>
    rw [hlookup] at hne
    exact absurd rfl hne
  | some proofs =>
    rw [hlookup] at hne
    obtain ⟨proof, rest, rfl⟩ := List.exists_cons_of_ne_nil hne
    exact ⟨proof, rest, rfl⟩

theorem selectAggregatedProofs_covers_sample :
    ∃ selected, (selectAggregatedProofs sampleHost (.uniform sampleHost) sampleVotes samplePayloads :
        Exec Empty _) = .ok selected ∧
      selected.2 = [.empty ⟨[true, true], by decide⟩] ∧
      Selected sampleHost sampleVotes samplePayloads selected := by
  have hroots : DistinctRoots sampleHost sampleVotes :=
    fun a _ b _ h ↦ sampleHost_attestationData_injective h
  obtain ⟨selected, hok, hselected⟩ := selectAggregatedProofs_covers (ε := Empty)
    (.uniform sampleHost) hroots (by decide) (filed_of_pairs (by decide +kernel))
    samplePayloads_complete
  have hview : ((selectAggregatedProofs sampleHost (.uniform sampleHost) sampleVotes samplePayloads :
      Exec Empty _).toOption.map Prod.snd) = some [.empty ⟨[true, true], by decide⟩] := by
    decide +kernel
  rw [hok] at hview
  exact ⟨selected, hok, Option.some.inj hview, hselected⟩

end Select

end Ethlambda.Chain
