import Ethlambda.Chain.Selection

namespace Ethlambda.Chain

open Ethlambda.Base Ethlambda.Types Ethlambda.Storage Ethlambda.StateTransition

set_option linter.unusedSectionVars false

variable {H : Type} [LinearOrder H] [Zero H] {host : Host H} {ε : Type} {headState : State H}
  {slot proposerIndex : UInt64} {parentRoot : H} {available included : List (Attestation H)}
  {knownRoots : List H} {payloads : ProofMap H} {keys : List (SignatureKey H)}
  {orders : BuilderOrders H}

/-- The key under which the proofs for a vote are filed. -/
def voteKey (th : TreeHash H) (a : Attestation H) : SignatureKey H :=
  (a.validatorId, th.attestationData a.data)

/-- The proofs filed for a vote. -/
def proofsFor (th : TreeHash H) (payloads : ProofMap H) (a : Attestation H) :
    List AggregatedSignatureProof :=
  (payloads.lookup (voteKey th a)).getD []

/-- A vote that the builder may take while a checkpoint is the justified one. -/
structure Includable (th : TreeHash H) (knownRoots : List H) (payloads : ProofMap H)
    (justified : Checkpoint H) (a : Attestation H) : Prop where
  known : a.data.head.root ∈ knownRoots
  source : a.data.source = justified
  proved : (payloads.lookup (voteKey th a)).isSome

instance (th : TreeHash H) (justified : Checkpoint H) (a : Attestation H) :
    Decidable (Includable th knownRoots payloads justified a) :=
  decidable_of_iff (a.data.head.root ∈ knownRoots ∧ a.data.source = justified ∧
    (payloads.lookup (voteKey th a)).isSome)
    ⟨fun h ↦ ⟨h.1, h.2.1, h.2.2⟩, fun h ↦ ⟨h.known, h.source, h.proved⟩⟩

section Collect

variable {justified : Checkpoint H} {a : Attestation H}

theorem newAttestations_concat (l : List (Attestation H)) (a : Attestation H) :
    newAttestations host (l ++ [a]) knownRoots payloads justified keys =
      let acc := newAttestations host l knownRoots payloads justified keys
      if a.data.head.root ∉ knownRoots then acc
      else if a.data.source ≠ justified then acc
      else if voteKey host.toTreeHash a ∈ acc.2 then acc
      else if (payloads.lookup (voteKey host.toTreeHash a)).isSome then
        (acc.1 ++ [a], voteKey host.toTreeHash a :: acc.2)
      else acc := by
  rw [newAttestations, List.foldl_append]
  rfl

/-- A turn takes includable votes of the pool, and afterwards every includable vote is taken. -/
structure Gathered (host : Host H) (available : List (Attestation H)) (knownRoots : List H)
    (payloads : ProofMap H) (justified : Checkpoint H) (keys : List (SignatureKey H))
    (new : List (Attestation H) × List (SignatureKey H)) : Prop where
  sound : ∀ a ∈ new.1, a ∈ available ∧ Includable host.toTreeHash knownRoots payloads justified a
  taken : ∀ key, key ∈ new.2 ↔ key ∈ keys ∨ ∃ a ∈ new.1, voteKey host.toTreeHash a = key
  fresh : ∀ a ∈ new.1, voteKey host.toTreeHash a ∉ keys
  complete : ∀ a ∈ available, Includable host.toTreeHash knownRoots payloads justified a →
    voteKey host.toTreeHash a ∈ new.2

theorem Gathered.more {l : List (Attestation H)}
    {new : List (Attestation H) × List (SignatureKey H)}
    (h : Gathered host l knownRoots payloads justified keys new)
    (ha : Includable host.toTreeHash knownRoots payloads justified a →
      voteKey host.toTreeHash a ∈ new.2) :
    Gathered host (l ++ [a]) knownRoots payloads justified keys new where
  sound := fun b hb ↦ ⟨List.mem_append_left _ (h.sound b hb).1, (h.sound b hb).2⟩
  taken := h.taken
  fresh := h.fresh
  complete := by
    intro b hb hincludable
    cases List.mem_append.mp hb with
    | inl hb => exact h.complete b hb hincludable
    | inr hb =>
      obtain rfl := List.mem_singleton.mp hb
      exact ha hincludable

theorem Gathered.take {l : List (Attestation H)}
    {new : List (Attestation H) × List (SignatureKey H)}
    (h : Gathered host l knownRoots payloads justified keys new)
    (ha : Includable host.toTreeHash knownRoots payloads justified a)
    (hnew : voteKey host.toTreeHash a ∉ new.2) :
    Gathered host (l ++ [a]) knownRoots payloads justified keys
      (new.1 ++ [a], voteKey host.toTreeHash a :: new.2) where
  sound := by
    intro b hb
    cases List.mem_append.mp hb with
    | inl hb => exact ⟨List.mem_append_left _ (h.sound b hb).1, (h.sound b hb).2⟩
    | inr hb =>
      obtain rfl := List.mem_singleton.mp hb
      exact ⟨List.mem_append_right _ List.mem_cons_self, ha⟩
  taken := by
    intro key
    simp only [List.mem_cons, h.taken, List.mem_append, List.not_mem_nil, or_false, or_and_right,
      exists_or, exists_eq_left]
    constructor
    · rintro (rfl | hkey | hnew)
      · exact .inr (.inr rfl)
      · exact .inl hkey
      · exact .inr (.inl hnew)
    · rintro (hkey | hnew | rfl)
      · exact .inr (.inl hkey)
      · exact .inr (.inr hnew)
      · exact .inl rfl
  fresh := by
    intro b hb
    cases List.mem_append.mp hb with
    | inl hb => exact h.fresh b hb
    | inr hb =>
      obtain rfl := List.mem_singleton.mp hb
      exact fun hkey ↦ hnew ((h.taken _).mpr (.inl hkey))
  complete := by
    intro b hb hincludable
    cases List.mem_append.mp hb with
    | inl hb => exact List.mem_cons_of_mem _ (h.complete b hb hincludable)
    | inr hb =>
      obtain rfl := List.mem_singleton.mp hb
      exact List.mem_cons_self

theorem newAttestations_gathered (available : List (Attestation H)) :
    Gathered host available knownRoots payloads justified keys
      (newAttestations host available knownRoots payloads justified keys) := by
  induction available using List.reverseRecOn with
  | nil =>
    refine ⟨fun a ha ↦ absurd ha List.not_mem_nil, fun key ↦ ?_,
      fun a ha ↦ absurd ha List.not_mem_nil, fun a ha ↦ absurd ha List.not_mem_nil⟩
    simp [newAttestations]
  | append_singleton l a ih =>
    rw [newAttestations_concat]
    dsimp only
    split
    · rename_i hunknown
      exact ih.more fun ha ↦ absurd ha.known hunknown
    rename_i hknown
    split
    · rename_i hother
      exact ih.more fun ha ↦ absurd ha.source hother
    rename_i hsource
    split
    · rename_i htaken
      exact ih.more fun _ ↦ htaken
    rename_i hfresh
    split
    · rename_i hproved
      exact ih.take ⟨not_not.mp hknown, not_not.mp hsource, hproved⟩ hfresh
    · rename_i hunproved
      exact ih.more fun ha ↦ absurd ha.proved hunproved

end Collect

section FixedPoint

/-- The votes that are in, with their keys: votes of the pool for known heads, each with an entry
for its proofs, and with each of them all votes of the pool for the same data that have one. -/
structure Pooled (host : Host H) (available : List (Attestation H)) (knownRoots : List H)
    (payloads : ProofMap H) (included : List (Attestation H)) (keys : List (SignatureKey H)) :
    Prop where
  sound : ∀ a ∈ included, a ∈ available ∧
    Includable host.toTreeHash knownRoots payloads a.data.source a
  taken : ∀ key, key ∈ keys ↔ ∃ a ∈ included, voteKey host.toTreeHash a = key
  alike : ∀ a ∈ included, ∀ b ∈ available, b.data = a.data →
    (payloads.lookup (voteKey host.toTreeHash b)).isSome → voteKey host.toTreeHash b ∈ keys

theorem Pooled.collect {justified : Checkpoint H}
    {new : List (Attestation H) × List (SignatureKey H)}
    (h : Pooled host available knownRoots payloads included keys)
    (hnew : Gathered host available knownRoots payloads justified keys new) :
    Pooled host available knownRoots payloads (included ++ new.1) new.2 where
  sound := by
    intro a ha
    cases List.mem_append.mp ha with
    | inl ha => exact h.sound a ha
    | inr ha =>
      obtain ⟨hmem, hincludable⟩ := hnew.sound a ha
      exact ⟨hmem, hincludable.known, rfl, hincludable.proved⟩
  taken := by
    intro key
    simp only [hnew.taken, h.taken, List.mem_append, or_and_right, exists_or]
  alike := by
    intro a ha b hb hdata hproved
    cases List.mem_append.mp ha with
    | inl ha => exact (hnew.taken _).mpr (.inl (h.alike a ha b hb hdata hproved))
    | inr ha =>
      obtain ⟨-, hincludable⟩ := hnew.sound a ha
      refine hnew.complete b hb ⟨?_, ?_, hproved⟩
      · rw [hdata]
        exact hincludable.known
      · rw [hdata]
        exact hincludable.source

/-- The last candidate: a block of just the included votes, above which no further vote of the pool
can be included. -/
structure FixedPoint (host : Host H) (turn : ℕ → Enumeration) (headState : State H)
    (slot proposerIndex : UInt64) (parentRoot : H) (available : List (Attestation H))
    (knownRoots : List H) (payloads : ProofMap H) (included : List (Attestation H))
    (candidate : AggregatedAttestations H) (post : State H) : Prop where
  aggregates : ∃ k, aggregateAttestationsByData (enumerating host (turn k)) included =
    (.ok candidate.toList : Chain.Result H (List (AggregatedAttestation H)))
  applied : applyBlock host headState (candidateBlock slot proposerIndex parentRoot candidate) =
    .ok post
  pooled : ∀ a ∈ included, a ∈ available ∧
    Includable host.toTreeHash knownRoots payloads a.data.source a
  alike : ∀ a ∈ included, ∀ b ∈ available, b.data = a.data →
    (payloads.lookup (voteKey host.toTreeHash b)).isSome →
      ∃ c ∈ included, voteKey host.toTreeHash c = voteKey host.toTreeHash b
  closed : ∀ a ∈ available, Includable host.toTreeHash knownRoots payloads post.latestJustified a →
    ∃ b ∈ included, voteKey host.toTreeHash b = voteKey host.toTreeHash a

theorem includeAttestations_eq_ok {turns : ℕ} {result : List (Attestation H)}
    (hpooled : Pooled host available knownRoots payloads included keys)
    (h : includeAttestations host orders.turn headState slot proposerIndex parentRoot available
      knownRoots payloads turns included keys = .ok result) :
    ∃ candidate post, FixedPoint host orders.turn headState slot proposerIndex parentRoot available
      knownRoots payloads result candidate post := by
  induction turns generalizing included keys with
  | zero => exact nomatch h
  | succ turns ih =>
    obtain ⟨aggregates, haggregates, h⟩ := Exec.bind_eq_ok.mp h
    obtain ⟨candidate, hcandidate, h⟩ := Exec.bind_eq_ok.mp h
    obtain ⟨post, happlied, h⟩ := Exec.bind_eq_ok.mp h
    have hlist := VariableList.new_eq_some.mp (Exec.expect_eq_ok.mp hcandidate)
    have hgathered : Gathered host available knownRoots payloads post.latestJustified keys
        (newAttestations host available knownRoots payloads post.latestJustified keys) :=
      newAttestations_gathered available
    have hend (hclosed : ∀ a ∈ available,
        Includable host.toTreeHash knownRoots payloads post.latestJustified a →
          voteKey host.toTreeHash a ∈ keys) :
        FixedPoint host orders.turn headState slot proposerIndex parentRoot available knownRoots
          payloads included candidate post :=
      ⟨⟨turns, by rw [haggregates, hlist]⟩, happlied, hpooled.sound,
        fun a ha b hb hdata hproved ↦ (hpooled.taken _).mp (hpooled.alike a ha b hb hdata hproved),
        fun a ha hincludable ↦ (hpooled.taken _).mp (hclosed a ha hincludable)⟩
    split at h
    · rename_i hnone
      obtain rfl := Except.ok.inj h
      refine ⟨candidate, post, hend fun a ha hincludable ↦ ?_⟩
      rcases hnone with rfl | rfl
      · exact absurd ha List.not_mem_nil
      · exact absurd hincludable.known List.not_mem_nil
    · dsimp only at h
      split at h
      · rename_i hnil
        obtain rfl := Except.ok.inj h
        refine ⟨candidate, post, hend fun a ha hincludable ↦ ?_⟩
        have htaken := (hgathered.taken _).mp (hgathered.complete a ha hincludable)
        simpa [hnil] using htaken
      · exact ih (hpooled.collect hgathered) h

theorem pooled_nil (host : Host H) (available : List (Attestation H)) (knownRoots : List H)
    (payloads : ProofMap H) : Pooled host available knownRoots payloads [] [] where
  sound := fun a ha ↦ absurd ha List.not_mem_nil
  taken := fun key ↦ by simp
  alike := fun a ha ↦ absurd ha List.not_mem_nil

end FixedPoint

section Selection

theorem withCapacity_eq_some {n : ℕ} {bits : AggregationBits}
    (h : BitList.withCapacity validatorRegistryLimit n = some bits) : n ≤ 4096 := by
  have hlen := bits.length_le
  rw [BitList.withCapacity_eq_some.mp h, List.length_replicate] at hlen
  exact hlen

/-- Votes that fit into bitfields come from validators below the registry limit. -/
theorem ids_of_aggregate {aggregates : List (AggregatedAttestation H)}
    (h : (aggregateAttestationsByData host included : Exec ε _) = .ok aggregates) :
    ∀ a ∈ included, a.validatorId.toNat < 4096 := by
  intro a ha
  obtain ⟨b, rest, hvotes⟩ := List.exists_cons_of_ne_nil
    (List.ne_nil_of_mem (mem_votesFor.mpr ⟨ha, rfl⟩))
  have hgroup := lookup_dataGroups host included (host.attestationData a.data)
  rw [hvotes, List.head?_cons, Option.map_some, ← hvotes] at hgroup
  have hmem := host.mem_order.mpr (Table.mem_pairs.mpr hgroup)
  obtain ⟨g, -, hg⟩ := exists_of_forall₂_right (Exec.mapM_eq_ok.mp h).flip hmem
  obtain ⟨bits, hbits, -⟩ := Exec.bind_eq_ok.mp hg
  obtain ⟨capacity, hcapacity, hbits⟩ := Exec.bind_eq_ok.mp hbits
  obtain ⟨zeros, hzeros, -⟩ := Exec.bind_eq_ok.mp hbits
  obtain ⟨-, rfl⟩ := Exec.add64_eq_ok.mp hcapacity
  have hlimit := withCapacity_eq_some (Exec.expect_eq_ok.mp hzeros)
  have hid : a.validatorId ∈ (votesFor host included (host.attestationData a.data)).map
      fun a ↦ a.validatorId := List.mem_map_of_mem (mem_votesFor.mpr ⟨ha, rfl⟩)
  obtain ⟨maxId, hmax, hle⟩ := le_max?_of_mem hid
  rw [hmax, Option.getD_some] at hlimit
  omega

/-- Each aggregate is of votes that are in the list. -/
theorem data_of_aggregate {aggregates : List (AggregatedAttestation H)}
    (h : (aggregateAttestationsByData host included : Exec ε _) = .ok aggregates) :
    ∀ g ∈ aggregates, ∃ a ∈ included, a.data = g.data := by
  intro g hg
  obtain ⟨group, hmem, hgroup⟩ := exists_of_forall₂_right (Exec.mapM_eq_ok.mp h) hg
  obtain ⟨bits, -, hbits⟩ := Exec.bind_eq_ok.mp hgroup
  obtain rfl := Except.ok.inj hbits
  have hlookup := Table.mem_pairs.mp (host.mem_order.mp hmem)
  rw [lookup_dataGroups, Option.map_eq_some_iff] at hlookup
  obtain ⟨a, hhead, hdata⟩ := hlookup
  refine ⟨a, (mem_votesFor.mp (List.mem_of_mem_head? hhead)).1, ?_⟩
  rw [← hdata]

/-- What the greedy loop takes is filed under validators that it had left. -/
theorem coverRemaining_sound {left : ℕ → Enumeration} {data : AttestationData H} {turns : ℕ}
    {remaining : List ℕ} {pairs : List (ProvedVote H)}
    (h : (coverRemaining host left payloads data turns remaining : Exec ε _) = .ok pairs) :
    ∀ p ∈ pairs, p.1 = ⟨p.2.participants, data⟩ ∧ ∃ v ∈ remaining, ∃ proofs,
      payloads.lookup (UInt64.ofNat v, host.attestationData data) = some proofs ∧ p.2 ∈ proofs := by
  induction turns generalizing remaining pairs with
  | zero => exact nomatch h
  | succ turns ih =>
    rw [coverRemaining] at h
    split at h
    · obtain rfl := Except.ok.inj h
      exact fun p hp ↦ absurd hp List.not_mem_nil
    rename_i target htarget
    split at h
    · obtain rfl := Except.ok.inj h
      exact fun p hp ↦ absurd hp List.not_mem_nil
    rename_i proof hproof
    split at h
    · obtain rfl := Except.ok.inj h
      exact fun p hp ↦ absurd hp List.not_mem_nil
    obtain ⟨rest, hrest, h⟩ := Exec.bind_eq_ok.mp h
    obtain rfl := Except.ok.inj h
    intro p hp
    cases List.mem_cons.mp hp with
    | inl hp =>
      obtain ⟨proofs, hproofs, hmax⟩ := Option.bind_eq_some_iff.mp hproof
      rw [hp]
      exact ⟨rfl, target, (left turns).mem_order.mp (List.mem_of_mem_head? htarget), proofs,
        hproofs, maxByKey_mem hmax⟩
    | inr hp =>
      obtain ⟨hpair, v, hv, hstored⟩ := ih hrest p hp
      exact ⟨hpair, v, (List.mem_filter.mp hv).1, hstored⟩

/-- Each selected attestation has the data of a vote, and its bits from a proof for that vote. -/
theorem selected_sound (hinj : Function.Injective host.attestationData)
    (hids : ∀ a ∈ included, a.validatorId.toNat < 4096)
    {selected : List (AggregatedAttestation H) × List AggregatedSignatureProof}
    (h : (selectAggregatedProofs host orders included payloads : Exec ε _) = .ok selected) :
    ∀ g ∈ selected.1, ∃ a ∈ included, a.data = g.data ∧ ∃ p ∈ proofsFor host.toTreeHash payloads a,
      g.aggregationBits = p.participants := by
  obtain ⟨aggregates, haggregates, h⟩ := Exec.bind_eq_ok.mp h
  obtain ⟨results, hresults, h⟩ := Exec.bind_eq_ok.mp h
  obtain rfl := Except.ok.inj h
  obtain ⟨_, hgroups, hgrouped⟩ := @aggregateAttestationsByData_eq_ok H _ _
    (enumerating host orders.groups) ε _ hids fun a _ b _ hroots ↦ hinj hroots
  obtain rfl := Except.ok.inj (hgroups.symm.trans haggregates)
  intro g hg
  rw [List.unzip_eq_map] at hg
  obtain ⟨pair, hpair, rfl⟩ := List.mem_map.mp hg
  obtain ⟨pairs, hpairs, hpair⟩ := List.mem_flatten.mp hpair
  obtain ⟨group, hgroup, hcover⟩ := exists_of_forall₂_right (Exec.mapM_eq_ok.mp hresults) hpairs
  obtain ⟨heq, v, hv, proofs, hproofs, hmem⟩ := coverRemaining_sound hcover pair hpair
  obtain ⟨a, ha, hdata, rfl⟩ := (hgrouped.sound group hgroup v).mp hv
  rw [UInt64.ofNat_toNat, ← hdata] at hproofs
  rw [heq]
  refine ⟨a, ha, hdata, pair.2, ?_, rfl⟩
  rw [proofsFor, voteKey, hproofs]
  exact hmem

/-- The block holds the validator's vote for the data. -/
def HoldsVote (block : Block H) (a : Attestation H) : Prop :=
  ∃ g ∈ block.body.attestations.toList, g.data = a.data ∧
    a.validatorId.toNat ∈ validatorIndices g.aggregationBits

instance (block : Block H) (a : Attestation H) : Decidable (HoldsVote block a) :=
  inferInstanceAs (Decidable (∃ g ∈ block.body.attestations.toList, g.data = a.data ∧
    a.validatorId.toNat ∈ validatorIndices g.aggregationBits))

/-- What a built block is made of: the fixed point, and the proofs selected for its votes. -/
structure Built (host : Host H) (orders : BuilderOrders H) (headState : State H)
    (slot proposerIndex : UInt64) (parentRoot : H) (available : List (Attestation H))
    (knownRoots : List H) (payloads : ProofMap H) (included : List (Attestation H))
    (candidate : AggregatedAttestations H) (last : State H)
    (result : Block H × State H × List AggregatedSignatureProof) : Prop where
  fixed : FixedPoint host orders.turn headState slot proposerIndex parentRoot available knownRoots
    payloads included candidate last
  selected : selectAggregatedProofs host orders included payloads =
    (.ok (result.1.body.attestations.toList, result.2.2) : Chain.Result H _)
  applied : applyBlock host headState
    (candidateBlock slot proposerIndex parentRoot result.1.body.attestations) = .ok result.2.1
  block : result.1 = { candidateBlock slot proposerIndex parentRoot result.1.body.attestations with
    stateRoot := host.state result.2.1 }

theorem buildBlock_eq_ok {result : Block H × State H × List AggregatedSignatureProof}
    (h : buildBlock host orders headState slot proposerIndex parentRoot available knownRoots
      payloads = .ok result) :
    ∃ included candidate last, Built host orders headState slot proposerIndex parentRoot available
      knownRoots payloads included candidate last result := by
  obtain ⟨included, hincluded, h⟩ := Exec.bind_eq_ok.mp h
  obtain ⟨⟨selected, proofs⟩, hselected, h⟩ := Exec.bind_eq_ok.mp h
  obtain ⟨attestations, hattestations, h⟩ := Exec.bind_eq_ok.mp h
  obtain ⟨post, hpost, h⟩ := Exec.bind_eq_ok.mp h
  obtain rfl := Except.ok.inj h
  obtain ⟨candidate, last, hfixed⟩ := includeAttestations_eq_ok (pooled_nil host available
    knownRoots payloads) hincluded
  have hlist := VariableList.new_eq_some.mp (Exec.expect_eq_ok.mp hattestations)
  refine ⟨included, candidate, last, hfixed, ?_, hpost, rfl⟩
  rw [hselected]
  exact congrArg (fun l ↦ Except.ok (l, proofs)) hlist.symm

/-- Every entry for a vote lists a proof. -/
def NoEmptyEntry (payloads : ProofMap H) : Prop := ∀ key, payloads.lookup key ≠ some []

theorem noEmptyEntry_of_pairs (h : ∀ e ∈ Table.pairs payloads, e.2 ≠ []) : NoEmptyEntry payloads :=
  fun key hlookup ↦ h (key, []) (Table.mem_pairs.mpr hlookup) rfl

theorem NoEmptyEntry.exists_proof (h : NoEmptyEntry payloads) {key : SignatureKey H}
    (hkey : (payloads.lookup key).isSome) :
    ∃ proof proofs, payloads.lookup key = some (proof :: proofs) := by
  obtain ⟨proofs, hproofs⟩ := Option.isSome_iff_exists.mp hkey
  obtain ⟨proof, rest, rfl⟩ := List.exists_cons_of_ne_nil fun hnil ↦ h key (hnil ▸ hproofs)
  exact ⟨proof, rest, hproofs⟩

variable {candidate : AggregatedAttestations H} {last : State H}
  {result : Block H × State H × List AggregatedSignatureProof}

theorem Built.ids (h : Built host orders headState slot proposerIndex parentRoot available
      knownRoots payloads included candidate last result) :
    ∀ a ∈ included, a.validatorId.toNat < 4096 := by
  obtain ⟨k, haggregates⟩ := h.fixed.aggregates
  exact ids_of_aggregate haggregates

/-- The selected proofs cover the included votes. -/
theorem Built.covered (hinj : Function.Injective host.attestationData)
    (hfiled : FiledByParticipant payloads) (hentries : NoEmptyEntry payloads)
    (h : Built host orders headState slot proposerIndex parentRoot available knownRoots payloads
      included candidate last result) :
    Selected host included payloads (result.1.body.attestations.toList, result.2.2) := by
  obtain ⟨selected, hok, hspec⟩ := exists_selected
    (ε := StoreError H) orders (fun a _ b _ heq ↦ hinj heq) h.ids hfiled
    fun a ha ↦ hentries.exists_proof (h.fixed.pooled a ha).2.proved
  rw [← Except.ok.inj (hok.symm.trans h.selected)]
  exact hspec

theorem Selected.holdsVote (hsel : Selected host included payloads
      (result.1.body.attestations.toList, result.2.2)) {a : Attestation H} (ha : a ∈ included) :
    HoldsVote result.1 a := by
  obtain ⟨p, hp, hdata, hmem⟩ := hsel.covers a ha
  obtain ⟨hbits, -⟩ := hsel.stored p hp
  refine ⟨p.1, (List.of_mem_zip hp).1, hdata, ?_⟩
  rw [hbits]
  exact hmem

theorem eq_of_voteKey (hinj : Function.Injective host.attestationData) {a b : Attestation H}
    (h : voteKey host.toTreeHash a = voteKey host.toTreeHash b) : a = b := by
  obtain ⟨hid, hroot⟩ := Prod.mk.inj h
  cases a
  cases b
  congr 1
  exact hinj hroot

/-- Every vote of the pool that could be included above the last candidate is in the block. -/
theorem Built.holdsVote (hinj : Function.Injective host.attestationData)
    (hfiled : FiledByParticipant payloads) (hentries : NoEmptyEntry payloads)
    (h : Built host orders headState slot proposerIndex parentRoot available knownRoots payloads
      included candidate last result) {a : Attestation H} (ha : a ∈ available)
    (hincludable : Includable host.toTreeHash knownRoots payloads last.latestJustified a) :
    HoldsVote result.1 a := by
  obtain ⟨b, hb, hkey⟩ := h.fixed.closed a ha hincludable
  rw [← eq_of_voteKey hinj hkey]
  exact (h.covered hinj hfiled hentries).holdsVote hb

/-- The builder ends with a candidate of just the included votes. Every vote of the pool that is for
a known head, has a proof and starts from the candidate's justified checkpoint is in the block,
whatever the orders of the builder's maps. -/
theorem builder_fixed_point (hinj : Function.Injective host.attestationData)
    (hfiled : FiledByParticipant payloads) (hentries : NoEmptyEntry payloads) {block : Block H}
    {post : State H} {proofs : List AggregatedSignatureProof}
    (h : buildBlock host orders headState slot proposerIndex parentRoot available knownRoots
      payloads = .ok (block, post, proofs)) :
    ∃ (included : List (Attestation H)) (candidate : AggregatedAttestations H) (last : State H),
      (∀ a ∈ included, a ∈ available) ∧
      (∃ k, aggregateAttestationsByData (enumerating host (orders.turn k)) included =
        (.ok candidate.toList : Chain.Result H (List (AggregatedAttestation H)))) ∧
      applyBlock host headState (candidateBlock slot proposerIndex parentRoot candidate) =
        .ok last ∧
      selectAggregatedProofs host orders included payloads =
        (.ok (block.body.attestations.toList, proofs) : Chain.Result H _) ∧
      ∀ a ∈ available, a.data.head.root ∈ knownRoots →
        a.data.source = last.latestJustified →
        (payloads.lookup (a.validatorId, host.attestationData a.data)).isSome →
        HoldsVote block a := by
  obtain ⟨included, candidate, last, hbuilt⟩ := buildBlock_eq_ok h
  refine ⟨included, candidate, last, fun a ha ↦ (hbuilt.fixed.pooled a ha).1,
    hbuilt.fixed.aggregates, hbuilt.fixed.applied, hbuilt.selected, ?_⟩
  intro a ha hknown hsource hproved
  exact hbuilt.holdsVote hinj hfiled hentries ha ⟨hknown, hsource, hproved⟩

def plainSecond : Block ℕ := sampleBlock Sample.first 2 .empty

/-- The votes of validator 0 from genesis to the first block and of validator 1 from there on. -/
def lowerVote : Attestation ℕ :=
  ⟨0, (sampleVote ⟨[true], one_le_limit⟩ sampleOrigin Sample.first).data⟩

def upperVote : Attestation ℕ :=
  ⟨1, (sampleVote ⟨[true], one_le_limit⟩ Sample.first plainSecond).data⟩

/-- The proof for the lower vote is also one for validator 1. -/
def sharedPayloads : ProofMap ℕ :=
  Table.ofPairs [
    (voteKey sampleHost.toTreeHash lowerVote, [.empty ⟨[true, true], two_le_limit⟩]),
    (voteKey sampleHost.toTreeHash upperVote, [.empty ⟨[false, true], two_le_limit⟩])]

def plainRoots : List ℕ :=
  [sampleHash.block sampleOrigin, sampleHash.block Sample.first, sampleHash.block plainSecond]

def buildThird (payloads : ProofMap ℕ) :
    Chain.Result ℕ (Block ℕ × State ℕ × List AggregatedSignatureProof) :=
  match runChain sampleHash sampleGenesis [Sample.first, plainSecond] with
  | .ok headState => buildBlock sampleHost (.uniform sampleHost) headState 3 0
      (sampleHash.block plainSecond) [lowerVote, upperVote] plainRoots payloads
  | .error _ => Exec.panic .assertion

/-- The justified checkpoint after the third block, and whether the block holds either vote. -/
def thirdView (result : Block ℕ × State ℕ × List AggregatedSignatureProof) :
    Checkpoint ℕ × Bool × Bool :=
  (result.2.1.latestJustified, decide (HoldsVote result.1 lowerVote),
    decide (HoldsVote result.1 upperVote))

theorem buildThird_eq :
    ∃ headState block post proofs,
      runChain sampleHash sampleGenesis [Sample.first, plainSecond] = .ok headState ∧
      buildBlock sampleHost (.uniform sampleHost) headState 3 0 (sampleHash.block plainSecond)
        [lowerVote, upperVote] plainRoots sharedPayloads = .ok (block, post, proofs) ∧
      post.latestJustified = upperVote.data.source ∧ HoldsVote block lowerVote ∧
      ¬HoldsVote block upperVote := by
  have hview : ((buildThird sharedPayloads).toOption.map thirdView) =
      some (upperVote.data.source, true, false) := by decide +kernel
  obtain ⟨⟨block, post, proofs⟩, hthird, hthirdView⟩ := Exec.exists_ok_of_map hview
  obtain ⟨hjustified, hvotes⟩ := Prod.mk.inj hthirdView
  obtain ⟨hlower, hupper⟩ := Prod.mk.inj hvotes
  unfold buildThird at hthird
  split at hthird
  · rename_i headState hhead
    exact ⟨headState, block, post, proofs, hhead, hthird, hjustified, of_decide_eq_true hlower,
      of_decide_eq_false hupper⟩
  · exact nomatch hthird

theorem builder_fixed_point_sample :
    ∃ (block : Block ℕ) (proofs : List AggregatedSignatureProof)
      (included : List (Attestation ℕ)) (candidate : AggregatedAttestations ℕ) (last : State ℕ),
      HoldsVote block lowerVote ∧
      aggregateAttestationsByData sampleHost included =
        (.ok candidate.toList : Chain.Result ℕ (List (AggregatedAttestation ℕ))) ∧
      selectAggregatedProofs sampleHost (.uniform sampleHost) included sharedPayloads =
        (.ok (block.body.attestations.toList, proofs) : Chain.Result ℕ _) ∧
      ∀ a ∈ [lowerVote, upperVote], a.data.head.root ∈ plainRoots →
        a.data.source = last.latestJustified →
        (sharedPayloads.lookup (a.validatorId, sampleHost.attestationData a.data)).isSome →
        HoldsVote block a := by
  obtain ⟨headState, block, post, proofs, -, hbuild, -, hlower, -⟩ := buildThird_eq
  obtain ⟨included, candidate, last, -, ⟨_, haggregates⟩, -, hselected, hall⟩ := builder_fixed_point
    sampleHost_attestationData_injective (filed_of_pairs (by decide +kernel))
    (noEmptyEntry_of_pairs (by decide +kernel)) hbuild
  exact ⟨block, proofs, included, candidate, last, hlower, haggregates, hselected, hall⟩

/-- The proof selected for the lower vote brings the vote of validator 1, which justifies the first
block. The upper vote starts from there, but the builder has stopped. -/
theorem upper_vote_missing :
    ∃ headState block post proofs,
      runChain sampleHash sampleGenesis [Sample.first, plainSecond] = .ok headState ∧
      buildBlock sampleHost (.uniform sampleHost) headState 3 0 (sampleHash.block plainSecond)
        [lowerVote, upperVote] plainRoots sharedPayloads = .ok (block, post, proofs) ∧
      FiledByParticipant sharedPayloads ∧ upperVote ∈ [lowerVote, upperVote] ∧
      upperVote.data.head.root ∈ plainRoots ∧ upperVote.data.source = post.latestJustified ∧
      (sharedPayloads.lookup
        (upperVote.validatorId, sampleHost.attestationData upperVote.data)).isSome ∧
      ¬HoldsVote block upperVote := by
  obtain ⟨headState, block, post, proofs, hhead, hbuild, hjustified, -, hupper⟩ := buildThird_eq
  exact ⟨headState, block, post, proofs, hhead, hbuild, filed_of_pairs (by decide +kernel), by simp,
    by decide +kernel, hjustified.symm, by decide +kernel, hupper⟩

end Selection

end Ethlambda.Chain
