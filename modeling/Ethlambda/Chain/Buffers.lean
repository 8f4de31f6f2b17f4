import Ethlambda.Base.Queue
import Ethlambda.Chain.Pools

namespace Ethlambda.Chain

open Ethlambda.Base Ethlambda.Types Ethlambda.Storage Ethlambda.StateTransition Ethlambda.ForkChoice

set_option linter.unusedSectionVars false

variable {H : Type} [LinearOrder H] [Zero H] {host : Host H} {s s' : Store H} {ε : Type}

section Buffer

variable {b : PayloadBuffer H} {cap : ℕ}

/-- A buffer of the given capacity, as its operations leave it. -/
structure Within (cap : ℕ) (b : PayloadBuffer H) : Prop where
  capacity : b.capacity = cap
  length_le : b.entries.length ≤ cap

theorem Within.entries_pushBatch (h : Within cap b) (l : List (SignatureKey H × StoredAggregatedPayload)) :
    (b.pushBatch l).entries = l.foldl (offer cap) b.entries := by
  obtain ⟨rfl, -⟩ := h
  unfold PayloadBuffer.pushBatch
  induction l generalizing b with
  | nil => rfl
  | cons e l ih => exact ih

theorem pushBatch_capacity (b : PayloadBuffer H) (l : List (SignatureKey H × StoredAggregatedPayload)) :
    (b.pushBatch l).capacity = b.capacity := by
  unfold PayloadBuffer.pushBatch
  induction l generalizing b with
  | nil => rfl
  | cons e l ih => exact ih _

theorem Within.pushBatch (hcap : 0 < cap) (h : Within cap b)
    (l : List (SignatureKey H × StoredAggregatedPayload)) : Within cap (b.pushBatch l) where
  capacity := (pushBatch_capacity b l).trans h.capacity
  length_le := by
    rw [h.entries_pushBatch]
    exact length_foldl_offer_le hcap h.length_le l

/-- A batch of distinct keys is in the buffer exactly if it fits into an empty one. -/
theorem Within.batch_kept_iff (hcap : 0 < cap) (h : Within cap b)
    {l : List (SignatureKey H × StoredAggregatedPayload)} (hl : (l.map Prod.fst).Nodup) :
    (∀ key ∈ l.map Prod.fst, key ∈ (b.pushBatch l).uniqueKeys) ↔ l.length ≤ cap := by
  rw [← Base.batch_kept_iff hcap h.length_le hl]
  simp only [mem_uniqueKeys, h.entries_pushBatch]
  constructor
  · intro hkeys e he
    exact hkeys e.1 (List.mem_map_of_mem he)
  · intro hkeys key hkey
    obtain ⟨e, he, rfl⟩ := List.mem_map.mp hkey
    exact hkeys e he

end Buffer

section Sized

/-- The two buffers of a store, as every operation leaves them. -/
structure Sized (s : Store H) : Prop where
  new : Within newPayloadCap s.newPayloads
  known : Within aggregatedPayloadCap s.knownPayloads

/-- Promotion moves every new entry to the known ones. -/
theorem Sized.promoted (h : Sized s) {key : SignatureKey H} (hkey : key ∈ s.newPayloads.uniqueKeys) :
    key ∈ s.promoteNewAggregatedPayloads.knownPayloads.uniqueKeys := by
  rw [mem_uniqueKeys] at hkey ⊢
  obtain ⟨e, he, rfl⟩ := List.mem_map.mp hkey
  refine List.mem_map_of_mem ?_
  change e ∈ (s.knownPayloads.pushBatch s.newPayloads.entries).entries
  rw [h.known.entries_pushBatch]
  have hlen : s.newPayloads.entries.length ≤ aggregatedPayloadCap :=
    h.new.length_le.trans (by decide)
  exact mem_foldl_offer (by decide) h.known.length_le hlen he

theorem sized_invariant : VoteInvariant (Sized : Store H → Prop) where
  fewer := fun h hf ↦ ⟨hf.newPayloads ▸ h.new, hf.knownPayloads ▸ h.known⟩
  promote := fun h ↦ ⟨⟨h.new.capacity, Nat.zero_le _⟩, h.known.pushBatch (by decide) _⟩
  aggregate := fun h _ ↦ ⟨h.new.pushBatch (by decide) _, h.known⟩

theorem Sized.step {c : Call H} (h : Sized s) (hs : Call.step host s c = .ok s') : Sized s' := by
  refine sized_invariant.step h hs ?_ ?_ ?_
  · intro signed ids sig _ _
    exact ⟨⟨h.new, h.known⟩, ⟨h.new, h.known⟩⟩
  · intro aggregated _ _
    exact ⟨h.new.pushBatch (by decide) _, h.known⟩
  · intro sb ids post _ _ _
    have hadopt := sized_invariant.fewer h (fewer_adoptCheckpoints host s post)
    have hrecord : Sized (recordBlock host sb post s) := by
      unfold recordBlock
      generalize adoptCheckpoints host s post = t at hadopt ⊢
      exact ⟨hadopt.new, hadopt.known.pushBatch (by decide) _⟩
    generalize recordBlock host sb post s = t at hrecord ⊢
    exact ⟨hrecord, fun head sig _ ↦ ⟨hrecord.new, hrecord.known⟩⟩

theorem Sized.run {calls : List (Call H)} (h : Sized s) (hs : Call.run host s calls = .ok s') :
    Sized s' :=
  Runs.run_invariant (fun _ _ _ h hs ↦ h.step hs) h hs

theorem sized_initStore {st : State H} {body : Option (BlockBody H)}
    (h : Store.initStore host st body = .ok s) : Sized s := by
  obtain ⟨-, rfl⟩ := Store.initStore_eq_ok.mp h
  exact ⟨⟨rfl, Nat.zero_le _⟩, ⟨rfl, Nat.zero_le _⟩⟩

end Sized

section Kept

/-- The vote is in the buffer of new votes, and after a promotion in that of known ones. -/
def Counted (s : Store H) (key : SignatureKey H) : Prop :=
  key ∈ s.newPayloads.uniqueKeys ∧
    key ∈ s.promoteNewAggregatedPayloads.knownPayloads.uniqueKeys

theorem counted_batch_iff {l : List (SignatureKey H × StoredAggregatedPayload)}
    (h : Sized s) (hl : (l.map Prod.fst).Nodup) (hs : Sized s')
    (hnew : s'.newPayloads = s.newPayloads.pushBatch l) :
    (∀ key ∈ l.map Prod.fst, Counted s' key) ↔ l.length ≤ newPayloadCap := by
  rw [← h.new.batch_kept_iff (by decide) hl, ← hnew]
  constructor
  · intro hcounted key hkey
    exact (hcounted key hkey).1
  · intro hkept key hkey
    exact ⟨hkept key hkey, hs.promoted (hkept key hkey)⟩

theorem nodup_participantEntries (host : Host H) (aggregated : SignedAggregatedAttestation H) :
    ((participantEntries host aggregated).map Prod.fst).Nodup := by
  have hsub := validatorIndices_sublist aggregated.proof.participants
  rw [participantEntries, List.map_map]
  refine (hsub.nodup List.nodup_range).map_on fun i hi j hj heq ↦ ?_
  have hle := aggregated.proof.participants.length_le
  have hi := List.mem_range.mp (hsub.subset hi)
  have hj := List.mem_range.mp (hsub.subset hj)
  have hmod := congrArg UInt64.toNat (Prod.mk.inj heq).1
  rw [UInt64.toNat_ofNat', UInt64.toNat_ofNat'] at hmod
  norm_num at hle hmod
  omega

/-- An accepted aggregate is counted in full exactly if the buffer can hold its votes. -/
theorem aggregate_counted_iff {aggregated : SignedAggregatedAttestation H} (h : Sized s)
    (hs : onGossipAggregatedAttestation host aggregated s = .ok (.ok (), s')) :
    (∀ vid ∈ aggregated.proof.participantIndices,
      Counted s' (UInt64.ofNat vid, host.attestationData aggregated.data)) ↔
      aggregated.proof.participantIndices.length ≤ newPayloadCap := by
  obtain ⟨-, e, he⟩ | ⟨-, rfl⟩ := onGossipAggregatedAttestation_eq_ok hs
  · exact nomatch he
  have hsized : Sized ((s.insertAttestationDataByRoot (host.attestationData aggregated.data)
      aggregated.data).insertNewAggregatedPayloadsBatch (participantEntries host aggregated)) :=
    ⟨h.new.pushBatch (by decide) _, h.known⟩
  have hlen : (participantEntries host aggregated).length =
      aggregated.proof.participantIndices.length := List.length_map _
  rw [← hlen, ← counted_batch_iff h (nodup_participantEntries host aggregated) hsized rfl]
  unfold participantEntries
  simp only [List.map_map, List.forall_mem_map, Function.comp_apply]

theorem mem_deleteGossipSignatures {keys : List (SignatureKey H)} {key : SignatureKey H} :
    key ∈ (s.deleteGossipSignatures keys).gossipSignatures ↔
      key ∉ keys ∧ key ∈ s.gossipSignatures := by
  rw [← AList.lookup_isSome, ← AList.lookup_isSome]
  change ((Table.deleteBatch keys s.gossipSignatures).lookup key).isSome ↔ _
  rw [Table.lookup_deleteBatch]
  split
  · rename_i hmem
    simp [hmem]
  · rename_i hmem
    simp [hmem]

/-- Aggregation drops a signature for a counted vote in every case exactly if the buffer can hold
all of them. -/
theorem committee_counted_iff {aggregates : List (SignedAggregatedAttestation H)} (h : Sized s)
    (hs : (aggregateCommitteeSignatures host : Op (Store H) ε _) s = .ok (.ok aggregates, s')) :
    (∀ key, key ∈ s.gossipSignatures → key ∉ s'.gossipSignatures → Counted s' key) ↔
      (aggregatedKeys host s).length ≤ newPayloadCap := by
  obtain ⟨-, e, he⟩ | ⟨entries, hentries, rfl⟩ := aggregateCommitteeSignatures_eq_ok hs
  · exact nomatch he
  obtain ⟨hnodup, hsub⟩ := aggregatedKeys_nodup host s
  rw [← hentries] at hnodup hsub ⊢
  have hsized : Sized ((s.insertNewAggregatedPayloadsBatch entries).deleteGossipSignatures
      (entries.map Prod.fst)) := ⟨h.new.pushBatch (by decide) _, h.known⟩
  rw [List.length_map, ← counted_batch_iff h hnodup hsized rfl]
  constructor
  · intro hcounted key hkey
    refine hcounted key (AList.mem_keys.mpr (hsub key hkey)) fun hmem ↦ ?_
    exact (mem_deleteGossipSignatures.mp hmem).1 hkey
  · intro hcounted key hkey hgone
    refine hcounted key ?_
    by_contra hnot
    exact hgone (mem_deleteGossipSignatures.mpr ⟨hnot, hkey⟩)

/-- No vote is lost on the way into the buffers exactly if a batch has no more votes than the buffer
of new votes has places. -/
theorem votes_counted_iff (h : Sized s) :
    (∀ aggregated s', onGossipAggregatedAttestation host aggregated s = .ok (.ok (), s') →
      ((∀ vid ∈ aggregated.proof.participantIndices,
        Counted s' (UInt64.ofNat vid, host.attestationData aggregated.data)) ↔
        aggregated.proof.participantIndices.length ≤ newPayloadCap)) ∧
    ∀ aggregates s',
      (aggregateCommitteeSignatures host : Op (Store H) ε _) s = .ok (.ok aggregates, s') →
      ((∀ key, key ∈ s.gossipSignatures → key ∉ s'.gossipSignatures → Counted s' key) ↔
        (aggregatedKeys host s).length ≤ newPayloadCap) := by
  constructor
  · intro aggregated s' hs
    exact aggregate_counted_iff h hs
  · intro aggregates s' hs
    exact committee_counted_iff h hs

end Kept

section Sample

def crowd : List Validator := (List.range 513).map fun i ↦ ⟨Vector.replicate 52 0, UInt64.ofNat i⟩

def crowdGenesis : State ℕ := genesisState sampleHash 0 ⟨crowd, by decide +kernel⟩

theorem crowdStore_isSome : (Store.initStore sampleHost crowdGenesis none).toOption.isSome = true := by
  decide +kernel

def crowdStore : Store ℕ :=
  (Store.initStore sampleHost crowdGenesis none).toOption.get crowdStore_isSome

theorem crowdStore_eq : Store.initStore sampleHost crowdGenesis none = .ok crowdStore :=
  Exec.eq_ok_of_toOption (Option.some_get crowdStore_isSome).symm

def crowdVote : AttestationData ℕ := ⟨0, ⟨crowdStore.head, 0⟩, ⟨crowdStore.head, 0⟩, ⟨crowdStore.head, 0⟩⟩

/-- A valid aggregate of the first `n` validators. -/
def crowdAggregate (n : ℕ) (hn : n ≤ 513) : SignedAggregatedAttestation ℕ :=
  ⟨crowdVote, ⟨List.replicate n true, by rw [List.length_replicate]; exact hn.trans (by decide)⟩,
    ⟨List.replicate n 0 ++ [0, UInt8.ofNat (sampleHost.attestationData crowdVote)], by
      rw [List.length_append, List.length_replicate, List.length_cons, List.length_singleton]
      omega⟩⟩

theorem participantIndices_crowdAggregate (n : ℕ) (hn : n ≤ 513) :
    (crowdAggregate n hn).proof.participantIndices = List.range n := by
  have hzip : (List.replicate n true).zipIdx = (List.range n).map fun i ↦ (true, i) := by
    refine List.ext_getElem (by simp) fun i hi hi' ↦ ?_
    simp
  change ((List.replicate n true).zipIdx.filterMap fun p ↦ if p.1 then some p.2 else none) = _
  rw [hzip, List.filterMap_map]
  exact List.filterMap_some

theorem participantKeys_crowd {n : ℕ} (hn : n ≤ 513) :
    participantKeys sampleHost crowd (List.range n) = .ok (List.replicate n (0 : UInt8)) := by
  rw [participantKeys_eq_ok, List.forall₂_iff_get]
  refine ⟨List.length_range.trans List.length_replicate.symm, fun i hi hi' ↦ ?_⟩
  rw [List.length_range] at hi
  have hv : crowd[i]? = some ⟨Vector.replicate 52 0, UInt64.ofNat i⟩ := by
    simp [crowd, hi.trans_le hn]
  rw [List.get_eq_getElem, List.get_eq_getElem, List.getElem_range, keyOf, hv]
  exact congrArg some (List.getElem_replicate hi').symm

theorem crowdAggregate_accepted (n : ℕ) (hn : n ≤ 513) :
    ∃ s', onGossipAggregatedAttestation sampleHost (crowdAggregate n hn) crowdStore =
      .ok (.ok (), s') := by
  have hvalid : validateAttestationData crowdStore crowdVote = .ok () := by
    apply Exec.eq_ok_of_toOption
    decide +kernel
  obtain ⟨st, hst, hvalidators⟩ : ∃ st, crowdStore.getState crowdStore.head = some st ∧
      st.validators.toList = crowd := by
    refine ⟨_, initStore_headState crowdStore_eq, ?_⟩
    dsimp only [Store.anchor, crowdGenesis, genesisState]
  have hverify : verifyGossipAggregate sampleHost crowdStore (crowdAggregate n hn) = .ok () := by
    unfold verifyGossipAggregate
    have hany : ((List.range n).any fun vid ↦ decide (st.validators.len ≤ vid)) = false := by
      rw [List.any_eq_false]
      intro vid hvid
      have hlen : st.validators.len = 513 := by
        rw [VariableList.len, hvalidators, crowd, List.length_map, List.length_range]
      have := List.mem_range.mp hvid
      simp only [hlen, decide_eq_true_eq]
      omega
    rw [participantIndices_crowdAggregate]
    change (validateAttestationData crowdStore crowdVote >>= _) = _
    rw [hvalid, Exec.ok_bind]
    change (okOr _ (crowdStore.getState crowdStore.head) >>= _) = _
    rw [hst, okOr, Exec.ok_bind]
    dsimp only
    rw [hany, hvalidators, if_neg (by decide), participantKeys_crowd hn, Exec.ok_bind]
    have hslot : (slot32 (crowdAggregate n hn).data.slot : Result ℕ UInt32) = .ok 0 := rfl
    rw [hslot, Exec.ok_bind]
    have hproof : sampleHost.xmssVerifyAggregatedSignatures (List.replicate n (0 : UInt8))
        (sampleHost.attestationData (crowdAggregate n hn).data)
        (crowdAggregate n hn).proof.proofData.toList 0 = true := decide_eq_true rfl
    have hfrom : sampleHost.aggregateFromBytes (crowdAggregate n hn).proof.proofData.toList =
      some (crowdAggregate n hn).proof.proofData.toList := rfl
    unfold checkAggregate Host.verifyAggregatedSignature
    rw [hfrom]
    dsimp only
    rw [if_pos hproof]
  exact ⟨_, onGossipAggregatedAttestation_of_verified hverify⟩

/-- Of an accepted aggregate of 513 validators one vote is lost. -/
theorem crowd_vote_lost :
    ∃ s', onGossipAggregatedAttestation sampleHost (crowdAggregate 513 le_rfl) crowdStore =
      .ok (.ok (), s') ∧
      ¬∀ vid ∈ (crowdAggregate 513 le_rfl).proof.participantIndices,
        Counted s' (UInt64.ofNat vid, sampleHost.attestationData crowdVote) := by
  obtain ⟨s', hs⟩ := crowdAggregate_accepted 513 le_rfl
  refine ⟨s', hs, fun hcounted ↦ ?_⟩
  have hlen := (aggregate_counted_iff (sized_initStore crowdStore_eq) hs).mp hcounted
  rw [participantIndices_crowdAggregate, List.length_range] at hlen
  exact absurd hlen (by decide)

/-- Two validators of the committee send their votes one by one. -/
def crowdGossip : List (Call ℕ) :=
  [5, 7].map fun vid ↦ .onGossipAttestation ⟨vid, crowdVote, sampleSignature 0 crowdVote⟩ [0]

theorem votes_counted_iff_sample :
    (∃ s', onGossipAggregatedAttestation sampleHost (crowdAggregate 512 (by decide)) crowdStore =
        .ok (.ok (), s') ∧
      ∀ vid ∈ (crowdAggregate 512 (by decide)).proof.participantIndices,
        Counted s' (UInt64.ofNat vid, sampleHost.attestationData crowdVote)) ∧
    ∃ s aggregates s', Call.run sampleHost crowdStore crowdGossip = .ok s ∧
      (aggregateCommitteeSignatures sampleHost : Op (Store ℕ) Empty _) s =
        .ok (.ok aggregates, s') ∧
      s.gossipSignatures.keys.length = 2 ∧ s'.gossipSignatures.keys = [] ∧
      ∀ key, key ∈ s.gossipSignatures → key ∉ s'.gossipSignatures → Counted s' key := by
  have hsized := sized_initStore crowdStore_eq
  constructor
  · obtain ⟨s', hs⟩ := crowdAggregate_accepted 512 (by decide)
    refine ⟨s', hs, ((votes_counted_iff (ε := Empty) hsized).1 _ s' hs).mpr ?_⟩
    rw [participantIndices_crowdAggregate, List.length_range]
  · have hview : (Call.run sampleHost crowdStore crowdGossip).toOption.map (fun s ↦
        decide ((aggregatedKeys sampleHost s).length = 2 ∧ s.gossipSignatures.keys.length = 2 ∧
          ((aggregateCommitteeSignatures sampleHost : Op (Store ℕ) Empty _) s).toOption.map (fun r ↦
            decide (r.2.gossipSignatures.keys = [])) = some true)) = some true := by decide +kernel
    obtain ⟨s, hrun, hview⟩ := Exec.exists_ok_of_map hview
    obtain ⟨hkeys, hsigs, hcommittee⟩ := of_decide_eq_true hview
    obtain ⟨⟨e | aggregates, s'⟩, hs, hnone⟩ := Exec.exists_ok_of_map hcommittee
    · exact e.elim
    · refine ⟨s, aggregates, s', hrun, hs, hsigs, of_decide_eq_true hnone, ?_⟩
      refine ((votes_counted_iff (hsized.run hrun)).2 aggregates s' hs).mpr ?_
      rw [hkeys]
      decide

end Sample

end Ethlambda.Chain
