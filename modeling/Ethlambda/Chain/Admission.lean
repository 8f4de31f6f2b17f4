import Ethlambda.Chain.Authenticity
import Ethlambda.Chain.HeadPath
import Ethlambda.Chain.Pools

namespace Ethlambda.Chain

open Ethlambda.Base Ethlambda.Types Ethlambda.Storage Ethlambda.StateTransition Ethlambda.ForkChoice

set_option linter.unusedSectionVars false

variable {H : Type} [LinearOrder H] [Zero H] {host : Host H} {s s' : Store H}

/-- What the checks on incoming votes ask for: three known blocks with the right slots, in order, and
no slot further ahead than the next one. -/
structure Admissible (s : Store H) (d : AttestationData H) : Prop where
  source : ∃ h, s.blockHeaders.lookup d.source.root = some h ∧ h.slot = d.source.slot
  target : ∃ h, s.blockHeaders.lookup d.target.root = some h ∧ h.slot = d.target.slot
  head : ∃ h, s.blockHeaders.lookup d.head.root = some h ∧ h.slot = d.head.slot
  source_le : d.source.slot ≤ d.target.slot
  target_le : d.target.slot ≤ d.head.slot
  slot_le : d.slot.toNat ≤ s.time.toNat / intervalsPerSlot + 1

theorem validateAttestationData_eq_ok {d : AttestationData H} :
    validateAttestationData s d = .ok () ↔ Admissible s d := by
  constructor
  · intro h
    obtain ⟨source, hsource, h⟩ := Exec.bind_eq_ok.mp h
    obtain ⟨target, htarget, h⟩ := Exec.bind_eq_ok.mp h
    obtain ⟨head, hhead, h⟩ := Exec.bind_eq_ok.mp h
    split at h
    · exact nomatch h
    rename_i hst
    split at h
    · exact nomatch h
    rename_i hth
    split at h
    · exact nomatch h
    rename_i hs
    split at h
    · exact nomatch h
    rename_i ht
    split at h
    · exact nomatch h
    rename_i hh
    dsimp only at h
    split at h
    · exact nomatch h
    rename_i hslot
    exact ⟨⟨source, okOr_eq_ok.mp hsource, not_ne_iff.mp hs⟩,
      ⟨target, okOr_eq_ok.mp htarget, not_ne_iff.mp ht⟩, ⟨head, okOr_eq_ok.mp hhead, not_ne_iff.mp hh⟩,
      UInt64.not_lt.mp hst, UInt64.not_lt.mp hth, Nat.not_lt.mp hslot⟩
  · intro h
    obtain ⟨source, hsource, hs⟩ := h.source
    obtain ⟨target, htarget, ht⟩ := h.target
    obtain ⟨head, hhead, hh⟩ := h.head
    unfold validateAttestationData Store.getBlockHeader
    rw [hsource, htarget, hhead]
    simp only [okOr, Exec.ok_bind]
    rw [if_neg (UInt64.not_lt.mpr h.source_le), if_neg (UInt64.not_lt.mpr h.target_le),
      if_neg (not_ne_iff.mpr hs), if_neg (not_ne_iff.mpr ht), if_neg (not_ne_iff.mpr hh),
      if_neg (Nat.not_lt.mpr h.slot_le)]
    rfl

section Admission

/-- The store in which the votes of a block are looked at: the block itself is known. -/
def withBlock (host : Host H) (s : Store H) (sb : SignedBlockWithAttestation H) : Store H :=
  s.insertPendingBlock host (host.block sb.message.block) sb

/-- A call brings in a vote that meets the checks at that moment. -/
def Admits (host : Host H) (p : Store H × Call H) (d : AttestationData H) : Prop :=
  match p.2 with
  | .onGossipAttestation signed _ => signed.data = d ∧ Admissible p.1 d
  | .onGossipAggregatedAttestation aggregated => aggregated.data = d ∧ Admissible p.1 d
  | .onBlock sb _ => (d = sb.message.proposerAttestation.data ∨
      ∃ q ∈ provedAttestations sb, d = q.1.data) ∧ Admissible (withBlock host p.1 sb) d
  | _ => False

/-- Where the call imports a block, the votes that the block casts meet the checks: each vote of the
body that some validator takes part in, and the proposer's own if its signature is kept. -/
def VotesMeetChecks (host : Host H) (p : Store H × Call H) : Prop :=
  ∀ sb ids post, p.2 = .onBlock sb ids → p.1.hasState (host.block sb.message.block) = false →
    postState host p.1 sb true = .ok post →
    (∀ q ∈ provedAttestations sb, validatorIndices q.1.aggregationBits ≠ [] →
      Admissible (withBlock host p.1 sb) q.1.data) ∧
    (inOurSubnet ids sb.message.proposerAttestation.validatorId = true →
      Admissible (withBlock host p.1 sb) sb.message.proposerAttestation.data)

/-- Every vote in the buffers and every kept signature is for data of which `A` holds, and data is
stored under its own root. -/
structure Vetted (host : Host H) (A : AttestationData H → Prop) (s : Store H) : Prop where
  new : ∀ key ∈ s.newPayloads.uniqueKeys, ∃ d, host.attestationData d = key.2 ∧ A d
  known : ∀ key ∈ s.knownPayloads.uniqueKeys, ∃ d, host.attestationData d = key.2 ∧ A d
  gossip : ∀ key sig, s.gossipSignatures.lookup key = some sig →
    ∃ d, host.attestationData d = key.2 ∧ A d
  data : ∀ r d, s.attestationDataByRoot.lookup r = some d → host.attestationData d = r

variable {A : AttestationData H → Prop}

theorem vetted_invariant (host : Host H) (A : AttestationData H → Prop) :
    VoteInvariant (Vetted host A) where
  fewer := by
    intro s s' h hf
    refine ⟨?_, ?_, fun key sig hk ↦ h.gossip key sig (hf.gossip key sig hk),
      fun r d hd ↦ h.data r d (hf.data r d hd)⟩
    · rw [hf.newPayloads]
      exact h.new
    · rw [hf.knownPayloads]
      exact h.known
  promote := by
    intro s h
    refine ⟨fun key hkey ↦ ?_, fun key hkey ↦ ?_, h.gossip, h.data⟩
    · exact absurd hkey List.not_mem_nil
    · cases mem_uniqueKeys_pushBatch hkey with
      | inl hkey => exact h.known key hkey
      | inr hkey => exact h.new key (List.mem_dedup.mpr hkey)
  aggregate := by
    intro s l h hl
    refine ⟨fun key hkey ↦ ?_, h.known, h.gossip, h.data⟩
    cases mem_uniqueKeys_pushBatch hkey with
    | inl hkey => exact h.new key hkey
    | inr hkey =>
      obtain ⟨e, he, rfl⟩ := List.mem_map.mp hkey
      obtain ⟨sig, hsig⟩ := hl e he
      exact h.gossip e.1 sig hsig

theorem Vetted.insertData (h : Vetted host A s) (d : AttestationData H) :
    Vetted host A (s.insertAttestationDataByRoot (host.attestationData d) d) := by
  refine ⟨h.new, h.known, h.gossip, fun r d' hd ↦ ?_⟩
  rw [Store.insertAttestationDataByRoot, Table.lookup_insert_eq_ite] at hd
  split at hd
  · rename_i hr
    rw [hr, Option.some.inj hd]
  · exact h.data r d' hd

theorem Vetted.insertGossip (h : Vetted host A s) {d : AttestationData H} (hd : A d)
    (slot vid : UInt64) (sig : host.Signature) :
    Vetted host A (s.insertGossipSignature host (host.attestationData d) slot vid sig) := by
  refine ⟨h.new, h.known, fun key stored hk ↦ ?_, h.data⟩
  rw [Store.insertGossipSignature, Table.lookup_insert_eq_ite] at hk
  split at hk
  · rename_i hkey
    exact ⟨d, (congrArg Prod.snd hkey).symm, hd⟩
  · exact h.gossip key stored hk

theorem Vetted.writeBlock (h : Vetted host A s) {sb : SignedBlockWithAttestation H} {post : State H}
    (hvotes : ∀ q ∈ provedAttestations sb, validatorIndices q.1.aggregationBits ≠ [] → A q.1.data) :
    Vetted host A (writeBlock host sb post s) := by
  refine ⟨h.new, fun key hkey ↦ ?_, h.gossip, fun r d hd ↦ ?_⟩
  · cases mem_uniqueKeys_pushBatch hkey with
    | inl hkey => exact h.known key hkey
    | inr hkey =>
      obtain ⟨e, he, rfl⟩ := List.mem_map.mp hkey
      obtain ⟨q, hq, he⟩ := List.mem_flatMap.mp he
      obtain ⟨vid, hvid, rfl⟩ := List.mem_map.mp he
      exact ⟨q.1.data, rfl, hvotes q hq (List.ne_nil_of_mem hvid)⟩
  · cases Table.lookup_putBatch_cases hd with
    | inl hmem =>
      cases List.mem_append.mp hmem with
      | inl hmem =>
        obtain ⟨q, -, heq⟩ := List.mem_map.mp hmem
        obtain ⟨rfl, rfl⟩ := Prod.mk.inj heq
        rfl
      | inr hmem =>
        obtain ⟨rfl, rfl⟩ := Prod.mk.inj (List.mem_singleton.mp hmem)
        rfl
    | inr hd => exact h.data r d hd

/-- A step whose block votes meet the checks lets in votes that it admits, and no others. -/
theorem Vetted.step {c : Call H} (h : Vetted host A s) (hs : Call.step host s c = .ok s')
    (hchecks : VotesMeetChecks host (s, c)) (hA : ∀ d, Admits host (s, c) d → A d) :
    Vetted host A s' := by
  refine (vetted_invariant host A).step h hs ?_ ?_ ?_
  · intro signed ids sig hc hsig
    obtain ⟨_, hvalid, -⟩ := Exec.bind_eq_ok.mp hsig
    have hadmits : A signed.data :=
      hA _ (by rw [hc]; exact ⟨rfl, validateAttestationData_eq_ok.mp hvalid⟩)
    exact ⟨h.insertData signed.data, (h.insertData signed.data).insertGossip hadmits _ _ _⟩
  · intro aggregated hc hverify
    obtain ⟨_, hvalid, -⟩ := Exec.bind_eq_ok.mp hverify
    have hadmits : A aggregated.data :=
      hA _ (by rw [hc]; exact ⟨rfl, validateAttestationData_eq_ok.mp hvalid⟩)
    refine ⟨fun key hkey ↦ ?_, h.known, h.gossip, (h.insertData aggregated.data).data⟩
    cases mem_uniqueKeys_pushBatch hkey with
    | inl hkey => exact h.new key hkey
    | inr hkey =>
      obtain ⟨e, he, rfl⟩ := List.mem_map.mp hkey
      obtain ⟨vid, -, rfl⟩ := List.mem_map.mp he
      exact ⟨aggregated.data, rfl, hadmits⟩
  · intro sb ids post hc hnew hpost
    obtain ⟨hbody, hproposer⟩ := hchecks sb ids post hc hnew hpost
    have hrecord : Vetted host A (recordBlock host sb post s) := by
      have hadopt := (vetted_invariant host A).fewer h (fewer_adoptCheckpoints host s post)
      refine hadopt.writeBlock fun q hq hne ↦ hA _ ?_
      rw [hc]
      exact ⟨.inr ⟨q, hq, rfl⟩, hbody q hq hne⟩
    refine ⟨hrecord, fun head sig hsub ↦ ?_⟩
    have hadmits : A sb.message.proposerAttestation.data :=
      hA _ (by rw [hc]; exact ⟨.inl rfl, hproposer hsub⟩)
    have hhead : Vetted host A { recordBlock host sb post s with head := head } :=
      (vetted_invariant host A).fewer hrecord (.of_eq rfl rfl rfl rfl)
    exact hhead.insertGossip hadmits _ _ _

theorem vetted_initStore {st : State H} {body : Option (BlockBody H)}
    (h : Store.initStore host st body = .ok s) : Vetted host A s := by
  obtain ⟨-, rfl⟩ := Store.initStore_eq_ok.mp h
  exact ⟨fun _ hkey ↦ absurd hkey List.not_mem_nil, fun _ hkey ↦ absurd hkey List.not_mem_nil,
    fun _ _ hk ↦ (nomatch hk), fun _ _ hd ↦ (nomatch hd)⟩

/-- In a run in which the votes that imported blocks cast meet the checks, every vote that can count
met the checks when it came in. -/
theorem counted_votes_admitted (hinj : Function.Injective host.attestationData) {st : State H}
    {body : Option (BlockBody H)} {s₀ : Store H} {calls : List (Call H)}
    (h₀ : Store.initStore host st body = .ok s₀) (hrun : Call.run host s₀ calls = .ok s)
    (hchecks : ∀ p ∈ Runs.trace (Call.step host) s₀ calls, VotesMeetChecks host p) :
    ∀ key ∈ s.knownPayloads.uniqueKeys ++ s.newPayloads.uniqueKeys, ∀ d,
      s.attestationDataByRoot.lookup key.2 = some d →
      ∃ p ∈ Runs.trace (Call.step host) s₀ calls, Admits host p d := by
  have hvetted : Vetted host
      (fun d ↦ ∃ p ∈ Runs.trace (Call.step host) s₀ calls, Admits host p d) s := by
    refine Runs.run_invariant_of_trace (C := fun p ↦ VotesMeetChecks host p ∧
      p ∈ Runs.trace (Call.step host) s₀ calls) ?_ (vetted_initStore h₀)
      (fun p hp ↦ ⟨hchecks p hp, hp⟩) hrun
    intro t c t' h hC hs
    exact h.step hs hC.1 fun d hd ↦ ⟨(t, c), hC.2, hd⟩
  intro key hkey d hd
  have hroot := hvetted.data key.2 d hd
  obtain ⟨d', hd', hadmitted⟩ : ∃ d', host.attestationData d' = key.2 ∧
      ∃ p ∈ Runs.trace (Call.step host) s₀ calls, Admits host p d' := by
    cases List.mem_append.mp hkey with
    | inl hkey => exact hvetted.known key hkey
    | inr hkey => exact hvetted.new key hkey
  rw [hinj (hroot.trans hd'.symm)]
  exact hadmitted

end Admission

section Sample

/-- A check that a sample run can evaluate: the votes of the body pass, and the proposer's signature
is not kept. -/
def bodyVotesPass (p : Store ℕ × Call ℕ) : Bool :=
  match p.2 with
  | .onBlock sb ids => !inOurSubnet ids sb.message.proposerAttestation.validatorId &&
      (provedAttestations sb).all fun q ↦
        decide ((validateAttestationData (withBlock sampleHost p.1 sb) q.1.data).toOption = some ())
  | _ => true

theorem votesMeetChecks_of_pass {p : Store ℕ × Call ℕ} (h : bodyVotesPass p = true) :
    VotesMeetChecks sampleHost p := by
  intro sb ids post hc _ _
  rw [bodyVotesPass, hc] at h
  simp only [Bool.and_eq_true, Bool.not_eq_eq_eq_not, Bool.not_true, List.all_eq_true,
    decide_eq_true_eq] at h
  refine ⟨fun q hq _ ↦ ?_, fun hsub ↦ ?_⟩
  · exact validateAttestationData_eq_ok.mp (Exec.eq_ok_of_toOption (h.2 q hq))
  · rw [h.1] at hsub
    exact nomatch hsub

theorem counted_votes_admitted_sample :
    ∃ s, Call.run sampleHost sampleStore [.onBlock sampleFirst [], .onBlock sampleSecond []] = .ok s ∧
      s.knownPayloads.uniqueKeys ≠ [] ∧
      ∀ key ∈ s.knownPayloads.uniqueKeys ++ s.newPayloads.uniqueKeys, ∀ d,
        s.attestationDataByRoot.lookup key.2 = some d →
        ∃ p ∈ Runs.trace (Call.step sampleHost) sampleStore
          [.onBlock sampleFirst [], .onBlock sampleSecond []], Admits sampleHost p d := by
  have hview : (Call.run sampleHost sampleStore [.onBlock sampleFirst [],
      .onBlock sampleSecond []]).toOption.map
      (fun s ↦ decide (s.knownPayloads.uniqueKeys ≠ [])) = some true := by decide +kernel
  obtain ⟨s, hs, hkeys⟩ := Exec.exists_ok_of_map hview
  have hpass : (Runs.trace (Call.step sampleHost) sampleStore
      [.onBlock sampleFirst [], .onBlock sampleSecond []]).all bodyVotesPass = true := by
    decide +kernel
  refine ⟨s, hs, of_decide_eq_true hkeys, counted_votes_admitted
    sampleHost_attestationData_injective sampleStore_eq hs fun p hp ↦ ?_⟩
  exact votesMeetChecks_of_pass (List.all_eq_true.mp hpass p hp)

/-- A vote for blocks that nobody has, a thousand slots ahead. -/
def farVote : AttestationData ℕ := ⟨1000, ⟨77, 5⟩, ⟨77, 5⟩, ⟨88, 3⟩⟩

def farBlock : Block ℕ := sampleBlock sampleOrigin 1 ⟨[⟨⟨[true], one_le_limit⟩, farVote⟩], one_le_limit⟩

/-- The block is imported and its vote counts, although the vote passes none of the checks. -/
theorem far_vote_counted :
    ∃ s, Call.run sampleHost sampleStore
        [.onBlock (sampleProved farBlock (ownVote farBlock sampleOrigin)) []] = .ok s ∧
      ∃ key ∈ s.knownPayloads.uniqueKeys, s.attestationDataByRoot.lookup key.2 = some farVote ∧
        ¬∃ p ∈ Runs.trace (Call.step sampleHost) sampleStore
          [.onBlock (sampleProved farBlock (ownVote farBlock sampleOrigin)) []],
          Admits sampleHost p farVote := by
  have hview : (Call.run sampleHost sampleStore
      [.onBlock (sampleProved farBlock (ownVote farBlock sampleOrigin)) []]).toOption.map
      (fun s ↦ decide ((0, sampleHost.attestationData farVote) ∈ s.knownPayloads.uniqueKeys ∧
        s.attestationDataByRoot.lookup (sampleHost.attestationData farVote) = some farVote)) =
      some true := by decide +kernel
  obtain ⟨s, hs, hview⟩ := Exec.exists_ok_of_map hview
  obtain ⟨hkey, hlookup⟩ := of_decide_eq_true hview
  refine ⟨s, hs, _, hkey, hlookup, ?_⟩
  rintro ⟨p, hp, hadmits⟩
  have hp : p = (sampleStore, .onBlock (sampleProved farBlock (ownVote farBlock sampleOrigin)) []) := by
    have htrace := Runs.run_cons_eq_ok.mp hs
    obtain ⟨t, ht, -⟩ := htrace
    rw [Runs.trace, ht] at hp
    exact List.mem_singleton.mp hp
  rw [hp] at hadmits
  have htime : sampleStore.time = 0 := rfl
  have hslot := hadmits.2.slot_le
  change farVote.slot.toNat ≤ sampleStore.time.toNat / intervalsPerSlot + 1 at hslot
  rw [htime] at hslot
  exact absurd hslot (by decide)

end Sample

end Ethlambda.Chain
