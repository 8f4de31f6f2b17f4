import Ethlambda.Chain.Building
import Ethlambda.StateTransition.Crossing

namespace Ethlambda.Chain

open Ethlambda.Base Ethlambda.Types Ethlambda.Storage Ethlambda.StateTransition

set_option linter.unusedSectionVars false

variable {H : Type} [LinearOrder H] [Zero H] {host : Host H} {ε : Type}
  {headState post opened : State H} {slot proposerIndex : UInt64} {parentRoot : H}
  {available included votes : List (Attestation H)} {knownRoots : List H} {payloads : ProofMap H}
  {orders : BuilderOrders H} {n : ℕ} {target final : Checkpoint H}

section Opened

/-- The counting of a candidate's votes, from the opened state to the post-state. -/
structure Tallied (th : TreeHash H) (n : ℕ) (opened : State H)
    (attestations : List (AggregatedAttestation H)) (post : State H) : Prop where
  counted : ∃ hdr slots t,
    TallyInv th slots n (openTally { opened with latestBlockHeader := hdr }) ∧
    Runs.run (processAttestation slots n) (openTally { opened with latestBlockHeader := hdr })
      attestations = .ok t ∧
    post.latestJustified = t.state.latestJustified ∧
    post.latestFinalized = t.state.latestFinalized

end Opened

section Choices

/-- The validators that vote for a data. -/
def votersFor (votes : List (Attestation H)) (data : AttestationData H) : Finset ℕ :=
  ((votes.filter fun a ↦ decide (a.data = data)).map fun a ↦ a.validatorId.toNat).toFinset

theorem mem_votersFor {data : AttestationData H} {i : ℕ} :
    i ∈ votersFor votes data ↔ ∃ a ∈ votes, a.data = data ∧ a.validatorId.toNat = i := by
  rw [votersFor, List.mem_toFinset, List.mem_map]
  simp only [List.mem_filter, decide_eq_true_eq, and_assoc]

def participants (p : AggregatedSignatureProof) : Finset ℕ := p.participantIndices.toFinset

/-- Of the proofs filed for a validator's vote, the one that covers most of those left. -/
def bestProof (th : TreeHash H) (payloads : ProofMap H) (data : AttestationData H)
    (left : Finset ℕ) (v : ℕ) : Option AggregatedSignatureProof :=
  (payloads.lookup (UInt64.ofNat v, th.attestationData data)).bind
    (maxByKey fun p ↦ (participants p ∩ left).card)

/-- The proofs that can be chosen for the validators left: the best one for any of them, and then
for those that it does not cover. The choice ends where there is none or it covers nobody. -/
inductive Chosen (th : TreeHash H) (payloads : ProofMap H) (data : AttestationData H) :
    Finset ℕ → List AggregatedSignatureProof → Prop
  | done : Chosen th payloads data ∅ []
  | unproved {left : Finset ℕ} {v : ℕ} : v ∈ left → bestProof th payloads data left v = none →
    Chosen th payloads data left []
  | useless {left : Finset ℕ} {v : ℕ} {p : AggregatedSignatureProof} : v ∈ left →
    bestProof th payloads data left v = some p → participants p ∩ left = ∅ →
    Chosen th payloads data left []
  | next {left : Finset ℕ} {v : ℕ} {p : AggregatedSignatureProof}
    {rest : List AggregatedSignatureProof} : v ∈ left →
    bestProof th payloads data left v = some p → participants p ∩ left ≠ ∅ →
    Chosen th payloads data (left \ participants p) rest → Chosen th payloads data left (p :: rest)

/-- For the votes of each data, proofs that can be chosen. -/
def Choice (th : TreeHash H) (payloads : ProofMap H) (votes : List (Attestation H))
    (choice : AttestationData H → List AggregatedSignatureProof) : Prop :=
  ∀ a ∈ votes, Chosen th payloads a.data (votersFor votes a.data) (choice a.data)

variable {th : TreeHash H} {data : AttestationData H} {left : Finset ℕ}
  {proofs : List AggregatedSignatureProof}

theorem mem_of_bestProof {v : ℕ} {p : AggregatedSignatureProof}
    (h : bestProof th payloads data left v = some p) :
    ∃ l, payloads.lookup (UInt64.ofNat v, th.attestationData data) = some l ∧ p ∈ l := by
  obtain ⟨l, hl, hmax⟩ := Option.bind_eq_some_iff.mp h
  exact ⟨l, hl, maxByKey_mem hmax⟩

/-- What is chosen is filed under somebody left. -/
theorem Chosen.filed (h : Chosen th payloads data left proofs) :
    ∀ p ∈ proofs, ∃ v ∈ left, ∃ l,
      payloads.lookup (UInt64.ofNat v, th.attestationData data) = some l ∧ p ∈ l := by
  induction h with
  | done => exact fun p hp ↦ absurd hp List.not_mem_nil
  | unproved _ _ => exact fun p hp ↦ absurd hp List.not_mem_nil
  | useless _ _ _ => exact fun p hp ↦ absurd hp List.not_mem_nil
  | next hv hbest _ _ ih =>
    intro p hp
    cases List.mem_cons.mp hp with
    | inl hp =>
      rw [hp]
      exact ⟨_, hv, mem_of_bestProof hbest⟩
    | inr hp =>
      obtain ⟨v, hv, hfiled⟩ := ih p hp
      exact ⟨v, (Finset.mem_sdiff.mp hv).1, hfiled⟩

/-- Where proofs are filed under participants and nobody is without one, every choice covers
everybody. -/
theorem Chosen.covers (h : Chosen th payloads data left proofs) (hfiled : FiledByParticipant payloads)
    (hproved : ∀ v ∈ left, v < 2 ^ 64 ∧ ∃ p l,
      payloads.lookup (UInt64.ofNat v, th.attestationData data) = some (p :: l)) :
    ∀ v ∈ left, ∃ p ∈ proofs, v ∈ participants p := by
  induction h with
  | done => exact fun v hv ↦ absurd hv (Finset.notMem_empty _)
  | @unproved left v hv hnone =>
    obtain ⟨-, p, l, hl⟩ := hproved v hv
    rw [bestProof, hl] at hnone
    cases hnone
  | @useless left v p hv hbest hnobody =>
    obtain ⟨hsmall, -⟩ := hproved v hv
    obtain ⟨l, hl, hp⟩ := mem_of_bestProof hbest
    have hpart := hfiled _ _ _ hl p hp
    rw [UInt64.toNat_ofNat', Nat.mod_eq_of_lt hsmall, ← List.mem_toFinset] at hpart
    exact absurd (hnobody ▸ Finset.mem_inter.mpr ⟨hpart, hv⟩) (Finset.notMem_empty _)
  | @next left v p rest hv hbest hsome hrest ih =>
    intro i hi
    by_cases hpart : i ∈ participants p
    · exact ⟨p, List.mem_cons_self, hpart⟩
    · obtain ⟨q, hq, hi⟩ := ih (fun j hj ↦ hproved j (Finset.mem_sdiff.mp hj).1) i
        (Finset.mem_sdiff.mpr ⟨hi, hpart⟩)
      exact ⟨q, List.mem_cons_of_mem _ hq, hi⟩

theorem covered_toFinset (remaining : List ℕ) (p : AggregatedSignatureProof) :
    (covered remaining p).toFinset = participants p ∩ remaining.toFinset := by
  ext v
  rw [List.mem_toFinset, mem_covered, Finset.mem_inter, participants, List.mem_toFinset,
    List.mem_toFinset]

theorem length_covered (remaining : List ℕ) (p : AggregatedSignatureProof) :
    (covered remaining p).length = (participants p ∩ remaining.toFinset).card := by
  have hnodup : p.participantIndices.Nodup :=
    List.nodup_range.sublist (validatorIndices_sublist p.participants)
  have hcovered : (covered remaining p).Nodup := hnodup.filter _
  rw [← covered_toFinset, List.toFinset_card_of_nodup hcovered]

theorem covered_eq_nil {remaining : List ℕ} {p : AggregatedSignatureProof} :
    covered remaining p = [] ↔ participants p ∩ remaining.toFinset = ∅ := by
  rw [← covered_toFinset, List.toFinset_eq_empty_iff]

theorem uncovered_toFinset (remaining : List ℕ) (p : AggregatedSignatureProof) :
    (remaining.filter fun vid ↦ decide (vid ∉ covered remaining p)).toFinset =
      remaining.toFinset \ participants p := by
  ext v
  rw [List.mem_toFinset, List.mem_filter, decide_eq_true_eq, mem_covered, Finset.mem_sdiff,
    List.mem_toFinset, participants, List.mem_toFinset]
  constructor
  · exact fun hv ↦ ⟨hv.1, fun hpart ↦ hv.2 ⟨hpart, hv.1⟩⟩
  · exact fun hv ↦ ⟨hv.1, fun hcovered ↦ hv.2 hcovered.1⟩

theorem bestProof_toFinset (remaining : List ℕ) (v : ℕ) :
    (payloads.lookup (UInt64.ofNat v, th.attestationData data)).bind
        (maxByKey fun p ↦ (covered remaining p).length) =
      bestProof th payloads data remaining.toFinset v := by
  simp only [length_covered, bestProof]

/-- What the greedy loop takes is a choice, whoever the set hands out in each round. -/
theorem coverRemaining_chosen {left : ℕ → Enumeration} {turns : ℕ} {remaining : List ℕ}
    {pairs : List (ProvedVote H)}
    (h : (coverRemaining host left payloads data turns remaining : Exec ε _) = .ok pairs) :
    Chosen host.toTreeHash payloads data remaining.toFinset (pairs.map Prod.snd) ∧
      ∀ p ∈ pairs, p.1 = ⟨p.2.participants, data⟩ := by
  induction turns generalizing remaining pairs with
  | zero => cases h
  | succ turns ih =>
    rw [coverRemaining] at h
    split at h
    · rename_i hnone
      obtain rfl := Except.ok.inj h
      have hnil : remaining = [] := by
        have hperm := (left turns).order_perm remaining
        rw [List.head?_eq_none_iff.mp hnone] at hperm
        exact hperm.nil_eq.symm
      rw [hnil]
      exact ⟨.done, fun p hp ↦ absurd hp List.not_mem_nil⟩
    rename_i v hhead
    have hv : v ∈ remaining.toFinset :=
      List.mem_toFinset.mpr ((left turns).mem_order.mp (List.mem_of_mem_head? hhead))
    split at h
    · rename_i hnone
      obtain rfl := Except.ok.inj h
      rw [bestProof_toFinset] at hnone
      exact ⟨.unproved hv hnone, fun p hp ↦ absurd hp List.not_mem_nil⟩
    rename_i proof hproof
    rw [bestProof_toFinset] at hproof
    split at h
    · rename_i hnone
      obtain rfl := Except.ok.inj h
      exact ⟨.useless hv hproof (covered_eq_nil.mp hnone), fun p hp ↦ absurd hp List.not_mem_nil⟩
    rename_i hsome
    obtain ⟨rest, hrest, h⟩ := Exec.bind_eq_ok.mp h
    obtain rfl := Except.ok.inj h
    obtain ⟨hchosen, hpairs⟩ := ih hrest
    constructor
    · apply Chosen.next hv hproof fun hnone ↦ hsome (covered_eq_nil.mpr hnone)
      rw [uncovered_toFinset] at hchosen
      exact hchosen
    · intro p hp
      cases List.mem_cons.mp hp with
      | inl hp => rw [hp]
      | inr hp => exact hpairs p hp

end Choices

section Ballots

/-- The sets of validators that the votes for a data bring into a block, one for each attestation
that the state transition reads. -/
abbrev Ballots (H : Type) := AttestationData H → List (Finset ℕ)

/-- What a candidate brings. A bitfield that is longer than the registry is not read. -/
def ownBallots (n : ℕ) (votes : List (Attestation H)) : Ballots H := fun data ↦
  if ∀ v ∈ votersFor votes data, v < n then [votersFor votes data] else []

/-- What the chosen proofs bring. -/
def proofBallots (n : ℕ) (choice : AttestationData H → List AggregatedSignatureProof) :
    Ballots H := fun data ↦
  ((choice data).filter fun p ↦ decide (p.participants.len ≤ n)).map participants

/-- Those counted for a root when the votes are read: the ones that the head state has recorded, and
the ballots of the votes for the root. -/
def reach (n : ℕ) (opened : State H) (votes : List (Attestation H)) (ballots : Ballots H)
    (root : H) : Finset ℕ :=
  counted n (openTally opened) root ∪
    ((votes.filter fun a ↦ decide (a.data.target.root = root)).flatMap fun a ↦
      ballots a.data).foldr (· ∪ ·) ∅

/-- The votes justify a root. -/
structure Carries (n : ℕ) (opened : State H) (votes : List (Attestation H)) (ballots : Ballots H)
    (root : H) : Prop where
  voted : ∃ a ∈ votes, a.data.target.root = root ∧ ballots a.data ≠ []
  enough : Enough n (reach n opened votes ballots root)

variable {ballots : Ballots H} {root : H} {i : ℕ}

theorem mem_foldr_union {l : List (Finset ℕ)} :
    i ∈ l.foldr (· ∪ ·) ∅ ↔ ∃ b ∈ l, i ∈ b := by
  induction l with
  | nil => simp
  | cons b l ih => rw [List.foldr_cons, Finset.mem_union, ih, List.exists_mem_cons_iff]

theorem mem_reach : i ∈ reach n opened votes ballots root ↔
    i ∈ counted n (openTally opened) root ∨
      ∃ a ∈ votes, a.data.target.root = root ∧ ∃ b ∈ ballots a.data, i ∈ b := by
  rw [reach, Finset.mem_union, mem_foldr_union]
  simp only [List.mem_flatMap, List.mem_filter, decide_eq_true_eq]
  apply or_congr Iff.rfl
  constructor
  · rintro ⟨b, ⟨a, ⟨ha, hroot⟩, hb⟩, hi⟩
    exact ⟨a, ha, hroot, b, hb, hi⟩
  · rintro ⟨a, ha, hroot, b, hb, hi⟩
    exact ⟨b, ⟨a, ⟨ha, hroot⟩, hb⟩, hi⟩

/-- The votes that the state transition accepts as the head state stands. -/
def validVotes (opened : State H) (votes : List (Attestation H)) : List (Attestation H) :=
  votes.filter fun a ↦ isValidVote opened a.data.source a.data.target

/-- With those that it would accept once `target` is justified. -/
def possibleVotes (opened : State H) (target final : Checkpoint H)
    (votes : List (Attestation H)) : List (Attestation H) :=
  votes.filter fun a ↦ decide (MayCount opened target final a.data)

/-- The votes justify nothing. -/
def Idle (n : ℕ) (opened : State H) (votes : List (Attestation H)) (ballots : Ballots H) : Prop :=
  ∀ root, ¬Carries n opened (validVotes opened votes) ballots root

/-- Attestations that bring just the ballots of the votes, and besides only `stray` votes. -/
structure Made (n : ℕ) (votes : List (Attestation H)) (ballots : Ballots H)
    (stray : AttestationData H → Prop) (attestations : List (AggregatedAttestation H)) : Prop where
  sound : ∀ g ∈ attestations, (∃ a ∈ votes, a.data = g.data ∧
    (g.aggregationBits.len ≤ n → signers g ∈ ballots g.data)) ∨ stray g.data
  complete : ∀ a ∈ votes, ∀ b ∈ ballots a.data, ∃ g ∈ attestations, g.data = a.data ∧
    g.aggregationBits.len ≤ n ∧ signers g = b

variable {attestations : List (AggregatedAttestation H)} {stray : AttestationData H → Prop}

/-- An attestation that is read is for a root that the votes carry, once they suffice for it. -/
theorem Made.subset_reach (h : Made n votes ballots stray attestations) (opened : State H)
    (p : Attestation H → Bool) {g : AggregatedAttestation H} (hg : g ∈ attestations)
    (hlen : g.aggregationBits.len ≤ n) (hstray : ¬stray g.data)
    (hp : ∀ a, a.data = g.data → p a = true) :
    signers g ⊆ reach n opened (votes.filter p) ballots g.data.target.root ∧
      ∃ a ∈ votes.filter p, a.data.target.root = g.data.target.root ∧ ballots a.data ≠ [] := by
  obtain ⟨a, ha, hdata, hballot⟩ := (h.sound g hg).resolve_right hstray
  have hmem : a ∈ votes.filter p := List.mem_filter.mpr ⟨ha, hp a hdata⟩
  have hroot : a.data.target.root = g.data.target.root := by rw [hdata]
  replace hballot : signers g ∈ ballots a.data := by
    rw [hdata]
    exact hballot hlen
  constructor
  · intro i hi
    exact mem_reach.mpr (.inr ⟨a, hmem, hroot, signers g, hballot, hi⟩)
  · exact ⟨a, hmem, hroot, List.ne_nil_of_mem hballot⟩

theorem Tallied.idle (h : Tallied host.toTreeHash n opened attestations post)
    (hidle : Idle n opened votes ballots) (hmade : Made n votes ballots stray attestations)
    (hstray : ∀ data, stray data → isValidVote opened data.source data.target = false) :
    post.latestJustified = opened.latestJustified ∧
      post.latestFinalized = opened.latestFinalized := by
  obtain ⟨hdr, slots, t, hinv, hrun, hjustified, hfinalized⟩ := h.counted
  have hstate : t.state = { opened with latestBlockHeader := hdr } := by
    have hcap : Capped n (reach n opened (validVotes opened votes) ballots) Set.univ
        (openTally { opened with latestBlockHeader := hdr }) :=
      fun r _ ↦ Finset.subset_union_left
    apply run_kept hinv hrun hcap
    intro g hg hcounts
    have hvalid : isValidVote opened g.data.source g.data.target = true := hcounts.1
    have hin : ¬stray g.data := by
      intro hs
      rw [hstray g.data hs] at hvalid
      cases hvalid
    obtain ⟨hsub, hvoted⟩ := hmade.subset_reach opened
      (fun a ↦ isValidVote opened a.data.source a.data.target) hg hcounts.2 hin
      fun a hdata ↦ by rwa [hdata]
    exact ⟨Set.mem_univ _, hsub, fun henough ↦ hidle _ ⟨hvoted, henough⟩⟩
  rw [hjustified, hfinalized, hstate]
  exact ⟨rfl, rfl⟩

/-- The votes that one target can get: they all start from the justified checkpoint, from which the
target is valid. -/
structure Aimed (opened : State H) (votes : List (Attestation H)) (target final : Checkpoint H) :
    Prop where
  source : ∀ a ∈ votes, a.data.source = opened.latestJustified
  valid : isValidVote opened opened.latestJustified target = true
  finalizes : Finalizes opened.latestFinalized opened.latestJustified target final

theorem Made.single (hmade : Made n votes ballots stray attestations)
    (haimed : Aimed opened votes target final)
    (hothers : ∀ root, root ≠ target.root →
      ¬Carries n opened (possibleVotes opened target final votes) ballots root)
    (hstray : ∀ data, stray data → ¬MayCount opened target final data) (hdr : BlockHeader H) :
    Single n { opened with latestBlockHeader := hdr } opened.latestJustified target final
      (reach n opened (possibleVotes opened target final votes) ballots) attestations where
  source := by
    intro g hg hmay
    replace hmay : MayCount opened target final g.data := hmay
    obtain ⟨a, ha, hdata, -⟩ := (hmade.sound g hg).resolve_right fun hs ↦ hstray _ hs hmay
    rw [← hdata]
    exact haimed.source a ha
  short := by
    intro g hg hmay hlen hroot
    replace hmay : MayCount opened target final g.data := hmay
    obtain ⟨hsub, hvoted⟩ := hmade.subset_reach opened
      (fun a ↦ decide (MayCount opened target final a.data)) hg hlen (fun hs ↦ hstray _ hs hmay)
      fun a hdata ↦ by rw [hdata]; exact decide_eq_true hmay
    exact ⟨hsub, fun henough ↦ hothers _ hroot ⟨hvoted, henough⟩⟩

end Ballots

end Ethlambda.Chain
