import Ethlambda.Chain.WideSlots

namespace Ethlambda.Chain

open Ethlambda.Base Ethlambda.Types Ethlambda.Storage Ethlambda.StateTransition

set_option linter.unusedSectionVars false

variable {H : Type} [LinearOrder H] [Zero H] {host : Host H} {validators : List Validator}
  {sb : SignedBlockWithAttestation H} {s s' : Store H}

/-- Which messages the owner of each key has signed, and for which slot. -/
abbrev SigningHistory (host : Host H) := host.PublicKey → UInt32 → H → Prop

/-- Verification accepts nothing that the owners of the keys have not signed. -/
structure Unforgeable (host : Host H) (signed : SigningHistory host) : Prop where
  single : ∀ sig key slot message, host.isValid sig key slot message = true →
    signed key slot message
  aggregate : ∀ bytes keys message slot,
    host.verifyAggregatedSignature bytes keys message slot = .ok () →
    ∀ key ∈ keys, signed key slot message

/-- The same of the signatures of one block only, each with the keys it is checked against. -/
structure Unforged (host : Host H) (validators : List Validator)
    (sb : SignedBlockWithAttestation H) (signed : SigningHistory host) : Prop where
  proposer : ∀ sig key, host.signatureFromBytes sb.signature.proposerSignature.toList = some sig →
    keyOf host validators sb.message.block.proposerIndex.toNat = some key →
    host.isValid sig key sb.message.proposerAttestation.data.slot.toUInt32
      (host.attestationData sb.message.proposerAttestation.data) = true →
    signed key sb.message.proposerAttestation.data.slot.toUInt32
      (host.attestationData sb.message.proposerAttestation.data)
  attestations : ∀ p ∈ provedAttestations sb, ∀ keys,
    List.Forall₂ (fun vid key ↦ keyOf host validators vid = some key)
      (validatorIndices p.1.aggregationBits) keys →
    host.verifyAggregatedSignature p.2.proofData keys (host.attestationData p.1.data)
      p.1.data.slot.toUInt32 = .ok () →
    ∀ key ∈ keys, signed key p.1.data.slot.toUInt32 (host.attestationData p.1.data)

/-- The proposer has signed a vote for this very block at the block's slot. -/
def ProposerSigned (host : Host H) (validators : List Validator)
    (sb : SignedBlockWithAttestation H) (signed : SigningHistory host) : Prop :=
  ∃ key d, keyOf host validators sb.message.block.proposerIndex.toNat = some key ∧
    d.head.root = host.block sb.message.block ∧ d.slot = sb.message.block.slot ∧
    signed key d.slot.toUInt32 (host.attestationData d)

def VotesForBlock (host : Host H) (sb : SignedBlockWithAttestation H) (d : AttestationData H) :
    Prop :=
  d.head.root = host.block sb.message.block ∧ d.slot = sb.message.block.slot

/-- The block carries such a vote under a signature of its proposer's key: as its proposer
attestation, or as an attestation of its body that the key takes part in. -/
def CarriesOwnVote (host : Host H) (validators : List Validator)
    (sb : SignedBlockWithAttestation H) : Prop :=
  VotesForBlock host sb sb.message.proposerAttestation.data ∨
    ∃ p ∈ provedAttestations sb, VotesForBlock host sb p.1.data ∧
      ∃ vid ∈ validatorIndices p.1.aggregationBits,
        keyOf host validators vid = keyOf host validators sb.message.block.proposerIndex.toNat

theorem verifyProposer_eq_ok (h : verifyProposer host validators sb = .ok ()) :
    ∃ sig key, host.signatureFromBytes sb.signature.proposerSignature.toList = some sig ∧
      keyOf host validators sb.message.block.proposerIndex.toNat = some key ∧
      host.isValid sig key sb.message.proposerAttestation.data.slot.toUInt32
        (host.attestationData sb.message.proposerAttestation.data) = true := by
  unfold verifyProposer at h
  dsimp only at h
  split at h
  · exact nomatch h
  · obtain ⟨sig, hsig, h⟩ := Exec.bind_eq_ok.mp h
    obtain ⟨v, hv, h⟩ := Exec.bind_eq_ok.mp h
    obtain ⟨key, hkey, h⟩ := Exec.bind_eq_ok.mp h
    obtain ⟨slot, hslot, h⟩ := Exec.bind_eq_ok.mp h
    refine ⟨sig, key, okOr_eq_ok.mp hsig, ?_, ?_⟩
    · exact Option.bind_eq_some_iff.mpr ⟨v, okOr_eq_ok.mp hv, okOr_eq_ok.mp hkey⟩
    · rcases Nat.lt_or_ge sb.message.proposerAttestation.data.slot.toNat (2 ^ 32) with hlt | hge
      · rw [slot32_of_lt hlt] at hslot
        rw [Except.ok.inj hslot]
        split at h
        · rename_i hvalid
          exact hvalid
        · exact nomatch h
      · rw [slot32_of_le hge] at hslot
        exact nomatch hslot

theorem verifySignatures_eq_ok {st : State H} : verifySignatures host st sb = .ok () ↔
    sb.message.block.body.attestations.len = sb.signature.attestationSignatures.len ∧
      verifyAttestations host st.validators.toList (provedAttestations sb) = .ok () ∧
      verifyProposer host st.validators.toList sb = .ok () := by
  unfold verifySignatures
  dsimp only
  split
  · rename_i hlength
    constructor
    · intro h
      cases h
    · exact fun h ↦ absurd h.1 hlength
  · rename_i hlength
    rw [Exec.bind_eq_ok]
    exact ⟨fun ⟨_, hall, hprop⟩ ↦ ⟨not_not.mp hlength, hall, hprop⟩, fun h ↦ ⟨(), h.2⟩⟩

theorem verified_of_onBlock {ids : List UInt64} {r : Unit}
    (hnew : s.states.lookup (host.block sb.message.block) = none)
    (h : onBlock host sb ids s = .ok (.ok r, s')) :
    ∃ parent, s.states.lookup sb.message.block.parentRoot = some parent ∧
      verifySignatures host parent sb = .ok () := by
  rcases onBlockCore_eq_ok h with ⟨hst, -, -⟩ | ⟨-, ⟨e, -, he, -⟩ | ⟨post, g, hpost, -, -⟩⟩
  · rw [Store.hasState, hnew] at hst
    cases hst
  · cases he
  · obtain ⟨parent, -, hparent, hverify, -⟩ := postState_eq_ok hpost
    exact ⟨parent, hparent, hverify rfl⟩

/-- What the block's signatures prove about the proposer, and nothing more. -/
def evidence (host : Host H) (validators : List Validator) (sb : SignedBlockWithAttestation H) :
    SigningHistory host := fun key slot message ↦
  (keyOf host validators sb.message.block.proposerIndex.toNat = some key ∧
    slot = sb.message.proposerAttestation.data.slot.toUInt32 ∧
    message = host.attestationData sb.message.proposerAttestation.data) ∨
  ∃ p ∈ provedAttestations sb, (∃ vid ∈ validatorIndices p.1.aggregationBits,
      keyOf host validators vid = some key) ∧
    slot = p.1.data.slot.toUInt32 ∧ message = host.attestationData p.1.data

theorem unforged_evidence : Unforged host validators sb (evidence host validators sb) := by
  refine ⟨fun _ key _ hkey _ ↦ .inl ⟨hkey, rfl, rfl⟩, fun p hp keys hkeys _ key hmem ↦ ?_⟩
  obtain ⟨i, hi, rfl⟩ := List.getElem_of_mem hmem
  have hlen := hkeys.length_eq
  have hvid : i < (validatorIndices p.1.aggregationBits).length := by omega
  exact .inr ⟨p, hp, ⟨_, List.getElem_mem hvid, (List.forall₂_iff_get.mp hkeys).2 i hvid hi⟩, rfl, rfl⟩

/-- Importing a block shows that its proposer signed a vote for it exactly when the block carries
such a vote: no check ties the proposer's attestation to the block it comes with. -/
theorem import_authentic_iff {ids : List UInt64} {parent : State H}
    (hinj : Function.Injective host.attestationData)
    (hnew : s.states.lookup (host.block sb.message.block) = none)
    (hparent : s.states.lookup sb.message.block.parentRoot = some parent)
    (himport : onBlock host sb ids s = .ok (.ok (), s')) :
    (∀ signed, Unforged host parent.validators.toList sb signed →
      ProposerSigned host parent.validators.toList sb signed) ↔
    CarriesOwnVote host parent.validators.toList sb := by
  obtain ⟨parent', hparent', hverify⟩ := verified_of_onBlock hnew himport
  obtain rfl : parent = parent' := by
    rw [hparent] at hparent'
    exact Option.some.inj hparent'
  obtain ⟨-, hall, hprop⟩ := verifySignatures_eq_ok.mp hverify
  obtain ⟨sig, key, hsig, hkey, hvalid⟩ := verifyProposer_eq_ok hprop
  constructor
  · intro h
    obtain ⟨key', d, hkey', hroot, hslot, hsigned⟩ := h _ unforged_evidence
    rcases hsigned with ⟨-, -, hmsg⟩ | ⟨p, hp, ⟨vid, hvid, hkeyvid⟩, -, hmsg⟩
    · rw [hinj hmsg] at hroot hslot
      exact .inl ⟨hroot, hslot⟩
    · rw [hinj hmsg] at hroot hslot
      exact .inr ⟨p, hp, ⟨hroot, hslot⟩, vid, hvid, hkeyvid.trans hkey'.symm⟩
  · rintro (⟨hroot, hslot⟩ | ⟨p, hp, ⟨hroot, hslot⟩, vid, hvid, hkeyvid⟩) signed hunf
    · exact ⟨key, _, hkey, hroot, hslot, hunf.proposer sig key hsig hkey hvalid⟩
    · obtain ⟨-, -, keys, hkeys, hagg⟩ := verifyAttestations_eq_ok.mp hall p hp
      have hmem : key ∈ keys := by
        obtain ⟨i, hi, rfl⟩ := List.getElem_of_mem hvid
        have hlen := hkeys.length_eq
        have hi' : i < keys.length := by omega
        have hget := (List.forall₂_iff_get.mp hkeys).2 i hi hi'
        rw [List.get_eq_getElem, hkeyvid, hkey] at hget
        rw [Option.some.inj hget]
        exact List.getElem_mem hi'
      exact ⟨key, _, hkey, hroot, hslot, hunf.attestations p hp keys hkeys hagg key hmem⟩

section Sample

theorem sampleHost_attestationData_injective :
    Function.Injective sampleHost.attestationData := by
  intro d d' h
  simp only [sampleHost, Nat.pair_eq_pair, UInt64.toNat_inj] at h
  obtain ⟨hslot, ⟨hhr, hhs⟩, ⟨htr, hts⟩, hsr, hss⟩ := h
  cases d with
  | mk slot head target source =>
    cases head
    cases target
    cases source
    simp only at hslot hhr hhs htr hts hsr hss
    subst hslot hhr hhs htr hts hsr hss
    rfl

def scribeHost (made : List (UInt8 × UInt32 × ℕ)) : Host ℕ :=
  { sampleHost with
    isValid := fun (signature : List UInt8) (key : UInt8) slot message ↦
      sampleHost.isValid signature key slot message && decide ((key, slot, message) ∈ made)
    xmssVerifyAggregatedSignatures := fun (keys : List UInt8) message _ slot ↦
      keys.all fun key ↦ decide ((key, slot, message) ∈ made) }

theorem scribeHost_unforgeable (made : List (UInt8 × UInt32 × ℕ)) :
    Unforgeable (scribeHost made) fun (key : UInt8) slot message ↦ (key, slot, message) ∈ made := by
  constructor
  · intro sig key slot message h
    have hand := Bool.and_eq_true_iff.mp h
    exact of_decide_eq_true hand.2
  · intro bytes keys message slot h key hkey
    unfold Host.verifyAggregatedSignature at h
    split at h
    · exact nomatch h
    · split at h
      · rename_i hall
        exact of_decide_eq_true (List.all_eq_true.mp hall key hkey)
      · exact nomatch h

def firstSigned : List (UInt8 × UInt32 × ℕ) :=
  [(1, 1, sampleHost.attestationData (ownVote Sample.first sampleOrigin))]

theorem import_authentic_iff_sample :
    ∃ parent s', sampleStore.states.lookup Sample.first.parentRoot = some parent ∧
      onBlock (scribeHost firstSigned) sampleFirst [0] sampleStore = .ok (.ok (), s') ∧
      s'.head = sampleHash.block Sample.first ∧
      ((∀ signed, Unforged (scribeHost firstSigned) parent.validators.toList sampleFirst signed →
        ProposerSigned (scribeHost firstSigned) parent.validators.toList sampleFirst signed) ↔
      CarriesOwnVote (scribeHost firstSigned) parent.validators.toList sampleFirst) ∧
      CarriesOwnVote (scribeHost firstSigned) parent.validators.toList sampleFirst := by
  have hview : (onBlock (scribeHost firstSigned) sampleFirst [0] sampleStore).toOption.map
      (fun q ↦ (q.1.toOption, q.2.head)) = some (some (), sampleHash.block Sample.first) := by
    decide +kernel
  have hparent : (sampleStore.states.lookup Sample.first.parentRoot).isSome = true := by
    decide +kernel
  obtain ⟨parent, hparent⟩ := Option.isSome_iff_exists.mp hparent
  obtain ⟨⟨r, s'⟩, hs, hr⟩ := Exec.exists_ok_of_map hview
  obtain ⟨hr, hhead⟩ := Prod.mk.inj hr
  cases r with
  | error e => exact nomatch hr
  | ok u =>
    refine ⟨parent, s', hparent, hs, hhead, ?_, .inl ⟨rfl, rfl⟩⟩
    exact import_authentic_iff sampleHost_attestationData_injective (by decide +kernel) hparent hs

/-- Someone else's block for the next slot of the same proposer, under the vote and the signature
that the proposer published with its first block. -/
def forged : SignedBlockWithAttestation ℕ :=
  ⟨⟨sampleBlock Sample.first 4 .empty, sampleFirst.message.proposerAttestation⟩,
    sampleFirst.signature⟩

theorem not_proposerSigned_forged (validators : List Validator) :
    ¬ProposerSigned (scribeHost firstSigned) validators forged
      fun (key : UInt8) slot message ↦ (key, slot, message) ∈ firstSigned := by
  rintro ⟨key, d, -, hroot, -, hsigned⟩
  obtain ⟨-, hmsg⟩ := Prod.mk.inj (Prod.mk.inj (List.mem_singleton.mp hsigned)).2
  rw [sampleHost_attestationData_injective hmsg] at hroot
  have hne : (ownVote Sample.first sampleOrigin).head.root ≠
      sampleHash.block forged.message.block := by decide +kernel
  exact hne hroot

/-- A node that has the first block imports the forged one, although no signature is forged and
its proposer never signed a vote for it. -/
theorem import_inauthentic :
    ∃ s s', Store.initStore (scribeHost firstSigned) sampleGenesis none = .ok sampleStore ∧
      Call.run (scribeHost firstSigned) sampleStore [.onBlock sampleFirst [0]] = .ok s ∧
      s.states.lookup (sampleHash.block forged.message.block) = none ∧
      onBlock (scribeHost firstSigned) forged [0] s = .ok (.ok (), s') ∧
      (s'.states.lookup (sampleHash.block forged.message.block)).isSome = true ∧
      ∃ signed, Unforgeable (scribeHost firstSigned) signed ∧
        ¬ProposerSigned (scribeHost firstSigned) sampleGenesis.validators.toList forged signed := by
  have hview : ((Call.run (scribeHost firstSigned) sampleStore
      [.onBlock sampleFirst [0]]).toOption.bind fun s ↦
      (onBlock (scribeHost firstSigned) forged [0] s).toOption.map fun q ↦
        ((s.states.lookup (sampleHash.block forged.message.block)).isSome, q.1.toOption,
          (q.2.states.lookup (sampleHash.block forged.message.block)).isSome)) =
      some (false, some (), true) := by decide +kernel
  obtain ⟨s, hs, hview⟩ := Option.bind_eq_some_iff.mp hview
  obtain ⟨⟨r, s'⟩, hs', hview⟩ := Exec.exists_ok_of_map hview
  obtain ⟨hnone, hview⟩ := Prod.mk.inj hview
  obtain ⟨hr, hsome⟩ := Prod.mk.inj hview
  cases r with
  | error e => exact nomatch hr
  | ok u =>
    refine ⟨s, s', sampleStore_eq, Exec.eq_ok_of_toOption hs, ?_, hs', hsome, _,
      scribeHost_unforgeable firstSigned, not_proposerSigned_forged _⟩
    exact Option.not_isSome_iff_eq_none.mp (Bool.eq_false_iff.mp hnone)

end Sample

end Ethlambda.Chain
