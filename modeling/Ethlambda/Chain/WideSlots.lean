import Ethlambda.Chain.Pruning

namespace Ethlambda.Chain

open Ethlambda.Base Ethlambda.Types Ethlambda.Storage Ethlambda.StateTransition

set_option linter.unusedSectionVars false

variable {H : Type} [LinearOrder H] [Zero H] {host : Host H} {validators : List Validator}
  {sb : SignedBlockWithAttestation H} {p : AggregatedAttestation H × AggregatedSignatureProof}

theorem noPanic_okOr {ε α : Type} {e : ε} {x : Option α} : Exec.NoPanic (okOr e x) := by
  cases x with
  | none => exact .fail e
  | some a => exact .ok a

def keyOf (host : Host H) (validators : List Validator) (vid : ℕ) : Option host.PublicKey :=
  validators[vid]?.bind host.getPubkey

theorem participantKeys_eq_ok {ids : List ℕ} {keys : List host.PublicKey} :
    participantKeys host validators ids = .ok keys ↔
      List.Forall₂ (fun vid key ↦ keyOf host validators vid = some key) ids keys := by
  unfold participantKeys
  rw [Exec.mapM_eq_ok]
  refine ⟨fun h ↦ h.imp ?_, fun h ↦ h.imp ?_⟩
  · intro vid key hkey
    obtain ⟨v, hv, hkey⟩ := Exec.bind_eq_ok.mp hkey
    exact Option.bind_eq_some_iff.mpr ⟨v, Exec.index_eq_ok.mp hv, okOr_eq_ok.mp hkey⟩
  · intro vid key hkey
    obtain ⟨v, hv, hkey⟩ := Option.bind_eq_some_iff.mp hkey
    exact Exec.bind_eq_ok.mpr ⟨v, Exec.index_eq_ok.mpr hv, okOr_eq_ok.mpr hkey⟩

theorem participantKeys_noPanic {ids : List ℕ} (h : ∀ vid ∈ ids, vid < validators.length) :
    Exec.NoPanic (participantKeys host validators ids) := by
  apply Exec.noPanic_mapM
  intro vid hvid
  rw [List.getElem?_eq_getElem (h vid hvid), Exec.index_some, Exec.ok_bind]
  exact noPanic_okOr

theorem checkAggregate_eq_ok {bytes : ByteListMiB} {keys : List host.PublicKey} {message : H}
    {slot : UInt32} : checkAggregate host bytes keys message slot = .ok () ↔
      host.verifyAggregatedSignature bytes keys message slot = .ok () := by
  unfold checkAggregate
  cases host.verifyAggregatedSignature bytes keys message slot with
  | error e => simp [Exec.fail]
  | ok u => simp

theorem checkAggregate_noPanic {bytes : ByteListMiB} {keys : List host.PublicKey} {message : H}
    {slot : UInt32} : Exec.NoPanic (checkAggregate host bytes keys message slot) := by
  unfold checkAggregate
  split
  · exact .ok ()
  · exact .fail _

/-- The proof names the attestation's participants, and all of them are validators. -/
def Matched (validators : List Validator)
    (p : AggregatedAttestation H × AggregatedSignatureProof) : Prop :=
  p.1.aggregationBits = p.2.participants ∧
    ∀ vid ∈ validatorIndices p.1.aggregationBits, vid < validators.length

def Proved (host : Host H) (validators : List Validator)
    (p : AggregatedAttestation H × AggregatedSignatureProof) : Prop :=
  ∃ keys, List.Forall₂ (fun vid key ↦ keyOf host validators vid = some key)
      (validatorIndices p.1.aggregationBits) keys ∧
    host.verifyAggregatedSignature p.2.proofData keys (host.attestationData p.1.data)
      p.1.data.slot.toUInt32 = .ok ()

theorem verifyAttestation_eq (host : Host H) (h : Matched validators p) :
    verifyAttestation host validators p.1 p.2 = slot32 p.1.data.slot >>= fun slot ↦
      participantKeys host validators (validatorIndices p.1.aggregationBits) >>= fun keys ↦
        checkAggregate host p.2.proofData keys (host.attestationData p.1.data) slot := by
  unfold verifyAttestation
  have hany : ((validatorIndices p.1.aggregationBits).any
      fun vid ↦ decide (validators.length ≤ vid)) = false := by
    rw [List.any_eq_false]
    intro vid hvid
    simpa using h.2 vid hvid
  rw [if_neg (not_not.mpr h.1)]
  dsimp only
  rw [hany]
  rfl

theorem verifyAttestation_fails (host : Host H) (h : ¬Matched validators p) :
    ∃ e, verifyAttestation host validators p.1 p.2 = Exec.fail e := by
  unfold verifyAttestation
  by_cases hbits : p.1.aggregationBits = p.2.participants
  · rw [if_neg (not_not.mpr hbits)]
    have hany : ((validatorIndices p.1.aggregationBits).any
        fun vid ↦ decide (validators.length ≤ vid)) = true := by
      by_contra hall
      refine h ⟨hbits, fun vid hvid ↦ ?_⟩
      have := List.any_eq_false.mp (Bool.eq_false_iff.mpr hall) vid hvid
      simpa using this
    exact ⟨_, if_pos hany⟩
  · exact ⟨_, if_pos hbits⟩

theorem verifyAttestation_eq_ok : verifyAttestation host validators p.1 p.2 = .ok () ↔
    Matched validators p ∧ p.1.data.slot.toNat < 2 ^ 32 ∧ Proved host validators p := by
  by_cases hm : Matched validators p
  · rw [verifyAttestation_eq host hm]
    rcases Nat.lt_or_ge p.1.data.slot.toNat (2 ^ 32) with hlt | hge
    · rw [slot32_of_lt hlt, Exec.ok_bind, Exec.bind_eq_ok]
      simp only [participantKeys_eq_ok, checkAggregate_eq_ok]
      exact ⟨fun h ↦ ⟨hm, hlt, h⟩, fun h ↦ h.2.2⟩
    · rw [slot32_of_le hge]
      refine ⟨fun h ↦ (nomatch h), fun h ↦ ?_⟩
      omega
  · obtain ⟨e, he⟩ := verifyAttestation_fails host hm
    rw [he]
    exact ⟨fun h ↦ (nomatch h), fun h ↦ absurd h.1 hm⟩

/-- The check of an attestation stops the process exactly on a slot that does not fit. -/
theorem verifyAttestation_noPanic : Exec.NoPanic (verifyAttestation host validators p.1 p.2) ↔
    ¬(Matched validators p ∧ 2 ^ 32 ≤ p.1.data.slot.toNat) := by
  by_cases hm : Matched validators p
  · rw [verifyAttestation_eq host hm]
    rcases Nat.lt_or_ge p.1.data.slot.toNat (2 ^ 32) with hlt | hge
    · rw [slot32_of_lt hlt, Exec.ok_bind, Exec.noPanic_bind]
      refine ⟨fun _ h ↦ absurd h.2 (Nat.not_le.mpr hlt), fun _ ↦ ?_⟩
      exact ⟨participantKeys_noPanic hm.2, fun _ _ ↦ checkAggregate_noPanic⟩
    · rw [slot32_of_le hge]
      exact ⟨fun h ↦ absurd rfl (h _), fun h ↦ absurd ⟨hm, hge⟩ h⟩
  · obtain ⟨e, he⟩ := verifyAttestation_fails host hm
    rw [he]
    exact ⟨fun _ h ↦ hm h.1, fun _ ↦ .fail e⟩

/-- An attestation with a wide slot that the checks of the attestations before it lead to. -/
def WideAttestation (host : Host H) (validators : List Validator)
    (l : List (AggregatedAttestation H × AggregatedSignatureProof)) : Prop :=
  ∃ pre p post, l = pre ++ p :: post ∧
    (∀ q ∈ pre, Matched validators q ∧ q.1.data.slot.toNat < 2 ^ 32 ∧ Proved host validators q) ∧
    Matched validators p ∧ 2 ^ 32 ≤ p.1.data.slot.toNat

theorem verifyAttestations_eq_ok
    {l : List (AggregatedAttestation H × AggregatedSignatureProof)} :
    verifyAttestations host validators l = .ok () ↔
      ∀ q ∈ l, Matched validators q ∧ q.1.data.slot.toNat < 2 ^ 32 ∧ Proved host validators q := by
  induction l with
  | nil => simp [verifyAttestations]
  | cons p l ih =>
    rw [verifyAttestations, Exec.bind_eq_ok, List.forall_mem_cons, ← ih, ← verifyAttestation_eq_ok]
    exact ⟨fun ⟨_, hp, hl⟩ ↦ ⟨hp, hl⟩, fun ⟨hp, hl⟩ ↦ ⟨(), hp, hl⟩⟩

theorem wideAttestation_cons {l : List (AggregatedAttestation H × AggregatedSignatureProof)} :
    WideAttestation host validators (p :: l) ↔
      (Matched validators p ∧ 2 ^ 32 ≤ p.1.data.slot.toNat) ∨
      ((Matched validators p ∧ p.1.data.slot.toNat < 2 ^ 32 ∧ Proved host validators p) ∧
        WideAttestation host validators l) := by
  constructor
  · rintro ⟨pre, q, post, heq, hpre, hq⟩
    cases pre with
    | nil =>
      obtain ⟨rfl, -⟩ := List.cons.inj heq
      exact .inl hq
    | cons p' pre =>
      obtain ⟨rfl, rfl⟩ := List.cons.inj heq
      rw [List.forall_mem_cons] at hpre
      exact .inr ⟨hpre.1, pre, q, post, rfl, hpre.2, hq⟩
  · rintro (hp | ⟨hp, pre, q, post, rfl, hpre, hq⟩)
    · exact ⟨[], p, l, rfl, by simp, hp⟩
    · exact ⟨p :: pre, q, post, rfl, List.forall_mem_cons.mpr ⟨hp, hpre⟩, hq⟩

theorem verifyAttestations_noPanic
    {l : List (AggregatedAttestation H × AggregatedSignatureProof)} :
    Exec.NoPanic (verifyAttestations host validators l) ↔ ¬WideAttestation host validators l := by
  induction l with
  | nil =>
    refine ⟨fun _ ⟨pre, q, post, heq, _⟩ ↦ ?_, fun _ ↦ .ok ()⟩
    simp at heq
  | cons p l ih =>
    rw [verifyAttestations, Exec.noPanic_bind, wideAttestation_cons, verifyAttestation_noPanic, ih,
      ← verifyAttestation_eq_ok]
    simp only [not_or, not_and]
    exact ⟨fun h ↦ ⟨h.1, fun hok ↦ h.2 () hok⟩, fun h ↦ ⟨h.1, fun _ hok ↦ h.2 hok⟩⟩

def WideProposer (host : Host H) (validators : List Validator)
    (sb : SignedBlockWithAttestation H) : Prop :=
  sb.message.proposerAttestation.validatorId = sb.message.block.proposerIndex ∧
    (∃ sig, host.signatureFromBytes sb.signature.proposerSignature.toList = some sig) ∧
    (∃ key, keyOf host validators sb.message.block.proposerIndex.toNat = some key) ∧
    2 ^ 32 ≤ sb.message.proposerAttestation.data.slot.toNat

theorem noPanic_okOr_bind {ε α β : Type} {e : ε} {x : Option α} {f : α → Exec ε β} :
    Exec.NoPanic (okOr e x >>= f) ↔ ∀ a, x = some a → Exec.NoPanic (f a) := by
  rw [Exec.noPanic_bind]
  simp only [okOr_eq_ok]
  exact ⟨fun h ↦ h.2, fun h ↦ ⟨noPanic_okOr, h⟩⟩

theorem verifyProposer_noPanic :
    Exec.NoPanic (verifyProposer host validators sb) ↔ ¬WideProposer host validators sb := by
  unfold verifyProposer
  dsimp only
  rw [Exec.noPanic_ite]
  simp only [noPanic_okOr_bind]
  rcases Nat.lt_or_ge sb.message.proposerAttestation.data.slot.toNat (2 ^ 32) with hlt | hge
  · rw [slot32_of_lt hlt]
    refine ⟨fun _ h ↦ absurd h.2.2.2 (Nat.not_le.mpr hlt), fun _ ↦ ⟨fun _ ↦ .fail _, ?_⟩⟩
    intro _ sig _ v _ key _
    rw [Exec.ok_bind, Exec.noPanic_ite]
    exact ⟨fun _ ↦ .ok (), fun _ ↦ .fail _⟩
  · rw [slot32_of_le hge]
    constructor
    · rintro ⟨-, h⟩ ⟨hid, ⟨sig, hsig⟩, ⟨key, hkey⟩, -⟩
      obtain ⟨v, hv, hkey⟩ := Option.bind_eq_some_iff.mp hkey
      exact h (not_not.mpr hid) sig hsig v hv key hkey _ rfl
    · intro h
      refine ⟨fun _ ↦ .fail _, fun hid sig hsig v hv key hkey ↦ ?_⟩
      refine absurd ⟨not_not.mp hid, ⟨sig, hsig⟩, ⟨key, ?_⟩, hge⟩ h
      exact Option.bind_eq_some_iff.mpr ⟨v, hv, hkey⟩

/-- Signature verification meets a slot of 2^32 or more before anything else ends it. -/
def WideSignatures (host : Host H) (validators : List Validator)
    (sb : SignedBlockWithAttestation H) : Prop :=
  sb.message.block.body.attestations.len = sb.signature.attestationSignatures.len ∧
    (WideAttestation host validators (provedAttestations sb) ∨
      ((∀ q ∈ provedAttestations sb, Matched validators q ∧ q.1.data.slot.toNat < 2 ^ 32 ∧
          Proved host validators q) ∧
        WideProposer host validators sb))

theorem verifySignatures_noPanic {st : State H} : Exec.NoPanic (verifySignatures host st sb) ↔
    ¬WideSignatures host st.validators.toList sb := by
  unfold verifySignatures WideSignatures
  dsimp only
  rw [Exec.noPanic_ite, Exec.noPanic_bind, verifyAttestations_noPanic]
  simp only [verifyProposer_noPanic]
  constructor
  · rintro ⟨-, h⟩ ⟨hlen, hwide | ⟨hall, hwide⟩⟩
    · exact (h (not_not.mpr hlen)).1 hwide
    · exact (h (not_not.mpr hlen)).2 () (verifyAttestations_eq_ok.mpr hall) hwide
  · intro h
    refine ⟨fun _ ↦ .fail _, fun hlen ↦ ⟨fun hwide ↦ ?_, fun _ hall hwide ↦ ?_⟩⟩
    · exact h ⟨not_not.mp hlen, .inl hwide⟩
    · exact h ⟨not_not.mp hlen, .inr ⟨verifyAttestations_eq_ok.mp hall, hwide⟩⟩

/-- A block that is not imported yet, whose parent's state is there, and whose signature checks
meet a wide slot. -/
def WideSlot (host : Host H) (s : Store H) (sb : SignedBlockWithAttestation H) : Prop :=
  s.states.lookup (host.block sb.message.block) = none ∧
    ∃ parent, s.states.lookup sb.message.block.parentRoot = some parent ∧
      WideSignatures host parent.validators.toList sb

variable {s : Store H}

theorem Coherent.postState_noPanic (h : Coherent host s) :
    Exec.NoPanic (postState host s sb true) ↔
      ∀ parent, s.states.lookup sb.message.block.parentRoot = some parent →
        ¬WideSignatures host parent.validators.toList sb := by
  unfold postState
  rw [noPanic_okOr_bind]
  refine forall_congr' fun parent ↦ forall_congr' fun hparent ↦ ?_
  rw [if_pos rfl, Exec.noPanic_bind, verifySignatures_noPanic]
  refine ⟨fun h ↦ h.1, fun hw ↦ ⟨hw, fun _ _ ↦ ?_⟩⟩
  rw [Exec.noPanic_bind, Exec.noPanic_mapError]
  have hst := (h.states _ parent hparent).wellformed
  exact ⟨hst.stateTransition_noPanic _, fun _ _ ↦ .ok _⟩

theorem recordProposerVote_returns (ids : List UInt64) :
    Op.Returns (recordProposerVote host sb true ids) s := by
  unfold recordProposerVote
  rw [Bool.not_true, if_neg Bool.false_ne_true]
  split
  · rw [Op.returns_bind, Op.returns_lift]
    exact ⟨noPanic_okOr, fun _ _ _ ↦ Op.returns_of_eq rfl⟩
  · exact Op.returns_of_eq rfl

theorem Coherent.onBlock_returns (hh : HashSound host) (h : Coherent host s) (ids : List UInt64) :
    Op.Returns (onBlock host sb ids) s ↔ ¬WideSlot host s sb := by
  unfold onBlock onBlockCore WideSlot
  rw [Op.returns_get_bind]
  cases hknown : s.states.lookup (host.block sb.message.block) with
  | some st =>
    have hs : s.hasState (host.block sb.message.block) = true := by
      rw [Store.hasState, hknown]
      rfl
    rw [if_pos hs]
    exact ⟨fun _ h ↦ (nomatch h.1), fun _ ↦ Op.returns_of_eq rfl⟩
  | none =>
    have hs : s.hasState (host.block sb.message.block) = false := by
      rw [Store.hasState, hknown]
      rfl
    rw [hs, if_neg Bool.false_ne_true, Op.returns_bind, Op.returns_lift, h.postState_noPanic]
    constructor
    · rintro ⟨hnot, -⟩ ⟨-, parent, hparent, hwide⟩
      exact hnot parent hparent hwide
    · intro hnot
      refine ⟨fun parent hparent hwide ↦ hnot ⟨rfl, parent, hparent, hwide⟩, ?_⟩
      intro post u hu
      obtain ⟨rfl, ⟨post', hpost, hok⟩ | ⟨e, -, hok⟩⟩ := Op.lift_eq_ok.mp hu
      · obtain rfl := Except.ok.inj hok
        obtain ⟨head, hhead, -⟩ := (h.recordBlock hh hpost).updateHead (ε := StoreError H) hh
        rw [Op.returns_modify_bind, Op.returns_bind]
        exact ⟨Op.returns_of_eq hhead, fun _ _ _ ↦ recordProposerVote_returns ids⟩
      · exact nomatch hok

/-- After any calls from a genesis anchor that prune no state, the import of a block comes back
exactly when its signature checks meet no slot of 2^32 or more. -/
theorem import_returns_iff {time : UInt64} {validators : List Validator} {g : State H}
    {body : Option (BlockBody H)} {s₀ : Store H} {calls : List (Call H)} (hh : HashSound host)
    (hg : State.fromGenesis host.toTreeHash time validators =
      (.ok g : StateTransition.Result H (State H)))
    (hinit : Store.initStore host g body = .ok s₀)
    (hkeep : ∀ p ∈ Runs.trace (Call.step host) s₀ calls, Call.KeepsStates host p)
    (hrun : Call.run host s₀ calls = .ok s) (sb : SignedBlockWithAttestation H)
    (ids : List UInt64) :
    (∃ r s', onBlock host sb ids s = .ok (r, s')) ↔ ¬WideSlot host s sb := by
  have h₀ := (available_initStore hh (anchor_genesis hg) hinit).coherent
  exact (Call.coherent_run hh h₀ hkeep hrun).onBlock_returns hh ids

section Sample

/-- A key and a toy scheme in which a signature spells out its key, its slot and the last byte of
its message. -/
def sampleHost : Host ℕ :=
  { sampleHash with
    attestationData := fun d ↦ Nat.pair d.slot.toNat (Nat.pair (Nat.pair d.head.root d.head.slot.toNat)
      (Nat.pair (Nat.pair d.target.root d.target.slot.toNat)
        (Nat.pair d.source.root d.source.slot.toNat)))
    PublicKey := UInt8
    Signature := List UInt8
    SecretKey := UInt8
    Aggregate := List UInt8
    publicKeyFromBytes := fun bytes ↦ bytes.toList.head?
    signatureFromBytes := some
    signatureToBytes := id
    sign := fun key slot message ↦ some ([key, slot.toUInt8, UInt8.ofNat message] ++
      List.replicate 3109 0)
    isValid := fun signature key slot message ↦
      decide (signature.take 3 = [key, slot.toUInt8, UInt8.ofNat message])
    aggregateFromBytes := some
    aggregateToBytes := id
    xmssAggregateSignatures := fun keys _ message slot ↦
      some (keys ++ [slot.toUInt8, UInt8.ofNat message])
    xmssVerifyAggregatedSignatures := fun keys message aggregate slot ↦
      decide (aggregate = keys ++ [slot.toUInt8, UInt8.ofNat message])
    order := fun l ↦ l
    order_perm := fun l ↦ List.Perm.refl l }

theorem sampleHost_hashSound : HashSound sampleHost where
  collisionFree := ⟨sampleHash_collisionFree.header_injective,
    sampleHash_collisionFree.header_ne_zero⟩
  block_eq := fun _ ↦ rfl

def sampleSignature (key : UInt8) (d : AttestationData ℕ) : XmssSignature :=
  ⟨([key, d.slot.toUInt32.toUInt8, UInt8.ofNat (sampleHost.attestationData d)] ++
    List.replicate 3109 0).toArray, by
      rw [List.size_toArray, List.length_append, List.length_replicate]
      rfl⟩

def sampleSigned (block : Block ℕ) (vote : AttestationData ℕ) : SignedBlockWithAttestation ℕ :=
  ⟨⟨block, ⟨block.proposerIndex, vote⟩⟩,
    ⟨.empty, sampleSignature block.proposerIndex.toUInt8 vote⟩⟩

def ownVote (block parent : Block ℕ) : AttestationData ℕ :=
  ⟨block.slot, sampleCheckpoint block, sampleCheckpoint parent, sampleCheckpoint parent⟩

def sampleFirst : SignedBlockWithAttestation ℕ :=
  sampleSigned Sample.first (ownVote Sample.first sampleOrigin)

def sampleProof (a : AggregatedAttestation ℕ) : AggregatedSignatureProof :=
  ⟨a.aggregationBits, ⟨((validatorIndices a.aggregationBits).map UInt8.ofNat ++
    [a.data.slot.toUInt32.toUInt8, UInt8.ofNat (sampleHost.attestationData a.data)]).take 1048576, by
      simp⟩⟩

/-- A sample block with a proof for each of its votes. -/
def sampleProved (block : Block ℕ) (vote : AttestationData ℕ) : SignedBlockWithAttestation ℕ :=
  ⟨⟨block, ⟨block.proposerIndex, vote⟩⟩,
    ⟨⟨block.body.attestations.toList.map sampleProof, by
      simpa using block.body.attestations.length_le⟩,
    sampleSignature block.proposerIndex.toUInt8 vote⟩⟩

def sampleSecond : SignedBlockWithAttestation ℕ :=
  sampleProved Sample.second (ownVote Sample.second Sample.first)

def sampleThird : SignedBlockWithAttestation ℕ :=
  sampleProved Sample.third (ownVote Sample.third Sample.second)

theorem sampleStore_isSome :
    (Store.initStore sampleHost sampleGenesis none).toOption.isSome = true := by decide +kernel

def sampleStore : Store ℕ :=
  (Store.initStore sampleHost sampleGenesis none).toOption.get sampleStore_isSome

theorem sampleStore_eq : Store.initStore sampleHost sampleGenesis none = .ok sampleStore :=
  Exec.eq_ok_of_toOption (Option.some_get sampleStore_isSome).symm

theorem sampleGenesis_anchor : Anchor sampleHost sampleGenesis :=
  ⟨0, sampleValidators, sampleGenesis, [], sampleGenesis, 0, sampleGenesis_eq, rfl, rfl⟩

theorem import_returns_iff_sample :
    ∃ s, Call.run sampleHost sampleStore [.onBlock sampleFirst [0]] = .ok s ∧
      s.head = sampleHash.block Sample.first ∧
      ∀ sb ids, (∃ r s', onBlock sampleHost sb ids s = .ok (r, s')) ↔ ¬WideSlot sampleHost s sb := by
  have hview : (Call.run sampleHost sampleStore [.onBlock sampleFirst [0]]).toOption.map
      (fun s ↦ s.head) = some (sampleHash.block Sample.first) := by decide +kernel
  obtain ⟨s, hs, hhead⟩ := Exec.exists_ok_of_map hview
  refine ⟨s, hs, hhead, fun sb ids ↦ ?_⟩
  refine import_returns_iff sampleHost_hashSound sampleGenesis_eq sampleStore_eq ?_ hs sb ids
  intro p hp hprune
  have hmem := Runs.mem_of_mem_trace hp
  rw [hprune] at hmem
  simp at hmem

/-- A block with one vote of no one for a slot past the 32 bits, and no signature that matters. -/
def wideBlock : SignedBlockWithAttestation ℕ :=
  ⟨⟨⟨1, 1, sampleHash.block sampleOrigin, 0, ⟨⟨[⟨.empty, ⟨4294967296, ⟨0, 0⟩, ⟨0, 0⟩, ⟨0, 0⟩⟩⟩],
      by decide⟩⟩⟩, ⟨1, ⟨0, ⟨0, 0⟩, ⟨0, 0⟩, ⟨0, 0⟩⟩⟩⟩,
    ⟨⟨[.empty .empty], by decide⟩, sampleSignature 0 ⟨0, ⟨0, 0⟩, ⟨0, 0⟩, ⟨0, 0⟩⟩⟩⟩

theorem import_panics : Store.initStore sampleHost sampleGenesis none = .ok sampleStore ∧
    onBlock sampleHost wideBlock [0] sampleStore = .error (.expect "slot exceeds u32") := by
  refine ⟨sampleStore_eq, ?_⟩
  have hview : (match onBlock sampleHost wideBlock [0] sampleStore with
      | .error p => some p
      | .ok _ => none) = some (.expect "slot exceeds u32") := by decide +kernel
  cases h : onBlock sampleHost wideBlock [0] sampleStore with
  | error p =>
    rw [h] at hview
    exact congrArg Except.error (Option.some.inj hview)
  | ok r =>
    rw [h] at hview
    exact nomatch hview

end Sample

end Ethlambda.Chain
