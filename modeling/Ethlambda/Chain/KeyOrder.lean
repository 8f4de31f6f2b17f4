import Ethlambda.Base.Bytes
import Ethlambda.Chain.Buffers
import Ethlambda.Chain.Selection

namespace Ethlambda.Chain

open Ethlambda.Base Ethlambda.Types Ethlambda.Storage Ethlambda.StateTransition

set_option linter.unusedSectionVars false

variable {H : Type} [LinearOrder H] [Zero H] {host : Host H} {s s' : Store H} {ε : Type}

section Signers

variable {validators : List Validator}

/-- The signatures over a root that can be put together, in the order the table hands them out,
each with its validator and the validator's key. -/
def signersOf (host : Host H) (validators : List Validator)
    (sigs : List (SignatureKey H × StoredSignature)) (root : H) :
    List (UInt64 × host.PublicKey × host.Signature) :=
  sigs.filterMap fun e ↦ if e.1.2 = root then do
      let sig ← e.2.toValidatorSignature host
      let validator ← validators[e.1.1.toNat]?
      let pubkey ← host.getPubkey validator
      pure (e.1.1, pubkey, sig)
    else none

theorem knownSigners_append (validators : List Validator)
    (group group' : List (UInt64 × host.Signature)) :
    knownSigners host validators (group ++ group') =
      knownSigners host validators group ++ knownSigners host validators group' :=
  List.filterMap_append

theorem knownSigners_group (validators : List Validator)
    (sigs : List (SignatureKey H × StoredSignature)) (root : H) :
    knownSigners host validators (((signatureGroups host sigs).lookup root).getD []) =
      signersOf host validators sigs root := by
  induction sigs using List.reverseRecOn with
  | nil => rfl
  | append_singleton sigs e ih =>
    have hsplit : signersOf host validators (sigs ++ [e]) root =
        signersOf host validators sigs root ++ signersOf host validators [e] root :=
      List.filterMap_append
    rw [hsplit, ← ih]
    cases hsig : e.2.toValidatorSignature host with
    | none =>
      have hgroups : signatureGroups host (sigs ++ [e]) = signatureGroups host sigs := by
        simp [signatureGroups, List.foldl_append, hsig]
      have hlast : signersOf host validators [e] root = [] := by
        simp [signersOf, hsig]
      rw [hgroups, hlast, List.append_nil]
    | some sig =>
      have hgroups : signatureGroups host (sigs ++ [e]) = (signatureGroups host sigs).insert e.1.2
          (((signatureGroups host sigs).lookup e.1.2).getD [] ++ [(e.1.1, sig)]) := by
        simp [signatureGroups, List.foldl_append, hsig]
      rw [hgroups, Table.lookup_insert_eq_ite]
      by_cases hroot : root = e.1.2
      · subst hroot
        have hlast : signersOf host validators [e] e.1.2 =
            knownSigners host validators [(e.1.1, sig)] := by
          simp [signersOf, knownSigners, hsig, List.filterMap_cons]
        rw [if_pos rfl, Option.getD_some, knownSigners_append, hlast]
      · have hlast : signersOf host validators [e] root = [] := by
          simp [signersOf, Ne.symm hroot]
        rw [if_neg hroot, hlast, List.append_nil]

theorem signer_key {e : SignatureKey H × StoredSignature} {root : H}
    {p : UInt64 × host.PublicKey × host.Signature}
    (h : (if e.1.2 = root then do
        let sig ← e.2.toValidatorSignature host
        let validator ← validators[e.1.1.toNat]?
        let pubkey ← host.getPubkey validator
        pure (e.1.1, pubkey, sig)
      else none) = some p) : e.1 = (p.1, root) ∧ keyOf host validators p.1.toNat = some p.2.1 := by
  split at h
  · rename_i hroot
    obtain ⟨sig, -, h⟩ := Option.bind_eq_some_iff.mp h
    obtain ⟨validator, hvalidator, h⟩ := Option.bind_eq_some_iff.mp h
    obtain ⟨pubkey, hpubkey, h⟩ := Option.bind_eq_some_iff.mp h
    obtain rfl := Option.some.inj h
    refine ⟨Prod.ext rfl hroot, ?_⟩
    rw [keyOf, hvalidator, Option.bind_some, hpubkey]
  · cases h

theorem keyOf_of_mem {sigs : List (SignatureKey H × StoredSignature)} {root : H}
    {p : UInt64 × host.PublicKey × host.Signature} (h : p ∈ signersOf host validators sigs root) :
    keyOf host validators p.1.toNat = some p.2.1 := by
  obtain ⟨e, -, he⟩ := List.mem_filterMap.mp h
  exact (signer_key he).2

end Signers

section Aggregate

variable {validators : List Validator}

/-- What goes into the aggregate that a data root gets: the keys and the signatures, in this
order. -/
def passedKeys (host : Host H) (validators : List Validator)
    (sigs : List (SignatureKey H × StoredSignature)) (root : H) : List host.PublicKey :=
  (knownSigners host validators (((signatureGroups host sigs).lookup root).getD [])).map
    fun p ↦ p.2.1

def passedSignatures (host : Host H) (validators : List Validator)
    (sigs : List (SignatureKey H × StoredSignature)) (root : H) : List host.Signature :=
  (knownSigners host validators (((signatureGroups host sigs).lookup root).getD [])).map
    fun p ↦ p.2.2

/-- An aggregate is made for the root from what is passed on. -/
structure MadeFor (host : Host H) (s : Store H) (validators : List Validator) (root : H)
    (aggregate : SignedAggregatedAttestation H) : Prop where
  data_eq : s.getAttestationDataByRoot root = some aggregate.data
  proof_eq : host.aggregateSignatures
    (passedKeys host validators (s.iterGossipSignatures host) root)
    (passedSignatures host validators (s.iterGossipSignatures host) root) root
    aggregate.data.slot.toUInt32 = .ok aggregate.proof.proofData
  mem_participants : ∀ v, v ∈ aggregate.proof.participantIndices ↔
    ∃ p ∈ signersOf host validators (s.iterGossipSignatures host) root, p.1.toNat = v

theorem aggregationBitsFromValidatorIndices_spec {ids : List UInt64} {bits : AggregationBits}
    (hids : ∀ id ∈ ids, id.toNat < 4096)
    (h : (aggregationBitsFromValidatorIndices ids : Exec ε AggregationBits) = .ok bits) (v : ℕ) :
    v ∈ validatorIndices bits ↔ ∃ id ∈ ids, id.toNat = v := by
  unfold aggregationBitsFromValidatorIndices at h
  cases hmax : (ids.map UInt64.toNat).max? with
  | none =>
    rw [hmax] at h
    obtain rfl : ids = [] := List.map_eq_nil_iff.mp (List.max?_eq_none_iff.mp hmax)
    have hlist := BitList.withCapacity_eq_some.mp (Exec.expect_eq_ok.mp h)
    rw [mem_validatorIndices, hlist]
    simp
  | some maxId =>
    rw [hmax] at h
    have hle : ∀ id ∈ ids, id.toNat ≤ maxId := fun id hid ↦
      (List.max?_eq_some_iff.mp hmax).2 id.toNat (List.mem_map_of_mem hid)
    obtain ⟨id, hid, rfl⟩ := List.mem_map.mp (List.max?_mem hmax)
    obtain ⟨bits', hok, hmem⟩ := @raiseIds_eq_ok ε "validator count exceeds limit"
      "capacity support highest validator id" ids id.toNat hle (hids id hid)
    obtain rfl : bits' = bits := Except.ok.inj (hok.symm.trans h)
    exact hmem v

theorem lt_of_mem_signersOf (hlimit : validators.length ≤ 4096)
    {sigs : List (SignatureKey H × StoredSignature)} {root : H}
    {p : UInt64 × host.PublicKey × host.Signature} (h : p ∈ signersOf host validators sigs root) :
    p.1.toNat < 4096 := by
  have hkey := keyOf_of_mem h
  by_contra hlarge
  rw [keyOf, List.getElem?_eq_none (by omega)] at hkey
  cases hkey

theorem aggregateGroup_made (hlimit : validators.length ≤ 4096) {acc acc' : Aggregation H}
    {group : H × List (UInt64 × host.Signature)}
    (hgroup : (signatureGroups host (s.iterGossipSignatures host)).lookup group.1 = some group.2)
    (h : (aggregateGroup host s validators acc group : Exec ε _) = .ok acc') :
    ∀ aggregate ∈ acc'.newAggregates,
      aggregate ∈ acc.newAggregates ∨ MadeFor host s validators group.1 aggregate := by
  intro aggregate hmem
  have hsigners : knownSigners host validators group.2 =
      signersOf host validators (s.iterGossipSignatures host) group.1 := by
    rw [← knownSigners_group, hgroup, Option.getD_some]
  unfold aggregateGroup at h
  cases hdata : s.getAttestationDataByRoot group.1 with
  | none =>
    rw [hdata] at h
    rw [← Except.ok.inj h] at hmem
    exact .inl hmem
  | some data =>
    rw [hdata] at h
    dsimp only at h
    split at h
    · rw [← Except.ok.inj h] at hmem
      exact .inl hmem
    · split at h
      · rw [← Except.ok.inj h] at hmem
        exact .inl hmem
      · rename_i proofData hproof
        obtain ⟨participants, hbits, h⟩ := Exec.bind_eq_ok.mp h
        rw [← Except.ok.inj h] at hmem
        rcases List.mem_append.mp hmem with hmem | hmem
        · exact .inl hmem
        obtain rfl := List.mem_singleton.mp hmem
        refine .inr ⟨hdata, ?_, fun v ↦ ?_⟩
        · rw [passedKeys, passedSignatures, hgroup]
          exact hproof
        · rw [hsigners] at hbits
          refine (aggregationBitsFromValidatorIndices_spec ?_ hbits v).trans ?_
          · intro id hid
            obtain ⟨p, hp, rfl⟩ := List.mem_map.mp hid
            exact lt_of_mem_signersOf hlimit hp
          · simp only [List.mem_map, exists_exists_and_eq_and]

theorem foldlM_aggregateGroup_made (hlimit : validators.length ≤ 4096) {acc acc' : Aggregation H}
    {groups : List (H × List (UInt64 × host.Signature))}
    (hgroups : ∀ group ∈ groups,
      (signatureGroups host (s.iterGossipSignatures host)).lookup group.1 = some group.2)
    (h : (groups.foldlM (aggregateGroup host s validators) acc : Exec ε _) = .ok acc') :
    ∀ aggregate ∈ acc'.newAggregates,
      aggregate ∈ acc.newAggregates ∨ ∃ root, MadeFor host s validators root aggregate := by
  induction groups generalizing acc with
  | nil =>
    rw [← Except.ok.inj h]
    exact fun aggregate hmem ↦ .inl hmem
  | cons group groups ih =>
    rw [List.foldlM_cons] at h
    obtain ⟨acc₁, h₁, h⟩ := Exec.bind_eq_ok.mp h
    intro aggregate hmem
    rcases ih (fun g hg ↦ hgroups g (List.mem_cons_of_mem group hg)) h aggregate hmem with hold | hmade
    · rcases aggregateGroup_made hlimit (hgroups group List.mem_cons_self) h₁ aggregate hold with
        hold | hmade
      · exact .inl hold
      · exact .inr ⟨group.1, hmade⟩
    · exact .inr hmade

/-- Every aggregate that comes out is made for one of the roots with signatures. -/
theorem aggregateCommitteeSignatures_made {aggregates : List (SignedAggregatedAttestation H)}
    (h : (aggregateCommitteeSignatures host : Op (Store H) ε _) s = .ok (.ok aggregates, s')) :
    ∀ aggregate ∈ aggregates, ∃ headState root, s.getState s.head = some headState ∧
      MadeFor host s headState.validators.toList root aggregate := by
  unfold aggregateCommitteeSignatures at h
  rw [Op.get_bind] at h
  dsimp only at h
  split at h
  · obtain ⟨h, -⟩ := Prod.mk.inj (Except.ok.inj h)
    obtain rfl : [] = aggregates := Except.ok.inj h
    exact fun aggregate hmem ↦ absurd hmem List.not_mem_nil
  · rcases Op.bind_eq_ok.mp h with ⟨headState, t, hlift, hrest⟩ | ⟨e, -, he⟩
    · obtain ⟨hst, rfl⟩ := Op.lift_eq_ok_ok.mp hlift
      rcases Op.bind_eq_ok.mp hrest with ⟨acc, u, hlift', hwrite⟩ | ⟨e, -, he⟩
      · obtain ⟨hacc, rfl⟩ := Op.lift_eq_ok_ok.mp hlift'
        obtain ⟨hwrite, -⟩ := Prod.mk.inj (Except.ok.inj hwrite)
        obtain rfl : acc.newAggregates = aggregates := Except.ok.inj hwrite
        intro aggregate hmem
        rcases foldlM_aggregateGroup_made headState.validators.length_le (fun group hgroup ↦
          Table.mem_pairs.mp (host.mem_order.mp hgroup)) hacc aggregate hmem with hmem | ⟨root, hmade⟩
        · exact absurd hmem List.not_mem_nil
        · exact ⟨headState, root, Exec.expect_eq_ok.mp hst, hmade⟩
      · exact nomatch he
    · exact nomatch he

end Aggregate

section Order

variable {validators : List Validator} {sigs : List (SignatureKey H × StoredSignature)} {root : H}

/-- The signatures over the root come out of the table with ascending validators. -/
def Ascending (host : Host H) (validators : List Validator)
    (sigs : List (SignatureKey H × StoredSignature)) (root : H) : Prop :=
  ((signersOf host validators sigs root).map fun p ↦ p.1.toNat).Pairwise (· < ·)

theorem signersOf_sublist (validators : List Validator)
    (sigs : List (SignatureKey H × StoredSignature)) (root : H) :
    ((signersOf host validators sigs root).map fun p ↦ p.1.toNat).Sublist
      (sigs.map fun e ↦ e.1.1.toNat) := by
  induction sigs with
  | nil => exact .slnil
  | cons e sigs ih =>
    unfold signersOf at ih ⊢
    rw [List.filterMap_cons, List.map_cons]
    split
    · exact ih.cons _
    · rename_i p hp
      split at hp
      · obtain ⟨sig, -, hp⟩ := Option.bind_eq_some_iff.mp hp
        obtain ⟨validator, -, hp⟩ := Option.bind_eq_some_iff.mp hp
        obtain ⟨pubkey, -, hp⟩ := Option.bind_eq_some_iff.mp hp
        obtain rfl := Option.some.inj hp
        exact ih.cons_cons _
      · exact nomatch hp

theorem passedKeys_eq (validators : List Validator) (sigs : List (SignatureKey H × StoredSignature))
    (root : H) : (passedKeys host validators sigs root).map some =
      ((signersOf host validators sigs root).map fun p ↦ p.1.toNat).map (keyOf host validators) := by
  rw [passedKeys, knownSigners_group, List.map_map, List.map_map]
  exact List.map_congr_left fun p hp ↦ (keyOf_of_mem hp).symm

theorem exists_participantKeys {ids : List ℕ}
    (h : ∀ v ∈ ids, ∃ key, keyOf host validators v = some key) :
    ∃ keys, participantKeys host validators ids = .ok keys ∧
      keys.map some = ids.map (keyOf host validators) := by
  obtain ⟨keys, hkeys⟩ : ∃ keys, List.Forall₂ (fun v key ↦ keyOf host validators v = some key)
      ids keys := by
    induction ids with
    | nil => exact ⟨[], .nil⟩
    | cons v ids ih =>
      obtain ⟨key, hkey⟩ := h v List.mem_cons_self
      obtain ⟨keys, hkeys⟩ := ih fun w hw ↦ h w (List.mem_cons_of_mem v hw)
      exact ⟨key :: keys, .cons hkey hkeys⟩
  refine ⟨keys, participantKeys_eq_ok.mpr hkeys, ?_⟩
  rw [← List.forall₂_eq_eq_eq, List.forall₂_map_left_iff, List.forall₂_map_right_iff]
  exact hkeys.flip.imp fun key v hkey ↦ hkey.symm

theorem validatorIndices_ascending (bits : AggregationBits) :
    (validatorIndices bits).Pairwise (· < ·) :=
  List.pairwise_lt_range.sublist (validatorIndices_sublist bits)

/-- Keys that are looked up one by one tell apart the lists of validators they were looked up for. -/
theorem eq_of_map_eq {α β : Type} {f : α → β} {l m : List α} (hnodup : (l.map f).Nodup)
    (hmem : ∀ a, a ∈ m → a ∈ l) (h : l.map f = m.map f) : l = m := by
  have hinj := List.inj_on_of_nodup_map hnodup
  have hlength : l.length = m.length := by
    rw [← List.length_map (f := f), h, List.length_map]
  refine List.ext_getElem hlength fun i hi hi' ↦ ?_
  refine hinj (List.getElem_mem hi) (hmem _ (List.getElem_mem hi')) ?_
  rw [← List.getElem_map f (h := by simpa using hi), ← List.getElem_map f (h := by simpa using hi')]
  exact List.getElem_of_eq h _

/-- Aggregator and verifier list the same keys just when the table hands out the signatures in
the order of their validators. -/
theorem MadeFor.same_keys {aggregate : SignedAggregatedAttestation H}
    (h : MadeFor host s validators root aggregate) :
    ∃ rebuilt, participantKeys host validators aggregate.proof.participantIndices = .ok rebuilt ∧
      (Ascending host validators (s.iterGossipSignatures host) root →
        passedKeys host validators (s.iterGossipSignatures host) root = rebuilt) ∧
      ((passedKeys host validators (s.iterGossipSignatures host) root).Nodup →
        passedKeys host validators (s.iterGossipSignatures host) root = rebuilt →
          Ascending host validators (s.iterGossipSignatures host) root) := by
  have hpassed : (passedKeys host validators (s.iterGossipSignatures host) root).map some =
      ((signersOf host validators (s.iterGossipSignatures host) root).map fun p ↦ p.1.toNat).map
        (keyOf host validators) := passedKeys_eq _ _ _
  have hsorted := validatorIndices_ascending aggregate.proof.participants
  have hmem : ∀ v, v ∈ aggregate.proof.participantIndices ↔
      v ∈ (signersOf host validators (s.iterGossipSignatures host) root).map fun p ↦ p.1.toNat :=
    fun v ↦ (h.mem_participants v).trans List.mem_map.symm
  have hkeyed : ∀ v ∈ aggregate.proof.participantIndices, ∃ key,
      keyOf host validators v = some key := by
    intro v hv
    obtain ⟨p, hp, rfl⟩ := (h.mem_participants v).mp hv
    exact ⟨p.2.1, keyOf_of_mem hp⟩
  obtain ⟨rebuilt, hrebuilt, hkeys⟩ := exists_participantKeys hkeyed
  refine ⟨rebuilt, hrebuilt, fun hasc ↦ ?_, fun hnodup heq ↦ ?_⟩
  · have hids : (signersOf host validators (s.iterGossipSignatures host) root).map
        (fun p ↦ p.1.toNat) = aggregate.proof.participantIndices :=
      List.Pairwise.eq_of_mem_iff hasc hsorted fun v ↦ (hmem v).symm
    rw [hids, ← hkeys] at hpassed
    exact List.map_injective_iff.mpr (Option.some_injective _) hpassed
  · have hdistinct := hnodup.map (Option.some_injective _)
    rw [hpassed] at hdistinct
    have hids := eq_of_map_eq hdistinct (fun v hv ↦ (hmem v).mp hv)
      (hpassed.symm.trans ((congrArg _ heq).trans hkeys))
    unfold Ascending
    rw [hids]
    exact hsorted

/-- The key of a signature in the table on disk. -/
def encodeSignatureKey (rootBytes : H → List UInt8) (key : SignatureKey H) : List UInt8 :=
  littleEndian 8 key.1.toNat ++ rootBytes key.2

/-- The table on disk hands out its entries in the order of their keys. -/
def InByteOrder (rootBytes : H → List UInt8) (sigs : List (SignatureKey H × StoredSignature)) : Prop :=
  sigs.Pairwise fun e e' ↦ encodeSignatureKey rootBytes e.1 < encodeSignatureKey rootBytes e'.1

/-- On disk the order is right when the lowest bytes of the validators come first without harm. -/
theorem ascending_iff_bytes {rootBytes : H → List UInt8} (h : InByteOrder rootBytes sigs) :
    Ascending host validators sigs root ↔
      ∀ p ∈ signersOf host validators sigs root, ∀ q ∈ signersOf host validators sigs root,
        p.1 < q.1 → littleEndian 8 p.1.toNat < littleEndian 8 q.1.toNat := by
  have hbytes : (signersOf host validators sigs root).Pairwise fun p q ↦
      littleEndian 8 p.1.toNat < littleEndian 8 q.1.toNat := by
    rw [signersOf, List.pairwise_filterMap]
    refine h.imp fun {e e'} hlt p hp q hq ↦ ?_
    have hpkey := (signer_key hp).1
    have hqkey := (signer_key hq).1
    unfold encodeSignatureKey at hlt
    rw [hpkey, hqkey] at hlt
    exact (append_lt_append_iff (by simp)).mp hlt
  unfold Ascending
  rw [List.pairwise_map]
  constructor
  · intro hasc
    -- in the order of the table one way holds by its bytes, the other by the numbers
    refine List.Pairwise.forall_of_forall_of_flip (fun p _ hlt ↦ absurd hlt (UInt64.lt_irrefl p.1))
      (hbytes.imp fun {p q} hlt (_ : p.1 < q.1) ↦ hlt) (hasc.imp fun {p q} hlt hgt ↦ ?_)
    exact absurd (UInt64.lt_iff_toNat_lt.mp hgt) (Nat.lt_asymm hlt)
  · intro hagree
    refine hbytes.imp_of_mem fun {p q} hp hq hlt ↦ ?_
    by_contra hge
    rcases Nat.lt_or_eq_of_le (Nat.le_of_not_lt hge) with hgt | heq
    · exact List.lt_asymm hlt (hagree q hq p hp (UInt64.lt_iff_toNat_lt.mpr hgt))
    · rw [heq] at hlt
      exact List.lt_irrefl _ hlt

theorem key_order_iff {aggregates : List (SignedAggregatedAttestation H)}
    (h : (aggregateCommitteeSignatures host : Op (Store H) ε _) s = .ok (.ok aggregates, s'))
    {aggregate : SignedAggregatedAttestation H} (hmem : aggregate ∈ aggregates) :
    ∃ headState root, s.getState s.head = some headState ∧
      MadeFor host s headState.validators.toList root aggregate ∧
      (∀ st : State H, st.validators = headState.validators → ∃ rebuilt,
        participantKeys host st.validators.toList aggregate.proof.participantIndices = .ok rebuilt ∧
        (Ascending host headState.validators.toList (s.iterGossipSignatures host) root →
          passedKeys host headState.validators.toList (s.iterGossipSignatures host) root = rebuilt) ∧
        ((passedKeys host headState.validators.toList (s.iterGossipSignatures host) root).Nodup →
          passedKeys host headState.validators.toList (s.iterGossipSignatures host) root = rebuilt →
            Ascending host headState.validators.toList (s.iterGossipSignatures host) root)) ∧
      ∀ rootBytes : H → List UInt8, InByteOrder rootBytes (s.iterGossipSignatures host) →
        (Ascending host headState.validators.toList (s.iterGossipSignatures host) root ↔
          ∀ v ∈ aggregate.proof.participantIndices, ∀ w ∈ aggregate.proof.participantIndices,
            v < w → littleEndian 8 v < littleEndian 8 w) := by
  obtain ⟨headState, root, hstate, hmade⟩ := aggregateCommitteeSignatures_made h aggregate hmem
  refine ⟨headState, root, hstate, hmade, fun st hst ↦ ?_, fun rootBytes hbytes ↦ ?_⟩
  · rw [hst]
    exact hmade.same_keys
  · rw [ascending_iff_bytes hbytes]
    simp only [hmade.mem_participants, forall_exists_index, and_imp, forall_apply_eq_imp_iff₂,
      UInt64.lt_iff_toNat_lt]

end Order

section Sample

def longKey (i : ℕ) : ValidatorPubkeyBytes :=
  Vector.append #v[UInt8.ofNat i, UInt8.ofNat (i / 256)] (Vector.replicate 50 0)

theorem take_longKey (i : ℕ) : (longKey i).toList.take 2 = [UInt8.ofNat i, UInt8.ofNat (i / 256)] := by
  unfold longKey Vector.append
  simp

/-- More validators than one byte counts, with keys of two bytes. -/
def longRegistry : List Validator := (List.range 257).map fun i ↦ ⟨longKey i, UInt64.ofNat i⟩

def longHost : Host ℕ :=
  { sampleHost with
    PublicKey := List UInt8
    Signature := List UInt8
    SecretKey := List UInt8
    Aggregate := List UInt8
    publicKeyFromBytes := fun bytes ↦ some (bytes.toList.take 2)
    signatureFromBytes := some
    signatureToBytes := id
    sign := fun key slot message ↦ some (key ++ [slot.toUInt8, UInt8.ofNat message] ++
      List.replicate 3108 0)
    isValid := fun signature key slot message ↦
      decide (signature.take 4 = key ++ [slot.toUInt8, UInt8.ofNat message])
    aggregateFromBytes := some
    aggregateToBytes := id
    xmssAggregateSignatures := fun keys _ message slot ↦
      some (keys.flatten ++ [slot.toUInt8, UInt8.ofNat message])
    xmssVerifyAggregatedSignatures := fun keys message aggregate slot ↦
      decide (aggregate = keys.flatten ++ [slot.toUInt8, UInt8.ofNat message]) }

def longGenesis : State ℕ := genesisState sampleHash 0 ⟨longRegistry, by decide +kernel⟩

theorem longStore_isSome : (Store.initStore longHost longGenesis none).toOption.isSome = true := by
  decide +kernel

def longStore : Store ℕ :=
  (Store.initStore longHost longGenesis none).toOption.get longStore_isSome

theorem longStore_headState : ∃ st, longStore.getState longStore.head = some st ∧
    st.validators.toList = longRegistry := by
  have hstore : Store.initStore longHost longGenesis none = .ok longStore :=
    Exec.eq_ok_of_toOption (Option.some_get longStore_isSome).symm
  refine ⟨_, initStore_headState hstore, ?_⟩
  dsimp only [Store.anchor, longGenesis, genesisState]

def longVote : AttestationData ℕ := ⟨0, ⟨longStore.head, 0⟩, ⟨longStore.head, 0⟩, ⟨longStore.head, 0⟩⟩

def longRoot : ℕ := longHost.attestationData longVote

/-- Signatures of one vote that the table hands out in the given order. -/
def longSigned (ids : List UInt64) : Store ℕ :=
  ids.foldr (fun vid s ↦ s.insertGossipSignature longHost longRoot 0 vid [vid.toUInt8])
    (longStore.insertAttestationDataByRoot longRoot longVote)

theorem longSigned_headState (ids : List UInt64) :
    (longSigned ids).getState (longSigned ids).head = longStore.getState longStore.head := by
  induction ids with
  | nil => rfl
  | cons v ids ih => exact ih

/-- What can be seen of a run of the aggregator on signatures of one vote. -/
def longView (ids : List UInt64) : Option (List (AttestationData ℕ × List ℕ × ByteListMiB)) :=
  ((aggregateCommitteeSignatures longHost : Op (Store ℕ) Empty _)
    (longSigned ids)).toOption.bind fun r ↦ r.1.toOption.map fun aggregates ↦
      aggregates.map fun a ↦ (a.data, a.proof.participantIndices, a.proof.proofData)

theorem exists_of_longView {ids : List UInt64} {data : AttestationData ℕ} {indices : List ℕ}
    {proofData : ByteListMiB} (h : longView ids = some [(data, indices, proofData)]) :
    ∃ aggregate s', (aggregateCommitteeSignatures longHost : Op (Store ℕ) Empty _)
        (longSigned ids) = .ok (.ok [aggregate], s') ∧ aggregate.data = data ∧
      aggregate.proof.participantIndices = indices ∧ aggregate.proof.proofData = proofData := by
  unfold longView at h
  cases hrun : (aggregateCommitteeSignatures longHost : Op (Store ℕ) Empty _) (longSigned ids) with
  | error p =>
    rw [hrun] at h
    exact nomatch h
  | ok r =>
    obtain ⟨e | aggregates, s'⟩ := r
    · exact e.elim
    · rw [hrun] at h
      obtain ⟨aggregate, rfl, heq⟩ := List.map_eq_singleton_iff.mp (Option.some.inj h)
      obtain ⟨hdata, heq⟩ := Prod.mk.inj heq
      obtain ⟨hindices, hproof⟩ := Prod.mk.inj heq
      exact ⟨aggregate, s', rfl, hdata, hindices, hproof⟩

instance : DecidableEq longHost.PublicKey := inferInstanceAs (DecidableEq (List UInt8))

theorem longRegistry_nodup : (longRegistry.map longHost.getPubkey).Nodup := by
  have hkey (i : ℕ) : longHost.getPubkey ⟨longKey i, UInt64.ofNat i⟩ =
      some [UInt8.ofNat i, UInt8.ofNat (i / 256)] := by
    change some ((longKey i).toList.take 2) = _
    rw [take_longKey]
  rw [longRegistry, List.map_map]
  refine List.nodup_range.map_on fun i hi j hj h ↦ ?_
  rw [Function.comp_apply, Function.comp_apply, hkey, hkey] at h
  rw [List.mem_range] at hi hj
  obtain ⟨hlow, hrest⟩ := List.cons.inj (Option.some.inj h)
  have hlow' := congrArg UInt8.toNat hlow
  have hhigh' := congrArg UInt8.toNat (List.cons.inj hrest).1
  simp only [UInt8.toNat_ofNat'] at hlow' hhigh'
  omega

/-- Signatures of the validators 256 and 1, in the order of their keys on disk: the aggregator
passes on the key of 256 first, a verifier the key of 1. -/
theorem key_order_differs : ∃ aggregate s',
    (aggregateCommitteeSignatures longHost : Op (Store ℕ) Empty _) (longSigned [256, 1]) =
      .ok (.ok [aggregate], s') ∧
    (∀ rootBytes, InByteOrder rootBytes ((longSigned [256, 1]).iterGossipSignatures longHost)) ∧
    MadeFor longHost (longSigned [256, 1]) longRegistry longRoot aggregate ∧
    passedKeys longHost longRegistry ((longSigned [256, 1]).iterGossipSignatures longHost)
      longRoot = ([[0, 1], [1, 0]] : List (List UInt8)) ∧
    (longRegistry.map longHost.getPubkey).Nodup ∧
    participantKeys longHost longRegistry aggregate.proof.participantIndices =
      .ok ([[1, 0], [0, 1]] : List (List UInt8)) := by
  have hview : longView [256, 1] = some [(longVote, [1, 256],
      ⟨[0, 1, 1, 0, 0, UInt8.ofNat longRoot], by simp⟩)] := by decide +kernel
  obtain ⟨aggregate, s', hrun, hdata, hindices, hproof⟩ := exists_of_longView hview
  refine ⟨aggregate, s', hrun, fun rootBytes ↦ ?_, ⟨?_, ?_, fun v ↦ ?_⟩, ?_, longRegistry_nodup, ?_⟩
  · have hkeys : (longSigned [256, 1]).iterGossipSignatures longHost =
        [((256, longRoot), .new longHost 0 [0]), ((1, longRoot), .new longHost 0 [1])] := by
      rfl
    rw [hkeys, InByteOrder, List.pairwise_pair]
    exact (append_lt_append_iff (by simp)).mpr (by decide)
  · rw [hdata]
    decide +kernel
  · rw [hdata, hproof]
    exact Exec.eq_ok_of_toOption (by decide +kernel)
  · have hsigners : (signersOf longHost longRegistry
        ((longSigned [256, 1]).iterGossipSignatures longHost) longRoot).map (fun p ↦ p.1.toNat) =
          [256, 1] := by decide +kernel
    rw [hindices, ← List.mem_map, hsigners]
    simp [or_comm]
  · rfl
  · rw [hindices]
    exact Exec.eq_ok_of_toOption (by decide +kernel)

theorem longSigned_data (ids : List UInt64) (root : ℕ) :
    (longSigned ids).getAttestationDataByRoot root = if root = longRoot then some longVote else none := by
  induction ids with
  | nil =>
    have hnone : longStore.attestationDataByRoot.lookup root = none := rfl
    change (longStore.attestationDataByRoot.insert longRoot longVote).lookup root = _
    rw [Table.lookup_insert_eq_ite, hnone]
  | cons v ids ih => exact ih

theorem key_order_iff_sample : ∃ aggregate s',
    (aggregateCommitteeSignatures longHost : Op (Store ℕ) Empty _) (longSigned [1, 256]) =
      .ok (.ok [aggregate], s') ∧
    MadeFor longHost (longSigned [1, 256]) longRegistry longRoot aggregate ∧
    ∃ rebuilt, participantKeys longHost longRegistry aggregate.proof.participantIndices =
        .ok rebuilt ∧
      passedKeys longHost longRegistry ((longSigned [1, 256]).iterGossipSignatures longHost)
        longRoot = rebuilt := by
  have hview : longView [1, 256] = some [(longVote, [1, 256],
      ⟨[1, 0, 0, 1, 0, UInt8.ofNat longRoot], by simp⟩)] := by decide +kernel
  obtain ⟨aggregate, s', hrun, -⟩ := exists_of_longView hview
  obtain ⟨headState, root, hstate, hmade, hsame, -⟩ := key_order_iff hrun List.mem_cons_self
  obtain ⟨st, hst, hregistry⟩ := longStore_headState
  rw [longSigned_headState, hst] at hstate
  obtain rfl : st = headState := Option.some.inj hstate
  have hroot : root = longRoot := by
    by_contra hne
    have hdata := hmade.data_eq
    rw [longSigned_data, if_neg hne] at hdata
    exact nomatch hdata
  obtain ⟨rebuilt, hrebuilt, hasc, -⟩ := hsame st rfl
  rw [hroot, hregistry] at hmade hasc
  rw [hregistry] at hrebuilt
  have hids : ((signersOf longHost longRegistry ((longSigned [1, 256]).iterGossipSignatures
      longHost) longRoot).map fun p ↦ p.1.toNat) = [1, 256] := by decide +kernel
  refine ⟨aggregate, s', hrun, hmade, rebuilt, hrebuilt, hasc ?_⟩
  rw [Ascending, hids]
  decide

end Sample

end Ethlambda.Chain
