import Ethlambda.Chain.Handlers
import Ethlambda.Chain.Reachable

namespace Ethlambda.Chain

open Ethlambda.Base Ethlambda.Types Ethlambda.Storage Ethlambda.StateTransition

set_option linter.unusedSectionVars false

section Clock

/-- The time for which a tick at `t` schedules the next: the next multiple of an interval on the
UNIX clock. -/
def nextTick (t : ℕ) : ℕ := t + (millisecondsPerInterval - t % millisecondsPerInterval)

/-- The first tick comes at genesis, every other one when the one before it asked for it. All of
them may come late. -/
def Scheduled (genesisMs : ℕ) (ts : List ℕ) : Prop :=
  (∀ t ∈ ts.head?, genesisMs ≤ t) ∧ ts.IsChain fun t t' ↦ nextTick t ≤ t'

def slotInterval (genesisMs t : ℕ) : ℕ × ℕ :=
  ((t - genesisMs) / millisecondsPerSlot,
    (t - genesisMs) % millisecondsPerSlot / millisecondsPerInterval)

/-- By how much the intervals since genesis begin after those of the UNIX clock. -/
def offset (genesisMs : ℕ) : ℕ := genesisMs % millisecondsPerInterval

/-- A tick that is late by the offset or more is not followed by the tick of the next boundary,
handled with less delay than the offset. -/
def Spaced (genesisMs : ℕ) (ts : List ℕ) : Prop :=
  ts.IsChain fun t t' ↦ ¬(offset genesisMs ≤ t % millisecondsPerInterval ∧
    t' / millisecondsPerInterval = t / millisecondsPerInterval + 1 ∧
    t' % millisecondsPerInterval < offset genesisMs)

variable {genesisMs t t' : ℕ} {ts : List ℕ}

theorem Scheduled.genesis_le (h : Scheduled genesisMs ts) : ∀ t ∈ ts, genesisMs ≤ t := by
  induction ts with
  | nil => simp
  | cons t ts ih =>
    have hfirst : genesisMs ≤ t := h.1 t rfl
    obtain ⟨hnext, htail⟩ := List.isChain_cons.mp h.2
    intro u hu
    rcases List.mem_cons.mp hu with rfl | hu
    · exact hfirst
    · refine ih ⟨fun t' ht' ↦ ?_, htail⟩ u hu
      have hle := hnext t' ht'
      unfold nextTick at hle
      omega

/-- Relations that agree on the neighbours of a list make it a chain together. -/
theorem isChain_congr {α : Type} {Q R S : α → α → Prop} {l : List α} (h : l.IsChain Q)
    (hQ : ∀ a ∈ l, ∀ b, Q a b → (R a b ↔ S a b)) : l.IsChain R ↔ l.IsChain S := by
  induction l with
  | nil => simp
  | cons a l ih =>
    obtain ⟨hhead, htail⟩ := List.isChain_cons.mp h
    rw [List.isChain_cons, List.isChain_cons,
      ih htail fun a' ha' ↦ hQ a' (List.mem_cons_of_mem a ha')]
    refine and_congr_left fun _ ↦ forall₂_congr fun b hb ↦ ?_
    exact hQ a List.mem_cons_self b (hhead b hb)

theorem slotInterval_eq_iff :
    slotInterval genesisMs t = slotInterval genesisMs t' ↔
      (t - genesisMs) / millisecondsPerInterval = (t' - genesisMs) / millisecondsPerInterval := by
  unfold slotInterval
  rw [Prod.mk.injEq]
  unfold millisecondsPerSlot millisecondsPerInterval intervalsPerSlot
  omega

/-- Two ticks in turn share an interval exactly if the first is late enough to fall into the
interval of the second. -/
theorem not_spaced_iff (ht : genesisMs ≤ t) (hnext : nextTick t ≤ t') :
    (offset genesisMs ≤ t % millisecondsPerInterval ∧
      t' / millisecondsPerInterval = t / millisecondsPerInterval + 1 ∧
      t' % millisecondsPerInterval < offset genesisMs) ↔
    ¬(t - genesisMs) / millisecondsPerInterval < (t' - genesisMs) / millisecondsPerInterval := by
  unfold nextTick millisecondsPerInterval at hnext
  unfold offset millisecondsPerInterval
  omega

theorem spaced_iff_rising (h : Scheduled genesisMs ts) :
    Spaced genesisMs ts ↔ ts.IsChain fun t t' ↦
      (t - genesisMs) / millisecondsPerInterval < (t' - genesisMs) / millisecondsPerInterval := by
  refine isChain_congr h.2 fun t ht t' hnext ↦ ?_
  rw [not_spaced_iff (h.genesis_le t ht) hnext, not_not]

/-- The intervals of ticks on schedule never go back, so only neighbours can share one. -/
theorem nodup_slotInterval_iff (h : Scheduled genesisMs ts) :
    (ts.map (slotInterval genesisMs)).Nodup ↔ Spaced genesisMs ts := by
  constructor
  · intro hnodup
    have hchain : ts.IsChain fun t t' ↦ slotInterval genesisMs t ≠ slotInterval genesisMs t' :=
      (List.pairwise_map.mp hnodup).isChain
    refine (isChain_congr h.2 fun t ht t' hnext ↦ ?_).mpr hchain
    rw [not_spaced_iff (h.genesis_le t ht) hnext, not_not, Ne, slotInterval_eq_iff]
    unfold nextTick at hnext
    unfold millisecondsPerInterval at hnext ⊢
    omega
  · intro hspaced
    have hrising := (spaced_iff_rising h).mp hspaced
    have hpair : (ts.map fun t ↦ (t - genesisMs) / millisecondsPerInterval).Pairwise (· < ·) := by
      rw [← List.isChain_iff_pairwise, List.isChain_map]
      exact hrising
    refine List.pairwise_map.mpr ((List.pairwise_map.mp hpair).imp fun hlt heq ↦ ?_)
    rw [slotInterval_eq_iff] at heq
    omega

end Clock

namespace Server

variable {H : Type} [LinearOrder H] [Zero H] (host : Host H) {ε : Type}

/-- What a tick has left to do once it comes to sign. -/
inductive Duty (H : Type)
  | idle
  | propose (validatorId : UInt64) (block : Block H) (proofs : List AggregatedSignatureProof)
      (data : AttestationData H)
  | attest (validatorIds : List UInt64) (data : AttestationData H)

def proposeDuty (slot validatorId : UInt64) : Op (Server host) ε (Duty H) := do
  match ← Op.attempt (onStore host (produceBlockWithSignatures host slot validatorId)) with
  | .error _ => pure .idle
  | .ok (block, proofs) =>
    let server ← Op.get
    let target ← Op.lift (getAttestationTarget server.store)
    pure (.propose validatorId block proofs
      ⟨slot, ⟨host.block block, block.slot⟩, target, server.store.latestJustified⟩)

def attestDuty (slot : UInt64) : Op (Server host) ε (Duty H) := do
  let server ← Op.get
  let headState ← Op.lift server.store.headState
  let data ← Op.lift (produceAttestationData server.store slot)
  pure (.attest ((validatorIds host server).filter fun vid ↦
    !isProposer vid.toNat slot.toNat headState.validators.len) data)

def slotDuty (timestampMs slot : UInt64) (interval : ℕ) : Op (Server host) ε (Duty H) := do
  let server ← Op.get
  let proposer ← (if interval = 0 ∧ 0 < slot then Op.lift (getOurProposer host server slot)
    else pure none)
  let newAggregates ← onStore host
    (Chain.onTick host timestampMs proposer.isSome server.isAggregator)
  publish host (newAggregates.map .aggregatedAttestation)
  match proposer with
  | some validatorId => proposeDuty host slot validatorId
  | none => if interval = 1 then attestDuty host slot else pure .idle

/-- The tick up to its first signature. There is nothing to do without validators. -/
def tickDuty (timestampMs : UInt64) : Op (Server host) ε (Option (Duty H)) := do
  let server ← Op.get
  let genesisTimeMs ← Op.lift (Exec.mul64 server.store.config.genesisTime.toNat 1000)
  let sinceGenesisMs := timestampMs.toNat - genesisTimeMs
  let headState ← Op.lift server.store.headState
  if headState.validators.toList = [] then
    pure none
  else
    let duty ← slotDuty host timestampMs (UInt64.ofNat (sinceGenesisMs / millisecondsPerSlot))
      (sinceGenesisMs % millisecondsPerSlot / millisecondsPerInterval)
    pure (some duty)

/-- The tick from its first signature on. -/
def fulfil : Duty H → Op (Server host) ε Unit
  | .idle => pure ()
  | .propose validatorId block proofs data => do
    let server ← Op.get
    match signAttestation host server validatorId data with
    | .error _ => pure ()
    | .ok signature =>
      let proofs ← Op.lift (Exec.expect "attestation signatures within limit"
        (VariableList.new validatorRegistryLimit proofs))
      let signedBlock : SignedBlockWithAttestation H :=
        ⟨⟨block, ⟨validatorId, data⟩⟩, ⟨proofs, signature⟩⟩
      match ← Op.attempt (processBlock host signedBlock) with
      | .error _ => pure ()
      | .ok () => publish host [.block signedBlock]
  | .attest ids data => do
    let server ← Op.get
    publish host (ids.filterMap fun vid ↦ match signAttestation host server vid data with
      | .error _ => none
      | .ok signature => some (Outgoing.attestation ⟨vid, data, signature⟩))

def gauges : Op (Server host) ε Unit := do
  let server ← Op.get
  let _ ← Op.lift server.store.safeTargetSlot
  let _ ← Op.lift server.store.headSlot

theorem proposeBlock_eq (slot validatorId : UInt64) :
    (proposeBlock host slot validatorId : Op (Server host) ε Unit) =
      proposeDuty host slot validatorId >>= fulfil host := by
  unfold proposeBlock proposeDuty
  rw [bind_assoc]
  congr 1
  funext r
  cases r with
  | error e => rfl
  | ok produced =>
    obtain ⟨block, proofs⟩ := produced
    dsimp only
    unfold signAndProcess
    simp only [bind_assoc, pure_bind]
    funext server
    rw [Op.get_bind, Op.get_bind]
    rcases (getAttestationTarget server.store : Exec ε (Checkpoint H)) with (e | p) | target <;> rfl

theorem fulfil_attest (ids : List UInt64) (data : AttestationData H) (server : Server host) :
    (fulfil host (.attest ids data) : Op (Server host) ε Unit) server =
      publish host (ids.filterMap fun vid ↦ match signAttestation host server vid data with
        | .error _ => none
        | .ok signature => some (Outgoing.attestation ⟨vid, data, signature⟩)) server := rfl

theorem produceAttestations_eq (slot : UInt64) :
    (produceAttestations host slot : Op (Server host) ε Unit) =
      attestDuty host slot >>= fulfil host := by
  unfold produceAttestations attestDuty
  simp only [bind_assoc, pure_bind]
  funext server
  rw [Op.get_bind, Op.get_bind]
  rcases (server.store.headState : Exec ε (State H)) with (e | p) | headState
  · rfl
  · rfl
  rw [Op.lift_bind_of_ok rfl, Op.lift_bind_of_ok rfl]
  rcases (produceAttestationData server.store slot : Exec ε (AttestationData H)) with (e | p) | data
  · rfl
  · rfl
  rw [Op.lift_bind_of_ok rfl, Op.lift_bind_of_ok rfl]
  rw [fulfil_attest, List.filterMap_filter]
  congr 2
  funext vid
  cases isProposer vid.toNat slot.toNat headState.validators.len <;> rfl

/-- A tick builds what it signs, signs it and reports. Nothing of what follows the first signature
signs anything else. -/
theorem tickSlot_eq (timestampMs slot : UInt64) (interval : ℕ) :
    (tickSlot host timestampMs slot interval : Op (Server host) ε Unit) =
      slotDuty host timestampMs slot interval >>= fun duty ↦
        fulfil host duty >>= fun _ ↦ gauges host := by
  unfold tickSlot slotDuty
  simp only [bind_assoc]
  congr 1
  funext server
  by_cases hproposal : interval = 0 ∧ 0 < slot
  · have hne : interval ≠ 1 := by omega
    simp only [if_pos hproposal, if_neg hne, pure_bind]
    congr 1
    funext proposer
    congr 1
    funext aggregates
    congr 1
    funext _
    cases proposer with
    | none => rfl
    | some validatorId =>
      dsimp only
      rw [proposeBlock_eq, bind_assoc]
      rfl
  · simp only [if_neg hproposal, pure_bind]
    congr 1
    funext aggregates
    congr 1
    funext _
    split
    · rw [produceAttestations_eq, bind_assoc]
      rfl
    · rfl

theorem onTick_eq (timestampMs : UInt64) :
    (onTick host timestampMs : Op (Server host) ε Unit) =
      tickDuty host timestampMs >>= fun duty ↦ match duty with
        | none => pure ()
        | some duty => fulfil host duty >>= fun _ ↦ gauges host := by
  unfold onTick tickDuty
  simp only [bind_assoc]
  congr 1
  funext server
  congr 1
  funext genesisTimeMs
  congr 1
  funext headState
  split
  · rfl
  · rw [tickSlot_eq, bind_assoc]
    rfl

/-- Whether the key of a validator signs: a signature that cannot be encoded is made all the same. -/
def signs (server : Server host) (validatorId : UInt64) (data : AttestationData H) : Bool :=
  match server.keys.lookup validatorId with
  | none => false
  | some key => (host.sign key data.slot.toUInt32 (host.attestationData data)).isSome

/-- The signatures that fulfil a duty, each with the validator whose key makes it. -/
def Duty.signed (server : Server host) : Duty H → List (UInt64 × AttestationData H)
  | .idle => []
  | .propose validatorId _ _ data => if signs host server validatorId data then [(validatorId, data)]
    else []
  | .attest ids data => (ids.filter fun vid ↦ signs host server vid data).map fun vid ↦ (vid, data)

/-- The signatures that are made while a message is handled. -/
def signed (server : Server host) (d : Delivery H) : List (UInt64 × AttestationData H) :=
  match d.message with
  | .tick timestampMs =>
    match (tickDuty host timestampMs : Op (Server host) Empty (Option (Duty H))) server with
    | .ok (.ok (some duty), server') => duty.signed host server'
    | _ => []
  | _ => []

def tickTime (d : Delivery H) : Option ℕ := match d.message with
  | .tick timestampMs => some timestampMs.toNat
  | _ => none

variable {host} {server server' : Server host} {config : ChainConfig}
  {validators : VariableList Validator validatorRegistryLimit} {duty : Duty H} {slot : UInt64}
  {w w' : UInt64 × AttestationData H}

/-- The signatures of one duty are all for one vote. -/
theorem Duty.signed_unique (h : w ∈ duty.signed host server) (h' : w' ∈ duty.signed host server) :
    w.2 = w'.2 := by
  cases duty with
  | idle => simp [Duty.signed] at h
  | propose validatorId block proofs data =>
    simp only [Duty.signed] at h h'
    split at h
    · simp_all
    · simp at h
  | attest ids data =>
    obtain ⟨vid, -, rfl⟩ := List.mem_map.mp h
    obtain ⟨vid', -, rfl⟩ := List.mem_map.mp h'
    rfl

theorem mem_signed {d : Delivery H} : w ∈ signed host server d ↔
    ∃ timestampMs duty server', d.message = .tick timestampMs ∧
      (tickDuty host timestampMs : Op (Server host) Empty (Option (Duty H))) server =
        .ok (.ok (some duty), server') ∧ w ∈ duty.signed host server' := by
  constructor
  · intro h
    unfold signed at h
    split at h
    · rename_i timestampMs hmessage
      split at h
      · rename_i duty server' heq
        exact ⟨timestampMs, duty, server', hmessage, heq, h⟩
      · simp at h
    · simp at h
  · rintro ⟨timestampMs, duty, server', hmessage, heq, h⟩
    simp only [signed, hmessage, heq, h]

theorem signed_unique {d : Delivery H} (h : w ∈ signed host server d)
    (h' : w' ∈ signed host server d) : w.2 = w'.2 := by
  obtain ⟨t, duty, s, hmessage, heq, hw⟩ := mem_signed.mp h
  obtain ⟨t', duty', s', hmessage', heq', hw'⟩ := mem_signed.mp h'
  obtain rfl := Message.tick.inj (hmessage.symm.trans hmessage')
  obtain ⟨hduty, rfl⟩ := Prod.mk.inj (Except.ok.inj (heq.symm.trans heq'))
  obtain rfl := Option.some.inj (Except.ok.inj hduty)
  exact Duty.signed_unique hw hw'

theorem headState_uniform {s : Store H} (h : Uniform config validators s) {st : State H}
    (hst : (s.headState : Exec ε (State H)) = .ok st) : st.validators = validators :=
  (h.states _ st (Exec.expect_eq_ok.mp hst)).2

theorem signed_proposeDuty {validatorId : UInt64}
    (h : (proposeDuty host slot validatorId : Op (Server host) ε (Duty H)) server =
      .ok (.ok duty, server')) (hw : w ∈ duty.signed host server') :
    w.1 = validatorId ∧ w.2.slot = slot := by
  obtain ⟨r, s₁, -, h⟩ := Op.bind_eq_ok_ok.mp h
  cases r with
  | error e =>
    obtain ⟨hduty, -⟩ := Prod.mk.inj (Except.ok.inj h)
    obtain rfl := Except.ok.inj hduty
    simp [Duty.signed] at hw
  | ok produced =>
    dsimp only at h
    rw [Op.get_bind] at h
    obtain ⟨target, s₂, -, h⟩ := Op.bind_eq_ok_ok.mp h
    obtain ⟨hduty, -⟩ := Prod.mk.inj (Except.ok.inj h)
    obtain rfl := Except.ok.inj hduty
    simp only [Duty.signed] at hw
    split at hw
    · obtain rfl := List.mem_singleton.mp hw
      exact ⟨rfl, rfl⟩
    · simp at hw

theorem signed_attestDuty (hu : Uniform config validators server.store)
    (h : (attestDuty host slot : Op (Server host) ε (Duty H)) server = .ok (.ok duty, server'))
    (hw : w ∈ duty.signed host server') :
    w.2.slot = slot ∧ isProposer w.1.toNat slot.toNat validators.len = false := by
  unfold attestDuty at h
  rw [Op.get_bind] at h
  obtain ⟨headState, s₁, hhead, h⟩ := Op.bind_eq_ok_ok.mp h
  obtain ⟨hhead, -⟩ := Op.lift_eq_ok_ok.mp hhead
  obtain ⟨data, s₂, hdata, h⟩ := Op.bind_eq_ok_ok.mp h
  obtain ⟨hdata, -⟩ := Op.lift_eq_ok_ok.mp hdata
  obtain ⟨hduty, -⟩ := Prod.mk.inj (Except.ok.inj h)
  obtain rfl := Except.ok.inj hduty
  obtain ⟨vid, hvid, rfl⟩ := List.mem_map.mp hw
  have hother := (List.mem_filter.mp (List.mem_filter.mp hvid).1).2
  rw [headState_uniform hu hhead] at hother
  refine ⟨?_, by simpa using hother⟩
  unfold produceAttestationData at hdata
  obtain ⟨headSlot, -, hdata⟩ := Exec.bind_eq_ok.mp hdata
  obtain ⟨target, -, hdata⟩ := Exec.bind_eq_ok.mp hdata
  rw [← Except.ok.inj hdata]

theorem getOurProposer_eq_some (hu : Uniform config validators server.store) {validatorId : UInt64}
    (h : (getOurProposer host server slot : Exec ε (Option UInt64)) = .ok (some validatorId)) :
    isProposer validatorId.toNat slot.toNat validators.len = true := by
  obtain ⟨headState, hhead, h⟩ := Exec.bind_eq_ok.mp h
  have hfound := List.find?_some (Except.ok.inj h)
  rwa [headState_uniform hu hhead] at hfound

/-- The proposer of a slot signs in its first interval, all others in its second. -/
theorem signed_slotDuty {timestampMs : UInt64} {interval : ℕ}
    (hu : Uniform config validators server.store)
    (h : (slotDuty host timestampMs slot interval : Op (Server host) ε (Duty H)) server =
      .ok (.ok duty, server')) (hw : w ∈ duty.signed host server') :
    w.2.slot = slot ∧
      (interval = 0 ∧ isProposer w.1.toNat slot.toNat validators.len = true ∨
        interval = 1 ∧ isProposer w.1.toNat slot.toNat validators.len = false) := by
  unfold slotDuty at h
  rw [Op.get_bind] at h
  obtain ⟨proposer, s₁, hproposer, h⟩ := Op.bind_eq_ok_ok.mp h
  obtain ⟨aggregates, s₂, htick, h⟩ := Op.bind_eq_ok_ok.mp h
  obtain ⟨_, s₃, hpublish, h⟩ := Op.bind_eq_ok_ok.mp h
  have hu₁ : Uniform config validators s₁.store := by
    have hkeep : Op.Keeps (Holds (Uniform config validators))
        (if interval = 0 ∧ 0 < slot then Op.lift (getOurProposer host server slot)
          else pure none : Op (Server host) ε (Option UInt64)) :=
      Op.Keeps.ite (fun _ ↦ Op.Keeps.lift _) fun _ ↦ Op.Keeps.pure _
    exact hkeep server _ s₁ hu hproposer
  have hu₂ := onStore_keeps holds_carries (onTick_keeps (uniform_steady host).ticking _ _ _) s₁ _ s₂
    hu₁ htick
  have hu₃ := publish_keeps holds_carries _ s₂ _ s₃ hu₂ hpublish
  cases proposer with
  | some validatorId =>
    obtain ⟨rfl, hslot⟩ := signed_proposeDuty h hw
    split at hproposer
    · rename_i hzero
      obtain ⟨hours, -⟩ := Op.lift_eq_ok_ok.mp hproposer
      exact ⟨hslot, .inl ⟨hzero.1, getOurProposer_eq_some hu hours⟩⟩
    · simp at hproposer
  | none =>
    dsimp only at h
    split at h
    · rename_i hone
      obtain ⟨hslot, hother⟩ := signed_attestDuty hu₃ h hw
      exact ⟨hslot, .inr ⟨hone, hother⟩⟩
    · obtain ⟨hduty, -⟩ := Prod.mk.inj (Except.ok.inj h)
      obtain rfl := Except.ok.inj hduty
      simp [Duty.signed] at hw

def genesisMs (config : ChainConfig) : ℕ := config.genesisTime.toNat * 1000

theorem signed_tickTime {d : Delivery H} (hu : Uniform config validators server.store)
    (h : w ∈ signed host server d) : ∃ t, tickTime d = some t ∧
      w.2.slot.toNat = (slotInterval (genesisMs config) t).1 ∧
      ((slotInterval (genesisMs config) t).2 = 0 ∧
          isProposer w.1.toNat w.2.slot.toNat validators.len = true ∨
        (slotInterval (genesisMs config) t).2 = 1 ∧
          isProposer w.1.toNat w.2.slot.toNat validators.len = false) := by
  obtain ⟨timestampMs, duty, server', hmessage, h, hw⟩ := mem_signed.mp h
  refine ⟨timestampMs.toNat, by simp [tickTime, hmessage], ?_⟩
  unfold tickDuty at h
  rw [Op.get_bind] at h
  obtain ⟨g, s₁, hg, h⟩ := Op.bind_eq_ok_ok.mp h
  obtain ⟨hg, rfl⟩ := Op.lift_eq_ok_ok.mp hg
  obtain ⟨-, rfl⟩ := Exec.checked_eq_ok.mp hg
  obtain ⟨headState, s₂, hhead, h⟩ := Op.bind_eq_ok_ok.mp h
  obtain ⟨-, rfl⟩ := Op.lift_eq_ok_ok.mp hhead
  split at h
  · simp at h
  · obtain ⟨duty', s₃, hduty, h⟩ := Op.bind_eq_ok_ok.mp h
    obtain ⟨heq, rfl⟩ := Prod.mk.inj (Except.ok.inj h)
    obtain rfl := Option.some.inj (Except.ok.inj heq)
    obtain ⟨hslot, hrole⟩ := signed_slotDuty hu hduty hw
    rw [← hslot] at hrole
    rw [hu.config_eq] at hslot hrole
    refine ⟨?_, hrole⟩
    rw [hslot]
    have hlt := timestampMs.toNat_lt
    refine UInt64.toNat_ofNat_of_lt' (lt_of_le_of_lt (Nat.div_le_self _ _) ?_)
    exact lt_of_le_of_lt (Nat.sub_le _ _) hlt

def ticks (ds : List (Delivery H)) : List ℕ := ds.filterMap tickTime

/-- Signatures of one validator for one slot by two ticks would be one as its proposer and one as
not its proposer. -/
theorem signed_agree {d d' : Delivery H} (hu : Uniform config validators server.store)
    (hu' : Uniform config validators server'.store)
    (hd : ∀ t, tickTime d = some t → ∀ t', tickTime d' = some t' →
      slotInterval (genesisMs config) t ≠ slotInterval (genesisMs config) t')
    (h : w ∈ signed host server d) (h' : w' ∈ signed host server' d') (hkey : w.1 = w'.1) :
    w.2.slot ≠ w'.2.slot := by
  intro hslot
  obtain ⟨t, ht, htime, hrole⟩ := signed_tickTime hu h
  obtain ⟨t', ht', htime', hrole'⟩ := signed_tickTime hu' h'
  have hne := hd t ht t' ht'
  rw [← hkey, ← hslot] at hrole'
  rw [← hslot] at htime'
  have hfirst := htime.symm.trans htime'
  rcases hrole with ⟨hz, hp⟩ | ⟨ho, hp⟩ <;> rcases hrole' with ⟨hz', hp'⟩ | ⟨ho', hp'⟩
  · exact hne (Prod.ext hfirst (hz.trans hz'.symm))
  · exact nomatch hp.symm.trans hp'
  · exact nomatch hp.symm.trans hp'
  · exact hne (Prod.ext hfirst (ho.trans ho'.symm))

/-- Two steps do not sign different votes with one key for one slot. -/
def Consistent (p p' : Server host × Delivery H) : Prop :=
  ∀ w ∈ signed host p.1 p.2, ∀ w' ∈ signed host p'.1 p'.2, w.1 = w'.1 → w.2.slot = w'.2.slot →
    w.2 = w'.2

instance : Std.Symm (@Consistent H _ _ host) where
  symm := fun _ _ h w hw w' hw' hkey hslot ↦ (h w' hw' w hw hkey.symm hslot.symm).symm

theorem uniform_step {d : Delivery H} (h : Uniform config validators server.store)
    (hs : step host server d = .ok server') : Uniform config validators server'.store :=
  step_keeps (uniform_steady host) h (fun _ _ hd ↦ hd.pruneOldData) hs

/-- No two ticks of a run fall into one interval and no key signs two votes for one slot, exactly if
no late tick falls into the interval of the next. -/
theorem one_signature_per_slot_iff {anchor : State H} {body : Option (BlockBody H)} {store : Store H}
    (h₀ : Store.initStore host anchor body = .ok store) (keys : Table UInt64 host.SecretKey)
    (isAggregator : Bool) (ds : List (Delivery H))
    (hticks : Scheduled (genesisMs anchor.config) (ticks ds)) :
    (((ticks ds).map (slotInterval (genesisMs anchor.config))).Nodup ∧
      ∀ vid data data',
        (vid, data) ∈ Runs.log (step host) (signed host) (spawn host store keys isAggregator) ds →
        (vid, data') ∈ Runs.log (step host) (signed host) (spawn host store keys isAggregator) ds →
        data.slot = data'.slot → data = data') ↔
      Spaced (genesisMs anchor.config) (ticks ds) := by
  refine ⟨fun h ↦ (nodup_slotInterval_iff hticks).mp h.1, fun hspaced ↦ ?_⟩
  have hnodup := (nodup_slotInterval_iff hticks).mpr hspaced
  refine ⟨hnodup, fun vid data data' h h' hslot ↦ ?_⟩
  obtain ⟨p, hp, hw⟩ := List.mem_flatMap.mp h
  obtain ⟨p', hp', hw'⟩ := List.mem_flatMap.mp h'
  have hstart : Uniform anchor.config anchor.validators (spawn host store keys isAggregator).store :=
    uniform_initStore h₀
  have huniform {q} (hq : q ∈ Runs.trace (step host) (spawn host store keys isAggregator) ds) :
      Uniform anchor.config anchor.validators q.1.store :=
    Runs.trace_invariant (P := fun server ↦ Uniform anchor.config anchor.validators server.store)
      (fun _ _ _ hi hs ↦ uniform_step hi hs) hstart hq
  have hapart : (Runs.trace (step host) (spawn host store keys isAggregator) ds).Pairwise fun q q' ↦
      ∀ t, tickTime q.2 = some t → ∀ t', tickTime q'.2 = some t' →
        slotInterval (genesisMs anchor.config) t ≠ slotInterval (genesisMs anchor.config) t' := by
    have hpair := List.pairwise_filterMap.mp (List.pairwise_map.mp hnodup)
    exact List.pairwise_map.mp (hpair.sublist Runs.inputs_prefix.sublist)
  have hconsistent : Consistent p p' := by
    refine List.Pairwise.forall_of_forall (fun q _ w hw w' hw' _ _ ↦ signed_unique hw hw') ?_ hp hp'
    refine hapart.imp_of_mem fun hq hq' hd w hw w' hw' hkey hs ↦ ?_
    exact absurd hs (signed_agree (huniform hq) (huniform hq') hd hw hw' hkey)
  exact hconsistent _ hw _ hw' rfl hslot

section Sample

def oddGenesis : State ℕ := genesisState sampleHash 1 ⟨sampleValidators, three_le_limit⟩

theorem oddStore_isSome :
    (Store.initStore sampleHost oddGenesis none).toOption.isSome = true := by decide +kernel

def oddStore : Store ℕ := (Store.initStore sampleHost oddGenesis none).toOption.get oddStore_isSome

theorem oddStore_eq : Store.initStore sampleHost oddGenesis none = .ok oddStore :=
  Exec.eq_ok_of_toOption (Option.some_get oddStore_isSome).symm

/-- A node for the first validator of a chain that starts one second after the epoch. -/
def oddServer : Server sampleHost :=
  spawn sampleHost oddStore (AList.singleton (0 : UInt64) (0 : UInt8)) false

/-- A tick, the first block, and a tick at the boundary that the first one asked for. -/
def twoTicks (late : UInt64) : List (Delivery ℕ) :=
  [⟨1, .tick (5600 + late)⟩, ⟨1, .newBlock sampleFirst⟩, ⟨1, .tick 6400⟩]

theorem one_signature_per_slot_iff_sample :
    Scheduled 1000 (ticks (twoTicks 0)) ∧ Spaced 1000 (ticks (twoTicks 0)) ∧
      ∀ vid data data', (vid, data) ∈ Runs.log (step sampleHost) (signed sampleHost) oddServer
          (twoTicks 0) →
        (vid, data') ∈ Runs.log (step sampleHost) (signed sampleHost) oddServer (twoTicks 0) →
        data.slot = data'.slot → data = data' := by
  have hticks : ticks (twoTicks 0) = [5600, 6400] := rfl
  have hsched : Scheduled 1000 (ticks (twoTicks 0)) := by
    rw [hticks]
    exact ⟨by simp, by simp [nextTick, millisecondsPerInterval]⟩
  have hspaced : Spaced 1000 (ticks (twoTicks 0)) := by
    rw [hticks]
    simp [Spaced, offset, millisecondsPerInterval]
  exact ⟨hsched, hspaced, ((one_signature_per_slot_iff oddStore_eq _ false (twoTicks 0) hsched).mpr
    hspaced).2⟩

/-- The first tick comes 250 ms late and falls into the interval of the second. The block between
them is the difference between the two votes. -/
theorem signs_twice :
    Store.initStore sampleHost oddGenesis none = .ok oddStore ∧
      Scheduled (genesisMs oddGenesis.config) (ticks (twoTicks 250)) ∧
      (∃ server, run sampleHost oddServer (twoTicks 250) = .ok server) ∧
      ¬((ticks (twoTicks 250)).map (slotInterval (genesisMs oddGenesis.config))).Nodup ∧
      ∃ vid data data',
        (vid, data) ∈ Runs.log (step sampleHost) (signed sampleHost) oddServer (twoTicks 250) ∧
        (vid, data') ∈ Runs.log (step sampleHost) (signed sampleHost) oddServer (twoTicks 250) ∧
        data.slot = data'.slot ∧ data ≠ data' := by
  have hticks : ticks (twoTicks 250) = [5850, 6400] := rfl
  have hgenesis : genesisMs oddGenesis.config = 1000 := rfl
  have hrun : (run sampleHost oddServer (twoTicks 250)).toOption.isSome = true := by decide +kernel
  obtain ⟨server, hserver⟩ := Option.isSome_iff_exists.mp hrun
  have hlog : (Runs.log (step sampleHost) (signed sampleHost) oddServer (twoTicks 250)).map
      (fun w ↦ (w.1, w.2.slot, w.2.head.slot)) = [(0, 1, 0), (0, 1, 1)] := by decide +kernel
  generalize Runs.log (step sampleHost) (signed sampleHost) oddServer (twoTicks 250) = l at hlog ⊢
  have hvote {x} (hx : x ∈ [((0 : UInt64), (1 : UInt64), (0 : UInt64)), (0, 1, 1)]) :
      ∃ w ∈ l, (w.1, w.2.slot, w.2.head.slot) = x := by
    rw [← hlog] at hx
    exact List.mem_map.mp hx
  obtain ⟨w, hw, h⟩ := hvote List.mem_cons_self
  obtain ⟨w', hw', h'⟩ := hvote (List.mem_cons_of_mem _ List.mem_cons_self)
  simp only [Prod.mk.injEq] at h h'
  refine ⟨oddStore_eq, ?_, ⟨server, Exec.eq_ok_of_toOption hserver⟩, ?_, w.1, w.2, w'.2, hw, ?_, ?_, ?_⟩
  · rw [hticks, hgenesis]
    exact ⟨by simp, by simp [nextTick, millisecondsPerInterval]⟩
  · rw [hticks, hgenesis]
    decide
  · rw [h.1, ← h'.1]
    exact hw'
  · rw [h.2.1, h'.2.1]
  · intro heq
    have hslot := h'.2.2
    rw [← heq, h.2.2] at hslot
    exact absurd hslot (by decide)

end Sample

end Server

end Ethlambda.Chain
