import Ethlambda.Chain.Redelivery

namespace Ethlambda.Chain

open Ethlambda.Base Ethlambda.Types Ethlambda.Storage Ethlambda.StateTransition

set_option linter.unusedSectionVars false

inductive CheckpointSyncError
  | http
  | sszDecode
  | slotIsZero
  | noValidators
  | genesisTimeMismatch (expected got : UInt64)
  | validatorCountMismatch (expected got : ℕ)
  | nonSequentialValidatorIndex (position : ℕ) (expected got : UInt64)
  | validatorPubkeyMismatch (index : ℕ)
  | finalizedExceedsStateSlot
  | justifiedPrecedesFinalized
  | justifiedFinalizedRootMismatch
  | blockHeaderSlotExceedsState
  | blockHeaderFinalizedRootMismatch
  | blockHeaderJustifiedRootMismatch
deriving DecidableEq

structure GenesisConfig where
  genesisTime : UInt64
  genesisValidators : List ValidatorPubkeyBytes

def GenesisConfig.validators (genesis : GenesisConfig) : List Validator :=
  genesis.genesisValidators.zipIdx.map fun p ↦ ⟨p.1, UInt64.ofNat p.2⟩

variable {H : Type} [LinearOrder H] [Zero H] {Bytes : Type}

def checkIndices (validators : List Validator) : Except CheckpointSyncError Unit :=
  match validators.zipIdx.find? fun p ↦ p.1.index != UInt64.ofNat p.2 with
  | some p => .error (.nonSequentialValidatorIndex p.2 (UInt64.ofNat p.2) p.1.index)
  | none => .ok ()

def checkPubkeys (validators expected : List Validator) : Except CheckpointSyncError Unit :=
  match (validators.zip expected).zipIdx.find? fun p ↦ p.1.1.pubkey != p.1.2.pubkey with
  | some p => .error (.validatorPubkeyMismatch p.2)
  | none => .ok ()

def checkSlots (th : TreeHash H) (state : State H) : Except CheckpointSyncError Unit :=
  if state.slot < state.latestFinalized.slot then
    .error .finalizedExceedsStateSlot
  else if state.latestJustified.slot < state.latestFinalized.slot then
    .error .justifiedPrecedesFinalized
  else if state.latestJustified.slot = state.latestFinalized.slot ∧
      state.latestJustified.root ≠ state.latestFinalized.root then
    .error .justifiedFinalizedRootMismatch
  else if state.slot < state.latestBlockHeader.slot then
    .error .blockHeaderSlotExceedsState
  else
    let blockRoot := th.header state.latestBlockHeader
    if state.latestBlockHeader.slot = state.latestFinalized.slot ∧
        blockRoot ≠ state.latestFinalized.root then
      .error .blockHeaderFinalizedRootMismatch
    else if state.latestBlockHeader.slot = state.latestJustified.slot ∧
        blockRoot ≠ state.latestJustified.root then
      .error .blockHeaderJustifiedRootMismatch
    else
      .ok ()

def verifyCheckpointState (th : TreeHash H) (state : State H) (expectedGenesisTime : UInt64)
    (expectedValidators : List Validator) : Except CheckpointSyncError Unit :=
  if state.slot = 0 then
    .error .slotIsZero
  else if state.validators.toList = [] then
    .error .noValidators
  else if state.config.genesisTime ≠ expectedGenesisTime then
    .error (.genesisTimeMismatch expectedGenesisTime state.config.genesisTime)
  else if state.validators.len ≠ expectedValidators.length then
    .error (.validatorCountMismatch expectedValidators.length state.validators.len)
  else do
    checkIndices state.validators.toList
    checkPubkeys state.validators.toList expectedValidators
    checkSlots th state

/-- What the handler of the finalized state answers. The header's own state root is left out. -/
def getLatestFinalizedState {ε : Type} (encode : State H → Bytes) (s : Store H) : Exec ε Bytes := do
  let state ← Exec.expect "finalized state exists" (s.getState s.latestFinalized.root)
  pure (encode { state with
    latestBlockHeader := { state.latestBlockHeader with stateRoot := 0 } })

def fetchCheckpointState (th : TreeHash H) (decode : Bytes → Option (State H)) (bytes : Bytes)
    (expectedGenesisTime : UInt64) (expectedValidators : List Validator) :
    Except CheckpointSyncError (State H) :=
  match decode bytes with
  | none => .error .sszDecode
  | some state => do
    verifyCheckpointState th state expectedGenesisTime expectedValidators
    pure state

/-- The store a node starts with, from genesis or from the answer of a checkpoint peer. -/
def fetchInitialState (host : Host H) (decode : Bytes → Option (State H)) (answer : Option Bytes)
    (genesis : GenesisConfig) : Exec CheckpointSyncError (Store H) :=
  match answer with
  | none => do
    let state ← State.fromGenesis host.toTreeHash genesis.genesisTime genesis.validators
    (Store.fromAnchorState host state).mapError .panic
  | some bytes => do
    let state ← (fetchCheckpointState host.toTreeHash decode bytes genesis.genesisTime
      genesis.validators).mapError .error
    (Store.fromAnchorState host state).mapError .panic

section Verified

/-- What a verified state is known to be. -/
structure Verified (th : TreeHash H) (state : State H) (time : UInt64) (expected : List Validator) :
    Prop where
  slot_ne_zero : state.slot ≠ 0
  validators_ne_nil : state.validators.toList ≠ []
  genesisTime_eq : state.config.genesisTime = time
  count_eq : state.validators.len = expected.length
  indices : ∀ p ∈ state.validators.toList.zipIdx, p.1.index = UInt64.ofNat p.2
  pubkeys : ∀ p ∈ state.validators.toList.zip expected, p.1.pubkey = p.2.pubkey
  finalized_le : state.latestFinalized.slot ≤ state.slot
  finalized_le_justified : state.latestFinalized.slot ≤ state.latestJustified.slot
  same_root : state.latestJustified.slot = state.latestFinalized.slot →
    state.latestJustified.root = state.latestFinalized.root
  header_le : state.latestBlockHeader.slot ≤ state.slot
  finalized_header : state.latestBlockHeader.slot = state.latestFinalized.slot →
    th.header state.latestBlockHeader = state.latestFinalized.root
  justified_header : state.latestBlockHeader.slot = state.latestJustified.slot →
    th.header state.latestBlockHeader = state.latestJustified.root

variable {th : TreeHash H} {state : State H} {time : UInt64} {expected : List Validator}

theorem checkIndices_eq_ok {validators : List Validator} : checkIndices validators = .ok () ↔
    ∀ p ∈ validators.zipIdx, p.1.index = UInt64.ofNat p.2 := by
  unfold checkIndices
  cases hfind : validators.zipIdx.find? fun p ↦ p.1.index != UInt64.ofNat p.2 with
  | none => simpa using hfind
  | some p =>
    have hp := List.find?_some hfind
    simp only [reduceCtorEq, false_iff]
    intro h
    simp [h p (List.mem_of_find?_eq_some hfind)] at hp

theorem checkPubkeys_eq_ok {validators : List Validator} :
    checkPubkeys validators expected = .ok () ↔
      ∀ p ∈ validators.zip expected, p.1.pubkey = p.2.pubkey := by
  unfold checkPubkeys
  cases hfind : (validators.zip expected).zipIdx.find? fun p ↦ p.1.1.pubkey != p.1.2.pubkey with
  | none =>
    simp only [true_iff]
    intro p hp
    obtain ⟨i, hi, rfl⟩ := List.getElem_of_mem hp
    have h := List.find?_eq_none.mp hfind (_, i) (List.mk_mem_zipIdx_iff_getElem?.mpr
      (List.getElem?_eq_getElem hi))
    simpa using h
  | some p =>
    have hp := List.find?_some hfind
    simp only [reduceCtorEq, false_iff]
    intro h
    simp [h p.1 (List.fst_mem_of_mem_zipIdx (List.mem_of_find?_eq_some hfind))] at hp

theorem checkSlots_eq_ok : checkSlots th state = .ok () ↔
    state.latestFinalized.slot ≤ state.slot ∧
    state.latestFinalized.slot ≤ state.latestJustified.slot ∧
    (state.latestJustified.slot = state.latestFinalized.slot →
      state.latestJustified.root = state.latestFinalized.root) ∧
    state.latestBlockHeader.slot ≤ state.slot ∧
    (state.latestBlockHeader.slot = state.latestFinalized.slot →
      th.header state.latestBlockHeader = state.latestFinalized.root) ∧
    (state.latestBlockHeader.slot = state.latestJustified.slot →
      th.header state.latestBlockHeader = state.latestJustified.root) := by
  unfold checkSlots
  simp only [← UInt64.not_lt]
  have hand {p q : Prop} : ¬(p ∧ ¬q) ↔ (p → q) := by rw [not_and, not_not]
  split
  · simp [*]
  split
  · simp [*]
  split
  · rename_i h
    simp [h.1, h.2]
  rename_i hsame
  split
  · simp [*]
  split
  · rename_i h
    simp [h.1, h.2]
  rename_i hfin
  split
  · rename_i h
    simp [h.1, h.2]
  rename_i hjust
  simp only [*, not_false_eq_true, true_and, true_iff]
  exact ⟨hand.mp hsame, hand.mp hfin, hand.mp hjust⟩

/-- The checks accept exactly the verified states. -/
theorem verifyCheckpointState_eq_ok :
    verifyCheckpointState th state time expected = .ok () ↔ Verified th state time expected := by
  unfold verifyCheckpointState
  split
  · rename_i hzero
    exact ⟨nofun, fun h ↦ absurd hzero h.slot_ne_zero⟩
  split
  · rename_i hnil
    exact ⟨nofun, fun h ↦ absurd hnil h.validators_ne_nil⟩
  split
  · rename_i htime
    exact ⟨nofun, fun h ↦ absurd h.genesisTime_eq htime⟩
  split
  · rename_i hcount
    exact ⟨nofun, fun h ↦ absurd h.count_eq hcount⟩
  rename_i hzero hnil htime hcount
  constructor
  · intro h
    cases hindices : checkIndices state.validators.toList with
    | error e => simp [hindices, bind, Except.bind] at h
    | ok u =>
      cases hpubkeys : checkPubkeys state.validators.toList expected with
      | error e => simp [hindices, hpubkeys, bind, Except.bind] at h
      | ok v =>
        rw [hindices, hpubkeys] at h
        obtain ⟨h₁, h₂, h₃, h₄, h₅, h₆⟩ := checkSlots_eq_ok.mp h
        exact ⟨hzero, hnil, not_not.mp htime, not_not.mp hcount, checkIndices_eq_ok.mp hindices,
          checkPubkeys_eq_ok.mp hpubkeys, h₁, h₂, h₃, h₄, h₅, h₆⟩
  · intro h
    rw [checkIndices_eq_ok.mpr h.indices, checkPubkeys_eq_ok.mpr h.pubkeys]
    exact checkSlots_eq_ok.mpr ⟨h.finalized_le, h.finalized_le_justified, h.same_root, h.header_le,
      h.finalized_header, h.justified_header⟩

end Verified

section Server

variable {host : Host H} {s : Store H}

/-- Only a chain with validators gets past genesis. -/
def Attended (s : Store H) : Prop :=
  ∀ r st, s.states.lookup r = some st → st.slot ≠ 0 → st.validators.toList ≠ []

theorem attended_invariant (host : Host H) : TableInvariant host Attended where
  congr := by
    intro s s' h hs _ _ _ _ r st hst
    rw [hs] at hst
    exact h r st hst
  record := by
    intro s sb verify post h hpost r st hst
    rw [lookup_recordBlock_states] at hst
    split at hst
    · obtain rfl := Option.some.inj hst
      obtain ⟨parent, st', hparent, -, htrans, rfl⟩ := postState_eq_ok hpost
      obtain ⟨st₁, st₂, h₁, h₂, -⟩ := stateTransition_eq_ok htrans
      obtain ⟨-, -, hpos, -⟩ := processBlockHeader_eq_ok h₂
      obtain ⟨-, rfl⟩ := processSlots_eq_ok.mp h₁
      obtain ⟨-, hvals⟩ := stateTransition_fixed htrans
      intro _ hnil
      have hnil' : parent.validators.toList = [] := by rw [← hvals]; exact hnil
      have hlen : parent.validators.len = 0 := by rw [VariableList.len, hnil']; rfl
      exact absurd hlen (Nat.pos_iff_ne_zero.mp hpos)
    · exact h r st hst
  pending := fun sb h ↦ h

theorem Attended.pruneOldData (h : Attended s) : Attended (s.pruneOldData host) :=
  fun r st hst ↦ h r st (lookup_states_of_pruneOldData hst)

theorem attended_genesis {time : UInt64} {vs : VariableList Validator validatorRegistryLimit}
    {body : Option (BlockBody H)}
    (h : Store.initStore host (genesisState host.toTreeHash time vs) body = .ok s) : Attended s := by
  obtain ⟨-, rfl⟩ := Store.initStore_eq_ok.mp h
  intro r st hst hslot
  obtain ⟨-, rfl⟩ := Table.lookup_singleton.mp hst
  exact absurd rfl hslot

theorem GenesisConfig.index_eq {genesis : GenesisConfig} :
    ∀ p ∈ genesis.validators.zipIdx, p.1.index = UInt64.ofNat p.2 := by
  rintro ⟨v, i⟩ hp
  have hget := List.mk_mem_zipIdx_iff_getElem?.mp hp
  unfold GenesisConfig.validators at hget
  rw [List.getElem?_map, List.getElem?_zipIdx] at hget
  cases hpub : genesis.genesisValidators[i]? with
  | none => simp [hpub] at hget
  | some pubkey =>
    rw [hpub] at hget
    rw [← Option.some.inj hget]
    simp

/-- A state that belongs under its own root, with its own checkpoints below it, passes for one of
its chain. -/
theorem Stored.verified {r : H} {st : State H} (genesis : GenesisConfig)
    (h : Stored host r st) (hslot : st.slot ≠ 0) (hnil : st.validators.toList ≠ [])
    (htime : st.config.genesisTime = genesis.genesisTime)
    (hvals : st.validators.toList = genesis.validators) :
    Verified host.toTreeHash (withStateRoot st 0) genesis.genesisTime genesis.validators := by
  have hal := h.wellformed.aligned
  have hpos : 0 < st.latestBlockHeader.slot.toNat := by
    rw [← h.wellformed.slot_eq]
    exact Nat.pos_iff_ne_zero.mpr fun hz ↦ hslot (UInt64.toNat_inj.mp hz)
  have hfin := hal.finalized_le
  have hjust := hal.justified_le
  constructor
  case slot_ne_zero => exact hslot
  case validators_ne_nil => exact hnil
  case genesisTime_eq => exact htime
  case count_eq => exact congrArg List.length hvals
  case indices =>
    rw [show (withStateRoot st 0).validators.toList = genesis.validators from hvals]
    exact GenesisConfig.index_eq
  case pubkeys =>
    rw [show (withStateRoot st 0).validators.toList = genesis.validators from hvals]
    intro p hp
    obtain ⟨i, hi, rfl⟩ := List.getElem_of_mem hp
    simp
  case finalized_le =>
    rw [UInt64.le_iff_toNat_le]
    show st.latestFinalized.slot.toNat ≤ st.slot.toNat
    rw [h.wellformed.slot_eq]
    omega
  case finalized_le_justified => exact UInt64.le_iff_toNat_le.mpr hal.finalized_le_justified
  case same_root =>
    intro heq
    have hf := hal.finalized_root hpos
    have hj := hal.justified_root hpos
    rw [show st.latestJustified.slot = st.latestFinalized.slot from heq, hf] at hj
    exact (Option.some.inj hj).symm
  case header_le => exact UInt64.le_iff_toNat_le.mpr (le_of_eq (congrArg _ h.wellformed.slot_eq.symm))
  case finalized_header =>
    intro heq
    have := congrArg UInt64.toNat (show st.latestBlockHeader.slot = st.latestFinalized.slot from heq)
    omega
  case justified_header =>
    intro heq
    have := congrArg UInt64.toNat (show st.latestBlockHeader.slot = st.latestJustified.slot from heq)
    omega

/-- The anchor of a state without its state root is the state it was cut out of. -/
theorem Keyed.fromAnchorState {r : H} {st : State H} (h : Keyed host s r st) :
    ∃ b, Store.fromAnchorState host (withStateRoot st 0) = .ok b ∧ b.head = r ∧ b.safeTarget = r ∧
      b.latestJustified.root = r ∧ b.latestFinalized.root = r := by
  have hroot : (Store.anchor host (withStateRoot st 0)).2 = r := by
    rw [← h.root_eq]
    exact congrArg (fun root ↦ host.header { st.latestBlockHeader with stateRoot := root })
      h.stateRoot_eq.symm
  exact ⟨_, Store.initStore_eq_ok.mpr ⟨.inl rfl, rfl⟩, hroot, hroot, hroot, hroot⟩

theorem fetchInitialState_none {decode : Bytes → Option (State H)} {genesis : GenesisConfig}
    (h : fetchInitialState host decode none genesis = .ok s) :
    ∃ g, (State.fromGenesis host.toTreeHash genesis.genesisTime genesis.validators :
        StateTransition.Result H (State H)) = .ok g ∧ Store.initStore host g none = .ok s := by
  unfold fetchInitialState at h
  obtain ⟨g, hg, h⟩ := Exec.bind_eq_ok.mp h
  obtain ⟨vs, hvs, rfl⟩ := State.fromGenesis_eq_ok hg
  refine ⟨genesisState host.toTreeHash genesis.genesisTime vs, ?_, ?_⟩
  · unfold State.fromGenesis
    rw [VariableList.new_eq_some.mpr hvs]
    rfl
  · unfold Store.fromAnchorState at h
    cases hinit : Store.initStore host (genesisState host.toTreeHash genesis.genesisTime vs) none with
    | error p => exact nomatch hinit ▸ h
    | ok s' =>
      rw [hinit] at h
      exact congrArg Except.ok (Except.ok.inj h)

/-- A node that starts from the finalized state of another, as that one serves it, accepts the state
and starts at the finalized block. -/
theorem checkpoint_sync_round_trip (hh : HashSound host) (encode : State H → Bytes)
    (decode : Bytes → Option (State H)) (hssz : ∀ st, decode (encode st) = some st)
    {genesis : GenesisConfig} {s₀ : Store H} {calls : List (Call H)} {st : State H}
    (h₀ : fetchInitialState host decode none genesis = .ok s₀)
    (hrun : Call.run host s₀ calls = .ok s) (hpos : 0 < s.latestFinalized.slot)
    (hst : s.states.lookup s.latestFinalized.root = some st) :
    ∃ bytes b, (getLatestFinalizedState encode s : Exec Empty Bytes) = .ok bytes ∧
      decode bytes = some (withStateRoot st 0) ∧
      verifyCheckpointState host.toTreeHash (withStateRoot st 0) genesis.genesisTime
        genesis.validators = .ok () ∧
      Store.fromAnchorState host (withStateRoot st 0) = .ok b ∧
      fetchInitialState host decode (some bytes) genesis = .ok b ∧
      b.head = s.latestFinalized.root ∧ b.safeTarget = s.latestFinalized.root ∧
      b.latestJustified.root = s.latestFinalized.root ∧
      b.latestFinalized.root = s.latestFinalized.root := by
  obtain ⟨g, hg, hinit⟩ := fetchInitialState_none h₀
  have hwell := Call.run_keeps (wellKeyed_invariant hh).steady WellKeyed.pruneOldData
    (wellKeyed_initStore hh (anchor_genesis hg) hinit) hrun
  have huniform := Call.run_keeps (uniform_steady host) Uniform.pruneOldData
    (uniform_initStore hinit) hrun
  obtain ⟨vs, hvs, rfl⟩ := State.fromGenesis_eq_ok hg
  have hattended := Call.run_keeps (attended_invariant host).steady Attended.pruneOldData
    (attended_genesis hinit) hrun
  obtain ⟨hconfig, hvals⟩ := huniform.states _ st hst
  have hstored := hwell.tree.states _ st hst
  have hslot : st.slot ≠ 0 := by
    obtain ⟨p, hp⟩ := hwell.tree.finalized
    obtain ⟨st', hst', hslot', -⟩ := hwell.tree.live _ _ p hp
    rw [(hstored.unique hh hst').1, hslot']
    intro hz
    rw [hz] at hpos
    exact absurd hpos (by decide)
  have hverified := hstored.verified genesis hslot (hattended _ st hst hslot)
    (by rw [hconfig]; rfl) (by rw [hvals, ← hvs]; rfl)
  have hverify := verifyCheckpointState_eq_ok.mpr hverified
  obtain ⟨b, hb, hroots⟩ := (hwell.keyed _ st hst).fromAnchorState
  refine ⟨encode (withStateRoot st 0), b, ?_, hssz _, hverify, hb, ?_, hroots⟩
  · unfold getLatestFinalizedState Store.getState
    rw [hst]
    rfl
  · unfold fetchInitialState fetchCheckpointState
    dsimp only
    rw [hssz]
    dsimp only
    rw [hverify]
    show (Store.fromAnchorState host (withStateRoot st 0)).mapError Failure.panic = _
    rw [hb]
    rfl

/-- The checks leave the lengths of a state's lists open. With these in order every block is
processed or rejected; a history that is too long or too short for the latest block, or a short row
that can be voted for, makes some block panic. -/
theorem checkpoint_state_extendable {st : State H} {time : UInt64} {expected : List Validator}
    {body : Option (BlockBody H)}
    (hverify : verifyCheckpointState host.toTreeHash st time expected = .ok ())
    (_ : Store.initStore host st body = .ok s) :
    (Extendable host.toTreeHash st →
      ∀ block, Exec.NoPanic (stateTransition host.toTreeHash st block)) ∧
    ((∀ block, Exec.NoPanic (stateTransition host.toTreeHash st block)) →
      (st.slot.toNat + 1 < 2 ^ 64 →
        st.historicalBlockHashes.len ≤ st.latestBlockHeader.slot.toNat) ∧
      (Fits st → st.latestBlockHeader.slot.toNat ≤
          st.latestFinalized.slot.toNat + st.historicalBlockHashes.len + 1 ∨
        2 ^ 64 ≤ st.latestFinalized.slot.toNat + historicalRootsLimit + 2) ∧
      (Fits st → 0 ∉ st.justificationsRoots.toList → ∀ r, Votable host.toTreeHash st r →
        ∀ row, (loadJustifications st).lookup r = some row → row.length = st.validators.len)) := by
  have hv := verifyCheckpointState_eq_ok.mp hverify
  have hattended : 0 < st.validators.len := List.length_pos_iff.mpr hv.validators_ne_nil
  refine ⟨fun h block ↦ h.stateTransition_noPanic hv.header_le hv.finalized_le block, fun h ↦ ?_⟩
  exact ⟨history_le_of_noPanic hattended hv.header_le h,
    window_fits_of_noPanic hattended hv.header_le h,
    fun hfits hzero r hr row hrow ↦
      rows_full_of_noPanic hattended hv.header_le hv.finalized_le h hfits hzero hr hrow⟩

end Server

section Sample

def sampleConfig : GenesisConfig := ⟨0, sampleValidators.map Validator.pubkey⟩

def finalizingCalls : List (Call ℕ) :=
  [.onBlock sampleFirst [], .onBlock sampleSecond [], .onBlock sampleThird []]

theorem checkpoint_sync_round_trip_sample :
    ∃ s st b, Call.run sampleHost sampleStore finalizingCalls = .ok s ∧
      s.latestFinalized = ⟨sampleHash.block Sample.first, 1⟩ ∧
      s.states.lookup s.latestFinalized.root = some st ∧
      fetchInitialState sampleHost some (some (withStateRoot st 0)) sampleConfig = .ok b ∧
      b.head = s.latestFinalized.root := by
  have h₀ : fetchInitialState sampleHost some none sampleConfig = .ok sampleStore := by
    show (Store.fromAnchorState sampleHost sampleGenesis).mapError Failure.panic = _
    unfold Store.fromAnchorState
    rw [sampleStore_eq]
    rfl
  have hview : (Call.run sampleHost sampleStore finalizingCalls).toOption.map (fun s ↦
      decide (s.latestFinalized = ⟨sampleHash.block Sample.first, 1⟩ ∧
        (s.states.lookup s.latestFinalized.root).isSome = true)) = some true := by decide +kernel
  obtain ⟨s, hs, h⟩ := Exec.exists_ok_of_map hview
  obtain ⟨hfin, hsome⟩ := of_decide_eq_true h
  obtain ⟨st, hst⟩ := Option.isSome_iff_exists.mp hsome
  have hpos : 0 < s.latestFinalized.slot := by
    rw [hfin]
    decide
  obtain ⟨bytes, b, -, hbytes, -, -, hb, hhead, -⟩ := checkpoint_sync_round_trip sampleHost_hashSound
    id some (fun _ ↦ rfl) h₀ hs hpos hst
  obtain rfl := Option.some.inj hbytes
  exact ⟨s, st, b, hs, hfin, hst, hb, hhead⟩

/-- A state of the three sample validators without votes. -/
def craftedState (slot : UInt64) (history : VariableList ℕ historicalRootsLimit) : State ℕ where
  config := ⟨0⟩
  slot := slot
  latestBlockHeader := ⟨slot, 0, 0, 0, 0⟩
  latestJustified := ⟨1, 0⟩
  latestFinalized := ⟨1, 0⟩
  historicalBlockHashes := history
  justifiedSlots := .empty
  validators := ⟨sampleValidators, three_le_limit⟩
  justificationsRoots := .empty
  justificationsValidators := .empty

theorem checkpoint_state_extendable_sample :
    verifyCheckpointState sampleHash (craftedState 1 ⟨[1], by decide⟩) 0 sampleValidators = .ok () ∧
      ∀ block, Exec.NoPanic (stateTransition sampleHash (craftedState 1 ⟨[1], by decide⟩) block) := by
  have hverify : verifyCheckpointState sampleHash (craftedState 1 ⟨[1], by decide⟩) 0
      sampleValidators = .ok () := by decide +kernel
  have hinit : (Store.initStore sampleHost (craftedState 1 ⟨[1], by decide⟩) none).toOption.isSome =
      true := by decide +kernel
  obtain ⟨b, hb⟩ := Option.isSome_iff_exists.mp hinit
  refine ⟨hverify, (checkpoint_state_extendable hverify (Exec.eq_ok_of_toOption hb)).1 ?_⟩
  exact ⟨fun _ ↦ by decide, fun _ ↦ .inl (by decide), fun _ _ r _ row hrow ↦ (nomatch hrow),
    fun _ _ ↦ by decide +kernel⟩

/-- A state that claims a block far up and has no history. The checks accept it, and the window does
not reach from its finalized slot to the next block. -/
theorem accepted_state_panics :
    verifyCheckpointState sampleHash (craftedState 300000 .empty) 0 sampleValidators = .ok () ∧
      (∃ b, Store.initStore sampleHost (craftedState 300000 .empty) none = .ok b) ∧
      ¬Exec.NoPanic (stateTransition sampleHash (craftedState 300000 .empty)
        (nextBlock sampleHash (craftedState 300000 .empty) 300001 .default)) := by
  have hinit : (Store.initStore sampleHost (craftedState 300000 .empty) none).toOption.isSome =
      true := by decide +kernel
  obtain ⟨b, hb⟩ := Option.isSome_iff_exists.mp hinit
  refine ⟨by decide +kernel, ⟨b, Exec.eq_ok_of_toOption hb⟩, fun h ↦ ?_⟩
  have hfits := (header_fits_of_noPanic (by decide) (by decide) h (by decide)).2 (by decide)
  exact absurd hfits (by decide)

end Sample

end Ethlambda.Chain
