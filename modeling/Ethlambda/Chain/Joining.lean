import Ethlambda.Chain.Agreement
import Ethlambda.Chain.CheckpointSync

namespace Ethlambda.Chain

open Ethlambda.Base Ethlambda.Types Ethlambda.Storage Ethlambda.StateTransition

set_option linter.unusedSectionVars false

variable {H : Type} [LinearOrder H] [Zero H] {Bytes : Type} {host host' : Host H} {s : Store H}
  {encode : State H → Bytes} {decode : Bytes → Option (State H)} {genesis : GenesisConfig}

/-- A node of one network. It started from genesis or from the finalized state that another node of
the network served, however that one had started, and has run since. -/
inductive Member (th : TreeHash H) (encode : State H → Bytes) (decode : Bytes → Option (State H))
    (genesis : GenesisConfig) : (host : Host H) → Server host → Prop
  | genesis {host : Host H} {s : Store H} {keys : Table UInt64 host.SecretKey} {isAggregator : Bool}
      {deliveries : List (Server.Delivery H)} {server : Server host} (hhash : host.toTreeHash = th)
      (hstart : fetchInitialState host decode none genesis = .ok s)
      (hrun : Server.run host (Server.spawn host s keys isAggregator) deliveries = .ok server) :
      Member th encode decode genesis host server
  | checkpoint {host host' : Host H} {peer : Server host'} {answer : Bytes} {s : Store H}
      {keys : Table UInt64 host.SecretKey} {isAggregator : Bool}
      {deliveries : List (Server.Delivery H)} {server : Server host} (hhash : host.toTreeHash = th)
      (hpeer : Member th encode decode genesis host' peer)
      (hanswer : getLatestFinalizedState encode peer.store = (.ok answer : Exec Empty Bytes))
      (hstart : fetchInitialState host decode (some answer) genesis = .ok s)
      (hrun : Server.run host (Server.spawn host s keys isAggregator) deliveries = .ok server) :
      Member th encode decode genesis host server

section Member

variable {th : TreeHash H} {g : State H} {n : ℕ} {server : Server host}

theorem getLatestFinalizedState_eq_ok {ε : Type} {answer : Bytes}
    (h : getLatestFinalizedState encode s = (.ok answer : Exec ε Bytes)) :
    ∃ st, s.states.lookup s.latestFinalized.root = some st ∧ answer = encode (withStateRoot st 0) := by
  obtain ⟨st, hst, heq⟩ := Exec.bind_eq_ok.mp h
  exact ⟨st, Exec.expect_eq_ok.mp hst, (Except.ok.inj heq).symm⟩

theorem fetchInitialState_some {answer : Bytes}
    (h : fetchInitialState host decode (some answer) genesis = .ok s) :
    ∃ st, decode answer = some st ∧ Store.initStore host st none = .ok s := by
  obtain ⟨st, hfetch, hinit⟩ := Exec.bind_eq_ok.mp h
  refine ⟨st, ?_, ?_⟩
  · unfold fetchCheckpointState at hfetch
    cases hdecode : decode answer with
    | none =>
      rw [hdecode] at hfetch
      cases hfetch
    | some st' =>
      rw [hdecode] at hfetch
      dsimp only at hfetch
      cases hverify : verifyCheckpointState host.toTreeHash st' genesis.genesisTime
          genesis.validators with
      | error e =>
        rw [hverify] at hfetch
        cases hfetch
      | ok u =>
        rw [hverify] at hfetch
        exact congrArg some (Except.ok.inj hfetch)
  · unfold Store.fromAnchorState at hinit
    cases hstore : Store.initStore host st none with
    | error p =>
      rw [hstore] at hinit
      cases hinit
    | ok s' =>
      rw [hstore] at hinit
      exact congrArg Except.ok (Except.ok.inj hinit)

theorem Member.hash (h : Member th encode decode genesis host server) : host.toTreeHash = th := by
  cases h with
  | genesis hhash => exact hhash
  | checkpoint hhash => exact hhash

/-- The state that a node serves is one of the chain again. -/
theorem OnChain.anchored {r : H} {st : State H} (h : OnChain th g r st) :
    Anchored th g (withStateRoot st 0) := by
  obtain ⟨blocks, u, hu, -, rfl⟩ := h
  exact ⟨blocks, u, 0, hu, rfl⟩

/-- A member is a node that started somewhere on the chain, however many others it came through. -/
theorem Member.node {host₀ : Host H} (hh : HashSound host₀) (hth : host₀.toTreeHash = th)
    (hssz : ∀ st, decode (encode st) = some st) (h : Member th encode decode genesis host server) :
    ∃ g, State.fromGenesis th genesis.genesisTime genesis.validators =
        (.ok g : StateTransition.Result H (State H)) ∧
      ∃ node : Node host g, node.server = server := by
  induction h with
  | @genesis host s keys isAggregator deliveries server hhash hstart hrun =>
    subst hhash
    obtain ⟨g, hg, hinit⟩ := fetchInitialState_none hstart
    obtain ⟨vs, -, rfl⟩ := State.fromGenesis_eq_ok hg
    have hanchored : Anchored host.toTreeHash (genesisState host.toTreeHash genesis.genesisTime vs)
        (genesisState host.toTreeHash genesis.genesisTime vs) := ⟨[], _, 0, rfl, rfl⟩
    exact ⟨_, hg, ⟨_, hanchored, none, s, hinit, keys, isAggregator, deliveries, server, hrun⟩, rfl⟩
  | @checkpoint host host' peer answer s keys isAggregator deliveries server hhash hpeer hanswer
      hstart hrun ih =>
    obtain ⟨g, hg, node, rfl⟩ := ih
    obtain ⟨st, hst, rfl⟩ := getLatestFinalizedState_eq_ok hanswer
    obtain ⟨st', hdecode, hinit⟩ := fetchInitialState_some hstart
    obtain rfl := Option.some.inj ((hssz _).symm.trans hdecode)
    -- what the peer keeps under its finalized root is a state of the chain, so it can be started from
    have hpeerhash := hpeer.hash
    obtain ⟨vs, -, rfl⟩ := State.fromGenesis_eq_ok hg
    have horigin : Origin host'.toTreeHash vs.toList.length (genesisState th genesis.genesisTime vs) := by
      rw [hpeerhash]
      exact origin_genesis th genesis.genesisTime vs
    have honchain := node.onChain (hh.congr (hth.trans hpeerhash.symm)) horigin _ st hst
    rw [hpeerhash] at honchain
    have hanchored : Anchored host.toTreeHash (genesisState th genesis.genesisTime vs)
        (withStateRoot st 0) := by
      rw [hhash]
      exact honchain.anchored
    exact ⟨_, hg, ⟨_, hanchored, none, s, hinit, keys, isAggregator, deliveries, server, hrun⟩, rfl⟩

/-- All nodes of a network keep the states that replaying the blocks from genesis gives, whether they
did so themselves or joined through any number of other nodes. So they agree on every state. -/
theorem members_agree {host₁ host₂ : Host H} {server₁ : Server host₁} {server₂ : Server host₂}
    (hh : HashSound host₁) (hbody : Function.Injective host₁.body)
    (hssz : ∀ st, decode (encode st) = some st)
    (h₁ : Member host₁.toTreeHash encode decode genesis host₁ server₁)
    (h₂ : Member host₁.toTreeHash encode decode genesis host₂ server₂) {r : H} {st₁ st₂ : State H}
    (hst₁ : server₁.store.states.lookup r = some st₁)
    (hst₂ : server₂.store.states.lookup r = some st₂) :
    st₁ = st₂ ∧ ∃ g blocks u,
      State.fromGenesis host₁.toTreeHash genesis.genesisTime genesis.validators =
        (.ok g : StateTransition.Result H (State H)) ∧
      runChain host₁.toTreeHash g blocks = .ok u ∧ st₁ = settled host₁.toTreeHash u ∧
      host₁.header (cachedHeader host₁.toTreeHash u) = r := by
  obtain ⟨g, hg, node₁, rfl⟩ := h₁.node hh rfl hssz
  obtain ⟨g', hg', node₂, rfl⟩ := h₂.node hh rfl hssz
  obtain rfl := Except.ok.inj (hg.symm.trans hg')
  obtain ⟨vs, -, rfl⟩ := State.fromGenesis_eq_ok hg
  have horigin := origin_genesis host₁.toTreeHash genesis.genesisTime vs
  have hhash : host₂.toTreeHash = host₁.toTreeHash := h₂.hash
  have honchain₁ := node₁.onChain hh horigin r st₁ hst₁
  have honchain₂ := node₂.onChain (hh.congr hhash.symm) (by rw [hhash]; exact horigin) r st₂ hst₂
  rw [hhash] at honchain₂
  refine ⟨honchain₁.unique hh.collisionFree hbody horigin honchain₂, ?_⟩
  obtain ⟨blocks, u, hu, hroot, hsettled⟩ := honchain₁
  exact ⟨_, blocks, u, hg, hu, hsettled, hroot⟩

end Member

section Sample

/-- Tells all bodies apart, and gives those of the sample chain small numbers. -/
def sampleBody (b : BlockBody ℕ) : ℕ :=
  if b = Sample.second.body then 1 else if b = Sample.third.body then 2
  else if b = .default then 0 else bodyCode b + 3

theorem sampleBody_injective : Function.Injective sampleBody := by
  intro b b' h
  have hcode (heq : bodyCode b = bodyCode b') : b = b' := bodyCode_injective heq
  unfold sampleBody at h
  generalize Sample.second.body = second at h
  generalize Sample.third.body = third at h
  grind

/-- The sample machine with such a hash of bodies. -/
def tellingHost : Host ℕ :=
  { sampleHost with
    body := sampleBody
    block := fun b ↦ 1 + Nat.pair b.parentRoot (Nat.pair b.stateRoot (Nat.pair (sampleBody b.body)
      (Nat.pair b.slot.toNat b.proposerIndex.toNat))) }

theorem tellingHost_hashSound : HashSound tellingHost where
  collisionFree := ⟨sampleHash_collisionFree.header_injective,
    sampleHash_collisionFree.header_ne_zero⟩
  block_eq := fun _ ↦ rfl

/-- One node sees the first block finalized, the other one joins through it. -/
theorem members_agree_sample :
    ∃ (server₁ : Server tellingHost) (server₂ : Server (enumerating tellingHost oldestFirst))
      (st₁ st₂ : State ℕ),
      Member tellingHost.toTreeHash id some sampleConfig tellingHost server₁ ∧
      Member tellingHost.toTreeHash id some sampleConfig _ server₂ ∧
      server₁.store.states.lookup (sampleHash.block Sample.second) = some st₁ ∧
      server₂.store.states.lookup (sampleHash.block Sample.second) = some st₂ ∧ st₁ = st₂ := by
  have hstart₁ : fetchInitialState tellingHost some none sampleConfig = .ok sampleStore := by
    show (Store.fromAnchorState tellingHost sampleGenesis).mapError Failure.panic = _
    unfold Store.fromAnchorState
    rw [show Store.initStore tellingHost sampleGenesis none = .ok sampleStore from sampleStore_eq]
    rfl
  have hview : ((Server.run tellingHost (Server.spawn tellingHost sampleStore ∅ false)
      [⟨1, .newBlock sampleFirst⟩, ⟨1, .newBlock sampleSecond⟩,
        ⟨1, .newBlock sampleThird⟩]).toOption.bind fun server₁ ↦
      (getLatestFinalizedState id server₁.store : Exec Empty (State ℕ)).toOption.bind fun answer ↦
      (fetchInitialState (enumerating tellingHost oldestFirst) some (some answer)
        sampleConfig).toOption.bind fun s ↦
      (Server.run (enumerating tellingHost oldestFirst) (Server.spawn _ s ∅ false)
        [⟨1, .newBlock sampleSecond⟩]).toOption.bind fun server₂ ↦
      (server₁.store.states.lookup (sampleHash.block Sample.second)).bind fun _ ↦
      server₂.store.states.lookup (sampleHash.block Sample.second)).isSome = true := by decide +kernel
  obtain ⟨st₂, hview⟩ := Option.isSome_iff_exists.mp hview
  simp only [Option.bind_eq_some_iff] at hview
  obtain ⟨server₁, hrun₁, answer, hanswer, s, hstart₂, server₂, hrun₂, st₁, hst₁, hst₂⟩ := hview
  have h₁ : Member tellingHost.toTreeHash id some sampleConfig tellingHost server₁ :=
    .genesis rfl hstart₁ (Exec.eq_ok_of_toOption hrun₁)
  have h₂ : Member tellingHost.toTreeHash id some sampleConfig _ server₂ :=
    .checkpoint rfl h₁ (Exec.eq_ok_of_toOption hanswer) (Exec.eq_ok_of_toOption hstart₂)
      (Exec.eq_ok_of_toOption hrun₂)
  exact ⟨server₁, server₂, st₁, st₂, h₁, h₂, hst₁, hst₂,
    (members_agree tellingHost_hashSound sampleBody_injective (fun _ ↦ rfl) h₁ h₂ hst₁ hst₂).1⟩

end Sample

end Ethlambda.Chain
