import Ethlambda.Chain.Backends
import Ethlambda.Chain.Tracking
import Ethlambda.StateTransition.Forks

namespace Ethlambda.Chain

open Ethlambda.Base Ethlambda.Types Ethlambda.Storage Ethlambda.StateTransition Ethlambda.ForkChoice

set_option linter.unusedSectionVars false

variable {H : Type} [LinearOrder H] [Zero H] {host : Host H} {s s' : Store H} {g : State H}
  {I : Store H → Prop}

/-- What every operation and the prune keep holds of the store after every run of a server. -/
theorem Server.run_keeps (hI : Steady host I) (hprune : ∀ {s}, I s → I (s.pruneOldData host))
    {ds : List (Server.Delivery H)} {server server' : Server host} (h : I server.store)
    (hrun : Server.run host server ds = .ok server') : I server'.store :=
  Runs.run_invariant (P := Server.Holds I)
    (fun _ _ _ hi hs ↦ Server.step_keeps hI hi (fun _ _ hd ↦ hprune hd) hs) h hrun

section States

/-- A state that a chain of accepted blocks leads to from `g`, under the root of its last block. -/
def OnChain (th : TreeHash H) (g : State H) (r : H) (st : State H) : Prop :=
  ∃ blocks u, runChain th g blocks = .ok u ∧ th.header (cachedHeader th u) = r ∧ st = settled th u

/-- A node starts from a state of the chain with any state root in its header. -/
def Anchored (th : TreeHash H) (g st : State H) : Prop :=
  ∃ blocks u root, runChain th g blocks = .ok u ∧ st = withStateRoot u root

/-- A genesis state, as the chains start from it. -/
structure Origin (th : TreeHash H) (n : ℕ) (g : State H) : Prop where
  wellformed : Wellformed th n g
  unsettled : Unsettled g
  zero : g.latestBlockHeader.slot.toNat = 0

theorem origin_genesis (th : TreeHash H) (time : UInt64)
    (vs : VariableList Validator validatorRegistryLimit) :
    Origin th vs.toList.length (genesisState th time vs) :=
  ⟨wellformed_genesis th time vs, rfl, rfl⟩

variable {n : ℕ}

/-- A block on top of a stored state goes on with the chain of the state. -/
theorem Origin.settled_transition {th : TreeHash H} (hth : th.CollisionFree) (hg : Origin th n g)
    {blocks : List (Block H)} {u st : State H} {block : Block H}
    (hu : runChain th g blocks = .ok u) (hs : stateTransition th (settled th u) block = .ok st) :
    stateTransition th u block = .ok st ∧ cachedHeader th st = block.header th ∧
      settled th st = withStateRoot st block.stateRoot := by
  have hw := hg.wellformed.runChain hth hu
  have hun := hg.wellformed.runChain_unsettled hth hg.unsettled hu
  rw [hun.stateTransition_settled] at hs
  obtain ⟨-, hcached⟩ := hw.transition_unsettled hth hs
  obtain ⟨-, -, -, hroot, -⟩ := hw.transition_header hth hs
  exact ⟨hs, hcached, by rw [settled, hroot]⟩

theorem Origin.transition {th : TreeHash H} (hth : th.CollisionFree) (hg : Origin th n g) {r : H}
    {parent st : State H} {block : Block H} (hparent : OnChain th g r parent)
    (hs : stateTransition th parent block = .ok st) :
    OnChain th g (th.header (block.header th)) (withStateRoot st block.stateRoot) := by
  obtain ⟨blocks, u, hu, -, rfl⟩ := hparent
  obtain ⟨hs, hcached, hsettled⟩ := hg.settled_transition hth hu hs
  refine ⟨blocks ++ [block], st, ?_, by rw [hcached], hsettled.symm⟩
  exact Runs.run_append_eq_ok.mpr ⟨u, hu, Runs.run_singleton.trans hs⟩

def StatesOnChain (host : Host H) (g : State H) (s : Store H) : Prop :=
  ∀ r st, s.states.lookup r = some st → OnChain host.toTreeHash g r st

theorem StatesOnChain.recordBlock (hh : HashSound host) (hg : Origin host.toTreeHash n g)
    (h : StatesOnChain host g s) {sb : SignedBlockWithAttestation H} {verify : Bool}
    {post : State H} (hpost : postState host s sb verify = .ok post) :
    StatesOnChain host g (recordBlock host sb post s) := by
  intro r st hst
  rw [lookup_recordBlock_states] at hst
  split at hst
  · rename_i hr
    obtain rfl := Option.some.inj hst
    obtain ⟨parent, st', hparent, -, htrans, rfl⟩ := postState_eq_ok hpost
    rw [hr, hh.block_eq]
    exact hg.transition hh.collisionFree (h _ parent hparent) htrans
  · exact h r st hst

theorem statesOnChain_invariant (hh : HashSound host) (hg : Origin host.toTreeHash n g) :
    TableInvariant host (StatesOnChain host g) where
  congr := by
    intro s s' h hs _ _ _ _ r st hst
    rw [hs] at hst
    exact h r st hst
  record := fun h hpost ↦ h.recordBlock hh hg hpost
  pending := fun _ h ↦ h

theorem StatesOnChain.pruneOldData (h : StatesOnChain host g s) :
    StatesOnChain host g (s.pruneOldData host) :=
  fun r st hst ↦ h r st (lookup_states_of_pruneOldData hst)

theorem statesOnChain_initStore (hh : HashSound host) (hg : Origin host.toTreeHash n g)
    {anchor : State H} (ha : Anchored host.toTreeHash g anchor) {body : Option (BlockBody H)}
    (h : Store.initStore host anchor body = .ok s) : StatesOnChain host g s := by
  obtain ⟨blocks, u, root, hu, rfl⟩ := ha
  have hun := hg.wellformed.runChain_unsettled hh.collisionFree hg.unsettled hu
  obtain ⟨-, rfl⟩ := Store.initStore_eq_ok.mp h
  intro r st hst
  obtain ⟨rfl, rfl⟩ := Table.lookup_singleton.mp hst
  have hsettled : (Store.anchor host (withStateRoot u root)).1 = settled host.toTreeHash u := by
    have hzero := hun.withStateRoot_zero
    change withStateRoot u (host.state (withStateRoot u 0)) = _
    rw [hzero]
    rfl
  refine ⟨blocks, u, hu, ?_, hsettled⟩
  change _ = host.header (Store.anchor host (withStateRoot u root)).1.latestBlockHeader
  rw [hsettled, hun.cachedHeader_eq]
  rfl

/-- A root has one state on the chains from `g`. -/
theorem OnChain.unique {th : TreeHash H} (hth : th.CollisionFree)
    (hbody : Function.Injective th.body) (hg : Origin th n g) {r : H} {st₁ st₂ : State H}
    (h₁ : OnChain th g r st₁) (h₂ : OnChain th g r st₂) : st₁ = st₂ := by
  obtain ⟨blocks₁, u₁, hu₁, hroot₁, rfl⟩ := h₁
  obtain ⟨blocks₂, u₂, hu₂, hroot₂, rfl⟩ := h₂
  obtain rfl := hg.wellformed.chain_unique hth hbody hg.zero hu₁ hu₂ (hroot₁.trans hroot₂.symm)
  rw [Except.ok.inj (hu₁.symm.trans hu₂)]

theorem HashSound.congr {host₁ host₂ : Host H} (h : HashSound host₁)
    (hhash : host₁.toTreeHash = host₂.toTreeHash) : HashSound host₂ := by
  refine ⟨hhash ▸ h.collisionFree, fun b ↦ ?_⟩
  have hblock := h.block_eq b
  rw [hhash] at hblock
  exact hblock

/-- A node somewhere in the network: the state it started from and everything that was delivered to
it since, in whatever order and from whomever. -/
structure Node (host : Host H) (g : State H) where
  anchor : State H
  anchored : Anchored host.toTreeHash g anchor
  body : Option (BlockBody H)
  start : Store H
  start_eq : Store.initStore host anchor body = .ok start
  keys : Table UInt64 host.SecretKey
  isAggregator : Bool
  deliveries : List (Server.Delivery H)
  server : Server host
  run_eq : Server.run host (Server.spawn host start keys isAggregator) deliveries = .ok server

theorem Node.onChain (hh : HashSound host) (hg : Origin host.toTreeHash n g) (node : Node host g) :
    StatesOnChain host g node.server.store :=
  Server.run_keeps (statesOnChain_invariant hh hg).steady StatesOnChain.pruneOldData
    (statesOnChain_initStore hh hg node.anchored node.start_eq) node.run_eq

/-- The nodes of one network never disagree on a state: what two of them keep under one root is the
same state, wherever each of them started and whatever it was sent. -/
theorem nodes_agree {host₁ host₂ : Host H} (hhash : host₁.toTreeHash = host₂.toTreeHash)
    (hh : HashSound host₁) (hbody : Function.Injective host₁.body) {time : UInt64}
    {validators : List Validator}
    (hg : State.fromGenesis host₁.toTreeHash time validators =
      (.ok g : StateTransition.Result H (State H)))
    (node₁ : Node host₁ g) (node₂ : Node host₂ g) {r : H} {st₁ st₂ : State H}
    (h₁ : node₁.server.store.states.lookup r = some st₁)
    (h₂ : node₂.server.store.states.lookup r = some st₂) : st₁ = st₂ := by
  obtain ⟨vs, -, rfl⟩ := State.fromGenesis_eq_ok hg
  have horigin := origin_genesis host₁.toTreeHash time vs
  have hon₂ := node₂.onChain (hh.congr hhash) (by rw [← hhash]; exact horigin) r st₂ h₂
  rw [← hhash] at hon₂
  exact (node₁.onChain hh horigin r st₁ h₁).unique hh.collisionFree hbody horigin hon₂

end States

section Sample

/-- The sample node on a machine whose hash maps run backwards. -/
abbrev mirroredHost : Host ℕ := enumerating distinctHost oldestFirst

def distinctNode {deliveries : List (Server.Delivery ℕ)} {server : Server distinctHost}
    (h : Server.run distinctHost distinctServer deliveries = .ok server) :
    Node distinctHost sampleGenesis :=
  ⟨sampleGenesis, ⟨[], sampleGenesis, 0, rfl, rfl⟩, none, sampleStore, distinctHost_initStore, ∅, false,
    deliveries, server, h⟩

def mirroredNode {deliveries : List (Server.Delivery ℕ)} {server : Server mirroredHost}
    (h : Server.run mirroredHost (Server.spawn mirroredHost sampleStore ∅ false) deliveries =
      .ok server) : Node mirroredHost sampleGenesis :=
  ⟨sampleGenesis, ⟨[], sampleGenesis, 0, rfl, rfl⟩, none, sampleStore, distinctHost_initStore, ∅, false,
    deliveries, server, h⟩

theorem mirroredHost_hash : distinctHost.toTreeHash = mirroredHost.toTreeHash := rfl

theorem distinctGenesis_eq : State.fromGenesis distinctHost.toTreeHash 0 sampleValidators =
    (.ok sampleGenesis : StateTransition.Result ℕ (State ℕ)) := rfl

/-- One node gets two blocks in order, the other one in reverse. -/
theorem nodes_agree_sample :
    ∃ (node₁ : Node distinctHost sampleGenesis) (node₂ : Node mirroredHost sampleGenesis)
      (st₁ st₂ : State ℕ),
      node₁.deliveries = [⟨1, .newBlock sampleFirst⟩, ⟨1, .newBlock sampleLate⟩] ∧
      node₂.deliveries = [⟨1, .newBlock sampleLate⟩, ⟨2, .newBlock sampleFirst⟩] ∧
      node₁.server.store.states.lookup (distinctHost.block sampleLate.message.block) = some st₁ ∧
      node₂.server.store.states.lookup (distinctHost.block sampleLate.message.block) = some st₂ ∧
      st₁ = st₂ := by
  have hview₁ : (Server.run distinctHost distinctServer
      [⟨1, .newBlock sampleFirst⟩, ⟨1, .newBlock sampleLate⟩]).toOption.map (fun server ↦
        (server.store.states.lookup (distinctHost.block sampleLate.message.block)).isSome) =
      some true := by decide +kernel
  have hview₂ : (Server.run mirroredHost (Server.spawn mirroredHost sampleStore ∅ false)
      [⟨1, .newBlock sampleLate⟩, ⟨2, .newBlock sampleFirst⟩]).toOption.map (fun server ↦
        (server.store.states.lookup (distinctHost.block sampleLate.message.block)).isSome) =
      some true := by decide +kernel
  obtain ⟨server₁, h₁, hsome₁⟩ := Exec.exists_ok_of_map hview₁
  obtain ⟨server₂, h₂, hsome₂⟩ := Exec.exists_ok_of_map hview₂
  obtain ⟨st₁, hst₁⟩ := Option.isSome_iff_exists.mp hsome₁
  obtain ⟨st₂, hst₂⟩ := Option.isSome_iff_exists.mp hsome₂
  exact ⟨distinctNode h₁, mirroredNode h₂, st₁, st₂, rfl, rfl, hst₁, hst₂,
    nodes_agree mirroredHost_hash distinctHost_hashSound bodyCode_injective distinctGenesis_eq
      (distinctNode h₁) (mirroredNode h₂) hst₁ hst₂⟩

end Sample

end Ethlambda.Chain
