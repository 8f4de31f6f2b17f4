import Ethlambda.Chain.Agreement
import Ethlambda.Chain.Grounded

namespace Ethlambda.Chain

open Ethlambda.Base Ethlambda.Types Ethlambda.Storage Ethlambda.StateTransition

set_option linter.unusedSectionVars false

variable {H : Type} [LinearOrder H] [Zero H] {host : Host H} {g : State H} {start s s' : Store H}
  {imports : List (SignedBlockWithAttestation H)} {D : SignedBlockWithAttestation H → Prop}
  {sb : SignedBlockWithAttestation H} {post : State H} {n : ℕ}

/-- The signed blocks that came into a store, in their order. Each of them was new, its signatures and
its transition passed on the state that the store held for its parent, and it was recorded. In between
states may go, while the checkpoints stay. -/
inductive Imports (host : Host H) (start : Store H) :
    List (SignedBlockWithAttestation H) → Store H → Prop
  | start : Imports host start [] start
  | record {imports : List (SignedBlockWithAttestation H)} {s : Store H}
      {sb : SignedBlockWithAttestation H} {post : State H} (h : Imports host start imports s)
      (hnew : s.states.lookup (host.block sb.message.block) = none)
      (hpost : postState host s sb true = .ok post) :
      Imports host start (imports ++ [sb]) (recordBlock host sb post s)
  | other {imports : List (SignedBlockWithAttestation H)} {s s' : Store H}
      (h : Imports host start imports s)
      (hstates : ∀ r st, s'.states.lookup r = some st → s.states.lookup r = some st)
      (hjustified : s'.latestJustified = s.latestJustified)
      (hfinalized : s'.latestFinalized = s.latestFinalized) : Imports host start imports s'

/-- A chain of blocks whose signatures hold for the keys that the state of the parent registers. -/
inductive SignedChain (host : Host H) (g : State H) :
    List (SignedBlockWithAttestation H) → State H → Prop
  | genesis : SignedChain host g [] g
  | block {chain : List (SignedBlockWithAttestation H)} {u st : State H}
      {sb : SignedBlockWithAttestation H} (h : SignedChain host g chain u)
      (hverify : verifySignatures host (settled host.toTreeHash u) sb = .ok ())
      (hst : stateTransition host.toTreeHash u sb.message.block = .ok st) :
      SignedChain host g (chain ++ [sb]) st

def blocksOf (chain : List (SignedBlockWithAttestation H)) : List (Block H) :=
  chain.map fun sb ↦ sb.message.block

theorem SignedChain.runChain {chain : List (SignedBlockWithAttestation H)} {u : State H}
    (h : SignedChain host g chain u) :
    StateTransition.runChain host.toTreeHash g (blocksOf chain) = .ok u := by
  induction h with
  | genesis => rfl
  | block h hverify hst ih =>
    rw [blocksOf, List.map_append, ← blocksOf]
    exact Runs.run_append_eq_ok.mpr ⟨_, ih, Runs.run_singleton.trans hst⟩

section Sources

/-- A chain of imported blocks leads to the state. -/
def Traced (host : Host H) (g : State H) (imports : List (SignedBlockWithAttestation H)) (r : H)
    (st : State H) : Prop :=
  ∃ chain u, SignedChain host g chain u ∧ chain ⊆ imports ∧
    host.header (cachedHeader host.toTreeHash u) = r ∧ st = settled host.toTreeHash u

/-- The checkpoint is the genesis block, or a chain of imported blocks justified or finalized it. -/
def Earned (host : Host H) (g : State H) (imports : List (SignedBlockWithAttestation H))
    (c : Checkpoint H) : Prop :=
  c = ⟨host.header (cachedHeader host.toTreeHash g), 0⟩ ∨
    ∃ chain u, SignedChain host g chain u ∧ chain ⊆ imports ∧ Settles u c ∧ c.slot.toNat ≠ 0

/-- What a store holds comes from the blocks it imported. -/
structure Sourced (host : Host H) (g : State H) (imports : List (SignedBlockWithAttestation H))
    (s : Store H) : Prop where
  states : ∀ r st, s.states.lookup r = some st → Traced host g imports r st
  justified : Earned host g imports s.latestJustified
  finalized : Earned host g imports s.latestFinalized

theorem Traced.mono {r : H} {st : State H} (h : Traced host g imports r st)
    (more : List (SignedBlockWithAttestation H)) : Traced host g (imports ++ more) r st := by
  obtain ⟨chain, u, hchain, hsub, hroot, hst⟩ := h
  exact ⟨chain, u, hchain, List.subset_append_of_subset_left more hsub, hroot, hst⟩

theorem Earned.mono {c : Checkpoint H} (h : Earned host g imports c)
    (more : List (SignedBlockWithAttestation H)) : Earned host g (imports ++ more) c := by
  refine h.imp_right fun hc ↦ ?_
  obtain ⟨chain, u, hchain, hsub, hsettles⟩ := hc
  exact ⟨chain, u, hchain, List.subset_append_of_subset_left more hsub, hsettles⟩

theorem Traced.earned_of_higher {r : H} {old c : Checkpoint H} (h : Traced host g imports r post)
    (hc : Settles post c) (hlt : old.slot < c.slot) : Earned host g imports c := by
  obtain ⟨chain, u, hchain, hsub, -, rfl⟩ := h
  have hpos : 0 < c.slot.toNat := Nat.zero_lt_of_lt (UInt64.lt_iff_toNat_lt.mp hlt)
  exact .inr ⟨chain, u, hchain, hsub, hc, hpos.ne'⟩

theorem writeBlock_finalized :
    (writeBlock host sb post s).latestFinalized = s.latestFinalized := rfl

theorem Sourced.traced_post (hh : HashSound host) (hg : Origin host.toTreeHash n g)
    (h : Sourced host g imports s) (hpost : postState host s sb true = .ok post) :
    Traced host g (imports ++ [sb]) (host.block sb.message.block) post := by
  obtain ⟨parent, st, hparent, hverify, hst, rfl⟩ := postState_eq_ok hpost
  obtain ⟨chain, u, hchain, hsub, -, rfl⟩ := h.states _ parent hparent
  obtain ⟨hs, hcached, hsettled⟩ := hg.settled_transition hh.collisionFree hchain.runChain hst
  refine ⟨chain ++ [sb], st, hchain.block (hverify rfl) hs, ?_, ?_, hsettled.symm⟩
  · exact List.append_subset.mpr ⟨List.subset_append_of_subset_left _ hsub,
      List.subset_append_right _ _⟩
  · rw [hcached, hh.block_eq]

/-- One more block. -/
theorem Sourced.record (hh : HashSound host) (hg : Origin host.toTreeHash n g)
    (h : Sourced host g imports s) (hpost : postState host s sb true = .ok post) :
    Sourced host g (imports ++ [sb]) (recordBlock host sb post s) := by
  have hnew := h.traced_post hh hg hpost
  constructor
  case states =>
    intro r st hst
    rw [lookup_recordBlock_states] at hst
    split at hst
    · rename_i hr
      rw [hr, ← Option.some.inj hst]
      exact hnew
    · exact (h.states r st hst).mono [sb]
  case justified =>
    rw [recordBlock, writeBlock_justified, (adopted host s post).justified]
    split
    · rename_i hlt
      exact hnew.earned_of_higher (.inl rfl) hlt
    · exact h.justified.mono [sb]
  case finalized =>
    rw [recordBlock, writeBlock_finalized, (adopted host s post).finalized]
    split
    · rename_i hlt
      exact hnew.earned_of_higher (.inr rfl) hlt
    · exact h.finalized.mono [sb]

theorem sourced_initStore (hg : Origin host.toTreeHash n g)
    {body : Option (BlockBody H)} (h : Store.initStore host g body = .ok s) :
    Sourced host g [] s := by
  have hzero := hg.unsettled.withStateRoot_zero
  have hanchor : Store.anchor host g =
      (settled host.toTreeHash g, host.header (cachedHeader host.toTreeHash g)) := by
    rw [hg.unsettled.cachedHeader_eq]
    change (withStateRoot g (host.state (withStateRoot g 0)),
      host.header { g.latestBlockHeader with stateRoot := host.state (withStateRoot g 0) }) = _
    rw [hzero]
    rfl
  have hslot : g.latestBlockHeader.slot = 0 := UInt64.toNat_inj.mp hg.zero
  obtain ⟨-, rfl⟩ := Store.initStore_eq_ok.mp h
  have hearned : Earned host g [] ⟨(Store.anchor host g).2, g.latestBlockHeader.slot⟩ := by
    rw [hanchor, hslot]
    exact .inl rfl
  refine ⟨fun r st hst ↦ ?_, hearned, hearned⟩
  obtain ⟨rfl, rfl⟩ := Table.lookup_singleton.mp hst
  rw [hanchor]
  exact ⟨[], g, .genesis, List.Subset.refl [], rfl, rfl⟩

/-- However the blocks came in, the store holds nothing that they do not account for. -/
theorem Imports.sourced (hh : HashSound host) (hg : Origin host.toTreeHash n g)
    (hstart : Sourced host g [] start) (h : Imports host start imports s) :
    Sourced host g imports s := by
  induction h with
  | start => exact hstart
  | record _ _ hpost ih => exact ih.record hh hg hpost
  | other _ hstates hjustified hfinalized ih =>
    refine ⟨fun r st hst ↦ ih.states r st (hstates r st hst), ?_, ?_⟩
    · rw [hjustified]
      exact ih.justified
    · rw [hfinalized]
      exact ih.finalized

end Sources

section Feeding

/-- The store imported blocks of the kind `D` only, and holds no others. -/
structure Fed (host : Host H) (D : SignedBlockWithAttestation H → Prop) (start s : Store H) :
    Prop where
  imports : ∃ imports, Imports host start imports s ∧ ∀ sb ∈ imports, D sb
  loaded : ∀ r x, s.getSignedBlock host r = some x → D x

theorem Fed.other (h : Fed host D start s)
    (hstates : ∀ r st, s'.states.lookup r = some st → s.states.lookup r = some st)
    (hjustified : s'.latestJustified = s.latestJustified)
    (hfinalized : s'.latestFinalized = s.latestFinalized)
    (hloaded : ∀ r x, s'.getSignedBlock host r = some x → D x) : Fed host D start s' := by
  obtain ⟨imports, himports, hkind⟩ := h.imports
  exact ⟨⟨imports, himports.other hstates hjustified hfinalized, hkind⟩, hloaded⟩

theorem Fed.frame (h : Fed host D start s) (hf : Frame s s') : Fed host D start s' := by
  refine h.other (fun r st hst ↦ hf.states ▸ hst) hf.justified hf.finalized fun r x hx ↦ ?_
  exact h.loaded r x ((getSignedBlock_congr host hf.headers hf.bodies hf.signatures r).symm.trans hx)

theorem Fed.handled (hbody : Function.Injective host.body) (h : Fed host D start s) (hsb : D sb)
    {r : Except (StoreError H) Unit} (hhandled : Handled host s sb r s') : Fed host D start s' := by
  cases hhandled with
  | known _ => exact h
  | rejected _ _ => exact h
  | @imported post head _ hnew hpost hframe =>
    obtain ⟨imports, himports, hkind⟩ := h.imports
    refine ⟨⟨imports ++ [sb], (himports.record hnew hpost).other ?_ ?_ ?_, fun x hx ↦ ?_⟩,
      fun r x hx ↦ ?_⟩
    · exact fun r st hst ↦ hframe.states ▸ hst
    · exact hframe.justified
    · exact hframe.finalized
    · rcases List.mem_append.mp hx with hx | hx
      · exact hkind x hx
      · exact List.mem_singleton.mp hx ▸ hsb
    · rw [getSignedBlock_of_import hbody hframe] at hx
      split at hx
      · exact Option.some.inj hx ▸ hsb
      · exact h.loaded r x hx

theorem fed_steadyOn (hbody : Function.Injective host.body) (D : SignedBlockWithAttestation H → Prop)
    (start : Store H) : Server.SteadyOn host D (Fed host D start) where
  frame := Fed.frame
  head := fun h _ ↦ h.other (fun _ _ hst ↦ hst) rfl rfl h.loaded
  safeTarget := fun h _ ↦ h.other (fun _ _ hst ↦ hst) rfl rfl h.loaded
  onBlock := fun _ hsb _ _ _ h hr ↦ h.handled hbody hsb (handled_of_onBlock hr)

variable {server server' : Server host} {more queue : List (SignedBlockWithAttestation H)}

/-- One turn of the work queue: what it imports is the block, and what it adds was read back. -/
theorem Turn.fed (hbody : Function.Injective host.body) (hturn : Turn server sb more server')
    (h : Fed host D start server.store) (hsb : D sb) :
    Fed host D start server'.store ∧ ∀ x ∈ more, D x := by
  cases hturn with
  | @pended waiting _ _ _ hstore _ hclimb =>
    have hwaiting : Fed host D start waiting.store := by
      rw [hstore]
      refine h.other (fun _ _ hst ↦ hst) rfl rfl fun r x hx ↦ ?_
      rw [Store.insertPendingBlock, getSignedBlock_writeSignedBlock hbody] at hx
      split at hx
      · exact Option.some.inj hx ▸ hsb
      · exact h.loaded r x hx
    refine ⟨hclimb.store ▸ hwaiting, fun x hx ↦ ?_⟩
    obtain ⟨r, -, -, -, hread, -⟩ := hclimb.ready x hx
    exact hwaiting.loaded r x hread
  | @passed u _ _ _ hhandled hmore =>
    have hu := h.handled hbody hsb hhandled
    refine ⟨hmore.store ▸ hu, fun x hx ↦ ?_⟩
    obtain ⟨r, -, hread⟩ := (hmore.mem x).mp hx
    exact hu.loaded r x hread
  | rejected _ _ => exact ⟨h, fun x hx ↦ absurd hx List.not_mem_nil⟩

theorem drainQueue_fed {ε : Type} (hbody : Function.Injective host.body) {turns : ℕ}
    (h : Fed host D start server.store) (hqueue : ∀ x ∈ queue, D x)
    (hdrain : (Server.drainQueue host turns queue : Op (Server host) ε Unit) server =
      .ok (.ok (), server')) : Fed host D start server'.store := by
  induction turns generalizing server queue with
  | zero =>
    cases queue with
    | nil =>
      obtain ⟨-, rfl⟩ := Prod.mk.inj (Except.ok.inj hdrain)
      exact h
    | cons sb queue => exact nomatch hdrain
  | succ turns ih =>
    cases queue with
    | nil =>
      obtain ⟨-, rfl⟩ := Prod.mk.inj (Except.ok.inj hdrain)
      exact h
    | cons sb queue =>
      obtain ⟨more, t, hprocess, hrest⟩ := Op.bind_eq_ok_ok.mp hdrain
      obtain ⟨ht, hmore⟩ :=
        (turn_of_processOrPendBlock hprocess).fed hbody h (hqueue sb List.mem_cons_self)
      refine ih ht (fun x hx ↦ ?_) hrest
      rcases List.mem_append.mp hx with hx | hx
      · exact hqueue x (List.mem_cons_of_mem sb hx)
      · exact hmore x hx

end Feeding

section Nodes

/-- A block that was delivered to the node, or that the node signed itself. -/
def Node.Received (node : Node host g) (sb : SignedBlockWithAttestation H) : Prop :=
  (∃ turns, ⟨turns, .newBlock sb⟩ ∈ node.deliveries) ∨
    Server.signAttestation host (Server.spawn host node.start node.keys node.isAggregator)
      sb.message.proposerAttestation.validatorId sb.message.proposerAttestation.data =
        .ok sb.signature.proposerSignature

/-- The server feeds on what the node received and signs with the keys of the node. -/
structure Feeds (node : Node host g) (server : Server host) : Prop where
  store : Fed host node.Received node.start server.store
  keys : server.keys = node.keys

theorem feeds_carries (node : Node host g) :
    Server.Carries (Fed host node.Received node.start) (Feeds node) :=
  ⟨Feeds.store, fun h hs ↦ ⟨hs, h.keys⟩, fun h ↦ ⟨h.store, h.keys⟩, fun h ↦ ⟨h.store, h.keys⟩⟩

theorem feeds_signs (node : Node host g) : Server.Signs (Feeds node) node.Received := by
  intro server vid data sig block proofs h hsig
  refine .inr (Eq.trans ?_ hsig)
  unfold Server.signAttestation Server.spawn
  rw [h.keys]

theorem keys_carriesWaiting (keys : Table UInt64 host.SecretKey) :
    Server.CarriesWaiting (fun _ ↦ True) fun server : Server host ↦ server.keys = keys :=
  ⟨⟨fun _ ↦ trivial, fun h _ ↦ h, id, id⟩, fun _ _ h ↦ h⟩

theorem true_steady (host : Host H) : Steady host fun _ ↦ True :=
  ⟨⟨fun _ _ ↦ trivial, fun _ _ ↦ trivial, fun _ _ ↦ trivial⟩, fun _ _ _ _ ↦ trivial, fun _ _ ↦ trivial⟩

theorem Feeds.step (hbody : Function.Injective host.body) {node : Node host g}
    {server server' : Server host} (h : Feeds node server) {d : Server.Delivery H}
    (hd : d ∈ node.deliveries) (hs : Server.step host server d = .ok server') :
    Feeds node server' := by
  obtain ⟨r, hr⟩ := Server.handle_of_step hs
  by_cases hm : ∃ block, d.message = .newBlock block
  · obtain ⟨block, hblock⟩ := hm
    have hreceived : node.Received block := .inl ⟨d.turns, by rw [← hblock]; exact hd⟩
    rw [hblock] at hr
    rcases Op.bind_eq_ok.mp hr with ⟨u, drained, hdrain, hrest⟩ | ⟨e, -, -⟩
    · obtain ⟨-, rfl⟩ := Prod.mk.inj (Except.ok.inj hrest)
      have hfed := drainQueue_fed hbody h.store
        (fun x hx ↦ List.mem_singleton.mp hx ▸ hreceived) hdrain
      have hkeys := Server.drainQueue_keeps (true_steady host) (keys_carriesWaiting node.keys) d.turns
        [block] server _ drained h.keys hdrain
      refine ⟨hfed.other ?_ rfl rfl fun r x hx ↦ ?_, hkeys⟩
      · exact fun r st hst ↦ lookup_states_of_pruneOldData hst
      · exact hfed.loaded r x (getSignedBlock_of_pruneOldData hx)
    · exact nomatch e
  · exact Server.handle_keeps (fed_steadyOn hbody node.Received node.start) (feeds_carries node)
      (feeds_signs node) d.turns (fun block hb ↦ hm ⟨block, hb⟩) server r server' h hr

/-- What a node imported in its run, it had received. -/
theorem Node.exists_imports (hbody : Function.Injective host.body) (node : Node host g) :
    ∃ imports, Imports host node.start imports node.server.store ∧
      ∀ sb ∈ imports, node.Received sb := by
  have hspawn : Feeds node (Server.spawn host node.start node.keys node.isAggregator) := by
    refine ⟨⟨⟨[], .start, fun sb hsb ↦ absurd hsb List.not_mem_nil⟩, fun r x hx ↦ ?_⟩, rfl⟩
    obtain ⟨hdr, sigs, body, hx⟩ := getSignedBlock_eq_some.mp hx
    exact nomatch (initStore_signatures node.start_eq r).symm.trans hx.signatures
  have hrun : Feeds node node.server :=
    Runs.run_invariant_of_trace (C := fun p ↦ p.2 ∈ node.deliveries)
      (fun _ _ _ h hd hs ↦ h.step hbody hd hs) hspawn (fun _ hp ↦ Runs.mem_of_mem_trace hp) node.run_eq
  exact hrun.store.imports

/-- What a store calls justified or final. -/
def Upholds (s : Store H) (c : Checkpoint H) : Prop :=
  c = s.latestJustified ∨ c = s.latestFinalized

/-- The node imported the blocks, which it had received, with signatures that hold. -/
def Node.Imported (node : Node host g) (chain : List (SignedBlockWithAttestation H)) (u : State H) :
    Prop :=
  SignedChain host g chain u ∧ ∃ imports, Imports host node.start imports node.server.store ∧
    chain ⊆ imports ∧ ∀ sb ∈ imports, node.Received sb

theorem Node.earned (hh : HashSound host) (hbody : Function.Injective host.body)
    (hg : Origin host.toTreeHash n g) (node : Node host g) (hstart : node.anchor = g)
    {c : Checkpoint H} (hc : Upholds node.server.store c) :
    c = ⟨host.header (cachedHeader host.toTreeHash g), 0⟩ ∨
      ∃ chain u, node.Imported chain u ∧ Settles u c ∧ c.slot.toNat ≠ 0 := by
  obtain ⟨imports, himports, hreceived⟩ := node.exists_imports hbody
  have hinit := node.start_eq
  rw [hstart] at hinit
  have hsourced := himports.sourced hh hg (sourced_initStore hg hinit)
  have hearned : Earned host g imports c := by
    rcases hc with rfl | rfl
    · exact hsourced.justified
    · exact hsourced.finalized
  refine hearned.imp_right fun hc ↦ ?_
  obtain ⟨chain, u, hchain, hsub, hsettles⟩ := hc
  exact ⟨chain, u, ⟨hchain, imports, himports, hsub, hreceived⟩, hsettles⟩

/-- Two nodes that both started from genesis have different blocks of one slot justified or final
only if a third of the validators voted for two blocks of that slot, in blocks that the two nodes
received and imported. -/
theorem nodes_conflict_doubleVoted {host₁ host₂ : Host H}
    (hhash : host₁.toTreeHash = host₂.toTreeHash) (hh : HashSound host₁)
    (hbody : Function.Injective host₁.body) {time : UInt64} {validators : List Validator}
    (hg : State.fromGenesis host₁.toTreeHash time validators =
      (.ok g : StateTransition.Result H (State H)))
    (node₁ : Node host₁ g) (node₂ : Node host₂ g) (hstart₁ : node₁.anchor = g)
    (hstart₂ : node₂.anchor = g) {c₁ c₂ : Checkpoint H} (hc₁ : Upholds node₁.server.store c₁)
    (hc₂ : Upholds node₂.server.store c₂) (hslot : c₁.slot = c₂.slot)
    (hroot : c₁.root ≠ c₂.root) :
    ∃ chain₁ chain₂ u₁ u₂, node₁.Imported chain₁ u₁ ∧ Settles u₁ c₁ ∧
      node₂.Imported chain₂ u₂ ∧ Settles u₂ c₂ ∧
      validators.length ⌈/⌉ 3 ≤ ((Finset.range validators.length).filter fun v ↦
        doubleVoted (included (blocksOf chain₁) ++ included (blocksOf chain₂)) v).card := by
  obtain ⟨vs, rfl, rfl⟩ := State.fromGenesis_eq_ok hg
  have horigin := origin_genesis host₁.toTreeHash time vs
  have hearned₁ := node₁.earned hh hbody horigin hstart₁ hc₁
  have hearned₂ := node₂.earned (hh.congr hhash) (hhash ▸ hbody) (by rw [← hhash]; exact horigin)
    hstart₂ hc₂
  rw [← hhash] at hearned₂
  rcases hearned₁ with rfl | ⟨chain₁, u₁, hchain₁, hs₁, hpos₁⟩
  · rcases hearned₂ with rfl | ⟨chain₂, u₂, hchain₂, hs₂, hpos₂⟩
    · exact absurd rfl hroot
    · exact absurd (congrArg UInt64.toNat hslot).symm hpos₂
  rcases hearned₂ with rfl | ⟨chain₂, u₂, hchain₂, hs₂, -⟩
  · exact absurd (congrArg UInt64.toNat hslot) hpos₁
  have hu₂ := hchain₂.1.runChain
  rw [← hhash] at hu₂
  exact ⟨chain₁, chain₂, u₁, u₂, hchain₁, hs₁, hchain₂, hs₂,
    doubleVoted_of_conflict hh.collisionFree hchain₁.1.runChain hu₂ hs₁ hs₂ hslot hroot hpos₁⟩

end Nodes

section Sample

/-- A rival of the first block that carries a vote without effect. -/
def rivalFirst : Block ℕ := sampleBlock sampleOrigin 1
  ⟨[sampleVote ⟨[true], one_le_limit⟩ sampleOrigin sampleOrigin], one_le_limit⟩

def rivalCheckpoint : Checkpoint ℕ := ⟨distinctHost.block rivalFirst, 1⟩

/-- A block on the rival with the votes of validators 0 and 1 for it. -/
def rivalSecond : Block ℕ :=
  ⟨2, 2, rivalCheckpoint.root, 3, ⟨⟨[⟨⟨[true, true], two_le_limit⟩,
    ⟨1, rivalCheckpoint, rivalCheckpoint, sampleCheckpoint sampleOrigin⟩⟩], one_le_limit⟩⟩⟩

def rivalDeliveries : List (Server.Delivery ℕ) :=
  [⟨1, .newBlock (sampleProved rivalFirst (ownVote sampleOrigin sampleOrigin))⟩,
    ⟨1, .newBlock (sampleProved rivalSecond ⟨2, rivalCheckpoint, rivalCheckpoint, rivalCheckpoint⟩)⟩]

/-- Two nodes that see one block of slot 1 each, both with the votes of validators 0 and 1. -/
theorem nodes_conflict_doubleVoted_sample :
    ∃ node₁ node₂ : Node distinctHost sampleGenesis,
      node₁.server.store.latestJustified = sampleCheckpoint Sample.first ∧
      node₂.server.store.latestJustified = rivalCheckpoint ∧
      ∃ chain₁ chain₂ u₁ u₂, node₁.Imported chain₁ u₁ ∧
        Settles u₁ (sampleCheckpoint Sample.first) ∧
        node₂.Imported chain₂ u₂ ∧ Settles u₂ rivalCheckpoint ∧
        3 ⌈/⌉ 3 ≤ ((Finset.range 3).filter fun v ↦
          doubleVoted (included (blocksOf chain₁) ++ included (blocksOf chain₂)) v).card := by
  have hview₁ : (Server.run distinctHost distinctServer
      [⟨1, .newBlock sampleFirst⟩, ⟨1, .newBlock sampleSecond⟩]).toOption.map
      (fun server ↦ server.store.latestJustified) = some (sampleCheckpoint Sample.first) := by
    decide +kernel
  have hview₂ : (Server.run distinctHost distinctServer rivalDeliveries).toOption.map
      (fun server ↦ server.store.latestJustified) = some rivalCheckpoint := by decide +kernel
  obtain ⟨server₁, h₁, hc₁⟩ := Exec.exists_ok_of_map hview₁
  obtain ⟨server₂, h₂, hc₂⟩ := Exec.exists_ok_of_map hview₂
  exact ⟨distinctNode h₁, distinctNode h₂, hc₁, hc₂,
    nodes_conflict_doubleVoted rfl distinctHost_hashSound bodyCode_injective distinctGenesis_eq
      (distinctNode h₁) (distinctNode h₂) rfl rfl (.inl hc₁.symm) (.inl hc₂.symm) rfl
      (by decide +kernel)⟩

end Sample

end Ethlambda.Chain
