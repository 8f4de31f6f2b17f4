import Ethlambda.Chain.Missing
import Ethlambda.Network.Exchange

namespace Ethlambda.Network

open Ethlambda.Base Ethlambda.Types Ethlambda.Storage Ethlambda.Chain

set_option linter.unusedSectionVars false

/-- A node: the actor of its chain and the actor of its network, with the mail between them. -/
structure Node (P : Type) {H : Type} (host : Host H) where
  chain : Server host
  network : P2PServer P H
  /-- The blocks on their way to the chain. -/
  arriving : List (SignedBlockWithAttestation H)
  /-- The roots that the network will be asked for. -/
  wanted : List H

def fetchedRoot {H : Type} : Outgoing H → Option H
  | .fetchBlock root => some root
  | .attestation _ | .aggregatedAttestation _ | .block _ => none

namespace Node

/-- What can happen next: a block is gossiped, one of the actors takes up its mail, or a peer
answers a block request. -/
inductive Event (H : Type)
  | gossip (block : SignedBlockWithAttestation H)
  | newBlock
  | fetchBlock (pick : ℕ)
  | answer (requestId : ℕ)

def Event.isGossip {H : Type} : Event H → Bool
  | .gossip _ => true
  | .newBlock | .fetchBlock _ | .answer _ => false

/-- Why an event does not go through: there is nothing to handle, or its handler fails. -/
inductive Halt
  | disabled
  | failed
deriving DecidableEq

variable {P H : Type} [DecidableEq P] [LinearOrder H] [Zero H] {host : Host H}

/-- One event at a node whose peers have the given stores. -/
def step (wire : Wire H) (peers : P → Store H) (turns : ℕ) (node : Node P host) :
    Event H → Except Halt (Node P host)
  | .gossip block => .ok { node with arriving := node.arriving ++ [block] }
  | .newBlock => match node.arriving with
    | [] => .error .disabled
    | block :: arriving => match Server.step host node.chain ⟨turns, .newBlock block⟩ with
      | .error _ => .error .failed
      | .ok chain =>
        let sent := chain.sent.drop node.chain.sent.length
        .ok { node with
          chain := chain
          arriving := arriving
          wanted := node.wanted ++ sent.filterMap fetchedRoot }
  | .fetchBlock pick => match node.wanted with
    | [] => .error .disabled
    | root :: wanted =>
      match P2PServer.step host.toTreeHash node.network (.fetchBlock root pick) with
      | .error _ => .error .failed
      | .ok network => .ok { node with network := network, wanted := wanted }
  | .answer requestId => match node.network.outstanding.lookup requestId with
    | some (peer, .blocksByRoot request) =>
      match exchange host wire (peers peer) (.blocksByRoot request) with
      | .error _ => .error .failed
      | .ok response =>
        match P2PServer.step host.toTreeHash node.network (.response requestId response) with
        | .error _ => .error .failed
        | .ok network =>
          let forwarded := network.forwarded.drop node.network.forwarded.length
          .ok { node with network := network, arriving := node.arriving ++ forwarded }
    | _ => .error .disabled

/-- No mail is left, and no block request is unsettled. -/
structure Idle (node : Node P host) : Prop where
  arriving : node.arriving = []
  wanted : node.wanted = []
  settled : ∀ id peer request,
    node.network.outstanding.lookup id ≠ some (peer, .blocksByRoot request)

/-- A block is on its way: the network will be asked for it, is after it, or has passed it on. -/
def Coming (node : Node P host) (m : H) : Prop :=
  m ∈ node.wanted ∨ m ∈ node.network.pendingRequests ∨
    ∃ sb ∈ node.arriving, host.block sb.message.block = m

/-- A block is in the mail, or the chain has taken it up. -/
def Seen (node : Node P host) (sb : SignedBlockWithAttestation H) : Prop :=
  sb ∈ node.arriving ∨
    (∃ st, node.chain.store.states.lookup (host.block sb.message.block) = some st) ∨
    ∃ hdr, node.chain.store.blockHeaders.lookup (host.block sb.message.block) = some hdr

/-- How many of the blocks are not above a root. -/
def depth (host : Host H) (blocks : List (SignedBlockWithAttestation H)) (r : H) : ℕ :=
  rank (height host blocks) (blocks.map fun sb ↦ host.block sb.message.block) r

/-- A bound on what is left to do before the node is idle. -/
def work (blocks : List (SignedBlockWithAttestation H)) (node : Node P host) : ℕ :=
  (node.arriving.map fun sb ↦ 3 * depth host blocks (host.block sb.message.block)).sum +
    (node.wanted.map fun r ↦ 3 * depth host blocks r + 2).sum +
    (node.network.pendingRequests.keys.map fun r ↦ 3 * depth host blocks r + 1).sum

section Network

variable {blocks : List (SignedBlockWithAttestation H)} {network network' : P2PServer P H}
  {peers : P → Store H} {th : TreeHash H} {root : H}

theorem fetchBlockFromPeer_asks (hconnected : network.connectedPeers ≠ [])
    (hopen : network.adapterOpen = true) (hidle : root ∉ network.pendingRequests) (pick : ℕ) :
    ∃ peer ∈ network.connectedPeers, ∃ roots : RequestedBlockRoots H, roots.toList = [root] ∧
      P2PServer.fetchBlockFromPeer pick network root = (true, network.ask peer roots root) := by
  have huntried : network.untriedPeers root = network.connectedPeers := by
    rw [P2PServer.untriedPeers, AList.lookup_eq_none.mpr hidle]
  have hlt : pick % network.connectedPeers.length < network.connectedPeers.length :=
    Nat.mod_lt _ (List.length_pos_iff.mpr hconnected)
  have hlength : [root].length ≤ maxRequestBlocks := by
    rw [List.length_singleton]
    decide
  refine ⟨network.connectedPeers[pick % network.connectedPeers.length], List.getElem_mem hlt,
    ⟨[root], hlength⟩, rfl, ?_⟩
  rw [P2PServer.fetchBlockFromPeer, if_neg hconnected, huntried, if_neg hconnected,
    P2PServer.requestFromPeer, List.getElem?_eq_getElem hlt, VariableList.new, dif_pos hlength]
  dsimp only
  rw [P2PServer.sendRequest, if_pos hopen]
  rfl

theorem ask_pendingRequests (hidle : root ∉ network.pendingRequests) (peer : P)
    (roots : RequestedBlockRoots H) :
    (network.ask peer roots root).pendingRequests = network.pendingRequests.insert root ⟨1, []⟩ := by
  have hnone : (network.send (peer, .blocksByRoot ⟨roots⟩)).pendingRequests.lookup root = none :=
    AList.lookup_eq_none.mpr hidle
  rw [P2PServer.ask, P2PServer.trackRequest, hnone]
  rfl

/-- A network whose block requests all go to peers that have the blocks, and where no request has
failed that is still pending. -/
structure Served (host : Host H) (blocks : List (SignedBlockWithAttestation H))
    (peers : P → Store H) (network : P2PServer P H) : Prop where
  asking : network.Asking
  alive : network.Alive
  blockchain : network.blockchain = true
  adapterOpen : network.adapterOpen = true
  connected : network.connectedPeers ≠ []
  serves : ∀ peer ∈ network.connectedPeers, ∀ sb ∈ blocks,
    (peers peer).getSignedBlock host (host.block sb.message.block) = some sb
  unscheduled : network.scheduled = []
  asked : ∀ id peer request, network.outstanding.lookup id = some (peer, .blocksByRoot request) →
    peer ∈ network.connectedPeers
  listed : ∀ r ∈ network.pendingRequests, ∃ sb ∈ blocks, host.block sb.message.block = r

/-- What is pending has a request that is not settled. -/
theorem Served.exists_sent (h : Served host blocks peers network)
    (hpending : root ∈ network.pendingRequests) :
    ∃ id peer request, network.outstanding.lookup id = some (peer, .blocksByRoot request) := by
  have htokens := h.alive root hpending
  have hretries : network.retries root = 0 := by
    rw [P2PServer.retries, h.unscheduled]
    rfl
  rw [P2PServer.tokens, hretries, Nat.add_zero] at htokens
  obtain ⟨e, he, hblocks⟩ := List.countP_pos_iff.mp (htokens.symm ▸ Nat.one_pos)
  obtain ⟨id, peer, request⟩ := e
  have hsent := Table.mem_pairs.mp he
  cases request with
  | status status => exact absurd hblocks Bool.false_ne_true
  | blocksByRoot request => exact ⟨id, peer, request, hsent⟩

/-- A root that is asked for is pending afterwards, and a request for it is out if it was not. -/
theorem Served.fetches (h : Served host blocks peers network) (th : TreeHash H) (pick : ℕ)
    (hroot : ∃ sb ∈ blocks, host.block sb.message.block = root) :
    ∃ network', P2PServer.step th network (.fetchBlock root pick) = .ok network' ∧
      Served host blocks peers network' ∧
      network'.forwarded = network.forwarded ∧
      network'.pendingRequests.keys.Perm (root :: network.pendingRequests.keys.erase root) := by
  refine ⟨_, rfl, ?_⟩
  have hstep : P2PServer.step th network (.fetchBlock root pick) =
      .ok (network.handleFetchBlock pick root) := rfl
  have hdelivers : P2PServer.Delivers th network (.fetchBlock root pick) := trivial
  have hasking := h.asking.step hstep
  have halive := h.alive.step h.asking.toPhased hdelivers hstep
  revert hasking halive
  rw [P2PServer.handleFetchBlock]
  intro hasking halive
  by_cases hpending : root ∈ network.pendingRequests
  · rw [if_pos hpending]
    exact ⟨h, rfl, List.perm_cons_erase (AList.mem_keys.mp hpending)⟩
  · rw [if_neg hpending] at hasking halive ⊢
    obtain ⟨peer, hpeer, roots, hroots, heq⟩ :=
      fetchBlockFromPeer_asks h.connected h.adapterOpen hpending pick
    rw [heq] at hasking halive ⊢
    have hkeys := ask_pendingRequests hpending peer roots
    refine ⟨⟨hasking, halive, h.blockchain, h.adapterOpen, h.connected, h.serves, h.unscheduled,
      fun id peer' request hsent ↦ ?_, fun r hr ↦ ?_⟩, rfl, ?_⟩
    · rw [P2PServer.ask_outstanding, Table.lookup_insert_eq_ite] at hsent
      split at hsent
      · obtain rfl := (Prod.mk.inj (Option.some.inj hsent)).1
        exact hpeer
      · exact h.asked id peer' request hsent
    · rw [hkeys, AList.mem_insert] at hr
      rcases hr with rfl | hr
      · exact hroot
      · exact h.listed r hr
    · rw [hkeys, AList.keys_insert]

/-- What the wire has to carry for the blocks of the list to be fetched over it. -/
structure Carries (host : Host H) (wire : Wire H) (blocks : List (SignedBlockWithAttestation H)) :
    Prop where
  framing : wire.Framing
  request : ∀ sb ∈ blocks, ∀ roots : RequestedBlockRoots H,
    roots.toList = [host.block sb.message.block] → RequestEncodes wire (.blocksByRoot ⟨roots⟩)
  response : ∀ sb ∈ blocks, Codec.Encodes wire (.blocksByRoot [sb])

variable {wire : Wire H}

/-- The answer to a block request is the block it asks for, which goes to the chain. -/
theorem Served.answers (h : Served host blocks peers network) (hwire : Carries host wire blocks)
    {id : ℕ} {peer : P} {request : BlocksByRootRequest H}
    (hsent : network.outstanding.lookup id = some (peer, .blocksByRoot request)) :
    ∃ sb ∈ blocks, ∃ network', exchange host wire (peers peer) (.blocksByRoot request) =
        .ok (.success (.blocksByRoot [sb])) ∧
      P2PServer.step host.toTreeHash network (.response id (.success (.blocksByRoot [sb]))) =
        .ok network' ∧
      Served host blocks peers network' ∧
      network'.forwarded = network.forwarded ++ [sb] ∧
      host.block sb.message.block ∈ network.pendingRequests ∧
      network'.pendingRequests = network.pendingRequests.erase (host.block sb.message.block) := by
  obtain ⟨root, hroots, hmap⟩ := h.asking.tracked id peer request hsent
  have hpending := h.asking.pending_of_sent hsent hmap
  obtain ⟨sb, hsb, rfl⟩ := h.listed root hpending
  have hstored := h.serves peer (h.asked id peer request hsent) sb hsb
  have hexchange : exchange host wire (peers peer) (.blocksByRoot request) =
      .ok (.success (.blocksByRoot [sb])) := by
    refine exchange_eq hwire.framing (hwire.request sb hsb request.roots hroots) ?_ ?_
      (hwire.response sb hsb)
    · rw [Request.roots, hroots]
      exact le_rfl
    · rw [handleRequest, handleBlocksByRootRequest, hroots, List.filterMap_cons_some hstored]
      rfl
  have hstep := P2PServer.step_found host.toTreeHash hsent hmap rfl
  have hdelivers : P2PServer.Delivers host.toTreeHash network
      (.response id (.success (.blocksByRoot [sb]))) := by
    intro root hroot
    rw [← Option.some.inj (hmap.symm.trans hroot)]
    exact .inr ⟨sb, List.mem_singleton_self sb, rfl⟩
  refine ⟨sb, hsb, _, hexchange, hstep, ?_, if_pos h.blockchain, hpending, rfl⟩
  refine ⟨h.asking.step hstep, h.alive.step h.asking.toPhased hdelivers hstep, h.blockchain,
    h.adapterOpen, h.connected, h.serves, h.unscheduled, fun id' peer' request' hsent' ↦ ?_,
    fun r hr ↦ h.listed r (AList.mem_erase.mp hr).2⟩
  have hold := (Table.lookup_erase_eq_ite _ _ _).symm.trans hsent'
  split at hold
  · cases hold
  · exact h.asked id' peer' request' hold

end Network

section Following

variable {s₀ : Store H} {blocks : List (SignedBlockWithAttestation H)} {node node' : Node P host}
  {peers : P → Store H} {wire : Wire H} {anchor : State H} {turns : ℕ}

/-- Every block that waits is below one that was never seen and is on its way. -/
structure Following (s₀ : Store H) (blocks : List (SignedBlockWithAttestation H))
    (peers : P → Store H) (node : Node P host) : Prop where
  synced : Synced host s₀ blocks node.chain []
  p2p : node.chain.p2p = true
  served : Served host blocks peers node.network
  arriving : ∀ sb ∈ node.arriving, sb ∈ blocks
  wanted : ∀ r ∈ node.wanted, ∃ sb ∈ blocks, host.block sb.message.block = r
  coming : ∀ p c, Waits node.chain p c →
    ∃ m, Lacks host blocks node.chain.store p m ∧ Coming node m

/-- A step that leaves less to do and loses no block. -/
structure Advances (s₀ : Store H) (blocks : List (SignedBlockWithAttestation H))
    (peers : P → Store H) (node node' : Node P host) : Prop where
  following : Following s₀ blocks peers node'
  work_lt : work blocks node' < work blocks node
  seen : ∀ sb, Seen node sb → Seen node' sb

theorem depth_pos {sb : SignedBlockWithAttestation H} (hsb : sb ∈ blocks) :
    0 < depth host blocks (host.block sb.message.block) :=
  List.countP_pos_iff.mpr ⟨_, List.mem_map_of_mem hsb, decide_eq_true le_rfl⟩

theorem depth_lt {sb : SignedBlockWithAttestation H} {m : H} (hsb : sb ∈ blocks)
    (h : height host blocks m < height host blocks (host.block sb.message.block)) :
    depth host blocks m < depth host blocks (host.block sb.message.block) :=
  rank_lt (List.mem_map_of_mem hsb) h

theorem depth_le (r : H) : depth host blocks r ≤ blocks.length := by
  have hle : depth host blocks r ≤ (blocks.map fun sb ↦ host.block sb.message.block).length :=
    rank_le_length
  rwa [List.length_map] at hle

theorem Following.gossip (h : Following s₀ blocks peers node) {sb : SignedBlockWithAttestation H}
    (hsb : sb ∈ blocks) :
    Following s₀ blocks peers { node with arriving := node.arriving ++ [sb] } where
  synced := h.synced
  p2p := h.p2p
  served := h.served
  arriving x hx := by
    rcases List.mem_append.mp hx with hx | hx
    · exact h.arriving x hx
    · obtain rfl := List.mem_singleton.mp hx
      exact hsb
  wanted := h.wanted
  coming p c hw := by
    obtain ⟨m, hlacks, hcoming⟩ := h.coming p c hw
    refine ⟨m, hlacks, ?_⟩
    rcases hcoming with hm | hm | ⟨x, hx, hroot⟩
    · exact .inl hm
    · exact .inr (.inl hm)
    · exact .inr (.inr ⟨x, List.mem_append_left _ hx, hroot⟩)

theorem work_gossip (node : Node P host) (sb : SignedBlockWithAttestation H) :
    work blocks { node with arriving := node.arriving ++ [sb] } ≤
      work blocks node + 3 * blocks.length := by
  have hle : depth host blocks (host.block sb.message.block) ≤ blocks.length := depth_le _
  unfold work
  dsimp only
  rw [List.map_append, List.sum_append, List.map_singleton, List.sum_singleton]
  omega

/-- The network takes up a root. -/
theorem Following.fetchBlock (h : Following s₀ blocks peers node) {root : H} {wanted : List H}
    (hwanted : node.wanted = root :: wanted) (pick : ℕ) :
    ∃ node', step wire peers turns node (.fetchBlock pick) = .ok node' ∧
      Advances s₀ blocks peers node node' := by
  have hlisted := h.wanted
  rw [hwanted, List.forall_mem_cons] at hlisted
  obtain ⟨network, hstep, hserved, -, hkeys⟩ := h.served.fetches host.toTreeHash pick hlisted.1
  have hpending {m : H} (hm : m = root ∨ m ∈ node.network.pendingRequests) :
      m ∈ network.pendingRequests := by
    refine AList.mem_keys.mpr (hkeys.mem_iff.mpr ?_)
    by_cases heq : m = root
    · rw [heq]
      exact List.mem_cons_self
    · refine List.mem_cons_of_mem root ((List.mem_erase_of_ne heq).mpr ?_)
      exact AList.mem_keys.mpr (hm.resolve_left heq)
  refine ⟨{ node with network := network, wanted := wanted }, ?_, ⟨h.synced, h.p2p, hserved,
    h.arriving, hlisted.2, fun p c hw ↦ ?_⟩, ?_, fun sb hseen ↦ hseen⟩
  · rw [step, hwanted]
    dsimp only
    rw [hstep]
  · obtain ⟨m, hlacks, hcoming⟩ := h.coming p c hw
    refine ⟨m, hlacks, ?_⟩
    rcases hcoming with hm | hm | hm
    · rw [hwanted] at hm
      rcases List.mem_cons.mp hm with hm | hm
      · exact .inr (.inl (hpending (.inl hm)))
      · exact .inl hm
    · exact .inr (.inl (hpending (.inr hm)))
    · exact .inr (.inr hm)
  · unfold work
    dsimp only
    rw [hwanted, List.map_cons, List.sum_cons, (hkeys.map _).sum_eq, List.map_cons, List.sum_cons]
    have hle := ((List.erase_sublist (a := root) (l := node.network.pendingRequests.keys)).map
      fun r ↦ 3 * depth host blocks r + 1).sum_le_sum fun _ _ ↦ Nat.zero_le _
    omega

/-- A peer answers, and the block goes to the chain. -/
theorem Following.answer (h : Following s₀ blocks peers node) (hwire : Carries host wire blocks)
    {id : ℕ} {peer : P} {request : BlocksByRootRequest H}
    (hsent : node.network.outstanding.lookup id = some (peer, .blocksByRoot request)) :
    ∃ node', step wire peers turns node (.answer id) = .ok node' ∧
      Advances s₀ blocks peers node node' := by
  obtain ⟨sb, hsb, network, hexchange, hstep, hserved, hforwarded, hpending, herase⟩ :=
    h.served.answers hwire hsent
  have hdrop : network.forwarded.drop node.network.forwarded.length = [sb] := by
    rw [hforwarded, List.drop_left]
  refine ⟨{ node with network := network, arriving := node.arriving ++ [sb] }, ?_, ⟨h.synced, h.p2p,
    hserved, fun x hx ↦ ?_, h.wanted, fun p c hw ↦ ?_⟩, ?_, fun x hseen ↦ ?_⟩
  · rw [step, hsent]
    dsimp only
    rw [hexchange]
    dsimp only
    rw [hstep]
    dsimp only
    rw [hdrop]
  · rcases List.mem_append.mp hx with hx | hx
    · exact h.arriving x hx
    · obtain rfl := List.mem_singleton.mp hx
      exact hsb
  · obtain ⟨m, hlacks, hcoming⟩ := h.coming p c hw
    refine ⟨m, hlacks, ?_⟩
    rcases hcoming with hm | hm | ⟨x, hx, hroot⟩
    · exact .inl hm
    · by_cases heq : m = host.block sb.message.block
      · exact .inr (.inr ⟨sb, List.mem_append_right _ List.mem_cons_self, heq.symm⟩)
      · refine .inr (.inl ?_)
        rw [herase]
        exact AList.mem_erase.mpr ⟨heq, hm⟩
    · exact .inr (.inr ⟨x, List.mem_append_left _ hx, hroot⟩)
  · have hsum := List.sum_map_erase (fun r ↦ 3 * depth host blocks r + 1)
      (AList.mem_keys.mp hpending)
    unfold work
    dsimp only
    rw [herase, AList.keys_erase, List.map_append, List.sum_append, List.map_singleton,
      List.sum_singleton]
    omega
  · rcases hseen with hx | hx
    · exact .inl (List.mem_append_left _ hx)
    · exact .inr hx

section Chain

variable (hh : HashSound host) (hbody : Function.Injective host.body) (hs₀ : Fresh host s₀ anchor)
  (hvalid : ∀ sb ∈ blocks, Valid host s₀ blocks sb)
  (hnodup : (blocks.map fun sb ↦ host.block sb.message.block).Nodup)
  (hfew : blocks.length + 1 ≤ statesToKeep) (hturns : blocks.length < turns)

theorem step_newBlock {chain : Server host} {sb : SignedBlockWithAttestation H}
    {arriving : List (SignedBlockWithAttestation H)} (harriving : node.arriving = sb :: arriving)
    (hdeliver : Server.deliver host node.chain (turns, sb) = .ok chain) {sent : List (Outgoing H)}
    (hsent : chain.sent = node.chain.sent ++ sent) :
    step wire peers turns node .newBlock =
      .ok { node with
        chain := chain
        arriving := arriving
        wanted := node.wanted ++ sent.filterMap fetchedRoot } := by
  have hstep : Server.step host node.chain ⟨turns, .newBlock sb⟩ = .ok chain := hdeliver
  rw [step, harriving]
  dsimp only
  rw [hstep]
  dsimp only
  rw [hsent, List.drop_left]

theorem seen_of_arrives {chain : Server host} {sb x : SignedBlockWithAttestation H}
    {arriving : List (SignedBlockWithAttestation H)} {wanted : List H}
    (h : Arrives host blocks node.chain sb chain) (harriving : node.arriving = sb :: arriving)
    (hseen : Seen node x) :
    Seen { node with chain := chain, arriving := arriving, wanted := wanted } x := by
  rcases hseen with hx | ⟨st, hst⟩ | ⟨hdr, hhdr⟩
  · rw [harriving] at hx
    rcases List.mem_cons.mp hx with rfl | hx
    · exact .inr h.kept
    · exact .inl hx
  · exact .inr (.inl (h.states hst))
  · exact .inr (.inr (h.headers hhdr))

/-- Another block than the one that arrived is still on its way. -/
theorem Coming.of_arriving {chain : Server host} {sb : SignedBlockWithAttestation H}
    {arriving : List (SignedBlockWithAttestation H)} {m : H} (h : Coming node m)
    (harriving : node.arriving = sb :: arriving) (hne : m ≠ host.block sb.message.block)
    (roots : List H) :
    Coming { node with chain := chain, arriving := arriving, wanted := node.wanted ++ roots } m := by
  rcases h with hm | hm | ⟨x, hx, hroot⟩
  · exact .inl (List.mem_append_left _ hm)
  · exact .inr (.inl hm)
  · rw [harriving] at hx
    rcases List.mem_cons.mp hx with rfl | hx
    · exact absurd hroot.symm hne
    · exact .inr (.inr ⟨x, hx, hroot⟩)

/-- A block that has to wait asks for the first of its ancestors that was never seen, and so does
all that waited for it. -/
theorem Following.aside {chain : Server host} {sb : SignedBlockWithAttestation H}
    {arriving : List (SignedBlockWithAttestation H)} {m : H}
    (h : Following s₀ blocks peers node) (harriving : node.arriving = sb :: arriving)
    (hsb : sb ∈ blocks) (hsynced : Synced host s₀ blocks chain [])
    (haside : PutAside host blocks node.chain sb m chain) :
    Advances s₀ blocks peers node
      { node with chain := chain, arriving := arriving, wanted := node.wanted ++ [m] } := by
  have harrives : Arrives host blocks node.chain sb chain := .aside haside
  have hgrow (r : H) (hdr : BlockHeader H) (hr : node.chain.store.blockHeaders.lookup r = some hdr) :
      ∃ hdr', chain.store.blockHeaders.lookup r = some hdr' := harrives.headers hr
  have hm : m ∈ node.wanted ++ [m] := List.mem_append_right _ List.mem_cons_self
  refine ⟨⟨hsynced, haside.p2p.trans h.p2p, h.served, fun x hx ↦ ?_, fun r hr ↦ ?_, fun p c hw ↦ ?_⟩,
    ?_, fun x ↦ seen_of_arrives harrives harriving⟩
  · exact h.arriving x (harriving ▸ List.mem_cons_of_mem sb hx)
  · rcases List.mem_append.mp hr with hr | hr
    · exact h.wanted r hr
    · obtain rfl := List.mem_singleton.mp hr
      exact haside.listed
  · rcases (haside.waits p c).mp hw with hw | ⟨rfl, rfl⟩
    · obtain ⟨k, hlacks, hcoming⟩ := h.coming p c hw
      have hpath := reflTransGen_link_mono hgrow hlacks.path
      by_cases heq : k = host.block sb.message.block
      · -- what ended at this block goes on to where its own way ends
        have hlink : Link host blocks chain.store k sb.message.block.parentRoot :=
          ⟨sb, hsb, heq.symm, rfl, _, (haside.headers k).trans (if_pos heq)⟩
        exact ⟨m, ⟨(hpath.tail hlink).trans haside.lacks.path, haside.lacks.unseen⟩, .inl hm⟩
      · refine ⟨k, ⟨hpath, ?_⟩, hcoming.of_arriving harriving heq [m]⟩
        rw [haside.headers, if_neg heq]
        exact hlacks.unseen
    · exact ⟨m, haside.lacks, .inl hm⟩
  · have hlt := depth_lt hsb haside.below
    unfold work
    dsimp only
    rw [harriving, List.map_cons, List.sum_cons, List.map_append, List.sum_append,
      List.map_singleton, List.sum_singleton]
    omega

include hnodup hs₀ in
/-- A block that is imported was not what the others wait for. -/
theorem Following.imported {chain : Server host} {sb : SignedBlockWithAttestation H}
    {arriving : List (SignedBlockWithAttestation H)}
    (h : Following s₀ blocks peers node) (harriving : node.arriving = sb :: arriving)
    (hsb : sb ∈ blocks) (hsynced : Synced host s₀ blocks chain [])
    (hdrained : Drained node.chain [sb] chain) :
    Advances s₀ blocks peers node
      { node with chain := chain, arriving := arriving, wanted := node.wanted ++ [] } := by
  have hhead : ∃ st, s₀.states.lookup s₀.head = some st := ⟨anchor, (hs₀.states _ _).mpr ⟨rfl, rfl⟩⟩
  have harrives : Arrives host blocks node.chain sb chain := .imported hdrained
  refine ⟨⟨hsynced, hdrained.p2p.trans h.p2p, h.served, fun x hx ↦ ?_, ?_, fun p c hw ↦ ?_⟩, ?_,
    fun x ↦ seen_of_arrives harrives harriving⟩
  · exact h.arriving x (harriving ▸ List.mem_cons_of_mem sb hx)
  · rw [List.append_nil]
    exact h.wanted
  · obtain ⟨m, hlacks, hcoming⟩ := h.coming p c (hdrained.waits p c hw)
    have hpath := reflTransGen_link_mono hdrained.headers hlacks.path
    have hne : m ≠ host.block sb.message.block := by
      rintro rfl
      obtain ⟨l, hl, -⟩ := hw
      have hstateless := hsynced.stateless_of_path hnodup hhead hpath (hsynced.recorded.lists p l hl).2.2
      obtain ⟨st, hst⟩ := hdrained.done sb (List.mem_singleton_self sb)
      exact nomatch hstateless.symm.trans hst
    refine ⟨m, ⟨hpath, ?_⟩, hcoming.of_arriving harriving hne []⟩
    refine Option.eq_none_iff_forall_ne_some.mpr fun hdr hhdr ↦ ?_
    rcases hdrained.headers_of m hdr hhdr with ⟨x, hx, hroot⟩ | ⟨hdr', hhdr'⟩
    · obtain rfl := List.mem_singleton.mp hx
      exact hne hroot.symm
    · exact nomatch hlacks.unseen.symm.trans hhdr'
  · have hpos : 0 < depth host blocks (host.block sb.message.block) := depth_pos hsb
    unfold work
    dsimp only
    rw [harriving, List.map_cons, List.sum_cons, List.append_nil]
    omega

include hh hbody hs₀ hvalid hnodup hfew hturns

/-- The chain takes up a block. -/
theorem Following.newBlock (h : Following s₀ blocks peers node) {sb : SignedBlockWithAttestation H}
    {arriving : List (SignedBlockWithAttestation H)} (harriving : node.arriving = sb :: arriving) :
    ∃ node', step wire peers turns node .newBlock = .ok node' ∧
      Advances s₀ blocks peers node node' := by
  have hsb : sb ∈ blocks := h.arriving sb (harriving ▸ List.mem_cons_self)
  obtain ⟨chain, hdeliver, hsynced, harrives⟩ :=
    h.synced.arrives hh hbody hs₀ hvalid hnodup hfew h.p2p hsb hturns
  cases harrives with
  | aside haside =>
    exact ⟨_, step_newBlock harriving hdeliver haside.sent, h.aside harriving hsb hsynced haside⟩
  | imported hdrained =>
    have hsent : chain.sent = node.chain.sent ++ [] := hdrained.sent.trans (List.append_nil _).symm
    exact ⟨_, step_newBlock harriving hdeliver hsent,
      h.imported hs₀ hnodup harriving hsb hsynced hdrained⟩

/-- What is there to be handled is handled, and leaves less to do. -/
theorem Following.advances (h : Following s₀ blocks peers node) (hwire : Carries host wire blocks)
    {event : Event H} (hevent : event.isGossip = false) :
    step wire peers turns node event = .error .disabled ∨
      ∃ node', step wire peers turns node event = .ok node' ∧
        Advances s₀ blocks peers node node' := by
  cases event with
  | gossip block => exact nomatch hevent
  | newBlock =>
    cases harriving : node.arriving with
    | nil =>
      left
      rw [step, harriving]
    | cons sb arriving =>
      exact .inr (h.newBlock hh hbody hs₀ hvalid hnodup hfew hturns harriving)
  | fetchBlock pick =>
    cases hwanted : node.wanted with
    | nil =>
      left
      rw [step, hwanted]
    | cons root wanted => exact .inr (h.fetchBlock hwanted pick)
  | answer id =>
    cases hsent : node.network.outstanding.lookup id with
    | none =>
      left
      rw [step, hsent]
    | some sent =>
      obtain ⟨peer, request⟩ := sent
      cases request with
      | status status =>
        left
        rw [step, hsent]
      | blocksByRoot request => exact .inr (h.answer hwire hsent)

/-- A node that is not idle can always go on. -/
theorem Following.exists_step (h : Following s₀ blocks peers node) (hwire : Carries host wire blocks)
    (hbusy : ¬Idle node) :
    ∃ event node', event.isGossip = false ∧ step wire peers turns node event = .ok node' := by
  by_contra hstuck
  have hnone {event : Event H} {node' : Node P host} (hevent : event.isGossip = false)
      (hstep : step wire peers turns node event = .ok node') : False :=
    hstuck ⟨event, node', hevent, hstep⟩
  refine hbusy ⟨?_, ?_, fun id peer request hsent ↦ ?_⟩
  · cases harriving : node.arriving with
    | nil => rfl
    | cons sb arriving =>
      obtain ⟨node', hstep, -⟩ := h.newBlock hh hbody hs₀ hvalid hnodup hfew hturns harriving
      exact (hnone rfl hstep).elim
  · cases hwanted : node.wanted with
    | nil => rfl
    | cons root wanted =>
      obtain ⟨node', hstep, -⟩ := h.fetchBlock hwanted 0
      exact (hnone rfl hstep).elim
  · obtain ⟨node', hstep, -⟩ := h.answer hwire hsent
    exact hnone rfl hstep

theorem Following.run {events : List (Event H)} (h : Following s₀ blocks peers node)
    (hwire : Carries host wire blocks) (hgossip : ∀ sb, .gossip sb ∈ events → sb ∈ blocks)
    (hrun : Base.Runs.run (step wire peers turns) node events = .ok node') :
    Following s₀ blocks peers node' ∧
      work blocks node' + events.countP (fun event ↦ !event.isGossip) ≤
        work blocks node + 3 * blocks.length * events.countP Event.isGossip ∧
      ∀ sb, Seen node sb ∨ .gossip sb ∈ events → Seen node' sb := by
  induction events generalizing node with
  | nil =>
    obtain rfl : node = node' := Except.ok.inj hrun
    exact ⟨h, le_rfl, fun sb hseen ↦ hseen.resolve_right List.not_mem_nil⟩
  | cons event events ih =>
    obtain ⟨next, hstep, hrest⟩ := Base.Runs.run_cons_eq_ok.mp hrun
    have hlater (sb : SignedBlockWithAttestation H) (hsb : .gossip sb ∈ events) : sb ∈ blocks :=
      hgossip sb (List.mem_cons_of_mem event hsb)
    cases hevent : event.isGossip with
    | true =>
      cases event with
      | gossip block =>
        obtain rfl := Except.ok.inj hstep
        obtain ⟨hend, hwork, hseen⟩ := ih (h.gossip (hgossip block List.mem_cons_self)) hlater hrest
        have hmore : work blocks { node with arriving := node.arriving ++ [block] } ≤
            work blocks node + 3 * blocks.length := work_gossip node block
        refine ⟨hend, ?_, fun sb hsb ↦ hseen sb ?_⟩
        · rw [List.countP_cons, List.countP_cons, Event.isGossip]
          simp only [Bool.not_true, Bool.false_eq_true, if_false, if_true, Nat.mul_add]
          omega
        · rcases hsb with hsb | hsb
          · exact .inl (hsb.imp_left (List.mem_append_left _))
          · rcases List.mem_cons.mp hsb with heq | hsb
            · rw [Event.gossip.inj heq]
              exact .inl (.inl (List.mem_append_right _ List.mem_cons_self))
            · exact .inr hsb
      | newBlock | fetchBlock _ | answer _ => exact nomatch hevent
    | false =>
      rcases h.advances hh hbody hs₀ hvalid hnodup hfew hturns hwire hevent with
        hnone | ⟨next', hok, hadvances⟩
      · exact nomatch hnone.symm.trans hstep
      · obtain rfl := Except.ok.inj (hstep.symm.trans hok)
        obtain ⟨hend, hwork, hseen⟩ := ih hadvances.following hlater hrest
        have hless := hadvances.work_lt
        refine ⟨hend, ?_, fun sb hsb ↦ hseen sb ?_⟩
        · rw [List.countP_cons, List.countP_cons, hevent]
          simp only [Bool.not_false, Bool.false_eq_true, if_false, if_true, Nat.add_zero]
          omega
        · rcases hsb with hsb | hsb
          · exact .inl (hadvances.seen sb hsb)
          · rcases List.mem_cons.mp hsb with heq | hsb
            · rw [← heq] at hevent
              exact nomatch hevent
            · exact .inr hsb

end Chain

theorem Following.waits_none (h : Following s₀ blocks peers node) (hidle : Idle node) (p c : H) :
    ¬Waits node.chain p c := by
  intro hw
  obtain ⟨m, -, hm | hm | ⟨x, hx, -⟩⟩ := h.coming p c hw
  · rw [hidle.wanted] at hm
    exact nomatch hm
  · obtain ⟨id, peer, request, hsent⟩ := h.served.exists_sent hm
    exact hidle.settled id peer request hsent
  · rw [hidle.arriving] at hx
    exact nomatch hx

theorem Following.state_of_seen (h : Following s₀ blocks peers node) (hs₀ : Fresh host s₀ anchor)
    (hidle : Idle node) {sb : SignedBlockWithAttestation H} (hseen : Seen node sb) :
    ∃ st, node.chain.store.states.lookup (host.block sb.message.block) = some st := by
  rcases hseen with hsb | hst | ⟨hdr, hhdr⟩
  · rw [hidle.arriving] at hsb
    exact nomatch hsb
  · exact hst
  · exact h.synced.state_of_header hs₀ (h.waits_none hidle) hhdr

/-- A chain that has just been spawned and told of its network. -/
def connected (host : Host H) (s₀ : Store H) (keys : Table UInt64 host.SecretKey)
    (isAggregator : Bool) (network : P2PServer P H) : Node P host where
  chain := { Server.spawn host s₀ keys isAggregator with p2p := true }
  network := network
  arriving := []
  wanted := []

theorem following_connected (hh : HashSound host) {st : State H} (hst : Anchor host st)
    {body : Option (BlockBody H)} (hinit : Store.initStore host st body = .ok s₀)
    (keys : Table UInt64 host.SecretKey) (isAggregator : Bool) {network : P2PServer P H}
    (hserved : Served host blocks peers network) :
    Following s₀ blocks peers (connected host s₀ keys isAggregator network) := by
  have h := synced_spawn hh hst hinit keys isAggregator blocks
  have ht := h.tracking
  have hr := h.recorded
  refine ⟨⟨⟨ht.headers, ht.loads, ht.waits, ht.anchor, ht.agrees, ht.closed, ht.ready⟩, h.backed,
    ⟨hr.children, hr.lists, hr.entries, hr.paths⟩, h.queued, h.held⟩, rfl, hserved, ?_, ?_, ?_⟩
  · exact fun sb hsb ↦ absurd hsb List.not_mem_nil
  · exact fun r hr ↦ absurd hr List.not_mem_nil
  · rintro p c ⟨l, hl, -⟩
    exact nomatch hl

variable {before : List (Network.Event P H)} {network : P2PServer P H}

/-- A network with peers and nothing to fetch. -/
theorem served_of_run {th : TreeHash H}
    (hbefore : Base.Runs.run (P2PServer.step th) P2PServer.spawn before = .ok network)
    (hblockchain : network.blockchain = true) (hopen : network.adapterOpen = true)
    (hconnected : network.connectedPeers ≠ []) (hidle : network.pendingRequests = ∅)
    (hserves : ∀ peer ∈ network.connectedPeers, ∀ sb ∈ blocks,
      (peers peer).getSignedBlock host (host.block sb.message.block) = some sb) :
    Served host blocks peers network := by
  have hasking := P2PServer.asking_run hbefore
  have hnone (r : H) : r ∉ network.pendingRequests := by
    rw [hidle]
    exact AList.notMem_empty r
  refine ⟨hasking, fun r hr ↦ absurd hr (hnone r), hblockchain, hopen, hconnected, hserves, ?_,
    fun id peer request hsent ↦ ?_, fun r hr ↦ absurd hr (hnone r)⟩
  · refine List.eq_nil_iff_forall_not_mem.mpr fun retry hretry ↦ ?_
    have hretries := hasking.retries_idle (P2PServer.attempts_eq_none.mpr (hnone retry.root))
    exact List.countP_eq_zero.mp hretries retry hretry (decide_eq_true rfl)
  · obtain ⟨root, -, hmap⟩ := hasking.tracked id peer request hsent
    exact absurd (hasking.pending_of_sent hsent hmap) (hnone root)

end Following

variable {s₀ : Store H} {blocks : List (SignedBlockWithAttestation H)} {node : Node P host}
  {peers : P → Store H} {wire : Wire H} {st : State H} {turns : ℕ}
  {before : List (Network.Event P H)} {network : P2PServer P H} {events : List (Event H)}

/-- A node whose peers have all the blocks and answer every request catches up with whatever is
gossiped, in every order of its events. No event fails, there is always one that can be handled as
long as anything is left to do, there are at most `3 * blocks.length` of them for each gossiped block,
and when nothing is left every gossiped block has been imported and none waits. -/
theorem catch_up (hh : HashSound host) (hbody : Function.Injective host.body)
    (hst : Anchor host st) {body : Option (BlockBody H)}
    (hinit : Store.initStore host st body = .ok s₀)
    (hvalid : ∀ sb ∈ blocks, Valid host s₀ blocks sb)
    (hnodup : (blocks.map fun sb ↦ host.block sb.message.block).Nodup)
    (hfew : blocks.length + 1 ≤ statesToKeep) (hturns : blocks.length < turns)
    (hwire : Carries host wire blocks)
    (hbefore : Base.Runs.run (P2PServer.step host.toTreeHash) P2PServer.spawn before = .ok network)
    (hblockchain : network.blockchain = true) (hopen : network.adapterOpen = true)
    (hconnected : network.connectedPeers ≠ []) (hnothing : network.pendingRequests = ∅)
    (hserves : ∀ peer ∈ network.connectedPeers, ∀ sb ∈ blocks,
      (peers peer).getSignedBlock host (host.block sb.message.block) = some sb)
    (keys : Table UInt64 host.SecretKey) (isAggregator : Bool)
    (hgossip : ∀ sb, .gossip sb ∈ events → sb ∈ blocks)
    (hrun : Base.Runs.run (step wire peers turns) (connected host s₀ keys isAggregator network)
      events = .ok node) :
    (∀ event, step wire peers turns node event ≠ .error .failed) ∧
    (¬Idle node → ∃ event node', event.isGossip = false ∧
      step wire peers turns node event = .ok node') ∧
    events.countP (fun event ↦ !event.isGossip) ≤
      3 * blocks.length * events.countP Event.isGossip ∧
    (Idle node → (∀ sb, .gossip sb ∈ events →
        ∃ st, node.chain.store.states.lookup (host.block sb.message.block) = some st) ∧
      node.chain.pendingBlocks = ∅ ∧ node.chain.pendingBlockParents = ∅) := by
  have hs₀ := fresh_initStore hh hst hinit
  have hserved := served_of_run hbefore hblockchain hopen hconnected hnothing hserves
  have hstart := following_connected hh hst hinit keys isAggregator hserved
  obtain ⟨h, hwork, hseen⟩ :=
    hstart.run hh hbody hs₀ hvalid hnodup hfew hturns hwire hgossip hrun
  refine ⟨fun event hfailed ↦ ?_, h.exists_step hh hbody hs₀ hvalid hnodup hfew hturns hwire, ?_,
    fun hidle ↦ ⟨fun sb hsb ↦ h.state_of_seen hs₀ hidle (hseen sb (.inr hsb)), ?_⟩⟩
  · cases hevent : event.isGossip with
    | true =>
      cases event with
      | gossip block => exact nomatch hfailed
      | newBlock | fetchBlock _ | answer _ => exact nomatch hevent
    | false =>
      have hadvances := h.advances hh hbody hs₀ hvalid hnodup hfew hturns hwire hevent
      rw [hfailed] at hadvances
      rcases hadvances with hnone | ⟨node', hok, -⟩
      · exact nomatch hnone
      · exact nomatch hok
  · have hzero : work blocks (connected host s₀ keys isAggregator network) = 0 := by
      unfold work connected
      dsimp only
      rw [hnothing]
      rfl
    omega
  · exact h.synced.recorded.eq_empty (h.waits_none hidle)

section Sample

/-- A peer that stores both sample blocks. -/
def samplePeer : Store ℕ :=
  (sampleStore.insertPendingBlock distinctHost (distinctHost.block sampleFirst.message.block)
    sampleFirst).insertPendingBlock distinctHost (distinctHost.block sampleLate.message.block)
    sampleLate

/-- The one peer of the sample network. -/
def samplePeers : ℕ → Store ℕ := fun _ ↦ samplePeer

/-- The network is joined to the chain and has one peer. -/
def sampleNetwork : P2PServer ℕ ℕ := { P2PServer.connected with blockchain := true }

/-- The child is gossiped; its parent is fetched. -/
def sampleEvents : List (Event ℕ) :=
  [.gossip sampleLate, .newBlock, .fetchBlock 0, .answer 2, .newBlock]

theorem samplePeer_serves : ∀ sb ∈ sampleChain,
    samplePeer.getSignedBlock distinctHost (distinctHost.block sb.message.block) = some sb := by
  have hne : distinctHost.block sampleFirst.message.block ≠
    distinctHost.block sampleLate.message.block := by decide +kernel
  intro sb hsb
  simp only [sampleChain, List.mem_cons, List.not_mem_nil, or_false] at hsb
  unfold samplePeer Store.insertPendingBlock
  rw [getSignedBlock_writeSignedBlock bodyCode_injective]
  rcases hsb with rfl | rfl
  · rw [if_neg hne, getSignedBlock_writeSignedBlock bodyCode_injective, if_pos rfl]
  · exact if_pos rfl

theorem sampleWire_single (blocks : List (SignedBlockWithAttestation ℕ)) {root : ℕ}
    (hroot : root < 256 ^ 32) {roots : RequestedBlockRoots ℕ} (hroots : roots.toList = [root]) :
    RequestEncodes (sampleWire blocks) (.blocksByRoot ⟨roots⟩) := by
  have hbytes : (sampleWire blocks).requestToSsz ⟨roots⟩ = littleEndian 32 root := by
    change roots.toList.flatMap (littleEndian 32) = _
    rw [hroots, List.flatMap_singleton]
  have hread : readRoots 1 (littleEndian 32 root) = [root] := by
    rw [readRoots, List.take_of_length_le (length_littleEndian 32 root).le,
      fromLittleEndian_littleEndian hroot, readRoots]
  have hnew : VariableList.new maxRequestBlocks [root] = some roots :=
    VariableList.new_eq_some.mpr hroots
  rw [RequestEncodes, hbytes]
  refine ⟨?_, ?_, ?_⟩
  · dsimp only [sampleWire]
    rw [length_littleEndian, Nat.div_self (by decide), hread, hnew]
    rfl
  · refine List.ne_nil_of_length_pos ?_
    rw [length_littleEndian]
    decide
  · rw [length_littleEndian]
    decide

theorem sampleChain_carries : Carries distinctHost (sampleWire sampleChain) sampleChain where
  framing := sampleWire_framing sampleChain
  request sb hsb roots hroots := by
    refine sampleWire_single sampleChain ?_ hroots
    simp only [sampleChain, List.mem_cons, List.not_mem_nil, or_false] at hsb
    rcases hsb with rfl | rfl
    · decide +kernel
    · decide +kernel
  response sb hsb := by
    refine sampleWire_encodes hsb ?_
    simp only [sampleChain, List.mem_cons, List.not_mem_nil, or_false] at hsb
    rcases hsb with rfl | rfl
    · decide +kernel
    · decide +kernel

/-- The sample node is told of the child only, fetches the parent and imports both. -/
theorem catch_up_sample : ∃ node : Node ℕ distinctHost,
    Base.Runs.run (step (sampleWire sampleChain) samplePeers 3)
      (connected distinctHost sampleStore ∅ false sampleNetwork) sampleEvents = .ok node ∧
    Idle node ∧
    (∀ event, step (sampleWire sampleChain) samplePeers 3 node event ≠ .error .failed) ∧
    (∃ st, node.chain.store.states.lookup (distinctHost.block sampleLate.message.block) = some st) ∧
    node.chain.pendingBlocks = ∅ := by
  obtain ⟨node, hrun, hview⟩ := Exec.exists_ok_of_map
    (x := Base.Runs.run (step (sampleWire sampleChain) samplePeers 3)
      (connected distinctHost sampleStore ∅ false sampleNetwork) sampleEvents)
    (f := fun n ↦ (n.arriving.length, n.wanted,
      (Table.pairs n.network.outstanding).all fun e ↦ !e.2.2.isBlocksByRoot))
    (b := (0, [], true)) (by decide +kernel)
  obtain ⟨harriving, hview⟩ := Prod.mk.inj hview
  obtain ⟨hwanted, hsettled⟩ := Prod.mk.inj hview
  have hidle : Idle node := by
    refine ⟨List.length_eq_zero_iff.mp harriving, hwanted, fun id peer request hsent ↦ ?_⟩
    have hnot := List.all_eq_true.mp hsettled _ (Table.mem_pairs.mpr hsent)
    exact nomatch hnot
  have hbefore : Base.Runs.run (P2PServer.step distinctHost.toTreeHash) P2PServer.spawn
      (sampleFetch.take 2) = .ok sampleNetwork := rfl
  have hgossip (sb : SignedBlockWithAttestation ℕ) (hsb : .gossip sb ∈ sampleEvents) :
      sb ∈ sampleChain := by
    rcases List.mem_cons.mp hsb with heq | hsb
    · rw [Event.gossip.inj heq]
      exact List.mem_cons_of_mem _ List.mem_cons_self
    · simp at hsb
  obtain ⟨hfails, -, -, hend⟩ := catch_up distinctHost_hashSound bodyCode_injective
    distinctHost_anchor distinctHost_initStore sampleChain_valid (by decide +kernel) (by decide)
    (by decide) sampleChain_carries hbefore rfl rfl (by decide) rfl
    (fun _ _ ↦ samplePeer_serves) ∅ false hgossip hrun
  obtain ⟨hstates, hpending, -⟩ := hend hidle
  exact ⟨node, hrun, hidle, hfails, hstates _ List.mem_cons_self, hpending⟩

end Sample

end Node

end Ethlambda.Network
