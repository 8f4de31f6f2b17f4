import Ethlambda.Network.Budget

namespace Ethlambda.Network

open Ethlambda.Base Ethlambda.Types

set_option linter.unusedSectionVars false

/-- Where a peer is reached. -/
structure Multiaddr (P A : Type) where
  addr : A
  peer : P

/-- What the swarm reports of its connections. -/
inductive SwarmEvent (P : Type)
  | connectionEstablished (peer : P) (numEstablished : ℕ)
  | connectionClosed (peer : P) (numEstablished : ℕ)
  | outgoingConnectionError (peer : Option P)

/-- The network actor with its bootnodes, the timers that run for them, and the dials that the swarm
adapter has not taken up. -/
structure Dialer (P H A : Type) where
  server : P2PServer P H
  bootnodeAddrs : Table P (Multiaddr P A)
  redials : List P
  commands : List (Multiaddr P A)

variable {P H A : Type} [DecidableEq P] [DecidableEq H]

namespace Dialer

def scheduleRedial (dialer : Dialer P H A) (peer : P) : Dialer P H A :=
  { dialer with redials := dialer.redials ++ [peer] }

def handleSwarmEvent (ourStatus : Status H) (dialer : Dialer P H A) : SwarmEvent P → Dialer P H A
  | .connectionEstablished peer numEstablished =>
    { dialer with
      server := dialer.server.handleConnectionEstablished peer numEstablished ourStatus }
  | .connectionClosed peer numEstablished =>
    let dialer := { dialer with server := dialer.server.handleConnectionClosed peer numEstablished }
    if numEstablished = 0 ∧ peer ∈ dialer.bootnodeAddrs then dialer.scheduleRedial peer else dialer
  | .outgoingConnectionError none => dialer
  | .outgoingConnectionError (some peer) =>
    if peer ∈ dialer.bootnodeAddrs ∧ peer ∉ dialer.server.connectedPeers then
      dialer.scheduleRedial peer
    else dialer

def handleRetryPeerRedial (dialer : Dialer P H A) (peer : P) : Dialer P H A :=
  if peer ∈ dialer.server.connectedPeers then dialer
  else match dialer.bootnodeAddrs.lookup peer with
    | none => dialer
    | some addr =>
      if dialer.server.adapterOpen then { dialer with commands := dialer.commands ++ [addr] }
      else dialer

end Dialer

/-- The network actor and the swarm: an entry for each connection and for each dial under way, and
the reports that the actor has not taken up. -/
structure Links (P H A : Type) extends Dialer P H A where
  established : List P
  dialing : List P
  events : List (SwarmEvent P)

namespace Links

/-- What can happen next. -/
inductive Move (P H : Type)
  | execute (refused : Bool)
  | dialed (peer : P)
  | undialed (peer : P)
  | accepted (peer : P)
  | closed (peer : P)
  | handle (ourStatus : Status H)
  | retryPeerRedial (peer : P)
  | other (event : Event P H)

/-- Why it cannot: there is no such command, connection, report or timer. -/
inductive Disabled
  | command
  | peer
  | event
  | timer
deriving DecidableEq

def report (links : Links P H A) (event : SwarmEvent P) : Links P H A :=
  { links with events := links.events ++ [event] }

def establish (links : Links P H A) (peer : P) : Links P H A :=
  { links with
    established := links.established ++ [peer]
    events := links.events ++
      [.connectionEstablished peer (links.established.count peer + 1)] }

/-- The events of the actor that do not come from the swarm's connections. -/
def isOther : Event P H → Bool
  | .connectionEstablished _ _ _ | .connectionClosed _ _ => false
  | .initBlockChain | .fetchBlock _ _ | .retryBlockFetch _ _ | .response _ _ | .outboundFailure _
  | .adapterClosed => true

/-- One move. The swarm refuses a dial only while it is connected to the peer or dials it. -/
def step (th : TreeHash H) (links : Links P H A) : Move P H → Except Disabled (Links P H A)
  | .execute refused => match links.commands with
    | [] => .error .command
    | addr :: commands =>
      let links := { links with commands := commands }
      if refused then
        if addr.peer ∈ links.established ∨ addr.peer ∈ links.dialing then .ok links
        else .error .peer
      else .ok { links with dialing := links.dialing ++ [addr.peer] }
  | .dialed peer =>
    if peer ∈ links.dialing then
      .ok ({ links with dialing := links.dialing.erase peer }.establish peer)
    else .error .peer
  | .undialed peer =>
    if peer ∈ links.dialing then
      .ok ({ links with dialing := links.dialing.erase peer }.report
        (.outgoingConnectionError (some peer)))
    else .error .peer
  | .accepted peer => .ok (links.establish peer)
  | .closed peer =>
    if peer ∈ links.established then
      .ok ({ links with established := links.established.erase peer }.report
        (.connectionClosed peer (links.established.count peer - 1)))
    else .error .peer
  | .handle ourStatus => match links.events with
    | [] => .error .event
    | event :: events =>
      .ok { links with
        toDialer := links.toDialer.handleSwarmEvent ourStatus event
        events := events }
  | .retryPeerRedial peer =>
    if peer ∈ links.redials then
      .ok { links with
        toDialer :=
          Dialer.handleRetryPeerRedial { links.toDialer with redials := links.redials.erase peer } peer }
    else .error .timer
  | .other event =>
    if isOther event then match P2PServer.step th links.server event with
      | .error _ => .error .event
      | .ok server => .ok { links with server := server }
    else .error .event

def addBootnode (localPeer : P) (links : Links P H A) (bootnode : Multiaddr P A) : Links P H A :=
  if bootnode.peer = localPeer then links
  else
    { links with
      bootnodeAddrs := links.bootnodeAddrs.insert bootnode.peer bootnode
      dialing := links.dialing ++ [bootnode.peer] }

/-- The network as it is built: every bootnode but the node itself is dialed. -/
def build (localPeer : P) (bootnodes : List (Multiaddr P A)) : Links P H A :=
  bootnodes.foldl (addBootnode localPeer)
    { server := .spawn, bootnodeAddrs := ∅, redials := [], commands := [], established := [],
      dialing := [], events := [] }

section Noted

/-- Whether the actor counts a peer as connected once it has taken up a report. -/
def noted (p : P) (connected : Bool) : SwarmEvent P → Bool
  | .connectionEstablished peer numEstablished =>
    connected || (decide (peer = p) && decide (numEstablished = 1))
  | .connectionClosed peer numEstablished =>
    connected && !(decide (peer = p) && decide (numEstablished = 0))
  | .outgoingConnectionError _ => connected

/-- A report after which the actor counts a peer as connected, or sets a timer for it if it is a
bootnode and not connected. -/
def Renews (p : P) : SwarmEvent P → Prop
  | .connectionEstablished peer numEstablished => peer = p ∧ numEstablished = 1
  | .connectionClosed peer numEstablished => peer = p ∧ numEstablished = 0
  | .outgoingConnectionError peer => peer = some p

variable {p peer : P} {links links' : Links P H A} {established : List P}

theorem noted_established (p peer : P) (established : List P) :
    noted p (decide (p ∈ established))
        (.connectionEstablished peer (established.count peer + 1)) =
      decide (p ∈ established ++ [peer]) := by
  by_cases hp : p ∈ established
  · simp [noted, hp]
  · by_cases heq : peer = p
    · subst heq
      simp [noted, List.count_eq_zero_of_not_mem hp]
    · have hne : p ≠ peer := fun h ↦ heq h.symm
      simp [noted, hp, heq, hne]

theorem noted_closed (h : peer ∈ established) (p : P) :
    noted p (decide (p ∈ established)) (.connectionClosed peer (established.count peer - 1)) =
      decide (p ∈ established.erase peer) := by
  by_cases heq : peer = p
  · subst heq
    have hcount := List.count_erase_self (a := peer) (l := established)
    have hmem : peer ∈ established.erase peer ↔ established.count peer - 1 ≠ 0 := by
      rw [← hcount, ← List.count_pos_iff, Nat.pos_iff_ne_zero]
    simp [noted, h, hmem]
  · have hne : p ≠ peer := fun h ↦ heq h.symm
    simp [noted, heq, List.mem_erase_of_ne hne]

/-- A peer that the actor will count as connected is so already, or it will be told. -/
theorem exists_renews {events : List (SwarmEvent P)} {connected : Bool}
    (h : events.foldl (noted p) connected = true) :
    connected = true ∨ ∃ event ∈ events, Renews p event := by
  induction events generalizing connected with
  | nil => exact .inl h
  | cons event events ih =>
    rcases ih h with hnoted | ⟨later, hlater, hrenews⟩
    · cases event with
      | connectionEstablished peer numEstablished =>
        rcases (Bool.or_eq_true _ _).mp hnoted with hconnected | hfirst
        · exact .inl hconnected
        · obtain ⟨hpeer, hnum⟩ := (Bool.and_eq_true _ _).mp hfirst
          exact .inr ⟨_, List.mem_cons_self, of_decide_eq_true hpeer, of_decide_eq_true hnum⟩
      | connectionClosed peer numEstablished =>
        exact .inl ((Bool.and_eq_true _ _).mp hnoted).1
      | outgoingConnectionError peer => exact .inl hnoted
    · exact .inr ⟨later, List.mem_cons_of_mem event hlater, hrenews⟩

end Noted

section Kept

variable {links links' : Links P H A} {p peer : P} {th : TreeHash H} {localPeer : P}

/-- A timer runs for a peer, or it is dialed. -/
def Sought (links : Links P H A) (p : P) : Prop :=
  p ∈ links.redials ∨ (∃ addr ∈ links.commands, addr.peer = p) ∨ p ∈ links.dialing

/-- A peer is connected, is sought, or will be one of these once the reports are taken up. -/
def Pursued (links : Links P H A) (p : P) : Prop :=
  p ∈ links.server.connectedPeers ∨ Sought links p ∨ ∃ event ∈ links.events, Renews p event

/-- What holds of the network as long as it runs. -/
structure Kept (links : Links P H A) : Prop where
  nodup : links.server.connectedPeers.Nodup
  current : ∀ p, links.events.foldl (noted p) (decide (p ∈ links.server.connectedPeers)) =
    decide (p ∈ links.established)
  addrs : ∀ p addr, links.bootnodeAddrs.lookup p = some addr → addr.peer = p
  targets : ∀ p, Sought links p → p ∈ links.bootnodeAddrs
  pursued : links.server.adapterOpen = true → ∀ p ∈ links.bootnodeAddrs, Pursued links p

theorem Kept.pursued_of_established (h : Kept links) (hp : p ∈ links.established) :
    p ∈ links.server.connectedPeers ∨ ∃ event ∈ links.events, Renews p event :=
  (exists_renews ((h.current p).trans (decide_eq_true hp))).imp_left of_decide_eq_true

section Handle

variable {dialer : Dialer P H A} {event : SwarmEvent P} {ourStatus : Status H}

theorem connectedPeers_established (server : P2PServer P H) (peer : P) (numEstablished : ℕ)
    (ourStatus : Status H) :
    (server.handleConnectionEstablished peer numEstablished ourStatus).connectedPeers =
      (if numEstablished = 1 then server.connectedPeers.insert peer else server.connectedPeers) ∧
    (server.handleConnectionEstablished peer numEstablished ourStatus).adapterOpen =
      server.adapterOpen := by
  unfold P2PServer.handleConnectionEstablished
  split
  · rw [P2PServer.sendRequest]
    split
    · exact ⟨rfl, rfl⟩
    · exact ⟨rfl, rfl⟩
  · exact ⟨rfl, rfl⟩

theorem connectedPeers_closed (server : P2PServer P H) (peer : P) (numEstablished : ℕ) :
    (server.handleConnectionClosed peer numEstablished).connectedPeers =
      (if numEstablished = 0 then server.connectedPeers.erase peer else server.connectedPeers) ∧
    (server.handleConnectionClosed peer numEstablished).adapterOpen = server.adapterOpen := by
  unfold P2PServer.handleConnectionClosed
  split
  · exact ⟨rfl, rfl⟩
  · exact ⟨rfl, rfl⟩

/-- What the actor makes of a report. -/
structure Handled (dialer : Dialer P H A) (event : SwarmEvent P) (dialer' : Dialer P H A) : Prop where
  nodup : dialer'.server.connectedPeers.Nodup
  noted : ∀ p, decide (p ∈ dialer'.server.connectedPeers) =
    noted p (decide (p ∈ dialer.server.connectedPeers)) event
  adapterOpen : dialer'.server.adapterOpen = dialer.server.adapterOpen
  bootnodeAddrs : dialer'.bootnodeAddrs = dialer.bootnodeAddrs
  commands : dialer'.commands = dialer.commands
  redials : dialer'.redials = dialer.redials ∨
    ∃ p ∈ dialer.bootnodeAddrs, dialer'.redials = dialer.redials ++ [p]
  renewed : ∀ p ∈ dialer.bootnodeAddrs, p ∈ dialer.server.connectedPeers ∨ Renews p event →
    p ∈ dialer'.server.connectedPeers ∨ p ∈ dialer'.redials

theorem handled_established (h : dialer.server.connectedPeers.Nodup) (peer : P)
    (numEstablished : ℕ) (ourStatus : Status H) :
    Handled dialer (.connectionEstablished peer numEstablished)
      (dialer.handleSwarmEvent ourStatus (.connectionEstablished peer numEstablished)) := by
  obtain ⟨hpeers, hopen⟩ :=
    connectedPeers_established dialer.server peer numEstablished ourStatus
  have hmem (p : P) : p ∈ (dialer.server.handleConnectionEstablished peer numEstablished
      ourStatus).connectedPeers ↔
      p ∈ dialer.server.connectedPeers ∨ peer = p ∧ numEstablished = 1 := by
    rw [hpeers]
    split
    · rename_i hone
      rw [List.mem_insert_iff]
      exact ⟨fun h ↦ h.elim (fun heq ↦ .inr ⟨heq.symm, hone⟩) .inl,
        fun h ↦ h.elim .inr fun heq ↦ .inl heq.1.symm⟩
    · rename_i hone
      exact ⟨.inl, fun h ↦ h.resolve_right fun heq ↦ hone heq.2⟩
  refine ⟨?_, fun p ↦ ?_, hopen, rfl, rfl, .inl rfl, fun p _ hp ↦ .inl ((hmem p).mpr hp)⟩
  · change (dialer.server.handleConnectionEstablished peer numEstablished
      ourStatus).connectedPeers.Nodup
    rw [hpeers]
    split
    · exact h.insert
    · exact h
  · refine (Bool.decide_congr (hmem p)).trans ?_
    simp [Links.noted]

theorem handled_closed (h : dialer.server.connectedPeers.Nodup) (peer : P)
    (numEstablished : ℕ) (ourStatus : Status H) :
    Handled dialer (.connectionClosed peer numEstablished)
      (dialer.handleSwarmEvent ourStatus (.connectionClosed peer numEstablished)) := by
  obtain ⟨hpeers, hopen⟩ := connectedPeers_closed dialer.server peer numEstablished
  have hmem (p : P) : p ∈ (dialer.server.handleConnectionClosed peer numEstablished).connectedPeers ↔
      p ∈ dialer.server.connectedPeers ∧ ¬(peer = p ∧ numEstablished = 0) := by
    rw [hpeers]
    split
    · rename_i hzero
      rw [h.mem_erase_iff]
      exact ⟨fun hp ↦ ⟨hp.2, fun heq ↦ hp.1 heq.1.symm⟩, fun hp ↦ ⟨fun heq ↦ hp.2 ⟨heq.symm, hzero⟩, hp.1⟩⟩
    · rename_i hzero
      exact ⟨fun hp ↦ ⟨hp, fun heq ↦ hzero heq.2⟩, And.left⟩
  have hnodup : (dialer.server.handleConnectionClosed peer numEstablished).connectedPeers.Nodup := by
    rw [hpeers]
    split
    · exact h.erase peer
    · exact h
  have hnoted (p : P) : decide (p ∈ (dialer.server.handleConnectionClosed peer
      numEstablished).connectedPeers) =
      Links.noted p (decide (p ∈ dialer.server.connectedPeers))
        (.connectionClosed peer numEstablished) := by
    refine (Bool.decide_congr (hmem p)).trans ?_
    simp [Links.noted]
  rw [Dialer.handleSwarmEvent]
  dsimp only
  split
  · rename_i hredial
    refine ⟨hnodup, hnoted, hopen, rfl, rfl, .inr ⟨peer, hredial.2, rfl⟩, fun p _ hp ↦ ?_⟩
    by_cases heq : peer = p
    · exact .inr (List.mem_append_right _ (List.mem_singleton.mpr heq.symm))
    · exact .inl ((hmem p).mpr ⟨hp.resolve_right fun h ↦ heq h.1, fun h ↦ heq h.1⟩)
  · rename_i hno
    refine ⟨hnodup, hnoted, hopen, rfl, rfl, .inl rfl, fun p hboot hp ↦ .inl ((hmem p).mpr ?_)⟩
    have hnot : ¬(peer = p ∧ numEstablished = 0) := by
      rintro ⟨rfl, hzero⟩
      exact hno ⟨hzero, hboot⟩
    exact ⟨hp.resolve_right hnot, hnot⟩

theorem handled_swarmEvent (h : dialer.server.connectedPeers.Nodup) (ourStatus : Status H)
    (event : SwarmEvent P) : Handled dialer event (dialer.handleSwarmEvent ourStatus event) := by
  cases event with
  | connectionEstablished peer numEstablished =>
    exact handled_established h peer numEstablished ourStatus
  | connectionClosed peer numEstablished => exact handled_closed h peer numEstablished ourStatus
  | outgoingConnectionError peer =>
    cases peer with
    | none =>
      exact ⟨h, fun _ ↦ rfl, rfl, rfl, rfl, .inl rfl, fun p _ hp ↦ .inl (hp.resolve_right nofun)⟩
    | some peer =>
      rw [Dialer.handleSwarmEvent]
      split
      · rename_i hredial
        refine ⟨h, fun _ ↦ rfl, rfl, rfl, rfl, .inr ⟨peer, hredial.1, rfl⟩, fun p _ hp ↦ ?_⟩
        rcases hp with hp | hp
        · exact .inl hp
        · obtain rfl := Option.some.inj hp
          exact .inr (List.mem_append_right _ List.mem_cons_self)
      · rename_i hno
        refine ⟨h, fun _ ↦ rfl, rfl, rfl, rfl, .inl rfl, fun p hboot hp ↦ .inl ?_⟩
        rcases hp with hp | hp
        · exact hp
        · obtain rfl := Option.some.inj hp
          exact not_not.mp fun hpeers ↦ hno ⟨hboot, hpeers⟩

end Handle

section Other

variable {server server' : P2PServer P H} {event : Event P H}

/-- The part of the actor's state that only connections and the adapter change. -/
structure SamePeers (server server' : P2PServer P H) : Prop where
  connectedPeers : server'.connectedPeers = server.connectedPeers
  adapterOpen : server'.adapterOpen = true → server.adapterOpen = true

theorem SamePeers.of_sameFetches (h : P2PServer.SameFetches server server') :
    SamePeers server server' := ⟨h.connectedPeers, fun hopen ↦ h.adapterOpen ▸ hopen⟩

theorem ask_samePeers (server : P2PServer P H) (peer : P) (roots : RequestedBlockRoots H) (root : H) :
    SamePeers server (server.ask peer roots root) := ⟨rfl, id⟩

theorem SamePeers.trans {server'' : P2PServer P H} (h : SamePeers server server')
    (h' : SamePeers server' server'') : SamePeers server server'' :=
  ⟨h'.connectedPeers.trans h.connectedPeers, fun hopen ↦ h.adapterOpen (h'.adapterOpen hopen)⟩

theorem fetchBlockFromPeer_samePeers (pick : ℕ) (server : P2PServer P H) (root : H) :
    SamePeers server (P2PServer.fetchBlockFromPeer pick server root).2 := by
  obtain ⟨base, hbase, heq | ⟨peer, -, roots, -, heq⟩⟩ :=
    P2PServer.fetchBlockFromPeer_eq pick server root
  · rw [heq]
    exact .of_sameFetches hbase
  · rw [heq]
    exact (SamePeers.of_sameFetches hbase).trans (ask_samePeers base peer roots root)

theorem handleFetchFailure_samePeers (server : P2PServer P H) (root : H) (peer : P) :
    SamePeers server (server.handleFetchFailure root peer) := by
  rcases P2PServer.handleFetchFailure_cases server root peer with
    ⟨-, heq⟩ | ⟨n, -, -, heq⟩ | ⟨n, failed, -, -, heq⟩
  · rw [heq]
    exact ⟨rfl, id⟩
  · rw [heq]
    exact ⟨rfl, id⟩
  · rw [heq]
    exact ⟨rfl, id⟩

theorem receiveBlocks_samePeers (th : TreeHash H) (root : H) (server : P2PServer P H)
    (blocks : List (SignedBlockWithAttestation H)) :
    SamePeers server (blocks.foldl (P2PServer.receiveBlock th root) server) := by
  induction blocks generalizing server with
  | nil => exact ⟨rfl, id⟩
  | cons block blocks ih =>
    rw [List.foldl_cons]
    refine SamePeers.trans ?_ (ih _)
    unfold P2PServer.receiveBlock
    split
    · exact ⟨rfl, id⟩
    · exact ⟨rfl, id⟩

theorem handleResponse_samePeers (th : TreeHash H) (server : P2PServer P H) (peer : P)
    (requestId : ℕ) (response : Response H) :
    SamePeers server (P2PServer.handleResponse th server peer requestId response) := by
  cases response with
  | error code message => exact ⟨rfl, id⟩
  | success payload =>
    cases payload with
    | status status => exact ⟨rfl, id⟩
    | blocksByRoot blocks =>
      rw [P2PServer.handleResponse, P2PServer.handleBlocksByRootResponse]
      cases server.requestIdMap.lookup requestId with
      | none => exact ⟨rfl, id⟩
      | some root =>
        dsimp only
        split
        · have h := handleFetchFailure_samePeers { server with
            requestIdMap := (server.requestIdMap.erase requestId).insert requestId root } root peer
          exact ⟨h.connectedPeers, h.adapterOpen⟩
        · have h := receiveBlocks_samePeers th root { server with
            requestIdMap := server.requestIdMap.erase requestId } blocks
          exact ⟨h.connectedPeers, h.adapterOpen⟩

theorem handleRetryBlockFetch_samePeers (pick : ℕ) (server : P2PServer P H) (root : H) :
    SamePeers server (P2PServer.handleRetryBlockFetch pick server root) := by
  have h := fetchBlockFromPeer_samePeers pick server root
  unfold P2PServer.handleRetryBlockFetch
  split
  · exact ⟨rfl, id⟩
  · revert h
    cases P2PServer.fetchBlockFromPeer pick server root with
    | mk asked next =>
      intro h
      cases asked with
      | true => exact h
      | false => exact ⟨h.connectedPeers, h.adapterOpen⟩

theorem step_samePeers (hother : isOther event = true)
    (hstep : P2PServer.step th server event = .ok server') : SamePeers server server' := by
  cases P2PServer.step_cases hstep with
  | initBlockChain => exact ⟨rfl, id⟩
  | adapterClosed => exact ⟨rfl, nofun⟩
  | fetchBlock root pick =>
    unfold P2PServer.handleFetchBlock
    split
    · exact ⟨rfl, id⟩
    · exact fetchBlockFromPeer_samePeers pick server root
  | @retryBlockFetch retry pick hmem =>
    have h := handleRetryBlockFetch_samePeers pick (server.fire retry) retry.root
    exact ⟨h.connectedPeers, h.adapterOpen⟩
  | @response requestId peer request response hsent hprotocol =>
    have h := handleResponse_samePeers th { server with
      outstanding := server.outstanding.erase requestId } peer requestId response
    exact ⟨h.connectedPeers, h.adapterOpen⟩
  | @outboundFailure requestId peer request hsent =>
    unfold P2PServer.handleOutboundFailure
    dsimp only
    cases server.requestIdMap.lookup requestId with
    | none => exact ⟨rfl, id⟩
    | some root =>
      have h := handleFetchFailure_samePeers { server with
        outstanding := server.outstanding.erase requestId
        requestIdMap := server.requestIdMap.erase requestId } root peer
      exact ⟨h.connectedPeers, h.adapterOpen⟩
  | connectionEstablished | connectionClosed => exact absurd hother Bool.false_ne_true

end Other

theorem Pursued.imp (h : Pursued links p)
    (hconnected : p ∈ links.server.connectedPeers → Pursued links' p)
    (hsought : Sought links p → Pursued links' p)
    (hrenews : ∀ event ∈ links.events, Renews p event → Pursued links' p) : Pursued links' p := by
  rcases h with hp | hp | ⟨event, hevent, hp⟩
  · exact hconnected hp
  · exact hsought hp
  · exact hrenews event hevent hp

theorem Kept.execute (h : Kept links) {addr : Multiaddr P A} {commands : List (Multiaddr P A)}
    (hcommands : links.commands = addr :: commands) :
    (addr.peer ∈ links.established ∨ addr.peer ∈ links.dialing →
      Kept { links with commands := commands }) ∧
    Kept { links with commands := commands, dialing := links.dialing ++ [addr.peer] } := by
  have htarget : addr.peer ∈ links.bootnodeAddrs :=
    h.targets _ (.inr (.inl ⟨addr, hcommands ▸ List.mem_cons_self, rfl⟩))
  have hcommand {p : P} (hp : ∃ a ∈ links.commands, a.peer = p) :
      addr.peer = p ∨ ∃ a ∈ commands, a.peer = p := by
    obtain ⟨a, ha, rfl⟩ := hp
    rw [hcommands] at ha
    rcases List.mem_cons.mp ha with rfl | ha
    · exact .inl rfl
    · exact .inr ⟨a, ha, rfl⟩
  have holder {p : P} (hp : ∃ a ∈ commands, a.peer = p) : ∃ a ∈ links.commands, a.peer = p := by
    obtain ⟨a, ha, rfl⟩ := hp
    exact ⟨a, hcommands ▸ List.mem_cons_of_mem addr ha, rfl⟩
  refine ⟨fun hrefused ↦ ⟨h.nodup, h.current, h.addrs, fun p hp ↦ ?_, fun hopen p hp ↦ ?_⟩,
    ⟨h.nodup, h.current, h.addrs, fun p hp ↦ ?_, fun hopen p hp ↦ ?_⟩⟩
  · exact h.targets p (hp.imp_right (Or.imp_left holder))
  · refine (h.pursued hopen p hp).imp .inl ?_ fun event hevent hrenews ↦ .inr (.inr ⟨event, hevent, hrenews⟩)
    rintro (hp | hp | hp)
    · exact .inr (.inl (.inl hp))
    · rcases hcommand hp with rfl | hp
      · -- the refused dial is to a peer that is connected or dialed already
        rcases hrefused with hestablished | hdialing
        · exact (h.pursued_of_established hestablished).imp_right .inr
        · exact .inr (.inl (.inr (.inr hdialing)))
      · exact .inr (.inl (.inr (.inl hp)))
    · exact .inr (.inl (.inr (.inr hp)))
  · rcases hp with hp | hp | hp
    · exact h.targets p (.inl hp)
    · exact h.targets p (.inr (.inl (holder hp)))
    · rcases List.mem_append.mp hp with hp | hp
      · exact h.targets p (.inr (.inr hp))
      · obtain rfl := List.mem_singleton.mp hp
        exact htarget
  · refine (h.pursued hopen p hp).imp .inl ?_ fun event hevent hrenews ↦ .inr (.inr ⟨event, hevent, hrenews⟩)
    rintro (hp | hp | hp)
    · exact .inr (.inl (.inl hp))
    · rcases hcommand hp with rfl | hp
      · exact .inr (.inl (.inr (.inr (List.mem_append_right _ List.mem_cons_self))))
      · exact .inr (.inl (.inr (.inl hp)))
    · exact .inr (.inl (.inr (.inr (List.mem_append_left _ hp))))

theorem current_report (h : Kept links) (event : SwarmEvent P) {established : List P}
    (hnoted : ∀ p, noted p (decide (p ∈ links.established)) event = decide (p ∈ established)) (p : P) :
    (links.events ++ [event]).foldl (noted p) (decide (p ∈ links.server.connectedPeers)) =
      decide (p ∈ established) := by
  rw [List.foldl_append, h.current, List.foldl_cons, List.foldl_nil, hnoted]

theorem Kept.accepted (h : Kept links) (peer : P) : Kept (links.establish peer) := by
  refine ⟨h.nodup, current_report h _ fun p ↦ noted_established p peer links.established, h.addrs,
    h.targets, fun hopen p hp ↦ ?_⟩
  refine (h.pursued hopen p hp).imp .inl (fun hsought ↦ .inr (.inl hsought))
    fun event hevent hrenews ↦ .inr (.inr ⟨event, List.mem_append_left _ hevent, hrenews⟩)

/-- A dial ends one way or the other; either way something follows for a bootnode. -/
theorem Kept.undial (h : Kept links) (peer : P) {links' : Links P H A}
    (hlinks' : Kept { links' with dialing := links.dialing }) (hdialer : links'.toDialer = links.toDialer)
    (hevents : ∀ event ∈ links.events, event ∈ links'.events)
    (hpeer : peer ∈ links.server.connectedPeers ∨ ∃ event ∈ links'.events, Renews peer event)
    (hdialing : links'.dialing = links.dialing.erase peer) : Kept links' := by
  refine ⟨hlinks'.nodup, hlinks'.current, hlinks'.addrs, fun p hp ↦ ?_, fun hopen p hp ↦ ?_⟩
  · refine hlinks'.targets p (hp.imp_right (Or.imp_right fun hp ↦ ?_))
    rw [hdialing] at hp
    exact List.mem_of_mem_erase hp
  · have hpeers : links'.server.connectedPeers = links.server.connectedPeers :=
      congrArg (fun d ↦ d.server.connectedPeers) hdialer
    have hredials : links'.redials = links.redials := congrArg Dialer.redials hdialer
    have hcommands : links'.commands = links.commands := congrArg Dialer.commands hdialer
    have hold := h.pursued (congrArg (fun d ↦ d.server.adapterOpen) hdialer ▸ hopen) p
      (congrArg Dialer.bootnodeAddrs hdialer ▸ hp)
    refine hold.imp (fun hp ↦ .inl (hpeers ▸ hp)) ?_
      fun event hevent hrenews ↦ .inr (.inr ⟨event, hevents event hevent, hrenews⟩)
    rintro (hp | hp | hp)
    · exact .inr (.inl (.inl (hredials ▸ hp)))
    · exact .inr (.inl (.inr (.inl (hcommands ▸ hp))))
    · by_cases heq : p = peer
      · rw [heq]
        rcases hpeer with hpeer | hpeer
        · exact .inl (hpeers ▸ hpeer)
        · exact .inr (.inr hpeer)
      · refine .inr (.inl (.inr (.inr ?_)))
        rw [hdialing]
        exact (List.mem_erase_of_ne heq).mpr hp

theorem Kept.dialed (h : Kept links) (peer : P) :
    Kept ({ links with dialing := links.dialing.erase peer }.establish peer) := by
  refine h.undial peer (h.accepted peer) rfl (fun event hevent ↦ List.mem_append_left _ hevent) ?_ rfl
  by_cases hestablished : peer ∈ links.established
  · rcases h.pursued_of_established hestablished with hpeer | ⟨event, hevent, hrenews⟩
    · exact .inl hpeer
    · exact .inr ⟨event, List.mem_append_left _ hevent, hrenews⟩
  · refine .inr ⟨_, List.mem_append_right _ List.mem_cons_self, rfl, ?_⟩
    rw [List.count_eq_zero_of_not_mem hestablished]

theorem Kept.report (h : Kept links) (event : SwarmEvent P) {established : List P}
    (hnoted : ∀ p, noted p (decide (p ∈ links.established)) event = decide (p ∈ established)) :
    Kept ({ links with established := established }.report event) := by
  refine ⟨h.nodup, current_report h _ hnoted, h.addrs, h.targets, fun hopen p hp ↦ ?_⟩
  refine (h.pursued hopen p hp).imp .inl (fun hsought ↦ .inr (.inl hsought))
    fun e he hrenews ↦ .inr (.inr ⟨e, List.mem_append_left _ he, hrenews⟩)

theorem Kept.undialed (h : Kept links) (peer : P) :
    Kept ({ links with dialing := links.dialing.erase peer }.report
      (.outgoingConnectionError (some peer))) := by
  refine h.undial peer (h.report (.outgoingConnectionError (some peer)) fun _ ↦ rfl) rfl
    (fun event hevent ↦ List.mem_append_left _ hevent) ?_ rfl
  exact .inr ⟨_, List.mem_append_right _ List.mem_cons_self, rfl⟩

theorem Kept.handle (h : Kept links) {event : SwarmEvent P} {events : List (SwarmEvent P)}
    (hevents : links.events = event :: events) (ourStatus : Status H) :
    Kept { links with
      toDialer := links.toDialer.handleSwarmEvent ourStatus event
      events := events } := by
  have hhandled := handled_swarmEvent h.nodup ourStatus event
  have hredials {p : P} (hp : p ∈ links.redials) :
      p ∈ (links.toDialer.handleSwarmEvent ourStatus event).redials := by
    rcases hhandled.redials with heq | ⟨q, -, heq⟩
    · rw [heq]
      exact hp
    · rw [heq]
      exact List.mem_append_left _ hp
  refine ⟨hhandled.nodup, fun p ↦ ?_, fun p addr ↦ ?_, fun p hp ↦ ?_, fun hopen p hp ↦ ?_⟩
  · have hcurrent := h.current p
    rw [hevents, List.foldl_cons, ← hhandled.noted] at hcurrent
    exact hcurrent
  · dsimp only
    rw [hhandled.bootnodeAddrs]
    exact h.addrs p addr
  · dsimp only
    rw [hhandled.bootnodeAddrs]
    rcases hp with hp | hp | hp
    · dsimp only at hp
      rcases hhandled.redials with heq | ⟨q, hq, heq⟩
      · exact h.targets p (.inl (heq ▸ hp))
      · rw [heq] at hp
        rcases List.mem_append.mp hp with hp | hp
        · exact h.targets p (.inl hp)
        · obtain rfl := List.mem_singleton.mp hp
          exact hq
    · dsimp only at hp
      rw [hhandled.commands] at hp
      exact h.targets p (.inr (.inl hp))
    · exact h.targets p (.inr (.inr hp))
  · dsimp only at hp hopen
    rw [hhandled.bootnodeAddrs] at hp
    rw [hhandled.adapterOpen] at hopen
    have hrenewed (hq : p ∈ links.server.connectedPeers ∨ Renews p event) :
        Pursued { links with
          toDialer := links.toDialer.handleSwarmEvent ourStatus event
          events := events } p :=
      (hhandled.renewed p hp hq).imp_right fun hp ↦ .inl (.inl hp)
    refine (h.pursued hopen p hp).imp (fun hq ↦ hrenewed (.inl hq)) ?_ fun e he hrenews ↦ ?_
    · rintro (hq | hq | hq)
      · exact .inr (.inl (.inl (hredials hq)))
      · refine .inr (.inl (.inr (.inl ?_)))
        dsimp only
        rw [hhandled.commands]
        exact hq
      · exact .inr (.inl (.inr (.inr hq)))
    · rw [hevents] at he
      rcases List.mem_cons.mp he with rfl | he
      · exact hrenewed (.inr hrenews)
      · exact .inr (.inr ⟨e, he, hrenews⟩)

/-- A timer that fires leaves its peer connected or dialed, if the adapter still takes commands. -/
theorem Kept.retry (h : Kept links) (peer : P) :
    Kept { links with
      toDialer := Dialer.handleRetryPeerRedial
        { links.toDialer with redials := links.redials.erase peer } peer } := by
  have hredials {p : P} (hp : p ∈ links.redials.erase peer) : p ∈ links.redials :=
    List.mem_of_mem_erase hp
  have herase {p : P} (hne : p ≠ peer) (hp : p ∈ links.redials) : p ∈ links.redials.erase peer :=
    (List.mem_erase_of_ne hne).mpr hp
  unfold Dialer.handleRetryPeerRedial
  split
  · rename_i hconnected
    refine ⟨h.nodup, h.current, h.addrs, fun p hp ↦ h.targets p (hp.imp_left hredials), fun hopen p hp ↦ ?_⟩
    refine (h.pursued hopen p hp).imp .inl ?_ fun e he hrenews ↦ .inr (.inr ⟨e, he, hrenews⟩)
    rintro (hq | hq)
    · by_cases heq : p = peer
      · exact .inl (heq ▸ hconnected)
      · exact .inr (.inl (.inl (herase heq hq)))
    · exact .inr (.inl (.inr hq))
  · cases haddr : links.bootnodeAddrs.lookup peer with
    | none =>
      refine ⟨h.nodup, h.current, h.addrs, fun p hp ↦ h.targets p (hp.imp_left hredials), fun hopen p hp ↦ ?_⟩
      refine (h.pursued hopen p hp).imp .inl ?_ fun e he hrenews ↦ .inr (.inr ⟨e, he, hrenews⟩)
      rintro (hq | hq)
      · have hne : p ≠ peer := by
          rintro rfl
          exact AList.lookup_eq_none.mp haddr hp
        exact .inr (.inl (.inl (herase hne hq)))
      · exact .inr (.inl (.inr hq))
    | some addr =>
      have htarget : addr.peer = peer := h.addrs peer addr haddr
      dsimp only
      split
      · refine ⟨h.nodup, h.current, h.addrs, fun p hp ↦ ?_, fun hopen p hp ↦ ?_⟩
        · rcases hp with hp | ⟨a, ha, rfl⟩ | hp
          · exact h.targets p (.inl (hredials hp))
          · rcases List.mem_append.mp ha with ha | ha
            · exact h.targets _ (.inr (.inl ⟨a, ha, rfl⟩))
            · obtain rfl := List.mem_singleton.mp ha
              rw [htarget]
              exact Table.mem_iff_lookup.mpr ⟨_, haddr⟩
          · exact h.targets p (.inr (.inr hp))
        · refine (h.pursued hopen p hp).imp .inl ?_ fun e he hrenews ↦ .inr (.inr ⟨e, he, hrenews⟩)
          rintro (hq | ⟨a, ha, hq⟩ | hq)
          · by_cases heq : p = peer
            · rw [heq]
              exact .inr (.inl (.inr (.inl
                ⟨addr, List.mem_append_right _ List.mem_cons_self, htarget⟩)))
            · exact .inr (.inl (.inl (herase heq hq)))
          · exact .inr (.inl (.inr (.inl ⟨a, List.mem_append_left _ ha, hq⟩)))
          · exact .inr (.inl (.inr (.inr hq)))
      · rename_i hclosed
        exact ⟨h.nodup, h.current, h.addrs, fun p hp ↦ h.targets p (hp.imp_left hredials),
          fun hopen ↦ absurd hopen hclosed⟩

theorem Kept.other (h : Kept links) {server : P2PServer P H} (hsame : SamePeers links.server server) :
    Kept { links with server := server } := by
  refine ⟨?_, fun p ↦ ?_, h.addrs, h.targets, fun hopen p hp ↦ ?_⟩
  · dsimp only
    rw [hsame.connectedPeers]
    exact h.nodup
  · dsimp only
    rw [hsame.connectedPeers]
    exact h.current p
  · refine (h.pursued (hsame.adapterOpen hopen) p hp).imp (fun hq ↦ .inl ?_) (fun hq ↦ .inr (.inl hq))
      fun e he hrenews ↦ .inr (.inr ⟨e, he, hrenews⟩)
    dsimp only
    rw [hsame.connectedPeers]
    exact hq

/-- What a move does that can be made. -/
inductive Moved (th : TreeHash H) (links : Links P H A) : Move P H → Links P H A → Prop
  | refused {addr : Multiaddr P A} {commands : List (Multiaddr P A)}
      (hcommands : links.commands = addr :: commands)
      (hpeer : addr.peer ∈ links.established ∨ addr.peer ∈ links.dialing) :
      Moved th links (.execute true) { links with commands := commands }
  | dial {addr : Multiaddr P A} {commands : List (Multiaddr P A)}
      (hcommands : links.commands = addr :: commands) :
      Moved th links (.execute false)
        { links with commands := commands, dialing := links.dialing ++ [addr.peer] }
  | dialed (peer : P) : Moved th links (.dialed peer)
      ({ links with dialing := links.dialing.erase peer }.establish peer)
  | undialed (peer : P) : Moved th links (.undialed peer)
      ({ links with dialing := links.dialing.erase peer }.report
        (.outgoingConnectionError (some peer)))
  | accepted (peer : P) : Moved th links (.accepted peer) (links.establish peer)
  | closed {peer : P} (hpeer : peer ∈ links.established) : Moved th links (.closed peer)
      ({ links with established := links.established.erase peer }.report
        (.connectionClosed peer (links.established.count peer - 1)))
  | handle {event : SwarmEvent P} {events : List (SwarmEvent P)} (ourStatus : Status H)
      (hevents : links.events = event :: events) : Moved th links (.handle ourStatus)
      { links with
        toDialer := links.toDialer.handleSwarmEvent ourStatus event
        events := events }
  | retryPeerRedial (peer : P) : Moved th links (.retryPeerRedial peer)
      { links with
        toDialer := Dialer.handleRetryPeerRedial
          { links.toDialer with redials := links.redials.erase peer } peer }
  | other {event : Event P H} {server : P2PServer P H} (hsame : SamePeers links.server server) :
      Moved th links (.other event) { links with server := server }

theorem step_cases {move : Move P H} (hstep : step th links move = .ok links') :
    Moved th links move links' := by
  cases move with
  | execute refused =>
    rw [step] at hstep
    cases hcommands : links.commands with
    | nil =>
      rw [hcommands] at hstep
      cases hstep
    | cons addr commands =>
      rw [hcommands] at hstep
      dsimp only at hstep
      cases refused with
      | false =>
        obtain rfl := Except.ok.inj hstep
        exact .dial hcommands
      | true =>
        rw [if_pos rfl] at hstep
        split at hstep
        · rename_i hpeer
          obtain rfl := Except.ok.inj hstep
          exact .refused hcommands hpeer
        · cases hstep
  | dialed peer =>
    rw [step] at hstep
    split at hstep
    · obtain rfl := Except.ok.inj hstep
      exact .dialed peer
    · cases hstep
  | undialed peer =>
    rw [step] at hstep
    split at hstep
    · obtain rfl := Except.ok.inj hstep
      exact .undialed peer
    · cases hstep
  | accepted peer =>
    obtain rfl := Except.ok.inj hstep
    exact .accepted peer
  | closed peer =>
    rw [step] at hstep
    split at hstep
    · rename_i hpeer
      obtain rfl := Except.ok.inj hstep
      exact .closed hpeer
    · cases hstep
  | handle ourStatus =>
    rw [step] at hstep
    cases hevents : links.events with
    | nil =>
      rw [hevents] at hstep
      cases hstep
    | cons event events =>
      rw [hevents] at hstep
      obtain rfl := Except.ok.inj hstep
      exact .handle ourStatus hevents
  | retryPeerRedial peer =>
    rw [step] at hstep
    split at hstep
    · obtain rfl := Except.ok.inj hstep
      exact .retryPeerRedial peer
    · cases hstep
  | other event =>
    rw [step] at hstep
    split at hstep
    · rename_i hother
      cases hserver : P2PServer.step th links.server event with
      | error e =>
        rw [hserver] at hstep
        cases hstep
      | ok server =>
        rw [hserver] at hstep
        obtain rfl := Except.ok.inj hstep
        exact .other (step_samePeers hother hserver)
    · cases hstep

theorem Kept.step (h : Kept links) {move : Move P H} (hstep : step th links move = .ok links') :
    Kept links' := by
  cases step_cases hstep with
  | refused hcommands hpeer => exact (h.execute hcommands).1 hpeer
  | dial hcommands => exact (h.execute hcommands).2
  | dialed peer => exact h.dialed peer
  | undialed peer => exact h.undialed peer
  | accepted peer => exact h.accepted peer
  | closed hpeer => exact h.report _ (noted_closed hpeer)
  | handle ourStatus hevents => exact h.handle hevents ourStatus
  | retryPeerRedial peer => exact h.retry peer
  | other hsame => exact h.other hsame

theorem handleRetryPeerRedial_bootnodeAddrs (dialer : Dialer P H A) (peer : P) :
    (dialer.handleRetryPeerRedial peer).bootnodeAddrs = dialer.bootnodeAddrs := by
  unfold Dialer.handleRetryPeerRedial
  split
  · rfl
  · split
    · rfl
    · split
      · rfl
      · rfl

/-- The bootnodes stay what they were when the network was built. -/
theorem Kept.bootnodeAddrs (h : Kept links) {move : Move P H}
    (hstep : Links.step th links move = .ok links') : links'.bootnodeAddrs = links.bootnodeAddrs := by
  cases step_cases hstep with
  | refused | dial | dialed | undialed | accepted | closed | other => rfl
  | handle ourStatus hevents => exact (handled_swarmEvent h.nodup ourStatus _).bootnodeAddrs
  | retryPeerRedial peer => exact handleRetryPeerRedial_bootnodeAddrs _ peer

theorem Kept.addBootnode (h : Kept links) (localPeer : P) (bootnode : Multiaddr P A) :
    Kept (addBootnode localPeer links bootnode) := by
  unfold Links.addBootnode
  split
  · exact h
  · refine ⟨h.nodup, h.current, fun p addr hp ↦ ?_, fun p hp ↦ ?_, fun hopen p hp ↦ ?_⟩
    · dsimp only at hp
      rw [Table.lookup_insert_eq_ite] at hp
      split at hp
      · rename_i heq
        rw [← Option.some.inj hp, heq]
      · exact h.addrs p addr hp
    · refine (AList.mem_insert _).mpr ?_
      rcases hp with hp | hp | hp
      · exact .inr (h.targets p (.inl hp))
      · exact .inr (h.targets p (.inr (.inl hp)))
      · rcases List.mem_append.mp hp with hp | hp
        · exact .inr (h.targets p (.inr (.inr hp)))
        · exact .inl (List.mem_singleton.mp hp)
    · rcases (AList.mem_insert _).mp hp with rfl | hp
      · exact .inr (.inl (.inr (.inr (List.mem_append_right _ List.mem_cons_self))))
      · refine (h.pursued hopen p hp).imp .inl ?_ fun e he hrenews ↦ .inr (.inr ⟨e, he, hrenews⟩)
        rintro (hq | hq | hq)
        · exact .inr (.inl (.inl hq))
        · exact .inr (.inl (.inr (.inl hq)))
        · exact .inr (.inl (.inr (.inr (List.mem_append_left _ hq))))

theorem mem_addBootnode (localPeer : P) (links : Links P H A) (bootnode : Multiaddr P A) (p : P) :
    p ∈ (Links.addBootnode localPeer links bootnode).bootnodeAddrs ↔
      p ∈ links.bootnodeAddrs ∨ p ≠ localPeer ∧ bootnode.peer = p := by
  unfold Links.addBootnode
  split
  · rename_i hlocal
    refine ⟨.inl, fun h ↦ h.resolve_right ?_⟩
    rintro ⟨hne, rfl⟩
    exact hne hlocal
  · rename_i hlocal
    refine (AList.mem_insert _).trans ⟨?_, ?_⟩
    · rintro (rfl | hp)
      · exact .inr ⟨hlocal, rfl⟩
      · exact .inl hp
    · rintro (hp | ⟨-, rfl⟩)
      · exact .inr hp
      · exact .inl rfl

theorem kept_foldl (h : Kept links) (localPeer : P) (bootnodes : List (Multiaddr P A)) :
    Kept (bootnodes.foldl (Links.addBootnode localPeer) links) ∧
      ∀ p, p ∈ (bootnodes.foldl (Links.addBootnode localPeer) links).bootnodeAddrs ↔
        p ∈ links.bootnodeAddrs ∨ p ≠ localPeer ∧ ∃ bootnode ∈ bootnodes, bootnode.peer = p := by
  induction bootnodes generalizing links with
  | nil => exact ⟨h, fun p ↦ by simp⟩
  | cons bootnode bootnodes ih =>
    obtain ⟨hkept, hmem⟩ := ih (h.addBootnode localPeer bootnode)
    refine ⟨hkept, fun p ↦ ?_⟩
    rw [List.foldl_cons, hmem, mem_addBootnode, or_assoc, ← and_or_left, List.exists_mem_cons_iff]

theorem kept_build (localPeer : P) (bootnodes : List (Multiaddr P A)) :
    Kept (build localPeer bootnodes : Links P H A) ∧
      ∀ p, p ∈ (build localPeer bootnodes : Links P H A).bootnodeAddrs ↔
        p ≠ localPeer ∧ ∃ bootnode ∈ bootnodes, bootnode.peer = p := by
  let start : Links P H A :=
    { server := .spawn, bootnodeAddrs := ∅, redials := [], commands := [], established := [],
      dialing := [], events := [] }
  have hstart : Kept start := by
    refine ⟨List.nodup_nil, fun _ ↦ rfl, (fun p addr hp ↦ nomatch hp), ?_, fun _ p hp ↦ ?_⟩
    · rintro p (hp | ⟨addr, haddr, -⟩ | hp)
      · exact absurd hp List.not_mem_nil
      · exact absurd haddr List.not_mem_nil
      · exact absurd hp List.not_mem_nil
    · exact absurd hp (AList.notMem_empty p)
  obtain ⟨hkept, hmem⟩ := kept_foldl hstart localPeer bootnodes
  refine ⟨hkept, fun p ↦ (hmem p).trans (or_iff_right ?_)⟩
  exact AList.notMem_empty p

end Kept

variable {links : Links P H A} {moves : List (Move P H)} {localPeer : P}
  {bootnodes : List (Multiaddr P A)}

/-- Whatever the swarm reports, and in whatever order dials, connections, reports and timers come,
no bootnode is given up while the adapter runs: each is connected, a timer for it runs, it is dialed,
or a report that sees to it is waiting. Nobody else is dialed, least of all the node itself, and once
all reports are taken up the actor counts as connected exactly the peers that are. -/
theorem bootnodes_kept (th : TreeHash H)
    (hrun : Base.Runs.run (step th) (build localPeer bootnodes) moves = .ok links) :
    (links.server.adapterOpen = true → ∀ bootnode ∈ bootnodes, bootnode.peer ≠ localPeer →
      Pursued links bootnode.peer) ∧
    (∀ p, Sought links p → p ≠ localPeer ∧ ∃ bootnode ∈ bootnodes, bootnode.peer = p) ∧
    (links.events = [] → ∀ p, p ∈ links.server.connectedPeers ↔ p ∈ links.established) := by
  obtain ⟨hstart, hmem⟩ := kept_build (H := H) localPeer bootnodes
  obtain ⟨h, haddrs⟩ := Base.Runs.run_invariant
    (P := fun links' ↦ Kept links' ∧
      links'.bootnodeAddrs = (build localPeer bootnodes : Links P H A).bootnodeAddrs)
    (fun _ _ _ h hstep ↦ ⟨h.1.step hstep, (h.1.bootnodeAddrs hstep).trans h.2⟩) ⟨hstart, rfl⟩ hrun
  refine ⟨fun hopen bootnode hbootnode hne ↦ h.pursued hopen _ ?_, fun p hp ↦ ?_, fun hevents p ↦ ?_⟩
  · rw [haddrs]
    exact (hmem _).mpr ⟨hne, bootnode, hbootnode, rfl⟩
  · have htarget := h.targets p hp
    rw [haddrs] at htarget
    exact (hmem p).mp htarget
  · have hcurrent := h.current p
    rw [hevents, List.foldl_nil] at hcurrent
    exact decide_eq_decide.mp hcurrent

section Sample

/-- The bootnode 7 is dialed, connects, goes away, and is dialed again in vain. -/
def flapping : List (Move ℕ ℕ) :=
  [.dialed 7, .handle ⟨⟨0, 0⟩, ⟨0, 0⟩⟩, .closed 7, .handle ⟨⟨0, 0⟩, ⟨0, 0⟩⟩, .retryPeerRedial 7,
    .execute false, .undialed 7, .handle ⟨⟨0, 0⟩, ⟨0, 0⟩⟩]

theorem bootnodes_kept_sample : ∃ links : Links ℕ ℕ Unit,
    Base.Runs.run (step slotHash) (build 3 [⟨(), 3⟩, ⟨(), 7⟩]) flapping = .ok links ∧
    links.server.connectedPeers = [] ∧ links.redials = [7] ∧ Pursued links 7 ∧ ¬Sought links 3 := by
  obtain ⟨links, hrun, hview⟩ := Exec.exists_ok_of_map
    (x := Base.Runs.run (step slotHash) (build 3 [⟨(), 3⟩, ⟨(), 7⟩] : Links ℕ ℕ Unit) flapping)
    (f := fun links ↦ (links.server.connectedPeers, links.redials, links.server.adapterOpen))
    (b := ([], [7], true)) (by decide +kernel)
  obtain ⟨hpeers, hview⟩ := Prod.mk.inj hview
  obtain ⟨hredials, hopen⟩ := Prod.mk.inj hview
  obtain ⟨hpursued, hsought, -⟩ := bootnodes_kept slotHash hrun
  exact ⟨links, hrun, hpeers, hredials, hpursued hopen ⟨(), 7⟩ (by simp) (by decide),
    fun h ↦ (hsought 3 h).1 rfl⟩

end Sample

end Links

end Ethlambda.Network
