import Ethlambda.Base.Runs
import Ethlambda.Base.Table
import Ethlambda.Network.Messages

namespace Ethlambda.Network

open Ethlambda.Base Ethlambda.Types

def maxFetchRetries : ℕ := 10

def initialBackoffMs : ℕ := 5

def backoffMultiplier : ℕ := 2

structure PendingRequest (P : Type) where
  attempts : ℕ
  failedPeers : List P
deriving DecidableEq

structure RetryBlockFetch (H : Type) where
  root : H
  backoffMs : ℕ
deriving DecidableEq

/-- The part of the network actor that fetches blocks, with what it has handed out: the requests
the swarm has not settled, the retries its timers hold and the blocks it passed on to the chain. -/
structure P2PServer (P H : Type) where
  /-- The chain has been connected. -/
  blockchain : Bool
  connectedPeers : List P
  pendingRequests : Table H (PendingRequest P)
  requestIdMap : Table ℕ H
  /-- The swarm adapter still takes commands. -/
  adapterOpen : Bool
  nextRequestId : ℕ
  outstanding : Table ℕ (P × Request H)
  scheduled : List (RetryBlockFetch H)
  forwarded : List (SignedBlockWithAttestation H)

/-- What the actor can be told: a message of another actor, a report of the swarm, or a timer
that fires. A peer that is picked at random is named by its place in the pool. -/
inductive Event (P H : Type)
  | initBlockChain
  | fetchBlock (root : H) (pick : ℕ)
  | retryBlockFetch (retry : RetryBlockFetch H) (pick : ℕ)
  | response (requestId : ℕ) (response : Response H)
  | outboundFailure (requestId : ℕ)
  | connectionEstablished (peer : P) (numEstablished : ℕ) (ourStatus : Status H)
  | connectionClosed (peer : P) (numEstablished : ℕ)
  | adapterClosed

/-- Why an event cannot come up: its request is settled or was never sent, its response belongs to
the other protocol, or its timer is not set. -/
inductive Disabled
  | request
  | protocol
  | timer
deriving DecidableEq

variable {P H : Type} [DecidableEq P] [DecidableEq H]

namespace P2PServer

def spawn : P2PServer P H where
  blockchain := false
  connectedPeers := []
  pendingRequests := ∅
  requestIdMap := ∅
  adapterOpen := true
  nextRequestId := 1
  outstanding := ∅
  scheduled := []
  forwarded := []

/-- The swarm numbers the requests it takes, and never uses a number twice. -/
def sendRequest (server : P2PServer P H) (peer : P) (request : Request H) :
    Option ℕ × P2PServer P H :=
  if server.adapterOpen then
    (some server.nextRequestId,
      { server with
        nextRequestId := server.nextRequestId + 1
        outstanding := server.outstanding.insert server.nextRequestId (peer, request) })
  else (none, server)

def clearFailedPeers (server : P2PServer P H) (root : H) : P2PServer P H :=
  match server.pendingRequests.lookup root with
  | none => server
  | some pending =>
    { server with
      pendingRequests := server.pendingRequests.insert root { pending with failedPeers := [] } }

def untriedPeers (server : P2PServer P H) (root : H) : List P :=
  match server.pendingRequests.lookup root with
  | none => server.connectedPeers
  | some pending =>
    if pending.failedPeers = [] then server.connectedPeers
    else server.connectedPeers.filter fun p ↦ p ∉ pending.failedPeers

def trackRequest (server : P2PServer P H) (requestId : ℕ) (root : H) : P2PServer P H :=
  { server with
    pendingRequests := match server.pendingRequests.lookup root with
      | some _ => server.pendingRequests
      | none => server.pendingRequests.insert root ⟨1, []⟩
    requestIdMap := server.requestIdMap.insert requestId root }

def requestFromPeer (pick : ℕ) (server : P2PServer P H) (pool : List P) (root : H) :
    Bool × P2PServer P H :=
  match pool[pick % pool.length]? with
  | none => (false, server)
  | some peer => match VariableList.new maxRequestBlocks [root] with
    | none => (false, server)
    | some roots => match server.sendRequest peer (.blocksByRoot ⟨roots⟩) with
      | (none, server) => (false, server)
      | (some requestId, server) => (true, server.trackRequest requestId root)

def fetchBlockFromPeer (pick : ℕ) (server : P2PServer P H) (root : H) : Bool × P2PServer P H :=
  if server.connectedPeers = [] then (false, server)
  else if server.untriedPeers root = [] then
    -- every peer has failed: the elimination starts over with all of them
    requestFromPeer pick (server.clearFailedPeers root) server.connectedPeers root
  else requestFromPeer pick server (server.untriedPeers root) root

def handleFetchFailure (server : P2PServer P H) (root : H) (peer : P) : P2PServer P H :=
  match server.pendingRequests.lookup root with
  | none => server
  | some pending =>
    if maxFetchRetries ≤ pending.attempts then
      { server with pendingRequests := server.pendingRequests.erase root }
    else
      { server with
        pendingRequests := server.pendingRequests.insert root
          ⟨pending.attempts + 1, pending.failedPeers.insert peer⟩
        scheduled := server.scheduled ++
          [⟨root, initialBackoffMs * backoffMultiplier ^ (pending.attempts - 1)⟩] }

section Handlers

variable (th : TreeHash H)

def receiveBlock (requestedRoot : H) (server : P2PServer P H)
    (block : SignedBlockWithAttestation H) : P2PServer P H :=
  if th.block block.message.block ≠ requestedRoot then server
  else
    { server with
      pendingRequests := server.pendingRequests.erase (th.block block.message.block)
      forwarded := if server.blockchain then server.forwarded ++ [block] else server.forwarded }

def handleBlocksByRootResponse (server : P2PServer P H)
    (blocks : List (SignedBlockWithAttestation H)) (peer : P) (requestId : ℕ) : P2PServer P H :=
  match server.requestIdMap.lookup requestId with
  | none => server
  | some requestedRoot =>
    let requestIdMap := server.requestIdMap.erase requestId
    if blocks.isEmpty then
      handleFetchFailure
        { server with requestIdMap := requestIdMap.insert requestId requestedRoot }
        requestedRoot peer
    else blocks.foldl (receiveBlock th requestedRoot) { server with requestIdMap := requestIdMap }

def handleResponse (server : P2PServer P H) (peer : P) (requestId : ℕ) :
    Response H → P2PServer P H
  | .success (.status _) => server
  | .success (.blocksByRoot blocks) => handleBlocksByRootResponse th server blocks peer requestId
  | .error _ _ => server

def handleOutboundFailure (server : P2PServer P H) (peer : P) (requestId : ℕ) : P2PServer P H :=
  match server.requestIdMap.lookup requestId with
  | none => server
  | some root =>
    handleFetchFailure { server with requestIdMap := server.requestIdMap.erase requestId } root peer

def handleRetryBlockFetch (pick : ℕ) (server : P2PServer P H) (root : H) : P2PServer P H :=
  if root ∉ server.pendingRequests then server
  else match fetchBlockFromPeer pick server root with
    | (true, server) => server
    | (false, server) => { server with pendingRequests := server.pendingRequests.erase root }

def handleFetchBlock (pick : ℕ) (server : P2PServer P H) (root : H) : P2PServer P H :=
  if root ∈ server.pendingRequests then server else (fetchBlockFromPeer pick server root).2

def handleConnectionEstablished (server : P2PServer P H) (peer : P) (numEstablished : ℕ)
    (ourStatus : Status H) : P2PServer P H :=
  if numEstablished = 1 then
    (sendRequest { server with connectedPeers := server.connectedPeers.insert peer } peer
      (.status ourStatus)).2
  else server

def handleConnectionClosed (server : P2PServer P H) (peer : P) (numEstablished : ℕ) :
    P2PServer P H :=
  if numEstablished = 0 then { server with connectedPeers := server.connectedPeers.erase peer }
  else server

/-- One event. The swarm settles each request once, on the protocol the request went out on, and a
timer fires once. -/
def step (server : P2PServer P H) : Event P H → Except Disabled (P2PServer P H)
  | .initBlockChain => .ok { server with blockchain := true }
  | .fetchBlock root pick => .ok (handleFetchBlock pick server root)
  | .retryBlockFetch retry pick =>
    if retry ∈ server.scheduled then
      .ok (handleRetryBlockFetch pick
        { server with scheduled := server.scheduled.erase retry } retry.root)
    else .error .timer
  | .response requestId response => match server.outstanding.lookup requestId with
    | none => .error .request
    | some (peer, request) =>
      if response.protocol = request.protocol then
        .ok (handleResponse th { server with outstanding := server.outstanding.erase requestId }
          peer requestId response)
      else .error .protocol
  | .outboundFailure requestId => match server.outstanding.lookup requestId with
    | none => .error .request
    | some (peer, _) =>
      .ok (handleOutboundFailure
        { server with outstanding := server.outstanding.erase requestId } peer requestId)
  | .connectionEstablished peer numEstablished ourStatus =>
    .ok (handleConnectionEstablished server peer numEstablished ourStatus)
  | .connectionClosed peer numEstablished =>
    .ok (handleConnectionClosed server peer numEstablished)
  | .adapterClosed => .ok { server with adapterOpen := false }

end Handlers

end P2PServer

end Ethlambda.Network
