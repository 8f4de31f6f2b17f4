import Ethlambda.Chain.Cascade
import Ethlambda.Chain.Tracking
import Ethlambda.Network.Budget
import Ethlambda.Network.Codec

namespace Ethlambda.Network

open Ethlambda.Base Ethlambda.Types Ethlambda.Storage Ethlambda.Chain

set_option linter.unusedSectionVars false

variable {P H ε : Type}

section Serving

variable [LinearOrder H] [Zero H] (host : Host H)

/-- Our status, as a peer is sent it. -/
def buildStatus (store : Store H) : Exec ε (Status H) := do
  let header ← Exec.expect "head block exists" (store.getBlockHeader store.head)
  pure ⟨store.latestFinalized, ⟨store.head, header.slot⟩⟩

def handleStatusRequest (store : Store H) : Exec ε (Response H) := do
  let ourStatus ← buildStatus store
  pure (.success (.status ourStatus))

/-- The blocks that are there, in the order of the roots; the others are skipped. -/
def handleBlocksByRootRequest (store : Store H) (request : BlocksByRootRequest H) : Response H :=
  .success (.blocksByRoot (request.roots.toList.filterMap (store.getSignedBlock host)))

def handleRequest (store : Store H) : Request H → Exec ε (Response H)
  | .status _ => handleStatusRequest store
  | .blocksByRoot request => pure (handleBlocksByRootRequest host store request)

/-- A request goes over the wire, the peer answers from its store, and the answer comes back. -/
def exchange (wire : Wire H) (store : Store H) (request : Request H) :
    Exec IoError (Response H) := do
  let request' ← Codec.readRequest wire request.protocol
    (Codec.writeRequest wire request.protocol request)
  let response ← handleRequest host store request'
  Codec.readResponse wire request.protocol
    (Codec.writeResponse wire request.protocol response)

/-- The container of a request survives SSZ, and is of the size the codec allows. -/
def RequestEncodes (wire : Wire H) : Request H → Prop
  | .status status => Codec.Encodes wire (.status status)
  | .blocksByRoot request => wire.requestFromSsz (wire.requestToSsz request) = .ok request ∧
      wire.requestToSsz request ≠ [] ∧ (wire.requestToSsz request).length ≤ maxPayloadSize

variable {host} {wire : Wire H} {store : Store H} {request : Request H}

theorem readRequest_writeRequest (hframing : wire.Framing) (h : RequestEncodes wire request) :
    Codec.readRequest wire request.protocol
      (Codec.writeRequest wire request.protocol request) = .ok request := by
  refine Codec.request_round_trip hframing ?_
  cases request with
  | status status => exact h
  | blocksByRoot request => exact h

theorem handleRequest_protocol {response : Response H}
    (h : (handleRequest host store request : Exec ε (Response H)) = .ok response) :
    response.protocol = request.protocol ∧ ∃ payload, response = .success payload := by
  cases request with
  | status status =>
    obtain ⟨ourStatus, -, h⟩ := Exec.bind_eq_ok.mp h
    rw [← Except.ok.inj h]
    exact ⟨rfl, _, rfl⟩
  | blocksByRoot request =>
    rw [← Except.ok.inj h]
    exact ⟨rfl, _, rfl⟩

/-- A request for one root at most is answered with what the peer's handler returns. -/
theorem exchange_eq (hframing : wire.Framing) (hrequest : RequestEncodes wire request)
    (hsingle : request.roots.length ≤ 1) {payload : ResponsePayload H}
    (hhandle : (handleRequest host store request : Exec IoError (Response H)) =
      .ok (.success payload))
    (hpayload : Codec.Encodes wire payload) :
    exchange host wire store request = .ok (.success payload) := by
  rw [exchange, readRequest_writeRequest hframing hrequest]
  change (handleRequest host store request >>= _) = _
  rw [hhandle]
  change Codec.readResponse wire request.protocol
    (Codec.writeResponse wire request.protocol (.success payload)) = _
  rw [← (handleRequest_protocol hhandle).1]
  refine (Codec.response_round_trip_iff hframing hpayload).mpr ?_
  cases request with
  | status status =>
    obtain ⟨ourStatus, -, hstatus⟩ := Exec.bind_eq_ok.mp hhandle
    obtain rfl := Response.success.inj (Except.ok.inj hstatus)
    trivial
  | blocksByRoot request =>
    obtain rfl := Response.success.inj (Except.ok.inj hhandle)
    exact (List.length_filterMap_le _ _).trans hsingle

end Serving

namespace P2PServer

section Asking

variable [DecidableEq P] [DecidableEq H] {th : TreeHash H} {server server' : P2PServer P H}
  {event : Event P H} {root : H}

/-- What one event can do to the requests that are not settled. -/
inductive Exchanges (server server' : P2PServer P H) : Prop
  | same (h : SameRequests server server')
  | status (peer : P) (ourStatus : Status H) (hnext : server'.nextRequestId = server.nextRequestId + 1)
      (hout : server'.outstanding =
        server.outstanding.insert server.nextRequestId (peer, .status ourStatus))
      (hmap : server'.requestIdMap = server.requestIdMap)
  | asked (peer : P) {roots : RequestedBlockRoots H} {root : H} (hroots : roots.toList = [root])
      (hnext : server'.nextRequestId = server.nextRequestId + 1)
      (hout : server'.outstanding =
        server.outstanding.insert server.nextRequestId (peer, .blocksByRoot ⟨roots⟩))
      (hmap : server'.requestIdMap = server.requestIdMap.insert server.nextRequestId root)
  | settled (requestId : ℕ) (hnext : server'.nextRequestId = server.nextRequestId)
      (hout : server'.outstanding = server.outstanding.erase requestId)
      (hmap : ∀ id ≠ requestId, server'.requestIdMap.lookup id = server.requestIdMap.lookup id)

theorem SameRequests.asks {base : P2PServer P H} {peer : P} {roots : RequestedBlockRoots H}
    (h : SameRequests server base) (hroots : roots.toList = [root]) :
    Exchanges server (base.ask peer roots root) := by
  refine .asked peer hroots ?_ ?_ ?_
  · exact congrArg (· + 1) h.nextRequestId
  · rw [ask_outstanding, h.outstanding, h.nextRequestId]
  · rw [← h.requestIdMap, ← h.nextRequestId]
    rfl

theorem fetch_exchanges (server : P2PServer P H) (pick : ℕ) (root : H) :
    Exchanges server (fetchBlockFromPeer pick server root).2 := by
  obtain ⟨base, hbase, heq | ⟨peer, -, roots, hroots, heq⟩⟩ := fetchBlockFromPeer_eq pick server root
  · rw [heq]
    exact .same hbase.toSameRequests
  · rw [heq]
    exact hbase.toSameRequests.asks hroots

theorem retry_exchanges (server : P2PServer P H) (retry : RetryBlockFetch H) (pick : ℕ) :
    Exchanges server (handleRetryBlockFetch pick (server.fire retry) retry.root) := by
  have hfire : SameRequests server (server.fire retry) := ⟨rfl, rfl, rfl⟩
  unfold handleRetryBlockFetch
  split
  · exact .same hfire
  · obtain ⟨base, hbase, heq | ⟨peer, -, roots, hroots, heq⟩⟩ :=
      fetchBlockFromPeer_eq pick (server.fire retry) retry.root
    · rw [heq]
      exact .same ((hfire.trans hbase.toSameRequests).trans ⟨rfl, rfl, rfl⟩)
    · rw [heq]
      exact (hfire.trans hbase.toSameRequests).asks hroots

theorem response_exchanges (th : TreeHash H) (server : P2PServer P H) (peer : P) (requestId : ℕ)
    (response : Response H) :
    Exchanges server (handleResponse th
      { server with outstanding := server.outstanding.erase requestId } peer requestId response) := by
  cases response with
  | error code message => exact .settled requestId rfl rfl fun _ _ ↦ rfl
  | success payload =>
    cases payload with
    | status status => exact .settled requestId rfl rfl fun _ _ ↦ rfl
    | blocksByRoot blocks =>
      rw [handleResponse, handleBlocksByRootResponse]
      cases hroot : server.requestIdMap.lookup requestId with
      | none =>
        exact .settled requestId rfl rfl fun _ _ ↦ rfl
      | some root =>
        dsimp only
        split
        · have hsame := handleFetchFailure_sameRequests (server.settle requestId
            ((server.requestIdMap.erase requestId).insert requestId root)) root peer
          refine .settled requestId hsame.nextRequestId hsame.outstanding fun id hid ↦ ?_
          have hmap := congrArg (AList.lookup id) hsame.requestIdMap
          refine hmap.trans ?_
          change ((server.requestIdMap.erase requestId).insert requestId root).lookup id = _
          rw [AList.lookup_insert_ne hid, AList.lookup_erase_ne hid]
        · have hsame := receiveBlocks_sameRequests th root (server.settle requestId
            (server.requestIdMap.erase requestId)) blocks
          refine .settled requestId hsame.nextRequestId hsame.outstanding fun id hid ↦ ?_
          exact (congrArg (AList.lookup id) hsame.requestIdMap).trans (AList.lookup_erase_ne hid)

theorem outboundFailure_exchanges (server : P2PServer P H) (peer : P) (requestId : ℕ) :
    Exchanges server (handleOutboundFailure
      { server with outstanding := server.outstanding.erase requestId } peer requestId) := by
  unfold handleOutboundFailure
  cases hroot : server.requestIdMap.lookup requestId with
  | none =>
    exact .settled requestId rfl rfl fun _ _ ↦ rfl
  | some root =>
    have hsame := handleFetchFailure_sameRequests
      (server.settle requestId (server.requestIdMap.erase requestId)) root peer
    refine .settled requestId hsame.nextRequestId hsame.outstanding fun id hid ↦ ?_
    exact (congrArg (AList.lookup id) hsame.requestIdMap).trans (AList.lookup_erase_ne hid)

theorem step_exchanges (hstep : step th server event = .ok server') : Exchanges server server' := by
  cases step_cases hstep with
  | initBlockChain | adapterClosed => exact .same ⟨rfl, rfl, rfl⟩
  | fetchBlock root pick =>
    unfold handleFetchBlock
    split
    · exact .same (.refl server)
    · exact fetch_exchanges server pick root
  | @retryBlockFetch retry pick hmem => exact retry_exchanges server retry pick
  | @response requestId peer request response hsent hprotocol =>
    exact response_exchanges th server peer requestId response
  | @outboundFailure requestId peer request hsent =>
    exact outboundFailure_exchanges server peer requestId
  | connectionEstablished peer numEstablished ourStatus =>
    unfold handleConnectionEstablished
    split
    · rw [sendRequest]
      split
      · exact .status peer ourStatus rfl rfl rfl
      · exact .same ⟨rfl, rfl, rfl⟩
    · exact .same (.refl server)
  | connectionClosed peer numEstablished =>
    unfold handleConnectionClosed
    split
    · exact .same ⟨rfl, rfl, rfl⟩
    · exact .same (.refl server)

/-- A block request that is not settled asks for one root, the one it is mapped to, which is
pending. -/
structure Asking (server : P2PServer P H) : Prop extends Phased server where
  tracked : ∀ id peer request, server.outstanding.lookup id = some (peer, .blocksByRoot request) →
    ∃ root, request.roots.toList = [root] ∧ server.requestIdMap.lookup id = some root

theorem asking_spawn : Asking (spawn : P2PServer P H) := ⟨phased_spawn, fun _ _ _ h ↦ nomatch h⟩

theorem Asking.step (h : Asking server) (hstep : step th server event = .ok server') :
    Asking server' := by
  refine ⟨h.toPhased.step hstep, fun id peer request hsent ↦ ?_⟩
  have hfresh {sent : P × Request H} (hold : server.outstanding.lookup id = some sent) :
      id ≠ server.nextRequestId := by
    rintro rfl
    exact h.fresh (Table.mem_iff_lookup.mpr ⟨sent, hold⟩)
  cases step_exchanges hstep with
  | same hsame =>
    rw [hsame.outstanding] at hsent
    rw [hsame.requestIdMap]
    exact h.tracked id peer request hsent
  | status _ _ hnext hout hmap =>
    rw [hout, Table.lookup_insert_eq_ite] at hsent
    split at hsent
    · exact nomatch (Prod.mk.inj (Option.some.inj hsent)).2
    · rw [hmap]
      exact h.tracked id peer request hsent
  | @asked _ roots root hroots hnext hout hmap =>
    rw [hout, Table.lookup_insert_eq_ite] at hsent
    rw [hmap]
    split at hsent
    · rename_i hid
      obtain ⟨-, hrequest⟩ := Prod.mk.inj (Option.some.inj hsent)
      obtain rfl := Request.blocksByRoot.inj hrequest
      exact ⟨root, hroots, by rw [hid, AList.lookup_insert]⟩
    · rename_i hid
      rw [AList.lookup_insert_ne hid]
      exact h.tracked id peer request hsent
  | settled _ hnext hout hmap =>
    rw [hout, Table.lookup_erase_eq_ite] at hsent
    split at hsent
    · exact nomatch hsent
    · rename_i hid
      rw [hmap id hid]
      exact h.tracked id peer request hsent

theorem Phased.pending_of_sent (h : Phased server) {id : ℕ} {peer : P}
    {request : BlocksByRootRequest H}
    (hsent : server.outstanding.lookup id = some (peer, .blocksByRoot request))
    (hroot : server.requestIdMap.lookup id = some root) : root ∈ server.pendingRequests := by
  obtain ⟨phase, hshows⟩ := h.phase root
  have hpos : 0 < server.inFlight root := by
    refine List.countP_pos_iff.mpr ⟨(id, peer, .blocksByRoot request), Table.mem_pairs.mpr hsent, ?_⟩
    simp [Request.isBlocksByRoot, hroot]
  rw [hshows.pending, hshows.live_of_pos (by rw [tokens]; omega)]
  decide

theorem asking_run {events : List (Event P H)}
    (hrun : Base.Runs.run (P2PServer.step th) spawn events = .ok server) : Asking server :=
  Base.Runs.run_invariant (fun _ _ _ h hstep ↦ h.step hstep) asking_spawn hrun

theorem step_blocksByRoot {id : ℕ} {peer : P} {request : BlocksByRootRequest H}
    (hsent : server.outstanding.lookup id = some (peer, .blocksByRoot request))
    (blocks : List (SignedBlockWithAttestation H)) :
    step th server (.response id (.success (.blocksByRoot blocks))) =
      .ok (handleBlocksByRootResponse th
        { server with outstanding := server.outstanding.erase id } blocks peer id) := by
  rw [step, hsent]
  exact if_pos rfl

/-- The one block that was asked for ends the fetch and goes to the chain. -/
theorem step_found (th : TreeHash H) {id : ℕ} {peer : P} {request : BlocksByRootRequest H}
    {block : SignedBlockWithAttestation H}
    (hsent : server.outstanding.lookup id = some (peer, .blocksByRoot request))
    (hmap : server.requestIdMap.lookup id = some root)
    (hblock : th.block block.message.block = root) :
    step th server (.response id (.success (.blocksByRoot [block]))) =
      .ok { server with
        outstanding := server.outstanding.erase id
        requestIdMap := server.requestIdMap.erase id
        pendingRequests := server.pendingRequests.erase root
        forwarded := if server.blockchain then server.forwarded ++ [block] else server.forwarded } := by
  rw [step_blocksByRoot hsent, handleBlocksByRootResponse]
  dsimp only
  rw [hmap]
  dsimp only [List.isEmpty_cons, List.foldl_cons, List.foldl_nil]
  rw [if_neg Bool.false_ne_true, receiveBlock, if_neg (not_not.mpr hblock), hblock]

/-- An empty answer counts as a failure of the peer. -/
theorem Asking.step_missing (h : Asking server) (th : TreeHash H) {id : ℕ} {peer : P}
    {request : BlocksByRootRequest H}
    (hsent : server.outstanding.lookup id = some (peer, .blocksByRoot request))
    (hmap : server.requestIdMap.lookup id = some root) :
    ∃ n server', server.attempts root = some n ∧
      P2PServer.step th server (.response id (.success (.blocksByRoot []))) = .ok server' ∧
      server'.forwarded = server.forwarded ∧
      (maxFetchRetries ≤ n → server'.attempts root = none) ∧
      (n < maxFetchRetries → server'.attempts root = some (n + 1) ∧
        ⟨root, initialBackoffMs * backoffMultiplier ^ (n - 1)⟩ ∈ server'.scheduled) := by
  have hpending := h.pending_of_sent hsent hmap
  obtain ⟨n, hn⟩ := Option.ne_none_iff_exists'.mp (mt attempts_eq_none.mp (not_not.mpr hpending))
  let settled := server.settle id ((server.requestIdMap.erase id).insert id root)
  have hstep : P2PServer.step th server (.response id (.success (.blocksByRoot []))) =
      .ok (handleFetchFailure settled root peer) := by
    rw [step_blocksByRoot hsent, handleBlocksByRootResponse]
    dsimp only
    rw [hmap]
    rfl
  refine ⟨n, handleFetchFailure settled root peer, hn, hstep, ?_⟩
  rcases handleFetchFailure_cases settled root peer with
    ⟨hnone, -⟩ | ⟨m, hm, hmax, heq⟩ | ⟨m, failed, hm, hmax, heq⟩
  · cases hn.symm.trans hnone
  · obtain rfl := Option.some.inj (hn.symm.trans hm)
    rw [heq]
    refine ⟨rfl, fun _ ↦ (attempts_erase _ root root).trans (if_pos rfl), fun hlt ↦ ?_⟩
    exact absurd hlt (not_lt.mpr hmax)
  · obtain rfl := Option.some.inj (hn.symm.trans hm)
    rw [heq]
    refine ⟨rfl, fun hle ↦ absurd hmax (not_lt.mpr hle), fun _ ↦ ⟨?_, ?_⟩⟩
    · rw [attempts, AList.lookup_insert]
      rfl
    · exact List.mem_append_right _ List.mem_cons_self

end Asking

end P2PServer

section Fetching

variable [DecidableEq P] [LinearOrder H] [Zero H] {host : Host H} {wire : Wire H}
  {events : List (Event P H)} {asker : P2PServer P H} {server : Server host} {id : ℕ}
  {peer : P} {request : BlocksByRootRequest H}

/-- Every block request of a node asks for one root that it is still after. Over the wire, any other
node answers it with exactly the block it stores under that root, or with nothing: the first ends the
fetch and hands that block to the chain, the second costs one of ten attempts and hands on nothing. -/
theorem fetch_exchange (hh : HashSound host) (hacyclic : Acyclic host) (hframing : wire.Framing)
    (hrun : Base.Runs.run (P2PServer.step host.toTreeHash) P2PServer.spawn events = .ok asker)
    (hserver : Running host server)
    (hsent : asker.outstanding.lookup id = some (peer, .blocksByRoot request))
    (hrequest : RequestEncodes wire (.blocksByRoot request))
    (hblocks : ∀ root ∈ request.roots.toList, ∀ block,
      server.store.getSignedBlock host root = some block →
        Codec.Encodes wire (.blocksByRoot [block])) :
    ∃ root blocks asker', request.roots.toList = [root] ∧ root ∈ asker.pendingRequests ∧
      exchange host wire server.store (.blocksByRoot request) =
        .ok (.success (.blocksByRoot blocks)) ∧
      P2PServer.step host.toTreeHash asker (.response id (.success (.blocksByRoot blocks))) =
        .ok asker' ∧
      (∀ block, server.store.getSignedBlock host root = some block → blocks = [block] ∧
        host.block block.message.block = root ∧ root ∉ asker'.pendingRequests ∧
        asker'.forwarded =
          if asker.blockchain then asker.forwarded ++ [block] else asker.forwarded) ∧
      (server.store.getSignedBlock host root = none → blocks = [] ∧
        asker'.forwarded = asker.forwarded ∧
        ∃ n, asker.attempts root = some n ∧
          (maxFetchRetries ≤ n → root ∉ asker'.pendingRequests) ∧
          (n < maxFetchRetries → asker'.attempts root = some (n + 1) ∧
            ⟨root, initialBackoffMs * backoffMultiplier ^ (n - 1)⟩ ∈ asker'.scheduled)) := by
  have hasking := P2PServer.asking_run hrun
  obtain ⟨root, hroots, hmap⟩ := hasking.tracked id peer request hsent
  have hpending := hasking.pending_of_sent hsent hmap
  rw [hroots] at hblocks
  have hexchange (blocks : List (SignedBlockWithAttestation H))
      (hserved : [root].filterMap (server.store.getSignedBlock host) = blocks)
      (hencodes : Codec.Encodes wire (.blocksByRoot blocks)) :
      exchange host wire server.store (.blocksByRoot request) =
        .ok (.success (.blocksByRoot blocks)) := by
    refine exchange_eq hframing hrequest ?_ ?_ hencodes
    · rw [Request.roots, hroots]
      exact le_rfl
    · rw [← hserved, ← hroots]
      rfl
  cases hstored : server.store.getSignedBlock host root with
  | some block =>
    have hroot := (hserver.lineage hh hacyclic).store.loads root block hstored
    have hstep := P2PServer.step_found host.toTreeHash hsent hmap hroot
    refine ⟨root, [block], _, hroots, hpending, hexchange [block] ?_ ?_, hstep, ?_, ?_⟩
    · simp [hstored]
    · exact hblocks root List.mem_cons_self block hstored
    · intro block' heq
      obtain rfl := Option.some.inj (hstored.symm.trans heq)
      exact ⟨rfl, hroot, fun hmem ↦ (AList.mem_erase.mp hmem).1 rfl, rfl⟩
    · intro hnone
      cases hstored.symm.trans hnone
  | none =>
    obtain ⟨n, asker', hn, hstep, hforwarded, hover, hagain⟩ :=
      hasking.step_missing host.toTreeHash hsent hmap
    have hempty : Codec.Encodes wire (.blocksByRoot []) := fun _ h ↦ absurd h List.not_mem_nil
    refine ⟨root, [], asker', hroots, hpending, hexchange [] ?_ hempty, hstep, ?_, fun _ ↦ ?_⟩
    · simp [hstored]
    · intro block heq
      cases hstored.symm.trans heq
    · exact ⟨rfl, hforwarded, n, hn, fun hmax ↦ P2PServer.attempts_eq_none.mp (hover hmax), hagain⟩

end Fetching

section Sample

/-- Each byte with a flag before it, and the end with the other flag. -/
def flagged (bytes : List UInt8) : List UInt8 := bytes.flatMap (fun byte ↦ [1, byte]) ++ [0]

theorem flagged_append {x y s t : List UInt8} (h : flagged x ++ s = flagged y ++ t) :
    x = y ∧ s = t := by
  induction x generalizing y with
  | nil =>
    cases y with
    | nil => exact ⟨rfl, List.cons_inj_right 0 |>.mp h⟩
    | cons b y => exact absurd (List.cons.inj h).1 (by decide)
  | cons a x ih =>
    cases y with
    | nil => exact absurd (List.cons.inj h).1 (by decide)
    | cons b y =>
      change 1 :: a :: (flagged x ++ s) = 1 :: b :: (flagged y ++ t) at h
      obtain ⟨-, htail⟩ := List.cons.inj h
      obtain ⟨rfl, hrest⟩ := List.cons.inj htail
      obtain ⟨rfl, rfl⟩ := ih hrest
      exact ⟨rfl, rfl⟩

def numberBytes (n : ℕ) : List UInt8 := flagged (littleEndian (n.log2 / 8 + 1) n)

theorem numberBytes_append {m n : ℕ} {s t : List UInt8}
    (h : numberBytes m ++ s = numberBytes n ++ t) : m = n ∧ s = t := by
  have hfits (k : ℕ) : k < 256 ^ (k.log2 / 8 + 1) := by
    refine Nat.lt_log2_self.trans_le ?_
    rw [show 256 = 2 ^ 8 from rfl, ← Nat.pow_mul]
    exact Nat.pow_le_pow_right (by decide) (by omega)
  obtain ⟨hbytes, rfl⟩ := flagged_append h
  have hvalue := congrArg fromLittleEndian hbytes
  rw [fromLittleEndian_littleEndian (hfits m), fromLittleEndian_littleEndian (hfits n)] at hvalue
  exact ⟨hvalue, rfl⟩

theorem eq_of_flatMap_numberBytes {l l' : List ℕ} (hlen : l.length = l'.length)
    (h : l.flatMap numberBytes = l'.flatMap numberBytes) : l = l' := by
  induction l generalizing l' with
  | nil => exact (List.length_eq_zero_iff.mp hlen.symm).symm
  | cons n l ih =>
    cases l' with
    | nil => exact nomatch hlen
    | cons n' l' =>
      rw [List.flatMap_cons, List.flatMap_cons] at h
      obtain ⟨rfl, hrest⟩ := numberBytes_append h
      rw [ih (Nat.succ.inj hlen) hrest]

def proofsCode (proofs : List AggregatedSignatureProof) : ℕ :=
  Encodable.encode (proofs.map fun p ↦ (p.participants.toList, p.proofData.toList.map UInt8.toNat))

theorem proofsCode_injective : Function.Injective proofsCode := by
  intro l l' h
  refine List.map_injective_iff.mpr ?_ (Encodable.encode_injective h)
  rintro ⟨⟨bits, hbits⟩, ⟨bytes, hbytes⟩⟩ ⟨⟨bits', hbits'⟩, ⟨bytes', hbytes'⟩⟩ heq
  obtain ⟨rfl, heq⟩ := Prod.mk.inj heq
  obtain rfl := List.map_injective_iff.mpr (fun _ _ ↦ UInt8.toNat_inj.mp) heq
  rfl

/-- All that a signed block is made of. -/
def blockNumbers (sb : SignedBlockWithAttestation ℕ) : List ℕ :=
  let block := sb.message.block
  let vote := sb.message.proposerAttestation
  [block.slot.toNat, block.proposerIndex.toNat, block.parentRoot, block.stateRoot,
    bodyCode block.body, vote.validatorId.toNat, vote.data.slot.toNat, vote.data.head.root,
    vote.data.head.slot.toNat, vote.data.target.root, vote.data.target.slot.toNat,
    vote.data.source.root, vote.data.source.slot.toNat,
    proofsCode sb.signature.attestationSignatures.toList,
    fromLittleEndian sb.signature.proposerSignature.toList]

def blockBytes (sb : SignedBlockWithAttestation ℕ) : List UInt8 :=
  (blockNumbers sb).flatMap numberBytes

theorem blockNumbers_injective : Function.Injective blockNumbers := by
  rintro ⟨⟨⟨slot, index, parent, state, body⟩, ⟨validator, ⟨s, ⟨hr, hs⟩, ⟨tr, ts⟩, ⟨sr, ss⟩⟩⟩⟩,
      ⟨⟨proofs, hproofs⟩, signature⟩⟩
    ⟨⟨⟨slot', index', parent', state', body'⟩, ⟨validator', ⟨s', ⟨hr', hs'⟩, ⟨tr', ts'⟩, ⟨sr', ss'⟩⟩⟩⟩,
      ⟨⟨proofs', hproofs'⟩, signature'⟩⟩ h
  simp only [blockNumbers, List.cons.injEq, UInt64.toNat_inj, bodyCode_injective.eq_iff,
    proofsCode_injective.eq_iff, and_true] at h
  obtain ⟨rfl, rfl, rfl, rfl, rfl, rfl, rfl, rfl, rfl, rfl, rfl, rfl, rfl, rfl, hsig⟩ := h
  obtain rfl := Vector.toList_inj.mp (fromLittleEndian_inj (by simp) hsig)
  rfl

theorem blockBytes_injective : Function.Injective blockBytes :=
  fun _ _ h ↦ blockNumbers_injective (eq_of_flatMap_numberBytes rfl h)

/-- The numbers that follow one another in 32 bytes each. -/
def readRoots : ℕ → List UInt8 → List ℕ
  | 0, _ => []
  | n + 1, bytes => fromLittleEndian (bytes.take 32) :: readRoots n (bytes.drop 32)

/-- Plain frames and the SSZ form of requests and of statuses, for roots that fit 32 bytes. Of the
blocks only the given ones are read back. -/
def sampleWire (blocks : List (SignedBlockWithAttestation ℕ)) : Wire ℕ where
  statusToSsz s := littleEndian 32 s.finalized.root ++ (littleEndian 8 s.finalized.slot.toNat ++
    (littleEndian 32 s.head.root ++ littleEndian 8 s.head.slot.toNat))
  statusFromSsz bytes :=
    let rootAt (i : ℕ) : ℕ := fromLittleEndian ((bytes.drop i).take 32)
    let slotAt (i : ℕ) : UInt64 := UInt64.ofNat (fromLittleEndian ((bytes.drop i).take 8))
    if bytes.length = 80 then .ok ⟨⟨rootAt 0, slotAt 32⟩, ⟨rootAt 40, slotAt 72⟩⟩
    else .error "InvalidByteLength"
  requestToSsz request := request.roots.toList.flatMap (littleEndian 32)
  requestFromSsz bytes :=
    match VariableList.new maxRequestBlocks (readRoots (bytes.length / 32) bytes) with
    | some roots => if bytes.length % 32 = 0 then .ok ⟨roots⟩ else .error "InvalidByteLength"
    | none => .error "BytesInvalid"
  blockToSsz := blockBytes
  blockFromSsz bytes :=
    match blocks.find? fun block ↦ blockBytes block = bytes with
    | some block => .ok block
    | none => .error "InvalidByteLength"
  messageToSsz message := message.toList
  messageFromSsz bytes := match VariableList.new maxErrorMessageLength bytes with
    | some message => .ok message
    | none => .error "BytesInvalid"
  frameEncode := Codec.plainFrame
  frameDecode := Codec.readPlainFrame

theorem sampleWire_framing (blocks : List (SignedBlockWithAttestation ℕ)) :
    (sampleWire blocks).Framing where
  decode_encode := Codec.plainWire_framing.decode_encode
  length_le := Codec.plainWire_framing.length_le
  encode_ne_nil := Codec.plainWire_framing.encode_ne_nil
  in_order := Codec.plainWire_framing.in_order
  followed := Codec.plainWire_framing.followed

theorem sampleWire_encodes {blocks : List (SignedBlockWithAttestation ℕ)}
    {block : SignedBlockWithAttestation ℕ} (hblock : block ∈ blocks)
    (hlength : (blockBytes block).length ≤ maxPayloadSize) :
    Codec.Encodes (sampleWire blocks) (.blocksByRoot [block]) := by
  intro x hx
  obtain rfl := List.mem_singleton.mp hx
  refine ⟨?_, by simp [sampleWire, blockBytes, blockNumbers, numberBytes, flagged], hlength⟩
  change (match blocks.find? fun block ↦ blockBytes block = blockBytes x with
    | some block => Except.ok block
    | none => Except.error "InvalidByteLength") = .ok x
  cases hfind : blocks.find? fun block ↦ blockBytes block = blockBytes x with
  | some y =>
    have hsame := List.find?_some hfind
    rw [decide_eq_true_eq] at hsame
    rw [blockBytes_injective hsame]
  | none => simpa using List.find?_eq_none.mp hfind x hblock

/-- A node that asks its one peer for the first sample block. -/
def sampleFetch : List (Event ℕ ℕ) :=
  [.initBlockChain, .connectionEstablished 7 1 ⟨⟨0, 0⟩, ⟨0, 0⟩⟩,
    .fetchBlock (rootOf sampleHost sampleFirst) 0]

def sampleRequest : BlocksByRootRequest ℕ := ⟨[rootOf sampleHost sampleFirst], by decide⟩

theorem sampleWire_request (blocks : List (SignedBlockWithAttestation ℕ)) :
    RequestEncodes (sampleWire blocks) (.blocksByRoot sampleRequest) := by
  have hto : (sampleWire blocks).requestToSsz = (sampleWire []).requestToSsz := rfl
  have hfrom : (sampleWire blocks).requestFromSsz = (sampleWire []).requestFromSsz := rfl
  rw [RequestEncodes, hto, hfrom]
  exact ⟨by decide +kernel, by decide +kernel, by decide +kernel⟩

theorem fetch_exchange_sample : ∃ asker server block asker',
    Base.Runs.run (P2PServer.step sampleHost.toTreeHash) P2PServer.spawn sampleFetch = .ok asker ∧
    Server.step sampleHost sampleServer ⟨1, .newBlock sampleFirst⟩ = .ok server ∧
    sampleHost.block block.message.block = sampleHost.block sampleFirst.message.block ∧
    exchange sampleHost (sampleWire [block]) server.store (.blocksByRoot sampleRequest) =
      .ok (.success (.blocksByRoot [block])) ∧
    P2PServer.step sampleHost.toTreeHash asker
      (.response 2 (.success (.blocksByRoot [block]))) = .ok asker' ∧
    asker'.forwarded = [block] := by
  obtain ⟨asker, hrun, hasked⟩ := Exec.exists_ok_of_map
    (x := Base.Runs.run (P2PServer.step sampleHost.toTreeHash) P2PServer.spawn sampleFetch)
    (f := fun s ↦ (s.outstanding.lookup 2, s.blockchain, s.forwarded.length))
    (b := (some (7, .blocksByRoot sampleRequest), true, 0)) (by decide +kernel)
  obtain ⟨server, hstep, hstored⟩ := Exec.exists_ok_of_map
    (x := Server.step sampleHost sampleServer ⟨1, .newBlock sampleFirst⟩)
    (f := fun s ↦ (s.store.getSignedBlock sampleHost (rootOf sampleHost sampleFirst)).map fun block ↦
      decide ((blockBytes block).length ≤ maxPayloadSize))
    (b := some true) (by decide +kernel)
  have hrunning : Running sampleHost server :=
    .step (.spawn sampleGenesis_anchor sampleStore_eq) hstep
  obtain ⟨block, hblock, hlength⟩ := Option.map_eq_some_iff.mp hstored
  obtain ⟨hsent, hview⟩ := Prod.mk.inj hasked
  obtain ⟨hblockchain, hforwarded⟩ := Prod.mk.inj hview
  obtain ⟨root, blocks, asker', hroots, -, hexchange, hasker, hfound, -⟩ :=
    fetch_exchange sampleHost_hashSound sampleHost_acyclic (sampleWire_framing [block]) hrun
      hrunning hsent (sampleWire_request [block]) fun root hroot stored hload ↦ by
        obtain rfl := List.mem_singleton.mp hroot
        obtain rfl := Option.some.inj (hblock.symm.trans hload)
        exact sampleWire_encodes List.mem_cons_self (of_decide_eq_true hlength)
  obtain rfl : rootOf sampleHost sampleFirst = root := (List.cons.inj hroots).1
  obtain ⟨rfl, hroot, -, hnext⟩ := hfound block hblock
  rw [hblockchain, if_pos rfl, List.length_eq_zero_iff.mp hforwarded] at hnext
  exact ⟨asker, server, block, asker', hrun, hstep, hroot, hexchange, hasker, hnext⟩

end Sample

end Ethlambda.Network
