import Ethlambda.Network.Fetch

namespace Ethlambda.Network

open Ethlambda.Base Ethlambda.Types

set_option linter.unusedSectionVars false

variable {P H : Type}

def Request.isBlocksByRoot : Request H → Bool
  | .status _ => false
  | .blocksByRoot _ => true

namespace P2PServer

/-- The swarm has taken a request. -/
def send (server : P2PServer P H) (sent : P × Request H) : P2PServer P H :=
  { server with
    nextRequestId := server.nextRequestId + 1
    outstanding := server.outstanding.insert server.nextRequestId sent }

/-- A request has been settled; the map may have lost its entry. -/
def settle (server : P2PServer P H) (requestId : ℕ) (requestIdMap : Table ℕ H) : P2PServer P H :=
  { server with outstanding := server.outstanding.erase requestId, requestIdMap := requestIdMap }

def fire [DecidableEq H] (server : P2PServer P H) (retry : RetryBlockFetch H) : P2PServer P H :=
  { server with scheduled := server.scheduled.erase retry }

section Effects

variable [DecidableEq H] {server server' : P2PServer P H} {root a : H}

/-- The swarm side of the state is as it was. -/
structure SameRequests (server server' : P2PServer P H) : Prop where
  nextRequestId : server'.nextRequestId = server.nextRequestId
  outstanding : server'.outstanding = server.outstanding
  requestIdMap : server'.requestIdMap = server.requestIdMap

theorem SameRequests.refl (server : P2PServer P H) : SameRequests server server := ⟨rfl, rfl, rfl⟩

theorem SameRequests.trans {server'' : P2PServer P H} (h : SameRequests server server')
    (h' : SameRequests server' server'') : SameRequests server server'' where
  nextRequestId := h'.nextRequestId.trans h.nextRequestId
  outstanding := h'.outstanding.trans h.outstanding
  requestIdMap := h'.requestIdMap.trans h.requestIdMap

/-- Nothing that bears on a fetch has changed. -/
structure Quiet (server server' : P2PServer P H) : Prop extends SameRequests server server' where
  scheduled : server'.scheduled = server.scheduled
  pending : ∀ a, a ∈ server'.pendingRequests ↔ a ∈ server.pendingRequests

theorem Quiet.refl (server : P2PServer P H) : Quiet server server :=
  ⟨.refl server, rfl, fun _ ↦ Iff.rfl⟩

/-- A fresh block request is mapped to the root, which is pending. -/
structure Sends (server : P2PServer P H) (root : H) (server' : P2PServer P H) : Prop where
  nextRequestId : server'.nextRequestId = server.nextRequestId + 1
  outstanding : ∃ sent : P × Request H, sent.2.isBlocksByRoot = true ∧
    server'.outstanding = server.outstanding.insert server.nextRequestId sent
  requestIdMap : server'.requestIdMap = server.requestIdMap.insert server.nextRequestId root
  scheduled : server'.scheduled = server.scheduled
  pending : ∀ a, a ∈ server'.pendingRequests ↔ a = root ∨ a ∈ server.pendingRequests

theorem mem_trackRequest (server : P2PServer P H) (requestId : ℕ) (root a : H) :
    a ∈ (server.trackRequest requestId root).pendingRequests ↔
      a = root ∨ a ∈ server.pendingRequests := by
  unfold trackRequest
  cases h : server.pendingRequests.lookup root with
  | none => exact AList.mem_insert _
  | some pending =>
    rw [or_iff_right_of_imp]
    rintro rfl
    exact Table.mem_iff_lookup.mpr ⟨pending, h⟩

theorem clearFailedPeers_quiet (server : P2PServer P H) (root : H) :
    Quiet server (server.clearFailedPeers root) := by
  unfold clearFailedPeers
  cases h : server.pendingRequests.lookup root with
  | none => exact .refl server
  | some pending =>
    refine ⟨⟨rfl, rfl, rfl⟩, rfl, fun a ↦ ?_⟩
    rw [AList.mem_insert, or_iff_right_of_imp]
    rintro rfl
    exact Table.mem_iff_lookup.mpr ⟨pending, h⟩

theorem requestFromPeer_cases (pick : ℕ) (server : P2PServer P H) (pool : List P) (root : H) :
    requestFromPeer pick server pool root = (false, server) ∨
      (requestFromPeer pick server pool root).1 = true ∧
        Sends server root (requestFromPeer pick server pool root).2 := by
  unfold requestFromPeer
  cases pool[pick % pool.length]? with
  | none => exact .inl rfl
  | some peer =>
    cases VariableList.new maxRequestBlocks [root] with
    | none => exact .inl rfl
    | some roots =>
      unfold sendRequest
      cases server.adapterOpen with
      | false => exact .inl rfl
      | true =>
        refine .inr ⟨rfl, rfl, ⟨_, ?_, rfl⟩, rfl, rfl, fun a ↦ mem_trackRequest _ _ _ _⟩
        rfl

theorem Sends.of_quiet {cleared : P2PServer P H} (hquiet : Quiet server cleared)
    (h : Sends cleared root server') : Sends server root server' where
  nextRequestId := by rw [h.nextRequestId, hquiet.nextRequestId]
  outstanding := by
    rw [← hquiet.outstanding, ← hquiet.nextRequestId]
    exact h.outstanding
  requestIdMap := by rw [h.requestIdMap, hquiet.requestIdMap, hquiet.nextRequestId]
  scheduled := by rw [h.scheduled, hquiet.scheduled]
  pending a := by rw [h.pending, hquiet.pending]

theorem fetchBlockFromPeer_cases [DecidableEq P] (pick : ℕ) (server : P2PServer P H) (root : H) :
    (fetchBlockFromPeer pick server root).1 = false ∧
        Quiet server (fetchBlockFromPeer pick server root).2 ∨
      (fetchBlockFromPeer pick server root).1 = true ∧
        Sends server root (fetchBlockFromPeer pick server root).2 := by
  unfold fetchBlockFromPeer
  split
  · exact .inl ⟨rfl, .refl server⟩
  · split
    · have hquiet := clearFailedPeers_quiet server root
      rcases requestFromPeer_cases pick (server.clearFailedPeers root) server.connectedPeers root
        with h | ⟨htrue, hsends⟩
      · rw [h]
        exact .inl ⟨rfl, hquiet⟩
      · exact .inr ⟨htrue, hsends.of_quiet hquiet⟩
    · rcases requestFromPeer_cases pick server (server.untriedPeers root) root with h | h
      · rw [h]
        exact .inl ⟨rfl, .refl server⟩
      · exact .inr h

theorem handleFetchFailure_sameRequests [DecidableEq P] (server : P2PServer P H) (root : H)
    (peer : P) : SameRequests server (server.handleFetchFailure root peer) := by
  unfold handleFetchFailure
  split
  · exact .refl server
  · split
    · exact ⟨rfl, rfl, rfl⟩
    · exact ⟨rfl, rfl, rfl⟩

theorem receiveBlock_sameRequests (th : TreeHash H) (root : H) (server : P2PServer P H)
    (block : SignedBlockWithAttestation H) :
    SameRequests server (receiveBlock th root server block) := by
  unfold receiveBlock
  split
  · exact .refl server
  · exact ⟨rfl, rfl, rfl⟩

theorem receiveBlocks_sameRequests (th : TreeHash H) (root : H) (server : P2PServer P H)
    (blocks : List (SignedBlockWithAttestation H)) :
    SameRequests server (blocks.foldl (receiveBlock th root) server) := by
  induction blocks generalizing server with
  | nil => exact .refl server
  | cons block blocks ih =>
    rw [List.foldl_cons]
    exact (receiveBlock_sameRequests th root server block).trans (ih _)

/-- Blocks of the requested root end its fetch, and no others count. -/
theorem mem_receiveBlocks (th : TreeHash H) (root a : H) (server : P2PServer P H)
    (blocks : List (SignedBlockWithAttestation H)) :
    a ∈ (blocks.foldl (receiveBlock th root) server).pendingRequests ↔
      a ∈ server.pendingRequests ∧
        ¬(a = root ∧ ∃ block ∈ blocks, th.block block.message.block = root) := by
  induction blocks generalizing server with
  | nil => simp
  | cons block blocks ih =>
    rw [List.foldl_cons, ih, receiveBlock]
    by_cases hroot : th.block block.message.block = root
    · rw [if_neg (by simpa using hroot)]
      simp only [AList.mem_erase, hroot, List.mem_cons, exists_eq_or_imp]
      tauto
    · rw [if_pos hroot]
      simp only [List.mem_cons, exists_eq_or_imp, hroot, false_or]

theorem receiveBlocks_scheduled (th : TreeHash H) (root : H) (server : P2PServer P H)
    (blocks : List (SignedBlockWithAttestation H)) :
    (blocks.foldl (receiveBlock th root) server).scheduled = server.scheduled := by
  induction blocks generalizing server with
  | nil => rfl
  | cons block blocks ih =>
    rw [List.foldl_cons, ih, receiveBlock]
    split
    · rfl
    · rfl

end Effects

section Steps

variable [DecidableEq P] [DecidableEq H] {th : TreeHash H} {server server' : P2PServer P H}
  {event : Event P H}

/-- Blocks come back for a tracked request. -/
def Answers (server : P2PServer P H) : Event P H → Prop
  | .response requestId (.success (.blocksByRoot _)) => requestId ∈ server.requestIdMap
  | _ => False

/-- Everything that an event can do to the fetches. -/
inductive Effect (th : TreeHash H) (server : P2PServer P H) :
    Event P H → P2PServer P H → Prop
  | quiet {event : Event P H} {server' : P2PServer P H} (hevent : ¬Answers server event)
      (h : Quiet server server') : Effect th server event server'
  | status {event : Event P H} {server' : P2PServer P H} {sent : P × Request H}
      (hevent : ¬Answers server event) (hsent : sent.2.isBlocksByRoot = false)
      (h : Quiet (server.send sent) server') :
      Effect th server event server'
  | fetch {root : H} {pick : ℕ} {server' : P2PServer P H} (hidle : root ∉ server.pendingRequests)
      (h : Sends server root server') : Effect th server (.fetchBlock root pick) server'
  | ignored {event : Event P H} {requestId : ℕ} {sent : P × Request H}
      (hevent : ¬Answers server event)
      (hsent : server.outstanding.lookup requestId = some sent)
      (hnone : sent.2.isBlocksByRoot = true → server.requestIdMap.lookup requestId = none) :
      Effect th server event (server.settle requestId server.requestIdMap)
  | empty {requestId : ℕ} {peer : P} {request : Request H} {root : H}
      (hsent : server.outstanding.lookup requestId = some (peer, request))
      (hblocks : request.isBlocksByRoot = true)
      (hroot : server.requestIdMap.lookup requestId = some root) :
      Effect th server (.response requestId (.success (.blocksByRoot [])))
        (handleFetchFailure (server.settle requestId
          ((server.requestIdMap.erase requestId).insert requestId root)) root peer)
  | failed {requestId : ℕ} {peer : P} {request : Request H} {root : H}
      (hsent : server.outstanding.lookup requestId = some (peer, request))
      (hroot : server.requestIdMap.lookup requestId = some root) :
      Effect th server (.outboundFailure requestId)
        (handleFetchFailure (server.settle requestId (server.requestIdMap.erase requestId)) root
          peer)
  | answered {requestId : ℕ} {sent : P × Request H} {root : H}
      {blocks : List (SignedBlockWithAttestation H)} (hne : blocks ≠ [])
      (hsent : server.outstanding.lookup requestId = some sent)
      (hblocks : sent.2.isBlocksByRoot = true)
      (hroot : server.requestIdMap.lookup requestId = some root) :
      Effect th server (.response requestId (.success (.blocksByRoot blocks)))
        (blocks.foldl (receiveBlock th root)
          (server.settle requestId (server.requestIdMap.erase requestId)))
  | dropped {retry : RetryBlockFetch H} {pick : ℕ} (hmem : retry ∈ server.scheduled)
      (hidle : retry.root ∉ server.pendingRequests) :
      Effect th server (.retryBlockFetch retry pick) (server.fire retry)
  | retried {retry : RetryBlockFetch H} {pick : ℕ} {server' : P2PServer P H}
      (hmem : retry ∈ server.scheduled) (h : Sends (server.fire retry) retry.root server') :
      Effect th server (.retryBlockFetch retry pick) server'
  | abandoned {retry : RetryBlockFetch H} {pick : ℕ} {kept : P2PServer P H}
      (hmem : retry ∈ server.scheduled) (h : Quiet (server.fire retry) kept) :
      Effect th server (.retryBlockFetch retry pick)
        { kept with pendingRequests := kept.pendingRequests.erase retry.root }

theorem isBlocksByRoot_of_protocol {request : Request H}
    {blocks : List (SignedBlockWithAttestation H)}
    (h : (Response.success (.blocksByRoot blocks)).protocol = request.protocol) :
    request.isBlocksByRoot = true := by
  cases request with
  | status status => exact absurd h.symm statusProtocolV1_ne_blocksByRoot
  | blocksByRoot request => rfl

theorem isBlocksByRoot_of_status_protocol {request : Request H}
    (h : statusProtocolV1 = request.protocol) : request.isBlocksByRoot = false := by
  cases request with
  | status status => rfl
  | blocksByRoot request => exact absurd h statusProtocolV1_ne_blocksByRoot

theorem fetchBlock_effect (th : TreeHash H) (server : P2PServer P H) (root : H) (pick : ℕ) :
    Effect th server (.fetchBlock root pick) (handleFetchBlock pick server root) := by
  unfold handleFetchBlock
  split
  · exact .quiet id (.refl server)
  · rename_i hidle
    rcases fetchBlockFromPeer_cases pick server root with ⟨-, hquiet⟩ | ⟨-, hsends⟩
    · exact .quiet id hquiet
    · exact .fetch hidle hsends

theorem retryBlockFetch_effect (th : TreeHash H) {retry : RetryBlockFetch H}
    (hmem : retry ∈ server.scheduled) (pick : ℕ) :
    Effect th server (.retryBlockFetch retry pick)
      (handleRetryBlockFetch pick (server.fire retry) retry.root) := by
  unfold handleRetryBlockFetch
  split
  · rename_i hidle
    exact .dropped hmem hidle
  · have hcases := fetchBlockFromPeer_cases pick (server.fire retry) retry.root
    generalize fetchBlockFromPeer pick (server.fire retry) retry.root = result at hcases ⊢
    obtain ⟨done, server'⟩ := result
    cases done with
    | true =>
      rcases hcases with ⟨hfalse, -⟩ | ⟨-, hsends⟩
      · exact nomatch hfalse
      · exact .retried hmem hsends
    | false =>
      rcases hcases with ⟨-, hquiet⟩ | ⟨htrue, -⟩
      · exact .abandoned hmem hquiet
      · exact nomatch htrue

theorem response_effect (th : TreeHash H) {requestId : ℕ} {peer : P} {request : Request H}
    {response : Response H} (hsent : server.outstanding.lookup requestId = some (peer, request))
    (hprotocol : response.protocol = request.protocol) :
    Effect th server (.response requestId response)
      (handleResponse th (server.settle requestId server.requestIdMap) peer requestId
        response) := by
  cases response with
  | error code message =>
    refine .ignored id hsent fun hblocks ↦ ?_
    rw [isBlocksByRoot_of_status_protocol hprotocol] at hblocks
    exact nomatch hblocks
  | success payload =>
    cases payload with
    | status status =>
      refine .ignored id hsent fun hblocks ↦ ?_
      rw [isBlocksByRoot_of_status_protocol hprotocol] at hblocks
      exact nomatch hblocks
    | blocksByRoot blocks =>
      have hblocks := isBlocksByRoot_of_protocol hprotocol
      rw [handleResponse, handleBlocksByRootResponse]
      cases hroot : server.requestIdMap.lookup requestId with
      | none =>
        simp only [settle, hroot]
        exact .ignored (AList.lookup_eq_none.mp hroot) hsent fun _ ↦ hroot
      | some root =>
        simp only [settle, hroot]
        cases blocks with
        | nil => exact .empty hsent hblocks hroot
        | cons block blocks => exact .answered (List.cons_ne_nil block blocks) hsent hblocks hroot

theorem outboundFailure_effect (th : TreeHash H) {requestId : ℕ} {peer : P} {request : Request H}
    (hsent : server.outstanding.lookup requestId = some (peer, request)) :
    Effect th server (.outboundFailure requestId)
      (handleOutboundFailure (server.settle requestId server.requestIdMap) peer requestId) := by
  unfold handleOutboundFailure
  cases hroot : server.requestIdMap.lookup requestId with
  | none =>
    simp only [settle, hroot]
    exact .ignored id hsent fun _ ↦ hroot
  | some root =>
    simp only [settle, hroot]
    exact .failed hsent hroot

theorem connectionEstablished_effect (th : TreeHash H) (server : P2PServer P H) (peer : P)
    (numEstablished : ℕ) (ourStatus : Status H) :
    Effect th server (.connectionEstablished peer numEstablished ourStatus)
      (handleConnectionEstablished server peer numEstablished ourStatus) := by
  unfold handleConnectionEstablished
  split
  · unfold sendRequest
    split
    · have hsent : ((peer, .status ourStatus) : P × Request H).2.isBlocksByRoot = false := rfl
      exact .status id hsent ⟨⟨rfl, rfl, rfl⟩, rfl, fun _ ↦ Iff.rfl⟩
    · exact .quiet id ⟨⟨rfl, rfl, rfl⟩, rfl, fun _ ↦ Iff.rfl⟩
  · exact .quiet id (.refl server)

theorem step_effect (h : step th server event = .ok server') : Effect th server event server' := by
  cases event with
  | initBlockChain =>
    obtain rfl := Except.ok.inj h
    exact .quiet id ⟨⟨rfl, rfl, rfl⟩, rfl, fun _ ↦ Iff.rfl⟩
  | fetchBlock root pick =>
    obtain rfl := Except.ok.inj h
    exact fetchBlock_effect th server root pick
  | retryBlockFetch retry pick =>
    rw [step] at h
    split at h
    · rename_i hmem
      obtain rfl := Except.ok.inj h
      exact retryBlockFetch_effect th hmem pick
    · exact nomatch h
  | response requestId response =>
    rw [step] at h
    cases hsent : server.outstanding.lookup requestId with
    | none =>
      rw [hsent] at h
      exact nomatch h
    | some sent =>
      rw [hsent] at h
      dsimp only at h
      split at h
      · rename_i hprotocol
        obtain rfl := Except.ok.inj h
        exact response_effect th hsent hprotocol
      · exact nomatch h
  | outboundFailure requestId =>
    rw [step] at h
    cases hsent : server.outstanding.lookup requestId with
    | none =>
      rw [hsent] at h
      exact nomatch h
    | some sent =>
      rw [hsent] at h
      obtain rfl := Except.ok.inj h
      exact outboundFailure_effect th hsent
  | connectionEstablished peer numEstablished ourStatus =>
    obtain rfl := Except.ok.inj h
    exact connectionEstablished_effect th server peer numEstablished ourStatus
  | connectionClosed peer numEstablished =>
    obtain rfl := Except.ok.inj h
    refine .quiet id ?_
    unfold handleConnectionClosed
    split
    · exact ⟨⟨rfl, rfl, rfl⟩, rfl, fun _ ↦ Iff.rfl⟩
    · exact .refl server
  | adapterClosed =>
    obtain rfl := Except.ok.inj h
    exact .quiet id ⟨⟨rfl, rfl, rfl⟩, rfl, fun _ ↦ Iff.rfl⟩

/-- Numbers are given out in order, and only block requests are mapped. -/
structure Numbered (server : P2PServer P H) : Prop where
  outstanding : ∀ id ∈ server.outstanding, id < server.nextRequestId
  requestIdMap : ∀ id ∈ server.requestIdMap, id < server.nextRequestId
  blocks : ∀ id sent root, server.outstanding.lookup id = some sent →
    server.requestIdMap.lookup id = some root → sent.2.isBlocksByRoot = true

theorem numbered_spawn : Numbered (spawn : P2PServer P H) where
  outstanding _ h := absurd h (AList.notMem_empty _)
  requestIdMap _ h := absurd h (AList.notMem_empty _)
  blocks _ _ _ h _ := nomatch h

theorem Numbered.fresh (h : Numbered server) : server.nextRequestId ∉ server.outstanding :=
  fun hmem ↦ absurd (h.outstanding _ hmem) (lt_irrefl _)

theorem Numbered.fresh_map (h : Numbered server) : server.nextRequestId ∉ server.requestIdMap :=
  fun hmem ↦ absurd (h.requestIdMap _ hmem) (lt_irrefl _)

theorem Numbered.of_sameRequests (h : Numbered server) (hsame : SameRequests server server') :
    Numbered server' := by
  obtain ⟨hout, hmap, hblocks⟩ := h
  rw [← hsame.outstanding, ← hsame.nextRequestId] at hout
  rw [← hsame.requestIdMap, ← hsame.nextRequestId] at hmap
  rw [← hsame.outstanding, ← hsame.requestIdMap] at hblocks
  exact ⟨hout, hmap, hblocks⟩

theorem Numbered.fire (h : Numbered server) (retry : RetryBlockFetch H) :
    Numbered (server.fire retry) := h.of_sameRequests ⟨rfl, rfl, rfl⟩

theorem Numbered.settle (h : Numbered server) (requestId : ℕ) {requestIdMap : Table ℕ H}
    (hmap : ∀ id root, requestIdMap.lookup id = some root →
      server.requestIdMap.lookup id = some root) :
    Numbered (server.settle requestId requestIdMap) where
  outstanding id hid := h.outstanding id (AList.mem_erase.mp hid).2
  requestIdMap id hid := by
    obtain ⟨root, hroot⟩ := Table.mem_iff_lookup.mp hid
    exact h.requestIdMap id (Table.mem_iff_lookup.mpr ⟨root, hmap id root hroot⟩)
  blocks id sent root hsent hroot := by
    refine h.blocks id sent root ?_ (hmap id root hroot)
    change (server.outstanding.erase requestId).lookup id = some sent at hsent
    rw [Table.lookup_erase_eq_ite] at hsent
    split at hsent
    · exact nomatch hsent
    · exact hsent

theorem Numbered.sent (h : Numbered server) {sent : P × Request H}
    (hnext : server'.nextRequestId = server.nextRequestId + 1)
    (hout : server'.outstanding = server.outstanding.insert server.nextRequestId sent)
    (hmap : ∀ id root, server'.requestIdMap.lookup id = some root →
      id = server.nextRequestId ∧ sent.2.isBlocksByRoot = true ∨
        server.requestIdMap.lookup id = some root) : Numbered server' where
  outstanding id hid := by
    rw [hnext]
    rw [hout, AList.mem_insert] at hid
    rcases hid with rfl | hid
    · exact Nat.lt_succ_self _
    · exact Nat.lt_succ_of_lt (h.outstanding id hid)
  requestIdMap id hid := by
    rw [hnext]
    obtain ⟨root, hroot⟩ := Table.mem_iff_lookup.mp hid
    rcases hmap id root hroot with ⟨rfl, -⟩ | hroot
    · exact Nat.lt_succ_self _
    · exact Nat.lt_succ_of_lt (h.requestIdMap id (Table.mem_iff_lookup.mpr ⟨root, hroot⟩))
  blocks id sent' root hsent hroot := by
    rw [hout, Table.lookup_insert_eq_ite] at hsent
    rcases hmap id root hroot with ⟨rfl, hblocks⟩ | hroot
    · rw [if_pos rfl] at hsent
      exact Option.some.inj hsent ▸ hblocks
    · split at hsent
      · rename_i heq
        rw [heq] at hroot
        exact absurd (Table.mem_iff_lookup.mpr ⟨root, hroot⟩) h.fresh_map
      · exact h.blocks id sent' root hsent hroot

theorem Numbered.sends (h : Numbered server) {root : H} (hsends : Sends server root server') :
    Numbered server' := by
  obtain ⟨sent, hblocks, hout⟩ := hsends.outstanding
  refine h.sent hsends.nextRequestId hout fun id a ha ↦ ?_
  rw [hsends.requestIdMap, Table.lookup_insert_eq_ite] at ha
  split at ha
  · rename_i heq
    exact .inl ⟨heq, hblocks⟩
  · exact .inr ha

theorem lookup_of_erase {t : Table ℕ H} {requestId id : ℕ} {root : H}
    (h : (t.erase requestId).lookup id = some root) : t.lookup id = some root := by
  rw [Table.lookup_erase_eq_ite] at h
  split at h
  · exact nomatch h
  · exact h

theorem Numbered.effect (h : Numbered server) (he : Effect th server event server') :
    Numbered server' := by
  cases he with
  | quiet hevent hquiet => exact h.of_sameRequests hquiet.toSameRequests
  | status hevent hsent hquiet =>
    refine h.sent hquiet.nextRequestId hquiet.outstanding fun id root hroot ↦ .inr ?_
    rw [hquiet.requestIdMap] at hroot
    exact hroot
  | fetch hidle hsends => exact h.sends hsends
  | ignored hevent hsent hnone => exact h.settle _ fun _ _ hroot ↦ hroot
  | @empty requestId _ _ a hsent hblocks hroot =>
    refine (h.settle _ fun id b hb ↦ ?_).of_sameRequests (handleFetchFailure_sameRequests _ _ _)
    rw [Table.lookup_insert_eq_ite] at hb
    split at hb
    · rename_i heq
      rw [heq, hroot]
      exact hb
    · exact lookup_of_erase hb
  | failed hsent hroot =>
    exact (h.settle _ fun _ _ ↦ lookup_of_erase).of_sameRequests
      (handleFetchFailure_sameRequests _ _ _)
  | answered hne hsent hblocks hroot =>
    exact (h.settle _ fun _ _ ↦ lookup_of_erase).of_sameRequests
      (receiveBlocks_sameRequests _ _ _ _)
  | dropped hmem hidle => exact h.fire _
  | retried hmem hsends =>
    exact (h.fire _).sends hsends
  | abandoned hmem hquiet =>
    exact h.of_sameRequests ⟨hquiet.nextRequestId, hquiet.outstanding, hquiet.requestIdMap⟩

end Steps

end P2PServer

section Samples

/-- A hash that gives each block its slot as root. -/
def slotHash : TreeHash ℕ where
  header _ := 0
  body _ := 0
  block b := b.slot.toNat
  state _ := 0
  attestationData _ := 0

/-- A peer connects and is sent our status, then it is asked for the block with root 5. That
request has number 2. -/
def slotFetch : List (Event ℕ ℕ) :=
  [.connectionEstablished 7 1 ⟨⟨0, 0⟩, ⟨0, 0⟩⟩, .fetchBlock 5 0]

end Samples

end Ethlambda.Network
