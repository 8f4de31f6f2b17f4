import Ethlambda.Network.Effects

namespace Ethlambda.Network

open Ethlambda.Base Ethlambda.Types

set_option linter.unusedSectionVars false

variable {P H : Type}

/-- How far the fetch of one root is. A stranded root counts as pending, and nothing will ever
fetch it. -/
inductive Phase
  | idle
  | live
  | stranded
deriving DecidableEq

/-- What one event can do to the fetch of a root. -/
inductive Phase.Next (strands : Prop) : Phase → Phase → Prop
  | stay (phase : Phase) : Next strands phase phase
  | start : Next strands .idle .live
  | finish : Next strands .live .idle
  | strand : strands → Next strands .live .stranded

theorem Phase.Next.stranded {strands : Prop} {phase : Phase}
    (h : Phase.Next strands .stranded phase) : phase = .stranded := by
  cases h
  rfl

namespace P2PServer

variable [DecidableEq H]

/-- The unsettled block requests that are mapped to a root. -/
def inFlight (server : P2PServer P H) (root : H) : ℕ :=
  (Table.pairs server.outstanding).countP fun e ↦
    e.2.2.isBlocksByRoot && decide (server.requestIdMap.lookup e.1 = some root)

def retries (server : P2PServer P H) (root : H) : ℕ :=
  server.scheduled.countP fun retry ↦ decide (retry.root = root)

/-- What keeps the fetch of a root alive. -/
def tokens (server : P2PServer P H) (root : H) : ℕ := server.inFlight root + server.retries root

section Counting

variable {server server' : P2PServer P H} {requestId : ℕ} {sent : P × Request H}
  {a : H}

theorem inFlight_congr {l : List (ℕ × P × Request H)}
    (hmap : ∀ e ∈ l, server'.requestIdMap.lookup e.1 = server.requestIdMap.lookup e.1) :
    l.countP (fun e ↦ e.2.2.isBlocksByRoot &&
        decide (server'.requestIdMap.lookup e.1 = some a)) =
      l.countP (fun e ↦ e.2.2.isBlocksByRoot &&
        decide (server.requestIdMap.lookup e.1 = some a)) := by
  refine List.countP_congr fun e he ↦ ?_
  rw [hmap e he]

theorem inFlight_of_sent (hfresh : requestId ∉ server.outstanding)
    (hout : server'.outstanding = server.outstanding.insert requestId sent)
    (hmap : ∀ b ≠ requestId, server'.requestIdMap.lookup b = server.requestIdMap.lookup b) :
    server'.inFlight a = server.inFlight a +
      if sent.2.isBlocksByRoot && decide (server'.requestIdMap.lookup requestId = some a)
        then 1 else 0 := by
  unfold inFlight
  rw [hout, Table.countP_pairs_insert hfresh, inFlight_congr]
  intro e he
  refine hmap e.1 fun heq ↦ hfresh ?_
  rw [← heq]
  exact Table.mem_iff_lookup.mpr ⟨e.2, Table.mem_pairs.mp he⟩

theorem inFlight_settle {requestIdMap : Table ℕ H}
    (hsent : server.outstanding.lookup requestId = some sent)
    (hmap : ∀ b ≠ requestId, requestIdMap.lookup b = server.requestIdMap.lookup b) :
    (server.settle requestId requestIdMap).inFlight a +
      (if sent.2.isBlocksByRoot && decide (server.requestIdMap.lookup requestId = some a)
        then 1 else 0) = server.inFlight a := by
  unfold inFlight settle
  rw [← Table.countP_pairs_erase hsent]
  refine congrArg (· + _) (inFlight_congr fun e he ↦ hmap e.1 fun heq ↦ ?_)
  have hlookup := Table.mem_pairs.mp he
  rw [heq, AList.lookup_erase] at hlookup
  exact nomatch hlookup

end Counting

section Phases

variable {server server' : P2PServer P H} {root a : H} {phase : Phase}
  {requestId : ℕ} {requestIdMap : Table ℕ H} {sent : P × Request H}

/-- The server is in the given phase of the fetch of a root. -/
structure Shows (server : P2PServer P H) (root : H) (phase : Phase) : Prop where
  pending : root ∈ server.pendingRequests ↔ phase ≠ .idle
  tokens : server.tokens root = if phase = .live then 1 else 0

theorem Shows.unique {phase' : Phase} (h : Shows server root phase)
    (h' : Shows server root phase') : phase = phase' := by
  have hpending := h.pending.symm.trans h'.pending
  have htokens := h.tokens.symm.trans h'.tokens
  cases phase <;> cases phase' <;> simp_all

theorem Shows.live_of_pos (h : Shows server root phase) (hpos : 0 < server.tokens root) :
    phase = .live := by
  have htokens := h.tokens
  split at htokens
  · assumption
  · omega

theorem SameRequests.inFlight_eq (h : SameRequests server server') (a : H) :
    server'.inFlight a = server.inFlight a := by
  rw [inFlight, inFlight, h.outstanding, h.requestIdMap]

theorem SameRequests.tokens_eq (h : SameRequests server server')
    (hscheduled : server'.scheduled = server.scheduled) (a : H) :
    server'.tokens a = server.tokens a := by
  rw [P2PServer.tokens, P2PServer.tokens, h.inFlight_eq, retries, retries, hscheduled]

theorem Shows.of_quiet (h : Shows server a phase) (hquiet : Quiet server server') :
    Shows server' a phase where
  pending := (hquiet.pending a).trans h.pending
  tokens := (hquiet.tokens_eq hquiet.scheduled a).trans h.tokens

/-- A request that is not a block request mapped to a root plays no part in its fetch. -/
theorem Shows.settle_other (h : Shows server a phase)
    (hsent : server.outstanding.lookup requestId = some sent)
    (hmap : ∀ b ≠ requestId, requestIdMap.lookup b = server.requestIdMap.lookup b)
    (hother : sent.2.isBlocksByRoot = true → server.requestIdMap.lookup requestId ≠ some a) :
    Shows (server.settle requestId requestIdMap) a phase where
  pending := h.pending
  tokens := by
    have hcount := inFlight_settle hsent hmap (a := a)
    rw [if_neg (by simpa using hother), Nat.add_zero] at hcount
    rw [← h.tokens, P2PServer.tokens, P2PServer.tokens, hcount]
    rfl

/-- Once its request is settled a root has lost its token. -/
theorem Shows.settle (h : Shows server root phase)
    (hsent : server.outstanding.lookup requestId = some sent)
    (hmap : ∀ b ≠ requestId, requestIdMap.lookup b = server.requestIdMap.lookup b)
    (hblocks : sent.2.isBlocksByRoot = true)
    (hroot : server.requestIdMap.lookup requestId = some root) :
    phase = .live ∧ Shows (server.settle requestId requestIdMap) root .stranded := by
  have hcount := inFlight_settle hsent hmap (a := root)
  have hretries : (server.settle requestId requestIdMap).retries root = server.retries root := rfl
  rw [if_pos (by simp [hblocks, hroot])] at hcount
  have hpos : 0 < server.tokens root := by
    rw [P2PServer.tokens]
    omega
  obtain rfl := h.live_of_pos hpos
  have htokens := h.tokens
  rw [if_pos rfl, P2PServer.tokens] at htokens
  refine ⟨rfl, h.pending.trans (by simp), ?_⟩
  rw [if_neg (by simp), P2PServer.tokens]
  omega

theorem Shows.send_status (h : Shows server a phase)
    (hfresh : server.nextRequestId ∉ server.outstanding) (hsent : sent.2.isBlocksByRoot = false) :
    Shows (server.send sent) a phase where
  pending := h.pending
  tokens := by
    have hout : (server.send sent).outstanding =
      server.outstanding.insert server.nextRequestId sent := rfl
    have hcount := inFlight_of_sent (a := a) hfresh hout fun _ _ ↦ rfl
    rw [hsent, Bool.false_and, if_neg (by simp), Nat.add_zero] at hcount
    rw [← h.tokens, P2PServer.tokens, P2PServer.tokens, hcount]
    rfl

theorem Shows.of_sends_other (h : Shows server a phase) (hsends : Sends server root server')
    (hfresh : server.nextRequestId ∉ server.outstanding) (hne : a ≠ root) :
    Shows server' a phase where
  pending := by simpa [hsends.pending, hne] using h.pending
  tokens := by
    obtain ⟨sent, hblocks, hout⟩ := hsends.outstanding
    have hcount := inFlight_of_sent (a := a) hfresh hout fun b hb ↦ by
      rw [hsends.requestIdMap, AList.lookup_insert_ne hb]
    rw [hsends.requestIdMap, AList.lookup_insert,
      if_neg (by simp [hne.symm]), Nat.add_zero] at hcount
    rw [← h.tokens, P2PServer.tokens, P2PServer.tokens, hcount, retries, retries,
      hsends.scheduled]

/-- A request gives its root a token. -/
theorem Shows.of_sends (h : Shows server root phase) (hsends : Sends server root server')
    (hfresh : server.nextRequestId ∉ server.outstanding) (hphase : phase ≠ .live) :
    Shows server' root .live where
  pending := by simp [hsends.pending]
  tokens := by
    obtain ⟨sent, hblocks, hout⟩ := hsends.outstanding
    have hcount := inFlight_of_sent (a := root) hfresh hout fun b hb ↦ by
      rw [hsends.requestIdMap, AList.lookup_insert_ne hb]
    rw [hsends.requestIdMap, AList.lookup_insert, if_pos (by simp [hblocks])] at hcount
    have htokens := h.tokens
    rw [if_neg hphase, P2PServer.tokens, retries] at htokens
    rw [if_pos rfl, P2PServer.tokens, retries, hcount, hsends.scheduled]
    omega

theorem retries_fire {retry : RetryBlockFetch H} (hmem : retry ∈ server.scheduled) (a : H) :
    retries (server.fire retry) a +
      (if retry.root = a then 1 else 0) = server.retries a := by
  unfold retries fire
  rw [List.countP_erase]
  by_cases ha : retry.root = a
  · have hpos : 0 < server.scheduled.countP fun retry ↦ decide (retry.root = a) :=
      List.countP_pos_iff.mpr ⟨retry, hmem, by simpa using ha⟩
    rw [if_pos ⟨hmem, by simpa using ha⟩, if_pos ha]
    omega
  · simp [ha]

theorem Shows.fire_other {retry : RetryBlockFetch H} (h : Shows server a phase)
    (hmem : retry ∈ server.scheduled) (hne : a ≠ retry.root) :
    Shows (server.fire retry) a phase where
  pending := h.pending
  tokens := by
    have hcount := retries_fire hmem a
    rw [if_neg hne.symm, Nat.add_zero] at hcount
    rw [← h.tokens, P2PServer.tokens, P2PServer.tokens, hcount]
    rfl

theorem Shows.fire {retry : RetryBlockFetch H} (h : Shows server retry.root phase)
    (hmem : retry ∈ server.scheduled) :
    phase = .live ∧
      Shows (server.fire retry) retry.root .stranded := by
  have hcount := retries_fire hmem retry.root
  rw [if_pos rfl] at hcount
  have hpos : 0 < server.tokens retry.root := by
    rw [P2PServer.tokens]
    omega
  obtain rfl := h.live_of_pos hpos
  refine ⟨rfl, h.pending.trans (by simp), ?_⟩
  have htokens := h.tokens
  have hflight : inFlight (server.fire retry) retry.root =
    server.inFlight retry.root := rfl
  rw [if_pos rfl, P2PServer.tokens] at htokens
  rw [if_neg (by simp), P2PServer.tokens, hflight]
  omega

section Failure

variable [DecidableEq P] {peer : P}

theorem Shows.of_failure_other (h : Shows server a phase) (hne : a ≠ root) :
    Shows (server.handleFetchFailure root peer) a phase := by
  unfold handleFetchFailure
  split
  · exact h
  · split
    · refine ⟨?_, h.tokens⟩
      simpa [AList.mem_erase, hne] using h.pending
    · refine ⟨?_, ?_⟩
      · simpa [AList.mem_insert, hne] using h.pending
      · rw [← h.tokens, P2PServer.tokens, P2PServer.tokens, retries, retries, List.countP_append]
        simp [hne.symm, inFlight]

/-- A failure either gives the root a retry or gives the root up. -/
theorem Shows.of_failure (h : Shows server root .stranded) (peer : P) :
    ∃ phase ≠ Phase.stranded, Shows (server.handleFetchFailure root peer) root phase := by
  obtain ⟨pending, hlookup⟩ := Table.mem_iff_lookup.mp (h.pending.mpr (by simp))
  have htokens := h.tokens
  rw [if_neg (by simp)] at htokens
  unfold handleFetchFailure
  rw [hlookup]
  dsimp only
  split
  · refine ⟨.idle, by simp, by simp [AList.mem_erase], ?_⟩
    rw [if_neg (by simp)]
    exact htokens
  · refine ⟨.live, by simp, by simp [AList.mem_insert], ?_⟩
    rw [if_pos rfl, P2PServer.tokens, retries, List.countP_append]
    rw [P2PServer.tokens, retries] at htokens
    have hone : [(⟨root, initialBackoffMs * backoffMultiplier ^ (pending.attempts - 1)⟩ :
      RetryBlockFetch H)].countP (fun retry ↦ decide (retry.root = root)) = 1 := by simp
    rw [hone, ← Nat.add_assoc]
    exact congrArg (· + 1) htokens

end Failure

end Phases

section Steps

variable [DecidableEq P] {th : TreeHash H} {server server' : P2PServer P H}
  {event : Event P H}

/-- A response to a tracked request is empty or has a block of the root that was asked for. -/
def Delivers (th : TreeHash H) (server : P2PServer P H) : Event P H → Prop
  | .response requestId (.success (.blocksByRoot blocks)) =>
    ∀ root, server.requestIdMap.lookup requestId = some root →
      blocks = [] ∨ ∃ block ∈ blocks, th.block block.message.block = root
  | _ => True

theorem delivers_of_not_answers (h : ¬Answers server event) : Delivers th server event := by
  match event with
  | .response _ (.success (.blocksByRoot _)) =>
    exact fun root hroot ↦ absurd (Table.mem_iff_lookup.mpr ⟨root, hroot⟩) h
  | .response _ (.success (.status _)) | .response _ (.error _ _) | .initBlockChain
  | .fetchBlock _ _ | .retryBlockFetch _ _ | .outboundFailure _ | .connectionEstablished _ _ _
  | .connectionClosed _ _ | .adapterClosed => trivial

section Settled

variable {requestId : ℕ} {peer : P} {request : Request H} {root a : H} {phase : Phase}
  {requestIdMap : Table ℕ H}

/-- A failed request hands its token on to a retry, or its root is given up. -/
theorem Shows.failure_next (h : Shows server a phase) (strands : Prop)
    (hsent : server.outstanding.lookup requestId = some (peer, request))
    (hmap : ∀ b ≠ requestId, requestIdMap.lookup b = server.requestIdMap.lookup b)
    (hblocks : request.isBlocksByRoot = true)
    (hroot : server.requestIdMap.lookup requestId = some root) :
    ∃ phase', Shows (handleFetchFailure (server.settle requestId requestIdMap) root peer) a phase' ∧
      Phase.Next strands phase phase' := by
  by_cases ha : a = root
  · subst ha
    obtain ⟨rfl, hstranded⟩ := h.settle hsent hmap hblocks hroot
    obtain ⟨phase', hne, hshows⟩ := hstranded.of_failure peer
    refine ⟨phase', hshows, ?_⟩
    cases phase' with
    | idle => exact .finish
    | live => exact .stay _
    | stranded => exact absurd rfl hne
  · have hother := h.settle_other hsent hmap fun _ heq ↦ ha (Option.some.inj (heq.symm.trans hroot))
    exact ⟨phase, hother.of_failure_other ha, .stay phase⟩

section Answer

variable {blocks : List (SignedBlockWithAttestation H)}
  (hsent : server.outstanding.lookup requestId = some (peer, request))
  (hblocks : request.isBlocksByRoot = true)
  (hroot : server.requestIdMap.lookup requestId = some root)

include hsent hblocks hroot

/-- Without a block of its root, a response takes the token and leaves the root pending. -/
theorem Shows.answer_stranded (h : Shows server root phase)
    (hnone : ¬∃ block ∈ blocks, th.block block.message.block = root) :
    phase = .live ∧ Shows (blocks.foldl (receiveBlock th root)
      (server.settle requestId (server.requestIdMap.erase requestId))) root .stranded := by
  obtain ⟨rfl, hstranded⟩ := h.settle hsent (fun b hb ↦ AList.lookup_erase_ne hb) hblocks hroot
  have hsame := receiveBlocks_sameRequests th root
    (server.settle requestId (server.requestIdMap.erase requestId)) blocks
  refine ⟨rfl, ?_, (hsame.tokens_eq (receiveBlocks_scheduled _ _ _ _) root).trans hstranded.tokens⟩
  simpa [mem_receiveBlocks, hnone] using hstranded.pending

theorem Shows.answer_finished (h : Shows server root phase)
    (hmatch : ∃ block ∈ blocks, th.block block.message.block = root) :
    phase = .live ∧ Shows (blocks.foldl (receiveBlock th root)
      (server.settle requestId (server.requestIdMap.erase requestId))) root .idle := by
  obtain ⟨rfl, hstranded⟩ := h.settle hsent (fun b hb ↦ AList.lookup_erase_ne hb) hblocks hroot
  have hsame := receiveBlocks_sameRequests th root
    (server.settle requestId (server.requestIdMap.erase requestId)) blocks
  refine ⟨rfl, ?_, (hsame.tokens_eq (receiveBlocks_scheduled _ _ _ _) root).trans hstranded.tokens⟩
  simp [mem_receiveBlocks, hmatch]

omit hblocks in
theorem Shows.answer_other (h : Shows server a phase) (ha : a ≠ root) :
    Shows (blocks.foldl (receiveBlock th root)
      (server.settle requestId (server.requestIdMap.erase requestId))) a phase := by
  have hother := h.settle_other hsent (fun b hb ↦ AList.lookup_erase_ne hb)
    fun _ heq ↦ ha (Option.some.inj (heq.symm.trans hroot))
  have hsame := receiveBlocks_sameRequests th root
    (server.settle requestId (server.requestIdMap.erase requestId)) blocks
  refine ⟨?_, (hsame.tokens_eq (receiveBlocks_scheduled _ _ _ _) a).trans hother.tokens⟩
  simpa [mem_receiveBlocks, ha] using hother.pending

theorem Shows.answer_next (h : Shows server a phase) (hne : blocks ≠ []) :
    ∃ phase', Shows (blocks.foldl (receiveBlock th root)
        (server.settle requestId (server.requestIdMap.erase requestId))) a phase' ∧
      Phase.Next (¬Delivers th server (.response requestId (.success (.blocksByRoot blocks))))
        phase phase' := by
  by_cases ha : a = root
  · subst ha
    by_cases hmatch : ∃ block ∈ blocks, th.block block.message.block = a
    · obtain ⟨rfl, hidle⟩ := h.answer_finished hsent hblocks hroot hmatch
      exact ⟨.idle, hidle, .finish⟩
    · obtain ⟨rfl, hstranded⟩ := h.answer_stranded hsent hblocks hroot hmatch
      exact ⟨.stranded, hstranded, .strand fun hdelivers ↦ (hdelivers a hroot).elim hne hmatch⟩
  · exact ⟨phase, h.answer_other hsent hroot ha, .stay phase⟩

end Answer

end Settled

theorem Effect.next (hnumbered : Numbered server) (he : Effect th server event server') {a : H}
    {phase : Phase} (h : Shows server a phase) :
    ∃ phase', Shows server' a phase' ∧ Phase.Next (¬Delivers th server event) phase phase' := by
  cases he with
  | quiet hevent hquiet => exact ⟨phase, h.of_quiet hquiet, .stay phase⟩
  | status hevent hsent hquiet =>
    exact ⟨phase, (h.send_status hnumbered.fresh hsent).of_quiet hquiet, .stay phase⟩
  | @fetch root _ _ hidle hsends =>
    by_cases ha : a = root
    · subst ha
      have hphase : phase = .idle := not_not.mp (mt h.pending.mpr hidle)
      subst hphase
      exact ⟨.live, h.of_sends hsends hnumbered.fresh (by simp), .start⟩
    · exact ⟨phase, h.of_sends_other hsends hnumbered.fresh ha, .stay phase⟩
  | ignored hevent hsent hnone =>
    refine ⟨phase, h.settle_other hsent (fun _ _ ↦ rfl) fun hblocks ↦ ?_, .stay phase⟩
    rw [hnone hblocks]
    exact nofun
  | empty hsent hblocks hroot =>
    refine h.failure_next _ hsent (fun b hb ↦ ?_) hblocks hroot
    rw [AList.lookup_insert_ne hb, AList.lookup_erase_ne hb]
  | failed hsent hroot =>
    exact h.failure_next _ hsent (fun b hb ↦ AList.lookup_erase_ne hb)
      (hnumbered.blocks _ _ _ hsent hroot) hroot
  | answered hne hsent hblocks hroot => exact h.answer_next hsent hblocks hroot hne
  | @dropped retry _ hmem hidle =>
    have hne : a ≠ retry.root := by
      rintro rfl
      obtain ⟨rfl, -⟩ := h.fire hmem
      exact hidle (h.pending.mpr (by simp))
    exact ⟨phase, h.fire_other hmem hne, .stay phase⟩
  | @retried retry _ _ hmem hsends =>
    have hfresh := (hnumbered.fire retry).fresh
    by_cases ha : a = retry.root
    · subst ha
      obtain ⟨rfl, hstranded⟩ := h.fire hmem
      exact ⟨.live, hstranded.of_sends hsends hfresh (by simp), .stay _⟩
    · exact ⟨phase, (h.fire_other hmem ha).of_sends_other hsends hfresh ha, .stay phase⟩
  | @abandoned retry _ _ hmem hquiet =>
    by_cases ha : a = retry.root
    · subst ha
      obtain ⟨rfl, hstranded⟩ := h.fire hmem
      refine ⟨.idle, ⟨by simp [AList.mem_erase], ?_⟩, .finish⟩
      exact (hstranded.of_quiet hquiet).tokens
    · have hother := (h.fire_other hmem ha).of_quiet hquiet
      refine ⟨phase, ⟨?_, hother.tokens⟩, .stay phase⟩
      simpa [AList.mem_erase, ha] using hother.pending

/-- Every root is idle, live or stranded, and never holds two tokens. -/
structure Phased (server : P2PServer P H) : Prop extends Numbered server where
  phase : ∀ a, ∃ phase, Shows server a phase

theorem phased_spawn : Phased (spawn : P2PServer P H) where
  toNumbered := numbered_spawn
  phase _ := ⟨.idle, by simp [spawn], rfl⟩

theorem Phased.step (h : Phased server) (hstep : step th server event = .ok server') :
    Phased server' where
  toNumbered := h.toNumbered.effect (step_effect hstep)
  phase a := by
    obtain ⟨phase, hshows⟩ := h.phase a
    obtain ⟨phase', hshows', -⟩ := (step_effect hstep).next h.toNumbered hshows
    exact ⟨phase', hshows'⟩

/-- Every pending root has one request in flight or one retry scheduled, and not both. -/
def Alive (server : P2PServer P H) : Prop :=
  ∀ root ∈ server.pendingRequests, server.tokens root = 1

theorem not_alive_of_stranded {a : H} (h : Shows server a .stranded) : ¬Alive server := by
  intro halive
  have hone := halive a (h.pending.mpr (by simp))
  rw [h.tokens] at hone
  exact nomatch hone

theorem Phased.alive_of_none (h : Phased server) (hnone : ∀ a, ¬Shows server a .stranded) :
    Alive server := by
  intro root hpending
  obtain ⟨phase, hshows⟩ := h.phase root
  cases phase with
  | idle => exact absurd rfl (hshows.pending.mp hpending)
  | live => exact hshows.tokens
  | stranded => exact absurd hshows (hnone root)

theorem Alive.step (hphased : Phased server) (halive : Alive server)
    (hdelivers : Delivers th server event) (hstep : step th server event = .ok server') :
    Alive server' := by
  refine (hphased.step hstep).alive_of_none fun a hstranded ↦ ?_
  obtain ⟨phase, hshows⟩ := hphased.phase a
  obtain ⟨phase', hshows', hnext⟩ := (step_effect hstep).next hphased.toNumbered hshows
  obtain rfl : phase' = .stranded := hshows'.unique hstranded
  cases hnext with
  | stay => exact not_alive_of_stranded hshows halive
  | strand hnot => exact hnot hdelivers

theorem exists_stranded (hphased : Phased server) (hnot : ¬Delivers th server event)
    (hstep : step th server event = .ok server') : ∃ a, Shows server' a .stranded := by
  cases step_effect hstep with
  | quiet hevent | status hevent | ignored hevent =>
    exact absurd (delivers_of_not_answers hevent) hnot
  | fetch | failed | dropped | retried | abandoned => exact absurd trivial hnot
  | empty => exact absurd (fun _ _ ↦ .inl rfl) hnot
  | @answered _ _ root blocks hne hsent hblocks hroot =>
    obtain ⟨phase, hshows⟩ := hphased.phase root
    refine ⟨root, (hshows.answer_stranded hsent hblocks hroot fun hmatch ↦ hnot ?_).2⟩
    intro a ha
    rw [hroot] at ha
    exact .inr (Option.some.inj ha ▸ hmatch)

theorem not_alive_step (hphased : Phased server) (hdead : ¬Alive server)
    (hstep : step th server event = .ok server') : ¬Alive server' := by
  obtain ⟨a, hshows⟩ : ∃ a, Shows server a .stranded := by
    by_contra hnone
    exact hdead (hphased.alive_of_none (not_exists.mp hnone))
  obtain ⟨phase, hshows', hnext⟩ := (step_effect hstep).next hphased.toNumbered hshows
  obtain rfl := hnext.stranded
  exact not_alive_of_stranded hshows'

end Steps

section Runs

variable [DecidableEq P] (th : TreeHash H) {events : List (Event P H)}
  {server : P2PServer P H}

/-- Every pending root is being fetched exactly when no peer has answered a request with blocks of
other roots only. A root that such an answer has stranded never comes back. -/
theorem fetch_alive_iff (h : Base.Runs.run (step th) spawn events = .ok server) :
    (∀ root ∈ server.pendingRequests, server.tokens root = 1) ↔
      ∀ p ∈ Base.Runs.trace (step th) spawn events, Delivers th p.1 p.2 := by
  refine Base.Runs.run_iff_trace (P := Phased) (G := Alive)
    (C := fun p : P2PServer P H × Event P H ↦ Delivers th p.1 p.2)
    (fun _ _ _ hphased ↦ hphased.step) (fun _ _ _ ↦ Alive.step) ?_ (fun _ _ _ ↦ not_alive_step)
    phased_spawn ?_ h
  · intro s event s' hphased hnot hstep
    obtain ⟨a, hshows⟩ := exists_stranded hphased hnot hstep
    exact not_alive_of_stranded hshows
  · exact fun root hroot ↦ absurd hroot (AList.notMem_empty root)

/-- A peer answers with a block of another root, and the root that was asked for can no longer be
fetched. -/
theorem wrong_block_strands_root : ∃ server,
    Base.Runs.run (step slotHash) spawn (slotFetch ++
      [.response 2 (.success (.blocksByRoot [slotBlock 0 9])), .fetchBlock 5 0]) = .ok server ∧
    5 ∈ server.pendingRequests ∧ server.tokens 5 = 0 := by
  obtain ⟨server, hrun, hview⟩ := Exec.exists_ok_of_map
    (x := Base.Runs.run (step slotHash) spawn (slotFetch ++
      [.response 2 (.success (.blocksByRoot [slotBlock 0 9])), .fetchBlock 5 0]))
    (f := fun s ↦ (decide (5 ∈ s.pendingRequests), s.tokens 5)) (b := (true, 0)) (by decide +kernel)
  exact ⟨server, hrun, of_decide_eq_true (congrArg Prod.fst hview), congrArg Prod.snd hview⟩

theorem fetch_alive_iff_sample : ∃ server,
    Base.Runs.run (step slotHash) spawn (slotFetch ++
      [.response 2 (.success (.blocksByRoot [])), .retryBlockFetch ⟨5, 5⟩ 0]) = .ok server ∧
    5 ∈ server.pendingRequests ∧ server.inFlight 5 = 1 ∧
    ((∀ root ∈ server.pendingRequests, server.tokens root = 1) ↔
      ∀ p ∈ Base.Runs.trace (step slotHash) spawn (slotFetch ++
        [.response 2 (.success (.blocksByRoot [])), .retryBlockFetch ⟨5, 5⟩ 0]),
        Delivers slotHash p.1 p.2) := by
  obtain ⟨server, hrun, hview⟩ := Exec.exists_ok_of_map
    (x := Base.Runs.run (step slotHash) spawn (slotFetch ++
      [.response 2 (.success (.blocksByRoot [])), .retryBlockFetch ⟨5, 5⟩ 0]))
    (f := fun s ↦ (decide (5 ∈ s.pendingRequests), s.inFlight 5)) (b := (true, 1)) (by decide +kernel)
  exact ⟨server, hrun, of_decide_eq_true (congrArg Prod.fst hview), congrArg Prod.snd hview,
    fetch_alive_iff slotHash hrun⟩

end Runs

end P2PServer

end Ethlambda.Network
