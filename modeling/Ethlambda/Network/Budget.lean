import Ethlambda.Network.Tokens

namespace Ethlambda.Network

open Ethlambda.Base Ethlambda.Types

set_option linter.unusedSectionVars false

variable {P H : Type}

/-- The roots that a request asks for. -/
def Request.roots : Request H → List H
  | .status _ => []
  | .blocksByRoot request => request.roots.toList

namespace P2PServer

/-- The requests that the swarm has taken from one state to the next. -/
def taken (server server' : P2PServer P H) : List (P × Request H) :=
  ((Table.pairs server'.outstanding).filter fun e ↦ server.nextRequestId ≤ e.1).map Prod.snd

variable [DecidableEq P] [DecidableEq H]

/-- A peer is asked for the block of one root. -/
def ask (server : P2PServer P H) (peer : P) (roots : RequestedBlockRoots H) (root : H) :
    P2PServer P H :=
  (server.send (peer, .blocksByRoot ⟨roots⟩)).trackRequest server.nextRequestId root

def attempts (server : P2PServer P H) (root : H) : Option ℕ :=
  (server.pendingRequests.lookup root).map PendingRequest.attempts

/-- How long the retries of a root were told to wait. -/
def delays (server : P2PServer P H) (root : H) : List ℕ :=
  (server.scheduled.filter fun retry ↦ decide (retry.root = root)).map RetryBlockFetch.backoffMs

section Taken

variable {server server' : P2PServer P H} {requestId : ℕ} {sent : P × Request H} {root a : H}

theorem length_delays (server : P2PServer P H) (root : H) :
    (server.delays root).length = server.retries root := by
  rw [delays, List.length_map, retries, List.countP_eq_length_filter]

theorem mem_delays {d : ℕ} : d ∈ server.delays root ↔ ⟨root, d⟩ ∈ server.scheduled := by
  unfold delays
  rw [List.mem_map]
  constructor
  · rintro ⟨retry, hmem, rfl⟩
    obtain ⟨hin, hroot⟩ := List.mem_filter.mp hmem
    obtain rfl := of_decide_eq_true hroot
    exact hin
  · intro hmem
    exact ⟨⟨root, d⟩, List.mem_filter.mpr ⟨hmem, decide_eq_true rfl⟩, rfl⟩

theorem attempts_eq_none : server.attempts root = none ↔ root ∉ server.pendingRequests := by
  rw [attempts, Option.map_eq_none_iff]
  exact AList.lookup_eq_none

theorem attempts_congr (h : server'.pendingRequests = server.pendingRequests) (root : H) :
    server'.attempts root = server.attempts root := by
  rw [attempts, attempts, h]

theorem delays_congr (h : server'.scheduled = server.scheduled) (root : H) :
    server'.delays root = server.delays root := by
  rw [delays, delays, h]

theorem taken_eq_nil (h : ∀ id ∈ server'.outstanding, id < server.nextRequestId) :
    taken server server' = [] := by
  rw [taken, List.map_eq_nil_iff, List.filter_eq_nil_iff]
  intro e he
  have hlt := h e.1 (Table.mem_iff_lookup.mpr ⟨e.2, Table.mem_pairs.mp he⟩)
  simpa using hlt

theorem taken_insert (hnumbered : Numbered server)
    (h : server'.outstanding = server.outstanding.insert server.nextRequestId sent) :
    taken server server' = [sent] := by
  have hnil : ((Table.pairs server.outstanding).filter fun e ↦
      decide (server.nextRequestId ≤ e.1)) = [] := by
    rw [List.filter_eq_nil_iff]
    intro e he
    have hlt := hnumbered.outstanding e.1 (Table.mem_iff_lookup.mpr ⟨e.2, Table.mem_pairs.mp he⟩)
    simpa using hlt
  rw [taken, h, Table.pairs, AList.entries_insert_of_notMem hnumbered.fresh, List.map_cons,
    List.filter_cons_of_pos (by simp)]
  change (sent :: _) = _
  rw [← Table.pairs, hnil]
  rfl

theorem attempts_trackRequest (server : P2PServer P H) (requestId : ℕ) (root a : H) :
    (server.trackRequest requestId root).attempts a =
      if a = root then some ((server.attempts root).getD 1) else server.attempts a := by
  unfold trackRequest attempts
  cases hroot : server.pendingRequests.lookup root with
  | some pending =>
    by_cases ha : a = root
    · rw [if_pos ha, ha]
      exact congrArg _ hroot
    · rw [if_neg ha]
  | none =>
    dsimp only
    rw [Table.lookup_insert_eq_ite]
    by_cases ha : a = root
    · rw [if_pos ha, if_pos ha]
      rfl
    · rw [if_neg ha, if_neg ha]

theorem attempts_clearFailedPeers (server : P2PServer P H) (root a : H) :
    (server.clearFailedPeers root).attempts a = server.attempts a := by
  unfold clearFailedPeers attempts
  cases hroot : server.pendingRequests.lookup root with
  | none => rfl
  | some pending =>
    dsimp only
    rw [Table.lookup_insert_eq_ite]
    by_cases ha : a = root
    · rw [if_pos ha, ha, hroot]
      rfl
    · rw [if_neg ha]

theorem ask_outstanding (server : P2PServer P H) (peer : P) (roots : RequestedBlockRoots H)
    (root : H) : (server.ask peer roots root).outstanding =
      server.outstanding.insert server.nextRequestId (peer, .blocksByRoot ⟨roots⟩) := rfl

end Taken

section Asking

variable {server server' base : P2PServer P H} {root a : H}

/-- The fetches are as they were, up to which peers have failed. -/
structure SameFetches (server server' : P2PServer P H) : Prop extends
    SameRequests server server' where
  attempts : ∀ a, server'.attempts a = server.attempts a
  scheduled : server'.scheduled = server.scheduled
  connectedPeers : server'.connectedPeers = server.connectedPeers
  blockchain : server'.blockchain = server.blockchain
  adapterOpen : server'.adapterOpen = server.adapterOpen
  forwarded : server'.forwarded = server.forwarded

theorem SameFetches.refl (server : P2PServer P H) : SameFetches server server :=
  ⟨.refl server, fun _ ↦ rfl, rfl, rfl, rfl, rfl, rfl⟩

theorem clearFailedPeers_sameFetches (server : P2PServer P H) (root : H) :
    SameFetches server (server.clearFailedPeers root) := by
  have hattempts := attempts_clearFailedPeers server root
  unfold clearFailedPeers at hattempts ⊢
  cases hroot : server.pendingRequests.lookup root with
  | none => exact .refl server
  | some pending =>
    rw [hroot] at hattempts
    exact ⟨⟨rfl, rfl, rfl⟩, hattempts, rfl, rfl, rfl, rfl, rfl⟩

theorem requestFromPeer_eq (pick : ℕ) (server : P2PServer P H) (pool : List P) (root : H) :
    requestFromPeer pick server pool root = (false, server) ∨
      ∃ peer ∈ pool, ∃ roots : RequestedBlockRoots H, roots.toList = [root] ∧
        requestFromPeer pick server pool root = (true, server.ask peer roots root) := by
  unfold requestFromPeer
  cases hpeer : pool[pick % pool.length]? with
  | none => exact .inl rfl
  | some peer =>
    cases hroots : VariableList.new maxRequestBlocks [root] with
    | none => exact .inl rfl
    | some roots =>
      dsimp only
      rw [sendRequest]
      by_cases hopen : server.adapterOpen = true
      · rw [if_pos hopen]
        exact .inr ⟨peer, List.mem_of_getElem? hpeer, roots, VariableList.new_eq_some.mp hroots, rfl⟩
      · rw [if_neg hopen]
        exact .inl rfl

/-- A fetch that starts forgets at most which peers have failed before it asks one of them. -/
theorem fetchBlockFromPeer_eq (pick : ℕ) (server : P2PServer P H) (root : H) :
    ∃ base, SameFetches server base ∧
      (fetchBlockFromPeer pick server root = (false, base) ∨
        ∃ peer ∈ server.connectedPeers, ∃ roots : RequestedBlockRoots H, roots.toList = [root] ∧
          fetchBlockFromPeer pick server root = (true, base.ask peer roots root)) := by
  unfold fetchBlockFromPeer
  split
  · exact ⟨server, .refl server, .inl rfl⟩
  · split
    · exact ⟨_, clearFailedPeers_sameFetches server root, requestFromPeer_eq pick _ _ root⟩
    · refine ⟨server, .refl server, (requestFromPeer_eq pick server _ root).imp_right ?_⟩
      rintro ⟨peer, hpeer, hasked⟩
      refine ⟨peer, ?_, hasked⟩
      unfold untriedPeers at hpeer
      split at hpeer
      · exact hpeer
      · split at hpeer
        · exact hpeer
        · exact List.mem_of_mem_filter hpeer

theorem handleFetchFailure_cases (server : P2PServer P H) (root : H) (peer : P) :
    (server.attempts root = none ∧ server.handleFetchFailure root peer = server) ∨
    (∃ n, server.attempts root = some n ∧ maxFetchRetries ≤ n ∧
      server.handleFetchFailure root peer =
        { server with pendingRequests := server.pendingRequests.erase root }) ∨
    ∃ n failed, server.attempts root = some n ∧ n < maxFetchRetries ∧
      server.handleFetchFailure root peer =
        { server with
          pendingRequests := server.pendingRequests.insert root ⟨n + 1, failed⟩
          scheduled := server.scheduled ++
            [⟨root, initialBackoffMs * backoffMultiplier ^ (n - 1)⟩] } := by
  unfold handleFetchFailure attempts
  cases server.pendingRequests.lookup root with
  | none => exact .inl ⟨rfl, rfl⟩
  | some pending =>
    dsimp only
    split
    · rename_i hmax
      exact .inr (.inl ⟨_, rfl, hmax, rfl⟩)
    · rename_i hmax
      exact .inr (.inr ⟨_, _, rfl, not_le.mp hmax, rfl⟩)

end Asking

section Course

variable {server server' : P2PServer P H} {root a : H} {asked : ℕ}

/-- What one event can do to the fetch of a root, with the number of requests it sends for it. -/
inductive Course (server server' : P2PServer P H) (root : H) : ℕ → Prop
  | stay (hattempts : server'.attempts root = server.attempts root)
      (hdelays : (server'.delays root).Perm (server.delays root)) : Course server server' root 0
  | start (hidle : server.attempts root = none) (hattempts : server'.attempts root = some 1)
      (hdelays : server'.delays root = server.delays root) : Course server server' root 1
  | retry {delay : ℕ} (hattempts : server'.attempts root = server.attempts root)
      (hpending : server.attempts root ≠ none)
      (hdelays : (server.delays root).Perm (delay :: server'.delays root)) :
      Course server server' root 1
  | fail {n : ℕ} (hpending : server.attempts root = some n) (hmax : n < maxFetchRetries)
      (hattempts : server'.attempts root = some (n + 1))
      (hdelays : server'.delays root =
        server.delays root ++ [initialBackoffMs * backoffMultiplier ^ (n - 1)]) :
      Course server server' root 0
  | stop (hidle : server'.attempts root = none) : Course server server' root 0

/-- The requests sent for a root since its fetch began and the retries that wait make up the
attempts, each retry waits twice as long as the one before, and there are at most ten attempts. -/
structure Budget (server : P2PServer P H) (root : H) (asked : ℕ) : Prop where
  asked_le : asked ≤ maxFetchRetries
  spent : ∀ n, server.attempts root = some n →
    1 ≤ asked ∧ asked + server.retries root = n ∧ n ≤ maxFetchRetries
  backoff : ∀ n, server.attempts root = some n → ∀ delay ∈ server.delays root,
    delay = initialBackoffMs * backoffMultiplier ^ (n - 2)

theorem budget_idle (h : server.attempts root = none) : Budget server root 0 := by
  refine ⟨Nat.zero_le _, fun n hn ↦ ?_, fun n hn ↦ ?_⟩
  · rw [h] at hn
    exact nomatch hn
  · rw [h] at hn
    exact nomatch hn

theorem Budget.course {k : ℕ} (h : Budget server root k)
    (hstarted : server.attempts root = none → k = 0 ∧ server.retries root = 0)
    (hsingle : server'.retries root ≤ 1) (hcourse : Course server server' root asked) :
    Budget server' root (k + asked) := by
  rw [← length_delays] at hsingle
  cases hcourse with
  | stay hattempts hdelays =>
    refine ⟨h.asked_le, fun n hn ↦ ?_, fun n hn delay hdelay ↦ ?_⟩
    · rw [← length_delays, hdelays.length_eq, length_delays]
      exact h.spent n (hattempts ▸ hn)
    · exact h.backoff n (hattempts ▸ hn) delay (hdelays.mem_iff.mp hdelay)
  | start hidle hattempts hdelays =>
    obtain ⟨rfl, hnone⟩ := hstarted hidle
    have hnil : server'.delays root = [] := by
      rw [hdelays, ← List.length_eq_zero_iff, length_delays, hnone]
    refine ⟨by decide, fun n hn ↦ ?_, fun n hn delay hdelay ↦ ?_⟩
    · rw [hattempts] at hn
      obtain rfl := Option.some.inj hn
      rw [← length_delays, hnil]
      decide
    · rw [hnil] at hdelay
      exact nomatch hdelay
  | @retry delay hattempts hpending hdelays =>
    obtain ⟨n, hn⟩ := Option.ne_none_iff_exists'.mp hpending
    obtain ⟨hpos, hsum, hmax⟩ := h.spent n hn
    have hlength := hdelays.length_eq
    rw [List.length_cons, length_delays, length_delays] at hlength
    refine ⟨by omega, fun m hm ↦ ?_, fun m hm d hd ↦ ?_⟩
    · rw [hattempts, hn] at hm
      obtain rfl := Option.some.inj hm
      omega
    · rw [hattempts] at hm
      exact h.backoff m hm d (hdelays.mem_iff.mpr (List.mem_cons_of_mem _ hd))
  | @fail n hpending hmax hattempts hdelays =>
    obtain ⟨hpos, hsum, -⟩ := h.spent n hpending
    have hlength := congrArg List.length hdelays
    rw [List.length_append, List.length_singleton] at hlength
    have hnil : server.delays root = [] := by
      rw [← List.length_eq_zero_iff]
      omega
    rw [hnil, List.nil_append] at hdelays
    rw [← length_delays, hnil, List.length_nil] at hsum
    refine ⟨h.asked_le, fun m hm ↦ ?_, fun m hm delay hdelay ↦ ?_⟩
    · rw [hattempts] at hm
      obtain rfl := Option.some.inj hm
      rw [← length_delays, hdelays, List.length_singleton]
      omega
    · rw [hattempts] at hm
      obtain rfl := Option.some.inj hm
      rw [hdelays, List.mem_singleton] at hdelay
      exact hdelay
  | stop hidle =>
    refine ⟨h.asked_le, fun n hn ↦ ?_, fun n hn ↦ ?_⟩
    · rw [hidle] at hn
      exact nomatch hn
    · rw [hidle] at hn
      exact nomatch hn

end Course

section Steps

variable {th : TreeHash H} {server server' server'' : P2PServer P H} {event : Event P H} {root a : H}

/-- What the swarm takes when an event is handled. -/
def requests (th : TreeHash H) (server : P2PServer P H) (event : Event P H) :
    List (P × Request H) :=
  match step th server event with
  | .error _ => []
  | .ok server' => taken server server'

theorem requests_eq (hstep : step th server event = .ok server') :
    requests th server event = taken server server' := by
  rw [requests, hstep]

/-- How many of the requests ask for a root. -/
def timesAsked (root : H) (sent : List (P × Request H)) : ℕ :=
  sent.countP fun r ↦ decide (root ∈ r.2.roots)

theorem timesAsked_append (root : H) (sent sent' : List (P × Request H)) :
    timesAsked root (sent ++ sent') = timesAsked root sent + timesAsked root sent' :=
  List.countP_append

theorem timesAsked_eq_zero (h : ∀ id ∈ server'.outstanding, id < server.nextRequestId) (root : H) :
    timesAsked root (taken server server') = 0 := by
  rw [taken_eq_nil h]
  rfl

theorem SameRequests.unasked (hnumbered : Numbered server) (h : SameRequests server server')
    (root : H) : timesAsked root (taken server server') = 0 := by
  refine timesAsked_eq_zero (fun id hid ↦ ?_) root
  rw [h.outstanding] at hid
  exact hnumbered.outstanding id hid

theorem SameRequests.course (hnumbered : Numbered server) (h : SameRequests server server')
    (hcourse : Course server server' a 0) :
    Course server server' a (timesAsked a (taken server server')) := by
  rw [h.unasked hnumbered]
  exact hcourse

theorem timesAsked_settle (hnumbered : Numbered server) {requestId : ℕ}
    (h : server'.outstanding = server.outstanding.erase requestId) (root : H) :
    timesAsked root (taken server server') = 0 := by
  refine timesAsked_eq_zero (fun id hid ↦ ?_) root
  rw [h, AList.mem_erase] at hid
  exact hnumbered.outstanding id hid.2

theorem timesAsked_ask {base : P2PServer P H} {peer : P} {roots : RequestedBlockRoots H}
    (hnumbered : Numbered server) (h : SameRequests server base) (hroots : roots.toList = [root])
    (a : H) : timesAsked a (taken server (base.ask peer roots root)) = if a = root then 1 else 0 := by
  have hout := ask_outstanding base peer roots root
  rw [h.outstanding, h.nextRequestId] at hout
  rw [taken_insert hnumbered hout, timesAsked, List.countP_singleton, Request.roots, hroots]
  simp

theorem attempts_ask (server : P2PServer P H) (peer : P) (roots : RequestedBlockRoots H)
    (root a : H) : (server.ask peer roots root).attempts a =
      if a = root then some ((server.attempts root).getD 1) else server.attempts a :=
  attempts_trackRequest _ _ root a

theorem Course.of_same (hpending : server'.pendingRequests = server.pendingRequests)
    (hscheduled : server'.scheduled = server.scheduled) : Course server server' a 0 :=
  .stay (attempts_congr hpending a) (.of_eq (delays_congr hscheduled a))

theorem SameFetches.course (h : SameFetches server server') (a : H) : Course server server' a 0 :=
  .stay (h.attempts a) (.of_eq (delays_congr h.scheduled a))

theorem delays_fire {retry : RetryBlockFetch H} (hmem : retry ∈ server.scheduled) :
    (server.delays retry.root).Perm (retry.backoffMs :: (server.fire retry).delays retry.root) := by
  have hperm := (List.perm_cons_erase hmem).filter fun r ↦ decide (r.root = retry.root)
  rw [List.filter_cons, if_pos (decide_eq_true rfl)] at hperm
  exact hperm.map RetryBlockFetch.backoffMs

theorem delays_fire_ne {retry : RetryBlockFetch H} (hmem : retry ∈ server.scheduled)
    (ha : a ≠ retry.root) : ((server.fire retry).delays a).Perm (server.delays a) := by
  have hperm := (List.perm_cons_erase hmem).filter fun r ↦ decide (r.root = a)
  rw [List.filter_cons, if_neg (by simpa using ha.symm)] at hperm
  exact (hperm.map RetryBlockFetch.backoffMs).symm

theorem attempts_erase (server : P2PServer P H) (root a : H) :
    attempts { server with pendingRequests := server.pendingRequests.erase root } a =
      if a = root then none else server.attempts a := by
  unfold attempts
  dsimp only
  rw [Table.lookup_erase_eq_ite]
  by_cases ha : a = root
  · rw [if_pos ha, if_pos ha]
    rfl
  · rw [if_neg ha, if_neg ha]

theorem failure_course (server : P2PServer P H) (root : H) (peer : P) (a : H) :
    Course server (server.handleFetchFailure root peer) a 0 := by
  rcases handleFetchFailure_cases server root peer with
    ⟨-, heq⟩ | ⟨n, hn, hmax, heq⟩ | ⟨n, failed, hn, hmax, heq⟩
  · rw [heq]
    exact .of_same rfl rfl
  · rw [heq]
    by_cases ha : a = root
    · exact .stop ((attempts_erase server root a).trans (if_pos ha))
    · exact .stay ((attempts_erase server root a).trans (if_neg ha)) (.refl _)
  · rw [heq]
    by_cases ha : a = root
    · subst ha
      refine .fail hn hmax ?_ ?_
      · rw [attempts, AList.lookup_insert]
        rfl
      · rw [delays, List.filter_append, List.map_append, delays]
        simp
    · refine .stay ?_ (.of_eq ?_)
      · rw [attempts, AList.lookup_insert_ne ha, attempts]
      · rw [delays, List.filter_append, List.map_append, delays]
        simp [Ne.symm ha]

theorem attempts_receiveBlock (th : TreeHash H) (root : H) (server : P2PServer P H)
    (block : SignedBlockWithAttestation H) (a : H) :
    (receiveBlock th root server block).attempts a = server.attempts a ∨
      (receiveBlock th root server block).attempts a = none := by
  unfold receiveBlock
  split
  · exact .inl rfl
  · by_cases ha : a = th.block block.message.block
    · exact .inr ((attempts_erase server _ a).trans (if_pos ha))
    · exact .inl ((attempts_erase server _ a).trans (if_neg ha))

theorem receiveBlocks_course (th : TreeHash H) (root : H) (server : P2PServer P H)
    (blocks : List (SignedBlockWithAttestation H)) (a : H) :
    Course server (blocks.foldl (receiveBlock th root) server) a 0 := by
  have hattempts : (blocks.foldl (receiveBlock th root) server).attempts a = server.attempts a ∨
      (blocks.foldl (receiveBlock th root) server).attempts a = none := by
    induction blocks generalizing server with
    | nil => exact .inl rfl
    | cons block blocks ih =>
      rw [List.foldl_cons]
      rcases ih (receiveBlock th root server block) with h | h
      · rw [h]
        exact attempts_receiveBlock th root server block a
      · exact .inr h
  rcases hattempts with h | h
  · exact .stay h (.of_eq (delays_congr (receiveBlocks_scheduled th root server blocks) a))
  · exact .stop h

theorem fetchBlock_course (hnumbered : Numbered server) (pick : ℕ) (root a : H) :
    Course server (handleFetchBlock pick server root) a
      (timesAsked a (taken server (handleFetchBlock pick server root))) := by
  unfold handleFetchBlock
  split
  · exact SameRequests.course hnumbered (.refl server) (.of_same rfl rfl)
  · rename_i hidle
    obtain ⟨base, hbase, heq | ⟨peer, -, roots, hroots, heq⟩⟩ := fetchBlockFromPeer_eq pick server root
    · rw [heq]
      exact hbase.toSameRequests.course hnumbered (hbase.course a)
    · rw [heq, timesAsked_ask hnumbered hbase.toSameRequests hroots]
      have hattempts := attempts_ask base peer roots root a
      by_cases ha : a = root
      · have hnone := attempts_eq_none.mpr hidle
        rw [if_pos ha, hbase.attempts, hnone] at hattempts
        rw [if_pos ha]
        exact .start (ha ▸ hnone) hattempts (delays_congr hbase.scheduled a)
      · rw [if_neg ha, hbase.attempts] at hattempts
        rw [if_neg ha]
        exact .stay hattempts (.of_eq (delays_congr hbase.scheduled a))

theorem retry_course (hnumbered : Numbered server) {retry : RetryBlockFetch H}
    (hmem : retry ∈ server.scheduled) (pick : ℕ) (a : H) :
    Course server (handleRetryBlockFetch pick (server.fire retry) retry.root) a
      (timesAsked a (taken server
        (handleRetryBlockFetch pick (server.fire retry) retry.root))) := by
  have hfire : SameRequests server (server.fire retry) := ⟨rfl, rfl, rfl⟩
  unfold handleRetryBlockFetch
  split
  · rename_i hidle
    rw [hfire.unasked hnumbered]
    by_cases ha : a = retry.root
    · exact .stop (attempts_eq_none.mpr (ha ▸ hidle))
    · exact .stay rfl (delays_fire_ne hmem ha)
  · rename_i hpending
    obtain ⟨base, hbase, heq | ⟨peer, -, roots, hroots, heq⟩⟩ :=
      fetchBlockFromPeer_eq pick (server.fire retry) retry.root
    · rw [heq]
      dsimp only
      have hsame : SameRequests server { base with
          pendingRequests := base.pendingRequests.erase retry.root } :=
        (hfire.trans hbase.toSameRequests).trans ⟨rfl, rfl, rfl⟩
      rw [hsame.unasked hnumbered]
      by_cases ha : a = retry.root
      · exact .stop ((attempts_erase base _ a).trans (if_pos ha))
      · refine .stay ((attempts_erase base _ a).trans ?_) ?_
        · rw [if_neg ha, hbase.attempts]
          rfl
        · exact (List.Perm.of_eq (delays_congr hbase.scheduled a)).trans (delays_fire_ne hmem ha)
    · rw [heq]
      dsimp only
      rw [timesAsked_ask hnumbered (hfire.trans hbase.toSameRequests) hroots]
      have hattempts := attempts_ask base peer roots retry.root a
      have hdelays : (base.ask peer roots retry.root).delays a = (server.fire retry).delays a :=
        delays_congr hbase.scheduled a
      by_cases ha : a = retry.root
      · subst ha
        obtain ⟨n, hn⟩ := Option.ne_none_iff_exists'.mp (mt attempts_eq_none.mp hpending)
        rw [if_pos rfl, hbase.attempts, hn] at hattempts
        have hstill : server.attempts retry.root = some n := hn
        rw [if_pos rfl]
        refine .retry (hattempts.trans hstill.symm) ?_ (hdelays ▸ delays_fire hmem)
        rw [hstill]
        exact Option.some_ne_none n
      · rw [if_neg ha, hbase.attempts] at hattempts
        rw [if_neg ha]
        exact .stay hattempts ((List.Perm.of_eq hdelays).trans (delays_fire_ne hmem ha))

/-- What is said of a fetch only looks at the pending requests and the timers. -/
theorem Course.of_view {k : ℕ} (hcourse : Course server' server'' a k)
    (hpending : server'.pendingRequests = server.pendingRequests)
    (hscheduled : server'.scheduled = server.scheduled) : Course server server'' a k := by
  have hattempts := attempts_congr hpending a
  have hdelays := delays_congr hscheduled a
  cases hcourse with
  | stay hnext hwait => exact .stay (hnext.trans hattempts) (hdelays ▸ hwait)
  | start hidle hnext hwait => exact .start (hattempts ▸ hidle) hnext (hwait.trans hdelays)
  | retry hnext hne hwait => exact .retry (hnext.trans hattempts) (hattempts ▸ hne) (hdelays ▸ hwait)
  | fail hn hmax hnext hwait => exact .fail (hattempts ▸ hn) hmax hnext (hdelays ▸ hwait)
  | stop hidle => exact .stop hidle

theorem response_course (th : TreeHash H) (server : P2PServer P H) (peer : P) (requestId : ℕ)
    (response : Response H) (a : H) :
    Course server (handleResponse th server peer requestId response) a 0 ∧
      (handleResponse th server peer requestId response).outstanding = server.outstanding := by
  have hsame : Course server server a 0 ∧ server.outstanding = server.outstanding :=
    ⟨.of_same rfl rfl, rfl⟩
  cases response with
  | error code message => exact hsame
  | success payload =>
    cases payload with
    | status status => exact hsame
    | blocksByRoot blocks =>
      rw [handleResponse, handleBlocksByRootResponse]
      cases server.requestIdMap.lookup requestId with
      | none => exact hsame
      | some root =>
        dsimp only
        split
        · exact ⟨(failure_course _ root peer a).of_view rfl rfl,
            (handleFetchFailure_sameRequests _ root peer).outstanding⟩
        · exact ⟨(receiveBlocks_course th root _ blocks a).of_view rfl rfl,
            (receiveBlocks_sameRequests th root _ blocks).outstanding⟩

theorem outboundFailure_course (server : P2PServer P H) (peer : P) (requestId : ℕ) (a : H) :
    Course server (handleOutboundFailure server peer requestId) a 0 ∧
      (handleOutboundFailure server peer requestId).outstanding = server.outstanding := by
  unfold handleOutboundFailure
  cases server.requestIdMap.lookup requestId with
  | none => exact ⟨.of_same rfl rfl, rfl⟩
  | some root =>
    exact ⟨(failure_course _ root peer a).of_view rfl rfl,
      (handleFetchFailure_sameRequests _ root peer).outstanding⟩

theorem connectionEstablished_course (hnumbered : Numbered server) (peer : P) (numEstablished : ℕ)
    (ourStatus : Status H) (a : H) :
    Course server (handleConnectionEstablished server peer numEstablished ourStatus) a
      (timesAsked a (taken server
        (handleConnectionEstablished server peer numEstablished ourStatus))) := by
  unfold handleConnectionEstablished
  split
  · rw [sendRequest]
    split
    · let connected := send { server with connectedPeers := server.connectedPeers.insert peer }
        (peer, .status ourStatus)
      have htaken : taken server connected = [(peer, .status ourStatus)] :=
        taken_insert hnumbered rfl
      change Course server connected a (timesAsked a (taken server connected))
      rw [htaken]
      exact .of_same rfl rfl
    · exact SameRequests.course hnumbered ⟨rfl, rfl, rfl⟩ (.of_same rfl rfl)
  · exact SameRequests.course hnumbered (.refl server) (.of_same rfl rfl)

/-- What an event does that can come up. -/
inductive Stepped (th : TreeHash H) (server : P2PServer P H) : Event P H → P2PServer P H → Prop
  | initBlockChain : Stepped th server .initBlockChain { server with blockchain := true }
  | fetchBlock (root : H) (pick : ℕ) :
      Stepped th server (.fetchBlock root pick) (handleFetchBlock pick server root)
  | retryBlockFetch {retry : RetryBlockFetch H} (pick : ℕ) (hmem : retry ∈ server.scheduled) :
      Stepped th server (.retryBlockFetch retry pick)
        (handleRetryBlockFetch pick (server.fire retry) retry.root)
  | response {requestId : ℕ} {peer : P} {request : Request H} (response : Response H)
      (hsent : server.outstanding.lookup requestId = some (peer, request))
      (hprotocol : response.protocol = request.protocol) :
      Stepped th server (.response requestId response)
        (handleResponse th { server with outstanding := server.outstanding.erase requestId }
          peer requestId response)
  | outboundFailure {requestId : ℕ} {peer : P} {request : Request H}
      (hsent : server.outstanding.lookup requestId = some (peer, request)) :
      Stepped th server (.outboundFailure requestId)
        (handleOutboundFailure { server with outstanding := server.outstanding.erase requestId }
          peer requestId)
  | connectionEstablished (peer : P) (numEstablished : ℕ) (ourStatus : Status H) :
      Stepped th server (.connectionEstablished peer numEstablished ourStatus)
        (handleConnectionEstablished server peer numEstablished ourStatus)
  | connectionClosed (peer : P) (numEstablished : ℕ) :
      Stepped th server (.connectionClosed peer numEstablished)
        (handleConnectionClosed server peer numEstablished)
  | adapterClosed : Stepped th server .adapterClosed { server with adapterOpen := false }

theorem step_cases (hstep : step th server event = .ok server') :
    Stepped th server event server' := by
  cases event with
  | initBlockChain =>
    obtain rfl := Except.ok.inj hstep
    exact .initBlockChain
  | fetchBlock root pick =>
    obtain rfl := Except.ok.inj hstep
    exact .fetchBlock root pick
  | retryBlockFetch retry pick =>
    rw [step] at hstep
    split at hstep
    · rename_i hmem
      obtain rfl := Except.ok.inj hstep
      exact .retryBlockFetch pick hmem
    · cases hstep
  | response requestId response =>
    rw [step] at hstep
    cases hsent : server.outstanding.lookup requestId with
    | none =>
      rw [hsent] at hstep
      cases hstep
    | some sent =>
      rw [hsent] at hstep
      dsimp only at hstep
      split at hstep
      · rename_i hprotocol
        obtain rfl := Except.ok.inj hstep
        exact .response response hsent hprotocol
      · cases hstep
  | outboundFailure requestId =>
    rw [step] at hstep
    cases hsent : server.outstanding.lookup requestId with
    | none =>
      rw [hsent] at hstep
      cases hstep
    | some sent =>
      rw [hsent] at hstep
      obtain rfl := Except.ok.inj hstep
      exact .outboundFailure hsent
  | connectionEstablished peer numEstablished ourStatus =>
    obtain rfl := Except.ok.inj hstep
    exact .connectionEstablished peer numEstablished ourStatus
  | connectionClosed peer numEstablished =>
    obtain rfl := Except.ok.inj hstep
    exact .connectionClosed peer numEstablished
  | adapterClosed =>
    obtain rfl := Except.ok.inj hstep
    exact .adapterClosed

theorem step_course (hnumbered : Numbered server) (hstep : step th server event = .ok server')
    (a : H) : Course server server' a (timesAsked a (requests th server event)) := by
  rw [requests_eq hstep]
  cases step_cases hstep with
  | initBlockChain | adapterClosed =>
    exact SameRequests.course hnumbered ⟨rfl, rfl, rfl⟩ (.of_same rfl rfl)
  | fetchBlock root pick => exact fetchBlock_course hnumbered pick root a
  | retryBlockFetch pick hmem => exact retry_course hnumbered hmem pick a
  | @response requestId peer request response hsent hprotocol =>
    obtain ⟨hcourse, hout⟩ := response_course th
      { server with outstanding := server.outstanding.erase requestId } peer requestId response a
    rw [timesAsked_settle hnumbered hout]
    exact hcourse.of_view rfl rfl
  | @outboundFailure requestId peer request hsent =>
    obtain ⟨hcourse, hout⟩ := outboundFailure_course
      { server with outstanding := server.outstanding.erase requestId } peer requestId a
    rw [timesAsked_settle hnumbered hout]
    exact hcourse.of_view rfl rfl
  | connectionEstablished peer numEstablished ourStatus =>
    exact connectionEstablished_course hnumbered peer numEstablished ourStatus a
  | connectionClosed peer numEstablished =>
    unfold handleConnectionClosed
    split
    · exact SameRequests.course hnumbered ⟨rfl, rfl, rfl⟩ (.of_same rfl rfl)
    · exact SameRequests.course hnumbered (.refl server) (.of_same rfl rfl)

end Steps

section Runs

variable {th : TreeHash H} {server idle : P2PServer P H} {event : Event P H}
  {events before : List (Event P H)} {root : H}

theorem Phased.retries_le (h : Phased server) (root : H) : server.retries root ≤ 1 := by
  obtain ⟨phase, hshows⟩ := h.phase root
  have htokens := hshows.tokens
  rw [tokens] at htokens
  split at htokens
  · omega
  · omega

theorem Phased.retries_idle (h : Phased server) (hidle : server.attempts root = none) :
    server.retries root = 0 := by
  obtain ⟨phase, hshows⟩ := h.phase root
  have hphase : phase = .idle := not_not.mp (mt hshows.pending.mpr (attempts_eq_none.mp hidle))
  have htokens := hshows.tokens
  rw [hphase, if_neg (by decide), tokens] at htokens
  omega

theorem Budget.run {k : ℕ} (h : Budget idle root k) (hphased : Phased idle)
    (hstarted : idle.attempts root = none → k = 0)
    (hpursued : ∀ p ∈ (Base.Runs.trace (step th) idle events).tail, root ∈ p.1.pendingRequests)
    (hrun : Base.Runs.run (step th) idle events = .ok server) :
    Budget server root
      (k + timesAsked root (Base.Runs.log (step th) (requests th) idle events)) := by
  induction events generalizing idle k with
  | nil =>
    obtain rfl : idle = server := Except.ok.inj hrun
    exact h
  | cons event events ih =>
    obtain ⟨next, hstep, hrest⟩ := Base.Runs.run_cons_eq_ok.mp hrun
    have hnext := hphased.step hstep
    have hcourse := step_course hphased.toNumbered hstep root
    have hbudget := h.course (fun hidle ↦ ⟨hstarted hidle, hphased.retries_idle hidle⟩)
      (hnext.retries_le root) hcourse
    rw [Base.Runs.trace, hstep, List.tail_cons] at hpursued
    rw [Base.Runs.log_cons hstep, timesAsked_append, ← Nat.add_assoc]
    cases events with
    | nil =>
      obtain rfl : next = server := Except.ok.inj hrest
      exact hbudget
    | cons event' events =>
      refine ih hbudget hnext (fun hnone ↦ ?_) (fun p hp ↦ ?_) hrest
      · have hpending := hpursued (next, event') (by simp [Base.Runs.trace])
        exact absurd hpending (attempts_eq_none.mp hnone)
      · exact hpursued p (List.mem_of_mem_tail hp)

/-- However the peers behave, from the moment the fetch of a root begins until it ends the root is
asked for at most ten times. As long as it is pending, its attempts are the requests sent for it and
the retry that waits, and the retry waits for 5 ms doubled with each attempt. -/
theorem fetch_budget (th : TreeHash H) (hbefore : Base.Runs.run (step th) spawn before = .ok idle)
    (hidle : root ∉ idle.pendingRequests)
    (hpursued : ∀ p ∈ (Base.Runs.trace (step th) idle events).tail, root ∈ p.1.pendingRequests)
    (hrun : Base.Runs.run (step th) idle events = .ok server) :
    timesAsked root (Base.Runs.log (step th) (requests th) idle events) ≤ maxFetchRetries ∧
    ∀ pending, server.pendingRequests.lookup root = some pending →
      1 ≤ timesAsked root (Base.Runs.log (step th) (requests th) idle events) ∧
      timesAsked root (Base.Runs.log (step th) (requests th) idle events) + server.retries root =
        pending.attempts ∧
      pending.attempts ≤ maxFetchRetries ∧
      ∀ retry ∈ server.scheduled, retry.root = root →
        retry.backoffMs = initialBackoffMs * backoffMultiplier ^ (pending.attempts - 2) := by
  have hphased : Phased idle :=
    Base.Runs.run_invariant (fun _ _ _ h hstep ↦ h.step hstep) phased_spawn hbefore
  have hnone := attempts_eq_none.mpr hidle
  have hbudget := (budget_idle hnone).run hphased (fun _ ↦ rfl) hpursued hrun
  rw [Nat.zero_add] at hbudget
  refine ⟨hbudget.asked_le, fun pending hpending ↦ ?_⟩
  have hattempts : server.attempts root = some pending.attempts :=
    congrArg (Option.map PendingRequest.attempts) hpending
  obtain ⟨hpos, hsum, hmax⟩ := hbudget.spent _ hattempts
  refine ⟨hpos, hsum, hmax, fun retry hretry hroot ↦ ?_⟩
  subst hroot
  exact hbudget.backoff _ hattempts _ (mem_delays.mpr hretry)

section Samples

/-- A peer has connected and is sent our status. -/
def connected : P2PServer ℕ ℕ :=
  { (spawn : P2PServer ℕ ℕ).send (7, .status ⟨⟨0, 0⟩, ⟨0, 0⟩⟩) with connectedPeers := [7] }

/-- The first request for root 5 comes back empty, and the second fails. -/
def twoFailures : List (Event ℕ ℕ) :=
  [.fetchBlock 5 0, .response 2 (.success (.blocksByRoot [])), .retryBlockFetch ⟨5, 5⟩ 0,
    .outboundFailure 3]

theorem fetch_budget_sample : ∃ server,
    Base.Runs.run (step slotHash) connected twoFailures = .ok server ∧
    server.pendingRequests.lookup 5 = some ⟨3, [7]⟩ ∧
    server.scheduled = [⟨5, 10⟩] ∧
    timesAsked 5 (Base.Runs.log (step slotHash) (requests slotHash) connected twoFailures) ≤
      maxFetchRetries ∧
    ∀ pending, server.pendingRequests.lookup 5 = some pending →
      1 ≤ timesAsked 5 (Base.Runs.log (step slotHash) (requests slotHash) connected twoFailures) ∧
      timesAsked 5 (Base.Runs.log (step slotHash) (requests slotHash) connected twoFailures) +
        server.retries 5 = pending.attempts ∧
      pending.attempts ≤ maxFetchRetries ∧
      ∀ retry ∈ server.scheduled, retry.root = 5 →
        retry.backoffMs = initialBackoffMs * backoffMultiplier ^ (pending.attempts - 2) := by
  obtain ⟨server, hrun, hview⟩ := Exec.exists_ok_of_map
    (x := Base.Runs.run (step slotHash) connected twoFailures)
    (f := fun s ↦ (s.pendingRequests.lookup 5, s.scheduled)) (b := (some ⟨3, [7]⟩, [⟨5, 10⟩]))
    (by decide +kernel)
  have hconnected : Base.Runs.run (step slotHash) spawn (slotFetch.take 1) = .ok connected := rfl
  refine ⟨server, hrun, congrArg Prod.fst hview, congrArg Prod.snd hview, ?_⟩
  exact fetch_budget slotHash hconnected (by decide) (by decide +kernel) hrun

end Samples

end Runs

end P2PServer

end Ethlambda.Network
