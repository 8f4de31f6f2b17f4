import Ethlambda.Network.Effects

namespace Ethlambda.Network

open Ethlambda.Base Ethlambda.Types

set_option linter.unusedSectionVars false

variable {P H : Type}

namespace P2PServer

section Steps

variable [DecidableEq P] [DecidableEq H] {th : TreeHash H} {server server' : P2PServer P H}
  {event : Event P H}

/-- The map still holds a request that is settled. -/
def Leaked (server : P2PServer P H) (id : ℕ) : Prop :=
  id ∈ server.requestIdMap ∧ id ∉ server.outstanding

theorem SameRequests.leaked_iff (h : SameRequests server server') (id : ℕ) :
    Leaked server' id ↔ Leaked server id := by
  rw [Leaked, Leaked, h.requestIdMap, h.outstanding]

theorem Sends.leaked_iff {root : H} (hnumbered : Numbered server) (h : Sends server root server')
    (id : ℕ) : Leaked server' id ↔ Leaked server id := by
  obtain ⟨sent, -, hout⟩ := h.outstanding
  rw [Leaked, Leaked, h.requestIdMap, hout, AList.mem_insert, AList.mem_insert]
  have hne : id ∈ server.requestIdMap → id ≠ server.nextRequestId := by
    rintro hid rfl
    exact hnumbered.fresh_map hid
  tauto

theorem leaked_settle_erase {requestId : ℕ} {sent : P × Request H}
    (hsent : server.outstanding.lookup requestId = some sent) (id : ℕ) :
    Leaked (server.settle requestId (server.requestIdMap.erase requestId)) id ↔
      Leaked server id := by
  have hmem : requestId ∈ server.outstanding := Table.mem_iff_lookup.mpr ⟨sent, hsent⟩
  simp only [Leaked, settle, AList.mem_erase]
  constructor
  · intro h
    exact ⟨h.1.2, fun hid ↦ h.2 ⟨h.1.1, hid⟩⟩
  · intro h
    refine ⟨⟨?_, h.1⟩, fun hid ↦ h.2 hid.2⟩
    rintro rfl
    exact h.2 hmem

/-- An empty answer to a tracked request leaks its number, and nothing else leaks or mends. -/
theorem Effect.leaked_iff (hnumbered : Numbered server) (he : Effect th server event server')
    (id : ℕ) : Leaked server' id ↔ Leaked server id ∨
      event = .response id (.success (.blocksByRoot [])) ∧ id ∈ server.requestIdMap := by
  have hquiet (hevent : ¬Answers server event) :
      ¬(event = .response id (.success (.blocksByRoot [])) ∧ id ∈ server.requestIdMap) := by
    rintro ⟨rfl, hid⟩
    exact hevent hid
  cases he with
  | quiet hevent h => rw [h.leaked_iff, or_iff_left (hquiet hevent)]
  | status hevent hsent h =>
    rw [h.leaked_iff, or_iff_left (hquiet hevent)]
    simp only [Leaked, send, AList.mem_insert]
    have hne : id ∈ server.requestIdMap → id ≠ server.nextRequestId := by
      rintro hid rfl
      exact hnumbered.fresh_map hid
    tauto
  | fetch hidle h => simp [h.leaked_iff hnumbered]
  | @ignored _ requestId sent hevent hsent hnone =>
    rw [or_iff_left (hquiet hevent)]
    have hunmapped : requestId ∉ server.requestIdMap := by
      intro hid
      obtain ⟨root, hroot⟩ := Table.mem_iff_lookup.mp hid
      rw [hnone (hnumbered.blocks _ _ _ hsent hroot)] at hroot
      exact nomatch hroot
    simp only [Leaked, settle, AList.mem_erase]
    have hne : id ∈ server.requestIdMap → id ≠ requestId := by
      rintro hid rfl
      exact hunmapped hid
    tauto
  | @empty requestId peer _ root hsent hblocks hroot =>
    have hmem : requestId ∈ server.requestIdMap := Table.mem_iff_lookup.mpr ⟨root, hroot⟩
    rw [(handleFetchFailure_sameRequests _ _ _).leaked_iff]
    simp only [Leaked, settle, AList.mem_erase, AList.mem_insert, Event.response.injEq]
    by_cases heq : id = requestId
    · simp [heq, hmem]
    · simp [heq, Ne.symm heq]
  | failed hsent hroot =>
    rw [(handleFetchFailure_sameRequests _ _ _).leaked_iff, leaked_settle_erase hsent]
    simp
  | answered hne hsent hblocks hroot =>
    rw [(receiveBlocks_sameRequests _ _ _ _).leaked_iff, leaked_settle_erase hsent]
    simp [hne]
  | dropped hmem hidle => simp [Leaked, fire]
  | @retried retry _ _ hmem h =>
    rw [h.leaked_iff (hnumbered.fire retry)]
    simp [Leaked, fire]
  | abandoned hmem h =>
    simp [Leaked, h.requestIdMap, h.outstanding, fire]

/-- No tracked request comes back empty. -/
def NonEmpty (server : P2PServer P H) : Event P H → Prop
  | .response requestId (.success (.blocksByRoot blocks)) =>
    requestId ∈ server.requestIdMap → blocks ≠ []
  | _ => True

theorem nonEmpty_iff : NonEmpty server event ↔
    ∀ id, ¬(event = .response id (.success (.blocksByRoot [])) ∧ id ∈ server.requestIdMap) := by
  match event with
  | .response requestId (.success (.blocksByRoot blocks)) =>
    simp only [NonEmpty, Event.response.injEq, Response.success.injEq,
      ResponsePayload.blocksByRoot.injEq]
    constructor
    · rintro h id ⟨⟨rfl, rfl⟩, hid⟩
      exact h hid rfl
    · rintro h hid rfl
      exact h requestId ⟨⟨rfl, rfl⟩, hid⟩
  | .response _ (.success (.status _)) | .response _ (.error _ _) | .initBlockChain
  | .fetchBlock _ _ | .retryBlockFetch _ _ | .outboundFailure _ | .connectionEstablished _ _ _
  | .connectionClosed _ _ | .adapterClosed => simp [NonEmpty]

end Steps

section Runs

variable [DecidableEq P] [DecidableEq H] (th : TreeHash H) {events : List (Event P H)}
  {server : P2PServer P H}

/-- Every tracked request is unsettled exactly when no tracked request has come back empty. -/
theorem requests_unsettled_iff (h : Base.Runs.run (step th) spawn events = .ok server) :
    (∀ id ∈ server.requestIdMap, id ∈ server.outstanding) ↔
      ∀ p ∈ Base.Runs.trace (step th) spawn events, NonEmpty p.1 p.2 := by
  have hleaked (s : P2PServer P H) :
      (∀ id ∈ s.requestIdMap, id ∈ s.outstanding) ↔ ∀ id, ¬Leaked s id := by
    simp [Leaked]
  rw [hleaked]
  refine Base.Runs.run_iff_trace (P := Numbered) (G := fun s ↦ ∀ id, ¬Leaked s id)
    (C := fun p : P2PServer P H × Event P H ↦ NonEmpty p.1 p.2)
    (fun _ _ _ hnumbered hstep ↦ hnumbered.effect (step_effect hstep)) ?_ ?_ ?_ numbered_spawn ?_ h
  · intro s event s' hnumbered htracked hevent hstep id
    rw [(step_effect hstep).leaked_iff hnumbered]
    exact not_or.mpr ⟨htracked id, nonEmpty_iff.mp hevent id⟩
  · intro s event s' hnumbered hevent hstep htracked
    rw [nonEmpty_iff, not_forall] at hevent
    obtain ⟨id, hid⟩ := hevent
    exact htracked id (((step_effect hstep).leaked_iff hnumbered id).mpr (.inr (not_not.mp hid)))
  · intro s event s' hnumbered hleak hstep htracked
    refine hleak fun id hid ↦ ?_
    exact htracked id (((step_effect hstep).leaked_iff hnumbered id).mpr (.inl hid))
  · exact fun id hid ↦ absurd hid.1 (AList.notMem_empty id)

/-- A peer answers with no block, and the number of its request stays in the map. -/
theorem empty_answer_leaks : ∃ server,
    Base.Runs.run (step slotHash) spawn (slotFetch ++
      [.response 2 (.success (.blocksByRoot []))]) = .ok server ∧
    2 ∈ server.requestIdMap ∧ 2 ∉ server.outstanding := by
  obtain ⟨server, hrun, hview⟩ := Exec.exists_ok_of_map
    (x := Base.Runs.run (step slotHash) spawn (slotFetch ++
      [.response 2 (.success (.blocksByRoot []))]))
    (f := fun s ↦ (decide (2 ∈ s.requestIdMap), decide (2 ∉ s.outstanding))) (b := (true, true))
    (by decide +kernel)
  exact ⟨server, hrun, of_decide_eq_true (congrArg Prod.fst hview),
    of_decide_eq_true (congrArg Prod.snd hview)⟩

theorem requests_unsettled_iff_sample : ∃ server,
    Base.Runs.run (step slotHash) spawn (slotFetch ++ [.outboundFailure 2]) = .ok server ∧
    5 ∈ server.pendingRequests ∧
    ((∀ id ∈ server.requestIdMap, id ∈ server.outstanding) ↔
      ∀ p ∈ Base.Runs.trace (step slotHash) spawn (slotFetch ++ [.outboundFailure 2]),
        NonEmpty p.1 p.2) := by
  obtain ⟨server, hrun, hview⟩ := Exec.exists_ok_of_map
    (x := Base.Runs.run (step slotHash) spawn (slotFetch ++ [.outboundFailure 2]))
    (f := fun s ↦ decide (5 ∈ s.pendingRequests)) (b := true) (by decide +kernel)
  exact ⟨server, hrun, of_decide_eq_true hview, requests_unsettled_iff slotHash hrun⟩

end Runs

end P2PServer

end Ethlambda.Network
