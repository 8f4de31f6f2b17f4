import Ethlambda.Chain.Crash
import Ethlambda.Chain.Pools

namespace Ethlambda.Chain

open Ethlambda.Base Ethlambda.Types Ethlambda.Storage Ethlambda.StateTransition

set_option linter.unusedSectionVars false

variable {H : Type} [LinearOrder H] [Zero H] {host : Host H} {s s' : Store H} {ε : Type}

/-- The counter shows how many signatures the table holds. -/
def Exact (s : Store H) : Prop := s.gossipSignaturesCount = s.gossipSignatures.keys.length

/-- What the program does to the table of gossip signatures and its counter. -/
inductive GossipOp (host : Host H)
  | reopen (anchorState : State H) (anchorBody : Option (BlockBody H))
  | insert (dataRoot : H) (slot validatorId : UInt64) (signature : host.Signature)
  | aggregate
  | prune (finalizedSlot : UInt64)
  | other (f : Store H → Store H) (table : ∀ s, (f s).gossipSignatures = s.gossipSignatures)
      (count : ∀ s, (f s).gossipSignaturesCount = s.gossipSignaturesCount)

namespace GossipOp

variable (host)

def step (s : Store H) : GossipOp host → Except Panic (Store H)
  | .reopen anchorState anchorBody => Chain.reopen host s anchorState anchorBody
  | .insert dataRoot slot validatorId signature =>
    .ok (s.insertGossipSignature host dataRoot slot validatorId signature)
  | .aggregate =>
    match (aggregateCommitteeSignatures host : Op (Store H) Empty _) s with
    | .ok (_, s') => .ok s'
    | .error p => .error p
  | .prune finalizedSlot => .ok (s.pruneGossipSignatures finalizedSlot)
  | .other f _ _ => .ok (f s)

/-- How much is subtracted from the counter: as many as there are keys to delete. -/
def subtracted (s : Store H) : GossipOp host → ℕ
  | .aggregate => (aggregatedKeys host s).length
  | .prune finalizedSlot => (Table.pairs s.gossipSignatures).countP
      fun e ↦ decide (e.2.slot ≤ finalizedSlot)
  | _ => 0

end GossipOp

section Exact

theorem Exact.of_eq (h : Exact s) (htable : s'.gossipSignatures = s.gossipSignatures)
    (hcount : s'.gossipSignaturesCount = s.gossipSignaturesCount) : Exact s' := by
  rw [Exact, htable, hcount]
  exact h

theorem exact_reopen {st : State H} {body : Option (BlockBody H)}
    (h : Chain.reopen host s st body = .ok s') : Exact s' := by
  unfold Chain.reopen at h
  dsimp only at h
  split at h
  · obtain rfl := Except.ok.inj h
    rfl
  · exact nomatch h

theorem Exact.insert (h : Exact s) (dataRoot : H) (slot validatorId : UInt64)
    (signature : host.Signature) :
    Exact (s.insertGossipSignature host dataRoot slot validatorId signature) := by
  have hlength := Table.length_keys_insert (validatorId, dataRoot) (.new host slot signature)
    s.gossipSignatures
  unfold Exact Store.insertGossipSignature
  dsimp only
  rw [hlength, h]

/-- The pruning subtracts what it deletes. -/
theorem pruned_add (host : Host H) (s : Store H) (finalizedSlot : UInt64) :
    (s.pruneGossipSignatures finalizedSlot).gossipSignatures.keys.length +
        GossipOp.subtracted host s (.prune finalizedSlot) = s.gossipSignatures.keys.length := by
  have hsplit := Table.length_keys_retain (fun _ sig ↦ decide (finalizedSlot < sig.slot))
    s.gossipSignatures
  have hold : (fun e : SignatureKey H × StoredSignature ↦ !decide (finalizedSlot < e.2.slot)) =
      fun e ↦ decide (e.2.slot ≤ finalizedSlot) := by
    funext e
    rw [← decide_not]
    exact decide_eq_decide.mpr UInt64.not_lt
  rw [hold] at hsplit
  exact hsplit

theorem Exact.prune (h : Exact s) (host : Host H) (finalizedSlot : UInt64) :
    Exact (s.pruneGossipSignatures finalizedSlot) ∧
      (s.pruneGossipSignatures finalizedSlot).gossipSignaturesCount +
        GossipOp.subtracted host s (.prune finalizedSlot) = s.gossipSignaturesCount := by
  have hadd := pruned_add host s finalizedSlot
  have hcount : (s.pruneGossipSignatures finalizedSlot).gossipSignaturesCount =
      s.gossipSignaturesCount - (s.gossipSignatures.keys.length -
        (s.pruneGossipSignatures finalizedSlot).gossipSignatures.keys.length) := rfl
  rw [Exact] at h ⊢
  omega

theorem Exact.delete (h : Exact s) {keys : List (SignatureKey H)} (hnodup : keys.Nodup)
    (hkeys : ∀ k ∈ keys, k ∈ s.gossipSignatures.keys) :
    Exact (s.deleteGossipSignatures keys) ∧
      (s.deleteGossipSignatures keys).gossipSignaturesCount + keys.length =
        s.gossipSignaturesCount := by
  have hadd := Table.length_keys_deleteBatch hnodup hkeys
  have hcount : (s.deleteGossipSignatures keys).gossipSignaturesCount =
      s.gossipSignaturesCount - keys.length := rfl
  have htable : (s.deleteGossipSignatures keys).gossipSignatures =
      Table.deleteBatch keys s.gossipSignatures := rfl
  rw [Exact] at h ⊢
  rw [htable]
  omega

/-- What aggregation deletes is there, and it is named once. -/
theorem Exact.aggregate (h : Exact s) {r : Except ε (List (SignedAggregatedAttestation H))}
    (hr : aggregateCommitteeSignatures host s = .ok (r, s')) :
    Exact s' ∧ ((∃ e, r = .error e) ∨
      s'.gossipSignaturesCount + (aggregatedKeys host s).length = s.gossipSignaturesCount) := by
  obtain ⟨hnodup, hkeys⟩ := aggregatedKeys_nodup host s
  obtain ⟨rfl, herror⟩ | ⟨entries, -, rfl⟩ := aggregateCommitteeSignatures_eq_ok hr
  · exact ⟨h, .inl herror⟩
  · have hinserted : Exact (s.insertNewAggregatedPayloadsBatch entries) := h
    obtain ⟨hexact, hcount⟩ := hinserted.delete hnodup hkeys
    exact ⟨hexact, .inr hcount⟩

theorem Exact.step {op : GossipOp host} (h : Exact s) (hs : GossipOp.step host s op = .ok s') :
    Exact s' := by
  cases op with
  | reopen st body => exact exact_reopen hs
  | insert dataRoot slot validatorId signature =>
    obtain rfl := Except.ok.inj hs
    exact h.insert dataRoot slot validatorId signature
  | aggregate =>
    unfold GossipOp.step at hs
    dsimp only at hs
    split at hs
    · rename_i r t heq
      obtain rfl := Except.ok.inj hs
      exact (h.aggregate heq).1
    · exact nomatch hs
  | prune finalizedSlot =>
    obtain rfl := Except.ok.inj hs
    exact (h.prune host finalizedSlot).1
  | other f table count =>
    obtain rfl := Except.ok.inj hs
    exact h.of_eq (table s) (count s)

/-- The subtraction leaves the difference, never zero for want of more. -/
theorem Exact.subtracted_le {op : GossipOp host} (h : Exact s) :
    GossipOp.subtracted host s op ≤ s.gossipSignaturesCount := by
  cases op with
  | aggregate =>
    obtain ⟨hnodup, hkeys⟩ := aggregatedKeys_nodup host s
    have hcount := (h.delete hnodup hkeys).2
    have heq : GossipOp.subtracted host s .aggregate = (aggregatedKeys host s).length := rfl
    omega
  | prune finalizedSlot =>
    have hcount := (h.prune host finalizedSlot).2
    omega
  | _ => exact Nat.zero_le _

end Exact

section Program

variable {sb : SignedBlockWithAttestation H} {post : State H}

theorem Exact.updateCheckpoints (h : Exact s) (c : ForkCheckpoints H) :
    Exact (s.updateCheckpoints host c) := by
  have hset : Exact (s.setCheckpoints c) := h
  unfold Store.updateCheckpoints
  cases c.finalized with
  | none => exact hset
  | some finalized =>
    dsimp only
    split
    · have hlive : Exact ((s.setCheckpoints c).pruneLiveChain host finalized.slot) := hset
      have hpruned := (hlive.prune host finalized.slot).1
      exact hpruned.of_eq rfl rfl
    · exact hset

theorem Exact.adoptCheckpoints (h : Exact s) : Exact (adoptCheckpoints host s post) := by
  unfold Chain.adoptCheckpoints
  dsimp only
  generalize (if s.latestJustified.slot < post.latestJustified.slot then
    some post.latestJustified else none) = justified
  generalize (if s.latestFinalized.slot < post.latestFinalized.slot then
    some post.latestFinalized else none) = finalized
  split
  · exact h.updateCheckpoints _
  · exact h

theorem Exact.recordBlock (h : Exact s) : Exact (recordBlock host sb post s) := by
  have hadopt : Exact (Chain.adoptCheckpoints host s post) := h.adoptCheckpoints
  unfold Chain.recordBlock
  generalize Chain.adoptCheckpoints host s post = t at hadopt ⊢
  exact hadopt.of_eq rfl rfl

theorem exact_ticking (host : Host H) : Ticking host (Exact : Store H → Prop) where
  clock := fun _ h ↦ h
  promote := fun h ↦ h
  updateHead := by
    intro ε s r s' h hr
    obtain ⟨g, -, rfl⟩ := updateHead_eq_ok hr
    exact h
  updateSafeTarget := by
    intro ε s r s' h hr
    obtain rfl | ⟨g, -, rfl⟩ := updateSafeTarget_eq_ok hr
    · exact h
    · exact h
  aggregate := fun _ _ _ h hr ↦ (Exact.aggregate h hr).1

/-- Whatever is called on the store, the counter stays exact. -/
theorem Exact.call {c : Call H} (h : Exact s) (hs : Call.step host s c = .ok s') : Exact s' := by
  obtain ⟨r, hr⟩ := Call.perform_of_step hs
  cases c with
  | onBlock sb ids =>
    obtain ⟨rfl, -⟩ | ⟨post, head, -, -, -, hs'⟩ := onBlock_eq_ok hr
    · exact h
    have hrecord : Exact (Chain.recordBlock host sb post s) := h.recordBlock
    generalize Chain.recordBlock host sb post s = t at hrecord hs'
    have hmoved : Exact { t with head := head } := hrecord.of_eq rfl rfl
    obtain rfl | ⟨-, sig, -, rfl⟩ := hs'
    · exact hmoved
    · exact hmoved.insert _ _ _ sig
  | insertPendingBlock sb =>
    obtain ⟨-, rfl⟩ := Prod.mk.inj (Except.ok.inj hr)
    exact h.of_eq rfl rfl
  | onTick timestampMs hasProposal isAggregator =>
    exact Op.Keeps.bind (onTick_keeps (exact_ticking host) timestampMs hasProposal isAggregator)
      (fun _ ↦ Op.Keeps.pure _) s r s' h hr
  | onGossipAttestation signed ids =>
    obtain rfl | ⟨sig, -, hs'⟩ := onGossipAttestation_eq_ok hr
    · exact h
    have hdata : Exact (s.insertAttestationDataByRoot (host.attestationData signed.data)
        signed.data) := h.of_eq rfl rfl
    obtain rfl | rfl := hs'
    · exact hdata
    · exact hdata.insert _ _ _ sig
  | onGossipAggregatedAttestation aggregated =>
    obtain ⟨rfl, -⟩ | ⟨-, rfl⟩ := onGossipAggregatedAttestation_eq_ok hr
    · exact h
    · exact h.of_eq rfl rfl
  | produceBlockWithSignatures slot validatorIndex =>
    exact Op.Keeps.bind (produceBlockWithSignatures_keeps (exact_ticking host) slot validatorIndex)
      (fun _ ↦ Op.Keeps.pure _) s r s' h hr
  | pruneOldData =>
    obtain ⟨-, rfl⟩ := Prod.mk.inj (Except.ok.inj hr)
    exact h.of_eq rfl rfl

theorem Exact.incident {i : Incident H} (h : Exact s) (hs : Incident.step host s i = .ok s') :
    Exact s' := by
  cases i with
  | call c => exact h.call hs
  | crash commits sb ids anchor =>
    unfold Incident.step at hs
    dsimp only at hs
    split at hs
    · exact exact_reopen hs
    · exact nomatch hs

end Program

/-- A step that lowers the counter lowers it by as much as it is asked to. -/
theorem Exact.lowered {op : GossipOp host} (h : Exact s) (hs : GossipOp.step host s op = .ok s')
    (hop : op = .aggregate ∨ ∃ finalizedSlot, op = .prune finalizedSlot) :
    s'.gossipSignaturesCount + GossipOp.subtracted host s op = s.gossipSignaturesCount := by
  obtain rfl | ⟨finalizedSlot, rfl⟩ := hop
  · unfold GossipOp.step at hs
    dsimp only at hs
    split at hs
    · rename_i r t heq
      obtain rfl := Except.ok.inj hs
      exact (h.aggregate heq).2.resolve_left fun ⟨e, _⟩ ↦ nomatch e
    · exact nomatch hs
  · obtain rfl := Except.ok.inj hs
    exact (h.prune host finalizedSlot).2

theorem gossip_signatures_counted {old s₀ : Store H} {anchorState : State H}
    {anchorBody : Option (BlockBody H)} (hopen : reopen host old anchorState anchorBody = .ok s₀) :
    (∀ (ops : List (GossipOp host)) (s : Store H),
      Runs.run (GossipOp.step host) s₀ ops = .ok s →
        s.gossipSignaturesCount = s.gossipSignatures.keys.length) ∧
      (∀ ops : List (GossipOp host), ∀ p ∈ Runs.trace (GossipOp.step host) s₀ ops,
        GossipOp.subtracted host p.1 p.2 ≤ p.1.gossipSignaturesCount ∧
        ∀ s', GossipOp.step host p.1 p.2 = .ok s' →
          (p.2 = .aggregate ∨ ∃ finalizedSlot, p.2 = .prune finalizedSlot) →
          s'.gossipSignaturesCount + GossipOp.subtracted host p.1 p.2 =
            p.1.gossipSignaturesCount) ∧
      ∀ (is : List (Incident H)) (s : Store H), Incident.run host s₀ is = .ok s →
        s.gossipSignaturesCount = s.gossipSignatures.keys.length := by
  have hexact : Exact s₀ := exact_reopen hopen
  refine ⟨fun ops s hs ↦ ?_, fun ops p hp ↦ ?_, fun is s hs ↦ ?_⟩
  · exact Runs.run_invariant (P := Exact) (fun _ _ _ h hs ↦ h.step hs) hexact hs
  · have hp' : Exact p.1 :=
      Runs.trace_invariant (P := Exact) (fun _ _ _ h hs ↦ h.step hs) hexact hp
    exact ⟨hp'.subtracted_le, fun s' hs' hop ↦ hp'.lowered hs' hop⟩
  · exact Runs.run_invariant (P := Exact) (fun _ _ _ h hs ↦ h.incident hs) hexact hs

section Sample

/-- A database with one signature, left by a node whose counter had gone astray. -/
def strayStore : Store ℕ :=
  { sampleStore.insertGossipSignature sampleHost 9 7 3 [] with gossipSignaturesCount := 40 }

/-- A signature comes in twice and is put together with nothing, then all that is old goes. -/
def gossipOps : List (GossipOp sampleHost) := [.insert 5 1 0 [], .insert 5 1 0 [], .aggregate, .prune 3]

theorem gossip_signatures_counted_sample :
    ∃ s₀ s, reopen sampleHost strayStore sampleGenesis none = .ok s₀ ∧
      s₀.gossipSignaturesCount = 1 ∧
      Runs.run (GossipOp.step sampleHost) s₀ gossipOps = .ok s ∧
      s.gossipSignaturesCount = s.gossipSignatures.keys.length := by
  have hview : ((reopen sampleHost strayStore sampleGenesis none).toOption.bind fun s₀ ↦
      (Runs.run (GossipOp.step sampleHost) s₀ gossipOps).toOption.map fun s ↦
        decide (s₀.gossipSignaturesCount = 1)) = some true := by decide +kernel
  obtain ⟨s₀, hs₀, hview⟩ := Option.bind_eq_some_iff.mp hview
  obtain ⟨s, hs, hcount⟩ := Option.map_eq_some_iff.mp hview
  have hopen := Exec.eq_ok_of_toOption hs₀
  have hrun := Exec.eq_ok_of_toOption hs
  exact ⟨s₀, s, hopen, of_decide_eq_true hcount, hrun,
    (gossip_signatures_counted hopen).1 gossipOps s hrun⟩

end Sample

end Ethlambda.Chain
