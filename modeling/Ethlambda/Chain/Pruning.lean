import Ethlambda.Chain.Operations

namespace Ethlambda.Chain

open Ethlambda.Base Ethlambda.Types Ethlambda.Storage Ethlambda.StateTransition

set_option linter.unusedSectionVars false

variable {H : Type} [LinearOrder H] [Zero H] {host : Host H} {s s' : Store H} {ε : Type}

section Expiry

theorem rootsByAge_perm (host : Host H) (s : Store H) :
    (s.rootsByAge host).Perm s.blockHeaders.keys := by
  have hsort := (List.perm_insertionSort (fun a b : H × BlockHeader H ↦ b.2.slot.toNat ≤ a.2.slot.toNat)
    (host.order (Table.pairs s.blockHeaders))).trans (host.order_perm _)
  refine (hsort.map Prod.fst).trans (List.Perm.of_eq ?_)
  rw [Table.pairs, List.map_map]
  rfl

theorem rootsByAge_nodup (host : Host H) (s : Store H) : (s.rootsByAge host).Nodup :=
  (rootsByAge_perm host s).nodup_iff.mpr s.blockHeaders.keys_nodup

theorem mem_drop_of_mem_expired {window : ℕ} {roots : List H} {r : H}
    (h : r ∈ s.expired host window roots) :
    r ∈ (s.rootsByAge host).drop window ∧ r ∉ roots := by
  unfold Store.expired at h
  split at h
  · exact absurd h List.not_mem_nil
  · obtain ⟨hdrop, hroots⟩ := List.mem_filter.mp h
    exact ⟨hdrop, of_decide_eq_true hroots⟩

theorem notMem_expired_of_mem_take {window : ℕ} {roots : List H} {r : H}
    (h : r ∉ roots → r ∈ (s.rootsByAge host).take window) : r ∉ s.expired host window roots := by
  intro hexp
  obtain ⟨hdrop, hroots⟩ := mem_drop_of_mem_expired hexp
  have hnd := rootsByAge_nodup host s
  rw [← List.take_append_drop window (s.rootsByAge host)] at hnd
  exact (List.nodup_append.mp hnd).2.2 r (h hroots) r hdrop rfl

theorem expired_subset {window window' : ℕ} (h : window ≤ window') {roots : List H} {r : H}
    (hr : r ∈ s.expired host window' roots) : r ∈ s.expired host window roots := by
  obtain ⟨hdrop, hroots⟩ := mem_drop_of_mem_expired hr
  have hlen : window' < s.blockHeaders.keys.length := by
    have hpos := List.length_pos_of_mem hdrop
    rw [List.length_drop, (rootsByAge_perm host s).length_eq] at hpos
    omega
  unfold Store.expired
  rw [if_neg (by omega), List.mem_filter]
  refine ⟨?_, decide_eq_true hroots⟩
  obtain ⟨k, rfl⟩ : ∃ k, window' = window + k := ⟨window' - window, by omega⟩
  rw [← List.drop_drop] at hdrop
  exact List.mem_of_mem_drop hdrop

end Expiry

section Prune

theorem lookup_pruneOldData_states (r : H) : (s.pruneOldData host).states.lookup r =
    if r ∈ s.expired host statesToKeep s.protectedRoots then none else s.states.lookup r :=
  Table.lookup_deleteBatch _ _ _

theorem lookup_pruneOldData_headers (r : H) : (s.pruneOldData host).blockHeaders.lookup r =
    if r ∈ s.expired host blocksToKeep s.protectedRoots then none else s.blockHeaders.lookup r :=
  Table.lookup_deleteBatch _ _ _

/-- Pruning keeps the tree together as long as no live block expires. -/
theorem Coherent.pruneOldData (h : Coherent host s)
    (hlive : ∀ slot r p, s.liveChain.lookup (slot, r) = some p →
      r ∉ s.expired host statesToKeep s.protectedRoots) : Coherent host (s.pruneOldData host) := by
  have hstates {r : H} {st : State H} (hst : (s.pruneOldData host).states.lookup r = some st) :
      s.states.lookup r = some st := by
    rw [lookup_pruneOldData_states] at hst
    split at hst
    · exact nomatch hst
    · exact hst
  constructor
  case states => exact fun r st hst ↦ h.states r st (hstates hst)
  case headers =>
    intro r hdr hhdr
    rw [lookup_pruneOldData_headers] at hhdr
    split at hhdr
    · exact nomatch hhdr
    · exact h.headers r hdr hhdr
  case live =>
    intro slot r p hp
    have hkept := hlive slot r p hp
    rw [lookup_pruneOldData_states, lookup_pruneOldData_headers, if_neg hkept,
      if_neg fun hr ↦ hkept (expired_subset (by decide) hr)]
    exact h.live slot r p hp
  case listed => exact fun r st hst hle ↦ h.listed r st (hstates hst) hle
  case ancestors => exact fun r st i x hst ↦ h.ancestors r st i x (hstates hst)
  case ordered => exact h.ordered
  case justified => exact h.justified
  case finalized => exact h.finalized

/-- Every live block lies inside the window for states, and the safe target inside the window for
blocks, unless it is protected. -/
structure Retained (host : Host H) (s : Store H) : Prop where
  live : ∀ slot r p, s.liveChain.lookup (slot, r) = some p → r ∉ s.protectedRoots →
    r ∈ (s.rootsByAge host).take statesToKeep
  safeTarget : s.safeTarget ∉ s.protectedRoots → s.safeTarget ∈ (s.rootsByAge host).take blocksToKeep

theorem Available.pruneOldData (h : Available host s) (hr : Retained host s) :
    Available host (s.pruneOldData host) := by
  refine ⟨h.coherent.pruneOldData fun slot r p hp ↦ ?_, h.head, ?_⟩
  · exact notMem_expired_of_mem_take (hr.live slot r p hp)
  · change ∃ hdr, (s.pruneOldData host).blockHeaders.lookup s.safeTarget = some hdr
    rw [lookup_pruneOldData_headers, if_neg (notMem_expired_of_mem_take hr.safeTarget)]
    exact h.safeTarget

end Prune

inductive Call (H : Type)
  | onBlock (signedBlock : SignedBlockWithAttestation H) (localValidatorIds : List UInt64)
  | insertPendingBlock (signedBlock : SignedBlockWithAttestation H)
  | onTick (timestampMs : UInt64) (hasProposal isAggregator : Bool)
  | onGossipAttestation (signed : SignedAttestation H) (localValidatorIds : List UInt64)
  | onGossipAggregatedAttestation (aggregated : SignedAggregatedAttestation H)
  | produceBlockWithSignatures (slot validatorIndex : UInt64)
  | pruneOldData

namespace Call

variable (host)

def discard {α : Type} (x : Op (Store H) (StoreError H) α) : Op (Store H) (StoreError H) Unit := do
  let _ ← x

def perform : Call H → Op (Store H) (StoreError H) Unit
  | .onBlock sb ids => Chain.onBlock host sb ids
  | .insertPendingBlock sb =>
    Op.modify fun s ↦ s.insertPendingBlock host (host.block sb.message.block) sb
  | .onTick timestampMs hasProposal isAggregator =>
    discard (Chain.onTick host timestampMs hasProposal isAggregator)
  | .onGossipAttestation signed ids => Chain.onGossipAttestation host signed ids
  | .onGossipAggregatedAttestation aggregated => Chain.onGossipAggregatedAttestation host aggregated
  | .produceBlockWithSignatures slot vid =>
    discard (Chain.produceBlockWithSignatures host slot vid)
  | .pruneOldData => Op.modify fun s ↦ s.pruneOldData host

/-- One operation. An error it returns leaves the store as the operation left it. -/
def step (s : Store H) (c : Call H) : Except Panic (Store H) :=
  match perform host c s with
  | .ok (_, s') => .ok s'
  | .error p => .error p

def run (s : Store H) (cs : List (Call H)) : Except Panic (Store H) := Runs.run (step host) s cs

/-- Where the call is a prune, it removes no state. -/
def KeepsStates (p : Store H × Call H) : Prop :=
  p.2 = .pruneOldData → (p.1.pruneOldData host).states = p.1.states

variable {host}

theorem perform_of_step {c : Call H} (h : step host s c = .ok s') :
    ∃ r, perform host c s = .ok (r, s') := by
  unfold step at h
  split at h
  · rename_i r t heq
    exact ⟨r, by rw [heq, Except.ok.inj h]⟩
  · exact nomatch h

theorem perform_keeps {I : Store H → Prop} (hI : Steady host I)
    {c : Call H} (hc : c ≠ .pruneOldData) : Op.Keeps I (perform host c) := by
  cases c with
  | onBlock sb ids => exact onBlockCore_keeps hI sb true ids
  | insertPendingBlock sb => exact Op.Keeps.modify fun s h ↦ hI.pending sb h
  | onTick t p a => exact Op.Keeps.bind (onTick_keeps hI.ticking t p a) fun _ ↦ Op.Keeps.pure _
  | onGossipAttestation signed ids => exact onGossipAttestation_keeps hI.toCalm signed ids
  | onGossipAggregatedAttestation a => exact onGossipAggregatedAttestation_keeps hI.toCalm a
  | produceBlockWithSignatures slot vid =>
    exact Op.Keeps.bind (produceBlockWithSignatures_keeps hI.ticking slot vid) fun _ ↦ Op.Keeps.pure _
  | pruneOldData => exact absurd rfl hc

theorem coherent_step (hh : HashSound host) {c : Call H} (h : Coherent host s)
    (hkeep : KeepsStates host (s, c)) (hs : step host s c = .ok s') : Coherent host s' := by
  obtain ⟨r, hr⟩ := perform_of_step hs
  by_cases hc : c = .pruneOldData
  · subst hc
    obtain ⟨-, rfl⟩ := Prod.mk.inj (Except.ok.inj hr)
    apply h.pruneOldData
    intro slot r p hp hexp
    obtain ⟨st, -, hst, -⟩ := h.live slot r p hp
    have hnone : (s.pruneOldData host).states.lookup r = none := by
      rw [lookup_pruneOldData_states, if_pos hexp]
    rw [hkeep rfl, hst] at hnone
    exact nomatch hnone
  · exact perform_keeps ((coherent_invariant hh).steady hh) hc s r s' h hr

/-- Every store that calls lead to from a genesis anchor is coherent. -/
theorem coherent_run (hh : HashSound host) {cs : List (Call H)} (h : Coherent host s)
    (hkeep : ∀ p ∈ Runs.trace (step host) s cs, KeepsStates host p)
    (hs : run host s cs = .ok s') : Coherent host s' :=
  Runs.run_invariant_of_trace (fun _ _ _ hc hk hs ↦ coherent_step hh hc hk hs) h hkeep hs

end Call

end Ethlambda.Chain
