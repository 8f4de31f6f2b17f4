import Ethlambda.StateTransition.Finality

namespace Ethlambda.StateTransition

open Ethlambda.Base Ethlambda.Types

set_option linter.unusedSectionVars false

variable {H : Type} [LinearOrder H] [Zero H] {th : TreeHash H} {st st' : State H}
  {slots : Table H ℕ} {n : ℕ} {t t' : Tally H} {a : AggregatedAttestation H} {block : Block H}

/-- Once there is a history, both checkpoints name a block. -/
def Named (st : State H) : Prop :=
  st.historicalBlockHashes.toList ≠ [] → st.latestJustified.root ≠ 0 ∧ st.latestFinalized.root ≠ 0

theorem Effect.named (e : Effect slots n t a t') (h : Named t.state) : Named t'.state := by
  cases e with
  | skipped hv => exact h
  | touched hv hlen => exact h
  | recorded hv hlen hsuper => exact h
  | justified window hv hlen hsuper hwlen hwj hbetween =>
    intro hne
    exact ⟨(isValidVote_iff.mp hv).2.2.2.1, (h hne).2⟩
  | finalized window hv hlen hsuper hle hwlen hwj hbetween =>
    intro hne
    exact ⟨(isValidVote_iff.mp hv).2.2.2.1, (isValidVote_iff.mp hv).2.2.1⟩

/-- A root that the extended history has at the slot of an old checkpoint is the checkpoint's own
root, or the root of the genesis block. -/
theorem HeaderStep.root_ne_zero (hth : th.CollisionFree) (ha : Aligned th n st)
    (hstep : HeaderStep th n st block st') {old new : H} {slot : ℕ}
    (hslot : slot ≤ st.latestBlockHeader.slot.toNat - 1)
    (hold : 0 < st.latestBlockHeader.slot.toNat →
      st.historicalBlockHashes.toList[slot]? = some old)
    (hnew : st'.historicalBlockHashes.toList[slot]? = some new)
    (hne : st.historicalBlockHashes.toList ≠ [] → old ≠ 0) : new ≠ 0 := by
  have hlen := ha.history_length
  rw [hstep.history_eq] at hnew
  rcases appended_getElem? hnew with hnew | ⟨-, rfl⟩ | ⟨hlt, -⟩
  · have hpos : 0 < st.historicalBlockHashes.toList.length :=
      Nat.zero_lt_of_lt (List.getElem?_eq_some_iff.mp hnew).1
    obtain rfl : old = new := by
      rw [hold (hlen ▸ hpos)] at hnew
      exact Option.some.inj hnew
    exact hne (List.length_pos_iff.mp hpos)
  · exact hth.header_ne_zero _
  · omega

theorem named_invariant (hth : th.CollisionFree) :
    RoundInvariant th n fun t _ ↦ Named t.state where
  same := by
    intro t t' l hs h hne
    rw [hs.justified, hs.finalized]
    exact h (hs.history ▸ hne)
  header := by
    intro st st' m l block ha ha' hstep hrows h _
    have hpos : 0 < st'.latestBlockHeader.slot.toNat := by
      rw [hstep.header_slot]
      exact Nat.zero_lt_of_lt hstep.parent_lt
    have hj := ha'.justified_root hpos
    have hf := ha'.finalized_root hpos
    rw [hstep.justified_slot] at hj
    rw [hstep.finalized_slot] at hf
    exact ⟨hstep.root_ne_zero hth ha ha.justified_le ha.justified_root hj fun hne ↦ (h hne).1,
      hstep.root_ne_zero hth ha ha.finalized_le ha.finalized_root hf fun hne ↦ (h hne).2⟩
  round := fun _ e h ↦ e.named h

theorem Wellformed.named (hth : th.CollisionFree) (h : Wellformed th n st) (hn : Named st)
    (hs : StateTransition.stateTransition th st block = .ok st') : Named st' :=
  (named_invariant hth).transition (l := []) hth h hs hn

theorem Wellformed.named_runChain (hth : th.CollisionFree) (h : Wellformed th n st) (hn : Named st)
    {blocks : List (Block H)} (hr : StateTransition.runChain th st blocks = .ok st') : Named st' :=
  (named_invariant hth).chain (l := []) hth h hr hn

def withStateRoot (st : State H) (root : H) : State H :=
  { st with latestBlockHeader := { st.latestBlockHeader with stateRoot := root } }

/-- No part of a state depends on the state root that its header carries. -/
theorem Wellformed.withStateRoot (h : Wellformed th n st) (root : H) :
    Wellformed th n (withStateRoot st root) where
  aligned :=
    { history_length := h.aligned.history_length
      validators_length := h.aligned.validators_length
      finalized_le := h.aligned.finalized_le
      justified_le := h.aligned.justified_le
      finalized_le_justified := h.aligned.finalized_le_justified
      justified_marked := h.aligned.justified_marked
      window_length := h.aligned.window_length
      history_linked := h.aligned.history_linked
      header_linked := h.aligned.header_linked
      finalized_root := h.aligned.finalized_root
      justified_root := h.aligned.justified_root }
  slot_eq := h.slot_eq
  roots_sorted := h.roots_sorted
  votes_length := h.votes_length
  rows := ⟨h.rows.length_eq, h.rows.target⟩

theorem Wellformed.transition_header (hth : th.CollisionFree) (h : Wellformed th n st)
    (hs : StateTransition.stateTransition th st block = .ok st') :
    block.parentRoot = th.header (cachedHeader th st) ∧
    st.latestBlockHeader.slot.toNat < block.slot.toNat ∧
    st'.latestBlockHeader = ⟨block.slot, block.proposerIndex, block.parentRoot, 0,
      th.body block.body⟩ ∧
    block.stateRoot = th.state st' ∧
    st'.historicalBlockHashes.toList = st.historicalBlockHashes.toList ++ block.parentRoot ::
      List.replicate (block.slot.toNat - st.latestBlockHeader.slot.toNat - 1) 0 := by
  obtain ⟨_, _, _, _, _, hroot⟩ := stateTransition_eq_ok hs
  obtain ⟨st₂, slots, t, b⟩ := h.blockRun hth hs
  obtain ⟨st₁, h₁, h₂, hstep⟩ := b.header
  obtain ⟨-, hheader, hhist, -⟩ := rounds_frame b.opened b.rounds
  obtain ⟨-, rfl⟩ := processSlots_eq_ok.mp h₁
  obtain ⟨-, -, -, -, -, hashes, window, -, -, hst₂⟩ := processBlockHeader_eq_ok h₂
  have hlt := hstep.parent_lt
  have hhistory := hstep.history_eq
  have hparent := hstep.parentRoot_eq
  simp only [cachedHeader_slot] at hlt hhistory
  refine ⟨hparent, hlt, ?_, hroot, ?_⟩
  · obtain ⟨roots, votes, rfl, -, -⟩ := b.post
    rw [show t.state.latestBlockHeader = st₂.latestBlockHeader from hheader, hst₂]
  · obtain ⟨roots, votes, rfl, -, -⟩ := b.post
    rw [show t.state.historicalBlockHashes = st₂.historicalBlockHashes from hhist, hhistory, hparent]

end Ethlambda.StateTransition
