import Ethlambda.StateTransition.Accountable
import Ethlambda.StateTransition.Checkpoints

namespace Ethlambda.StateTransition

open Ethlambda.Base Ethlambda.Types

set_option linter.unusedSectionVars false

variable {H : Type} [LinearOrder H] [Zero H] {th : TreeHash H} {st st' u : State H}
  {slots : Table H ℕ} {n : ℕ} {t t' : Tally H} {a : AggregatedAttestation H} {block : Block H}
  {l : List (Round H)} {c : Checkpoint H} {blocks : List (Block H)} {v : ℕ}

section Root

/-- A state as the transition leaves it: its header does not name it yet. -/
def Unsettled (st : State H) : Prop := st.latestBlockHeader.stateRoot = 0

theorem Unsettled.cachedHeader_eq (h : Unsettled st) :
    cachedHeader th st = { st.latestBlockHeader with stateRoot := th.state st } := if_pos h

/-- The state with its own root filled in, as a store keeps it. -/
def settled (th : TreeHash H) (st : State H) : State H := withStateRoot st (th.state st)

theorem Unsettled.withStateRoot_zero (h : Unsettled st) : withStateRoot st 0 = st := by
  unfold withStateRoot
  rw [← show st.latestBlockHeader.stateRoot = 0 from h]

theorem Unsettled.cachedHeader_settled (h : Unsettled st) :
    cachedHeader th (settled th st) = cachedHeader th st := by
  rw [h.cachedHeader_eq]
  by_cases hz : th.state st = 0
  · have hsame : settled th st = st := by
      unfold settled
      rw [hz, h.withStateRoot_zero]
    rw [hsame, h.cachedHeader_eq]
  · exact if_neg hz

/-- Filling in the root of a state makes no difference to the blocks on top of it. -/
theorem Unsettled.stateTransition_settled (h : Unsettled st) (block : Block H) :
    stateTransition th (settled th st) block = stateTransition th st block := by
  have hslots : processSlots th (settled th st) block.slot = processSlots th st block.slot := by
    unfold processSlots
    rw [h.cachedHeader_settled]
    rfl
  unfold stateTransition
  rw [hslots]

theorem Wellformed.transition_unsettled (hth : th.CollisionFree) (h : Wellformed th n st)
    (hs : StateTransition.stateTransition th st block = .ok st') :
    Unsettled st' ∧ cachedHeader th st' = block.header th := by
  obtain ⟨-, -, hheader, hroot, -⟩ := h.transition_header hth hs
  have hun : Unsettled st' := by
    unfold Unsettled
    rw [hheader]
  refine ⟨hun, ?_⟩
  rw [hun.cachedHeader_eq, hheader, ← hroot]
  rfl

theorem Wellformed.runChain_unsettled (hth : th.CollisionFree) (h : Wellformed th n st)
    (hun : Unsettled st) (hr : StateTransition.runChain th st blocks = .ok st') : Unsettled st' := by
  have hboth := Runs.run_invariant (P := fun st ↦ Wellformed th n st ∧ Unsettled st)
    (fun st block st' hi hs ↦
      ⟨hi.1.stateTransition hth hs, (hi.1.transition_unsettled hth hs).1⟩) ⟨h, hun⟩ hr
  exact hboth.2

theorem block_eq_of_header {b b' : Block H} (hbody : Function.Injective th.body)
    (h : b.header th = b'.header th) : b = b' := by
  obtain ⟨hslot, hproposer, hparent, hroot, hb⟩ := BlockHeader.mk.inj h
  have hbodies := hbody hb
  cases b
  cases b'
  simp only at hslot hproposer hparent hroot hbodies
  subst hslot hproposer hparent hroot hbodies
  rfl

theorem runChain_concat {b : Block H} (h : runChain th st (blocks ++ [b]) = .ok st') :
    ∃ u, runChain th st blocks = .ok u ∧ stateTransition th u b = .ok st' := by
  obtain ⟨u, hu, hlast⟩ := Runs.run_append_eq_ok.mp h
  exact ⟨u, hu, Runs.run_singleton.symm.trans hlast⟩

/-- A root has one chain below it: two chains from one genesis that end in blocks with the same root
consist of the same blocks. -/
theorem Wellformed.chain_unique (hth : th.CollisionFree) (hbody : Function.Injective th.body)
    (h : Wellformed th n st) (hzero : st.latestBlockHeader.slot.toNat = 0) {st₁ st₂ : State H}
    {blocks₁ blocks₂ : List (Block H)} (h₁ : StateTransition.runChain th st blocks₁ = .ok st₁)
    (h₂ : StateTransition.runChain th st blocks₂ = .ok st₂)
    (hroot : th.header (cachedHeader th st₁) = th.header (cachedHeader th st₂)) :
    blocks₁ = blocks₂ := by
  have hstart {blocks : List (Block H)} {b : Block H} {st' : State H}
      (hr : StateTransition.runChain th st (blocks ++ [b]) = .ok st')
      (heq : cachedHeader th st = cachedHeader th st') : False := by
    have hpos := h.started hth (List.append_ne_nil_of_right_ne_nil _ (List.cons_ne_nil b [])) hr
    rw [← cachedHeader_slot th st', ← heq, cachedHeader_slot, hzero] at hpos
    exact Nat.lt_irrefl 0 hpos
  induction blocks₁ using List.reverseRecOn generalizing blocks₂ st₁ st₂ with
  | nil =>
    obtain rfl : st = st₁ := Except.ok.inj h₁
    rcases List.eq_nil_or_concat' blocks₂ with rfl | ⟨init, last, rfl⟩
    · rfl
    · exact (hstart h₂ (hth.header_injective hroot)).elim
  | append_singleton init₁ last₁ ih =>
    rcases List.eq_nil_or_concat' blocks₂ with rfl | ⟨init₂, last₂, rfl⟩
    · obtain rfl : st = st₂ := Except.ok.inj h₂
      exact (hstart h₁ (hth.header_injective hroot).symm).elim
    · obtain ⟨u₁, hu₁, hlast₁⟩ := runChain_concat h₁
      obtain ⟨u₂, hu₂, hlast₂⟩ := runChain_concat h₂
      have hw₁ := h.runChain hth hu₁
      have hw₂ := h.runChain hth hu₂
      have hheader := hth.header_injective hroot
      rw [(hw₁.transition_unsettled hth hlast₁).2, (hw₂.transition_unsettled hth hlast₂).2] at hheader
      obtain rfl := block_eq_of_header hbody hheader
      have hparent : th.header (cachedHeader th u₁) = th.header (cachedHeader th u₂) :=
        (hw₁.transition_header hth hlast₁).1.symm.trans (hw₂.transition_header hth hlast₂).1
      rw [ih hu₁ hu₂ hparent]

end Root

section Justified

/-- The checkpoint has two thirds of the votes behind it, or is genesis. -/
def Voted (n : ℕ) (l : List (Round H)) (c : Checkpoint H) : Prop :=
  c.slot.toNat = 0 ∨ 2 * n ≤ 3 * (voters n l c).card

theorem Voted.mono {l' : List (Round H)} (hsub : l ⊆ l') (h : Voted n l c) : Voted n l' c :=
  h.imp id (card_voters_mono hsub)

/-- The header step keeps a checkpoint, unless it gives the genesis checkpoint its root. -/
theorem HeaderStep.checkpoint_eq (hstep : HeaderStep th n st block st') {c c' : Checkpoint H}
    (hslot : c'.slot = c.slot) (hle : c.slot.toNat ≤ st.latestBlockHeader.slot.toNat - 1)
    (hold : 0 < st.latestBlockHeader.slot.toNat →
      st.historicalBlockHashes.toList[c.slot.toNat]? = some c.root)
    (hnew : st'.historicalBlockHashes.toList[c'.slot.toNat]? = some c'.root) :
    c'.slot.toNat = 0 ∨ c' = c := by
  rcases Nat.eq_zero_or_pos st.latestBlockHeader.slot.toNat with hz | hpos
  · left
    rw [hslot]
    omega
  · right
    have hroot := hold hpos
    rw [hslot, hstep.history_eq, getElem?_append_of_some hroot] at hnew
    exact Checkpoint.ext (Option.some.inj hnew).symm hslot

theorem Voted.of_eq {c' : Checkpoint H} (h : Voted n l c) (heq : c'.slot.toNat = 0 ∨ c' = c) :
    Voted n l c' := by
  rcases heq with hz | rfl
  · exact .inl hz
  · exact h

/-- Both checkpoints of the state have their votes behind them. -/
structure CheckpointsVoted (n : ℕ) (t : Tally H) (l : List (Round H)) : Prop where
  justified : Voted n l t.state.latestJustified
  finalized : Voted n l t.state.latestFinalized

theorem checkpointsVoted_invariant (hth : th.CollisionFree) (hn : 1 ≤ n) :
    RoundInvariant th n (fun t l ↦ Ledger n t l ∧ CheckpointsVoted n t l) where
  same := by
    intro t t' l hs h
    exact ⟨h.1.same hs, by rw [hs.justified]; exact h.2.justified,
      by rw [hs.finalized]; exact h.2.finalized⟩
  header := by
    intro st st' m l block ha ha' hstep hrows h
    have hpos : 0 < st'.latestBlockHeader.slot.toNat := by
      rw [hstep.header_slot]
      exact Nat.zero_lt_of_lt hstep.parent_lt
    exact ⟨h.1.header hth hn ha ha' hstep hrows,
      h.2.justified.of_eq (hstep.checkpoint_eq hstep.justified_slot ha.justified_le
        ha.justified_root (ha'.justified_root hpos)),
      h.2.finalized.of_eq (hstep.checkpoint_eq hstep.finalized_slot ha.finalized_le
        ha.finalized_root (ha'.finalized_root hpos))⟩
  round := by
    intro slots t t' a l ht e h
    refine ⟨h.1.round ht e, ?_⟩
    have hsub : l ⊆ l ++ [(t, a)] := List.subset_append_left _ _
    have hj := h.2.justified.mono hsub
    have hf := h.2.finalized.mono hsub
    cases e with
    | skipped hv => exact ⟨hj, hf⟩
    | touched hv hlen => exact ⟨hj, hf⟩
    | recorded hv hlen hsuper => exact ⟨hj, hf⟩
    | justified window hv hlen hsuper hwlen hwj hbetween =>
      exact ⟨.inr ((h.1.supermajority_iff ht hv hlen).mp hsuper), hf⟩
    | finalized window hv hlen hsuper hle hwlen hwj hbetween =>
      refine ⟨.inr ((h.1.supermajority_iff ht hv hlen).mp hsuper), ?_⟩
      obtain ⟨hjust, -, -, -, hsource, -⟩ := isValidVote_iff.mp hv
      rcases hle.eq_or_lt with heq | hlt
      · exact hf.of_eq (.inr (checkpoint_eq hsource (ht.aligned.finalized_root ht.started) heq.symm))
      · exact Voted.mono hsub (.inr ((h.1.marked a.data.source hsource hlt).mp hjust))

/-- A checkpoint that the state calls justified or final. -/
def Settles (st : State H) (c : Checkpoint H) : Prop :=
  c = st.latestJustified ∨ c = st.latestFinalized

theorem exists_voters {time : UInt64} {vs : VariableList Validator validatorRegistryLimit}
    (hth : th.CollisionFree) (hr : runChain th (genesisState th time vs) blocks = .ok st)
    (hc : Settles st c) (hpos : c.slot.toNat ≠ 0) :
    2 * vs.toList.length ≤ 3 * (voters vs.toList.length
      (chainRounds th (genesisState th time vs) blocks) c).card := by
  have hgen := wellformed_genesis th time vs
  have hne : blocks ≠ [] := by
    rintro rfl
    obtain rfl : genesisState th time vs = st := Except.ok.inj hr
    rcases hc with rfl | rfl
    · exact hpos rfl
    · exact hpos rfl
  have hn := hgen.validators_pos hne hr
  have h := (checkpointsVoted_invariant hth hn).chain hth hgen hr
    ⟨ledger_genesis th time vs, .inl rfl, .inl rfl⟩
  rcases hc with rfl | rfl
  · exact h.2.justified.resolve_left hpos
  · exact h.2.finalized.resolve_left hpos

/-- Two attestations with the validator's flag go to different roots of one slot. -/
def doubleVoted (as : List (AggregatedAttestation H)) (v : ℕ) : Prop :=
  ∃ a ∈ as, ∃ b ∈ as, a.aggregationBits.get v = some true ∧ b.aggregationBits.get v = some true ∧
    doubleVote a b

instance {as : List (AggregatedAttestation H)} : Decidable (doubleVoted as v) :=
  inferInstanceAs (Decidable (∃ a ∈ as, ∃ b ∈ as, _))

/-- Chains that justify or finalize different blocks of one slot carry two votes for that slot by a
third of the validators. -/
theorem doubleVoted_of_conflict {time : UInt64}
    {vs : VariableList Validator validatorRegistryLimit} {st₁ st₂ : State H}
    {blocks₁ blocks₂ : List (Block H)} {c₁ c₂ : Checkpoint H} (hth : th.CollisionFree)
    (h₁ : runChain th (genesisState th time vs) blocks₁ = .ok st₁)
    (h₂ : runChain th (genesisState th time vs) blocks₂ = .ok st₂)
    (hc₁ : Settles st₁ c₁) (hc₂ : Settles st₂ c₂) (hslot : c₁.slot = c₂.slot)
    (hroot : c₁.root ≠ c₂.root) (hpos : c₁.slot.toNat ≠ 0) :
    vs.toList.length ⌈/⌉ 3 ≤ ((Finset.range vs.toList.length).filter fun v ↦
      doubleVoted (included blocks₁ ++ included blocks₂) v).card := by
  refine card_filter_ge voters_subset_range voters_subset_range (exists_voters hth h₁ hc₁ hpos)
    (exists_voters hth h₂ hc₂ (hslot ▸ hpos)) fun v hv₁ hv₂ ↦ ?_
  obtain ⟨-, p, hp, -, rfl, hbit⟩ := mem_voters.mp hv₁
  obtain ⟨-, q, hq, -, rfl, hbit'⟩ := mem_voters.mp hv₂
  exact ⟨p.2, List.mem_append_left _ (mem_included_of_mem_chainRounds hp), q.2,
    List.mem_append_right _ (mem_included_of_mem_chainRounds hq), hbit, hbit', hslot, hroot⟩

end Justified

end Ethlambda.StateTransition
