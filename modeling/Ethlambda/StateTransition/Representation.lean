import Ethlambda.StateTransition.Extendable
import Ethlambda.StateTransition.Serialize
import Mathlib.Data.Nat.Pairing

namespace Ethlambda.StateTransition

open Ethlambda.Base Ethlambda.Types

set_option linter.unusedSectionVars false

variable {H : Type} [LinearOrder H] [Zero H] {th : TreeHash H} {st st' : State H}
  {slots : Table H ℕ} {n : ℕ} {t t' : Tally H} {block : Block H}

/-- What holds of a state between two blocks. -/
structure Wellformed (th : TreeHash H) (n : ℕ) (st : State H) : Prop where
  aligned : Aligned th n st
  slot_eq : st.slot = st.latestBlockHeader.slot
  roots_sorted : st.justificationsRoots.toList.Pairwise (· < ·)
  votes_length : st.justificationsValidators.toList.length =
    st.justificationsRoots.toList.length * n
  rows : Rows n st (loadJustifications st)

theorem Wellformed.exists_row (h : Wellformed th n st) {r : H}
    (hr : r ∈ st.justificationsRoots.toList) : ∃ row, (loadJustifications st).lookup r = some row := by
  obtain ⟨i, hi, rfl⟩ := List.getElem_of_mem hr
  exact ⟨_, (lookup_loadJustifications h.roots_sorted.nodup).mpr
    ⟨i, List.getElem?_eq_getElem hi, rfl⟩⟩

theorem Wellformed.roots_ne_zero (h : Wellformed th n st) :
    ∀ r ∈ st.justificationsRoots.toList, r ≠ 0 := by
  intro r hr
  obtain ⟨row, hrow⟩ := h.exists_row hr
  exact (h.rows.target r row hrow).1

theorem wellformed_genesis (th : TreeHash H) (time : UInt64)
    (vs : VariableList Validator validatorRegistryLimit) :
    Wellformed th vs.toList.length (genesisState th time vs) where
  aligned := aligned_genesis th time vs
  slot_eq := rfl
  roots_sorted := by simp [genesisState]
  votes_length := by simp [genesisState]
  rows := by
    have hnone (r : H) (row : List Bool) :
        (loadJustifications (genesisState th time vs)).lookup r ≠ some row := by
      intro h
      cases h
    exact ⟨fun r row hr ↦ absurd hr (hnone r row), fun r row hr ↦ absurd hr (hnone r row)⟩

theorem Wellformed.openTally (hth : th.CollisionFree) (h : Wellformed th n st) {st₁ st₂ : State H}
    (h₁ : processSlots th st block.slot = .ok st₁)
    (h₂ : processBlockHeader th st₁ block = .ok st₂) :
    HeaderStep th n st₁ block st₂ ∧ loadJustifications st₂ = loadJustifications st ∧
      st₂.validators.len = n ∧ ∃ slots, rootToSlot st₂ = .ok slots ∧
        TallyInv th slots n (openTally st₂) := by
  obtain ⟨halign, hstep⟩ := (h.aligned.processSlots h₁).processBlockHeader hth h₂
  obtain ⟨slots, hslots, hspec⟩ := halign.rootToSlot hth
  obtain ⟨-, rfl⟩ := processSlots_eq_ok.mp h₁
  have hload : loadJustifications st₂ = loadJustifications st := by
    unfold loadJustifications
    rw [hstep.validators_eq, hstep.roots_eq, hstep.votes_eq]
  refine ⟨hstep, hload, halign.validators_length, slots, hslots, halign, ?_, ?_, hspec⟩
  · have hlt := hstep.parent_lt
    rw [show (StateTransition.openTally st₂).state.latestBlockHeader.slot = block.slot from
      hstep.header_slot]
    omega
  · change Rows n st₂ (loadJustifications st₂)
    rw [hload]
    refine ⟨h.rows.length_eq, fun r row hrow ↦ ?_⟩
    obtain ⟨hr, s, hs, hf, hj⟩ := h.rows.target r row hrow
    refine ⟨hr, s, ?_, by rw [hstep.finalized_slot]; exact hf, by rw [hstep.justifiedAt_eq]; exact hj⟩
    rw [hstep.history_eq]
    exact getElem?_append_of_some hs

theorem TallyInv.run (h : TallyInv th slots n t) {as : List (AggregatedAttestation H)}
    (hr : Runs.run (processAttestation slots n) t as = .ok t') : TallyInv th slots n t' :=
  Runs.run_invariant (fun _ _ _ hi hs ↦ (hi.effect hs).preserves hi) h hr

theorem TallyInv.exists_run (h : TallyInv th slots n t) (as : List (AggregatedAttestation H)) :
    ∃ t', Runs.run (processAttestation slots n) t as = .ok t' := by
  induction as generalizing t with
  | nil => exact ⟨t, rfl⟩
  | cons a as ih =>
    obtain ⟨u, hu⟩ := h.exists_ok a
    obtain ⟨t', ht'⟩ := ih ((h.effect hu).preserves h)
    exact ⟨t', Runs.run_cons_eq_ok.mpr ⟨u, hu, ht'⟩⟩

theorem Effect.frame {a : AggregatedAttestation H} (e : Effect slots n t a t') :
    t'.state.slot = t.state.slot ∧ t'.state.latestBlockHeader = t.state.latestBlockHeader ∧
      t'.state.historicalBlockHashes = t.state.historicalBlockHashes ∧
      t'.state.validators = t.state.validators := by
  cases e <;> exact ⟨rfl, rfl, rfl, rfl⟩

structure BlockRun (th : TreeHash H) (n : ℕ) (st : State H) (block : Block H) (st' : State H)
    (st₂ : State H) (slots : Table H ℕ) (t : Tally H) : Prop where
  header : ∃ st₁, processSlots th st block.slot = .ok st₁ ∧
    processBlockHeader th st₁ block = .ok st₂ ∧ HeaderStep th n st₁ block st₂
  load_eq : loadJustifications st₂ = loadJustifications st
  slots_ok : rootToSlot st₂ = .ok slots
  opened : TallyInv th slots n (openTally st₂)
  rounds : Runs.run (processAttestation slots n) (openTally st₂) block.body.attestations.toList = .ok t
  closed : TallyInv th slots n t
  post : ∃ roots votes, st' = { t.state with
      justificationsRoots := roots, justificationsValidators := votes } ∧
    roots.toList = Table.sortedKeys t.justifications ∧
    votes.toList.length = roots.toList.length * n
  load_post : ∀ r, (loadJustifications st').lookup r = t.justifications.lookup r

theorem Wellformed.blockRun (hth : th.CollisionFree) (h : Wellformed th n st)
    (hs : stateTransition th st block = .ok st') :
    ∃ st₂ slots t, BlockRun th n st block st' st₂ slots t := by
  obtain ⟨st₁, st₂, h₁, h₂, h₃, -⟩ := stateTransition_eq_ok hs
  obtain ⟨hstep, hload, hlen, slots, hslots, hopen⟩ := h.openTally hth h₁ h₂
  obtain ⟨-, slots', t, hslots', hrun, hser⟩ := processAttestations_eq_ok h₃
  obtain rfl : slots = slots' := by
    rw [hslots] at hslots'
    exact Except.ok.inj hslots'
  rw [hlen] at hrun hser
  have hclosed := hopen.run hrun
  obtain ⟨roots, votes, hok, hroots, hvotes, hback⟩ :=
    hclosed.rows.serialize hclosed.aligned.validators_length
  obtain rfl : st' = _ := Except.ok.inj (hser.symm.trans hok)
  exact ⟨st₂, slots, t, ⟨⟨st₁, h₁, h₂, hstep⟩, hload, hslots, hopen, hrun, hclosed,
    ⟨roots, votes, rfl, hroots, hvotes⟩, hback⟩⟩

theorem rounds_frame {as : List (AggregatedAttestation H)} (h : TallyInv th slots n t)
    (hr : Runs.run (processAttestation slots n) t as = .ok t') :
    t'.state.slot = t.state.slot ∧ t'.state.latestBlockHeader = t.state.latestBlockHeader ∧
      t'.state.historicalBlockHashes = t.state.historicalBlockHashes ∧
      t'.state.validators = t.state.validators := by
  refine Runs.run_relates (R := fun t t' ↦ t'.state.slot = t.state.slot ∧
    t'.state.latestBlockHeader = t.state.latestBlockHeader ∧
    t'.state.historicalBlockHashes = t.state.historicalBlockHashes ∧
    t'.state.validators = t.state.validators) (fun _ ↦ ⟨rfl, rfl, rfl, rfl⟩) ?_ ?_ h hr
  · rintro s t u ⟨h₁, h₂, h₃, h₄⟩ ⟨h₁', h₂', h₃', h₄'⟩
    exact ⟨h₁'.trans h₁, h₂'.trans h₂, h₃'.trans h₃, h₄'.trans h₄⟩
  · intro s a s' hi hs
    exact ⟨(hi.effect hs).preserves hi, (hi.effect hs).frame⟩

theorem Wellformed.stateTransition (hth : th.CollisionFree) (h : Wellformed th n st)
    (hs : stateTransition th st block = .ok st') : Wellformed th n st' := by
  obtain ⟨st₂, slots, t, b⟩ := h.blockRun hth hs
  obtain ⟨st₁, h₁, h₂, hstep⟩ := b.header
  obtain ⟨hslot, hheader, -, -⟩ := rounds_frame b.opened b.rounds
  obtain ⟨roots, votes, rfl, hroots, hvotes⟩ := b.post
  have ha := b.closed.aligned
  refine ⟨⟨ha.history_length, ha.validators_length, ha.finalized_le, ha.justified_le,
    ha.finalized_le_justified, ha.justified_marked, ha.window_length, ha.history_linked,
    ha.header_linked, ha.finalized_root, ha.justified_root⟩, ?_, ?_, hvotes, ?_, ?_⟩
  · change t.state.slot = t.state.latestBlockHeader.slot
    rw [hslot, hheader]
    exact hstep.slot_eq.trans hstep.header_slot.symm
  · rw [show _ = Table.sortedKeys t.justifications from hroots]
    exact Table.sortedKeys_pairwise _
  · intro r row hrow
    rw [b.load_post] at hrow
    exact b.closed.rows.length_eq r row hrow
  · intro r row hrow
    rw [b.load_post] at hrow
    exact b.closed.rows.target r row hrow

theorem Wellformed.runChain (hth : th.CollisionFree) (h : Wellformed th n st)
    {blocks : List (Block H)} (hr : runChain th st blocks = .ok st') : Wellformed th n st' :=
  Runs.run_invariant (fun _ _ _ hi hs ↦ hi.stateTransition hth hs) h hr

/-- Every row belongs to a block that can still be voted for, so there are no more rows than blocks
in the history. -/
theorem Wellformed.extendable (h : Wellformed th n st) : Extendable th st := by
  have hlen : st.historicalBlockHashes.len = st.latestBlockHeader.slot.toNat :=
    h.aligned.history_length
  have hn : st.validators.len = n := h.aligned.validators_length
  constructor
  case history_le => exact fun _ ↦ hlen.le
  case window_fits => exact fun _ ↦ .inl (by omega)
  case rows_full =>
    intro _ _ r _ row hrow
    rw [hn]
    exact h.rows.length_eq r row hrow
  case rows_fit =>
    intro hfits _
    have hsub : (st.justificationsRoots.toList ++ openRoots th st).dedup ⊆
        st.historicalBlockHashes.toList ++ [th.header (cachedHeader th st)] := by
      intro r hr
      rw [List.mem_dedup, List.mem_append] at hr
      refine hr.elim (fun hr ↦ ?_) fun hr ↦ openRoots_subset hr
      obtain ⟨row, hrow⟩ := h.exists_row hr
      obtain ⟨-, s, hs, -, -⟩ := h.rows.target r row hrow
      exact List.mem_append_left _ (List.mem_of_getElem? hs)
    refine (List.subperm_of_subset (List.nodup_dedup _) hsub).length_le.trans ?_
    rw [List.length_append, List.length_singleton]
    have hroom := hfits.2
    rw [h.slot_eq, VariableList.len] at hroom
    omega

theorem Wellformed.stateTransition_noPanic (h : Wellformed th n st) (block : Block H) :
    Exec.NoPanic (StateTransition.stateTransition th st block) := by
  refine h.extendable.stateTransition_noPanic ?_ ?_ block
  · rw [h.slot_eq]
    exact UInt64.le_refl _
  · rw [UInt64.le_iff_toNat_le, h.slot_eq]
    have hfin := h.aligned.finalized_le
    omega

/-- The four representations of the chain kept inside a state, aligned with each other for `n`
validators. -/
structure Represented (n : ℕ) (st : State H) : Prop where
  slot_eq : st.slot = st.latestBlockHeader.slot
  history_length : st.historicalBlockHashes.len = st.latestBlockHeader.slot.toNat
  window_genesis : st.latestBlockHeader.slot.toNat = 0 → st.justifiedSlots.len = 0
  window_length : 1 ≤ st.latestBlockHeader.slot.toNat →
    st.justifiedSlots.len + 1 + st.latestFinalized.slot.toNat = st.latestBlockHeader.slot.toNat
  roots_sorted : st.justificationsRoots.toList.Pairwise (· < ·)
  roots_ne_zero : ∀ r ∈ st.justificationsRoots.toList, r ≠ 0
  roots_open : ∀ r ∈ st.justificationsRoots.toList, ∃ s, st.latestFinalized.slot.toNat < s ∧
    st.historicalBlockHashes.get s = some r ∧
    isSlotJustified st.justifiedSlots st.latestFinalized.slot.toNat s = false
  votes_length : st.justificationsValidators.len = st.justificationsRoots.len * n
  finalized_root : 1 ≤ st.latestBlockHeader.slot.toNat →
    st.historicalBlockHashes.get st.latestFinalized.slot.toNat = some st.latestFinalized.root
  justified_root : 1 ≤ st.latestBlockHeader.slot.toNat →
    st.historicalBlockHashes.get st.latestJustified.slot.toNat = some st.latestJustified.root

theorem Wellformed.represented (h : Wellformed th n st) : Represented n st where
  slot_eq := h.slot_eq
  history_length := h.aligned.history_length
  window_genesis := by
    intro hz
    have hw := h.aligned.window_length
    rw [VariableList.len]
    omega
  window_length := by
    intro hs
    have hw := h.aligned.window_length
    have hf := h.aligned.finalized_le
    rw [VariableList.len]
    omega
  roots_sorted := h.roots_sorted
  roots_ne_zero := h.roots_ne_zero
  roots_open := by
    intro r hr
    obtain ⟨row, hrow⟩ := h.exists_row hr
    obtain ⟨-, s, hs, hf, hj⟩ := h.rows.target r row hrow
    exact ⟨s, hf, hs, hj⟩
  votes_length := h.votes_length
  finalized_root := h.aligned.finalized_root
  justified_root := h.aligned.justified_root

/-- Every state reached from genesis is represented consistently, and no block whatsoever makes
the next transition stop the process. -/
theorem reachable_represented {validators : List Validator} {time : UInt64} {g : State H}
    {blocks : List (Block H)} (hth : th.CollisionFree) (_ : 1 ≤ validators.length)
    (hg : State.fromGenesis th time validators = (.ok g : Result H (State H)))
    (hr : runChain th g blocks = .ok st) :
    Represented validators.length st ∧
      ∀ block, Exec.NoPanic (StateTransition.stateTransition th st block) := by
  obtain ⟨vs, rfl, rfl⟩ := State.fromGenesis_eq_ok hg
  have hw := (wellformed_genesis th time vs).runChain hth hr
  exact ⟨hw.represented, hw.stateTransition_noPanic⟩

/-- A collision-free hash into the natural numbers that stays small enough to run chains. -/
def sampleHash : TreeHash ℕ where
  header h := 1 + Nat.pair h.parentRoot (Nat.pair h.stateRoot (Nat.pair h.bodyRoot
    (Nat.pair h.slot.toNat h.proposerIndex.toNat)))
  body b := b.attestations.len
  block b := 1 + Nat.pair b.parentRoot (Nat.pair b.stateRoot (Nat.pair b.body.attestations.len
    (Nat.pair b.slot.toNat b.proposerIndex.toNat)))
  state st := st.slot.toNat + 1
  attestationData d := Nat.pair d.target.root d.slot.toNat

theorem sampleHash_collisionFree : sampleHash.CollisionFree where
  header_injective := by
    intro h h' heq
    obtain ⟨hp, hs, hb, hslot, hprop⟩ := by
      simpa only [sampleHash, Nat.add_left_cancel_iff, Nat.pair_eq_pair, UInt64.toNat_inj] using heq
    cases h
    cases h'
    simp only at hp hs hb hslot hprop
    subst hp hs hb hslot hprop
    rfl
  header_ne_zero := by
    intro h
    simp only [sampleHash]
    omega

def sampleValidators : List Validator :=
  [⟨Vector.replicate 52 0, 0⟩, ⟨Vector.replicate 52 1, 1⟩, ⟨Vector.replicate 52 2, 2⟩]

theorem one_le_limit : 1 ≤ validatorRegistryLimit := by decide

theorem two_le_limit : 2 ≤ validatorRegistryLimit := by decide

theorem three_le_limit : 3 ≤ validatorRegistryLimit := by decide

def sampleGenesis : State ℕ := genesisState sampleHash 0 ⟨sampleValidators, three_le_limit⟩

theorem sampleGenesis_eq : State.fromGenesis sampleHash 0 sampleValidators =
    (.ok sampleGenesis : Result ℕ (State ℕ)) := rfl

def sampleOrigin : Block ℕ := ⟨0, 0, 0, 1, .default⟩

def sampleBlock (parent : Block ℕ) (slot : UInt64) (votes : AggregatedAttestations ℕ) : Block ℕ :=
  ⟨slot, slot % 3, sampleHash.block parent, slot.toNat + 1, ⟨votes⟩⟩

def sampleCheckpoint (block : Block ℕ) : Checkpoint ℕ := ⟨sampleHash.block block, block.slot⟩

def sampleVote (voters : AggregationBits) (source target : Block ℕ) : AggregatedAttestation ℕ :=
  ⟨voters, target.slot, sampleCheckpoint target, sampleCheckpoint target, sampleCheckpoint source⟩

namespace Sample

def first : Block ℕ := sampleBlock sampleOrigin 1 .empty

def second : Block ℕ := sampleBlock first 2
  ⟨[sampleVote ⟨[true, true], two_le_limit⟩ sampleOrigin first], one_le_limit⟩

def third : Block ℕ := sampleBlock second 3
  ⟨[sampleVote ⟨[true, false, true], three_le_limit⟩ first second], one_le_limit⟩

def fourth : Block ℕ := sampleBlock third 4
  ⟨[sampleVote ⟨[false, true], two_le_limit⟩ second third], one_le_limit⟩

/-- The second block justifies the first, the third finalizes it, the fourth leaves an open row. -/
def chain : List (Block ℕ) := [first, second, third, fourth]

end Sample

theorem reachable_represented_sample :
    ∃ st, runChain sampleHash sampleGenesis Sample.chain = .ok st ∧
      st.latestFinalized = sampleCheckpoint Sample.first ∧
      st.justificationsRoots.toList = [sampleHash.block Sample.third] ∧
      Represented 3 st ∧ ∀ block, Exec.NoPanic (StateTransition.stateTransition sampleHash st block) := by
  have hrun : (runChain sampleHash sampleGenesis Sample.chain).toOption.map
      (fun st ↦ (st.latestFinalized, st.justificationsRoots.toList)) =
      some (sampleCheckpoint Sample.first, [sampleHash.block Sample.third]) := by decide +kernel
  obtain ⟨st, hst, hview⟩ := Exec.exists_ok_of_map hrun
  obtain ⟨hfin, hroots⟩ := Prod.mk.inj hview
  exact ⟨st, hst, hfin, hroots,
    reachable_represented sampleHash_collisionFree (by decide) sampleGenesis_eq hst⟩

end Ethlambda.StateTransition
