import Ethlambda.StateTransition.Transition

namespace Ethlambda.StateTransition

open Ethlambda.Base Ethlambda.Types

set_option linter.unusedSectionVars false

variable {H : Type} [LinearOrder H] [Zero H] {th : TreeHash H} {st st' : State H}
  {slots : Table H ℕ} {n : ℕ} {t t' : Tally H} {a : AggregatedAttestation H}

@[simp] theorem cachedHeader_slot (th : TreeHash H) (st : State H) :
    (cachedHeader th st).slot = st.latestBlockHeader.slot := by
  unfold cachedHeader
  split <;> rfl

@[simp] theorem cachedHeader_parentRoot (th : TreeHash H) (st : State H) :
    (cachedHeader th st).parentRoot = st.latestBlockHeader.parentRoot := by
  unfold cachedHeader
  split <;> rfl

theorem processSlots_eq_ok {slot : UInt64} :
    processSlots th st slot = .ok st' ↔
      st.slot < slot ∧ st' = { st with latestBlockHeader := cachedHeader th st, slot := slot } := by
  unfold processSlots
  split
  · rename_i h
    simp [UInt64.not_lt.mpr h]
  · rename_i h
    simp [UInt64.not_le.mp h, eq_comm]

theorem processBlockHeader_eq_ok {block : Block H} (h : processBlockHeader th st block = .ok st') :
    block.slot = st.slot ∧ st.latestBlockHeader.slot < block.slot ∧
    0 < st.validators.len ∧
    block.proposerIndex.toNat = block.slot.toNat % st.validators.len ∧
    block.parentRoot = th.header st.latestBlockHeader ∧
    ∃ hashes window,
      hashes.toList = st.historicalBlockHashes.toList ++ th.header st.latestBlockHeader ::
        List.replicate (block.slot.toNat - st.latestBlockHeader.slot.toNat - 1) 0 ∧
      (extendToSlot st.justifiedSlots st.latestFinalized.slot.toNat (block.slot.toNat - 1) :
        Result H JustifiedSlots) = .ok window ∧
      st' = { st with
        latestJustified := if st.latestBlockHeader.slot = 0 then
          ⟨th.header st.latestBlockHeader, st.latestJustified.slot⟩ else st.latestJustified
        latestFinalized := if st.latestBlockHeader.slot = 0 then
          ⟨th.header st.latestBlockHeader, st.latestFinalized.slot⟩ else st.latestFinalized
        historicalBlockHashes := hashes
        justifiedSlots := window
        latestBlockHeader :=
          ⟨block.slot, block.proposerIndex, block.parentRoot, 0, th.body block.body⟩ } := by
  unfold processBlockHeader at h
  dsimp only at h
  split at h
  · exact nomatch h
  split at h
  · exact nomatch h
  split at h
  · exact nomatch h
  split at h
  · exact nomatch h
  split at h
  · exact nomatch h
  rename_i hslot hparent _ expected hexp hprop hroot
  rw [Exec.bind_eq_ok] at h
  obtain ⟨gap, hgap, h⟩ := h
  rw [Exec.bind_eq_ok] at h
  obtain ⟨empty, hempty, h⟩ := h
  rw [Exec.bind_eq_ok] at h
  obtain ⟨pushed, hpushed, h⟩ := h
  rw [Exec.bind_eq_ok] at h
  obtain ⟨total, htotal, h⟩ := h
  split at h
  · exact nomatch h
  rw [Exec.bind_eq_ok] at h
  obtain ⟨hashes, hhashes, h⟩ := h
  rw [Exec.bind_eq_ok] at h
  obtain ⟨last, hlast, h⟩ := h
  rw [Exec.bind_eq_ok] at h
  obtain ⟨window, hwindow, h⟩ := h
  obtain ⟨-, rfl⟩ := Exec.sub64_eq_ok.mp hgap
  obtain ⟨-, rfl⟩ := Exec.sub64_eq_ok.mp hempty
  obtain ⟨-, rfl⟩ := Exec.sub64_eq_ok.mp hlast
  rw [Exec.expect_eq_ok, VariableList.new_eq_some] at hhashes
  have hpos : 0 < st.validators.len ∧ expected = block.slot.toNat % st.validators.len := by
    unfold currentProposer at hexp
    split at hexp
    · rename_i hpos
      exact ⟨hpos, (Option.some.inj hexp).symm⟩
    · exact nomatch hexp
  refine ⟨not_not.mp hslot, UInt64.not_le.mp hparent, hpos.1, ?_, not_not.mp hroot, hashes, window,
    hhashes, ?_, ?_⟩
  · rw [← hpos.2]
    exact not_not.mp hprop
  · rw [← hwindow]
    congr 1
    split <;> rfl
  · exact (Except.ok.inj h).symm

theorem justifiableBetween_eq_ok {base : ℕ} {source target : Checkpoint H} {b : Bool} :
    justifiableBetween base source target = .ok b ↔ source.slot.toNat + 1 < 2 ^ 64 ∧
      b = (List.range' (source.slot.toNat + 1) (target.slot.toNat - (source.slot.toNat + 1))).any
        fun slot ↦ slotIsJustifiableAfter slot base := by
  unfold justifiableBetween
  rw [Exec.bind_eq_ok]
  simp only [Exec.add64_eq_ok]
  constructor
  · rintro ⟨_, ⟨hlt, rfl⟩, h⟩
    exact ⟨hlt, by simpa [eq_comm] using h⟩
  · rintro ⟨hlt, rfl⟩
    exact ⟨_, ⟨hlt, rfl⟩, rfl⟩

theorem not_justifiable_of_justifiableBetween {base : ℕ} {source target : Checkpoint H}
    (h : justifiableBetween base source target = .ok false) {slot : ℕ}
    (hs : source.slot.toNat < slot) (ht : slot < target.slot.toNat) :
    slotIsJustifiableAfter slot base = false := by
  have hany := (justifiableBetween_eq_ok.mp h).2.symm
  rw [List.any_eq_false] at hany
  have hmem := hany slot (List.mem_range'_1.mpr ⟨by omega, by omega⟩)
  simpa using hmem

def liveRow (slots : Table H ℕ) (source : Checkpoint H) (root : H) : Bool :=
  match slots.lookup root with
  | some slot => decide (source.slot.toNat < slot)
  | none => false

theorem advanceFinalized_eq_ok {source : Checkpoint H}
    (h : advanceFinalized slots t source = .ok t') :
    t.state.latestFinalized.slot.toNat ≤ source.slot.toNat ∧
    ∃ window, window.toList = t.state.justifiedSlots.toList.drop
        (source.slot.toNat - t.state.latestFinalized.slot.toNat) ∧
      t' = ⟨{ t.state with latestFinalized := source, justifiedSlots := window },
        Table.retain (fun root _ ↦ liveRow slots source root) t.justifications⟩ := by
  unfold advanceFinalized at h
  rw [Exec.bind_eq_ok] at h
  obtain ⟨delta, hdelta, h⟩ := h
  rw [Exec.bind_eq_ok] at h
  obtain ⟨window, hwindow, h⟩ := h
  obtain ⟨hle, rfl⟩ := Exec.sub64_eq_ok.mp hdelta
  obtain ⟨w, hw, hdrop⟩ := shiftWindow_eq_ok (ε := Error H) t.state.justifiedSlots
    (source.slot.toNat - t.state.latestFinalized.slot.toNat)
  obtain rfl : window = w := by
    rw [hwindow] at hw
    exact Except.ok.inj hw
  refine ⟨hle, window, hdrop, ?_⟩
  exact (Except.ok.inj h).symm

/-- Everything one round of the attestation loop can do. -/
theorem processAttestationWith_cases
    {finish : Tally H → Checkpoint H → Checkpoint H → Result H (Tally H)}
    (h : processAttestationWith finish n t a = .ok t') :
    (isValidVote t.state a.data.source a.data.target = false ∧ t' = t) ∨
    (isValidVote t.state a.data.source a.data.target = true ∧
      ((n < a.aggregationBits.len ∧
        t' = ⟨t.state, t.justifications.insert a.data.target.root
          (entry n t.justifications a.data.target.root)⟩) ∨
      (a.aggregationBits.len ≤ n ∧ ∃ votes,
        raise a.aggregationBits.toList (entry n t.justifications a.data.target.root) = some votes ∧
        ((supermajority (votes.count true) n = false ∧
          t' = ⟨t.state, t.justifications.insert a.data.target.root votes⟩) ∨
        (supermajority (votes.count true) n = true ∧ ∃ window,
          (setJustified t.state.justifiedSlots t.state.latestFinalized.slot.toNat
            a.data.target.slot.toNat : Result H JustifiedSlots) = .ok window ∧
          finish ⟨{ t.state with latestJustified := a.data.target, justifiedSlots := window },
            (t.justifications.insert a.data.target.root votes).erase a.data.target.root⟩
            a.data.source a.data.target = .ok t'))))) := by
  unfold processAttestationWith at h
  dsimp only at h
  split at h
  · rename_i hv
    exact .inl ⟨by simpa using hv, (Except.ok.inj h).symm⟩
  rename_i hv
  refine .inr ⟨by simpa using hv, ?_⟩
  split at h
  · rename_i hlen
    exact .inl ⟨hlen, (Except.ok.inj h).symm⟩
  rename_i hlen
  rw [Exec.bind_eq_ok] at h
  obtain ⟨votes, hvotes, h⟩ := h
  refine .inr ⟨by omega, votes, Exec.index_eq_ok.mp hvotes, ?_⟩
  split at h
  · rename_i hsuper
    rw [Exec.bind_eq_ok] at h
    obtain ⟨justified, hj, h⟩ := h
    unfold justify at hj
    rw [Exec.bind_eq_ok] at hj
    obtain ⟨window, hwindow, hj⟩ := hj
    rw [← Except.ok.inj hj] at h
    exact .inr ⟨hsuper, window, hwindow, h⟩
  · rename_i hsuper
    exact .inl ⟨by simpa using hsuper, (Except.ok.inj h).symm⟩

theorem tryFinalize_cases {source target : Checkpoint H}
    (h : tryFinalize slots t source target = .ok t') :
    (justifiableBetween t.state.latestFinalized.slot.toNat source target = .ok true ∧ t' = t) ∨
    (justifiableBetween t.state.latestFinalized.slot.toNat source target = .ok false ∧
      advanceFinalized slots t source = .ok t') := by
  unfold tryFinalize at h
  rw [Exec.bind_eq_ok] at h
  obtain ⟨b, hb, h⟩ := h
  split at h
  · rename_i htrue
    exact .inl ⟨by rw [hb, htrue], (Except.ok.inj h).symm⟩
  · rename_i hfalse
    exact .inr ⟨by rw [hb, Bool.eq_false_iff.mpr hfalse], h⟩

theorem processAttestations_eq_ok {as : List (AggregatedAttestation H)}
    (h : processAttestations st as = .ok st') :
    (∀ root ∈ st.justificationsRoots.toList, root ≠ 0) ∧ ∃ slots t, rootToSlot st = .ok slots ∧
      Runs.run (processAttestation slots st.validators.len) (openTally st) as = .ok t ∧
      serializeJustifications t st.validators.len = .ok st' := by
  unfold processAttestations at h
  split at h
  · exact nomatch h
  rename_i hzero
  rw [Exec.bind_eq_ok] at h
  obtain ⟨slots, hslots, h⟩ := h
  rw [Exec.bind_eq_ok] at h
  obtain ⟨t, ht, h⟩ := h
  exact ⟨fun root hmem hz ↦ hzero (by simpa [hz] using hmem), slots, t, hslots, ht, h⟩

/-- Writing the votes back changes the two fields that hold them. -/
theorem serializeJustifications_eq_ok (h : serializeJustifications t n = .ok st') :
    ∃ roots votes, st' = { t.state with
      justificationsRoots := roots, justificationsValidators := votes } := by
  unfold serializeJustifications at h
  obtain ⟨_, -, h⟩ := Exec.bind_eq_ok.mp h
  obtain ⟨_, -, h⟩ := Exec.bind_eq_ok.mp h
  obtain ⟨_, -, h⟩ := Exec.bind_eq_ok.mp h
  obtain ⟨votes, -, h⟩ := Exec.bind_eq_ok.mp h
  obtain ⟨roots, -, h⟩ := Exec.bind_eq_ok.mp h
  exact ⟨roots, votes, (Except.ok.inj h).symm⟩

theorem stateTransition_eq_ok {block : Block H} (h : stateTransition th st block = .ok st') :
    ∃ st₁ st₂, processSlots th st block.slot = .ok st₁ ∧
      processBlockHeader th st₁ block = .ok st₂ ∧
      processAttestations st₂ block.body.attestations.toList = .ok st' ∧
      block.stateRoot = th.state st' := by
  unfold stateTransition at h
  rw [Exec.bind_eq_ok] at h
  obtain ⟨st₁, h₁, h⟩ := h
  rw [Exec.bind_eq_ok] at h
  obtain ⟨st₃, h₃, h⟩ := h
  unfold processBlock at h₃
  rw [Exec.bind_eq_ok] at h₃
  obtain ⟨st₂, h₂, h₃⟩ := h₃
  dsimp only at h
  split at h
  · exact nomatch h
  rename_i hroot
  obtain rfl := Except.ok.inj h
  exact ⟨st₁, st₂, h₁, h₂, h₃, not_not.mp hroot⟩

section Header

variable {block : Block H}

/-- The checks a header passes before the state changes. -/
structure HeaderAccepted (th : TreeHash H) (st : State H) (block : Block H) : Prop where
  slot_eq : block.slot = st.slot
  parent_lt : st.latestBlockHeader.slot < block.slot
  attended : 0 < st.validators.len
  proposer_eq : block.proposerIndex.toNat = block.slot.toNat % st.validators.len
  parentRoot_eq : block.parentRoot = th.header st.latestBlockHeader

/-- The slots between the latest block and the next fit into the history, and those between the
finalized block and the next into the window. -/
theorem processBlockHeader_noPanic_iff :
    Exec.NoPanic (processBlockHeader th st block) ↔ (HeaderAccepted th st block →
      st.historicalBlockHashes.len + (block.slot.toNat - st.latestBlockHeader.slot.toNat) < 2 ^ 64 ∧
      (st.historicalBlockHashes.len + (block.slot.toNat - st.latestBlockHeader.slot.toNat) ≤
          historicalRootsLimit →
        block.slot.toNat - 1 - st.latestFinalized.slot.toNat ≤ historicalRootsLimit)) := by
  unfold processBlockHeader
  dsimp only
  split
  · rename_i hslot
    exact ⟨fun _ h ↦ absurd h.slot_eq hslot, fun _ ↦ .fail _⟩
  split
  · rename_i _ hparent
    exact ⟨fun _ h ↦ absurd h.parent_lt (UInt64.not_lt.mpr hparent), fun _ ↦ .fail _⟩
  rename_i hslot hparent
  split
  · rename_i hnone
    refine ⟨fun _ h ↦ ?_, fun _ ↦ .fail _⟩
    rw [currentProposer, if_pos h.attended] at hnone
    exact nomatch hnone
  rename_i expected hsome
  have hexpected : 0 < st.validators.len ∧ block.slot.toNat % st.validators.len = expected := by
    unfold currentProposer at hsome
    split at hsome
    · rename_i hpos
      exact ⟨hpos, Option.some.inj hsome⟩
    · exact nomatch hsome
  split
  · rename_i hproposer
    exact ⟨fun _ h ↦ absurd (h.proposer_eq.trans hexpected.2) hproposer, fun _ ↦ .fail _⟩
  split
  · rename_i hroot
    exact ⟨fun _ h ↦ absurd h.parentRoot_eq hroot, fun _ ↦ .fail _⟩
  rename_i hproposer hroot
  have haccepted : HeaderAccepted th st block :=
    ⟨not_not.mp hslot, UInt64.not_le.mp hparent, hexpected.1,
      (not_not.mp hproposer).trans hexpected.2.symm, not_not.mp hroot⟩
  simp only [haccepted, forall_const]
  have hlt : st.latestBlockHeader.slot.toNat < block.slot.toNat :=
    UInt64.lt_iff_toNat_lt.mp haccepted.parent_lt
  have hhist : st.historicalBlockHashes.len ≤ 262144 := st.historicalBlockHashes.length_le
  have hfs : (if st.latestBlockHeader.slot = 0 then
      (⟨th.header st.latestBlockHeader, st.latestFinalized.slot⟩ : Checkpoint H)
      else st.latestFinalized).slot = st.latestFinalized.slot := by
    split <;> rfl
  have h₁ : st.latestBlockHeader.slot.toNat ≤ block.slot.toNat := hlt.le
  have h₂ : 1 ≤ block.slot.toNat - st.latestBlockHeader.slot.toNat := by omega
  have h₃ : st.historicalBlockHashes.len + 1 < 2 ^ 64 := by omega
  have h₄ : 1 ≤ block.slot.toNat := by omega
  have htotal : st.historicalBlockHashes.len + 1 +
      (block.slot.toNat - st.latestBlockHeader.slot.toNat - 1) = st.historicalBlockHashes.len +
        (block.slot.toNat - st.latestBlockHeader.slot.toNat) := by omega
  simp only [Exec.sub64, Exec.add64, h₁, h₂, h₃, h₄, if_true, Exec.ok_bind, htotal]
  by_cases hover : st.historicalBlockHashes.len +
      (block.slot.toNat - st.latestBlockHeader.slot.toNat) < 2 ^ 64
  · rw [if_pos hover, Exec.ok_bind, Exec.noPanic_ite]
    by_cases hfits : st.historicalBlockHashes.len +
        (block.slot.toNat - st.latestBlockHeader.slot.toNat) ≤ historicalRootsLimit
    · have hnew : (st.historicalBlockHashes.toList ++ th.header st.latestBlockHeader ::
          List.replicate (block.slot.toNat - st.latestBlockHeader.slot.toNat - 1) 0).length ≤
          historicalRootsLimit := by
        rw [VariableList.len] at hfits
        rw [List.length_append, List.length_cons, List.length_replicate]
        omega
      obtain ⟨hashes, hhashes, -⟩ := VariableList.exists_new hnew
      simp only [hhashes, hfs, Exec.expect_some, Exec.ok_bind, Exec.noPanic_bind,
        extendToSlot_noPanic_iff, hover, hfits, true_and, forall_const]
      constructor
      · exact fun h ↦ (h.2 (by omega)).1
      · exact fun h ↦ ⟨fun _ ↦ .fail _, fun _ ↦ ⟨h, fun _ _ ↦ .ok _⟩⟩
    · exact ⟨fun _ ↦ ⟨hover, fun h ↦ absurd h hfits⟩,
        fun _ ↦ ⟨fun _ ↦ .fail _, fun h ↦ absurd (Nat.not_lt.mp h) hfits⟩⟩
  · rw [if_neg hover]
    exact ⟨fun h ↦ absurd rfl (h .overflow), fun h ↦ absurd h.1 hover⟩

end Header

section Fixed

/-- The part of a state that no block changes. -/
def Fixed (st st' : State H) : Prop := st'.config = st.config ∧ st'.validators = st.validators

theorem Fixed.trans {st'' : State H} (h : Fixed st st') (h' : Fixed st' st'') : Fixed st st'' :=
  ⟨h'.1.trans h.1, h'.2.trans h.2⟩

theorem tryFinalize_fixed {source target : Checkpoint H}
    (h : tryFinalize slots t source target = .ok t') : Fixed t.state t'.state := by
  rcases tryFinalize_cases h with ⟨-, rfl⟩ | ⟨-, h⟩
  · exact ⟨rfl, rfl⟩
  · obtain ⟨-, window, -, rfl⟩ := advanceFinalized_eq_ok h
    exact ⟨rfl, rfl⟩

theorem processAttestation_fixed (h : processAttestation slots n t a = .ok t') :
    Fixed t.state t'.state := by
  rcases processAttestationWith_cases h with ⟨-, rfl⟩ | ⟨-, ⟨-, rfl⟩ | ⟨-, votes, -, hrest⟩⟩
  · exact ⟨rfl, rfl⟩
  · exact ⟨rfl, rfl⟩
  · rcases hrest with ⟨-, rfl⟩ | ⟨-, window, -, hfinish⟩
    · exact ⟨rfl, rfl⟩
    · obtain ⟨hconfig, hvals⟩ := tryFinalize_fixed hfinish
      exact ⟨hconfig, hvals⟩

theorem processAttestations_fixed {as : List (AggregatedAttestation H)}
    (h : processAttestations st as = .ok st') : Fixed st st' := by
  obtain ⟨-, slots, t, -, hrun, hser⟩ := processAttestations_eq_ok h
  obtain ⟨roots, votes, rfl⟩ := serializeJustifications_eq_ok hser
  exact Runs.run_invariant (P := fun t ↦ Fixed st t.state)
    (fun _ _ _ hfix hstep ↦ hfix.trans (processAttestation_fixed hstep)) ⟨rfl, rfl⟩ hrun

/-- A chain never changes its genesis time or its validators. -/
theorem stateTransition_fixed {block : Block H} (h : stateTransition th st block = .ok st') :
    Fixed st st' := by
  obtain ⟨st₁, st₂, h₁, h₂, h₃, -⟩ := stateTransition_eq_ok h
  obtain ⟨-, rfl⟩ := processSlots_eq_ok.mp h₁
  obtain ⟨-, -, -, -, -, hashes, window, -, -, rfl⟩ := processBlockHeader_eq_ok h₂
  obtain ⟨hconfig, hvals⟩ := processAttestations_fixed h₃
  exact ⟨hconfig, hvals⟩

end Fixed

section Errors

variable {e : Error H}

theorem setJustified_ne_fail {ε : Type} {w : JustifiedSlots} {f target : ℕ} {e : ε} :
    setJustified w f target ≠ Exec.fail e := by
  unfold setJustified
  split
  · exact Exec.expect_ne_fail
  · exact nofun

theorem extendToSlot_ne_fail {ε : Type} {w : JustifiedSlots} {f target : ℕ} {e : ε} :
    extendToSlot w f target ≠ Exec.fail e := by
  unfold extendToSlot
  split
  · exact nofun
  · dsimp only
    split
    · exact nofun
    · exact Exec.bind_ne_fail Exec.expect_ne_fail fun _ _ ↦ nofun

theorem shiftWindow_ne_fail {ε : Type} {w : JustifiedSlots} {delta : ℕ} {e : ε} :
    shiftWindow w delta ≠ Exec.fail e := by
  obtain ⟨w', hw', -⟩ := shiftWindow_eq_ok (ε := ε) w delta
  rw [hw']
  exact nofun

theorem tryFinalize_ne_fail {source target : Checkpoint H} :
    tryFinalize slots t source target ≠ Exec.fail e := by
  refine Exec.bind_ne_fail ?_ fun between _ ↦ ?_
  · exact Exec.bind_ne_fail Exec.checked_ne_fail fun _ _ ↦ nofun
  · split
    · exact nofun
    · exact Exec.bind_ne_fail Exec.checked_ne_fail fun _ _ ↦
        Exec.bind_ne_fail shiftWindow_ne_fail fun _ _ ↦ nofun

theorem processAttestation_ne_fail : processAttestation slots n t a ≠ Exec.fail e := by
  unfold processAttestation processAttestationWith
  dsimp only
  split
  · exact nofun
  · split
    · exact nofun
    · refine Exec.bind_ne_fail Exec.index_ne_fail fun votes _ ↦ ?_
      split
      · exact Exec.bind_ne_fail (Exec.bind_ne_fail setJustified_ne_fail fun _ _ ↦ nofun)
          fun _ _ ↦ tryFinalize_ne_fail
      · exact nofun

theorem run_processAttestation_ne_fail {as : List (AggregatedAttestation H)} :
    Runs.run (processAttestation slots n) t as ≠ Exec.fail e := by
  induction as generalizing t with
  | nil => exact nofun
  | cons a as ih =>
    rw [Runs.run_cons]
    exact Exec.bind_ne_fail processAttestation_ne_fail fun t' _ ↦ ih

/-- The attestation loop has one error of its own: a zero among the roots that have votes. -/
theorem processAttestations_ne_fail {as : List (AggregatedAttestation H)}
    (he : e ≠ .zeroHashInJustificationRoots) : processAttestations st as ≠ Exec.fail e := by
  unfold processAttestations
  split
  · exact fun h ↦ he (Failure.error.inj (Except.error.inj h)).symm
  · refine Exec.bind_ne_fail ?_ fun slots _ ↦ ?_
    · exact Exec.bind_ne_fail Exec.checked_ne_fail fun _ _ ↦ nofun
    · refine Exec.bind_ne_fail run_processAttestation_ne_fail fun t _ ↦ ?_
      refine Exec.bind_ne_fail Exec.expect_ne_fail fun _ _ ↦ ?_
      refine Exec.bind_ne_fail Exec.index_ne_fail fun _ _ ↦ ?_
      refine Exec.bind_ne_fail Exec.expect_ne_fail fun _ _ ↦ ?_
      refine Exec.bind_ne_fail Exec.expect_ne_fail fun _ _ ↦ ?_
      exact Exec.bind_ne_fail Exec.expect_ne_fail fun _ _ ↦ nofun

/-- The header step rejects a slot or a parent only if it is not the state's own. -/
theorem processBlockHeader_eq_fail {block : Block H}
    (h : processBlockHeader th st block = Exec.fail e) :
    (∀ a b, e = .slotMismatch a b → block.slot ≠ st.slot) ∧
      ∀ a b, e = .invalidParent a b → block.parentRoot ≠ th.header st.latestBlockHeader := by
  have hother (hs : ∀ a b, e ≠ .slotMismatch a b) (hp : ∀ a b, e ≠ .invalidParent a b) :
      (∀ a b, e = .slotMismatch a b → block.slot ≠ st.slot) ∧
        ∀ a b, e = .invalidParent a b → block.parentRoot ≠ th.header st.latestBlockHeader :=
    ⟨fun a b he ↦ absurd he (hs a b), fun a b he ↦ absurd he (hp a b)⟩
  unfold processBlockHeader at h
  dsimp only at h
  split at h
  · rename_i hslot
    obtain rfl := Failure.error.inj (Except.error.inj h)
    exact ⟨fun _ _ _ ↦ hslot, nofun⟩
  split at h
  · obtain rfl := Failure.error.inj (Except.error.inj h)
    exact hother nofun nofun
  split at h
  · obtain rfl := Failure.error.inj (Except.error.inj h)
    exact hother nofun nofun
  split at h
  · obtain rfl := Failure.error.inj (Except.error.inj h)
    exact hother nofun nofun
  split at h
  · rename_i hparent
    obtain rfl := Failure.error.inj (Except.error.inj h)
    exact ⟨nofun, fun _ _ _ ↦ hparent⟩
  by_cases hgap : ∃ gap current max, e = .slotGapTooLarge gap current max
  · obtain ⟨gap, current, max, rfl⟩ := hgap
    exact hother nofun nofun
  · refine absurd h ?_
    refine Exec.bind_ne_fail Exec.checked_ne_fail fun _ _ ↦ ?_
    refine Exec.bind_ne_fail Exec.checked_ne_fail fun _ _ ↦ ?_
    refine Exec.bind_ne_fail Exec.checked_ne_fail fun _ _ ↦ ?_
    refine Exec.bind_ne_fail Exec.checked_ne_fail fun _ _ ↦ ?_
    split
    · exact fun h ↦ hgap ⟨_, _, _, (Failure.error.inj (Except.error.inj h)).symm⟩
    refine Exec.bind_ne_fail Exec.expect_ne_fail fun _ _ ↦ ?_
    refine Exec.bind_ne_fail Exec.checked_ne_fail fun _ _ ↦ ?_
    exact Exec.bind_ne_fail extendToSlot_ne_fail fun _ _ ↦ nofun

/-- A block that names the state's own header as its parent is not rejected for its slot or for
its parent. -/
theorem stateTransition_ne_fail {block : Block H}
    (hparent : block.parentRoot = th.header (cachedHeader th st))
    (he : (∃ a b, e = .slotMismatch a b) ∨ ∃ a b, e = .invalidParent a b) :
    stateTransition th st block ≠ Exec.fail e := by
  refine Exec.bind_ne_fail ?_ fun st₁ h₁ ↦ Exec.bind_ne_fail ?_ fun st₂ _ ↦ ?_
  · unfold processSlots
    split
    · rcases he with ⟨a, b, rfl⟩ | ⟨a, b, rfl⟩
      · exact nofun
      · exact nofun
    · exact nofun
  · obtain ⟨-, rfl⟩ := processSlots_eq_ok.mp h₁
    refine Exec.bind_ne_fail (fun h ↦ ?_) fun st₂ _ ↦ processAttestations_ne_fail ?_
    · obtain ⟨hslot, hroot⟩ := processBlockHeader_eq_fail h
      rcases he with ⟨a, b, rfl⟩ | ⟨a, b, rfl⟩
      · exact hslot a b rfl rfl
      · exact hroot a b rfl hparent
    · rcases he with ⟨a, b, rfl⟩ | ⟨a, b, rfl⟩
      · exact nofun
      · exact nofun
  · dsimp only
    split
    · rcases he with ⟨a, b, rfl⟩ | ⟨a, b, rfl⟩
      · exact nofun
      · exact nofun
    · exact nofun

end Errors

end Ethlambda.StateTransition
