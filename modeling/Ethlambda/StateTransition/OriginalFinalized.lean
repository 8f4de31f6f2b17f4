import Ethlambda.StateTransition.Finality

namespace Ethlambda.StateTransition

open Ethlambda.Base Ethlambda.Types

set_option linter.unusedSectionVars false

variable {H : Type} [LinearOrder H] [Zero H] {th : TreeHash H} {st st' : State H}
  {slots : Table H ℕ} {n base : ℕ} {t t' : Tally H} {a : AggregatedAttestation H}
  {as : List (AggregatedAttestation H)}

/-- The finalization check of the documentation: candidates are judged from `base`, the slot that
was finalized when the block began. -/
def tryFinalizeOriginal (base : ℕ) (slots : Table H ℕ) (t : Tally H)
    (source target : Checkpoint H) : Result H (Tally H) := do
  if ← justifiableBetween base source target then
    pure t
  else
    advanceFinalized slots t source

def processAttestationOriginal (base : ℕ) (slots : Table H ℕ) :
    ℕ → Tally H → AggregatedAttestation H → Result H (Tally H) :=
  processAttestationWith (tryFinalizeOriginal base slots)

/-- The documented procedure. It differs from `processAttestations` in the finalization check only. -/
def processAttestationsOriginal (st : State H) (attestations : List (AggregatedAttestation H)) :
    Result H (State H) := do
  if st.justificationsRoots.toList.any (fun root ↦ root = 0) then
    Exec.fail .zeroHashInJustificationRoots
  else
    let slots ← rootToSlot st
    let t ← Runs.run
      (processAttestationOriginal st.latestFinalized.slot.toNat slots st.validators.len)
      (openTally st) attestations
    serializeJustifications t st.validators.len

def attestationRounds (st : State H) (as : List (AggregatedAttestation H)) : List (Round H) :=
  match rootToSlot st with
  | .ok slots => Runs.trace (processAttestation slots st.validators.len) (openTally st) as
  | .error _ => []

/-- The attestation of the round lifts its target over the threshold. -/
def lifts (n : ℕ) (p : Round H) : Bool :=
  isValidVote p.1.state p.2.data.source p.2.data.target && decide (p.2.aggregationBits.len ≤ n) &&
    match raise p.2.aggregationBits.toList (entry n p.1.justifications p.2.data.target.root) with
    | some votes => supermajority (votes.count true) n
    | none => false

/-- The two schedules judge the slots between source and target differently at a round that gets
to the finalization check. -/
def diverges (base n : ℕ) (p : Round H) : Prop :=
  lifts n p = true ∧
    justifiableBetween p.1.state.latestFinalized.slot.toNat p.2.data.source p.2.data.target ≠
      justifiableBetween base p.2.data.source p.2.data.target

theorem processAttestation_eq_original (h : ¬diverges base n (t, a)) :
    processAttestation slots n t a = processAttestationOriginal base slots n t a := by
  unfold processAttestation processAttestationOriginal processAttestationWith
  dsimp only
  split
  · rfl
  rename_i hv
  split
  · rfl
  rename_i hlen
  cases hraise : raise a.aggregationBits.toList (entry n t.justifications a.data.target.root) with
  | none => rfl
  | some votes =>
    rw [Exec.index_some, Exec.ok_bind, Exec.ok_bind]
    split
    · rename_i hsuper
      have hlifts : lifts n (t, a) = true := by
        simp only [Bool.not_eq_true', Bool.not_eq_false] at hv
        simp [lifts, hv, Nat.not_lt.mp hlen, hraise, hsuper]
      have hsame : justifiableBetween t.state.latestFinalized.slot.toNat a.data.source
          a.data.target = justifiableBetween base a.data.source a.data.target :=
        not_not.mp fun hne ↦ h ⟨hlifts, hne⟩
      unfold justify
      cases (setJustified t.state.justifiedSlots t.state.latestFinalized.slot.toNat
          a.data.target.slot.toNat : Result H JustifiedSlots) with
      | error e => rfl
      | ok window =>
        simp only [Exec.ok_bind, Exec.pure_eq_ok, tryFinalize, tryFinalizeOriginal, hsame]
    · rfl

/-- Finalizing the finalized checkpoint once more changes nothing. -/
theorem TallyInv.advanceFinalized_self (h : TallyInv th slots n t) :
    advanceFinalized slots t t.state.latestFinalized = .ok t := by
  have hkeep : Table.retain (fun root _ ↦ liveRow slots t.state.latestFinalized root)
      t.justifications = t.justifications := by
    refine Table.retain_eq_self fun r row hrow ↦ ?_
    obtain ⟨hr, s, hs, hf, -⟩ := h.rows.target r row hrow
    simp [liveRow, h.slots_eq r s hs hr hf, hf]
  have hdelta : (Exec.sub64 t.state.latestFinalized.slot.toNat
      t.state.latestFinalized.slot.toNat : Result H ℕ) = .ok 0 :=
    Exec.sub64_eq_ok.mpr ⟨le_rfl, (Nat.sub_self _).symm⟩
  have hshift : (shiftWindow t.state.justifiedSlots 0 : Result H JustifiedSlots) =
      .ok t.state.justifiedSlots := rfl
  simp only [advanceFinalized, hdelta, hshift, Exec.ok_bind]
  exact congrArg (fun m ↦ (.ok ⟨t.state, m⟩ : Result H (Tally H))) hkeep

theorem TallyInv.exists_justified (h : TallyInv th slots n t) (hlift : lifts n (t, a) = true) :
    ∃ t₁, TallyInv th slots n t₁ ∧ t₁.state.latestFinalized = t.state.latestFinalized ∧
      t₁.state.historicalBlockHashes = t.state.historicalBlockHashes ∧
      ∀ finish, processAttestationWith finish n t a = finish t₁ a.data.source a.data.target := by
  simp only [lifts, Bool.and_eq_true, decide_eq_true_eq] at hlift
  obtain ⟨⟨hv, hlen⟩, hsuper⟩ := hlift
  rw [h.raise_eq hlen] at hsuper
  dsimp only at hsuper
  obtain ⟨htf, htl⟩ := h.target_lt hv
  obtain ⟨w, hw, hwlen, hwj⟩ := setJustified_eq_ok (ε := Error H) htf htl
  refine ⟨_, h.justified hv hwlen hwj, rfl, rfl, fun finish ↦ ?_⟩
  simp only [processAttestationWith, hv, Bool.not_true, Bool.false_eq_true, if_false,
    Nat.not_lt.mpr hlen, h.raise_eq hlen, Exec.index_some, Exec.ok_bind, hsuper, if_true, justify,
    hw, Exec.pure_eq_ok, erase_insert]

theorem exists_justifiableBetween (hlift : lifts n (t, a) = true) (base : ℕ) :
    ∃ b, justifiableBetween base a.data.source a.data.target = .ok b := by
  simp only [lifts, Bool.and_eq_true, decide_eq_true_eq] at hlift
  obtain ⟨-, -, -, -, hsource, -, -, -⟩ := isValidVote_iff.mp hlift.1.1
  have hlt := (List.getElem?_eq_some_iff.mp hsource).1
  have hle : _ ≤ 262144 := t.state.historicalBlockHashes.length_le
  exact ⟨_, justifiableBetween_eq_ok.mpr ⟨by omega, rfl⟩⟩

theorem tryFinalizeOriginal_eq {source target : Checkpoint H} {b : Bool}
    (h : justifiableBetween base source target = .ok b) :
    tryFinalizeOriginal base slots t source target =
      if b then .ok t else advanceFinalized slots t source := by
  rw [tryFinalizeOriginal, h, Exec.ok_bind]
  rfl

/-- A round on which the schedules differ still has one outcome if its source is the finalized
checkpoint. -/
theorem TallyInv.processAttestation_eq (h : TallyInv th slots n t)
    (hweak : diverges base n (t, a) → a.data.source.slot = t.state.latestFinalized.slot) :
    processAttestation slots n t a = processAttestationOriginal base slots n t a := by
  by_cases hd : diverges base n (t, a)
  · have hlift := hd.1
    obtain ⟨t₁, h₁, hfin, hhist, hround⟩ := h.exists_justified hlift
    have hself : advanceFinalized slots t₁ a.data.source = .ok t₁ := by
      have hroot := h.aligned.finalized_root h.started
      simp only [lifts, Bool.and_eq_true] at hlift
      obtain ⟨-, -, -, -, hsource, -, -, -⟩ := isValidVote_iff.mp hlift.1.1
      have hsame := checkpoint_eq hsource hroot (by rw [show _ = _ from hweak hd])
      rw [show a.data.source = t₁.state.latestFinalized from hsame.trans hfin.symm]
      exact h₁.advanceFinalized_self
    have hone (base : ℕ) : tryFinalizeOriginal base slots t₁ a.data.source a.data.target = .ok t₁ := by
      obtain ⟨b, hb⟩ := exists_justifiableBetween hlift base
      rw [tryFinalizeOriginal_eq hb, hself]
      cases b <;> rfl
    rw [processAttestation, processAttestationOriginal, hround, hround, hone base]
    exact hone t₁.state.latestFinalized.slot.toNat
  · exact processAttestation_eq_original hd

theorem serializeJustifications_finalized (h : serializeJustifications t n = .ok st) :
    st.latestFinalized = t.state.latestFinalized := by
  unfold serializeJustifications at h
  dsimp only at h
  obtain ⟨_, -, h⟩ := Exec.bind_eq_ok.mp h
  obtain ⟨_, -, h⟩ := Exec.bind_eq_ok.mp h
  obtain ⟨_, -, h⟩ := Exec.bind_eq_ok.mp h
  obtain ⟨_, -, h⟩ := Exec.bind_eq_ok.mp h
  obtain ⟨_, -, h⟩ := Exec.bind_eq_ok.mp h
  rw [← Except.ok.inj h]

theorem TallyInv.serialize_ok (h : TallyInv th slots n t) :
    ∃ st, serializeJustifications t n = .ok st := by
  obtain ⟨roots, votes, hok, -⟩ := h.rows.serialize h.aligned.validators_length
  exact ⟨_, hok⟩

theorem TallyInv.source_eq_of_serialize (h : TallyInv th slots n t) {source : Checkpoint H}
    (heq : serializeJustifications t n =
      (advanceFinalized slots t source >>= fun t ↦ serializeJustifications t n)) :
    source = t.state.latestFinalized := by
  obtain ⟨st, hst⟩ := h.serialize_ok
  rw [hst] at heq
  obtain ⟨t₂, hadv, hst₂⟩ := Exec.bind_eq_ok.mp heq.symm
  obtain ⟨-, window, -, rfl⟩ := advanceFinalized_eq_ok hadv
  rw [← serializeJustifications_finalized hst, serializeJustifications_finalized hst₂]

theorem TallyInv.source_eq_of_agree (h : TallyInv th slots n t) (hd : diverges base n (t, a))
    (heq : (processAttestation slots n t a >>= fun t ↦ serializeJustifications t n) =
      (processAttestationOriginal base slots n t a >>= fun t ↦ serializeJustifications t n)) :
    a.data.source.slot = t.state.latestFinalized.slot := by
  obtain ⟨hlift, hne⟩ := hd
  obtain ⟨t₁, h₁, hfin, -, hround⟩ := h.exists_justified hlift
  obtain ⟨b, hb⟩ := exists_justifiableBetween hlift t.state.latestFinalized.slot.toNat
  obtain ⟨b', hb'⟩ := exists_justifiableBetween hlift base
  have hcode : tryFinalize slots t₁ a.data.source a.data.target =
      if b then .ok t₁ else advanceFinalized slots t₁ a.data.source := by
    rw [← hfin] at hb
    exact tryFinalizeOriginal_eq hb
  rw [processAttestation, processAttestationOriginal, hround, hround, hcode,
    tryFinalizeOriginal_eq hb'] at heq
  rw [← hfin]
  cases b with
  | true =>
    cases b' with
    | true => exact absurd (hb.trans hb'.symm) hne
    | false => rw [h₁.source_eq_of_serialize heq]
  | false =>
    cases b' with
    | true => rw [h₁.source_eq_of_serialize heq.symm]
    | false => exact absurd (hb.trans hb'.symm) hne

/-- Along a whole block, the two procedures agree on every prefix of the attestations exactly when
no round diverges on a source above the finalized checkpoint. -/
theorem TallyInv.agree_iff (h : TallyInv th slots n t) :
    (∀ as', as' <+: as →
      (Runs.run (processAttestation slots n) t as' >>= fun t ↦ serializeJustifications t n) =
        (Runs.run (processAttestationOriginal base slots n) t as' >>= fun t ↦
          serializeJustifications t n)) ↔
    ∀ p ∈ Runs.trace (processAttestation slots n) t as, diverges base n p →
      p.2.data.source.slot = p.1.state.latestFinalized.slot := by
  constructor
  · intro heq
    induction as generalizing t with
    | nil => simp [Runs.trace]
    | cons a as ih =>
      obtain ⟨t', ht'⟩ := h.exists_ok a
      have hweak : diverges base n (t, a) →
          a.data.source.slot = t.state.latestFinalized.slot := by
        intro hd
        refine h.source_eq_of_agree hd ?_
        have hone := heq [a] ⟨as, rfl⟩
        rw [Runs.run_singleton, Runs.run_singleton] at hone
        exact hone
      intro p hp
      unfold Runs.trace at hp
      rcases List.mem_cons.mp hp with rfl | hp
      · exact hweak
      · rw [ht'] at hp
        refine ih ((h.effect ht').preserves h) (fun as' hpre ↦ ?_) p hp
        have hnext := heq (a :: as') (List.cons_prefix_cons.mpr ⟨rfl, hpre⟩)
        rw [Runs.run_cons, Runs.run_cons, ← h.processAttestation_eq hweak, ht'] at hnext
        exact hnext
  · intro hweak as' hpre
    rw [Runs.run_congr fun p hp ↦ ?_]
    have hinv := Runs.trace_invariant (fun _ _ _ hi hs ↦ (TallyInv.effect hi hs).preserves hi) h hp
    exact hinv.processAttestation_eq (hweak p ((Runs.trace_prefix hpre).subset hp))

theorem processAttestations_eq_original
    (h : ∀ p ∈ attestationRounds st as,
      ¬diverges st.latestFinalized.slot.toNat st.validators.len p) :
    processAttestations st as = processAttestationsOriginal st as := by
  unfold processAttestations processAttestationsOriginal
  split
  · rfl
  unfold attestationRounds at h
  cases hslots : rootToSlot st with
  | error e => rfl
  | ok slots =>
    rw [hslots] at h
    rw [Exec.ok_bind, Exec.ok_bind]
    rw [Runs.run_congr fun p hp ↦ processAttestation_eq_original (h p hp)]

theorem processAttestations_of_ok (hroots : ∀ r ∈ st.justificationsRoots.toList, r ≠ 0)
    (hslots : rootToSlot st = .ok slots) (as : List (AggregatedAttestation H)) :
    processAttestations st as =
        (Runs.run (processAttestation slots st.validators.len) (openTally st) as >>= fun t ↦
          serializeJustifications t st.validators.len) ∧
      processAttestationsOriginal st as =
        (Runs.run (processAttestationOriginal st.latestFinalized.slot.toNat slots
          st.validators.len) (openTally st) as >>= fun t ↦
          serializeJustifications t st.validators.len) := by
  have hzero : st.justificationsRoots.toList.any (fun root ↦ root = 0) = false := by
    rw [List.any_eq_false]
    intro r hr
    simpa using hroots r hr
  constructor
  · rw [processAttestations, hzero, hslots]
    rfl
  · rw [processAttestationsOriginal, hzero, hslots]
    rfl

/-- On every state that block processing hands to the attestation loop, the code and the documented
procedure agree on a list of attestations and all its prefixes exactly when no round diverges on a
source above the finalized checkpoint; on any state at all they agree when no round diverges. -/
theorem original_finalized_agrees_iff {validators : List Validator} {time : UInt64}
    {g st₀ st₁ : State H} {blocks : List (Block H)} {block : Block H} (hth : th.CollisionFree)
    (hg : State.fromGenesis th time validators = (.ok g : Result H (State H)))
    (hr : runChain th g blocks = .ok st₀) (h₁ : processSlots th st₀ block.slot = .ok st₁)
    (h₂ : processBlockHeader th st₁ block = .ok st) :
    (∀ as, (∀ as', as' <+: as → processAttestations st as' = processAttestationsOriginal st as') ↔
      ∀ p ∈ attestationRounds st as, diverges st.latestFinalized.slot.toNat validators.length p →
        p.2.data.source.slot = p.1.state.latestFinalized.slot) ∧
    ∀ (st : State H) as, (∀ p ∈ attestationRounds st as,
        ¬diverges st.latestFinalized.slot.toNat st.validators.len p) →
      processAttestations st as = processAttestationsOriginal st as := by
  obtain ⟨vs, rfl, rfl⟩ := State.fromGenesis_eq_ok hg
  have hw := (wellformed_genesis th time vs).runChain hth hr
  obtain ⟨hstep, -, hlen, slots, hslots, hopen⟩ := hw.openTally hth h₁ h₂
  obtain ⟨-, rfl⟩ := processSlots_eq_ok.mp h₁
  have hroots : ∀ r ∈ st.justificationsRoots.toList, r ≠ 0 := by
    rw [hstep.roots_eq]
    exact hw.roots_ne_zero
  refine ⟨fun as ↦ ?_, fun st as h ↦ processAttestations_eq_original h⟩
  have hrounds : attestationRounds st as =
      Runs.trace (processAttestation slots vs.toList.length) (openTally st) as := by
    rw [attestationRounds, hslots, ← hlen]
  rw [hrounds, ← hopen.agree_iff]
  refine forall_congr' fun as' ↦ forall_congr' fun _ ↦ ?_
  obtain ⟨hcode, horiginal⟩ := processAttestations_of_ok hroots hslots as'
  rw [hcode, horiginal, hlen]

namespace Sample

def bareSecond : Block ℕ := sampleBlock first 2 .empty

def bareSeventh : Block ℕ := sampleBlock bareSecond 7 .empty

def bareTenth : Block ℕ := sampleBlock bareSeventh 10 .empty

/-- Four links in one block: the second one finalizes slot 1, after which slots 8 and 9 are no
candidates although slot 9 was one when the block began. -/
def links : List (AggregatedAttestation ℕ) :=
  [sampleVote ⟨[true, true], two_le_limit⟩ sampleOrigin first,
    sampleVote ⟨[true, true], two_le_limit⟩ first bareSecond,
    sampleVote ⟨[true, true], two_le_limit⟩ bareSecond bareSeventh,
    sampleVote ⟨[true, true], two_le_limit⟩ bareSeventh bareTenth]

def busy : Block ℕ := sampleBlock bareTenth 11 ⟨links, by decide⟩

def busyChain : List (Block ℕ) := [first, bareSecond, bareSeventh, bareTenth]

def opened : Result ℕ (State ℕ × State ℕ × State ℕ) := do
  let st₀ ← runChain sampleHash sampleGenesis busyChain
  let st₁ ← processSlots sampleHash st₀ busy.slot
  let st ← processBlockHeader sampleHash st₁ busy
  pure (st₀, st₁, st)

end Sample

def quiet (q : State ℕ × State ℕ × State ℕ) (as : List (AggregatedAttestation ℕ)) : Bool :=
  (attestationRounds q.2.2 as).all fun p ↦ decide (
    (justifiableBetween p.1.state.latestFinalized.slot.toNat p.2.data.source
      p.2.data.target).toOption =
    (justifiableBetween q.2.2.latestFinalized.slot.toNat p.2.data.source
      p.2.data.target).toOption)

theorem exists_opened {β : Type} {f : State ℕ × State ℕ × State ℕ → β} {b : β}
    (h : Sample.opened.toOption.map f = some b) :
    ∃ st₀ st₁ st, runChain sampleHash sampleGenesis Sample.busyChain = .ok st₀ ∧
      processSlots sampleHash st₀ Sample.busy.slot = .ok st₁ ∧
      processBlockHeader sampleHash st₁ Sample.busy = .ok st ∧ f (st₀, st₁, st) = b := by
  obtain ⟨q, hq, hf⟩ := Exec.exists_ok_of_map h
  obtain ⟨st₀, h₀, hq⟩ := Exec.bind_eq_ok.mp hq
  obtain ⟨st₁, h₁, hq⟩ := Exec.bind_eq_ok.mp hq
  obtain ⟨st, h₂, hq⟩ := Exec.bind_eq_ok.mp hq
  obtain rfl := Except.ok.inj hq
  exact ⟨st₀, st₁, st, h₀, h₁, h₂, hf⟩

theorem original_finalized_agrees_sample :
    ∃ st₀ st₁ st, runChain sampleHash sampleGenesis Sample.busyChain = .ok st₀ ∧
      processSlots sampleHash st₀ Sample.busy.slot = .ok st₁ ∧
      processBlockHeader sampleHash st₁ Sample.busy = .ok st ∧
      processAttestations st (Sample.links.take 3) =
        processAttestationsOriginal st (Sample.links.take 3) := by
  have hview : Sample.opened.toOption.map (quiet · (Sample.links.take 3)) = some true := by
    decide +kernel
  obtain ⟨st₀, st₁, st, h₀, h₁, h₂, hquiet⟩ := exists_opened hview
  refine ⟨st₀, st₁, st, h₀, h₁, h₂, ?_⟩
  obtain ⟨-, hany⟩ := original_finalized_agrees_iff sampleHash_collisionFree sampleGenesis_eq
    h₀ h₁ h₂
  refine hany st _ fun p hp hd ↦ hd.2 ?_
  have hsame := of_decide_eq_true (List.all_eq_true.mp hquiet p hp)
  obtain ⟨b, hb⟩ := exists_justifiableBetween hd.1 p.1.state.latestFinalized.slot.toNat
  obtain ⟨b', hb'⟩ := exists_justifiableBetween hd.1 st.latestFinalized.slot.toNat
  rw [hb, hb'] at hsame
  rw [hb, hb', Option.some.inj hsame]

/-- One block finalizes slot 7 by the code and slot 1 by the documentation. -/
theorem original_finalized_diverges :
    ∃ st₀ st₁ st, runChain sampleHash sampleGenesis Sample.busyChain = .ok st₀ ∧
      processSlots sampleHash st₀ Sample.busy.slot = .ok st₁ ∧
      processBlockHeader sampleHash st₁ Sample.busy = .ok st ∧
      (processAttestations st Sample.links).toOption.map (fun st' ↦ st'.latestFinalized.slot) =
        some 7 ∧
      (processAttestationsOriginal st Sample.links).toOption.map
        (fun st' ↦ st'.latestFinalized.slot) = some 1 ∧
      processAttestations st Sample.links ≠ processAttestationsOriginal st Sample.links := by
  have hview : Sample.opened.toOption.map (fun q ↦
      ((processAttestations q.2.2 Sample.links).toOption.map (fun st' ↦ st'.latestFinalized.slot),
        (processAttestationsOriginal q.2.2 Sample.links).toOption.map
          (fun st' ↦ st'.latestFinalized.slot))) = some (some 7, some 1) := by decide +kernel
  obtain ⟨st₀, st₁, st, h₀, h₁, h₂, hslots⟩ := exists_opened hview
  obtain ⟨hcode, horiginal⟩ := Prod.mk.inj hslots
  refine ⟨st₀, st₁, st, h₀, h₁, h₂, hcode, horiginal, fun heq ↦ ?_⟩
  rw [heq, horiginal] at hcode
  exact absurd hcode (by decide)

end Ethlambda.StateTransition
