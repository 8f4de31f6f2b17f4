import Ethlambda.StateTransition.Ledger
import Mathlib.Order.Bounds.Basic

namespace Ethlambda.StateTransition

open Ethlambda.Base Ethlambda.Types

set_option linter.unusedSectionVars false

variable {H : Type} [LinearOrder H] [Zero H] {th : TreeHash H} {st st' : State H}
  {slots : Table H ℕ} {n : ℕ} {t t' : Tally H} {a : AggregatedAttestation H} {block : Block H}
  {l : List (Round H)}

theorem Effect.finalized_le (e : Effect slots n t a t') :
    t.state.latestFinalized.slot.toNat ≤ t'.state.latestFinalized.slot.toNat := by
  cases e with
  | skipped hv => exact le_rfl
  | touched hv hlen => exact le_rfl
  | recorded hv hlen hsuper => exact le_rfl
  | justified window hv hlen hsuper hwlen hwj hbetween => exact le_rfl
  | finalized window hv hlen hsuper hle hwlen hwj hbetween => exact hle

/-- The history only grows, and a finalized slot stays at or below the finalized slot. -/
structure Extends (st st' : State H) : Prop where
  history : st.historicalBlockHashes.toList <+: st'.historicalBlockHashes.toList
  finalized : st.latestFinalized.slot.toNat ≤ st'.latestFinalized.slot.toNat

theorem Extends.refl (st : State H) : Extends st st := ⟨List.prefix_rfl, le_rfl⟩

theorem Extends.trans {st₁ st₂ st₃ : State H} (h : Extends st₁ st₂) (h' : Extends st₂ st₃) :
    Extends st₁ st₃ :=
  ⟨h.history.trans h'.history, h.finalized.trans h'.finalized⟩

theorem rounds_extends {as : List (AggregatedAttestation H)} (h : TallyInv th slots n t)
    (hr : Runs.run (processAttestation slots n) t as = .ok t') : Extends t.state t'.state := by
  refine Runs.run_relates (P := TallyInv th slots n) (R := fun t t' ↦ Extends t.state t'.state)
    ?_ ?_ ?_ h hr
  · exact fun t ↦ .refl t.state
  · exact fun t u v h h' ↦ h.trans h'
  intro t a t' hi hs
  have e := hi.effect hs
  exact ⟨e.preserves hi, by rw [e.frame.2.2.1], e.finalized_le⟩

theorem Wellformed.extends (hth : th.CollisionFree) (h : Wellformed th n st)
    (hs : StateTransition.stateTransition th st block = .ok st') :
    Extends st st' ∧ 0 < st'.latestBlockHeader.slot.toNat := by
  obtain ⟨st₂, slots, t, b⟩ := h.blockRun hth hs
  obtain ⟨st₁, h₁, h₂, hstep⟩ := b.header
  obtain ⟨-, rfl⟩ := processSlots_eq_ok.mp h₁
  have hrounds := rounds_extends b.opened b.rounds
  have hstarted := b.closed.started
  obtain ⟨roots, votes, rfl, -, -⟩ := b.post
  refine ⟨⟨?_, ?_⟩, hstarted⟩
  · have hopen : st.historicalBlockHashes.toList <+: st₂.historicalBlockHashes.toList :=
      ⟨_, hstep.history_eq.symm⟩
    exact hopen.trans hrounds.history
  · have hfin : st₂.latestFinalized.slot = st.latestFinalized.slot := hstep.finalized_slot
    have hle := hrounds.finalized
    rw [show (StateTransition.openTally st₂).state = st₂ from rfl, hfin] at hle
    exact hle

theorem Wellformed.runChain_extends (hth : th.CollisionFree) (h : Wellformed th n st)
    {blocks : List (Block H)} (hr : StateTransition.runChain th st blocks = .ok st') :
    Extends st st' := by
  refine Runs.run_relates (P := Wellformed th n) (R := Extends) Extends.refl
    (fun _ _ _ h h' ↦ h.trans h') ?_ h hr
  intro st block st' hw hs
  exact ⟨hw.stateTransition hth hs, (hw.extends hth hs).1⟩

theorem Wellformed.started (hth : th.CollisionFree) (h : Wellformed th n st)
    {blocks : List (Block H)} (hne : blocks ≠ [])
    (hr : StateTransition.runChain th st blocks = .ok st') : 0 < st'.latestBlockHeader.slot.toNat := by
  obtain ⟨init, last, rfl⟩ := List.eq_nil_or_concat' blocks |>.resolve_left hne
  obtain ⟨u, hu, hlast⟩ := Runs.run_append_eq_ok.mp hr
  obtain ⟨u', hu', hend⟩ := Runs.run_cons_eq_ok.mp hlast
  obtain rfl : u' = st' := by simpa using hend
  exact ((h.runChain hth hu).extends hth hu').2

/-- What a chain has finalized stays in its history and stays finalized, and no round of the chain
can finalize a source below the finalized slot it meets. -/
theorem finality_permanent {validators : List Validator} {time : UInt64} {g : State H}
    {blocks more : List (Block H)} (hth : th.CollisionFree)
    (hg : State.fromGenesis th time validators = (.ok g : Result H (State H)))
    (hne : blocks ≠ []) (h₁ : runChain th g blocks = .ok st) (h₂ : runChain th st more = .ok st') :
    st.latestFinalized.slot ≤ st'.latestFinalized.slot ∧
    st'.historicalBlockHashes.get st.latestFinalized.slot.toNat = some st.latestFinalized.root ∧
    st'.latestFinalized.slot ≤ st'.latestJustified.slot ∧
    isSlotJustified st'.justifiedSlots st'.latestFinalized.slot.toNat
      st'.latestJustified.slot.toNat = true ∧
    ∀ t a, (t, a) ∈ chainRounds th g (blocks ++ more) →
      isValidVote t.state a.data.source a.data.target = true →
      justifiableBetween t.state.latestFinalized.slot.toNat a.data.source a.data.target =
        .ok false →
      t.state.latestFinalized.slot ≤ a.data.source.slot := by
  obtain ⟨vs, rfl, rfl⟩ := State.fromGenesis_eq_ok hg
  have hgen := wellformed_genesis th time vs
  have hw := hgen.runChain hth h₁
  have hw' := hw.runChain hth h₂
  have hext := hw.runChain_extends hth h₂
  have hroot := hw.aligned.finalized_root (hgen.started hth hne h₁)
  obtain ⟨rest, hrest⟩ := hext.history
  refine ⟨UInt64.le_iff_toNat_le.mpr hext.finalized, ?_,
    UInt64.le_iff_toNat_le.mpr hw'.aligned.finalized_le_justified, hw'.aligned.justified_marked, ?_⟩
  · rw [VariableList.get, ← hrest]
    exact getElem?_append_of_some hroot
  · intro t a hmem hv hbetween
    obtain ⟨pre, post, hsplit⟩ := List.append_of_mem hmem
    have hr : runChain th (genesisState th time vs) (blocks ++ more) = .ok st' :=
      Runs.run_append_eq_ok.mpr ⟨st, h₁, h₂⟩
    have htriv : RoundInvariant th vs.toList.length (fun _ _ ↦ True) :=
      ⟨fun _ _ ↦ trivial, fun _ _ _ _ _ ↦ trivial, fun _ _ _ ↦ trivial⟩
    obtain ⟨slots, t', ht, -, -, -⟩ := htriv.at_round hth hgen hr trivial hsplit
    exact UInt64.le_iff_toNat_le.mpr (finalized_le_source hbetween (ht.target_lt hv).1)

theorem finality_permanent_sample :
    ∃ st st', runChain sampleHash sampleGenesis [Sample.first, Sample.second, Sample.third] = .ok st ∧
      runChain sampleHash st [Sample.fourth] = .ok st' ∧
      st.latestFinalized = sampleCheckpoint Sample.first ∧
      st'.historicalBlockHashes.get 1 = some (sampleHash.block Sample.first) := by
  let pair : Result ℕ (State ℕ × State ℕ) := do
    let st ← runChain sampleHash sampleGenesis [Sample.first, Sample.second, Sample.third]
    let st' ← runChain sampleHash st [Sample.fourth]
    pure (st, st')
  have hview : pair.toOption.map (fun p ↦ p.1.latestFinalized) =
      some (sampleCheckpoint Sample.first) := by decide +kernel
  obtain ⟨p, hp, hfin⟩ := Exec.exists_ok_of_map hview
  obtain ⟨st, h₁, hrest⟩ := Exec.bind_eq_ok.mp hp
  obtain ⟨st', h₂, hend⟩ := Exec.bind_eq_ok.mp hrest
  obtain rfl := Except.ok.inj hend
  have hperm := finality_permanent sampleHash_collisionFree sampleGenesis_eq
    (List.cons_ne_nil _ _) h₁ h₂
  rw [hfin] at hperm
  exact ⟨st, st', h₁, h₂, hfin, hperm.2.1⟩

/-- The attestation of a round counts and lifts its target over the threshold. -/
def crosses (n : ℕ) (p : Round H) : Bool :=
  accepted n p && supermajority ((countedRow n p.1 p.2).count true) n

/-- The target that crosses the threshold lies below the latest justified slot. -/
def regresses (n : ℕ) (p : Round H) : Bool :=
  crosses n p && decide (p.2.data.target.slot < p.1.state.latestJustified.slot)

theorem le_target_of_not_regresses (h : regresses n (t, a) = false)
    (hv : isValidVote t.state a.data.source a.data.target = true) (hlen : a.aggregationBits.len ≤ n)
    (hsuper : supermajority ((countedRow n t a).count true) n = true) :
    t.state.latestJustified.slot.toNat ≤ a.data.target.slot.toNat := by
  have hacc := accepted_iff.mpr ⟨hv, hlen⟩
  simp only [regresses, crosses, hacc, hsuper, Bool.true_and, decide_eq_false_iff_not,
    UInt64.not_lt] at h
  exact UInt64.le_iff_toNat_le.mp h

/-- The latest justified slot is at least `floor` and no slot above it is marked. -/
def Topped (n floor : ℕ) (t : Tally H) (l : List (Round H)) : Prop :=
  (∀ p ∈ l, regresses n p = false) → floor ≤ t.state.latestJustified.slot.toNat ∧
    ∀ s, t.state.latestFinalized.slot.toNat < s → justifiedAt t.state s = true →
      s ≤ t.state.latestJustified.slot.toNat

theorem topped_invariant (floor : ℕ) : RoundInvariant th n (Topped n floor) where
  same := by
    intro t t' l hs h hcalm
    obtain ⟨hfloor, htop⟩ := h hcalm
    simp only [hs.justifiedAt_eq, hs.justified, hs.finalized]
    exact ⟨hfloor, htop⟩
  header := by
    intro st st' m l block ha ha' hstep hrows h hcalm
    obtain ⟨hfloor, htop⟩ := h hcalm
    dsimp only at hfloor htop ⊢
    rw [hstep.justified_slot, hstep.finalized_slot]
    refine ⟨hfloor, fun s hs hj ↦ htop s hs ?_⟩
    rw [← hstep.justifiedAt_eq]
    exact hj
  round := by
    intro slots t t' a l ht e h hcalm
    obtain ⟨hfloor, htop⟩ := h fun p hp ↦ hcalm p (List.mem_append_left _ hp)
    have hthis := hcalm (t, a) (by simp)
    cases e with
    | skipped hv => exact ⟨hfloor, htop⟩
    | touched hv hlen => exact ⟨hfloor, htop⟩
    | recorded hv hlen hsuper => exact ⟨hfloor, htop⟩
    | justified window hv hlen hsuper hwlen hwj hbetween =>
      have hle := le_target_of_not_regresses hthis hv hlen hsuper
      refine ⟨hfloor.trans hle, fun s hs hj ↦ ?_⟩
      simp only [justifiedAt, hwj, Bool.or_eq_true, decide_eq_true_eq] at hj
      rcases hj with rfl | hj
      · exact le_rfl
      · exact (htop s hs hj).trans hle
    | finalized window hv hlen hsuper hfin hwlen hwj hbetween =>
      have hle := le_target_of_not_regresses hthis hv hlen hsuper
      refine ⟨hfloor.trans hle, fun s hs hj ↦ ?_⟩
      simp only [justifiedAt, hwj, Bool.or_eq_true, decide_eq_true_eq] at hj
      rcases hj with (hle' | rfl) | hj
      · exact absurd hs (Nat.not_lt.mpr hle')
      · exact le_rfl
      · exact (htop s (hfin.trans_lt hs) hj).trans hle

def markedSlots (st : State H) : Set ℕ :=
  {s | s = st.latestFinalized.slot.toNat ∨ (st.latestFinalized.slot.toNat < s ∧
    isSlotJustified st.justifiedSlots st.latestFinalized.slot.toNat s = true)}

/-- As long as no target crosses the threshold below the latest justified slot, that slot never
decreases and is the greatest one marked. -/
theorem justified_greatest_of_not_regresses {validators : List Validator} {time : UInt64}
    {g : State H} {blocks more : List (Block H)} (hth : th.CollisionFree)
    (hg : State.fromGenesis th time validators = (.ok g : Result H (State H)))
    (h₁ : runChain th g blocks = .ok st) (h₂ : runChain th st more = .ok st')
    (hcalm : ∀ p ∈ chainRounds th g (blocks ++ more), regresses validators.length p = false) :
    st.latestJustified.slot ≤ st'.latestJustified.slot ∧
      IsGreatest (markedSlots st') st'.latestJustified.slot.toNat := by
  obtain ⟨vs, rfl, rfl⟩ := State.fromGenesis_eq_ok hg
  have hgen := wellformed_genesis th time vs
  have hw := hgen.runChain hth h₁
  have hw' := hw.runChain hth h₂
  rw [chainRounds_append h₁] at hcalm
  have hstart : Topped vs.toList.length 0 (openTally (genesisState th time vs)) [] := by
    refine fun _ ↦ ⟨Nat.zero_le _, fun s hs hj ↦ ?_⟩
    have hnot : justifiedAt (openTally (genesisState th time vs)).state s = false :=
      hgen.aligned.not_justifiedAt_of_le (Nat.zero_le s) hs
    rw [hnot] at hj
    exact nomatch hj
  have hmid := (topped_invariant 0).chain hth hgen h₁ hstart
    fun p hp ↦ hcalm p (List.mem_append_left _ (by simpa using hp))
  have hend := (topped_invariant st.latestJustified.slot.toNat).chain hth hw h₂
    (l := []) (fun _ ↦ ⟨le_rfl, hmid.2⟩)
    fun p hp ↦ hcalm p (List.mem_append_right _ (by simpa using hp))
  obtain ⟨hfloor, htop⟩ := hend
  refine ⟨UInt64.le_iff_toNat_le.mpr hfloor, ?_, ?_⟩
  · rcases hw'.aligned.finalized_le_justified.eq_or_lt with heq | hlt
    · exact .inl heq.symm
    · exact .inr ⟨hlt, hw'.aligned.justified_marked⟩
  · rintro s (rfl | ⟨hs, hj⟩)
    · exact hw'.aligned.finalized_le_justified
    · exact htop s hs hj

theorem justified_greatest_of_not_regresses_sample :
    ∃ st, runChain sampleHash sampleGenesis Sample.chain = .ok st ∧
      IsGreatest (markedSlots st) st.latestJustified.slot.toNat := by
  have hview : (runChain sampleHash sampleGenesis Sample.chain).toOption.map
      (fun st ↦ st.latestJustified) = some (sampleCheckpoint Sample.second) := by decide +kernel
  obtain ⟨st, hst, -⟩ := Exec.exists_ok_of_map hview
  have hcalm : ∀ p ∈ chainRounds sampleHash sampleGenesis (Sample.chain ++ []),
      regresses sampleValidators.length p = false := by decide +kernel
  exact ⟨st, hst, (justified_greatest_of_not_regresses sampleHash_collisionFree sampleGenesis_eq
    hst Runs.run_nil hcalm).2⟩

namespace Sample

def idle : Block ℕ := sampleBlock first 2 .empty

def late : Block ℕ := sampleBlock idle 3
  ⟨[sampleVote ⟨[true, true], two_le_limit⟩ sampleOrigin idle], one_le_limit⟩

def later : Block ℕ := sampleBlock late 4
  ⟨[sampleVote ⟨[true, true], two_le_limit⟩ sampleOrigin first], one_le_limit⟩

end Sample

/-- The third block justifies slot 2 and the fourth one then justifies slot 1, which becomes the
latest justified checkpoint although slot 2 is still marked. -/
theorem justified_regresses :
    ∃ st st', runChain sampleHash sampleGenesis [Sample.first, Sample.idle, Sample.late] = .ok st ∧
      stateTransition sampleHash st Sample.later = .ok st' ∧
      ¬st.latestJustified.slot ≤ st'.latestJustified.slot ∧
      ¬IsGreatest (markedSlots st') st'.latestJustified.slot.toNat := by
  let pair : Result ℕ (State ℕ × State ℕ) := do
    let st ← runChain sampleHash sampleGenesis [Sample.first, Sample.idle, Sample.late]
    let st' ← stateTransition sampleHash st Sample.later
    pure (st, st')
  have hview : pair.toOption.map (fun p ↦ (p.1.latestJustified.slot, p.2.latestJustified.slot,
      p.2.latestFinalized.slot, isSlotJustified p.2.justifiedSlots 0 2)) =
      some (2, 1, 0, true) := by decide +kernel
  obtain ⟨p, hp, hslots⟩ := Exec.exists_ok_of_map hview
  obtain ⟨st, h₁, hrest⟩ := Exec.bind_eq_ok.mp hp
  obtain ⟨st', h₂, hend⟩ := Exec.bind_eq_ok.mp hrest
  obtain rfl := Except.ok.inj hend
  simp only [Prod.mk.injEq] at hslots
  obtain ⟨hbefore, hafter, hfin, hmarked⟩ := hslots
  refine ⟨st, st', h₁, h₂, ?_, ?_⟩
  · rw [hbefore, hafter]
    decide
  · intro hgreatest
    have hle : 2 ≤ st'.latestJustified.slot.toNat := by
      apply hgreatest.2
      refine .inr ?_
      rw [hfin]
      exact ⟨by decide, hmarked⟩
    rw [hafter] at hle
    exact absurd hle (by decide)

end Ethlambda.StateTransition
