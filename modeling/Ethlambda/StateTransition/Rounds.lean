import Ethlambda.StateTransition.Representation

namespace Ethlambda.StateTransition

open Ethlambda.Base Ethlambda.Types

set_option linter.unusedSectionVars false

variable {H : Type} [LinearOrder H] [Zero H] {th : TreeHash H} {st st' : State H}
  {slots : Table H ℕ} {n : ℕ} {t t' : Tally H} {a : AggregatedAttestation H} {block : Block H}
  {blocks : List (Block H)}

/-- A round of the attestation loop: what the loop carried when it met the attestation. -/
abbrev Round (H : Type) := Tally H × AggregatedAttestation H

def blockRounds (th : TreeHash H) (st : State H) (block : Block H) : List (Round H) :=
  let opened : Result H (State H × Table H ℕ) := do
    let st ← processSlots th st block.slot
    let st ← processBlockHeader th st block
    let slots ← rootToSlot st
    pure (st, slots)
  match opened with
  | .ok (st, slots) => Runs.trace (processAttestation slots st.validators.len) (openTally st)
      block.body.attestations.toList
  | .error _ => []

def chainRounds (th : TreeHash H) (st : State H) (blocks : List (Block H)) : List (Round H) :=
  Runs.log (stateTransition th) (blockRounds th) st blocks

theorem chainRounds_append {more : List (Block H)} (h : runChain th st blocks = .ok st') :
    chainRounds th st (blocks ++ more) = chainRounds th st blocks ++ chainRounds th st' more :=
  Runs.log_append h

theorem BlockRun.blockRounds_eq {st₂ : State H} (b : BlockRun th n st block st' st₂ slots t) :
    blockRounds th st block =
      Runs.log (processAttestation slots n) (fun t a ↦ [(t, a)]) (openTally st₂)
        block.body.attestations.toList := by
  obtain ⟨st₁, h₁, h₂, -⟩ := b.header
  have hn : st₂.validators.len = n := b.opened.aligned.validators_length
  rw [Runs.log_single_eq_trace]
  simp only [blockRounds, h₁, h₂, b.slots_ok, Exec.ok_bind, Exec.pure_eq_ok, hn]

structure Tally.Same (t t' : Tally H) : Prop where
  history : t'.state.historicalBlockHashes = t.state.historicalBlockHashes
  justified : t'.state.latestJustified = t.state.latestJustified
  finalized : t'.state.latestFinalized = t.state.latestFinalized
  window : t'.state.justifiedSlots = t.state.justifiedSlots
  rows : ∀ r, t'.justifications.lookup r = t.justifications.lookup r

theorem Tally.Same.justifiedAt_eq {t t' : Tally H} (h : t.Same t') (u : ℕ) :
    justifiedAt t'.state u = justifiedAt t.state u := by
  unfold justifiedAt
  rw [h.window, h.finalized]

/-- A property of the tally and of the rounds so far that a header, a round and the passage from
one block to the next all keep. -/
structure RoundInvariant (th : TreeHash H) (n : ℕ) (P : Tally H → List (Round H) → Prop) :
    Prop where
  same : ∀ {t t' : Tally H} {l}, t.Same t' → P t l → P t' l
  header : ∀ {st st' : State H} {m l} {block : Block H}, Aligned th n st → Aligned th n st' →
    HeaderStep th n st block st' → Rows n st m → P ⟨st, m⟩ l → P ⟨st', m⟩ l
  round : ∀ {slots : Table H ℕ} {t t' : Tally H} {a l}, TallyInv th slots n t →
    Effect slots n t a t' → P t l → P t' (l ++ [(t, a)])

namespace RoundInvariant

variable {P : Tally H → List (Round H) → Prop} {l : List (Round H)}

theorem opened (hP : RoundInvariant th n P) (hw : Wellformed th n st) {st₂ : State H}
    (b : BlockRun th n st block st' st₂ slots t) (hp : P (openTally st) l) :
    P (openTally st₂) l := by
  obtain ⟨st₁, h₁, -, hstep⟩ := b.header
  have ha₁ := hw.aligned.processSlots h₁
  obtain ⟨-, rfl⟩ := processSlots_eq_ok.mp h₁
  have hsame : (openTally st).Same
      ⟨{ st with latestBlockHeader := cachedHeader th st, slot := block.slot },
        loadJustifications st⟩ := ⟨rfl, rfl, rfl, rfl, fun _ ↦ rfl⟩
  have h := hP.header ha₁ b.opened.aligned hstep ⟨hw.rows.length_eq, hw.rows.target⟩
    (hP.same hsame hp)
  unfold openTally
  rw [b.load_eq]
  exact h

theorem rounds (hP : RoundInvariant th n P) {as : List (AggregatedAttestation H)}
    (ht : TallyInv th slots n t) (hr : Runs.run (processAttestation slots n) t as = .ok t')
    (hp : P t l) :
    P t' (l ++ Runs.log (processAttestation slots n) (fun t a ↦ [(t, a)]) t as) := by
  have h := Runs.run_log_invariant (P := fun t l ↦ TallyInv th slots n t ∧ P t l)
    (fun t l a t' hi hs ↦ ⟨(hi.1.effect hs).preserves hi.1, hP.round hi.1 (hi.1.effect hs) hi.2⟩)
    ⟨ht, hp⟩ hr
  exact h.2

theorem transition (hP : RoundInvariant th n P) (hth : th.CollisionFree) (hw : Wellformed th n st)
    {block : Block H} (hs : stateTransition th st block = .ok st') (hp : P (openTally st) l) :
    P (openTally st') (l ++ blockRounds th st block) := by
  obtain ⟨st₂, slots, t, b⟩ := hw.blockRun hth hs
  have h := hP.rounds b.opened b.rounds (hP.opened hw b hp)
  rw [← b.blockRounds_eq] at h
  obtain ⟨roots, votes, rfl, -, -⟩ := b.post
  exact hP.same (show t.Same (openTally _) from ⟨rfl, rfl, rfl, rfl, b.load_post⟩) h

/-- What holds of a state before its first round holds at the end of every chain on top of it. -/
theorem chain (hP : RoundInvariant th n P) (hth : th.CollisionFree) (hw : Wellformed th n st)
    (hr : runChain th st blocks = .ok st') (hp : P (openTally st) l) :
    P (openTally st') (l ++ chainRounds th st blocks) := by
  have h := Runs.run_log_invariant (P := fun st l ↦ Wellformed th n st ∧ P (openTally st) l)
    (fun st l block st' hi hs ↦ ⟨hi.1.stateTransition hth hs, hP.transition hth hi.1 hs hi.2⟩)
    ⟨hw, hp⟩ hr
  exact h.2

/-- Every round of a chain meets the invariant, with the rounds before it as the past. -/
theorem at_round (hP : RoundInvariant th n P) (hth : th.CollisionFree) (hw : Wellformed th n st)
    (hr : runChain th st blocks = .ok st') (hp : P (openTally st) [])
    {pre post : List (Round H)} (hsplit : chainRounds th st blocks = pre ++ (t, a) :: post) :
    ∃ slots t', TallyInv th slots n t ∧ processAttestation slots n t a = .ok t' ∧
      Effect slots n t a t' ∧ P t pre := by
  obtain ⟨bs, block, rest, u, u', pre', post', rfl, hu, hu', hemit, rfl⟩ :=
    Runs.log_eq_append_cons hr hsplit
  have hwu := hw.runChain hth hu
  have hpu := hP.chain hth hw hu hp
  obtain ⟨st₂, slots, _, b⟩ := hwu.blockRun hth hu'
  rw [b.blockRounds_eq] at hemit
  obtain ⟨as, a', as', v, v', pre'', post'', -, hv, hv', hsingle, rfl⟩ :=
    Runs.log_eq_append_cons b.rounds hemit
  have hpv := hP.rounds b.opened hv (hP.opened hwu b hpu)
  have hti := b.opened.run hv
  cases pre'' with
  | nil =>
    obtain ⟨⟨rfl, rfl⟩, -⟩ : (v = t ∧ a' = a) ∧ post'' = [] := by simpa using hsingle
    rw [List.append_nil]
    exact ⟨slots, v', hti, hv', hti.effect hv', by simpa [chainRounds] using hpv⟩
  | cons x xs => simp at hsingle

end RoundInvariant

end Ethlambda.StateTransition
