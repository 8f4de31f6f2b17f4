import Ethlambda.StateTransition.Finality
import Mathlib.Algebra.Order.Floor.Div

namespace Ethlambda.StateTransition

open Ethlambda.Base Ethlambda.Types

set_option linter.unusedSectionVars false

variable {H : Type} [LinearOrder H] [Zero H] {th : TreeHash H} {st st' : State H}
  {slots : Table H ℕ} {n : ℕ} {t t' : Tally H} {a : AggregatedAttestation H} {block : Block H}
  {blocks : List (Block H)} {l : List (Round H)} {c : Checkpoint H} {v : ℕ}

theorem Wellformed.validators_pos (h : Wellformed th n st) (hne : blocks ≠ [])
    (hr : StateTransition.runChain th st blocks = .ok st') : 1 ≤ n := by
  cases blocks with
  | nil => exact absurd rfl hne
  | cons block rest =>
    obtain ⟨u, hu, -⟩ := Runs.run_cons_eq_ok.mp hr
    obtain ⟨st₁, st₂, h₁, h₂, -, -⟩ := stateTransition_eq_ok hu
    obtain ⟨-, -, hpos, -⟩ := processBlockHeader_eq_ok h₂
    obtain ⟨-, rfl⟩ := processSlots_eq_ok.mp h₁
    have hlen : st.validators.len = n := h.aligned.validators_length
    dsimp only at hpos
    omega

theorem chainRounds_ne_nil {pre post : List (Round H)} {p : Round H}
    (h : chainRounds th st blocks = pre ++ p :: post) : blocks ≠ [] := by
  rintro rfl
  simp [chainRounds] at h

/-- A validator's flag was set in an attestation that counted for exactly this link. -/
def votedLink (n : ℕ) (l : List (Round H)) (source target : Checkpoint H) (v : ℕ) : Prop :=
  ∃ p ∈ l, accepted n p = true ∧ p.2.data.source = source ∧ p.2.data.target = target ∧
    p.2.aggregationBits.get v = some true

instance {source target : Checkpoint H} : Decidable (votedLink n l source target v) :=
  inferInstanceAs (Decidable (∃ p ∈ l, _))

def linkVoters (n : ℕ) (l : List (Round H)) (source target : Checkpoint H) : Finset ℕ :=
  (Finset.range n).filter fun v ↦ votedLink n l source target v

/-- Two thirds of the validators stand behind the target of every attestation that finalizes its
source, and that attestation closes the gap between the two. -/
theorem finalization_target_supermajority {validators : List Validator} {time : UInt64}
    {g : State H} {pre post : List (Round H)} (hth : th.CollisionFree)
    (hg : State.fromGenesis th time validators = (.ok g : Result H (State H)))
    (hr : runChain th g blocks = .ok st)
    (hsplit : chainRounds th g blocks = pre ++ (t, a) :: post)
    (hs : processAttestation slots validators.length t a = .ok t')
    (hadv : t'.state.latestFinalized ≠ t.state.latestFinalized) :
    t'.state.latestFinalized = a.data.source ∧ t'.state.latestJustified = a.data.target ∧
    accepted validators.length (t, a) = true ∧
    2 * validators.length ≤
      3 * (voters validators.length (pre ++ [(t, a)]) a.data.target).card ∧
    ∀ slot, a.data.source.slot.toNat < slot → slot < a.data.target.slot.toNat →
      slotIsJustifiableAfter slot t.state.latestFinalized.slot.toNat = false := by
  obtain ⟨vs, rfl, rfl⟩ := State.fromGenesis_eq_ok hg
  have hgen := wellformed_genesis th time vs
  have hn := hgen.validators_pos (chainRounds_ne_nil hsplit) hr
  obtain ⟨known, -, ht, -, -, hl⟩ :=
    (ledger_invariant hth hn).at_round hth hgen hr (ledger_genesis th time vs) hsplit
  cases ht.effect hs with
  | skipped hv => exact absurd rfl hadv
  | touched hv hlen => exact absurd rfl hadv
  | recorded hv hlen hsuper => exact absurd rfl hadv
  | justified window hv hlen hsuper hwlen hwj hbetween => exact absurd rfl hadv
  | finalized window hv hlen hsuper hle hwlen hwj hbetween =>
    exact ⟨rfl, rfl, accepted_iff.mpr ⟨hv, hlen⟩, (hl.supermajority_iff ht hv hlen).mp hsuper,
      fun slot h₁ h₂ ↦ not_justifiable_of_justifiableBetween hbetween h₁ h₂⟩

namespace Sample

/-- One validator cites genesis, the other one the first block; together they justify the second
block. -/
def split : Block ℕ := sampleBlock second 3
  ⟨[sampleVote ⟨[true], one_le_limit⟩ sampleOrigin second,
    sampleVote ⟨[false, true], two_le_limit⟩ first second], two_le_limit⟩

def splitChain : List (Block ℕ) := [first, second, split]

end Sample

def lastRound (chain : List (Block ℕ)) :
    Option (Tally ℕ × AggregatedAttestation ℕ × Tally ℕ) := do
  let p ← (chainRounds sampleHash sampleGenesis chain).getLast?
  let slots ← (rootToSlot p.1.state).toOption
  let t' ← (processAttestation slots 3 p.1 p.2).toOption
  pure (p.1, p.2, t')

theorem exists_lastRound {chain : List (Block ℕ)} {β : Type} {b : β}
    {f : Tally ℕ × AggregatedAttestation ℕ × Tally ℕ → β} (h : (lastRound chain).map f = some b) :
    ∃ pre t a slots t', chainRounds sampleHash sampleGenesis chain = pre ++ (t, a) :: [] ∧
      rootToSlot t.state = .ok slots ∧ processAttestation slots 3 t a = .ok t' ∧
      f (t, a, t') = b := by
  obtain ⟨q, hq, hf⟩ := Option.map_eq_some_iff.mp h
  obtain ⟨⟨t, a⟩, hlast, hq⟩ := Option.bind_eq_some_iff.mp hq
  obtain ⟨slots, hslots, hq⟩ := Option.bind_eq_some_iff.mp hq
  obtain ⟨t', ht', hq⟩ := Option.bind_eq_some_iff.mp hq
  obtain rfl := Option.some.inj hq
  obtain ⟨pre, hpre⟩ := List.getLast?_eq_some_iff.mp hlast
  have hok := Exec.eq_ok_of_toOption hslots
  have hok' := Exec.eq_ok_of_toOption ht'
  exact ⟨pre, t, a, _, _, hpre, hok, hok', hf⟩

theorem finalization_target_supermajority_sample :
    ∃ pre t a, chainRounds sampleHash sampleGenesis Sample.splitChain = pre ++ (t, a) :: [] ∧
      a.data.source = sampleCheckpoint Sample.first ∧
      2 * 3 ≤ 3 * (voters 3 (pre ++ [(t, a)]) a.data.target).card := by
  have hview : (lastRound Sample.splitChain).map (fun q ↦ (q.2.1.data.source,
      q.1.state.latestFinalized.slot, q.2.2.state.latestFinalized.slot)) =
      some (sampleCheckpoint Sample.first, 0, 1) := by decide +kernel
  obtain ⟨pre, t, a, slots, t', hsplit, -, hs, hslots⟩ := exists_lastRound hview
  simp only [Prod.mk.injEq] at hslots
  obtain ⟨hsource, hbefore, hafter⟩ := hslots
  have hrun : (runChain sampleHash sampleGenesis Sample.splitChain).toOption.map
      (fun st ↦ st.slot) = some 3 := by decide +kernel
  obtain ⟨st, hst, -⟩ := Exec.exists_ok_of_map hrun
  have hadv : t'.state.latestFinalized ≠ t.state.latestFinalized := by
    intro heq
    rw [heq, hbefore] at hafter
    exact absurd hafter (by decide)
  have h := finalization_target_supermajority sampleHash_collisionFree sampleGenesis_eq hst hsplit
    hs hadv
  exact ⟨pre, t, a, hsplit, hsource, h.2.2.2.1⟩

/-- The first block is finalized although one validator alone voted for the link from it to the
second block. -/
theorem finalization_without_link :
    ∃ pre t a slots t', chainRounds sampleHash sampleGenesis Sample.splitChain =
        pre ++ (t, a) :: [] ∧
      rootToSlot t.state = .ok slots ∧ processAttestation slots 3 t a = .ok t' ∧
      t'.state.latestFinalized = a.data.source ∧ t.state.latestFinalized ≠ a.data.source ∧
      ¬2 * 3 ≤ 3 * (linkVoters 3 (chainRounds sampleHash sampleGenesis Sample.splitChain)
        a.data.source a.data.target).card := by
  have hview : (lastRound Sample.splitChain).map (fun q ↦
      (decide (q.2.2.state.latestFinalized = q.2.1.data.source),
        decide (q.1.state.latestFinalized = q.2.1.data.source),
        (linkVoters 3 (chainRounds sampleHash sampleGenesis Sample.splitChain)
          q.2.1.data.source q.2.1.data.target).card)) = some (true, false, 1) := by decide +kernel
  obtain ⟨pre, t, a, slots, t', hsplit, hslots, hs, hfacts⟩ := exists_lastRound hview
  simp only [Prod.mk.injEq, decide_eq_true_eq, decide_eq_false_iff_not] at hfacts
  obtain ⟨hafter, hbefore, hcard⟩ := hfacts
  refine ⟨pre, t, a, slots, t', hsplit, hslots, hs, hafter, hbefore, ?_⟩
  rw [hcard]
  decide

theorem Aligned.history_agree (hth : th.CollisionFree) {st₁ st₂ : State H} (h₁ : Aligned th n st₁)
    (h₂ : Aligned th n st₂) {i : ℕ} {r : H} (hr : r ≠ 0)
    (hi₁ : st₁.historicalBlockHashes.toList[i]? = some r)
    (hi₂ : st₂.historicalBlockHashes.toList[i]? = some r) :
    ∀ j ≤ i, st₁.historicalBlockHashes.toList[j]? = st₂.historicalBlockHashes.toList[j]? := by
  induction i using Nat.strong_induction_on generalizing r with
  | _ i ih =>
    intro j hj
    rcases hj.eq_or_lt with rfl | hlt
    · rw [hi₁, hi₂]
    obtain ⟨hdr, rfl, hroot, hlink₁⟩ := h₁.history_linked i r hi₁ hr
    obtain ⟨hdr', hslot, hroot', hlink₂⟩ := h₂.history_linked _ r hi₂ hr
    obtain rfl := hth.header_injective (hroot.trans hroot'.symm)
    rcases hlink₁ with hzero | ⟨p, hp, hparent, hne, hgap⟩
    · omega
    rcases hlink₂ with hzero | ⟨q, hq, hparent', -, hgap'⟩
    · omega
    -- the parent root fixes the parent's slot on both sides
    obtain ⟨par, rfl, hpar, -⟩ := h₁.history_linked p _ hparent hne
    obtain ⟨par', rfl, hpar', -⟩ := h₂.history_linked q _ hparent' hne
    obtain rfl := hth.header_injective (hpar.trans hpar'.symm)
    rcases Nat.lt_or_ge par.slot.toNat j with hpj | hpj
    · rw [hgap j hpj hlt, hgap' j hpj hlt]
    · exact ih _ hp hne hparent hparent' j hpj

theorem Wellformed.history_zero (hth : th.CollisionFree) (h : Wellformed th n st)
    (hzero : st.latestBlockHeader.slot.toNat = 0) (hne : blocks ≠ [])
    (hr : StateTransition.runChain th st blocks = .ok st') :
    st'.historicalBlockHashes.toList[0]? = some (th.header (cachedHeader th st)) := by
  cases blocks with
  | nil => exact absurd rfl hne
  | cons block rest =>
    obtain ⟨u, hu, hrest⟩ := Runs.run_cons_eq_ok.mp hr
    obtain ⟨st₂, slots, t, b⟩ := h.blockRun hth hu
    obtain ⟨st₁, h₁, -, hstep⟩ := b.header
    have hw := h.stateTransition hth hu
    obtain ⟨-, -, hhist, -⟩ := rounds_frame b.opened b.rounds
    obtain ⟨roots, votes, rfl, -, -⟩ := b.post
    obtain ⟨-, rfl⟩ := processSlots_eq_ok.mp h₁
    obtain ⟨tail, htail⟩ := (hw.runChain_extends hth hrest).history
    have hempty : st.historicalBlockHashes.toList = [] := by
      rw [← List.length_eq_zero_iff, h.aligned.history_length, hzero]
    have hopen := hstep.history_eq
    rw [← htail, show t.state.historicalBlockHashes = _ from hhist,
      show (StateTransition.openTally st₂).state = st₂ from rfl, hopen]
    simp [hempty]

/-- An attestation that counted made `source` final by justifying `target`. -/
def finalizedBy (n : ℕ) (l : List (Round H)) (source target : Checkpoint H) : Prop :=
  ∃ p ∈ l, crosses n p = true ∧ p.2.data.source = source ∧ p.2.data.target = target ∧
    justifiableBetween p.1.state.latestFinalized.slot.toNat source target = .ok false

/-- The finalized checkpoint has two thirds behind it, and a link that made it final. -/
def Backed (n : ℕ) (t : Tally H) (l : List (Round H)) : Prop :=
  t.state.latestFinalized.slot.toNat = 0 ∨
    (2 * n ≤ 3 * (voters n l t.state.latestFinalized).card ∧
      ∃ target, finalizedBy n l t.state.latestFinalized target)

/-- A later block of the chain that two thirds have voted for. -/
structure Behind (n : ℕ) (t : Tally H) (l : List (Round H)) (source target : Checkpoint H) :
    Prop where
  slot_lt : source.slot.toNat < target.slot.toNat
  root_ne : target.root ≠ 0
  history : t.state.historicalBlockHashes.toList[target.slot.toNat]? = some target.root
  votes : 2 * n ≤ 3 * (voters n l target).card

/-- Whatever was justified has two thirds behind it. -/
def Supported (n : ℕ) (t : Tally H) (l : List (Round H)) : Prop :=
  ∀ p ∈ l, crosses n p = true → Behind n t l p.2.data.source p.2.data.target

theorem card_voters_mono {l' : List (Round H)} {k : ℕ} (hsub : l ⊆ l')
    (h : k ≤ 3 * (voters n l c).card) : k ≤ 3 * (voters n l' c).card :=
  h.trans (Nat.mul_le_mul_left 3 (Finset.card_le_card (voters_mono hsub)))

theorem Backed.mono {l' : List (Round H)} (hsub : l ⊆ l')
    (hf : t'.state.latestFinalized = t.state.latestFinalized) (h : Backed n t l) :
    Backed n t' l' := by
  unfold Backed
  rw [hf]
  rcases h with hz | ⟨hs, target, ⟨p, hp, hfin⟩⟩
  · exact .inl hz
  exact .inr ⟨card_voters_mono hsub hs, target, ⟨p, hsub hp, hfin⟩⟩

theorem Behind.mono {l' : List (Round H)} {source target : Checkpoint H} (hsub : l ⊆ l')
    (hh : t.state.historicalBlockHashes.toList <+: t'.state.historicalBlockHashes.toList)
    (h : Behind n t l source target) : Behind n t' l' source target where
  slot_lt := h.slot_lt
  root_ne := h.root_ne
  history := by
    obtain ⟨rest, hrest⟩ := hh
    rw [← hrest]
    exact getElem?_append_of_some h.history
  votes := card_voters_mono hsub h.votes

/-- A round that justifies nothing. -/
theorem Supported.append (hh : t'.state.historicalBlockHashes = t.state.historicalBlockHashes)
    (h : Supported n t l)
    (hnew : crosses n (t, a) = true → Behind n t' (l ++ [(t, a)]) a.data.source a.data.target) :
    Supported n t' (l ++ [(t, a)]) := by
  intro p hp hcross
  cases List.mem_append.mp hp with
  | inl hp => exact (h p hp hcross).mono (List.subset_append_left _ _) (by rw [hh])
  | inr hp =>
    obtain rfl := List.mem_singleton.mp hp
    exact hnew hcross

/-- A source that becomes final was justified by the votes so far, or was final already. -/
theorem Backed.source (h : Backed n t l) (hl : Ledger n t l) (ht : TallyInv th slots n t)
    (hv : isValidVote t.state a.data.source a.data.target = true)
    (hle : t.state.latestFinalized.slot.toNat ≤ a.data.source.slot.toNat) :
    a.data.source.slot.toNat = 0 ∨ 2 * n ≤ 3 * (voters n l a.data.source).card := by
  obtain ⟨hj, -, -, -, hsource, -, -, -⟩ := isValidVote_iff.mp hv
  rcases hle.eq_or_lt with heq | hlt
  · have hfin := checkpoint_eq (ht.aligned.finalized_root ht.started) hsource heq
    rw [← hfin]
    exact h.imp id fun h ↦ h.1
  · exact .inr ((hl.marked a.data.source hsource hlt).mp hj)

theorem backed_invariant (hth : th.CollisionFree) (hn : 1 ≤ n) :
    RoundInvariant th n (fun t l ↦ Ledger n t l ∧ Backed n t l ∧ Supported n t l) where
  same := by
    intro t t' l hs h
    exact ⟨h.1.same hs, h.2.1.mono (List.Subset.refl l) hs.finalized, fun p hp hcross ↦
      (h.2.2 p hp hcross).mono (List.Subset.refl l) (by rw [hs.history])⟩
  header := by
    intro st st' m l block ha ha' hstep hrows h
    refine ⟨h.1.header hth hn ha ha' hstep hrows, ?_, fun p hp hcross ↦
      (h.2.2 p hp hcross).mono (List.Subset.refl l) ⟨_, hstep.history_eq.symm⟩⟩
    rcases Nat.eq_zero_or_pos st.latestFinalized.slot.toNat with hz | hpos
    · left
      dsimp only
      rw [hstep.finalized_slot]
      exact hz
    · have hfin : st'.latestFinalized = st.latestFinalized := hstep.finalized_eq (by
        have := ha.finalized_le
        omega)
      exact h.2.1.mono (List.Subset.refl l) hfin
  round := by
    intro slots t t' a l ht e h
    have hsub : l ⊆ l ++ [(t, a)] := List.subset_append_left _ _
    have hnew (hh : t'.state.historicalBlockHashes = t.state.historicalBlockHashes)
        (hcross : crosses n (t, a) = true) :
        Behind n t' (l ++ [(t, a)]) a.data.source a.data.target := by
      rw [crosses, Bool.and_eq_true] at hcross
      obtain ⟨hv, hlen⟩ := accepted_iff.mp hcross.1
      obtain ⟨-, -, -, hne, -, htarget, hst, -⟩ := isValidVote_iff.mp hv
      exact ⟨hst, hne, by rw [hh]; exact htarget,
        (h.1.supermajority_iff ht hv hlen).mp hcross.2⟩
    refine ⟨h.1.round ht e, ?_, h.2.2.append e.frame.2.2.1 (hnew e.frame.2.2.1)⟩
    cases e with
    | skipped hv => exact h.2.1.mono hsub rfl
    | touched hv hlen => exact h.2.1.mono hsub rfl
    | recorded hv hlen hsuper => exact h.2.1.mono hsub rfl
    | justified window hv hlen hsuper hwlen hwj hbetween => exact h.2.1.mono hsub rfl
    | finalized window hv hlen hsuper hle hwlen hwj hbetween =>
      have hcross : crosses n (t, a) = true := by
        rw [crosses, accepted_iff.mpr ⟨hv, hlen⟩, hsuper]
        rfl
      exact (h.2.1.source h.1 ht hv hle).imp id fun hcard ↦
        ⟨card_voters_mono hsub hcard, a.data.target, (t, a), by simp, hcross, rfl, rfl, hbetween⟩

theorem Effect.justifiedAt_mono (e : Effect slots n t a t') {u : ℕ}
    (h : justifiedAt t.state u = true) : justifiedAt t'.state u = true := by
  cases e with
  | skipped hv => exact h
  | touched hv hlen => exact h
  | recorded hv hlen hsuper => exact h
  | justified window hv hlen hsuper hwlen hwj hbetween => simp [justifiedAt, hwj]; exact .inr h
  | finalized window hv hlen hsuper hle hwlen hwj hbetween => simp [justifiedAt, hwj]; exact .inr h

/-- Nothing at or above `bound` is justified and every vote so far comes from below it. -/
def Below (n bound : ℕ) (t : Tally H) (l : List (Round H)) : Prop :=
  (∀ u, bound ≤ u → justifiedAt t.state u = false) ∧
    ∀ p ∈ l, accepted n p = true → p.2.data.source.slot.toNat < bound

/-- The first checkpoint that was justified at or above `bound`: two thirds voted for it, all from
sources below `bound`. -/
def Reached (n bound : ℕ) (t : Tally H) (l : List (Round H)) : Prop :=
  ∃ c : Checkpoint H, bound ≤ c.slot.toNat ∧ c.root ≠ 0 ∧
    t.state.historicalBlockHashes.toList[c.slot.toNat]? = some c.root ∧
    justifiedAt t.state c.slot.toNat = true ∧ 2 * n ≤ 3 * (voters n l c).card ∧
    ∀ p ∈ l, accepted n p = true → p.2.data.target = c → p.2.data.source.slot.toNat < bound

theorem Reached.round {bound : ℕ} (h : Reached n bound t l) (e : Effect slots n t a t') :
    Reached n bound t' (l ++ [(t, a)]) := by
  obtain ⟨c, hc, hne, hhist, hj, hcard, hvotes⟩ := h
  refine ⟨c, hc, hne, ?_, e.justifiedAt_mono hj,
    card_voters_mono (List.subset_append_left _ _) hcard, ?_⟩
  · rw [e.frame.2.2.1]
    exact hhist
  · intro p hp hacc htarget
    rcases List.mem_append.mp hp with hp | hp
    · exact hvotes p hp hacc htarget
    · -- a justified slot takes no further votes
      obtain rfl := List.mem_singleton.mp hp
      obtain ⟨-, hnot, -⟩ := isValidVote_iff.mp (accepted_iff.mp hacc).1
      rw [show a.data.target = c from htarget, hj] at hnot
      exact nomatch hnot

theorem Below.source_lt {bound : ℕ} (h : Below n bound t l) {p : Round H}
    (hp : p ∈ l ++ [(t, a)]) (hacc : accepted n p = true) :
    p.2.data.source.slot.toNat < bound := by
  rcases List.mem_append.mp hp with hp | hp
  · exact h.2 p hp hacc
  · obtain rfl := List.mem_singleton.mp hp
    obtain ⟨hj, -⟩ := isValidVote_iff.mp (accepted_iff.mp hacc).1
    by_contra hge
    rw [h.1 _ (Nat.not_lt.mp hge)] at hj
    exact nomatch hj

theorem Below.crossing {bound : ℕ} (h : Below n bound t l) (hl : Ledger n t l)
    (ht : TallyInv th slots n t) (hv : isValidVote t.state a.data.source a.data.target = true)
    (hlen : a.aggregationBits.len ≤ n)
    (hsuper : supermajority ((countedRow n t a).count true) n = true)
    (hhist : t'.state.historicalBlockHashes = t.state.historicalBlockHashes)
    (hnew : justifiedAt t'.state a.data.target.slot.toNat = true)
    (hmarked : ∀ u, justifiedAt t'.state u = true → u ≤ a.data.source.slot.toNat ∨
      u = a.data.target.slot.toNat ∨ justifiedAt t.state u = true) :
    Below n bound t' (l ++ [(t, a)]) ∨ Reached n bound t' (l ++ [(t, a)]) := by
  obtain ⟨-, -, -, hne, -, htarget, -, -⟩ := isValidVote_iff.mp hv
  have hsource := h.source_lt (List.mem_append_right l List.mem_cons_self)
    (accepted_iff.mpr ⟨hv, hlen⟩)
  rcases Nat.lt_or_ge a.data.target.slot.toNat bound with hlt | hge
  · refine .inl ⟨fun u hu ↦ ?_, fun p hp hacc ↦ h.source_lt hp hacc⟩
    by_contra hj
    rcases hmarked u (Bool.not_eq_false _ ▸ hj) with h₁ | h₁ | h₁
    · dsimp only at hsource
      omega
    · omega
    · rw [h.1 u hu] at h₁
      exact nomatch h₁
  · exact .inr ⟨a.data.target, hge, hne, by rw [hhist]; exact htarget, hnew,
      (hl.supermajority_iff ht hv hlen).mp hsuper, fun p hp hacc _ ↦ h.source_lt hp hacc⟩

theorem reached_invariant (hth : th.CollisionFree) (hn : 1 ≤ n) (bound : ℕ) :
    RoundInvariant th n (fun t l ↦ Ledger n t l ∧ (Below n bound t l ∨ Reached n bound t l)) where
  same := by
    intro t t' l hs h
    have hj := hs.justifiedAt_eq
    refine ⟨h.1.same hs, h.2.imp (fun hb ↦ ⟨fun u hu ↦ ?_, hb.2⟩) ?_⟩
    · rw [hj]
      exact hb.1 u hu
    · unfold Reached
      simp only [hj, hs.history]
      exact id
  header := by
    intro st st' m l block ha ha' hstep hrows h
    refine ⟨h.1.header hth hn ha ha' hstep hrows, h.2.imp (fun hb ↦ ⟨fun u hu ↦ ?_, hb.2⟩) ?_⟩
    · rw [show justifiedAt _ u = justifiedAt st u from hstep.justifiedAt_eq u]
      exact hb.1 u hu
    · rintro ⟨c, hc, hne, hhist, hj, hrest⟩
      refine ⟨c, hc, hne, ?_, (hstep.justifiedAt_eq _).trans hj, hrest⟩
      rw [hstep.history_eq]
      exact getElem?_append_of_some hhist
  round := by
    intro slots t t' a l ht e h
    refine ⟨h.1.round ht e, ?_⟩
    rcases h.2 with hb | hr
    · cases e with
      | skipped hv => exact .inl ⟨hb.1, fun p hp hacc ↦ hb.source_lt hp hacc⟩
      | touched hv hlen => exact .inl ⟨hb.1, fun p hp hacc ↦ hb.source_lt hp hacc⟩
      | recorded hv hlen hsuper => exact .inl ⟨hb.1, fun p hp hacc ↦ hb.source_lt hp hacc⟩
      | justified window hv hlen hsuper hwlen hwj hbetween =>
        refine hb.crossing h.1 ht hv hlen hsuper rfl (by simp [justifiedAt, hwj]) fun u hu ↦ ?_
        simp only [justifiedAt, hwj, Bool.or_eq_true, decide_eq_true_eq] at hu
        exact .inr hu
      | finalized window hv hlen hsuper hle hwlen hwj hbetween =>
        refine hb.crossing h.1 ht hv hlen hsuper rfl (by simp [justifiedAt, hwj]) fun u hu ↦ ?_
        simp only [justifiedAt, hwj, Bool.or_eq_true, decide_eq_true_eq, or_assoc] at hu
        exact hu
    · exact .inr (hr.round e)

def included (blocks : List (Block H)) : List (AggregatedAttestation H) :=
  blocks.flatMap fun b ↦ b.body.attestations.toList

theorem mem_included_of_mem_chainRounds {p : Round H} (h : p ∈ chainRounds th st blocks) :
    p.2 ∈ included blocks := by
  obtain ⟨u, block, hb, hp⟩ := Runs.exists_emit_of_mem_log h
  refine List.mem_flatMap.mpr ⟨block, hb, ?_⟩
  unfold blockRounds at hp
  dsimp only at hp
  split at hp
  · exact Runs.mem_of_mem_trace hp
  · exact absurd hp List.not_mem_nil

def doubleVote (a b : AggregatedAttestation H) : Prop :=
  a.data.target.slot = b.data.target.slot ∧ a.data.target.root ≠ b.data.target.root

def surroundVote (a b : AggregatedAttestation H) : Prop :=
  a.data.source.slot < b.data.source.slot ∧ b.data.source.slot < b.data.target.slot ∧
    b.data.target.slot < a.data.target.slot

instance {a b : AggregatedAttestation H} : Decidable (doubleVote a b) :=
  inferInstanceAs (Decidable (_ ∧ _))

instance {a b : AggregatedAttestation H} : Decidable (surroundVote a b) :=
  inferInstanceAs (Decidable (_ ∧ _ ∧ _))

/-- Among the attestations that carry the validator's flag there is a slashable pair. -/
def slashable (as : List (AggregatedAttestation H)) (v : ℕ) : Prop :=
  ∃ a ∈ as, ∃ b ∈ as, a.aggregationBits.get v = some true ∧ b.aggregationBits.get v = some true ∧
    (doubleVote a b ∨ surroundVote a b)

instance {as : List (AggregatedAttestation H)} : Decidable (slashable as v) :=
  inferInstanceAs (Decidable (∃ a ∈ as, ∃ b ∈ as, _))

/-- The validator's vote counted for the target although it came from a source below `bound`. -/
def votedFromBelow (n : ℕ) (l : List (Round H)) (target : Checkpoint H) (bound : UInt64) (v : ℕ) :
    Prop :=
  ∃ p ∈ l, accepted n p = true ∧ p.2.data.target = target ∧ p.2.data.source.slot < bound ∧
    p.2.aggregationBits.get v = some true

instance {target : Checkpoint H} {bound : UInt64} :
    Decidable (votedFromBelow n l target bound v) :=
  inferInstanceAs (Decidable (∃ p ∈ l, _))

section Conflict

variable {l₁ l₂ : List (Round H)} {as : List (AggregatedAttestation H)} {c₁ c₂ : Checkpoint H}

theorem slashable_of_doubleVote (h₁ : ∀ p ∈ l₁, p.2 ∈ as) (h₂ : ∀ p ∈ l₂, p.2 ∈ as)
    (hslot : c₁.slot = c₂.slot) (hroot : c₁.root ≠ c₂.root) (hv₁ : v ∈ voters n l₁ c₁)
    (hv₂ : v ∈ voters n l₂ c₂) : slashable as v := by
  obtain ⟨-, p, hp, -, rfl, hbit⟩ := mem_voters.mp hv₁
  obtain ⟨-, q, hq, -, rfl, hbit'⟩ := mem_voters.mp hv₂
  exact ⟨p.2, h₁ p hp, q.2, h₂ q hq, hbit, hbit', .inl ⟨hslot, hroot⟩⟩

/-- A voter for a later checkpoint from below `bound` surrounds its own vote for an earlier one,
unless that one too came from below `bound`. -/
theorem slashable_of_surroundVote {bound : UInt64} (h₁ : ∀ p ∈ l₁, p.2 ∈ as)
    (h₂ : ∀ p ∈ l₂, p.2 ∈ as) (hslot : c₁.slot < c₂.slot) (hv₁ : v ∈ voters n l₁ c₁)
    (hv₂ : v ∈ voters n l₂ c₂)
    (hbelow : ∀ p ∈ l₂, accepted n p = true → p.2.data.target = c₂ →
      p.2.data.source.slot.toNat < bound.toNat) :
    slashable as v ∨ votedFromBelow n l₁ c₁ bound v := by
  obtain ⟨-, p, hp, hacc, rfl, hbit⟩ := mem_voters.mp hv₁
  obtain ⟨-, q, hq, hacc', rfl, hbit'⟩ := mem_voters.mp hv₂
  have hq' : q.2.data.source.slot < bound := UInt64.lt_iff_toNat_lt.mpr (hbelow q hq hacc' rfl)
  rcases UInt64.lt_or_le p.2.data.source.slot bound with hlt | hge
  · exact .inr ⟨p, hp, hacc, rfl, hlt, hbit⟩
  · have hst : p.2.data.source.slot < p.2.data.target.slot := by
      obtain ⟨-, -, -, -, -, -, hst, -⟩ := isValidVote_iff.mp (accepted_iff.mp hacc).1
      exact UInt64.lt_iff_toNat_lt.mpr hst
    exact .inl ⟨q.2, h₂ q hq, p.2, h₁ p hp, hbit', hbit,
      .inr ⟨UInt64.lt_of_lt_of_le hq' hge, hst, hslot⟩⟩

theorem card_filter_ge {P : ℕ → Prop} [DecidablePred P] {A B : Finset ℕ}
    (hA : A ⊆ Finset.range n) (hB : B ⊆ Finset.range n) (ha : 2 * n ≤ 3 * A.card)
    (hb : 2 * n ≤ 3 * B.card) (hP : ∀ v ∈ A, v ∈ B → P v) :
    n ⌈/⌉ 3 ≤ ((Finset.range n).filter P).card := by
  rw [ceilDiv_le_iff_le_mul (by decide)]
  refine (third_le_card_inter hA hB ha hb).trans (Nat.mul_le_mul_left 3 (Finset.card_le_card ?_))
  intro v hv
  obtain ⟨hvA, hvB⟩ := Finset.mem_inter.mp hv
  exact Finset.mem_filter.mpr ⟨hA hvA, hP v hvA hvB⟩

end Conflict

theorem exists_backing {time : UInt64} {vs : VariableList Validator validatorRegistryLimit}
    (hth : th.CollisionFree) (hne : blocks ≠ [])
    (hr : runChain th (genesisState th time vs) blocks = .ok st)
    (hpos : st.latestFinalized.slot.toNat ≠ 0) :
    2 * vs.toList.length ≤ 3 * (voters vs.toList.length
        (chainRounds th (genesisState th time vs) blocks) st.latestFinalized).card ∧
      (∃ target, finalizedBy vs.toList.length (chainRounds th (genesisState th time vs) blocks)
        st.latestFinalized target) ∧
      ∀ target, finalizedBy vs.toList.length (chainRounds th (genesisState th time vs) blocks)
          st.latestFinalized target →
        Behind vs.toList.length (openTally st) (chainRounds th (genesisState th time vs) blocks)
          st.latestFinalized target := by
  have hgen := wellformed_genesis th time vs
  have hn := hgen.validators_pos hne hr
  have h := (backed_invariant hth hn).chain hth hgen hr
    ⟨ledger_genesis th time vs, .inl rfl, fun p hp ↦ absurd hp List.not_mem_nil⟩
  obtain ⟨hcard, hlink⟩ := h.2.1.resolve_left hpos
  refine ⟨hcard, hlink, ?_⟩
  rintro target ⟨p, hp, hcross, hsource, htarget, -⟩
  have hbehind := h.2.2 p hp hcross
  rw [hsource, htarget] at hbehind
  exact hbehind

/-- A chain that has finalized a slot at or above `bound` justified a first checkpoint there, on
votes that all come from below `bound`. -/
theorem exists_reached {time : UInt64} {vs : VariableList Validator validatorRegistryLimit}
    {bound : ℕ} (hth : th.CollisionFree) (hne : blocks ≠ [])
    (hr : runChain th (genesisState th time vs) blocks = .ok st) (hbound : 0 < bound)
    (hle : bound ≤ st.latestFinalized.slot.toNat) :
    Reached vs.toList.length bound (openTally st)
      (chainRounds th (genesisState th time vs) blocks) := by
  have hgen := wellformed_genesis th time vs
  have hn := hgen.validators_pos hne hr
  have hstart : Below vs.toList.length bound (openTally (genesisState th time vs)) [] := by
    refine ⟨fun u hu ↦ ?_, fun p hp ↦ absurd hp List.not_mem_nil⟩
    exact hgen.aligned.not_justifiedAt_of_le (Nat.zero_le u) (show 0 < u by omega)
  have h := (reached_invariant hth hn bound).chain hth hgen hr
    ⟨ledger_genesis th time vs, .inl hstart⟩
  refine h.2.resolve_left fun hb ↦ ?_
  have hnot := hb.1 _ hle
  rw [show justifiedAt (openTally st).state st.latestFinalized.slot.toNat = true from
    isSlotJustified_of_le le_rfl] at hnot
  exact nomatch hnot

/-- Two chains finalize conflicting checkpoints only if a third of the validators made a slashable
pair of votes or voted for the finalizing target from below the finalized checkpoint, or if the
second chain justified a slot between the two ends of the finalizing link. There is a finalizing
target, and this holds of every one. -/
theorem conflicting_finality_accountable {validators : List Validator} {time : UInt64}
    {g st₁ st₂ : State H} {blocks₁ blocks₂ : List (Block H)} (hth : th.CollisionFree)
    (hg : State.fromGenesis th time validators = (.ok g : Result H (State H)))
    (hne₁ : blocks₁ ≠ []) (hne₂ : blocks₂ ≠ []) (h₁ : runChain th g blocks₁ = .ok st₁)
    (h₂ : runChain th g blocks₂ = .ok st₂)
    (hle : st₁.latestFinalized.slot ≤ st₂.latestFinalized.slot)
    (hconf : st₂.historicalBlockHashes.get st₁.latestFinalized.slot.toNat ≠
      some st₁.latestFinalized.root) :
    (∃ target,
      finalizedBy validators.length (chainRounds th g blocks₁) st₁.latestFinalized target) ∧
    ∀ target,
      finalizedBy validators.length (chainRounds th g blocks₁) st₁.latestFinalized target →
      validators.length ⌈/⌉ 3 ≤ ((Finset.range validators.length).filter fun v ↦
          slashable (included blocks₁ ++ included blocks₂) v ∨
            votedFromBelow validators.length (chainRounds th g blocks₁) target
              st₁.latestFinalized.slot v).card ∨
        ∃ between : Checkpoint H, st₁.latestFinalized.slot < between.slot ∧
          between.slot < target.slot ∧
          2 * validators.length ≤
            3 * (voters validators.length (chainRounds th g blocks₂) between).card := by
  obtain ⟨vs, rfl, rfl⟩ := State.fromGenesis_eq_ok hg
  have hgen := wellformed_genesis th time vs
  have hw₁ := hgen.runChain hth h₁
  have hw₂ := hgen.runChain hth h₂
  have hle' : st₁.latestFinalized.slot.toNat ≤ st₂.latestFinalized.slot.toNat :=
    UInt64.le_iff_toNat_le.mp hle
  have hroot := hw₁.aligned.finalized_root (hgen.started hth hne₁ h₁)
  have hpos : st₁.latestFinalized.slot.toNat ≠ 0 := by
    intro hz
    rw [hz, hgen.history_zero hth rfl hne₁ h₁] at hroot
    rw [hz, VariableList.get, hgen.history_zero hth rfl hne₂ h₂] at hconf
    exact hconf hroot
  obtain ⟨hsource, hlink, hbehind⟩ := exists_backing hth hne₁ h₁ hpos
  obtain ⟨c, hc, hcne, hchist, -, hcard, hbelow⟩ :=
    exists_reached hth hne₂ h₂ (Nat.pos_of_ne_zero hpos) hle'
  have hin₁ : ∀ p ∈ chainRounds th (genesisState th time vs) blocks₁,
      p.2 ∈ included blocks₁ ++ included blocks₂ :=
    fun p hp ↦ List.mem_append_left _ (mem_included_of_mem_chainRounds hp)
  have hin₂ : ∀ p ∈ chainRounds th (genesisState th time vs) blocks₂,
      p.2 ∈ included blocks₁ ++ included blocks₂ :=
    fun p hp ↦ List.mem_append_right _ (mem_included_of_mem_chainRounds hp)
  refine ⟨hlink, fun target hfin ↦ ?_⟩
  obtain ⟨hlt, htne, hhist, htarget⟩ := hbehind target hfin
  rcases hc.eq_or_lt with heq | hgt
  · -- the second chain justified another block of the finalized slot
    refine .inl (card_filter_ge voters_subset_range voters_subset_range hsource hcard
      fun v hv₁ hv₂ ↦ .inl (slashable_of_doubleVote hin₁ hin₂ (UInt64.toNat_inj.mp heq) ?_ hv₁ hv₂))
    intro hsame
    apply hconf
    rw [VariableList.get, heq, hsame]
    exact hchist
  rcases lt_trichotomy c.slot.toNat target.slot.toNat with hct | hct | hct
  · exact .inr ⟨c, UInt64.lt_iff_toNat_lt.mpr hgt, UInt64.lt_iff_toNat_lt.mpr hct, hcard⟩
  · -- one root at the target's slot would put the finalized block on both chains
    refine .inl (card_filter_ge voters_subset_range voters_subset_range htarget hcard
      fun v hv₁ hv₂ ↦
        .inl (slashable_of_doubleVote hin₁ hin₂ (UInt64.toNat_inj.mp hct.symm) ?_ hv₁ hv₂))
    intro hsame
    apply hconf
    have hchist' : st₂.historicalBlockHashes.toList[target.slot.toNat]? = some target.root := by
      rw [← hct, hsame]
      exact hchist
    have hagree := hw₁.aligned.history_agree hth hw₂.aligned htne hhist hchist' _ hlt.le
    rw [VariableList.get, ← hagree]
    exact hroot
  · exact .inl (card_filter_ge voters_subset_range voters_subset_range htarget hcard
      fun v hv₁ hv₂ ↦
        slashable_of_surroundVote hin₁ hin₂ (UInt64.lt_iff_toNat_lt.mpr hct) hv₁ hv₂ hbelow)

namespace Sample

def rivalThird : Block ℕ := sampleBlock sampleOrigin 3 .empty

def rivalFourth : Block ℕ := sampleBlock rivalThird 4
  ⟨[sampleVote ⟨[true, false, true], three_le_limit⟩ sampleOrigin rivalThird], one_le_limit⟩

def rivalFifth : Block ℕ := sampleBlock rivalFourth 5
  ⟨[sampleVote ⟨[true, false, true], three_le_limit⟩ rivalThird rivalFourth], one_le_limit⟩

/-- A fork of `splitChain` that leaves out its first two blocks and finalizes slot 3. -/
def rivalChain : List (Block ℕ) := [rivalThird, rivalFourth, rivalFifth]

def sixth : Block ℕ := sampleBlock first 6
  ⟨[sampleVote ⟨[true, true], two_le_limit⟩ sampleOrigin first], one_le_limit⟩

def ninth : Block ℕ := sampleBlock sixth 9
  ⟨[sampleVote ⟨[true, true], two_le_limit⟩ first sixth], one_le_limit⟩

def tenth : Block ℕ := sampleBlock ninth 10
  ⟨[sampleVote ⟨[true, true], two_le_limit⟩ sixth ninth], one_le_limit⟩

/-- Slots 7 and 8 are no candidates after slot 0, so the link from 6 to 9 finalizes slot 6. -/
def wideChain : List (Block ℕ) := [first, sixth, ninth, tenth]

def seventh : Block ℕ := sampleBlock second 7
  ⟨[sampleVote ⟨[true, false, true], three_le_limit⟩ first second], one_le_limit⟩

def wideTenth : Block ℕ := sampleBlock seventh 10
  ⟨[sampleVote ⟨[true, false, true], three_le_limit⟩ second seventh], one_le_limit⟩

def wideEleventh : Block ℕ := sampleBlock wideTenth 11
  ⟨[sampleVote ⟨[true, false, true], three_le_limit⟩ seventh wideTenth], one_le_limit⟩

/-- A fork of `wideChain` that finalizes slot 1, after which slot 7 is a candidate. -/
def wideRival : List (Block ℕ) := [first, second, seventh, wideTenth, wideEleventh]

end Sample

/-- What a reader of two sample chains sees: the finalized checkpoint of the first, the finalized
slot of the second, and what the second has in the place of the first one's checkpoint. -/
def conflictView (blocks₁ blocks₂ : List (Block ℕ)) :
    Result ℕ (Checkpoint ℕ × UInt64 × Option ℕ) := do
  let st₁ ← runChain sampleHash sampleGenesis blocks₁
  let st₂ ← runChain sampleHash sampleGenesis blocks₂
  pure (st₁.latestFinalized, st₂.latestFinalized.slot,
    st₂.historicalBlockHashes.get st₁.latestFinalized.slot.toNat)

theorem exists_conflict {blocks₁ blocks₂ : List (Block ℕ)} {c : Checkpoint ℕ} {slot : UInt64}
    {root : Option ℕ} (h : conflictView blocks₁ blocks₂ = .ok (c, slot, root)) (hle : c.slot ≤ slot)
    (hne : root ≠ some c.root) :
    ∃ st₁ st₂, runChain sampleHash sampleGenesis blocks₁ = .ok st₁ ∧
      runChain sampleHash sampleGenesis blocks₂ = .ok st₂ ∧
      st₁.latestFinalized.slot ≤ st₂.latestFinalized.slot ∧
      st₂.historicalBlockHashes.get st₁.latestFinalized.slot.toNat ≠
        some st₁.latestFinalized.root := by
  obtain ⟨st₁, h₁, h⟩ := Exec.bind_eq_ok.mp h
  obtain ⟨st₂, h₂, h⟩ := Exec.bind_eq_ok.mp h
  have hview := Except.ok.inj h
  simp only [Prod.mk.injEq] at hview
  obtain ⟨rfl, rfl, rfl⟩ := hview
  exact ⟨st₁, st₂, h₁, h₂, hle, hne⟩

theorem splitChain_conflict :
    conflictView Sample.splitChain Sample.rivalChain =
      .ok (sampleCheckpoint Sample.first, 3, some 0) := by
  have h : (conflictView Sample.splitChain Sample.rivalChain).toOption =
      some (sampleCheckpoint Sample.first, 3, some 0) := by decide +kernel
  exact Exec.eq_ok_of_toOption h

theorem wideChain_conflict :
    conflictView Sample.wideChain Sample.wideRival =
      .ok (sampleCheckpoint Sample.sixth, 7, some 0) := by
  have h : (conflictView Sample.wideChain Sample.wideRival).toOption =
      some (sampleCheckpoint Sample.sixth, 7, some 0) := by decide +kernel
  exact Exec.eq_ok_of_toOption h

theorem conflicting_finality_accountable_sample :
    ∃ st₁ target, runChain sampleHash sampleGenesis Sample.splitChain = .ok st₁ ∧
      finalizedBy 3 (chainRounds sampleHash sampleGenesis Sample.splitChain)
        st₁.latestFinalized target ∧
      (3 ⌈/⌉ 3 ≤ ((Finset.range 3).filter fun v ↦
          slashable (included Sample.splitChain ++ included Sample.rivalChain) v ∨
            votedFromBelow 3 (chainRounds sampleHash sampleGenesis Sample.splitChain) target
              st₁.latestFinalized.slot v).card ∨
        ∃ between : Checkpoint ℕ, st₁.latestFinalized.slot < between.slot ∧
          between.slot < target.slot ∧
          2 * 3 ≤ 3 * (voters 3 (chainRounds sampleHash sampleGenesis Sample.rivalChain)
            between).card) := by
  obtain ⟨st₁, st₂, h₁, h₂, hle, hne⟩ := exists_conflict splitChain_conflict (by decide) (by decide)
  obtain ⟨⟨target, hfin⟩, hall⟩ := conflicting_finality_accountable sampleHash_collisionFree
    sampleGenesis_eq (List.cons_ne_nil _ _) (List.cons_ne_nil _ _) h₁ h₂ hle hne
  exact ⟨st₁, target, h₁, hfin, hall target hfin⟩

/-- Two pairs of chains finalize conflicting blocks without a single slashable validator. In the
first pair a vote for the finalizing target cites an older source; in the second one every vote
cites the finalized block, and the fork justifies a slot that is no candidate on the first chain. -/
theorem conflicting_finality_without_slashing :
    (∃ st₁ st₂, runChain sampleHash sampleGenesis Sample.splitChain = .ok st₁ ∧
      runChain sampleHash sampleGenesis Sample.rivalChain = .ok st₂ ∧
      st₁.latestFinalized.slot ≤ st₂.latestFinalized.slot ∧
      st₂.historicalBlockHashes.get st₁.latestFinalized.slot.toNat ≠
        some st₁.latestFinalized.root) ∧
    ¬3 ⌈/⌉ 3 ≤ ((Finset.range 3).filter fun v ↦
      slashable (included Sample.splitChain ++ included Sample.rivalChain) v).card ∧
    (∃ st₁ st₂, runChain sampleHash sampleGenesis Sample.wideChain = .ok st₁ ∧
      runChain sampleHash sampleGenesis Sample.wideRival = .ok st₂ ∧
      st₁.latestFinalized.slot ≤ st₂.latestFinalized.slot ∧
      st₂.historicalBlockHashes.get st₁.latestFinalized.slot.toNat ≠
        some st₁.latestFinalized.root) ∧
    ¬3 ⌈/⌉ 3 ≤ ((Finset.range 3).filter fun v ↦
      slashable (included Sample.wideChain ++ included Sample.wideRival) v).card := by
  refine ⟨exists_conflict splitChain_conflict (by decide) (by decide), by decide +kernel,
    exists_conflict wideChain_conflict (by decide) (by decide), by decide +kernel⟩

end Ethlambda.StateTransition
