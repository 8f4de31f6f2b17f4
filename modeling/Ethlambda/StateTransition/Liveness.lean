import Ethlambda.StateTransition.Acceptance
import Ethlambda.StateTransition.Accountable
import Ethlambda.StateTransition.Checkpoints
import Ethlambda.StateTransition.Justifiable

namespace Ethlambda.StateTransition

open Ethlambda.Base Ethlambda.Types

set_option linter.unusedSectionVars false

variable {H : Type} [LinearOrder H] [Zero H] {th : TreeHash H} {st st' : State H}
  {slots : Table H ℕ} {n : ℕ} {t t' : Tally H} {a : AggregatedAttestation H} {block : Block H}
  {l : List (Round H)}

/-- Two votes that one validator may cast. -/
def compatible (a b : AggregatedAttestation H) : Prop :=
  ¬doubleVote a b ∧ ¬surroundVote a b ∧ ¬surroundVote b a

instance {a b : AggregatedAttestation H} : Decidable (compatible a b) :=
  inferInstanceAs (Decidable (_ ∧ _ ∧ _))

theorem compatible.symm {a b : AggregatedAttestation H} (h : compatible a b) : compatible b a :=
  ⟨fun hd ↦ h.1 ⟨hd.1.symm, Ne.symm hd.2⟩, h.2.2, h.2.1⟩

theorem compatible_self (a : AggregatedAttestation H) : compatible a a := by
  refine ⟨fun hd ↦ hd.2 rfl, fun hs ↦ ?_, fun hs ↦ ?_⟩
  · exact Nat.lt_irrefl _ (UInt64.lt_iff_toNat_lt.mp hs.1)
  · exact Nat.lt_irrefl _ (UInt64.lt_iff_toNat_lt.mp hs.1)

/-- The second vote goes to a later target, from no earlier source. -/
structure Before (a b : AggregatedAttestation H) : Prop where
  target : a.data.target.slot.toNat < b.data.target.slot.toNat
  source : a.data.source.slot.toNat ≤ b.data.source.slot.toNat

theorem Before.compatible {a b : AggregatedAttestation H} (h : Before a b) : compatible a b := by
  refine ⟨fun hd ↦ ?_, fun hs ↦ ?_, fun hs ↦ ?_⟩
  · have hlt := h.target
    rw [hd.1] at hlt
    exact Nat.lt_irrefl _ hlt
  · exact Nat.lt_asymm h.target (UInt64.lt_iff_toNat_lt.mp hs.2.2)
  · exact Nat.not_lt.mpr h.source (UInt64.lt_iff_toNat_lt.mp hs.1)

theorem compatible_of_before {as old : List (AggregatedAttestation H)} (has : as.Pairwise Before)
    (hold : ∀ a ∈ as, ∀ b ∈ old, Before b a) : ∀ a ∈ as, ∀ b ∈ as ++ old, compatible a b := by
  intro a ha b hb
  rcases List.mem_append.mp hb with hb | hb
  · exact (has.imp Before.compatible).forall_of_forall_of_flip (fun a _ ↦ compatible_self a)
      (has.imp fun h ↦ h.compatible.symm) ha hb
  · exact (hold a ha b hb).compatible.symm

/-- The attestations that counted. -/
def countedVotes (n : ℕ) (l : List (Round H)) : List (AggregatedAttestation H) :=
  (l.filter (accepted n)).map Prod.snd

theorem mem_countedVotes : a ∈ countedVotes n l ↔ ∃ t, (t, a) ∈ l ∧ accepted n (t, a) = true := by
  simp [countedVotes]

theorem JustifiableDistance.exists_after {f s : ℕ} (hf : f ≤ s) (hs : s < 2 ^ 61) :
    ∃ u, s < u ∧ u ≤ s + s.sqrt + 1 ∧ slotIsJustifiableAfter u f = true := by
  have hroot := Nat.sqrt_le_self (s - f)
  obtain ⟨d, hd, hle, hj⟩ := JustifiableDistance.exists_next (d := s - f) (by omega)
  have hmono : (s - f).sqrt ≤ s.sqrt := Nat.sqrt_le_sqrt (Nat.sub_le s f)
  refine ⟨f + d, by omega, by omega, (slotIsJustifiableAfter_iff _ _).mpr ⟨by omega, ?_⟩⟩
  rwa [Nat.add_sub_cancel_left]

theorem Consecutive.exists_after {f s : ℕ} (hs : slotIsJustifiableAfter s f = true)
    (hsmall : s < 2 ^ 61) : ∃ u, u ≤ s + s.sqrt + 1 ∧ Consecutive f s u := by
  obtain ⟨u, hu, hle, hj⟩ :=
    JustifiableDistance.exists_after ((slotIsJustifiableAfter_iff s f).mp hs).1 hsmall
  have hex : ∃ v, s < v ∧ slotIsJustifiableAfter v f = true := ⟨u, hu, hj⟩
  obtain ⟨hlt, hfirst⟩ := Nat.find_spec hex
  refine ⟨Nat.find hex, (Nat.find_min' hex ⟨hu, hj⟩).trans hle, hs, hfirst, hlt, ?_⟩
  intro v hsv hv
  by_contra hyes
  exact Nat.find_min hex hv ⟨hsv, by simpa using hyes⟩

/-- Every justified slot above the finalized one has a block, and every vote that counted cites a
justified slot and has its target in the history. -/
structure Occupied (n : ℕ) (t : Tally H) (l : List (Round H)) : Prop where
  block : ∀ u, t.state.latestFinalized.slot.toNat < u → justifiedAt t.state u = true →
    ∃ r, r ≠ 0 ∧ t.state.historicalBlockHashes.toList[u]? = some r
  source : ∀ p ∈ l, accepted n p = true → justifiedAt t.state p.2.data.source.slot.toNat = true
  target : ∀ p ∈ l, accepted n p = true →
    p.2.data.target.slot.toNat < t.state.historicalBlockHashes.toList.length

theorem Effect.occupied (e : Effect slots n t a t') (h : Occupied n t l) : Occupied n t' (l ++ [(t, a)]) := by
  constructor
  case block =>
    cases e with
    | skipped hv => exact h.block
    | touched hv hlen => exact h.block
    | recorded hv hlen hsuper => exact h.block
    | justified window hv hlen hsuper hwlen hwj hbetween =>
      intro u hf hj
      obtain ⟨-, -, -, hne, -, htarget, -⟩ := isValidVote_iff.mp hv
      simp only [justifiedAt, hwj, Bool.or_eq_true, decide_eq_true_eq] at hj
      rcases hj with rfl | hj
      · exact ⟨_, hne, htarget⟩
      · exact h.block u hf hj
    | finalized window hv hlen hsuper hle hwlen hwj hbetween =>
      intro u hf hj
      obtain ⟨-, -, -, hne, -, htarget, -⟩ := isValidVote_iff.mp hv
      simp only [justifiedAt, hwj, Bool.or_eq_true, decide_eq_true_eq] at hj
      rcases hj with (hj | rfl) | hj
      · exact absurd hf (Nat.not_lt.mpr hj)
      · exact ⟨_, hne, htarget⟩
      · exact h.block u (hle.trans_lt hf) hj
  case source =>
    intro p hp hacc
    refine e.justifiedAt_mono ?_
    rcases List.mem_append.mp hp with hp | hp
    · exact h.source p hp hacc
    · obtain rfl := List.mem_singleton.mp hp
      exact (isValidVote_iff.mp (accepted_iff.mp hacc).1).1
  case target =>
    intro p hp hacc
    rw [e.frame.2.2.1]
    rcases List.mem_append.mp hp with hp | hp
    · exact h.target p hp hacc
    · obtain rfl := List.mem_singleton.mp hp
      obtain ⟨-, -, -, -, -, htarget, -⟩ := isValidVote_iff.mp (accepted_iff.mp hacc).1
      exact (List.getElem?_eq_some_iff.mp htarget).1

theorem occupied_invariant : RoundInvariant th n (Occupied (H := H) n) where
  same := by
    intro t t' l hs h
    have hj := hs.justifiedAt_eq
    constructor
    case block => simpa only [hs.finalized, hs.history, hj] using h.block
    case source => simpa only [hj] using h.source
    case target => simpa only [hs.history] using h.target
  header := by
    intro st st' m l block ha ha' hstep hrows h
    constructor
    case block =>
      intro u hf hj
      dsimp only at hf hj
      rw [hstep.finalized_slot] at hf
      rw [hstep.justifiedAt_eq] at hj
      obtain ⟨r, hne, hr⟩ := h.block u hf hj
      refine ⟨r, hne, ?_⟩
      rw [hstep.history_eq]
      exact getElem?_append_of_some hr
    case source =>
      intro p hp hacc
      exact (hstep.justifiedAt_eq _).trans (h.source p hp hacc)
    case target =>
      intro p hp hacc
      have hlt := h.target p hp hacc
      rw [hstep.history_eq, List.length_append]
      dsimp only at hlt
      omega
  round := fun _ e h ↦ e.occupied h

theorem occupied_genesis (th : TreeHash H) (time : UInt64)
    (vs : VariableList Validator validatorRegistryLimit) :
    Occupied vs.toList.length (openTally (genesisState th time vs)) [] := by
  refine ⟨fun u hf hj ↦ ?_, fun p hp ↦ absurd hp List.not_mem_nil,
    fun p hp ↦ absurd hp List.not_mem_nil⟩
  have hno := (wellformed_genesis th time vs).aligned.not_justifiedAt_of_le (Nat.zero_le u) hf
  rw [show justifiedAt (openTally (genesisState th time vs)).state u = _ from hno] at hj
  exact absurd hj Bool.false_ne_true

section Growth

variable {slot : UInt64} {body : BlockBody H}

/-- A block of every later slot, with whatever votes, extends the chain as long as its slot fits
into the history. -/
theorem Wellformed.exists_child (hth : th.CollisionFree) (h : Wellformed th n st) (hn : 0 < n)
    (hslot : st.slot < slot) (hroom : slot.toNat ≤ historicalRootsLimit) (body : BlockBody H) :
    ∃ block st', block.slot = slot ∧ block.body = body ∧
      StateTransition.stateTransition th st block = .ok st' := by
  have hattended : 0 < st.validators.len := by
    rw [show st.validators.len = n from h.aligned.validators_length]
    exact hn
  have hlt := slot.toNat_lt
  have hplaced : WellPlaced th st (nextBlock th st slot body) :=
    ⟨hslot, hattended, UInt64.toNat_ofNat_of_lt' (lt_of_le_of_lt (Nat.mod_le _ _) hlt), rfl, hroom⟩
  obtain ⟨post, hpost⟩ := (h.stateTransition_verdict hth).2 (headerVerdict_eq_none.mpr hplaced)
  refine ⟨withRoot (nextBlock th st slot body) (th.state post), post, rfl, rfl, ?_⟩
  rw [hpost, if_pos rfl]

theorem Wellformed.history_length (h : Wellformed th n st) :
    st.historicalBlockHashes.toList.length = st.slot.toNat := by
  rw [h.slot_eq]
  exact h.aligned.history_length

/-- What a block leaves in the state before its first attestation is looked at. -/
structure Grown (th : TreeHash H) (st : State H) (block : Block H) (st₂ : State H) : Prop where
  parent : st₂.historicalBlockHashes.toList[st.slot.toNat]? = some (th.header (cachedHeader th st))
  old : ∀ {s : ℕ} {r : H}, st.historicalBlockHashes.toList[s]? = some r →
    st₂.historicalBlockHashes.toList[s]? = some r
  finalized_slot : st₂.latestFinalized.slot = st.latestFinalized.slot
  justifiedAt_eq : ∀ u, justifiedAt st₂ u = justifiedAt st u
  slot_eq : st₂.slot = block.slot

theorem Wellformed.grown (h : Wellformed th n st) {st₂ : State H}
    (b : BlockRun th n st block st' st₂ slots t) : Grown th st block st₂ := by
  obtain ⟨st₁, h₁, -, hstep⟩ := b.header
  obtain ⟨-, rfl⟩ := processSlots_eq_ok.mp h₁
  have hhist := hstep.history_eq
  dsimp only at hhist
  constructor
  case parent =>
    rw [hhist, List.getElem?_append_right (by rw [h.history_length]), h.history_length, Nat.sub_self]
    rfl
  case old =>
    intro s r hs
    rw [hhist]
    exact getElem?_append_of_some hs
  case finalized_slot => exact hstep.finalized_slot
  case justifiedAt_eq => exact hstep.justifiedAt_eq
  case slot_eq => exact hstep.slot_eq

/-- The state after a block without votes. -/
theorem Wellformed.exists_empty (hth : th.CollisionFree) (h : Wellformed th n st) (hn : 0 < n)
    (hslot : st.slot < slot) (hroom : slot.toNat ≤ historicalRootsLimit) :
    ∃ block st', StateTransition.stateTransition th st block = .ok st' ∧
      block.body.attestations.toList = [] ∧ st'.slot = slot ∧
      st'.latestFinalized.slot = st.latestFinalized.slot ∧
      ∀ u, justifiedAt st' u = justifiedAt st u := by
  obtain ⟨block, st', rfl, hbody, hs⟩ := h.exists_child hth hn hslot hroom .default
  obtain ⟨st₂, slots, t, b⟩ := h.blockRun hth hs
  have hg := h.grown b
  have hrounds := b.rounds
  obtain ⟨roots, votes, rfl, -, -⟩ := b.post
  rw [hbody] at hrounds
  obtain rfl : StateTransition.openTally st₂ = t := Except.ok.inj hrounds
  exact ⟨block, _, hs, by rw [hbody]; rfl, hg.slot_eq, hg.finalized_slot, hg.justifiedAt_eq⟩

theorem TallyInv.count_countedRow_ge (h : TallyInv th slots n t) (hlen : a.aggregationBits.len ≤ n) :
    a.aggregationBits.toList.count true ≤ (countedRow n t a).count true := by
  have hentry := h.entry_length a.data.target.root
  rw [← card_flagged, ← card_flagged, countedRow, flagged_orBits (by rw [hentry]; exact hlen)]
  exact Finset.card_le_card Finset.subset_union_right

/-- The vote of `bits` for the latest block of the state. -/
def voteForHead (th : TreeHash H) (st : State H) (bits : AggregationBits) (source : Checkpoint H) :
    AggregatedAttestation H :=
  ⟨bits, ⟨st.slot, ⟨th.header (cachedHeader th st), st.slot⟩,
    ⟨th.header (cachedHeader th st), st.slot⟩, source⟩⟩

/-- A justified slot with its block, from which votes can be cast. -/
structure Cites (st : State H) (source : Checkpoint H) : Prop where
  justified : justifiedAt st source.slot.toNat = true
  root_ne : source.root ≠ 0
  history : st.historicalBlockHashes.toList[source.slot.toNat]? = some source.root

theorem Cites.slot_lt (h : Wellformed th n st) {source : Checkpoint H} (hc : Cites st source) :
    source.slot.toNat < st.slot.toNat := by
  rw [← h.history_length]
  exact (List.getElem?_eq_some_iff.mp hc.history).1

/-- What a block leads to that carries nothing but the votes of two thirds of the validators for its
parent: the parent is justified, and the source is final unless a justifiable slot lies between. -/
structure Advanced (th : TreeHash H) (st : State H) (source : Checkpoint H) (slot : UInt64)
    (st' : State H) : Prop where
  slot_eq : st'.slot = slot
  cites : Cites st' ⟨th.header (cachedHeader th st), st.slot⟩
  finalized : st'.latestFinalized.slot = source.slot ∨
    st'.latestFinalized.slot = st.latestFinalized.slot ∧ ∃ u, source.slot.toNat < u ∧
      u < st.slot.toNat ∧ slotIsJustifiableAfter u st.latestFinalized.slot.toNat = true

theorem Wellformed.exists_advanced (hth : th.CollisionFree) (h : Wellformed th n st) (hn : 0 < n)
    {bits : AggregationBits} (hlen : bits.len ≤ n)
    (hsuper : supermajority (bits.toList.count true) n = true) {source : Checkpoint H}
    (hsource : Cites st source)
    (hjust : slotIsJustifiableAfter st.slot.toNat st.latestFinalized.slot.toNat = true)
    (hslot : st.slot < slot) (hroom : slot.toNat ≤ historicalRootsLimit) :
    ∃ block st', StateTransition.stateTransition th st block = .ok st' ∧
      block.body.attestations.toList = [voteForHead th st bits source] ∧
      Advanced th st source slot st' := by
  obtain ⟨block, st', rfl, hbody, hs⟩ := h.exists_child hth hn hslot hroom
    ⟨⟨[voteForHead th st bits source], one_le_limit⟩⟩
  obtain ⟨st₂, slots, t, b⟩ := h.blockRun hth hs
  have hg := h.grown b
  have hatts : block.body.attestations.toList = [voteForHead th st bits source] := by rw [hbody]
  have hlt := hsource.slot_lt h
  have hfin : st.latestFinalized.slot.toNat < st.slot.toNat := by
    have hle := h.aligned.finalized_le
    rw [← h.slot_eq] at hle
    omega
  have hv : isValidVote st₂ source ⟨th.header (cachedHeader th st), st.slot⟩ = true := by
    refine isValidVote_iff.mpr ⟨?_, ?_, hsource.root_ne, hth.header_ne_zero _, hg.old hsource.history,
      hg.parent, hlt, ?_⟩
    · rw [hg.justifiedAt_eq]
      exact hsource.justified
    · rw [hg.justifiedAt_eq]
      exact h.aligned.not_justifiedAt_of_le (by rw [h.slot_eq]) hfin
    · rw [hg.finalized_slot]
      exact hjust
  have hrounds := b.rounds
  rw [hatts, Runs.run_singleton] at hrounds
  have hcount : supermajority ((countedRow n (StateTransition.openTally st₂)
      (voteForHead th st bits source)).count true) n = true :=
    supermajority_mono (b.opened.count_countedRow_ge hlen) hsuper
  have hslot' : t.state.slot = block.slot := by
    rw [(rounds_frame b.opened b.rounds).1]
    exact hg.slot_eq
  have hhist : t.state.historicalBlockHashes = st₂.historicalBlockHashes :=
    (rounds_frame b.opened b.rounds).2.2.1
  obtain ⟨roots, votes, rfl, -, -⟩ := b.post
  suffices hmain : justifiedAt t.state st.slot.toNat = true ∧
      (t.state.latestFinalized.slot = source.slot ∨
        t.state.latestFinalized.slot = st.latestFinalized.slot ∧ ∃ u, source.slot.toNat < u ∧
          u < st.slot.toNat ∧ slotIsJustifiableAfter u st.latestFinalized.slot.toNat = true) from
    ⟨block, _, hs, hatts, hslot', ⟨hmain.1, hth.header_ne_zero _, by
      dsimp only; rw [hhist]; exact hg.parent⟩, hmain.2⟩
  cases b.opened.effect hrounds with
  | skipped hno => exact absurd hno (by rw [Bool.not_eq_false]; exact hv)
  | touched _ hlong => exact absurd hlen (Nat.not_le.mpr hlong)
  | recorded _ _ hfew => exact absurd hcount (by rw [hfew]; exact Bool.false_ne_true)
  | justified window _ _ _ hwlen hwj hbetween =>
    refine ⟨(hwj st.slot.toNat).trans ?_, .inr ⟨hg.finalized_slot, ?_⟩⟩
    · simp [voteForHead]
    obtain ⟨-, hany⟩ := justifiableBetween_eq_ok.mp hbetween
    obtain ⟨u, hu, hyes⟩ := List.any_eq_true.mp hany.symm
    obtain ⟨h₁, h₂⟩ := List.mem_range'_1.mp hu
    refine ⟨u, h₁, ?_, by rw [← hg.finalized_slot]; exact hyes⟩
    dsimp only [voteForHead] at h₁ h₂
    omega
  | finalized window _ _ _ hle hwlen hwj hbetween =>
    refine ⟨(hwj st.slot.toNat).trans ?_, .inl rfl⟩
    simp [voteForHead]

end Growth

/-- The last slot of the chain that is justified. -/
def highestJustified (st : State H) : ℕ :=
  Nat.findGreatest (fun u ↦ justifiedAt st u = true) st.slot.toNat

theorem Wellformed.le_highestJustified (h : Wellformed th n st) {u : ℕ}
    (hu : justifiedAt st u = true) : u ≤ highestJustified st := by
  refine Nat.le_findGreatest ?_ hu
  by_contra hlt
  have hfin := h.aligned.finalized_le
  rw [h.slot_eq] at hlt
  rw [h.aligned.not_justifiedAt_of_le (by omega) (by omega)] at hu
  exact Bool.false_ne_true hu

theorem Wellformed.finalized_le_highest (h : Wellformed th n st) :
    st.latestFinalized.slot.toNat ≤ highestJustified st :=
  h.le_highestJustified (isSlotJustified_of_le le_rfl)

theorem Wellformed.justifiedAt_highest (h : Wellformed th n st) :
    justifiedAt st (highestJustified st) = true := by
  refine Nat.findGreatest_spec (P := fun u ↦ justifiedAt st u = true) (m := st.latestFinalized.slot.toNat)
    ?_ (isSlotJustified_of_le le_rfl)
  have hfin := h.aligned.finalized_le
  rw [h.slot_eq]
  omega

/-- Past the first block every justified slot from the finalized one on has its block. -/
theorem Wellformed.exists_cites (h : Wellformed th n st) (hnamed : Named st)
    (hocc : Occupied n (StateTransition.openTally st) l) (hpos : 0 < st.slot.toNat) {u : ℕ}
    (hf : st.latestFinalized.slot.toNat ≤ u) (hj : justifiedAt st u = true) :
    ∃ c : Checkpoint H, c.slot.toNat = u ∧ Cites st c := by
  rcases hf.eq_or_lt with rfl | hlt
  · have hroot := h.aligned.finalized_root (by rw [← h.slot_eq]; exact hpos)
    refine ⟨st.latestFinalized, rfl, hj, (hnamed fun hnil ↦ ?_).2, hroot⟩
    rw [hnil] at hroot
    exact nomatch hroot
  · obtain ⟨r, hne, hr⟩ := hocc.block u hlt hj
    have hsmall : u < 2 ^ 64 := by
      have hlen := (List.getElem?_eq_some_iff.mp hr).1
      have hle : _ ≤ 262144 := st.historicalBlockHashes.length_le
      have hlen' : u < st.historicalBlockHashes.toList.length := hlen
      omega
    have hu : (UInt64.ofNat u).toNat = u := UInt64.toNat_ofNat_of_lt' hsmall
    refine ⟨⟨r, UInt64.ofNat u⟩, hu, ?_, hne, ?_⟩
    · rw [hu]
      exact hj
    · rw [hu]
      exact hr

/-- Where the votes so far come from and where they go. -/
theorem Wellformed.slots_le (h : Wellformed th n st)
    (hocc : Occupied n (StateTransition.openTally st) l) {others : List (AggregatedAttestation H)}
    {bound : ℕ} (hsource : ∀ b ∈ others, b.data.source.slot.toNat ≤ highestJustified st)
    (htarget : ∀ b ∈ others, b.data.target.slot.toNat ≤ bound) (hslot : st.slot.toNat ≤ bound)
    {b : AggregatedAttestation H} (hb : b ∈ others ++ countedVotes n l) :
    b.data.source.slot.toNat ≤ highestJustified st ∧ b.data.target.slot.toNat ≤ bound := by
  rcases List.mem_append.mp hb with hb | hb
  · exact ⟨hsource b hb, htarget b hb⟩
  · obtain ⟨t, ht, hacc⟩ := mem_countedVotes.mp hb
    have hlt : b.data.target.slot.toNat < st.historicalBlockHashes.toList.length :=
      hocc.target (t, b) ht hacc
    rw [h.history_length] at hlt
    exact ⟨h.le_highestJustified (hocc.source (t, b) ht hacc), by omega⟩

section Chain

variable {validators : List Validator} {time : UInt64} {g : State H} {blocks : List (Block H)}

theorem reachable_occupied {vs : VariableList Validator validatorRegistryLimit}
    (hth : th.CollisionFree) (hr : runChain th (genesisState th time vs) blocks = .ok st) :
    Wellformed th vs.toList.length st ∧ Named st ∧
      Occupied vs.toList.length (openTally st) (chainRounds th (genesisState th time vs) blocks) := by
  have hgen := wellformed_genesis th time vs
  have hnamed : Named (genesisState th time vs) := fun hne ↦ absurd rfl hne
  exact ⟨hgen.runChain hth hr, hgen.named_runChain hth hnamed hr,
    occupied_invariant.chain hth hgen hr (occupied_genesis th time vs)⟩

/-- The slots of the votes: the first is justifiable and after everything so far, the second is the
next justifiable one, and all of them fit into the history. -/
theorem exists_vote_slots {f bound : ℕ} (hf : f ≤ bound)
    (hroom : bound + 2 * (historicalRootsLimit.sqrt + 1) + 1 ≤ historicalRootsLimit) :
    ∃ t₁ t₂, bound < t₁ ∧ Consecutive f t₁ t₂ ∧ t₂ + 1 ≤ historicalRootsLimit := by
  have hlimit : historicalRootsLimit = 262144 := rfl
  obtain ⟨t₁, hlt, hle, hjust⟩ := JustifiableDistance.exists_after hf (by omega)
  have hroot₁ : bound.sqrt ≤ historicalRootsLimit.sqrt := Nat.sqrt_le_sqrt (by omega)
  obtain ⟨t₂, hle₂, hnext⟩ := Consecutive.exists_after hjust (by omega)
  have hroot₂ : t₁.sqrt ≤ historicalRootsLimit.sqrt := Nat.sqrt_le_sqrt (by omega)
  exact ⟨t₁, t₂, hlt, hnext, by omega⟩

/-- Votes for later and later targets, all past what was voted for so far and from no earlier than the
last justified slot, contradict neither each other nor what came before them. -/
theorem Wellformed.compatible_votes (h : Wellformed th n st)
    (hocc : Occupied n (StateTransition.openTally st) l)
    {votes others : List (AggregatedAttestation H)} {bound : ℕ}
    (hsource : ∀ b ∈ others, b.data.source.slot.toNat ≤ highestJustified st)
    (htarget : ∀ b ∈ others, b.data.target.slot.toNat ≤ bound) (hslot : st.slot.toNat ≤ bound)
    (hvotes : votes.Pairwise Before)
    (hlate : ∀ a ∈ votes, bound < a.data.target.slot.toNat ∧
      highestJustified st ≤ a.data.source.slot.toNat) :
    ∀ a ∈ votes, ∀ b ∈ votes ++ others ++ countedVotes n l, compatible a b := by
  rw [List.append_assoc]
  refine compatible_of_before hvotes fun a ha b hb ↦ ?_
  obtain ⟨hfrom, hto⟩ := h.slots_le hocc hsource htarget hslot hb
  obtain ⟨hlt, hle⟩ := hlate a ha
  exact ⟨hto.trans_lt hlt, hfrom.trans hle⟩

/-- Two blocks on a chain, the first without votes, the second with votes for the first that start
from the last justified slot. -/
structure Ventured (th : TreeHash H) (st : State H) (bits : AggregationBits) (t₁ t₂ : ℕ)
    (b₁ b₂ : Block H) (st₁ st₂ : State H) (c : Checkpoint H) : Prop where
  slot_eq : st₁.slot.toNat = t₁
  finalized_eq : st₁.latestFinalized.slot = st.latestFinalized.slot
  source_eq : c.slot.toNat = highestJustified st
  source_lt : highestJustified st < t₁
  included_eq : included [b₁, b₂] = [voteForHead th st₁ bits c]
  advanced : Advanced th st₁ c (UInt64.ofNat t₂) st₂

theorem exists_ventured {vs : VariableList Validator validatorRegistryLimit}
    (hth : th.CollisionFree) (hn : 0 < vs.toList.length)
    (hr : runChain th (genesisState th time vs) blocks = .ok st) {bits : AggregationBits}
    (hlen : bits.len ≤ vs.toList.length)
    (hquorum : supermajority (bits.toList.count true) vs.toList.length = true) {t₁ t₂ : ℕ}
    (hnext : Consecutive st.latestFinalized.slot.toNat t₁ t₂) (hlt₁ : st.slot.toNat < t₁)
    (hfits : t₂ + 1 ≤ historicalRootsLimit) :
    ∃ b₁ b₂ st₁ st₂ c, runChain th (genesisState th time vs) (blocks ++ [b₁, b₂]) = .ok st₂ ∧
      Ventured th st bits t₁ t₂ b₁ b₂ st₁ st₂ c := by
  have hlimit : historicalRootsLimit = 262144 := rfl
  have hlt₂ := hnext.lt
  have hu₁ : (UInt64.ofNat t₁).toNat = t₁ := UInt64.toNat_ofNat_of_lt' (show t₁ < 2 ^ 64 by omega)
  have hu₂ : (UInt64.ofNat t₂).toNat = t₂ := UInt64.toNat_ofNat_of_lt' (show t₂ < 2 ^ 64 by omega)
  obtain ⟨hw, -, -⟩ := reachable_occupied hth hr
  -- a block without votes, for the later ones to vote for
  have hstep₁ : st.slot < UInt64.ofNat t₁ := UInt64.lt_iff_toNat_lt.mpr (by omega)
  obtain ⟨b₁, st₁, hs₁, hbody₁, hslot₁, hfin₁, hmark₁⟩ := hw.exists_empty hth hn hstep₁ (by omega)
  have hr₁ : runChain th (genesisState th time vs) (blocks ++ [b₁]) = .ok st₁ :=
    Runs.run_append_eq_ok.mpr ⟨st, hr, Runs.run_singleton.trans hs₁⟩
  obtain ⟨hw₁, hnamed₁, hocc₁⟩ := reachable_occupied hth hr₁
  obtain ⟨c, hc, hcites⟩ := hw₁.exists_cites hnamed₁ hocc₁ (u := highestJustified st)
    (by rw [hslot₁, hu₁]; omega) (by rw [hfin₁]; exact hw.finalized_le_highest)
    (by rw [hmark₁]; exact hw.justifiedAt_highest)
  have hat₁ : st₁.slot.toNat = t₁ := by rw [hslot₁, hu₁]
  -- two thirds justify that block
  have hstep₂ : st₁.slot < UInt64.ofNat t₂ :=
    UInt64.lt_iff_toNat_lt.mpr (by rw [hat₁, hu₂]; exact hlt₂)
  obtain ⟨b₂, st₂, hs₂, hbody₂, hadvanced⟩ := hw₁.exists_advanced hth hn hlen hquorum hcites
    (by rw [hat₁, hfin₁]; exact hnext.first) hstep₂ (by omega)
  refine ⟨b₁, b₂, st₁, st₂, c, ?_, hat₁, hfin₁, hc, ?_, ?_, hadvanced⟩
  · have happend := Runs.run_append_eq_ok.mpr ⟨st₁, hr₁, Runs.run_singleton.trans hs₂⟩
    rwa [List.append_assoc] at happend
  · rw [← hc, ← hat₁]
    exact hcites.slot_lt hw₁
  · simp [included, hbody₁, hbody₂]

/-- Unless this finalizes the source, the source was final before, or a justifiable slot lies between
it and the new block. -/
theorem Ventured.finalized_eq_of_not_lt (h : Wellformed th n st) {bits : AggregationBits}
    {t₁ t₂ : ℕ} {b₁ b₂ : Block H} {st₁ st₂ : State H} {c : Checkpoint H}
    (hv : Ventured th st bits t₁ t₂ b₁ b₂ st₁ st₂ c)
    (hno : ¬st.latestFinalized.slot < st₂.latestFinalized.slot) :
    st₂.latestFinalized.slot = st.latestFinalized.slot := by
  rcases hv.advanced.finalized with hfin | ⟨hfin, -⟩
  · have hle := h.finalized_le_highest
    have hsource := hv.source_eq
    rw [hfin] at hno ⊢
    rw [UInt64.lt_iff_toNat_lt] at hno
    exact UInt64.toNat_inj.mp (by omega)
  · rw [hfin, hv.finalized_eq]

/-- Where this finalizes nothing, a third block with votes for the second finalizes the first. -/
theorem Ventured.exists_final {vs : VariableList Validator validatorRegistryLimit}
    (hth : th.CollisionFree) (hn : 0 < vs.toList.length) {bits : AggregationBits}
    (hlen : bits.len ≤ vs.toList.length)
    (hquorum : supermajority (bits.toList.count true) vs.toList.length = true) {t₁ t₂ : ℕ}
    (hnext : Consecutive st.latestFinalized.slot.toNat t₁ t₂)
    (hfits : t₂ + 1 ≤ historicalRootsLimit) {b₁ b₂ : Block H} {st₁ st₂ : State H}
    {c : Checkpoint H} (hv : Ventured th st bits t₁ t₂ b₁ b₂ st₁ st₂ c) (hat₂ : st₂.slot.toNat = t₂)
    (hr₂ : runChain th (genesisState th time vs) (blocks ++ [b₁, b₂]) = .ok st₂)
    (hsame : st₂.latestFinalized.slot = st.latestFinalized.slot) :
    ∃ b₃ st₃, runChain th (genesisState th time vs) (blocks ++ [b₁, b₂, b₃]) = .ok st₃ ∧
      included [b₁, b₂, b₃] = [voteForHead th st₁ bits c,
        voteForHead th st₂ bits ⟨th.header (cachedHeader th st₁), st₁.slot⟩] ∧
      st₃.latestFinalized.slot = st₁.slot := by
  have hlimit : historicalRootsLimit = 262144 := rfl
  have hu₃ : (UInt64.ofNat (t₂ + 1)).toNat = t₂ + 1 :=
    UInt64.toNat_ofNat_of_lt' (show t₂ + 1 < 2 ^ 64 by omega)
  have hstep : st₂.slot < UInt64.ofNat (t₂ + 1) := by
    rw [UInt64.lt_iff_toNat_lt, hat₂, hu₃]
    exact Nat.lt_succ_self t₂
  obtain ⟨hw₂, -, -⟩ := reachable_occupied hth hr₂
  obtain ⟨b₃, st₃, hs₃, hbody₃, hadvanced⟩ := hw₂.exists_advanced hth hn hlen hquorum
    hv.advanced.cites (by rw [hat₂, hsame]; exact hnext.second) hstep (by rwa [hu₃])
  refine ⟨b₃, st₃, ?_, ?_, ?_⟩
  · have happend := Runs.run_append_eq_ok.mpr ⟨st₂, hr₂, Runs.run_singleton.trans hs₃⟩
    rwa [List.append_assoc] at happend
  · have hsplit : included [b₁, b₂, b₃] = included [b₁, b₂] ++ included [b₃] := by simp [included]
    rw [hsplit, hv.included_eq]
    simp [included, hbody₃]
  · refine hadvanced.finalized.resolve_right fun h ↦ ?_
    obtain ⟨-, u, h₁, h₂, hyes⟩ := h
    rw [hsame, hnext.between u (hv.slot_eq.symm.trans_lt h₁) (h₂.trans_eq hat₂)] at hyes
    exact Bool.false_ne_true hyes

/-- Finality never gets stuck. From every state a chain reaches, any two thirds of the validators
can make three more blocks finalize something new, and none of the votes this takes contradicts a
vote that counted on the chain, one of the other two, or any further vote from no later than the
last justified slot. -/
theorem finality_plausibly_live (hth : th.CollisionFree) (hn : 1 ≤ validators.length)
    (hg : State.fromGenesis th time validators = (.ok g : Result H (State H)))
    (hr : runChain th g blocks = .ok st) {bits : AggregationBits}
    (hlen : bits.len ≤ validators.length)
    (hsuper : 2 * validators.length ≤ 3 * bits.toList.count true)
    {others : List (AggregatedAttestation H)} {bound : ℕ}
    (hsource : ∀ b ∈ others, b.data.source.slot.toNat ≤ highestJustified st)
    (htarget : ∀ b ∈ others, b.data.target.slot.toNat ≤ bound) (hslot : st.slot.toNat ≤ bound)
    (hroom : bound + 2 * (historicalRootsLimit.sqrt + 1) + 1 ≤ historicalRootsLimit) :
    ∃ more st', more.length ≤ 3 ∧ runChain th g (blocks ++ more) = .ok st' ∧
      st.latestFinalized.slot < st'.latestFinalized.slot ∧
      ∀ a ∈ included more, a.aggregationBits = bits ∧
        ∀ b ∈ included more ++ others ++ countedVotes validators.length (chainRounds th g blocks),
          compatible a b := by
  obtain ⟨vs, rfl, rfl⟩ := State.fromGenesis_eq_ok hg
  obtain ⟨hw, -, hocc⟩ := reachable_occupied hth hr
  have hlimit : historicalRootsLimit = 262144 := rfl
  have hquorum : supermajority (bits.toList.count true) vs.toList.length = true :=
    decide_eq_true hsuper
  have hfin : st.latestFinalized.slot.toNat ≤ st.slot.toNat := by
    have hle := hw.aligned.finalized_le
    rw [hw.slot_eq]
    omega
  obtain ⟨t₁, t₂, hlt₁, hnext, hfits⟩ := exists_vote_slots (hfin.trans hslot) hroom
  obtain ⟨b₁, b₂, st₁, st₂, c, hr₂, hv⟩ :=
    exists_ventured hth hn hr hlen hquorum hnext (hslot.trans_lt hlt₁) hfits
  have hlt₂ := hnext.lt
  have hat₁ := hv.slot_eq
  have hat₂ : st₂.slot.toNat = t₂ := by
    rw [hv.advanced.slot_eq]
    exact UInt64.toNat_ofNat_of_lt' (show t₂ < 2 ^ 64 by omega)
  have hlate₁ : bound < st₁.slot.toNat ∧ highestJustified st ≤ c.slot.toNat :=
    ⟨hlt₁.trans_eq hat₁.symm, hv.source_eq.ge⟩
  by_cases hdone : st.latestFinalized.slot < st₂.latestFinalized.slot
  · refine ⟨[b₁, b₂], st₂, Nat.le_succ 2, hr₂, hdone, ?_⟩
    rw [hv.included_eq]
    have hcompatible := hw.compatible_votes hocc hsource htarget hslot
      (List.pairwise_singleton Before (voteForHead th st₁ bits c))
      (List.forall_mem_singleton.mpr hlate₁)
    intro a ha
    exact ⟨by rw [List.mem_singleton.mp ha]; rfl, hcompatible a ha⟩
  obtain ⟨b₃, st₃, hr₃, hincluded, hfinal⟩ := hv.exists_final hth hn hlen hquorum hnext hfits hat₂ hr₂
    (hv.finalized_eq_of_not_lt hw hdone)
  refine ⟨[b₁, b₂, b₃], st₃, Nat.le_refl 3, hr₃, ?_, ?_⟩
  · rw [hfinal, UInt64.lt_iff_toNat_lt]
    omega
  have hsourceLe : c.slot.toNat ≤ st₁.slot.toNat := by
    rw [hv.source_eq, hat₁]
    exact hv.source_lt.le
  have hbefore : Before (voteForHead th st₁ bits c)
      (voteForHead th st₂ bits ⟨th.header (cachedHeader th st₁), st₁.slot⟩) :=
    ⟨(hat₁.trans_lt hlt₂).trans_eq hat₂.symm, hsourceLe⟩
  have hlate₂ : bound < st₂.slot.toNat ∧ highestJustified st ≤ st₁.slot.toNat :=
    ⟨hlate₁.1.trans hbefore.target, hlate₁.2.trans hsourceLe⟩
  rw [hincluded]
  have hcompatible := hw.compatible_votes hocc hsource htarget hslot (List.pairwise_pair.mpr hbefore)
    (List.forall_mem_cons.mpr ⟨hlate₁, List.forall_mem_singleton.mpr hlate₂⟩)
  intro a ha
  refine ⟨?_, hcompatible a ha⟩
  rcases List.mem_cons.mp ha with rfl | ha
  · rfl
  · rw [List.mem_singleton.mp ha]
    rfl

end Chain

namespace Sample

/-- A vote that is on no chain yet, for a block of slot 30. -/
def distant : AggregatedAttestation ℕ :=
  sampleVote ⟨[true], one_le_limit⟩ sampleOrigin (sampleBlock first 30 .empty)

end Sample

/-- Validators 0 and 1 finalize something new on the sample chain, although one of them voted for
a block of another chain. -/
theorem finality_plausibly_live_sample :
    ∃ st, runChain sampleHash sampleGenesis Sample.chain = .ok st ∧
      ∃ more st', more.length ≤ 3 ∧
        runChain sampleHash sampleGenesis (Sample.chain ++ more) = .ok st' ∧
        st.latestFinalized.slot < st'.latestFinalized.slot ∧
        ∀ a ∈ included more, a.aggregationBits = ⟨[true, true], two_le_limit⟩ ∧
          ∀ b ∈ included more ++ [Sample.distant] ++
            countedVotes 3 (chainRounds sampleHash sampleGenesis Sample.chain), compatible a b := by
  have hrun : (runChain sampleHash sampleGenesis Sample.chain).toOption.map
      (fun st ↦ st.slot.toNat) = some 4 := by decide +kernel
  obtain ⟨st, hst, hslot⟩ := Exec.exists_ok_of_map hrun
  have hroot : historicalRootsLimit.sqrt = 512 := Nat.sqrt_eq 512
  have hroom : 30 + 2 * (historicalRootsLimit.sqrt + 1) + 1 ≤ historicalRootsLimit := by
    rw [hroot, show historicalRootsLimit = 262144 from rfl]
    omega
  have hsource : ∀ b ∈ [Sample.distant], b.data.source.slot.toNat ≤ highestJustified st :=
    List.forall_mem_singleton.mpr (Nat.zero_le _)
  have htarget : ∀ b ∈ [Sample.distant], b.data.target.slot.toNat ≤ 30 :=
    List.forall_mem_singleton.mpr (by decide)
  exact ⟨st, hst, finality_plausibly_live sampleHash_collisionFree (by decide) sampleGenesis_eq hst
    (by decide) (by decide) hsource htarget (by omega) hroom⟩

end Ethlambda.StateTransition
