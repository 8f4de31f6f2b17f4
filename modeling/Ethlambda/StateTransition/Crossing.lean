import Ethlambda.StateTransition.Equivalence
import Ethlambda.StateTransition.Ledger

namespace Ethlambda.StateTransition

open Ethlambda.Base Ethlambda.Types

set_option linter.unusedSectionVars false

variable {H : Type} [LinearOrder H] [Zero H] {th : TreeHash H} {slots : Table H ℕ} {n : ℕ}
  {t t' : Tally H} {a : AggregatedAttestation H} {as : List (AggregatedAttestation H)}
  {source target final : Checkpoint H} {cap : H → Finset ℕ} {roots : Set H} {st : State H}

/-- The validators that the loop has counted for a root. -/
def counted (n : ℕ) (t : Tally H) (root : H) : Finset ℕ := flagged (entry n t.justifications root)

/-- The validators that an attestation speaks for. -/
def signers (a : AggregatedAttestation H) : Finset ℕ := flagged a.aggregationBits.toList

/-- An attestation that the loop counts when it meets it. -/
def Counts (n : ℕ) (t : Tally H) (a : AggregatedAttestation H) : Prop :=
  isValidVote t.state a.data.source a.data.target = true ∧ a.aggregationBits.len ≤ n

def Enough (n : ℕ) (s : Finset ℕ) : Prop := supermajority s.card n = true

theorem Enough.mono {s s' : Finset ℕ} (h : Enough n s) (hs : s ⊆ s') : Enough n s' :=
  supermajority_mono (Finset.card_le_card hs) h

theorem TallyInv.flagged_countedRow (h : TallyInv th slots n t) (hlen : a.aggregationBits.len ≤ n) :
    flagged (countedRow n t a) = counted n t a.data.target.root ∪ signers a := by
  apply flagged_orBits
  rw [h.entry_length]
  exact hlen

/-- The rules for a vote, by the slots that count as justified and the slot that is final. -/
def Admits (st : State H) (justified : ℕ → Bool) (finalized : ℕ) (source target : Checkpoint H) :
    Prop :=
  justified source.slot.toNat = true ∧ justified target.slot.toNat = false ∧
    source.root ≠ 0 ∧ target.root ≠ 0 ∧
    st.historicalBlockHashes.toList[source.slot.toNat]? = some source.root ∧
    st.historicalBlockHashes.toList[target.slot.toNat]? = some target.root ∧
    source.slot.toNat < target.slot.toNat ∧
    slotIsJustifiableAfter target.slot.toNat finalized = true

instance (st : State H) (justified : ℕ → Bool) (finalized : ℕ) (source target : Checkpoint H) :
    Decidable (Admits st justified finalized source target) := by
  unfold Admits
  infer_instance

/-- The slots that count as justified once `target` is and `final` is the finalized checkpoint. -/
def justifiedAfter (st : State H) (target final : Checkpoint H) (slot : ℕ) : Bool :=
  decide (slot ≤ final.slot.toNat) || decide (slot = target.slot.toNat) || justifiedAt st slot

/-- A vote that is valid once `target` is justified and `final` is the finalized checkpoint. -/
abbrev ValidAfter (st : State H) (target final source' target' : Checkpoint H) : Prop :=
  Admits st (justifiedAfter st target final) final.slot.toNat source' target'

/-- What is finalized when a vote from `source` justifies `target`. -/
def Finalizes (finalized source target final : Checkpoint H) : Prop :=
  ∃ between, justifiableBetween finalized.slot.toNat source target = .ok between ∧
    final = if between then finalized else source

theorem Finalizes.unique {finalized final' : Checkpoint H}
    (h : Finalizes finalized source target final)
    (h' : Finalizes finalized source target final') : final = final' := by
  obtain ⟨between, hbetween, rfl⟩ := h
  obtain ⟨between', hbetween', rfl⟩ := h'
  rw [Except.ok.inj (hbetween.symm.trans hbetween')]

/-- A round after which nothing new is justified. -/
structure Uncrossed (n : ℕ) (t : Tally H) (a : AggregatedAttestation H) (t' : Tally H) : Prop where
  state : t'.state = t.state
  grows : ∀ r, counted n t r ⊆ counted n t' r
  bounded : ∀ r, ∀ i ∈ counted n t' r,
    i ∈ counted n t r ∨ r = a.data.target.root ∧ Counts n t a ∧ i ∈ signers a
  noted : Counts n t a → signers a ⊆ counted n t' a.data.target.root ∧
    ¬Enough n (counted n t' a.data.target.root)

/-- A round that justifies its target. -/
structure Crossed (n : ℕ) (t : Tally H) (a : AggregatedAttestation H) (t' : Tally H) : Prop where
  counts : Counts n t a
  enough : Enough n (counted n t a.data.target.root ∪ signers a)
  justified : t'.state.latestJustified = a.data.target
  after : ∀ u, justifiedAt t'.state u =
    justifiedAfter t.state a.data.target t'.state.latestFinalized u
  later : t'.state.latestFinalized.slot.toNat < a.data.target.slot.toNat
  history : t'.state.historicalBlockHashes = t.state.historicalBlockHashes
  shrinks : ∀ r, counted n t' r ⊆ counted n t r
  finalized : Finalizes t.state.latestFinalized a.data.source a.data.target
    t'.state.latestFinalized

theorem flagged_entry_erase {m : VoteMap H} {root r : H} :
    flagged (entry n (m.erase root) r) ⊆ flagged (entry n m r) := by
  rw [entry, Table.lookup_erase_eq_ite]
  split
  · rw [Option.getD_none, flagged_replicate]
    exact Finset.empty_subset _
  · exact Finset.Subset.refl _

theorem flagged_entry_retain {m : VoteMap H} {keep : H → List Bool → Bool} {r : H} :
    flagged (entry n (Table.retain keep m) r) ⊆ flagged (entry n m r) := by
  rw [entry, entry, Table.lookup_retain]
  cases m.lookup r with
  | none => exact Finset.Subset.refl _
  | some row =>
    rw [Option.filter_some]
    split
    · exact Finset.Subset.refl _
    · rw [Option.getD_none, flagged_replicate]
      exact Finset.empty_subset _

theorem Effect.crossed_or_not (h : TallyInv th slots n t) (e : Effect slots n t a t') :
    Uncrossed n t a t' ∨ Crossed n t a t' := by
  cases e with
  | skipped hv =>
    refine .inl ⟨rfl, fun r ↦ Finset.Subset.refl _, fun r i hi ↦ .inl hi, fun hcounts ↦ ?_⟩
    rw [Counts, hv] at hcounts
    exact nomatch hcounts.1
  | touched hv hlen =>
    have hsame (r : H) : counted n ⟨t.state, t.justifications.insert a.data.target.root
        (entry n t.justifications a.data.target.root)⟩ r = counted n t r := by
      rw [counted, entry_insert]
      split
      · rename_i hr
        rw [hr]
        rfl
      · rfl
    refine .inl ⟨rfl, fun r ↦ ?_, fun r i hi ↦ .inl ?_, fun hcounts ↦ ?_⟩
    · rw [hsame]
    · rwa [hsame] at hi
    · exact absurd hcounts.2 (Nat.not_le.mpr hlen)
  | recorded hv hlen hsuper =>
    have hrow : counted n ⟨t.state, t.justifications.insert a.data.target.root (countedRow n t a)⟩
        a.data.target.root = counted n t a.data.target.root ∪ signers a := by
      rw [counted, entry_insert, if_pos rfl, h.flagged_countedRow hlen]
    have hother {r : H} (hr : r ≠ a.data.target.root) : counted n ⟨t.state,
        t.justifications.insert a.data.target.root (countedRow n t a)⟩ r = counted n t r := by
      rw [counted, entry_insert, if_neg hr]
      rfl
    refine .inl ⟨rfl, fun r ↦ ?_, fun r i hi ↦ ?_, fun hcounts ↦ ⟨?_, ?_⟩⟩
    · by_cases hr : r = a.data.target.root
      · rw [hr, hrow]
        exact Finset.subset_union_left
      · rw [hother hr]
    · by_cases hr : r = a.data.target.root
      · rw [hr, hrow, Finset.mem_union] at hi
        rw [hr]
        exact hi.imp id fun hi ↦ ⟨rfl, ⟨hv, hlen⟩, hi⟩
      · rw [hother hr] at hi
        exact .inl hi
    · rw [hrow]
      exact Finset.subset_union_right
    · rw [hrow, ← h.flagged_countedRow hlen, Enough, card_flagged, hsuper]
      exact Bool.false_ne_true
  | justified window hv hlen hsuper hwlen hwj hbetween =>
    refine .inr ⟨⟨hv, hlen⟩, ?_, rfl, ?_, (h.target_lt hv).1, rfl, fun r ↦ flagged_entry_erase,
      true, hbetween, rfl⟩
    · rwa [← h.flagged_countedRow hlen, Enough, card_flagged]
    · intro u
      by_cases hu : u ≤ t.state.latestFinalized.slot.toNat
      · have hmarked : justifiedAt t.state u = true := isSlotJustified_of_le hu
        exact (hwj u).trans (by simp [justifiedAfter, hmarked])
      · exact (hwj u).trans (by simp [justifiedAfter, hu])
  | finalized window hv hlen hsuper hle hwlen hwj hbetween =>
    obtain ⟨-, -, -, -, -, -, hst, -⟩ := isValidVote_iff.mp hv
    refine .inr ⟨⟨hv, hlen⟩, ?_, rfl, ?_, hst, rfl, fun r ↦ ?_, false, hbetween, rfl⟩
    · rwa [← h.flagged_countedRow hlen, Enough, card_flagged]
    · exact hwj
    · exact flagged_entry_retain.trans flagged_entry_erase

/-- What the loop has counted for each of the roots is within `cap`. -/
def Capped (n : ℕ) (cap : H → Finset ℕ) (roots : Set H) (t : Tally H) : Prop :=
  ∀ r ∈ roots, counted n t r ⊆ cap r

/-- The signers are within a cap that falls short. -/
def Short (n : ℕ) (cap : H → Finset ℕ) (a : AggregatedAttestation H) : Prop :=
  signers a ⊆ cap a.data.target.root ∧ ¬Enough n (cap a.data.target.root)

theorem Uncrossed.capped (h : Uncrossed n t a t') (hcap : Capped n cap roots t)
    (hshort : Counts n t a → a.data.target.root ∈ roots → Short n cap a) :
    Capped n cap roots t' := by
  intro r hr i hi
  cases h.bounded r i hi with
  | inl hold => exact hcap r hr hold
  | inr hnew =>
    obtain ⟨rfl, hcounts, hnew⟩ := hnew
    exact (hshort hcounts hr).1 hnew

theorem Crossed.capped (h : Crossed n t a t') (hcap : Capped n cap roots t) :
    Capped n cap roots t' :=
  fun r hr ↦ (h.shrinks r).trans (hcap r hr)

theorem Crossed.not_short (h : Crossed n t a t') (hcap : Capped n cap roots t)
    (hroot : a.data.target.root ∈ roots) : ¬Short n cap a :=
  fun hshort ↦ hshort.2 (h.enough.mono (Finset.union_subset (hcap _ hroot) hshort.1))

theorem Crossed.valid_iff (h : Crossed n t a t') {source' target' : Checkpoint H} :
    isValidVote t'.state source' target' = true ↔
      ValidAfter t.state a.data.target t'.state.latestFinalized source' target' := by
  rw [isValidVote_iff, ValidAfter, Admits, h.after, h.after, h.history]

/-- While no valid vote is for a root that could cross, nothing is justified. -/
theorem run_kept (h : TallyInv th slots n t)
    (hr : Runs.run (processAttestation slots n) t as = .ok t') (hcap : Capped n cap roots t)
    (hshort : ∀ a ∈ as, Counts n t a → a.data.target.root ∈ roots ∧ Short n cap a) :
    t'.state = t.state := by
  induction as generalizing t with
  | nil => exact congrArg Tally.state (Except.ok.inj hr).symm
  | cons a as ih =>
    obtain ⟨u, hu, hr⟩ := Runs.run_cons_eq_ok.mp hr
    have heffect := h.effect hu
    have hshort_a := hshort a List.mem_cons_self
    cases heffect.crossed_or_not h with
    | inl hkept =>
      have hstate : t'.state = u.state := by
        apply ih (heffect.preserves h) hr
        · exact hkept.capped hcap fun hcounts _ ↦ (hshort_a hcounts).2
        · intro b hb hcounts
          rw [Counts, hkept.state] at hcounts
          exact hshort b (List.mem_cons_of_mem a hb) hcounts
      rw [hstate, hkept.state]
    | inr hcrossed =>
      obtain ⟨hroot, hshort_a⟩ := hshort_a hcrossed.counts
      exact absurd hshort_a (hcrossed.not_short hcap hroot)

/-- A root above the finalized slot is the root of one slot. -/
theorem TallyInv.target_eq (h : TallyInv th slots n t)
    (hhistory : t.state.historicalBlockHashes.toList[target.slot.toNat]? = some target.root)
    (hlater : t.state.latestFinalized.slot.toNat < target.slot.toNat)
    (hv : isValidVote t.state a.data.source a.data.target = true)
    (hroot : a.data.target.root = target.root) : a.data.target = target := by
  obtain ⟨-, -, -, hne, -, htarget, -, -⟩ := isValidVote_iff.mp hv
  have hslot := h.slots_eq _ _ htarget hne (h.target_lt hv).1
  rw [hroot] at hne hslot
  have hslots := hslot.symm.trans (h.slots_eq _ _ hhistory hne hlater)
  have hsame := UInt64.toNat_inj.mp (Option.some.inj hslots)
  cases htargets : a.data.target
  rw [htargets] at hroot hsame
  cases target
  congr 1

/-- After its target is justified, the loop counts no vote for it. -/
theorem Crossed.not_counts (h : Crossed n t a t') (ht' : TallyInv th slots n t')
    {b : AggregatedAttestation H} (hroot : b.data.target.root = a.data.target.root) :
    ¬Counts n t' b := by
  intro hcounts
  obtain ⟨-, -, -, -, -, htarget, -, -⟩ := isValidVote_iff.mp h.counts.1
  have heq := ht'.target_eq (by rw [h.history]; exact htarget) h.later hcounts.1 hroot
  obtain ⟨-, hunmarked, -⟩ := isValidVote_iff.mp hcounts.1
  rw [heq, h.after, justifiedAfter, decide_eq_true rfl, Bool.or_true, Bool.true_or] at hunmarked
  cases hunmarked

/-- A state after the loop in which `target` is justified and `final` finalized. -/
structure Promoted (target final : Checkpoint H) (st : State H) : Prop where
  justified : st.latestJustified = target
  finalized : st.latestFinalized = final

/-- A vote that could count, before `target` is justified or after. -/
def MayCount (st : State H) (target final : Checkpoint H) (data : AttestationData H) : Prop :=
  isValidVote st data.source data.target = true ∨
    ValidAfter st target final data.source data.target

instance (st : State H) (target final : Checkpoint H) (data : AttestationData H) :
    Decidable (MayCount st target final data) := by
  unfold MayCount
  infer_instance

/-- The votes for `target` and others that could count but fall short. -/
structure Single (n : ℕ) (st : State H) (source target final : Checkpoint H)
    (cap : H → Finset ℕ) (as : List (AggregatedAttestation H)) : Prop where
  source : ∀ a ∈ as, MayCount st target final a.data → a.data.source = source
  short : ∀ a ∈ as, MayCount st target final a.data → a.aggregationBits.len ≤ n →
    a.data.target.root ≠ target.root → Short n cap a

theorem Single.tail (h : Single n st source target final cap (a :: as)) :
    Single n st source target final cap as where
  source := fun b hb ↦ h.source b (List.mem_cons_of_mem a hb)
  short := fun b hb ↦ h.short b (List.mem_cons_of_mem a hb)

/-- Once the target is justified, nothing more is. -/
theorem Crossed.promoted (hcrossed : Crossed n t a t')
    (ht' : TallyInv th slots n t') (hsource : a.data.source = source)
    (htarget : a.data.target = target)
    (hfinal : Finalizes t.state.latestFinalized source target final)
    (hsingle : Single n t.state source target final cap as)
    (hcap : Capped n cap {r | r ≠ target.root} t) {t'' : Tally H}
    (hr : Runs.run (processAttestation slots n) t' as = .ok t'') :
    Promoted target final t''.state := by
  have hfinalized : t'.state.latestFinalized = final := by
    have hby := hcrossed.finalized
    rw [hsource, htarget] at hby
    exact hby.unique hfinal
  have hstate : t''.state = t'.state := by
    apply run_kept ht' hr (hcrossed.capped hcap)
    intro b hb hcounts
    have hmay : MayCount t.state target final b.data := by
      have hafter := hcrossed.valid_iff.mp hcounts.1
      rw [htarget, hfinalized] at hafter
      exact .inr hafter
    have hroot : b.data.target.root ≠ target.root := by
      rw [← htarget]
      exact fun hroot ↦ hcrossed.not_counts ht' hroot hcounts
    exact ⟨hroot, hsingle.short b hb hmay hcounts.2 hroot⟩
  constructor
  · rw [hstate, hcrossed.justified, htarget]
  · rw [hstate, hfinalized]

end Ethlambda.StateTransition
