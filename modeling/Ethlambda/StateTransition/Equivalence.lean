import Ethlambda.Base.Quorum
import Ethlambda.StateTransition.Representation

namespace Ethlambda.StateTransition

open Ethlambda.Base Ethlambda.Types

set_option linter.unusedSectionVars false

variable {H : Type} [LinearOrder H] [Zero H] {th : TreeHash H} {st : State H}

section SlotBySlot

/-- One turn of the specification's loop: the header's state root is filled in if it is missing,
and the slot is counted. -/
def processSlot (th : TreeHash H) (st : State H) : State H :=
  let filled := if st.latestBlockHeader.stateRoot = 0 then
    { st with latestBlockHeader := { st.latestBlockHeader with stateRoot := th.state st } } else st
  { filled with slot := st.slot + 1 }

theorem toNat_succ_of_lt {slot targetSlot : UInt64} (h : slot < targetSlot) :
    (slot + 1).toNat = slot.toNat + 1 := by
  have hlt := UInt64.lt_iff_toNat_lt.mp h
  have htarget := targetSlot.toNat_lt
  rw [UInt64.toNat_add, UInt64.toNat_one]
  omega

theorem processSlot_slot (th : TreeHash H) (st : State H) :
    (processSlot th st).slot = st.slot + 1 := rfl

/-- The specification's loop. -/
def processSlotsLoop (th : TreeHash H) (st : State H) (targetSlot : UInt64) : State H :=
  if _ : st.slot < targetSlot then processSlotsLoop th (processSlot th st) targetSlot else st
termination_by targetSlot.toNat - st.slot.toNat
decreasing_by
  rename_i h
  rw [processSlot_slot, toNat_succ_of_lt h]
  have hlt := UInt64.lt_iff_toNat_lt.mp h
  omega

def processSlotsSpec (th : TreeHash H) (st : State H) (targetSlot : UInt64) : Result H (State H) :=
  if targetSlot ≤ st.slot then
    Exec.fail (.stateSlotIsNewer targetSlot st.slot)
  else
    .ok (processSlotsLoop th st targetSlot)

theorem processSlot_eq (th : TreeHash H) (st : State H) : processSlot th st =
    { st with latestBlockHeader := cachedHeader th st, slot := st.slot + 1 } := by
  unfold processSlot cachedHeader
  split
  · rfl
  · rfl

/-- Once the root is there, the rest of the loop counts slots. -/
theorem processSlotsLoop_of_filled {targetSlot : UInt64}
    (hfilled : st.latestBlockHeader.stateRoot ≠ 0) (hle : st.slot ≤ targetSlot) :
    processSlotsLoop th st targetSlot = { st with slot := targetSlot } := by
  fun_induction processSlotsLoop th st targetSlot with
  | case1 st hlt ih =>
    have hcached : cachedHeader th st = st.latestBlockHeader := if_neg hfilled
    have hsucc : (processSlot th st).slot ≤ targetSlot := by
      rw [processSlot_slot, UInt64.le_iff_toNat_le, toNat_succ_of_lt hlt]
      exact UInt64.lt_iff_toNat_lt.mp hlt
    rw [processSlot_eq, hcached] at ih
    rw [processSlot_eq, hcached]
    exact ih hfilled (by rwa [processSlot_slot] at hsucc)
  | case2 st hge =>
    obtain rfl : st.slot = targetSlot := UInt64.le_antisymm hle (UInt64.not_lt.mp hge)
    rfl

theorem cachedHeader_stateRoot_ne (hroot : ∀ st, th.state st ≠ 0) (st : State H) :
    (cachedHeader th st).stateRoot ≠ 0 := by
  unfold cachedHeader
  split
  · exact hroot st
  · assumption

/-- Jumping to the target slot is walking there. -/
theorem processSlots_eq_spec (hroot : ∀ st, th.state st ≠ 0) (st : State H) (targetSlot : UInt64) :
    processSlots th st targetSlot = processSlotsSpec th st targetSlot := by
  unfold processSlots processSlotsSpec
  split
  · rfl
  · rename_i h
    have hlt := UInt64.not_le.mp h
    have hsucc : st.slot + 1 ≤ targetSlot := by
      rw [UInt64.le_iff_toNat_le, toNat_succ_of_lt hlt]
      exact UInt64.lt_iff_toNat_lt.mp hlt
    rw [processSlotsLoop, dif_pos hlt, processSlot_eq]
    have hrest : processSlotsLoop th
        { st with latestBlockHeader := cachedHeader th st, slot := st.slot + 1 } targetSlot =
        { st with latestBlockHeader := cachedHeader th st, slot := targetSlot } := by
      apply processSlotsLoop_of_filled
      · exact cachedHeader_stateRoot_ne hroot st
      · exact hsucc
    rw [hrest]

theorem processSlots_eq_spec_sample :
    processSlots sampleHash sampleGenesis 3 = processSlotsSpec sampleHash sampleGenesis 3 ∧
      processSlots sampleHash { sampleGenesis with slot := 3 } 3 =
        processSlotsSpec sampleHash { sampleGenesis with slot := 3 } 3 := by
  have hroot : ∀ st, sampleHash.state st ≠ 0 := fun st ↦ Nat.succ_ne_zero _
  exact ⟨processSlots_eq_spec hroot _ _, processSlots_eq_spec hroot _ _⟩

end SlotBySlot

section Chained

variable {n : ℕ}

/-- A state on which the attestation loop can be run: one between two blocks of a chain from
genesis, or one inside a block, after its header. -/
def Chained (th : TreeHash H) (n : ℕ) (st : State H) : Prop :=
  ∃ time validators g blocks st₀,
    State.fromGenesis th time validators = (.ok g : Result H (State H)) ∧ validators.length = n ∧
    runChain th g blocks = .ok st₀ ∧ (st = st₀ ∨ ∃ block st₁,
      processSlots th st₀ block.slot = .ok st₁ ∧ processBlockHeader th st₁ block = .ok st)

theorem isValidVote_of_no_history (h : st.historicalBlockHashes.toList = [])
    (source target : Checkpoint H) : isValidVote st source target = false := by
  cases hv : isValidVote st source target with
  | false => rfl
  | true =>
    obtain ⟨-, -, -, -, hsource, -⟩ := isValidVote_iff.mp hv
    rw [h] at hsource
    exact nomatch hsource

/-- The loop opens on a tally that meets its invariant, except at genesis, where no vote is
valid. -/
theorem Chained.opens (hth : th.CollisionFree) (h : Chained th n st) :
    st.validators.len = n ∧ (∀ root ∈ st.justificationsRoots.toList, root ≠ 0) ∧
      ∃ slots, rootToSlot st = .ok slots ∧
        (TallyInv th slots n (openTally st) ∨
          ∀ source target, isValidVote st source target = false) := by
  obtain ⟨time, validators, g, blocks, st₀, hg, rfl, hrun, hst⟩ := h
  obtain ⟨vs, rfl, rfl⟩ := State.fromGenesis_eq_ok hg
  have hw := (wellformed_genesis th time vs).runChain hth hrun
  rcases hst with rfl | ⟨block, st₁, h₁, h₂⟩
  · obtain ⟨slots, hslots, hspec⟩ := hw.aligned.rootToSlot hth
    refine ⟨hw.aligned.validators_length, hw.roots_ne_zero, slots, hslots, ?_⟩
    rcases Nat.eq_zero_or_pos st.latestBlockHeader.slot.toNat with hzero | hpos
    · right
      refine isValidVote_of_no_history (List.length_eq_zero_iff.mp ?_)
      rw [hw.aligned.history_length, hzero]
    · exact .inl ⟨hw.aligned, hpos, hw.rows, hspec⟩
  · obtain ⟨hstep, hload, hlen, slots, hslots, hopen⟩ := hw.openTally hth h₁ h₂
    refine ⟨hlen, ?_, slots, hslots, .inl hopen⟩
    obtain ⟨-, rfl⟩ := processSlots_eq_ok.mp h₁
    rw [hstep.roots_eq]
    exact hw.roots_ne_zero

theorem processAttestations_eq {slots : Table H ℕ} (hn : st.validators.len = n)
    (hroots : ∀ root ∈ st.justificationsRoots.toList, root ≠ 0) (hslots : rootToSlot st = .ok slots)
    {as : List (AggregatedAttestation H)} {t : Tally H}
    (hrun : Runs.run (processAttestation slots n) (openTally st) as = .ok t) :
    processAttestations st as = serializeJustifications t n := by
  have hzero : ¬st.justificationsRoots.toList.any (fun root ↦ decide (root = 0)) = true := by
    simpa using fun hmem ↦ hroots 0 hmem rfl
  subst hn
  rw [processAttestations, if_neg hzero, hslots, Exec.ok_bind, hrun, Exec.ok_bind]

end Chained

section Skipped

variable {slots : Table H ℕ} {n : ℕ} {t t' u u' : Tally H} {a : AggregatedAttestation H}
  {as : List (AggregatedAttestation H)}

/-- Whether a round of the loop skips its attestation. -/
def skips (n : ℕ) (t : Tally H) (a : AggregatedAttestation H) : Bool :=
  !isValidVote t.state a.data.source a.data.target || decide (n < a.aggregationBits.len)

/-- The attestations that the loop does not skip. -/
def withoutSkipped (slots : Table H ℕ) (n : ℕ) :
    Tally H → List (AggregatedAttestation H) → List (AggregatedAttestation H)
  | _, [] => []
  | t, a :: as => match processAttestation slots n t a with
    | .ok t' => if skips n t a then withoutSkipped slots n t' as
      else a :: withoutSkipped slots n t' as
    | .error _ => a :: as

/-- A later attestation counts for the root, or one finalizes a block at its slot or above. -/
def Redeemed (slots : Table H ℕ) (n : ℕ) (root : H) (slot : ℕ) :
    Tally H → List (AggregatedAttestation H) → Prop
  | _, [] => False
  | t, a :: as => (skips n t a = false ∧ a.data.target.root = root) ∨
      ∃ t', processAttestation slots n t a = .ok t' ∧
        (slot ≤ t'.state.latestFinalized.slot.toNat ∨ Redeemed slots n root slot t' as)

/-- Wherever the loop meets a valid vote with too many bits for a target without a row, the target
is redeemed later in the list. -/
def NoStrayRow (slots : Table H ℕ) (n : ℕ) : Tally H → List (AggregatedAttestation H) → Prop
  | _, [] => True
  | t, a :: as => ∀ t', processAttestation slots n t a = .ok t' →
      (isValidVote t.state a.data.source a.data.target = true → n < a.aggregationBits.len →
        t.justifications.lookup a.data.target.root = none →
          Redeemed slots n a.data.target.root a.data.target.slot.toNat t' as) ∧
      NoStrayRow slots n t' as

theorem redeemed_cons {root : H} {slot : ℕ} (h : processAttestation slots n t a = .ok t') :
    Redeemed slots n root slot t (a :: as) ↔ (skips n t a = false ∧ a.data.target.root = root) ∨
      slot ≤ t'.state.latestFinalized.slot.toNat ∨ Redeemed slots n root slot t' as := by
  rw [Redeemed]
  simp [h]

theorem noStrayRow_cons (h : processAttestation slots n t a = .ok t') :
    NoStrayRow slots n t (a :: as) ↔
      (isValidVote t.state a.data.source a.data.target = true → n < a.aggregationBits.len →
        t.justifications.lookup a.data.target.root = none →
          Redeemed slots n a.data.target.root a.data.target.slot.toNat t' as) ∧
      NoStrayRow slots n t' as := by
  rw [NoStrayRow]
  simp [h]

theorem window_ext {w w' : JustifiedSlots} {f : ℕ} (hlen : w.toList.length = w'.toList.length)
    (h : ∀ u, isSlotJustified w f u = isSlotJustified w' f u) : w = w' := by
  refine VariableList.ext (List.ext_getElem hlen fun i hi hi' ↦ ?_)
  have hat := h (f + 1 + i)
  rw [isSlotJustified_of_lt (by omega), isSlotJustified_of_lt (by omega),
    show f + 1 + i - f - 1 = i by omega] at hat
  rwa [List.getD_eq_getElem _ _ hi, List.getD_eq_getElem _ _ hi'] at hat

/-- What a round does to the state depends on the state and on the target's row alone. -/
theorem Effect.state_eq (e : Effect slots n t a t') (e' : Effect slots n u a u')
    (hstate : t.state = u.state) (hrow : countedRow n t a = countedRow n u a) :
    t'.state = u'.state := by
  cases e <;> cases e'
  case justified.justified window _ _ _ hlen hj _ window' _ _ _ hlen' hj' _ =>
    rw [hstate] at hlen hj
    obtain rfl : window = window' :=
      window_ext (hlen.trans hlen'.symm) fun slot ↦ (hj slot).trans (hj' slot).symm
    simp only [hstate]
  case finalized.finalized window _ _ _ _ hlen hj _ window' _ _ _ _ hlen' hj' _ =>
    rw [hstate] at hlen hj
    obtain rfl : window = window' :=
      window_ext (hlen.trans hlen'.symm) fun slot ↦ (hj slot).trans (hj' slot).symm
    simp only [hstate]
  -- the other pairs differ in one of the loop's tests, or leave the state alone
  all_goals first | exact hstate | omega | simp_all

theorem TallyInv.slots_of_lookup (h : TallyInv th slots n t) {r : H} {row : List Bool}
    (hrow : t.justifications.lookup r = some row) :
    ∃ slot, slots.lookup r = some slot ∧ t.state.latestFinalized.slot.toNat < slot := by
  obtain ⟨hr, slot, hslot, hlt, -⟩ := h.rows.target r row hrow
  exact ⟨slot, h.slots_eq r slot hslot hr hlt, hlt⟩

theorem TallyInv.slots_target (h : TallyInv th slots n t)
    (hv : isValidVote t.state a.data.source a.data.target = true) :
    slots.lookup a.data.target.root = some a.data.target.slot.toNat := by
  obtain ⟨-, hnot, -, hne, -, htarget, -, -⟩ := isValidVote_iff.mp hv
  exact h.slots_eq _ _ htarget hne (lt_of_not_isSlotJustified hnot)

theorem TallyInv.lookup_eq_none (h : TallyInv th slots n t) {r : H} {slot : ℕ}
    (hslot : slots.lookup r = some slot) (hle : slot ≤ t.state.latestFinalized.slot.toNat) :
    t.justifications.lookup r = none := by
  cases hrow : t.justifications.lookup r with
  | none => rfl
  | some row =>
    obtain ⟨slot', hslot', hlt⟩ := h.slots_of_lookup hrow
    rw [hslot] at hslot'
    obtain rfl := Option.some.inj hslot'
    exact absurd hle (not_le.mpr hlt)

/-- The row of another root than the target goes when its slot is finalized, and stays as it is
otherwise. -/
theorem Effect.lookup_other (e : Effect slots n t a t') (h : TallyInv th slots n t) {r : H}
    {slot : ℕ} (hr : r ≠ a.data.target.root) (hslot : slots.lookup r = some slot) :
    t'.justifications.lookup r = if slot ≤ t'.state.latestFinalized.slot.toNat then none
      else t.justifications.lookup r := by
  have hold : t.justifications.lookup r =
      if slot ≤ t.state.latestFinalized.slot.toNat then none else t.justifications.lookup r := by
    split
    · rename_i hle
      exact h.lookup_eq_none hslot hle
    · rfl
  cases e with
  | skipped hv => exact hold
  | touched hv hlen => rw [AList.lookup_insert_ne hr, ← hold]
  | recorded hv hlen hsuper => rw [AList.lookup_insert_ne hr, ← hold]
  | justified window hv hlen hsuper hwlen hwj hbetween => rw [AList.lookup_erase_ne hr, ← hold]
  | finalized window hv hlen hsuper hle hwlen hwj hbetween =>
    rw [Table.lookup_retain, AList.lookup_erase_ne hr]
    simp only [liveRow, hslot]
    by_cases hfin : slot ≤ a.data.source.slot.toNat
    · simp [hfin]
    · cases t.justifications.lookup r with
      | none => simp
      | some row => simp [hfin, Nat.not_le.mp hfin]

/-- After a round that counts, the target's row is the counted one, or gone once the target is
justified. -/
theorem Effect.lookup_target (e : Effect slots n t a t') (hcounts : skips n t a = false) :
    t'.justifications.lookup a.data.target.root =
      if supermajority ((countedRow n t a).count true) n then none else some (countedRow n t a) := by
  have hcounts := Bool.or_eq_false_iff.mp hcounts
  cases e with
  | skipped hv => simp [hv] at hcounts
  | touched hv hlen => simp [hlen] at hcounts
  | recorded hv hlen hsuper => rw [hsuper, AList.lookup_insert, if_neg Bool.false_ne_true]
  | justified window hv hlen hsuper hwlen hwj hbetween => rw [hsuper, AList.lookup_erase, if_pos rfl]
  | finalized window hv hlen hsuper hle hwlen hwj hbetween =>
    rw [hsuper, Table.lookup_retain, AList.lookup_erase, if_pos rfl, Option.filter_none]

/-- Two tallies that agree but for rows in which no one has voted, which only the first has. -/
structure Shadows (n : ℕ) (t u : Tally H) : Prop where
  state_eq : t.state = u.state
  lookup : ∀ r, t.justifications.lookup r = u.justifications.lookup r ∨
    t.justifications.lookup r = some (List.replicate n false) ∧ u.justifications.lookup r = none

/-- A row that only the first of two tallies has. -/
def Stray (t u : Tally H) (r : H) : Prop :=
  t.justifications.lookup r ≠ none ∧ u.justifications.lookup r = none

theorem Shadows.entry_eq (h : Shadows n t u) (r : H) :
    entry n t.justifications r = entry n u.justifications r := by
  rcases h.lookup r with heq | ⟨hrow, hnone⟩
  · rw [entry, entry, heq]
  · rw [entry, entry, hrow, hnone]
    rfl

theorem Shadows.tallyInv (hs : Shadows n t u) (h : TallyInv th slots n t) :
    TallyInv th slots n u := by
  have hsub : ∀ r row, u.justifications.lookup r = some row →
      t.justifications.lookup r = some row := by
    intro r row hrow
    rcases hs.lookup r with heq | ⟨-, hnone⟩
    · rw [heq, hrow]
    · rw [hrow] at hnone
      exact nomatch hnone
  obtain ⟨haligned, hstarted, hrows, hslots⟩ := h
  rw [hs.state_eq] at haligned hstarted hrows hslots
  exact ⟨haligned, hstarted, ⟨fun r row hrow ↦ hrows.length_eq r row (hsub r row hrow),
    fun r row hrow ↦ hrows.target r row (hsub r row hrow)⟩, hslots⟩

theorem Shadows.skips_eq (h : Shadows n t u) (a : AggregatedAttestation H) :
    skips n t a = skips n u a := by
  rw [skips, skips, h.state_eq]

/-- A round that counts, on both tallies: the strays that are left are those of before that are
neither the target nor finalized. -/
theorem Shadows.count (hs : Shadows n t u) (h : TallyInv th slots n t)
    (hcounts : skips n t a = false) (e : Effect slots n t a t') :
    ∃ u', processAttestation slots n u a = .ok u' ∧ Shadows n t' u' ∧
      ∀ r slot, slots.lookup r = some slot → (Stray t' u' r ↔
        Stray t u r ∧ r ≠ a.data.target.root ∧ ¬slot ≤ t'.state.latestFinalized.slot.toNat) := by
  have hu := hs.tallyInv h
  obtain ⟨u', hstep⟩ := hu.exists_ok a
  have e' := hu.effect hstep
  have hrow : countedRow n t a = countedRow n u a := by rw [countedRow, countedRow, hs.entry_eq]
  have hstate := e.state_eq e' hs.state_eq hrow
  have htarget : t'.justifications.lookup a.data.target.root =
      u'.justifications.lookup a.data.target.root := by
    rw [e.lookup_target hcounts, e'.lookup_target (hs.skips_eq a ▸ hcounts), hrow]
  refine ⟨u', hstep, ⟨hstate, fun r ↦ ?_⟩, fun r slot hslot ↦ ?_⟩
  · by_cases hr : r = a.data.target.root
    · exact .inl (hr ▸ htarget)
    · cases hslot : slots.lookup r with
      | none =>
        -- a root without a slot has no row
        have hnone : ∀ {v : Tally H}, TallyInv th slots n v → v.justifications.lookup r = none := by
          intro v hv
          cases hv' : v.justifications.lookup r with
          | none => rfl
          | some row =>
            obtain ⟨slot, hslot', -⟩ := hv.slots_of_lookup hv'
            rw [hslot] at hslot'
            cases hslot'
        exact .inl ((hnone (e.preserves h)).trans (hnone (e'.preserves hu)).symm)
      | some slot =>
        rw [e.lookup_other h hr hslot, e'.lookup_other hu hr hslot, hstate]
        split
        · exact .inl rfl
        · exact hs.lookup r
  · by_cases hr : r = a.data.target.root
    · subst hr
      simp [Stray, htarget]
    · simp only [Stray, e.lookup_other h hr hslot, e'.lookup_other hu hr hslot, hstate]
      split
      · rename_i hle
        simp [hle]
      · rename_i hgt
        simp [hgt, hr]

/-- A round that skips its attestation, on the first tally alone. -/
theorem Shadows.skip (hs : Shadows n t u) (hskips : skips n t a = true)
    (e : Effect slots n t a t') :
    Shadows n t' u ∧ t'.state = t.state ∧ ∀ r, Stray t' u r ↔ Stray t u r ∨
      (isValidVote t.state a.data.source a.data.target = true ∧ n < a.aggregationBits.len ∧
        t.justifications.lookup a.data.target.root = none ∧ r = a.data.target.root) := by
  cases e with
  | skipped hv => exact ⟨hs, rfl, fun r ↦ by simp [hv]⟩
  | touched hv hlen =>
    refine ⟨⟨hs.state_eq, fun r ↦ ?_⟩, rfl, fun r ↦ ?_⟩
    · dsimp only
      by_cases hr : r = a.data.target.root
      · subst hr
        rw [AList.lookup_insert]
        rcases hs.lookup a.data.target.root with heq | ⟨hrow, hnone⟩
        · cases hu : u.justifications.lookup a.data.target.root with
          | none => exact .inr ⟨by rw [entry, heq, hu]; rfl, rfl⟩
          | some row => exact .inl (by rw [entry, heq, hu]; rfl)
        · exact .inr ⟨by rw [entry, hrow]; rfl, hnone⟩
      · rw [AList.lookup_insert_ne hr]
        exact hs.lookup r
    · simp only [Stray, hv, hlen, true_and]
      by_cases hr : r = a.data.target.root
      · subst hr
        rw [AList.lookup_insert]
        rcases hs.lookup a.data.target.root with heq | ⟨hrow, hnone⟩
        · simp [heq]
        · simp [hrow, hnone]
      · rw [AList.lookup_insert_ne hr]
        simp [hr]
  | recorded hv hlen hsuper => simp [skips, hv, Nat.not_lt.mpr hlen] at hskips
  | justified window hv hlen hsuper hwlen hwj hbetween =>
    simp [skips, hv, Nat.not_lt.mpr hlen] at hskips
  | finalized window hv hlen hsuper hle hwlen hwj hbetween =>
    simp [skips, hv, Nat.not_lt.mpr hlen] at hskips

/-- The loop with and without the attestations it skips. -/
theorem Shadows.run (hs : Shadows n t u) (h : TallyInv th slots n t)
    (as : List (AggregatedAttestation H)) :
    ∃ v w, Runs.run (processAttestation slots n) t as = .ok v ∧
      Runs.run (processAttestation slots n) u (withoutSkipped slots n t as) = .ok w ∧
      Shadows n v w ∧ TallyInv th slots n v ∧
      ((∀ r, ¬Stray v w r) ↔ (∀ r slot, slots.lookup r = some slot → Stray t u r →
        Redeemed slots n r slot t as) ∧ NoStrayRow slots n t as) := by
  induction as generalizing t u with
  | nil =>
    refine ⟨t, u, rfl, rfl, hs, h, ?_⟩
    simp only [Redeemed, NoStrayRow, and_true, imp_false]
    constructor
    · exact fun hnone r _ _ ↦ hnone r
    · intro hnone r hr
      obtain ⟨row, hrow⟩ := Option.ne_none_iff_exists'.mp hr.1
      obtain ⟨slot, hslot, -⟩ := h.slots_of_lookup hrow
      exact hnone r slot hslot hr
  | cons a as ih =>
    obtain ⟨t', hstep⟩ := h.exists_ok a
    have e := h.effect hstep
    have h' := e.preserves h
    cases hskips : skips n t a with
    | true =>
      obtain ⟨hs', hstate, hstray⟩ := hs.skip hskips e
      obtain ⟨v, w, hv, hw, hshadow, hinv, hiff⟩ := ih hs' h'
      refine ⟨v, w, Runs.run_cons_eq_ok.mpr ⟨t', hstep, hv⟩, ?_, hshadow, hinv, hiff.trans ?_⟩
      · simp only [withoutSkipped, hstep, hskips, if_true]
        exact hw
      · rw [noStrayRow_cons hstep, ← and_assoc]
        refine and_congr_left fun _ ↦ ⟨fun hall ↦ ⟨fun r slot hslot hr ↦ ?_, fun hv hlen hnone ↦ ?_⟩,
          fun hall r slot hslot hr ↦ ?_⟩
        · exact (redeemed_cons hstep).mpr (.inr (.inr (hall r slot hslot ((hstray r).mpr (.inl hr)))))
        · exact hall _ _ (h.slots_target hv) ((hstray _).mpr (.inr ⟨hv, hlen, hnone, rfl⟩))
        · rcases (hstray r).mp hr with hr | ⟨hv, hlen, hnone, rfl⟩
          · rcases (redeemed_cons hstep).mp (hall.1 r slot hslot hr) with ⟨hno, -⟩ | hle | hlater
            · rw [hskips] at hno
              exact nomatch hno
            · exact absurd (h.lookup_eq_none hslot (hstate ▸ hle)) hr.1
            · exact hlater
          · rw [h.slots_target hv] at hslot
            obtain rfl := Option.some.inj hslot
            exact hall.2 hv hlen hnone
    | false =>
      obtain ⟨u', hu', hs', hstray⟩ := hs.count h hskips e
      obtain ⟨v, w, hv, hw, hshadow, hinv, hiff⟩ := ih hs' h'
      refine ⟨v, w, Runs.run_cons_eq_ok.mpr ⟨t', hstep, hv⟩, ?_, hshadow, hinv, hiff.trans ?_⟩
      · simp only [withoutSkipped, hstep, hskips, Bool.false_eq_true, if_false]
        exact Runs.run_cons_eq_ok.mpr ⟨u', hu', hw⟩
      · have hcounts := Bool.or_eq_false_iff.mp hskips
        have hlong : ¬n < a.aggregationBits.len := of_decide_eq_false hcounts.2
        rw [noStrayRow_cons hstep]
        constructor
        · intro hall
          refine ⟨fun r slot hslot hr ↦ (redeemed_cons hstep).mpr ?_,
            fun _ hlen ↦ absurd hlen hlong, hall.2⟩
          by_cases htarget : a.data.target.root = r
          · exact .inl ⟨hskips, htarget⟩
          by_cases hle : slot ≤ t'.state.latestFinalized.slot.toNat
          · exact .inr (.inl hle)
          · exact .inr (.inr (hall.1 r slot hslot
              ((hstray r slot hslot).mpr ⟨hr, fun heq ↦ htarget heq.symm, hle⟩)))
        · intro hall
          refine ⟨fun r slot hslot hr ↦ ?_, hall.2.2⟩
          obtain ⟨hr, hother, hlive⟩ := (hstray r slot hslot).mp hr
          rcases (redeemed_cons hstep).mp (hall.1 r slot hslot hr) with ⟨-, htarget⟩ | hle | hlater
          · exact absurd htarget.symm hother
          · exact absurd hle hlive
          · exact hlater

theorem serializeJustifications_congr (hstate : t.state = u.state)
    (hlookup : ∀ r, t.justifications.lookup r = u.justifications.lookup r) :
    serializeJustifications t n = serializeJustifications u n := by
  have hkeys : Table.sortedKeys t.justifications = Table.sortedKeys u.justifications := by
    refine List.Perm.eq_of_pairwise (fun a b _ _ hab hba ↦ absurd hab hba.asymm)
      (Table.sortedKeys_pairwise _) (Table.sortedKeys_pairwise _) ?_
    exact (List.perm_insertionSort _ _).trans ((Table.keys_perm hlookup).trans
      (List.perm_insertionSort _ _).symm)
  simp only [serializeJustifications, hkeys, hlookup, hstate]

/-- A stray row is written into the state. -/
theorem Shadows.serialize_eq_iff (hs : Shadows n t u) (h : TallyInv th slots n t) :
    serializeJustifications u n = serializeJustifications t n ↔ ∀ r, ¬Stray t u r := by
  constructor
  · intro heq r hr
    have hu := hs.tallyInv h
    obtain ⟨roots, votes, hok, hroots, -, -⟩ := h.rows.serialize h.aligned.validators_length
    obtain ⟨roots', votes', hok', hroots', -, -⟩ := hu.rows.serialize hu.aligned.validators_length
    have hsame : roots' = roots := congrArg State.justificationsRoots
      (Except.ok.inj (hok'.symm.trans (heq.trans hok)))
    obtain ⟨row, hrow⟩ := Option.ne_none_iff_exists'.mp hr.1
    have hmem : r ∈ Table.sortedKeys t.justifications :=
      Table.mem_sortedKeys.mpr (Table.mem_iff_lookup.mpr ⟨row, hrow⟩)
    rw [← hroots, ← hsame, hroots', Table.mem_sortedKeys, Table.mem_iff_lookup] at hmem
    obtain ⟨row', hrow'⟩ := hmem
    rw [hr.2] at hrow'
    exact nomatch hrow'
  · intro hnone
    refine serializeJustifications_congr hs.state_eq.symm fun r ↦ ?_
    rcases hs.lookup r with heq | ⟨hrow, hnone'⟩
    · exact heq.symm
    · exact absurd ⟨by simp [hrow], hnone'⟩ (hnone r)

theorem run_of_no_votes (h : ∀ source target, isValidVote t.state source target = false)
    (as : List (AggregatedAttestation H)) :
    Runs.run (processAttestation slots n) t as = .ok t ∧ withoutSkipped slots n t as = [] ∧
      NoStrayRow slots n t as := by
  induction as with
  | nil => exact ⟨rfl, rfl, trivial⟩
  | cons a as ih =>
    have hstep : processAttestation slots n t a = .ok t := by
      simp [processAttestation, processAttestationWith, h]
    have hskips : skips n t a = true := by simp [skips, h]
    refine ⟨Runs.run_cons_eq_ok.mpr ⟨t, hstep, ih.1⟩, ?_, (noStrayRow_cons hstep).mpr ⟨?_, ih.2.2⟩⟩
    · simp only [withoutSkipped, hstep, hskips, if_true, ih.2.1]
    · intro hv
      rw [h] at hv
      exact nomatch hv

/-- Leaving out what the loop skips gives the same state if and only if no skipped vote leaves a
row behind. -/
theorem skipped_harmless_iff (hth : th.CollisionFree) (h : Chained th n st)
    (as : List (AggregatedAttestation H)) :
    ∃ slots, rootToSlot st = .ok slots ∧
      (processAttestations st (withoutSkipped slots n (openTally st) as) =
        processAttestations st as ↔ NoStrayRow slots n (openTally st) as) := by
  obtain ⟨hn, hroots, slots, hslots, hopen⟩ := h.opens hth
  refine ⟨slots, hslots, ?_⟩
  rcases hopen with hinv | hnone
  · have hrefl : Shadows n (openTally st) (openTally st) := ⟨rfl, fun r ↦ .inl rfl⟩
    obtain ⟨v, w, hv, hw, hshadow, hclosed, hiff⟩ := hrefl.run hinv as
    rw [processAttestations_eq hn hroots hslots hv, processAttestations_eq hn hroots hslots hw,
      hshadow.serialize_eq_iff hclosed, hiff]
    simp [Stray]
  · have hidle (as : List (AggregatedAttestation H)) :
        Runs.run (processAttestation slots n) (openTally st) as = .ok (openTally st) ∧
          withoutSkipped slots n (openTally st) as = [] ∧ NoStrayRow slots n (openTally st) as :=
      run_of_no_votes hnone as
    obtain ⟨hrun, hkept, hstray⟩ := hidle as
    rw [hkept]
    simp only [hstray, iff_true]
    rw [processAttestations_eq hn hroots hslots hrun,
      processAttestations_eq hn hroots hslots (hidle []).1]

/-- The state inside the second block, after its header. -/
def sampleOpened : Result ℕ (State ℕ) := do
  let st₀ ← runChain sampleHash sampleGenesis [Sample.first]
  let st₁ ← processSlots sampleHash st₀ Sample.second.slot
  processBlockHeader sampleHash st₁ Sample.second

theorem sampleOpened_chained {st : State ℕ} (h : sampleOpened = .ok st) : Chained sampleHash 3 st := by
  obtain ⟨st₀, h₀, h⟩ := Exec.bind_eq_ok.mp h
  obtain ⟨st₁, h₁, h₂⟩ := Exec.bind_eq_ok.mp h
  exact ⟨0, sampleValidators, sampleGenesis, [Sample.first], st₀, sampleGenesis_eq, rfl, h₀,
    .inr ⟨Sample.second, st₁, h₁, h₂⟩⟩

/-- A valid vote of the first of three validators, in a bitfield of four. -/
def longVote : AggregatedAttestation ℕ :=
  sampleVote ⟨[true, false, false, false], by decide⟩ sampleOrigin Sample.first

theorem skipped_harmless_iff_sample :
    ∃ st, Chained sampleHash 3 st ∧ ∃ slots, rootToSlot st = .ok slots ∧
      (processAttestations st (withoutSkipped slots 3 (openTally st)
          [longVote, sampleVote ⟨[true], by decide⟩ sampleOrigin Sample.first]) =
        processAttestations st
          [longVote, sampleVote ⟨[true], by decide⟩ sampleOrigin Sample.first] ↔
        NoStrayRow slots 3 (openTally st)
          [longVote, sampleVote ⟨[true], by decide⟩ sampleOrigin Sample.first]) := by
  have hview : sampleOpened.toOption.map (fun st ↦ st.slot) = some 2 := by decide +kernel
  obtain ⟨st, hst, -⟩ := Exec.exists_ok_of_map hview
  have hchained := sampleOpened_chained hst
  exact ⟨st, hchained, skipped_harmless_iff sampleHash_collisionFree hchained _⟩

/-- The skipped vote leaves a row without votes in the state. -/
theorem skipped_vote_leaves_row :
    ∃ st slots, Chained sampleHash 3 st ∧ rootToSlot st = .ok slots ∧
      withoutSkipped slots 3 (openTally st) [longVote] = [] ∧
      (processAttestations st []).toOption.map (fun st' ↦ st'.justificationsRoots.toList) = some [] ∧
      (processAttestations st [longVote]).toOption.map (fun st' ↦ st'.justificationsRoots.toList) =
        some [sampleHash.block Sample.first] ∧
      processAttestations st (withoutSkipped slots 3 (openTally st) [longVote]) ≠
        processAttestations st [longVote] := by
  have hview : sampleOpened.toOption.map (fun st ↦ decide (
      (rootToSlot st).toOption.map (fun slots ↦ (withoutSkipped slots 3 (openTally st) [longVote]).length) =
        some 0 ∧
      (processAttestations st []).toOption.map (fun st' ↦ st'.justificationsRoots.toList) = some [] ∧
      (processAttestations st [longVote]).toOption.map (fun st' ↦ st'.justificationsRoots.toList) =
        some [sampleHash.block Sample.first])) = some true := by decide +kernel
  obtain ⟨st, hst, hview⟩ := Exec.exists_ok_of_map hview
  obtain ⟨hkept, hclean, hfull⟩ := of_decide_eq_true hview
  obtain ⟨slots, hslots, hkept⟩ := Exec.exists_ok_of_map hkept
  have hnil := List.length_eq_zero_iff.mp hkept
  refine ⟨st, slots, sampleOpened_chained hst, hslots, hnil, hclean, hfull, fun heq ↦ ?_⟩
  rw [← heq, hnil, hclean] at hfull
  exact nomatch hfull

end Skipped

section Split

variable {slots : Table H ℕ} {n : ℕ} {t t' : Tally H} {a : AggregatedAttestation H}
  {d : AttestationData H} {b b₁ b₂ : AggregationBits}

/-- A counted vote below the threshold is noted in the target's row. -/
theorem TallyInv.step_below (h : TallyInv th slots n t)
    (hv : isValidVote t.state a.data.source a.data.target = true) (hlen : a.aggregationBits.len ≤ n)
    (hsuper : supermajority ((countedRow n t a).count true) n = false) :
    processAttestation slots n t a =
      .ok ⟨t.state, t.justifications.insert a.data.target.root (countedRow n t a)⟩ := by
  simp only [processAttestation, processAttestationWith, hv, Bool.not_true, Bool.false_eq_true,
    if_false, Nat.not_lt.mpr hlen, h.raise_eq hlen, Exec.index_some, Exec.ok_bind, hsuper,
    Exec.pure_eq_ok]

/-- Past the threshold the row is dropped, so what it held no longer matters. -/
theorem TallyInv.step_above (h : TallyInv th slots n t)
    (hv : isValidVote t.state a.data.source a.data.target = true) (hlen : a.aggregationBits.len ≤ n)
    (hsuper : supermajority ((countedRow n t a).count true) n = true) :
    processAttestation slots n t a = (justify t a.data.target >>= fun justified ↦
      tryFinalize slots justified a.data.source a.data.target) := by
  simp only [processAttestation, processAttestationWith, hv, Bool.not_true, Bool.false_eq_true,
    if_false, Nat.not_lt.mpr hlen, h.raise_eq hlen, Exec.index_some, Exec.ok_bind, hsuper, if_true,
    justify, erase_insert]

/-- Once its target is justified, a vote is no longer valid. -/
theorem Effect.not_valid_of_above (e : Effect slots n t a t')
    (hv : isValidVote t.state a.data.source a.data.target = true) (hlen : a.aggregationBits.len ≤ n)
    (hsuper : supermajority ((countedRow n t a).count true) n = true) :
    isValidVote t'.state a.data.source a.data.target = false := by
  have hjustified : justifiedAt t'.state a.data.target.slot.toNat = true := by
    cases e with
    | skipped hno =>
      rw [hv] at hno
      cases hno
    | touched _ hlong => exact absurd hlong (Nat.not_lt.mpr hlen)
    | recorded _ _ hno =>
      rw [hsuper] at hno
      cases hno
    | justified window _ _ _ hwlen hwj hbetween => simp [justifiedAt, hwj]
    | finalized window _ _ _ hle hwlen hwj hbetween => simp [justifiedAt, hwj]
  cases hvalid : isValidVote t'.state a.data.source a.data.target with
  | false => rfl
  | true =>
    obtain ⟨-, hnot, -⟩ := isValidVote_iff.mp hvalid
    cases hnot.symm.trans hjustified

/-- One round over a vote is the two rounds over its parts. -/
theorem TallyInv.split (h : TallyInv th slots n t) (hb : b.len ≤ n) (hb₁ : b₁.len ≤ n)
    (hb₂ : b₂.len ≤ n)
    (hunion : ∀ i, b.toList.getD i false = (b₁.toList.getD i false || b₂.toList.getD i false)) :
    processAttestation slots n t ⟨b, d⟩ =
      (processAttestation slots n t ⟨b₁, d⟩ >>= fun t₁ ↦ processAttestation slots n t₁ ⟨b₂, d⟩) := by
  cases hv : isValidVote t.state d.source d.target with
  | false => simp [processAttestation, processAttestationWith, hv]
  | true =>
    have hle : (countedRow n t ⟨b₁, d⟩).count true ≤ (countedRow n t ⟨b, d⟩).count true :=
      count_orBits_le fun i hi ↦ by rw [hunion, hi, Bool.true_or]
    cases hsuper₁ : supermajority ((countedRow n t ⟨b₁, d⟩).count true) n with
    | true =>
      obtain ⟨t₁, hstep⟩ := h.exists_ok ⟨b₁, d⟩
      have hno := (h.effect hstep).not_valid_of_above hv hb₁ hsuper₁
      have hskip : processAttestation slots n t₁ ⟨b₂, d⟩ = .ok t₁ := by
        simp [processAttestation, processAttestationWith, hno]
      rw [hstep, Exec.ok_bind, hskip, ← hstep,
        h.step_above (a := ⟨b, d⟩) hv hb (supermajority_mono hle hsuper₁),
        h.step_above (a := ⟨b₁, d⟩) hv hb₁ hsuper₁]
    | false =>
      rw [h.step_below (a := ⟨b₁, d⟩) hv hb₁ hsuper₁, Exec.ok_bind]
      have hnoted : TallyInv th slots n ⟨t.state, t.justifications.insert d.target.root
          (countedRow n t ⟨b₁, d⟩)⟩ :=
        h.insert (a := ⟨b₁, d⟩) hv (by rw [countedRow, length_orBits, h.entry_length])
      have hrow : countedRow n ⟨t.state, t.justifications.insert d.target.root
          (countedRow n t ⟨b₁, d⟩)⟩ ⟨b₂, d⟩ = countedRow n t ⟨b, d⟩ := by
        simp only [countedRow, entry, AList.lookup_insert, Option.getD_some]
        exact orBits_orBits hunion
      cases hsuper : supermajority ((countedRow n t ⟨b, d⟩).count true) n with
      | true =>
        rw [h.step_above (a := ⟨b, d⟩) hv hb hsuper,
          hnoted.step_above (a := ⟨b₂, d⟩) hv hb₂ (by rw [hrow, hsuper])]
        simp only [justify, erase_insert]
      | false =>
        rw [h.step_below (a := ⟨b, d⟩) hv hb hsuper,
          hnoted.step_below (a := ⟨b₂, d⟩) hv hb₂ (by rw [hrow, hsuper]), hrow, AList.insert_insert]

/-- Replacing a vote by two consecutive parts of it does not change the result. -/
theorem split_attestation_same (hth : th.CollisionFree) (h : Chained th n st) (hb : b.len ≤ n)
    (hb₁ : b₁.len ≤ n) (hb₂ : b₂.len ≤ n)
    (hunion : ∀ i, b.toList.getD i false = (b₁.toList.getD i false || b₂.toList.getD i false))
    (pre post : List (AggregatedAttestation H)) :
    processAttestations st (pre ++ ⟨b, d⟩ :: post) =
      processAttestations st (pre ++ ⟨b₁, d⟩ :: ⟨b₂, d⟩ :: post) := by
  obtain ⟨hn, hroots, slots, hslots, hopen⟩ := h.opens hth
  rcases hopen with hinv | hnone
  · obtain ⟨t, ht⟩ := hinv.exists_run pre
    have hmid := hinv.run ht
    obtain ⟨t', ht'⟩ := hmid.exists_run (⟨b, d⟩ :: post)
    obtain ⟨t₂, hstep, hpost⟩ := Runs.run_cons_eq_ok.mp ht'
    rw [hmid.split hb hb₁ hb₂ hunion] at hstep
    obtain ⟨t₁, hstep₁, hstep₂⟩ := Exec.bind_eq_ok.mp hstep
    have hparts : Runs.run (processAttestation slots n) t (⟨b₁, d⟩ :: ⟨b₂, d⟩ :: post) = .ok t' :=
      Runs.run_cons_eq_ok.mpr ⟨t₁, hstep₁, Runs.run_cons_eq_ok.mpr ⟨t₂, hstep₂, hpost⟩⟩
    rw [processAttestations_eq hn hroots hslots (Runs.run_append_eq_ok.mpr ⟨t, ht, ht'⟩),
      processAttestations_eq hn hroots hslots (Runs.run_append_eq_ok.mpr ⟨t, ht, hparts⟩)]
  · have hrun (as : List (AggregatedAttestation H)) :
        Runs.run (processAttestation slots n) (openTally st) as = .ok (openTally st) :=
      (run_of_no_votes hnone as).1
    rw [processAttestations_eq hn hroots hslots (hrun _),
      processAttestations_eq hn hroots hslots (hrun _)]

/-- The first two validators vote together, or one after the other: the threshold is crossed
either way. -/
theorem split_attestation_same_sample :
    ∃ st, sampleOpened = .ok st ∧
      (processAttestations st [sampleVote ⟨[true, true], by decide⟩ sampleOrigin
        Sample.first]).toOption.map (fun st' ↦ st'.latestJustified) =
          some (sampleCheckpoint Sample.first) ∧
      processAttestations st
          [sampleVote ⟨[true, true], by decide⟩ sampleOrigin Sample.first] =
        processAttestations st
          [sampleVote ⟨[true], by decide⟩ sampleOrigin Sample.first,
            sampleVote ⟨[false, true], by decide⟩ sampleOrigin Sample.first] := by
  have hview : sampleOpened.toOption.map (fun st ↦ (processAttestations st
      [sampleVote ⟨[true, true], by decide⟩ sampleOrigin Sample.first]).toOption.map
        (fun st' ↦ st'.latestJustified)) = some (some (sampleCheckpoint Sample.first)) := by
    decide +kernel
  obtain ⟨st, hst, hjustified⟩ := Exec.exists_ok_of_map hview
  refine ⟨st, hst, hjustified, ?_⟩
  refine split_attestation_same sampleHash_collisionFree (sampleOpened_chained hst) (by decide)
    (by decide) (by decide) (fun i ↦ ?_) [] []
  rcases i with _ | _ | i
  · rfl
  · rfl
  · rfl

end Split

end Ethlambda.StateTransition
