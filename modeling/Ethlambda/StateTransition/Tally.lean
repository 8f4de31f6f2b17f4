import Ethlambda.StateTransition.Invariant

namespace Ethlambda.StateTransition

open Ethlambda.Base Ethlambda.Types

set_option linter.unusedSectionVars false

variable {H : Type} [LinearOrder H] [Zero H] {th : TreeHash H} {st st' : State H}
  {slots : Table H ℕ} {n : ℕ} {t t' : Tally H} {a : AggregatedAttestation H}

def countedRow (n : ℕ) (t : Tally H) (a : AggregatedAttestation H) : List Bool :=
  orBits (entry n t.justifications a.data.target.root) a.aggregationBits.toList

/-- The five outcomes of a round of the loop, each with what it does to the votes and to the
justified slots. -/
inductive Effect (slots : Table H ℕ) (n : ℕ) (t : Tally H) (a : AggregatedAttestation H) :
    Tally H → Prop
  | skipped : isValidVote t.state a.data.source a.data.target = false → Effect slots n t a t
  | touched : isValidVote t.state a.data.source a.data.target = true →
      n < a.aggregationBits.len →
      Effect slots n t a ⟨t.state, t.justifications.insert a.data.target.root
        (entry n t.justifications a.data.target.root)⟩
  | recorded : isValidVote t.state a.data.source a.data.target = true →
      a.aggregationBits.len ≤ n →
      supermajority ((countedRow n t a).count true) n = false →
      Effect slots n t a ⟨t.state,
        t.justifications.insert a.data.target.root (countedRow n t a)⟩
  | justified (window : JustifiedSlots) :
      isValidVote t.state a.data.source a.data.target = true →
      a.aggregationBits.len ≤ n →
      supermajority ((countedRow n t a).count true) n = true →
      window.toList.length = t.state.justifiedSlots.toList.length →
      (∀ u, isSlotJustified window t.state.latestFinalized.slot.toNat u =
        (decide (u = a.data.target.slot.toNat) || justifiedAt t.state u)) →
      justifiableBetween t.state.latestFinalized.slot.toNat a.data.source a.data.target =
        .ok true →
      Effect slots n t a
        ⟨{ t.state with latestJustified := a.data.target, justifiedSlots := window },
          t.justifications.erase a.data.target.root⟩
  | finalized (window : JustifiedSlots) :
      isValidVote t.state a.data.source a.data.target = true →
      a.aggregationBits.len ≤ n →
      supermajority ((countedRow n t a).count true) n = true →
      t.state.latestFinalized.slot.toNat ≤ a.data.source.slot.toNat →
      window.toList.length = t.state.justifiedSlots.toList.length -
        (a.data.source.slot.toNat - t.state.latestFinalized.slot.toNat) →
      (∀ u, isSlotJustified window a.data.source.slot.toNat u =
        (decide (u ≤ a.data.source.slot.toNat) || decide (u = a.data.target.slot.toNat) ||
          justifiedAt t.state u)) →
      justifiableBetween t.state.latestFinalized.slot.toNat a.data.source a.data.target =
        .ok false →
      Effect slots n t a
        ⟨{ t.state with
            latestJustified := a.data.target
            latestFinalized := a.data.source
            justifiedSlots := window },
          Table.retain (fun root _ ↦ liveRow slots a.data.source root)
            (t.justifications.erase a.data.target.root)⟩

/-- What holds between two rounds of the loop. -/
structure TallyInv (th : TreeHash H) (slots : Table H ℕ) (n : ℕ) (t : Tally H) : Prop where
  aligned : Aligned th n t.state
  started : 0 < t.state.latestBlockHeader.slot.toNat
  rows : Rows n t.state t.justifications
  slots_eq : ∀ r s, t.state.historicalBlockHashes.toList[s]? = some r → r ≠ 0 →
    t.state.latestFinalized.slot.toNat < s → slots.lookup r = some s

theorem TallyInv.entry_length (h : TallyInv th slots n t) (r : H) :
    (entry n t.justifications r).length = n := by
  unfold entry
  cases hr : t.justifications.lookup r with
  | none => simp
  | some row => exact h.rows.length_eq r row hr

theorem TallyInv.target_lt (h : TallyInv th slots n t)
    (hv : isValidVote t.state a.data.source a.data.target = true) :
    t.state.latestFinalized.slot.toNat < a.data.target.slot.toNat ∧
    a.data.target.slot.toNat - t.state.latestFinalized.slot.toNat - 1 <
      t.state.justifiedSlots.toList.length := by
  obtain ⟨-, hnot, -, -, -, htarget, -, -⟩ := isValidVote_iff.mp hv
  have hf := lt_of_not_isSlotJustified hnot
  have hlt := (List.getElem?_eq_some_iff.mp htarget).1
  rw [h.aligned.history_length] at hlt
  have hw := h.aligned.window_length
  exact ⟨hf, by omega⟩

/-- The finalized slot itself is always a candidate, so a source below it leaves one between
source and target: only a source at or above it can be finalized. -/
theorem finalized_le_source {source target : Checkpoint H}
    (h : justifiableBetween st.latestFinalized.slot.toNat source target = .ok false)
    (ht : st.latestFinalized.slot.toNat < target.slot.toNat) :
    st.latestFinalized.slot.toNat ≤ source.slot.toNat := by
  by_contra hlt
  have hno := not_justifiable_of_justifiableBetween h
    (show source.slot.toNat < st.latestFinalized.slot.toNat by omega) ht
  rw [slotIsJustifiableAfter_self] at hno
  exact nomatch hno

theorem TallyInv.raise_eq (h : TallyInv th slots n t) (hlen : a.aggregationBits.len ≤ n) :
    raise a.aggregationBits.toList (entry n t.justifications a.data.target.root) =
      some (countedRow n t a) :=
  raise_eq_some (by rw [h.entry_length]; exact hlen)

theorem erase_insert {m : VoteMap H} {r : H} {row : List Bool} :
    (m.insert r row).erase r = m.erase r := by
  apply AList.ext
  change List.kerase r (m.insert r row).entries = List.kerase r m.entries
  rw [AList.entries_insert]
  exact List.kerase_cons_eq rfl

theorem TallyInv.effect {known : Table H ℕ} (h : TallyInv th known n t)
    (hs : processAttestation slots n t a = .ok t') : Effect slots n t a t' := by
  rcases processAttestationWith_cases hs with
    ⟨hv, rfl⟩ | ⟨hv, ⟨hlen, rfl⟩ | ⟨hlen, votes, hvotes, hrest⟩⟩
  · exact .skipped hv
  · exact .touched hv hlen
  obtain rfl : countedRow n t a = votes := by
    rw [h.raise_eq hlen] at hvotes
    exact Option.some.inj hvotes
  rcases hrest with ⟨hsuper, rfl⟩ | ⟨hsuper, window, hwindow, hfinish⟩
  · exact .recorded hv hlen hsuper
  obtain ⟨htf, htl⟩ := h.target_lt hv
  obtain ⟨w, hw, hwlen, hwj⟩ := setJustified_eq_ok (ε := Error H) htf htl
  obtain rfl : window = w := by
    rw [hw] at hwindow
    exact (Except.ok.inj hwindow).symm
  rw [erase_insert] at hfinish
  rcases tryFinalize_cases hfinish with ⟨hbetween, rfl⟩ | ⟨hbetween, hadv⟩
  · exact .justified window hv hlen hsuper hwlen hwj hbetween
  · obtain ⟨hle, shifted, hdrop, rfl⟩ := advanceFinalized_eq_ok hadv
    refine .finalized shifted hv hlen hsuper hle ?_ (fun u ↦ ?_) hbetween
    · rw [hdrop, List.length_drop, hwlen]
    · rcases Nat.lt_or_ge a.data.source.slot.toNat u with hu | hu
      · rw [isSlotJustified_drop hle hu hdrop, hwj]
        simp [Nat.not_le.mpr hu, justifiedAt]
      · rw [isSlotJustified_of_le hu]
        simp [hu]

theorem rows_insert {row : List Bool} {r : H} {m : VoteMap H} (h : Rows n st m)
    (hlen : row.length = n) (hr : r ≠ 0) {s : ℕ}
    (hs : st.historicalBlockHashes.toList[s]? = some r)
    (hf : st.latestFinalized.slot.toNat < s) (hj : justifiedAt st s = false) :
    Rows n st (m.insert r row) := by
  constructor
  · intro x y hxy
    rw [Table.lookup_insert_eq_ite] at hxy
    split at hxy
    · rw [← Option.some.inj hxy]
      exact hlen
    · exact h.length_eq x y hxy
  · intro x y hxy
    rw [Table.lookup_insert_eq_ite] at hxy
    split at hxy
    · rename_i hx
      subst hx
      exact ⟨hr, s, hs, hf, hj⟩
    · exact h.target x y hxy

theorem TallyInv.insert (h : TallyInv th slots n t)
    (hv : isValidVote t.state a.data.source a.data.target = true) {row : List Bool}
    (hrow : row.length = n) :
    TallyInv th slots n ⟨t.state, t.justifications.insert a.data.target.root row⟩ := by
  obtain ⟨-, hnot, -, hne, -, htarget, -, -⟩ := isValidVote_iff.mp hv
  exact ⟨h.aligned, h.started, rows_insert h.rows hrow hne htarget (h.target_lt hv).1 hnot,
    h.slots_eq⟩

theorem Aligned.justify {target : Checkpoint H} {window : JustifiedSlots} (h : Aligned th n st)
    (htarget : st.historicalBlockHashes.toList[target.slot.toNat]? = some target.root)
    (hf : st.latestFinalized.slot.toNat < target.slot.toNat)
    (hlen : window.toList.length = st.justifiedSlots.toList.length)
    (hj : isSlotJustified window st.latestFinalized.slot.toNat target.slot.toNat = true) :
    Aligned th n { st with latestJustified := target, justifiedSlots := window } := by
  have hlt := (List.getElem?_eq_some_iff.mp htarget).1
  rw [h.history_length] at hlt
  constructor
  case justified_le => dsimp only; omega
  case finalized_le_justified => exact hf.le
  case justified_marked => exact hj
  case window_length => exact hlen.trans h.window_length
  case justified_root => exact fun _ ↦ htarget
  case history_length => exact h.history_length
  case validators_length => exact h.validators_length
  case finalized_le => exact h.finalized_le
  case history_linked => exact h.history_linked
  case header_linked => exact h.header_linked
  case finalized_root => exact h.finalized_root

theorem Aligned.finalize {source target : Checkpoint H} {window : JustifiedSlots}
    (h : Aligned th n st)
    (hsource : st.historicalBlockHashes.toList[source.slot.toNat]? = some source.root)
    (htarget : st.historicalBlockHashes.toList[target.slot.toNat]? = some target.root)
    (hf : st.latestFinalized.slot.toNat ≤ source.slot.toNat)
    (hst : source.slot.toNat < target.slot.toNat)
    (hlen : window.toList.length = st.justifiedSlots.toList.length -
      (source.slot.toNat - st.latestFinalized.slot.toNat))
    (hj : isSlotJustified window source.slot.toNat target.slot.toNat = true) :
    Aligned th n { st with
      latestJustified := target, latestFinalized := source, justifiedSlots := window } := by
  have hlt := (List.getElem?_eq_some_iff.mp htarget).1
  rw [h.history_length] at hlt
  have hw := h.window_length
  constructor
  case finalized_le => dsimp only; omega
  case justified_le => dsimp only; omega
  case finalized_le_justified => exact hst.le
  case justified_marked => exact hj
  case window_length => dsimp only; omega
  case finalized_root => exact fun _ ↦ hsource
  case justified_root => exact fun _ ↦ htarget
  case history_length => exact h.history_length
  case validators_length => exact h.validators_length
  case history_linked => exact h.history_linked
  case header_linked => exact h.header_linked

theorem TallyInv.justified (h : TallyInv th slots n t) {window : JustifiedSlots}
    (hv : isValidVote t.state a.data.source a.data.target = true)
    (hwlen : window.toList.length = t.state.justifiedSlots.toList.length)
    (hwj : ∀ u, isSlotJustified window t.state.latestFinalized.slot.toNat u =
      (decide (u = a.data.target.slot.toNat) || justifiedAt t.state u)) :
    TallyInv th slots n
      ⟨{ t.state with latestJustified := a.data.target, justifiedSlots := window },
        t.justifications.erase a.data.target.root⟩ := by
  obtain ⟨-, hnot, -, hne, -, htarget, -, -⟩ := isValidVote_iff.mp hv
  have htf := (h.target_lt hv).1
  refine ⟨h.aligned.justify htarget htf hwlen (by simp [hwj]), h.started, ?_, h.slots_eq⟩
  constructor
  · intro r row hrow
    rw [Table.lookup_erase_eq_ite] at hrow
    split at hrow
    · exact nomatch hrow
    · exact h.rows.length_eq r row hrow
  · intro r row hrow
    rw [Table.lookup_erase_eq_ite] at hrow
    split at hrow
    · exact nomatch hrow
    · rename_i hr
      obtain ⟨hr0, s, hs, hfs, hjs⟩ := h.rows.target r row hrow
      refine ⟨hr0, s, hs, hfs, ?_⟩
      have hst : s ≠ a.data.target.slot.toNat := by
        rintro rfl
        rw [htarget] at hs
        exact hr (Option.some.inj hs).symm
      simp [justifiedAt, hwj, hst]
      exact hjs

theorem Effect.preserves (e : Effect slots n t a t') (h : TallyInv th slots n t) :
    TallyInv th slots n t' := by
  cases e with
  | skipped hv => exact h
  | touched hv hlen => exact h.insert hv (h.entry_length _)
  | recorded hv hlen hsuper =>
    exact h.insert hv (by rw [countedRow, length_orBits, h.entry_length])
  | justified window hv hlen hsuper hwlen hwj hbetween => exact h.justified hv hwlen hwj
  | finalized window hv hlen hsuper hle hwlen hwj hbetween =>
    obtain ⟨-, hnot, -, hne, hsource, htarget, hst, -⟩ := isValidVote_iff.mp hv
    have htf := (h.target_lt hv).1
    refine ⟨h.aligned.finalize hsource htarget hle hst hwlen (by simp [hwj]), h.started, ?_,
      fun r s hs hr hlt ↦ h.slots_eq r s hs hr (hle.trans_lt hlt)⟩
    constructor
    · intro r row hrow
      rw [Table.lookup_retain, Option.filter_eq_some_iff, Table.lookup_erase_eq_ite] at hrow
      split at hrow
      · exact nomatch hrow.1
      · exact h.rows.length_eq r row hrow.1
    · intro r row hrow
      rw [Table.lookup_retain, Option.filter_eq_some_iff, Table.lookup_erase_eq_ite] at hrow
      split at hrow
      · exact nomatch hrow.1
      · rename_i hr
        obtain ⟨hr0, s, hs, hfs, hjs⟩ := h.rows.target r row hrow.1
        have hlive := hrow.2
        simp only [liveRow, h.slots_eq r s hs hr0 hfs, decide_eq_true_eq] at hlive
        refine ⟨hr0, s, hs, hlive, ?_⟩
        have hst : s ≠ a.data.target.slot.toNat := by
          rintro rfl
          rw [htarget] at hs
          exact hr (Option.some.inj hs).symm
        simp [justifiedAt, hwj, hst, Nat.not_le.mpr hlive]
        exact hjs

/-- No round stops the process: every expect, index and subtraction is covered. -/
theorem TallyInv.exists_ok (h : TallyInv th slots n t) (a : AggregatedAttestation H) :
    ∃ t', processAttestation slots n t a = .ok t' := by
  unfold processAttestation processAttestationWith
  dsimp only
  split
  · exact ⟨t, rfl⟩
  rename_i hv
  replace hv : isValidVote t.state a.data.source a.data.target = true := by simpa using hv
  split
  · exact ⟨_, rfl⟩
  rename_i hlen
  rw [h.raise_eq (Nat.not_lt.mp hlen), Exec.index_some, Exec.ok_bind]
  split
  · obtain ⟨htf, htl⟩ := h.target_lt hv
    obtain ⟨-, -, -, -, hsource, -, hst, -⟩ := isValidVote_iff.mp hv
    obtain ⟨w, hw, -, -⟩ := setJustified_eq_ok (ε := Error H) htf htl
    have hsmall : a.data.source.slot.toNat + 1 < 2 ^ 64 := by
      have hlt := (List.getElem?_eq_some_iff.mp hsource).1
      have hle : _ ≤ 262144 := t.state.historicalBlockHashes.length_le
      omega
    simp only [justify, hw, Exec.ok_bind, Exec.pure_eq_ok, tryFinalize]
    obtain ⟨b, hb⟩ : ∃ b, justifiableBetween t.state.latestFinalized.slot.toNat a.data.source
        a.data.target = .ok b := ⟨_, justifiableBetween_eq_ok.mpr ⟨hsmall, rfl⟩⟩
    rw [hb, Exec.ok_bind]
    cases b with
    | true => exact ⟨_, rfl⟩
    | false =>
      have hle := finalized_le_source hb htf
      obtain ⟨w', hw', -⟩ := shiftWindow_eq_ok (ε := Error H) w
        (a.data.source.slot.toNat - t.state.latestFinalized.slot.toNat)
      simp only [Bool.false_eq_true, if_false, advanceFinalized, Exec.sub64, hle, if_true,
        Exec.ok_bind, hw']
      exact ⟨_, rfl⟩
  · exact ⟨_, rfl⟩

end Ethlambda.StateTransition
