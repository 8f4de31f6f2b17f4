import Ethlambda.StateTransition.Tally

namespace Ethlambda.StateTransition

open Ethlambda.Base Ethlambda.Types

set_option linter.unusedSectionVars false

variable {H : Type} [LinearOrder H] [Zero H] {th : TreeHash H} {st st' : State H}
  {slots : Table H ℕ} {n : ℕ} {t t' : Tally H} {a : AggregatedAttestation H} {block : Block H}

section Votes

/-- A slot with a block of the history whose votes can have it as their source. -/
def Rooted (st : State H) (s : ℕ) : Prop :=
  ∃ q, q ≠ 0 ∧ st.historicalBlockHashes.toList[s]? = some q ∧ justifiedAt st s = true

/-- The blocks of the history that a vote can have as its target: they have a justified block
below them. -/
def Open (st : State H) (r : H) : Prop :=
  r ≠ 0 ∧ ∃ s, st.historicalBlockHashes.toList[s]? = some r ∧ justifiedAt st s = false ∧
    ∃ s₀ < s, Rooted st s₀

/-- What no round of the loop changes, whatever the state it began with: the window covers the
history, the row of a block that can be voted for has a flag for every validator, and what was
justified since has a block below it, or below the finalized slot, that was justified at first. -/
structure Guarded (st : State H) (t : Tally H) : Prop where
  history_eq : t.state.historicalBlockHashes = st.historicalBlockHashes
  covered : st.historicalBlockHashes.toList.length ≤
    t.state.latestFinalized.slot.toNat + t.state.justifiedSlots.toList.length + 1
  marks : ∀ s, justifiedAt t.state s = false → justifiedAt st s = false
  based : ∀ s, justifiedAt t.state s = true → justifiedAt st s = true ∨
    ∃ s₀, Rooted st s₀ ∧ (s₀ < s ∨ s₀ ≤ t.state.latestFinalized.slot.toNat)
  row_le : ∀ r row, t.justifications.lookup r = some row → row.length ≤ st.validators.len
  row_full : ∀ r row, t.justifications.lookup r = some row → Open st r →
    row.length = st.validators.len
  keys : ∀ r row, t.justifications.lookup r = some row →
    r ∈ st.justificationsRoots.toList ∨ Open st r

/-- The source of a vote stands on a block that was justified when the loop began. -/
theorem Guarded.rooted_source (h : Guarded st t)
    (hv : isValidVote t.state a.data.source a.data.target = true) : ∃ s₀, Rooted st s₀ ∧
      (s₀ ≤ a.data.source.slot.toNat ∨ s₀ ≤ t.state.latestFinalized.slot.toNat) := by
  obtain ⟨hmark, -, hne, -, hsource, -, -, -⟩ := isValidVote_iff.mp hv
  rw [h.history_eq] at hsource
  rcases h.based _ hmark with hfirst | ⟨s₀, hrooted, hle⟩
  · exact ⟨_, ⟨_, hne, hsource, hfirst⟩, .inl le_rfl⟩
  · exact ⟨s₀, hrooted, hle.imp_left le_of_lt⟩

theorem Guarded.open_target (h : Guarded st t)
    (hv : isValidVote t.state a.data.source a.data.target = true) : Open st a.data.target.root := by
  obtain ⟨s₀, hrooted, hle⟩ := h.rooted_source hv
  obtain ⟨-, hnot, -, hne, -, htarget, hlt, -⟩ := isValidVote_iff.mp hv
  have hf := lt_of_not_isSlotJustified hnot
  rw [h.history_eq] at htarget
  exact ⟨hne, _, htarget, h.marks _ hnot, s₀, by omega, hrooted⟩

theorem Guarded.entry_length (h : Guarded st t) {r : H} (hr : Open st r) :
    (entry st.validators.len t.justifications r).length = st.validators.len := by
  unfold entry
  cases hrow : t.justifications.lookup r with
  | none => simp
  | some row => exact h.row_full r row hrow hr

theorem Guarded.insert (h : Guarded st t) {r : H} {row : List Bool} (hr : Open st r)
    (hrow : row.length = st.validators.len) :
    Guarded st ⟨t.state, t.justifications.insert r row⟩ := by
  have hcases {r' : H} {row' : List Bool}
      (hl : (t.justifications.insert r row).lookup r' = some row') :
      (r' = r ∧ row' = row) ∨ t.justifications.lookup r' = some row' := by
    rw [Table.lookup_insert_eq_ite] at hl
    split at hl
    · exact .inl ⟨‹_›, (Option.some.inj hl).symm⟩
    · exact .inr hl
  refine ⟨h.history_eq, h.covered, h.marks, h.based, fun r' row' hl ↦ ?_,
    fun r' row' hl ho ↦ ?_, fun r' row' hl ↦ ?_⟩
  · rcases hcases hl with ⟨-, rfl⟩ | hl
    · exact hrow.le
    · exact h.row_le r' row' hl
  · rcases hcases hl with ⟨-, rfl⟩ | hl
    · exact hrow
    · exact h.row_full r' row' hl ho
  · rcases hcases hl with ⟨rfl, -⟩ | hl
    · exact .inr hr
    · exact h.keys r' row' hl

theorem Guarded.window (h : Guarded st t)
    (hv : isValidVote t.state a.data.source a.data.target = true) :
    t.state.latestFinalized.slot.toNat < a.data.target.slot.toNat ∧
    a.data.target.slot.toNat - t.state.latestFinalized.slot.toNat - 1 <
      t.state.justifiedSlots.toList.length := by
  obtain ⟨-, hnot, -, -, -, htarget, -, -⟩ := isValidVote_iff.mp hv
  have hf := lt_of_not_isSlotJustified hnot
  rw [h.history_eq] at htarget
  have hlt := (List.getElem?_eq_some_iff.mp htarget).1
  have hcov := h.covered
  exact ⟨hf, by omega⟩

/-- Fewer rows and more marks are no harm. -/
theorem Guarded.mono (h : Guarded st t)
    (hhist : t'.state.historicalBlockHashes = t.state.historicalBlockHashes)
    (hcov : st.historicalBlockHashes.toList.length ≤
      t'.state.latestFinalized.slot.toNat + t'.state.justifiedSlots.toList.length + 1)
    (hmarks : ∀ s, justifiedAt t'.state s = false → justifiedAt t.state s = false)
    (hbased : ∀ s, justifiedAt t'.state s = true → justifiedAt st s = true ∨
      ∃ s₀, Rooted st s₀ ∧ (s₀ < s ∨ s₀ ≤ t'.state.latestFinalized.slot.toNat))
    (hrows : ∀ r row, t'.justifications.lookup r = some row → t.justifications.lookup r = some row) :
    Guarded st t' :=
  ⟨hhist.trans h.history_eq, hcov, fun s hs ↦ h.marks s (hmarks s hs), hbased,
    fun r row hl ↦ h.row_le r row (hrows r row hl), fun r row hl ↦ h.row_full r row (hrows r row hl),
    fun r row hl ↦ h.keys r row (hrows r row hl)⟩

theorem lookup_of_erase_insert {m : VoteMap H} {r r' : H} {row row' : List Bool}
    (h : ((m.insert r row).erase r).lookup r' = some row') : m.lookup r' = some row' := by
  rw [erase_insert, Table.lookup_erase_eq_ite] at h
  split at h
  · exact nomatch h
  · exact h

theorem Guarded.justify (h : Guarded st t)
    (hv : isValidVote t.state a.data.source a.data.target = true) (row : List Bool) :
    ∃ t', justify ⟨t.state, t.justifications.insert a.data.target.root row⟩ a.data.target = .ok t' ∧
      Guarded st t' ∧ t'.state.latestFinalized = t.state.latestFinalized := by
  obtain ⟨hf, hlen⟩ := h.window hv
  obtain ⟨w, hw, hwlen, hmarks⟩ := setJustified_eq_ok (ε := Error H) hf hlen
  refine ⟨⟨{ t.state with latestJustified := a.data.target, justifiedSlots := w },
    (t.justifications.insert a.data.target.root row).erase a.data.target.root⟩, ?_, ?_, rfl⟩
  · simp only [StateTransition.justify, hw, Exec.ok_bind]
    rfl
  · refine h.mono rfl ?_ (fun s hs ↦ ?_) (fun s hs ↦ ?_) fun r row' hl ↦ lookup_of_erase_insert hl
    · rw [hwlen]
      exact h.covered
    · have hboth := (hmarks s).symm.trans hs
      rw [Bool.or_eq_false_iff] at hboth
      exact hboth.2
    · have heither := (hmarks s).symm.trans hs
      rw [Bool.or_eq_true, decide_eq_true_eq] at heither
      rcases heither with rfl | hold
      · obtain ⟨s₀, hrooted, hle⟩ := h.rooted_source hv
        obtain ⟨-, -, -, -, -, -, hlt, -⟩ := isValidVote_iff.mp hv
        exact .inr ⟨s₀, hrooted, hle.imp_left fun hle ↦ by omega⟩
      · exact h.based s hold

theorem Guarded.advanceFinalized (h : Guarded st t) {source : Checkpoint H}
    (hle : t.state.latestFinalized.slot.toNat ≤ source.slot.toNat)
    (hsource : ∃ s₀ ≤ source.slot.toNat, Rooted st s₀) :
    ∃ t', advanceFinalized slots t source = .ok t' ∧ Guarded st t' := by
  obtain ⟨w, hw, hdrop⟩ := shiftWindow_eq_ok (ε := Error H) t.state.justifiedSlots
    (source.slot.toNat - t.state.latestFinalized.slot.toNat)
  refine ⟨⟨{ t.state with latestFinalized := source, justifiedSlots := w },
    Table.retain (fun root _ ↦ liveRow slots source root) t.justifications⟩, ?_, ?_⟩
  · simp only [StateTransition.advanceFinalized, Exec.sub64, hle, if_true, Exec.ok_bind, hw]
    rfl
  · refine h.mono rfl ?_ (fun s hs ↦ ?_) (fun s _ ↦ ?_) fun r row hl ↦ ?_
    · have hcov := h.covered
      dsimp only
      rw [hdrop, List.length_drop]
      omega
    · have hlt := lt_of_not_isSlotJustified hs
      exact (isSlotJustified_drop hle hlt hdrop).symm.trans hs
    · obtain ⟨s₀, hs₀, hrooted⟩ := hsource
      exact .inr ⟨s₀, hrooted, .inr hs₀⟩
    · rw [Table.lookup_retain, Option.filter_eq_some_iff] at hl
      exact hl.1

theorem Guarded.tryFinalize (h : Guarded st t) {source target : Checkpoint H}
    (hlt : source.slot.toNat < target.slot.toNat)
    (hfin : t.state.latestFinalized.slot.toNat < target.slot.toNat)
    (hsource : ∃ s₀, Rooted st s₀ ∧
      (s₀ ≤ source.slot.toNat ∨ s₀ ≤ t.state.latestFinalized.slot.toNat)) :
    ∃ t', tryFinalize slots t source target = .ok t' ∧ Guarded st t' := by
  have hbound := target.slot.toNat_lt
  obtain ⟨b, hb⟩ : ∃ b, justifiableBetween t.state.latestFinalized.slot.toNat source target = .ok b :=
    ⟨_, justifiableBetween_eq_ok.mpr ⟨by omega, rfl⟩⟩
  unfold StateTransition.tryFinalize
  rw [hb, Exec.ok_bind]
  cases b with
  | true => exact ⟨t, rfl, h⟩
  | false =>
    have hle := finalized_le_source hb hfin
    obtain ⟨s₀, hrooted, hs₀⟩ := hsource
    exact h.advanceFinalized hle ⟨s₀, by omega, hrooted⟩

/-- No attestation makes a round fail or leaves the guard behind. -/
theorem Guarded.processAttestation (h : Guarded st t) (slots : Table H ℕ)
    (a : AggregatedAttestation H) :
    ∃ t', processAttestation slots st.validators.len t a = .ok t' ∧ Guarded st t' := by
  unfold StateTransition.processAttestation processAttestationWith
  dsimp only
  split
  · exact ⟨t, rfl, h⟩
  rename_i hv
  replace hv : isValidVote t.state a.data.source a.data.target = true := by simpa using hv
  have hopen := h.open_target hv
  have hentry := h.entry_length hopen
  split
  · exact ⟨_, rfl, h.insert hopen hentry⟩
  rename_i hbits
  have hraise : raise a.aggregationBits.toList
      (entry st.validators.len t.justifications a.data.target.root) = some (orBits
        (entry st.validators.len t.justifications a.data.target.root) a.aggregationBits.toList) :=
    raise_eq_some (by rw [hentry]; exact Nat.not_lt.mp hbits)
  rw [hraise, Exec.index_some, Exec.ok_bind]
  split
  · obtain ⟨t₁, ht₁, hguard, hfin⟩ := h.justify hv (orBits
      (entry st.validators.len t.justifications a.data.target.root) a.aggregationBits.toList)
    rw [ht₁, Exec.ok_bind]
    obtain ⟨-, -, -, -, -, -, hlt, -⟩ := isValidVote_iff.mp hv
    refine hguard.tryFinalize hlt ?_ ?_
    · rw [hfin]
      exact (h.window hv).1
    · rw [hfin]
      exact h.rooted_source hv
  · exact ⟨_, rfl, h.insert hopen (by rw [length_orBits, hentry])⟩

theorem Guarded.run (h : Guarded st t) (slots : Table H ℕ) (as : List (AggregatedAttestation H)) :
    ∃ t', Runs.run (StateTransition.processAttestation slots st.validators.len) t as = .ok t' ∧
      Guarded st t' := by
  induction as generalizing t with
  | nil => exact ⟨t, rfl, h⟩
  | cons a as ih =>
    obtain ⟨t₁, ht₁, h₁⟩ := h.processAttestation slots a
    obtain ⟨t', ht', h'⟩ := ih h₁
    exact ⟨t', Runs.run_cons_eq_ok.mpr ⟨t₁, ht₁, ht'⟩, h'⟩

theorem lookup_loadJustifications_some {r : H} {row : List Bool}
    (h : (loadJustifications st).lookup r = some row) :
    ∃ i, st.justificationsRoots.toList[i]? = some r ∧
      row = (st.justificationsValidators.toList.drop (i * st.validators.len)).take
        st.validators.len := by
  rcases Table.lookup_putBatch_cases h with hmem | hnone
  · obtain ⟨⟨r', i⟩, hi, heq⟩ := List.mem_map.mp hmem
    obtain ⟨rfl, rfl⟩ := Prod.mk.inj heq
    exact ⟨i, List.mem_zipIdx_iff_getElem?.mp hi, rfl⟩
  · exact nomatch hnone

theorem guarded_openTally
    (hcov : st.historicalBlockHashes.toList.length ≤
      st.latestFinalized.slot.toNat + st.justifiedSlots.toList.length + 1)
    (hrows : ∀ r row, (loadJustifications st).lookup r = some row → Open st r →
      row.length = st.validators.len) : Guarded st (openTally st) := by
  refine ⟨rfl, hcov, fun _ h ↦ h, fun _ h ↦ .inl h, fun r row hl ↦ ?_, hrows, fun r row hl ↦ ?_⟩
  · obtain ⟨i, -, rfl⟩ := lookup_loadJustifications_some hl
    exact List.length_take_le _ _
  · obtain ⟨i, hi, -⟩ := lookup_loadJustifications_some hl
    exact .inl (List.mem_of_getElem? hi)

theorem length_flatten_le {rows : List (List Bool)} (h : ∀ row ∈ rows, row.length ≤ n) :
    rows.flatten.length ≤ rows.length * n := by
  induction rows with
  | nil => simp
  | cons row rows ih =>
    rw [List.flatten_cons, List.length_append, List.length_cons, Nat.add_mul, Nat.one_mul]
    have hrow := h row List.mem_cons_self
    have hrest := ih fun r hr ↦ h r (List.mem_cons_of_mem row hr)
    omega

/-- The votes can be written back if there are not too many rows. -/
theorem Guarded.serializeJustifications (h : Guarded st t)
    (hkeys : (Table.sortedKeys t.justifications).length ≤ historicalRootsLimit) :
    Exec.NoPanic (serializeJustifications t st.validators.len) := by
  have hvals : st.validators.len ≤ validatorRegistryLimit := st.validators.length_le
  have hcap : (Table.sortedKeys t.justifications).length * st.validators.len ≤
      historicalRootsLimit * validatorRegistryLimit := Nat.mul_le_mul hkeys hvals
  obtain ⟨bits, hbits, hbl⟩ := BitList.exists_withCapacity hcap
  let row (r : H) : List Bool := (t.justifications.lookup r).getD []
  have hlookup : ∀ r ∈ Table.sortedKeys t.justifications,
      t.justifications.lookup r = some (row r) := by
    intro r hr
    obtain ⟨x, hx⟩ := Table.mem_iff_lookup.mp (Table.mem_sortedKeys.mp hr)
    simp [row, hx]
  have hflat : ((Table.sortedKeys t.justifications).map row).flatten.length ≤
      (Table.sortedKeys t.justifications).length * st.validators.len := by
    rw [← List.length_map (f := row)]
    refine length_flatten_le fun x hx ↦ ?_
    obtain ⟨r, hr, rfl⟩ := List.mem_map.mp hx
    exact h.row_le r _ (hlookup r hr)
  have hraise : raise ((Table.sortedKeys t.justifications).map row).flatten bits.toList =
      some (orBits bits.toList ((Table.sortedKeys t.justifications).map row).flatten) :=
    raise_eq_some (by rw [hbl, List.length_replicate]; exact hflat)
  obtain ⟨votes, hvotes, -⟩ := VariableList.exists_new (N := historicalRootsLimit * validatorRegistryLimit)
    (l := orBits bits.toList ((Table.sortedKeys t.justifications).map row).flatten)
    (by rw [length_orBits]; exact bits.length_le)
  obtain ⟨roots, hroots, -⟩ := VariableList.exists_new hkeys
  simp only [StateTransition.serializeJustifications, hbits, Exec.expect_some, Exec.ok_bind,
    mapM_lookup row hlookup, Exec.index_some, hraise, hvotes, hroots]
  exact .ok _

theorem processAttestations_noPanic (named : List H) (as : List (AggregatedAttestation H))
    (hfin : st.latestFinalized.slot.toNat + 1 < 2 ^ 64)
    (hcov : st.historicalBlockHashes.toList.length ≤
      st.latestFinalized.slot.toNat + st.justifiedSlots.toList.length + 1)
    (hopen : ∀ r, Open st r → r ∈ named)
    (hrows : 0 ∉ st.justificationsRoots.toList → ∀ r ∈ named, ∀ row,
      (loadJustifications st).lookup r = some row → row.length = st.validators.len)
    (hfit : 0 ∉ st.justificationsRoots.toList →
      (st.justificationsRoots.toList ++ named).dedup.length ≤ historicalRootsLimit) :
    Exec.NoPanic (processAttestations st as) := by
  unfold processAttestations
  rw [Exec.noPanic_ite]
  refine ⟨fun _ ↦ .fail _, fun hzero ↦ ?_⟩
  replace hzero : 0 ∉ st.justificationsRoots.toList := fun hmem ↦ hzero (by simpa using hmem)
  obtain ⟨slots, hslots⟩ : ∃ slots, rootToSlot st = .ok slots := by
    unfold rootToSlot
    rw [Exec.add64_eq_ok.mpr ⟨hfin, rfl⟩]
    exact ⟨_, rfl⟩
  have hguard := guarded_openTally hcov fun r row hl ho ↦ hrows hzero r (hopen r ho) row hl
  obtain ⟨t, ht, hclosed⟩ := hguard.run slots as
  rw [hslots, Exec.ok_bind, ht, Exec.ok_bind]
  refine hclosed.serializeJustifications (le_trans ?_ (hfit hzero))
  refine (List.subperm_of_subset (Table.sortedKeys_pairwise _).nodup fun r hr ↦ ?_).length_le
  obtain ⟨row, hrow⟩ := Table.mem_iff_lookup.mp (Table.mem_sortedKeys.mp hr)
  rw [List.mem_dedup, List.mem_append]
  exact (hclosed.keys r row hrow).imp id (hopen r)

end Votes

section Next

/-- There is a next slot, and room for it in the history. -/
def Fits (st : State H) : Prop :=
  st.slot.toNat + 1 < 2 ^ 64 ∧ st.historicalBlockHashes.len +
    (st.slot.toNat + 1 - st.latestBlockHeader.slot.toNat) ≤ historicalRootsLimit

/-- The blocks that a vote in the next block can have as its target: they are not justified, and a
block below them is. -/
def openRoots (th : TreeHash H) (st : State H) : List H :=
  let places := (st.historicalBlockHashes.toList ++ [th.header (cachedHeader th st)]).zipIdx
  (places.filter fun p ↦ decide (p.1 ≠ 0) && !justifiedAt st p.2 &&
    places.any fun q ↦ decide (q.2 < p.2) && decide (q.1 ≠ 0) && justifiedAt st q.2).map Prod.fst

/-- What the lists of a state must be like for every block to be processed on it. -/
structure Extendable (th : TreeHash H) (st : State H) : Prop where
  history_le : st.slot.toNat + 1 < 2 ^ 64 →
    st.historicalBlockHashes.len ≤ st.latestBlockHeader.slot.toNat
  window_fits : Fits st → st.latestBlockHeader.slot.toNat ≤
      st.latestFinalized.slot.toNat + st.historicalBlockHashes.len + 1 ∨
    2 ^ 64 ≤ st.latestFinalized.slot.toNat + historicalRootsLimit + 2
  rows_full : Fits st → 0 ∉ st.justificationsRoots.toList →
    ∀ r ∈ openRoots th st, ∀ row, (loadJustifications st).lookup r = some row →
      row.length = st.validators.len
  rows_fit : Fits st → 0 ∉ st.justificationsRoots.toList →
    (st.justificationsRoots.toList ++ openRoots th st).dedup.length ≤ historicalRootsLimit

theorem mem_openRoots {r q : H} {s s₀ : ℕ} (hr : r ≠ 0)
    (hs : (st.historicalBlockHashes.toList ++ [th.header (cachedHeader th st)])[s]? = some r)
    (hmark : justifiedAt st s = false) (hlt : s₀ < s) (hq : q ≠ 0)
    (hs₀ : (st.historicalBlockHashes.toList ++ [th.header (cachedHeader th st)])[s₀]? = some q)
    (hmark₀ : justifiedAt st s₀ = true) : r ∈ openRoots th st := by
  refine List.mem_map.mpr ⟨(r, s), List.mem_filter.mpr ⟨?_, ?_⟩, rfl⟩
  · exact List.mem_zipIdx_iff_getElem?.mpr hs
  · rw [Bool.and_eq_true, List.any_eq_true]
    exact ⟨by simp [hr, hmark], (q, s₀), List.mem_zipIdx_iff_getElem?.mpr hs₀,
      by simp [hlt, hq, hmark₀]⟩

theorem openRoots_subset :
    openRoots th st ⊆ st.historicalBlockHashes.toList ++ [th.header (cachedHeader th st)] := by
  intro r hr
  obtain ⟨p, hp, rfl⟩ := List.mem_map.mp hr
  exact List.fst_mem_of_mem_zipIdx (List.mem_filter.mp hp).1

/-- No block makes an extendable state panic: the window covers the history, whatever the gap, and
no vote meets a short row. -/
theorem Extendable.stateTransition_noPanic (h : Extendable th st)
    (hheader : st.latestBlockHeader.slot ≤ st.slot) (hfin : st.latestFinalized.slot ≤ st.slot)
    (block : Block H) : Exec.NoPanic (stateTransition th st block) := by
  rw [UInt64.le_iff_toNat_le] at hheader hfin
  have hbound := block.slot.toNat_lt
  unfold stateTransition processBlock
  rw [Exec.noPanic_bind]
  constructor
  · unfold processSlots
    rw [Exec.noPanic_ite]
    exact ⟨fun _ ↦ .fail _, fun _ ↦ .ok _⟩
  intro st₁ h₁
  obtain ⟨hslot, rfl⟩ := processSlots_eq_ok.mp h₁
  rw [UInt64.lt_iff_toNat_lt] at hslot
  have hhist := h.history_le (by omega)
  rw [Exec.noPanic_bind, Exec.noPanic_bind]
  have hfits {k : ℕ} (hk : st.slot.toNat + 1 ≤ k) (hlimit : st.historicalBlockHashes.len +
      (k - st.latestBlockHeader.slot.toNat) ≤ historicalRootsLimit) : Fits st :=
    ⟨by omega, by omega⟩
  refine ⟨⟨?_, fun st₂ h₂ ↦ ?_⟩, fun st₃ _ ↦ ?_⟩
  · rw [processBlockHeader_noPanic_iff]
    intro _
    dsimp only
    rw [cachedHeader_slot]
    refine ⟨by omega, fun hlimit ↦ ?_⟩
    rcases h.window_fits (hfits hslot hlimit) with hwindow | hwindow
    · omega
    · omega
  · obtain ⟨-, -, -, -, -, hashes, window, hhashes, hwindow, rfl⟩ := processBlockHeader_eq_ok h₂
    dsimp only at hhashes hwindow
    rw [cachedHeader_slot] at hhashes
    obtain ⟨hcov, hmarks⟩ := extendToSlot_spec hwindow
    have hlen : hashes.toList.length = st.historicalBlockHashes.len +
        (block.slot.toNat - st.latestBlockHeader.slot.toNat) := by
      rw [hhashes, List.length_append, List.length_cons, List.length_replicate, VariableList.len]
      omega
    have hnext : Fits st := hfits hslot (by rw [← hlen]; exact hashes.length_le)
    have hfs : (if (cachedHeader th st).slot = 0 then
        (⟨th.header (cachedHeader th st), st.latestFinalized.slot⟩ : Checkpoint H)
        else st.latestFinalized).slot = st.latestFinalized.slot := by
      split <;> rfl
    refine processAttestations_noPanic (openRoots th st) _ ?_ ?_ (fun r hr ↦ ?_)
      (h.rows_full hnext) (h.rows_fit hnext)
    · dsimp only
      rw [hfs]
      omega
    · dsimp only
      rw [hfs, hlen]
      omega
    · have hmark {s : ℕ} {b : Bool} (h : isSlotJustified window _ s = b) :
          justifiedAt st s = b := (hmarks s).symm.trans h
      have hplace {s : ℕ} {x : H} (hx : x ≠ 0) (h : hashes.toList[s]? = some x) :
          (st.historicalBlockHashes.toList ++ [th.header (cachedHeader th st)])[s]? = some x := by
        rw [hhashes] at h
        rcases appended_getElem? h with h | ⟨rfl, rfl⟩ | ⟨-, rfl⟩
        · exact getElem?_append_of_some h
        · simp
        · exact absurd rfl hx
      obtain ⟨hne, s, hs, hopen, s₀, hlt, q, hq, hs₀, hjust⟩ := hr
      unfold justifiedAt at hopen hjust
      dsimp only at hopen hjust
      rw [hfs] at hopen hjust
      exact mem_openRoots hne (hplace hne hs) (hmark hopen) hlt hq (hplace hq hs₀) (hmark hjust)
  · dsimp only
    rw [Exec.noPanic_ite]
    exact ⟨fun _ ↦ .fail _, fun _ ↦ .ok _⟩

def nextBlock (th : TreeHash H) (st : State H) (slot : UInt64) (body : BlockBody H) : Block H :=
  ⟨slot, UInt64.ofNat (slot.toNat % st.validators.len), th.header (cachedHeader th st), 0, body⟩

theorem headerAccepted_nextBlock {slot : UInt64} {body : BlockBody H}
    (hattended : 0 < st.validators.len) (hslot : st.latestBlockHeader.slot < slot) :
    HeaderAccepted th { st with latestBlockHeader := cachedHeader th st, slot := slot }
      (nextBlock th st slot body) := by
  refine ⟨rfl, ?_, hattended, ?_, rfl⟩
  · rw [cachedHeader_slot]
    exact hslot
  · have hlt := slot.toNat_lt
    exact UInt64.toNat_ofNat_of_lt' (lt_of_le_of_lt (Nat.mod_le _ _) hlt)

theorem processBlock_noPanic (h : Exec.NoPanic (stateTransition th st block))
    (hslot : st.slot < block.slot) :
    Exec.NoPanic (processBlock th { st with
      latestBlockHeader := cachedHeader th st, slot := block.slot } block) := by
  unfold stateTransition at h
  rw [Exec.noPanic_bind] at h
  have hrest := h.2 _ (processSlots_eq_ok.mpr ⟨hslot, rfl⟩)
  rw [Exec.noPanic_bind] at hrest
  exact hrest.1

/-- The lengths that a block gets to are no more than what there is room for. -/
theorem header_fits_of_noPanic {slot : UInt64} (hattended : 0 < st.validators.len)
    (hheader : st.latestBlockHeader.slot ≤ st.slot)
    (h : Exec.NoPanic (stateTransition th st (nextBlock th st slot .default)))
    (hslot : st.slot < slot) :
    st.historicalBlockHashes.len + (slot.toNat - st.latestBlockHeader.slot.toNat) < 2 ^ 64 ∧
      (st.historicalBlockHashes.len + (slot.toNat - st.latestBlockHeader.slot.toNat) ≤
          historicalRootsLimit →
        slot.toNat - 1 - st.latestFinalized.slot.toNat ≤ historicalRootsLimit) := by
  have hblock := processBlock_noPanic h hslot
  unfold processBlock at hblock
  rw [Exec.noPanic_bind, processBlockHeader_noPanic_iff] at hblock
  have hfits := hblock.1 (headerAccepted_nextBlock hattended (UInt64.lt_of_le_of_lt hheader hslot))
  dsimp only at hfits
  rw [cachedHeader_slot] at hfits
  exact hfits

theorem history_le_of_noPanic (hattended : 0 < st.validators.len)
    (hheader : st.latestBlockHeader.slot ≤ st.slot)
    (h : ∀ block, Exec.NoPanic (stateTransition th st block)) (hnext : st.slot.toNat + 1 < 2 ^ 64) :
    st.historicalBlockHashes.len ≤ st.latestBlockHeader.slot.toNat := by
  have hlast : (UInt64.ofNat (2 ^ 64 - 1)).toNat = 2 ^ 64 - 1 := by decide
  have hslot : st.slot < UInt64.ofNat (2 ^ 64 - 1) := by
    rw [UInt64.lt_iff_toNat_lt, hlast]
    omega
  have hfits := (header_fits_of_noPanic hattended hheader (h _) hslot).1
  rw [UInt64.le_iff_toNat_le] at hheader
  rw [hlast] at hfits
  omega

theorem window_fits_of_noPanic (hattended : 0 < st.validators.len)
    (hheader : st.latestBlockHeader.slot ≤ st.slot)
    (h : ∀ block, Exec.NoPanic (stateTransition th st block)) (hnext : Fits st) :
    st.latestBlockHeader.slot.toNat ≤
        st.latestFinalized.slot.toNat + st.historicalBlockHashes.len + 1 ∨
      2 ^ 64 ≤ st.latestFinalized.slot.toNat + historicalRootsLimit + 2 := by
  obtain ⟨hlast, hroom⟩ := hnext
  have hhist := history_le_of_noPanic hattended hheader h hlast
  have hle := UInt64.le_iff_toNat_le.mp hheader
  -- the last slot that the history or the machine word has room for
  obtain ⟨k, hk⟩ : ∃ k, k = min (st.latestBlockHeader.slot.toNat + historicalRootsLimit -
    st.historicalBlockHashes.len) (2 ^ 64 - 1) := ⟨_, rfl⟩
  have hkeep : (UInt64.ofNat k).toNat = k := UInt64.toNat_ofNat_of_lt' (show k < 2 ^ 64 by omega)
  have hslot : st.slot < UInt64.ofNat k := by
    rw [UInt64.lt_iff_toNat_lt, hkeep]
    omega
  have hfits := (header_fits_of_noPanic hattended hheader (h _) hslot).2
  rw [hkeep] at hfits
  have hwindow := hfits (by omega)
  omega

theorem exists_processBlockHeader (h : HeaderAccepted th st block)
    (hfits : st.historicalBlockHashes.len +
      (block.slot.toNat - st.latestBlockHeader.slot.toNat) ≤ historicalRootsLimit)
    (hwindow : block.slot.toNat - 1 - st.latestFinalized.slot.toNat ≤ historicalRootsLimit) :
    ∃ st', processBlockHeader th st block = .ok st' := by
  have hlt : st.latestBlockHeader.slot.toNat < block.slot.toNat :=
    UInt64.lt_iff_toNat_lt.mp h.parent_lt
  have hnew : (st.historicalBlockHashes.toList ++ th.header st.latestBlockHeader ::
      List.replicate (block.slot.toNat - st.latestBlockHeader.slot.toNat - 1) 0).length ≤
      historicalRootsLimit := by
    rw [VariableList.len] at hfits
    rw [List.length_append, List.length_cons, List.length_replicate]
    omega
  obtain ⟨hashes, hhashes, -⟩ := VariableList.exists_new hnew
  have hlimit : historicalRootsLimit = 262144 := rfl
  have hnoPanic := processBlockHeader_noPanic_iff.mpr
    fun _ : HeaderAccepted th st block ↦ ⟨show _ < 2 ^ 64 by omega, fun _ ↦ hwindow⟩
  unfold processBlockHeader at hnoPanic ⊢
  dsimp only at hnoPanic ⊢
  rw [if_neg (not_not.mpr h.slot_eq), if_neg (UInt64.not_le.mpr h.parent_lt), currentProposer,
    if_pos h.attended] at hnoPanic ⊢
  dsimp only at hnoPanic ⊢
  rw [if_neg (not_not.mpr h.proposer_eq), if_neg (not_not.mpr h.parentRoot_eq)] at hnoPanic ⊢
  have h₁ : st.latestBlockHeader.slot.toNat ≤ block.slot.toNat := hlt.le
  have h₂ : 1 ≤ block.slot.toNat - st.latestBlockHeader.slot.toNat := by omega
  have h₃ : st.historicalBlockHashes.len + 1 < 2 ^ 64 := by omega
  have h₄ : 1 ≤ block.slot.toNat := by omega
  have h₅ : st.historicalBlockHashes.len + 1 +
      (block.slot.toNat - st.latestBlockHeader.slot.toNat - 1) < 2 ^ 64 := by omega
  have h₆ : ¬historicalRootsLimit < st.historicalBlockHashes.len + 1 +
      (block.slot.toNat - st.latestBlockHeader.slot.toNat - 1) := by omega
  simp only [Exec.sub64, Exec.add64, h₁, h₂, h₃, h₄, h₅, h₆, if_true, if_false, Exec.ok_bind, hhashes,
    Exec.expect_some] at hnoPanic ⊢
  generalize hext : (extendToSlot st.justifiedSlots _ (block.slot.toNat - 1) :
    Result H JustifiedSlots) = x at hnoPanic ⊢
  rcases x with (e | p) | w
  · exact absurd hext extendToSlot_ne_fail
  · exact absurd rfl (hnoPanic p)
  · exact ⟨_, rfl⟩

theorem foldlM_raiseAt_replicate (bits : List Bool) (k j : ℕ) :
    ((List.replicate k false).zipIdx j).foldlM raiseAt bits = some bits := by
  induction k generalizing j with
  | zero => rfl
  | succ k ih =>
    rw [List.replicate_succ, List.zipIdx_cons, List.foldlM_cons]
    exact ih (j + 1)

/-- The last flag of a full set has no place in a short row. -/
theorem raise_last_eq_none {bits : List Bool} {k : ℕ} (h : bits.length ≤ k) :
    raise (List.replicate k false ++ [true]) bits = none := by
  rw [raise, List.zipIdx_append, List.foldlM_append, foldlM_raiseAt_replicate]
  simp [raiseAt, h]

/-- The blocks that a vote of the next block reaches as the state stands: one above a justified
block, at a distance from the finalized one that can be justified. -/
def Votable (th : TreeHash H) (st : State H) (r : H) : Prop :=
  ∃ source target : ℕ, ∃ q, source < target ∧ q ≠ 0 ∧ r ≠ 0 ∧
    (st.historicalBlockHashes.toList ++ [th.header (cachedHeader th st)])[source]? = some q ∧
    (st.historicalBlockHashes.toList ++ [th.header (cachedHeader th st)])[target]? = some r ∧
    justifiedAt st source = true ∧ justifiedAt st target = false ∧
    slotIsJustifiableAfter target st.latestFinalized.slot.toNat = true

theorem processAttestations_eq_panic
    (hzero : 0 ∉ st.justificationsRoots.toList)
    (hfin : st.latestFinalized.slot.toNat + 1 < 2 ^ 64)
    (hv : isValidVote st a.data.source a.data.target = true)
    (hbits : a.aggregationBits.len ≤ st.validators.len)
    (hraise : raise a.aggregationBits.toList
      (entry st.validators.len (loadJustifications st) a.data.target.root) = none) :
    processAttestations st [a] = Exec.panic .index := by
  have hany : ¬(st.justificationsRoots.toList.any fun root ↦ decide (root = 0)) = true := by
    simpa using hzero
  unfold processAttestations
  rw [if_neg hany]
  unfold rootToSlot
  rw [Exec.add64_eq_ok.mpr ⟨hfin, rfl⟩, Exec.ok_bind, Exec.pure_eq_ok, Exec.ok_bind, Runs.run_singleton]
  unfold processAttestation processAttestationWith openTally
  dsimp only
  rw [hv, if_neg (by decide), if_neg (Nat.not_lt.mpr hbits), hraise]
  rfl

/-- A block with one full vote panics where the row of its target is short. -/
theorem rows_full_of_noPanic (hattended : 0 < st.validators.len)
    (hheader : st.latestBlockHeader.slot ≤ st.slot) (hfin : st.latestFinalized.slot ≤ st.slot)
    (h : ∀ block, Exec.NoPanic (stateTransition th st block)) (hnext : Fits st)
    (hzero : 0 ∉ st.justificationsRoots.toList) {r : H} (hr : Votable th st r) {row : List Bool}
    (hrow : (loadJustifications st).lookup r = some row) : row.length = st.validators.len := by
  obtain ⟨source, target, q, hlt, hq, hr0, hsource, htarget, hmark, hunmark, hjust⟩ := hr
  obtain ⟨hlast, hroom⟩ := hnext
  rw [UInt64.le_iff_toNat_le] at hfin
  by_contra hne
  have hshort : row.length ≤ st.validators.len - 1 := by
    obtain ⟨i, -, rfl⟩ := lookup_loadJustifications_some hrow
    have hle := List.length_take_le st.validators.len
      (st.justificationsValidators.toList.drop (i * st.validators.len))
    omega
  have hvals : st.validators.len ≤ validatorRegistryLimit := st.validators.length_le
  have hhist : st.historicalBlockHashes.toList.length ≤ 262144 := st.historicalBlockHashes.length_le
  have hbound := (List.getElem?_eq_some_iff.mp htarget).1
  rw [List.length_append, List.length_singleton] at hbound
  have hword {k : ℕ} (hk : k ≤ target) : (UInt64.ofNat k).toNat = k :=
    UInt64.toNat_ofNat_of_lt' (show k < 2 ^ 64 by omega)
  obtain ⟨bits, hbits⟩ : ∃ bits : AggregationBits,
      bits.toList = List.replicate (st.validators.len - 1) false ++ [true] :=
    ⟨⟨_, by rw [List.length_append, List.length_replicate, List.length_singleton]; omega⟩, rfl⟩
  obtain ⟨slot, hslot⟩ : ∃ slot : UInt64, slot.toNat = st.slot.toNat + 1 :=
    ⟨UInt64.ofNat (st.slot.toNat + 1), UInt64.toNat_ofNat_of_lt' hlast⟩
  have hlater : st.slot < slot := by
    rw [UInt64.lt_iff_toNat_lt]
    omega
  obtain ⟨a, ha, hs, ht⟩ : ∃ a : AggregatedAttestation H, a.aggregationBits = bits ∧
      a.data.source = ⟨q, UInt64.ofNat source⟩ ∧ a.data.target = ⟨r, UInt64.ofNat target⟩ :=
    ⟨⟨bits, slot, ⟨r, UInt64.ofNat target⟩, ⟨r, UInt64.ofNat target⟩, ⟨q, UInt64.ofNat source⟩⟩,
      rfl, rfl, rfl⟩
  have hblock := processBlock_noPanic
    (h (nextBlock th st slot ⟨⟨[a], by simp⟩⟩)) hlater
  unfold processBlock at hblock
  rw [Exec.noPanic_bind] at hblock
  have haccepted : HeaderAccepted th { st with latestBlockHeader := cachedHeader th st, slot := slot }
      (nextBlock th st slot ⟨⟨[a], by simp⟩⟩) :=
    headerAccepted_nextBlock hattended (UInt64.lt_of_le_of_lt hheader hlater)
  have hwindow := (header_fits_of_noPanic hattended hheader (h _) hlater).2
  obtain ⟨st₂, h₂⟩ := exists_processBlockHeader haccepted
    (by dsimp only [nextBlock]; rw [cachedHeader_slot, hslot]; exact hroom)
    (by dsimp only [nextBlock]; exact hwindow (by rw [hslot]; exact hroom))
  have hpanic := hblock.2 st₂ h₂
  obtain ⟨-, -, -, -, -, hashes, window, hhashes, hext, rfl⟩ := processBlockHeader_eq_ok h₂
  obtain ⟨-, hmarks⟩ := extendToSlot_spec hext
  have hfs : (if (cachedHeader th st).slot = 0 then
      (⟨th.header (cachedHeader th st), st.latestFinalized.slot⟩ : Checkpoint H)
      else st.latestFinalized).slot = st.latestFinalized.slot := by
    split <;> rfl
  have hhistory {k : ℕ} {x : H} (hk : (st.historicalBlockHashes.toList ++
      [th.header (cachedHeader th st)])[k]? = some x) : hashes.toList[k]? = some x := by
    rw [hhashes, List.append_cons]
    exact getElem?_append_of_some hk
  refine hpanic .index (processAttestations_eq_panic hzero ?_ ?_ ?_ ?_)
  · dsimp only
    rw [hfs]
    omega
  · rw [isValidVote_iff, hs, ht]
    unfold justifiedAt
    dsimp only
    rw [hfs, hword hlt.le, hword le_rfl, hmarks, hmarks]
    exact ⟨hmark, hunmark, hq, hr0, hhistory hsource, hhistory htarget, hlt, hjust⟩
  · rw [ha, VariableList.len, hbits, List.length_append, List.length_replicate, List.length_singleton]
    show st.validators.len - 1 + 1 ≤ st.validators.len
    omega
  · have hentry : entry st.validators.len (loadJustifications st) r = row := by
      unfold entry
      rw [hrow]
      rfl
    rw [ha, hbits, ht]
    exact (congrArg _ hentry).trans (raise_last_eq_none hshort)

end Next

end Ethlambda.StateTransition
