import Ethlambda.Base.Quorum
import Ethlambda.StateTransition.Rounds

namespace Ethlambda.StateTransition

open Ethlambda.Base Ethlambda.Types

set_option linter.unusedSectionVars false

variable {H : Type} [LinearOrder H] [Zero H] {th : TreeHash H} {st st' : State H}
  {slots : Table H ℕ} {n : ℕ} {t t' : Tally H} {a : AggregatedAttestation H}
  {l : List (Round H)} {p : Round H} {c : Checkpoint H} {v : ℕ}

/-- The attestation of a round counts: it passes the checks of the state it met and names no more
than `n` validators. -/
def accepted (n : ℕ) (p : Round H) : Bool :=
  isValidVote p.1.state p.2.data.source p.2.data.target && decide (p.2.aggregationBits.len ≤ n)

/-- A validator's flag was set in an attestation that counted for the target. -/
def votedFor (n : ℕ) (l : List (Round H)) (c : Checkpoint H) (v : ℕ) : Prop :=
  ∃ p ∈ l, accepted n p = true ∧ p.2.data.target = c ∧ p.2.aggregationBits.get v = some true

instance : Decidable (votedFor n l c v) :=
  inferInstanceAs (Decidable (∃ p ∈ l, _))

def voters (n : ℕ) (l : List (Round H)) (c : Checkpoint H) : Finset ℕ :=
  (Finset.range n).filter fun v ↦ votedFor n l c v

theorem voters_subset_range : voters n l c ⊆ Finset.range n :=
  Finset.filter_subset _ _

theorem mem_voters : v ∈ voters n l c ↔ v < n ∧ votedFor n l c v := by
  rw [voters, Finset.mem_filter, Finset.mem_range]

theorem votedFor_append_single : votedFor n (l ++ [p]) c v ↔ votedFor n l c v ∨
    (accepted n p = true ∧ p.2.data.target = c ∧ p.2.aggregationBits.get v = some true) := by
  simp only [votedFor, List.mem_append, List.mem_singleton]
  constructor
  · rintro ⟨q, hq | rfl, h⟩
    · exact .inl ⟨q, hq, h⟩
    · exact .inr h
  · rintro (⟨q, hq, h⟩ | h)
    · exact ⟨q, .inl hq, h⟩
    · exact ⟨p, .inr rfl, h⟩

theorem voters_mono {l' : List (Round H)} (h : l ⊆ l') : voters n l c ⊆ voters n l' c := by
  intro v hv
  obtain ⟨hlt, p, hp, hrest⟩ := mem_voters.mp hv
  exact mem_voters.mpr ⟨hlt, p, h hp, hrest⟩

theorem voters_append_of_ne (h : p.2.data.target ≠ c) : voters n (l ++ [p]) c = voters n l c := by
  ext v
  rw [mem_voters, mem_voters, votedFor_append_single]
  simp [h]

theorem accepted_iff : accepted n (t, a) = true ↔
    isValidVote t.state a.data.source a.data.target = true ∧ a.aggregationBits.len ≤ n := by
  simp [accepted]

theorem entry_insert {m : VoteMap H} {r r' : H} {row : List Bool} :
    entry n (m.insert r row) r' = if r' = r then row else entry n m r' := by
  unfold entry
  rw [Table.lookup_insert_eq_ite]
  split <;> rfl

theorem entry_erase_of_ne {m : VoteMap H} {r r' : H} (h : r' ≠ r) :
    entry n (m.erase r) r' = entry n m r' := by
  unfold entry
  rw [Table.lookup_erase_eq_ite, if_neg h]

theorem entry_retain {m : VoteMap H} {r : H} {keep : H → List Bool → Bool}
    (h : ∀ row, keep r row = true) : entry n (Table.retain keep m) r = entry n m r := by
  unfold entry
  rw [Table.lookup_retain]
  cases m.lookup r with
  | none => rfl
  | some row => rw [Option.filter_some_pos (h row)]

/-- The votes in memory are those of the rounds so far, and a slot above the finalized one is
marked once two thirds of the validators voted for its block. -/
structure Ledger (n : ℕ) (t : Tally H) (l : List (Round H)) : Prop where
  bits : ∀ c : Checkpoint H, t.state.historicalBlockHashes.toList[c.slot.toNat]? = some c.root →
    justifiedAt t.state c.slot.toNat = false →
    ∀ v, (entry n t.justifications c.root).getD v false = true ↔ votedFor n l c v
  marked : ∀ c : Checkpoint H, t.state.historicalBlockHashes.toList[c.slot.toNat]? = some c.root →
    t.state.latestFinalized.slot.toNat < c.slot.toNat →
    (justifiedAt t.state c.slot.toNat = true ↔ 2 * n ≤ 3 * (voters n l c).card)
  past : ∀ p ∈ l, accepted n p = true →
    t.state.historicalBlockHashes.toList[p.2.data.target.slot.toNat]? = some p.2.data.target.root

theorem Ledger.same (h : Ledger n t l) (hs : t.Same t') : Ledger n t' l := by
  have hj := hs.justifiedAt_eq
  have he : ∀ r, entry n t'.justifications r = entry n t.justifications r := by
    intro r
    unfold entry
    rw [hs.rows]
  constructor
  · intro c hc hnot
    rw [hs.history] at hc
    rw [hj] at hnot
    rw [he]
    exact h.bits c hc hnot
  · intro c hc hf
    rw [hs.history] at hc
    rw [hs.finalized] at hf
    rw [hj]
    exact h.marked c hc hf
  · rw [hs.history]
    exact h.past

theorem Ledger.not_votedFor_of_le {m : VoteMap H} (h : Ledger n ⟨st, m⟩ l)
    (hc : st.historicalBlockHashes.toList.length ≤ c.slot.toNat) : ¬votedFor n l c v := by
  rintro ⟨p, hp, hacc, rfl, -⟩
  have hlt := (List.getElem?_eq_some_iff.mp (h.past p hp hacc)).1
  dsimp only at hlt
  omega

theorem Aligned.not_justifiedAt_of_le (h : Aligned th n st) {u : ℕ}
    (hu : st.latestBlockHeader.slot.toNat ≤ u) (hpos : st.latestFinalized.slot.toNat < u) :
    justifiedAt st u = false := by
  by_contra hj
  have hlt := lt_length_of_isSlotJustified hpos (Bool.not_eq_false _ ▸ hj)
  have hw := h.window_length
  omega

theorem Ledger.header {m : VoteMap H} {block : Block H} (hth : th.CollisionFree) (hn : 1 ≤ n)
    (ha : Aligned th n st) (ha' : Aligned th n st') (hstep : HeaderStep th n st block st')
    (hrows : Rows n st m) (h : Ledger n ⟨st, m⟩ l) : Ledger n ⟨st', m⟩ l := by
  have hold (c : Checkpoint H) (hc : st'.historicalBlockHashes.toList[c.slot.toNat]? = some c.root)
      (hlt : c.slot.toNat < st.historicalBlockHashes.toList.length) :
      st.historicalBlockHashes.toList[c.slot.toNat]? = some c.root := by
    rwa [hstep.history_eq, List.getElem?_append_left hlt] at hc
  constructor
  · intro c hc hnot v
    rcases Nat.lt_or_ge c.slot.toNat st.historicalBlockHashes.toList.length with hlt | hge
    · rw [show justifiedAt _ _ = justifiedAt st c.slot.toNat from hstep.justifiedAt_eq _] at hnot
      exact h.bits c (hold c hc hlt) hnot v
    · -- the root is new, so no row of the parent state is its row
      have hnone : m.lookup c.root = none := by
        by_contra hsome
        obtain ⟨row, hrow⟩ := Option.ne_none_iff_exists'.mp hsome
        obtain ⟨hne, s, hs, -, -⟩ := hrows.target c.root row hrow
        have hs' : st'.historicalBlockHashes.toList[s]? = some c.root := by
          rw [hstep.history_eq]
          exact getElem?_append_of_some hs
        have heq := ha'.slot_unique hth hs' hc hne
        have hlt := (List.getElem?_eq_some_iff.mp hs).1
        omega
      have hfalse : (entry n m c.root).getD v false = false := by
        simp [entry, hnone, List.getD_eq_getElem?_getD, List.getElem?_getD_replicate_default_eq]
      exact iff_of_false (by rw [hfalse]; exact Bool.false_ne_true) (h.not_votedFor_of_le hge)
  · intro c hc hf
    rw [show st'.latestFinalized.slot.toNat = st.latestFinalized.slot.toNat by
      rw [hstep.finalized_slot]] at hf
    rw [show justifiedAt _ _ = justifiedAt st c.slot.toNat from hstep.justifiedAt_eq _]
    rcases Nat.lt_or_ge c.slot.toNat st.historicalBlockHashes.toList.length with hlt | hge
    · exact h.marked c (hold c hc hlt) hf
    · have hempty : voters n l c = ∅ := by
        rw [Finset.eq_empty_iff_forall_notMem]
        intro v hv
        exact h.not_votedFor_of_le hge (mem_voters.mp hv).2
      have hnot := ha.not_justifiedAt_of_le (by rw [← ha.history_length]; exact hge) hf
      rw [hnot, hempty, Finset.card_empty]
      exact iff_of_false Bool.false_ne_true (by omega)
  · intro p hp hacc
    rw [hstep.history_eq]
    exact getElem?_append_of_some (h.past p hp hacc)

/-- The counted row of a target lists exactly the votes up to and including this round. -/
theorem Ledger.countedRow_getD (h : Ledger n t l) (ht : TallyInv th slots n t)
    (hv : isValidVote t.state a.data.source a.data.target = true) (hlen : a.aggregationBits.len ≤ n) :
    (countedRow n t a).getD v false = true ↔ votedFor n (l ++ [(t, a)]) a.data.target v := by
  obtain ⟨-, hnot, -, -, -, htarget, -, -⟩ := isValidVote_iff.mp hv
  have hbits := h.bits a.data.target htarget hnot v
  have hacc : accepted n (t, a) = true := accepted_iff.mpr ⟨hv, hlen⟩
  rw [votedFor_append_single, ← hbits]
  have hget : a.aggregationBits.get v = some true ↔ a.aggregationBits.toList.getD v false = true := by
    rw [VariableList.get, List.getD_eq_getElem?_getD]
    cases a.aggregationBits.toList[v]? <;> simp
  rcases Nat.lt_or_ge v n with hlt | hge
  · rw [countedRow, getD_orBits (by rw [ht.entry_length]; exact hlt), Bool.or_eq_true, ← hget]
    simp [hacc]
  · have hrow : (countedRow n t a).length ≤ v := by
      rw [countedRow, length_orBits, ht.entry_length]
      exact hge
    have hentry : (entry n t.justifications a.data.target.root).length ≤ v := by
      rw [ht.entry_length]
      exact hge
    have hagg : a.aggregationBits.toList.length ≤ v := hlen.trans hge
    rw [List.getD_eq_default _ _ hrow, List.getD_eq_default _ _ hentry, hget,
      List.getD_eq_default _ _ hagg]
    simp

theorem Ledger.card_voters_target (h : Ledger n t l) (ht : TallyInv th slots n t)
    (hv : isValidVote t.state a.data.source a.data.target = true) (hlen : a.aggregationBits.len ≤ n) :
    (voters n (l ++ [(t, a)]) a.data.target).card = (countedRow n t a).count true := by
  rw [← card_flagged]
  congr 1
  have hrow : (countedRow n t a).length = n := by rw [countedRow, length_orBits, ht.entry_length]
  ext v
  rw [mem_voters, flagged, Finset.mem_filter, Finset.mem_range, hrow,
    h.countedRow_getD ht hv hlen]

theorem Ledger.supermajority_iff (h : Ledger n t l) (ht : TallyInv th slots n t)
    (hv : isValidVote t.state a.data.source a.data.target = true) (hlen : a.aggregationBits.len ≤ n) :
    supermajority ((countedRow n t a).count true) n = true ↔
      2 * n ≤ 3 * (voters n (l ++ [(t, a)]) a.data.target).card := by
  rw [h.card_voters_target ht hv hlen, supermajority, decide_eq_true_eq]

theorem checkpoint_eq {c d : Checkpoint H} {history : List H} (hc : history[c.slot.toNat]? = some c.root)
    (hd : history[d.slot.toNat]? = some d.root) (hslot : c.slot.toNat = d.slot.toNat) : c = d := by
  rw [hslot, hd] at hc
  cases c
  cases d
  simp only [UInt64.toNat_inj] at hslot
  simp only [Option.some.injEq] at hc
  rw [hslot, hc]

theorem TallyInv.root_ne (ht : TallyInv th slots n t)
    (hv : isValidVote t.state a.data.source a.data.target = true)
    (hc : t.state.historicalBlockHashes.toList[c.slot.toNat]? = some c.root)
    (hf : t.state.latestFinalized.slot.toNat < c.slot.toNat) (hne : c ≠ a.data.target) :
    c.root ≠ a.data.target.root := by
  intro hroot
  obtain ⟨-, -, -, hzero, -, htarget, -, -⟩ := isValidVote_iff.mp hv
  have h₁ := ht.slots_eq c.root c.slot.toNat hc (hroot ▸ hzero) hf
  have h₂ := ht.slots_eq a.data.target.root a.data.target.slot.toNat htarget hzero
    (ht.target_lt hv).1
  rw [hroot, h₂] at h₁
  exact hne (checkpoint_eq hc htarget (Option.some.inj h₁).symm)

theorem Ledger.past_append (h : Ledger n t l) {p : Round H} (hp : p ∈ l ++ [(t, a)])
    (hacc : accepted n p = true) :
    t.state.historicalBlockHashes.toList[p.2.data.target.slot.toNat]? =
      some p.2.data.target.root := by
  rcases List.mem_append.mp hp with hp | hp
  · exact h.past p hp hacc
  · obtain rfl := List.mem_singleton.mp hp
    obtain ⟨-, -, -, -, -, htarget, -, -⟩ := isValidVote_iff.mp (accepted_iff.mp hacc).1
    exact htarget

theorem Ledger.append_of_not_accepted (h : Ledger n t l) (hacc : accepted n (t, a) = false) :
    Ledger n t (l ++ [(t, a)]) := by
  have hvoted (c : Checkpoint H) (v : ℕ) : votedFor n (l ++ [(t, a)]) c v ↔ votedFor n l c v := by
    rw [votedFor_append_single, hacc]
    simp
  have hvoters (c : Checkpoint H) : voters n (l ++ [(t, a)]) c = voters n l c := by
    ext v
    rw [mem_voters, mem_voters, hvoted]
  refine ⟨fun c hc hnot v ↦ ?_, fun c hc hf ↦ ?_, fun p hp hacc ↦ h.past_append hp hacc⟩
  · rw [hvoted]
    exact h.bits c hc hnot v
  · rw [hvoters]
    exact h.marked c hc hf

theorem Ledger.round (h : Ledger n t l) (ht : TallyInv th slots n t) (e : Effect slots n t a t') :
    Ledger n t' (l ++ [(t, a)]) := by
  cases e with
  | skipped hv => exact h.append_of_not_accepted (by simp [accepted, hv])
  | touched hv hlen =>
    have hbase := h.append_of_not_accepted (a := a) (by simp [accepted, hv, hlen])
    refine ⟨fun c hc hnot v ↦ ?_, hbase.marked, hbase.past⟩
    rw [← hbase.bits c hc hnot v, entry_insert]
    split
    · rename_i hr
      rw [hr]
    · rfl
  | recorded hv hlen hsuper =>
    obtain ⟨-, htnot, -, -, -, -, -, -⟩ := isValidVote_iff.mp hv
    refine ⟨fun c hc hnot v ↦ ?_, fun c hc hf ↦ ?_, fun p hp hacc ↦ h.past_append hp hacc⟩
    · by_cases hct : c = a.data.target
      · subst hct
        rw [entry_insert, if_pos rfl]
        exact h.countedRow_getD ht hv hlen
      · have hroot := ht.root_ne hv hc (lt_of_not_isSlotJustified hnot) hct
        rw [entry_insert, if_neg hroot, votedFor_append_single, h.bits c hc hnot v]
        simp [Ne.symm hct]
    · by_cases hct : c = a.data.target
      · subst hct
        rw [← h.supermajority_iff ht hv hlen, hsuper]
        exact iff_of_false (by rw [htnot]; exact Bool.false_ne_true) Bool.false_ne_true
      · rw [voters_append_of_ne (Ne.symm hct)]
        exact h.marked c hc hf
  | justified window hv hlen hsuper hwlen hwj hbetween =>
    obtain ⟨-, -, -, -, -, htarget, -, -⟩ := isValidVote_iff.mp hv
    refine ⟨fun c hc hnot v ↦ ?_, fun c hc hf ↦ ?_, fun p hp hacc ↦ h.past_append hp hacc⟩
    · have hmark : justifiedAt t.state c.slot.toNat = false ∧
          c.slot.toNat ≠ a.data.target.slot.toNat := by
        simpa [justifiedAt, hwj, and_comm] using hnot
      have hct : c ≠ a.data.target := fun hct ↦ hmark.2 (by rw [hct])
      have hroot := ht.root_ne hv hc (lt_of_not_isSlotJustified hnot) hct
      rw [entry_erase_of_ne hroot, votedFor_append_single, h.bits c hc hmark.1 v]
      simp [Ne.symm hct]
    · simp only [justifiedAt, hwj, Bool.or_eq_true, decide_eq_true_eq]
      by_cases hslot : c.slot.toNat = a.data.target.slot.toNat
      · obtain rfl := checkpoint_eq hc htarget hslot
        exact iff_of_true (.inl rfl) ((h.supermajority_iff ht hv hlen).mp hsuper)
      · rw [voters_append_of_ne fun hct ↦ hslot (by rw [hct]), ← h.marked c hc hf]
        simp [hslot, justifiedAt]
  | finalized window hv hlen hsuper hle hwlen hwj hbetween =>
    obtain ⟨-, -, -, -, -, htarget, -, -⟩ := isValidVote_iff.mp hv
    refine ⟨fun c hc hnot v ↦ ?_, fun c hc hf ↦ ?_, fun p hp hacc ↦ h.past_append hp hacc⟩
    · have hmark : a.data.source.slot.toNat < c.slot.toNat ∧
          c.slot.toNat ≠ a.data.target.slot.toNat ∧ justifiedAt t.state c.slot.toNat = false := by
        simpa [justifiedAt, hwj, and_assoc] using hnot
      have hf := hle.trans_lt hmark.1
      have hct : c ≠ a.data.target := fun hct ↦ hmark.2.1 (by rw [hct])
      have hroot := ht.root_ne hv hc hf hct
      rw [votedFor_append_single, ← h.bits c hc hmark.2.2 v]
      by_cases hzero : c.root = 0
      · -- an empty slot has no row before and none after the stale ones are dropped
        have hnone : t.justifications.lookup c.root = none := by
          by_contra hsome
          obtain ⟨row, hrow⟩ := Option.ne_none_iff_exists'.mp hsome
          exact (ht.rows.target c.root row hrow).1 hzero
        have hgone : (Table.retain (fun root _ ↦ liveRow slots a.data.source root)
            (t.justifications.erase a.data.target.root)).lookup c.root = none := by
          rw [Table.lookup_retain, Table.lookup_erase_eq_ite, if_neg hroot, hnone]
          rfl
        simp [entry, hnone, hgone, Ne.symm hct]
      · have hlive : liveRow slots a.data.source c.root = true := by
          simp [liveRow, ht.slots_eq c.root c.slot.toNat hc hzero hf, hmark.1]
        rw [entry_retain fun _ ↦ hlive, entry_erase_of_ne hroot]
        simp [Ne.symm hct]
    · have hf' := hle.trans_lt hf
      simp only [justifiedAt, hwj, Bool.or_eq_true, decide_eq_true_eq]
      by_cases hslot : c.slot.toNat = a.data.target.slot.toNat
      · obtain rfl := checkpoint_eq hc htarget hslot
        exact iff_of_true (.inl (.inr rfl)) ((h.supermajority_iff ht hv hlen).mp hsuper)
      · rw [voters_append_of_ne fun hct ↦ hslot (by rw [hct]), ← h.marked c hc hf']
        simp [hslot, Nat.not_le.mpr hf, justifiedAt]

theorem ledger_invariant (hth : th.CollisionFree) (hn : 1 ≤ n) :
    RoundInvariant th n (Ledger n) where
  same hs h := h.same hs
  header ha ha' hstep hrows h := h.header hth hn ha ha' hstep hrows
  round ht e h := h.round ht e

theorem ledger_genesis (th : TreeHash H) (time : UInt64)
    (vs : VariableList Validator validatorRegistryLimit) :
    Ledger n (openTally (genesisState th time vs)) [] where
  bits c hc := by simp [openTally, genesisState] at hc
  marked c hc := by simp [openTally, genesisState] at hc
  past p hp := by simp at hp

def rowBit (st : State H) (root : H) (v : ℕ) : Bool :=
  match st.justificationsRoots.toList.idxOf? root with
  | some i => (st.justificationsValidators.get (i * st.validators.len + v)).getD false
  | none => false

theorem Wellformed.rowBit_eq (h : Wellformed th n st) (root : H) (hv : v < n) :
    rowBit st root v = (entry n (loadJustifications st) root).getD v false := by
  have hlen : st.validators.len = n := h.aligned.validators_length
  unfold rowBit entry
  cases hi : st.justificationsRoots.toList.idxOf? root with
  | none =>
    have hnone : (loadJustifications st).lookup root = none := by
      by_contra hsome
      obtain ⟨row, hrow⟩ := Option.ne_none_iff_exists'.mp hsome
      obtain ⟨i, hroot, -⟩ := (lookup_loadJustifications h.roots_sorted.nodup).mp hrow
      exact List.idxOf?_eq_none_iff.mp hi (List.mem_of_getElem? hroot)
    simp [hnone, List.getD_eq_getElem?_getD, List.getElem?_getD_replicate_default_eq]
  | some i =>
    have hroot : st.justificationsRoots.toList[i]? = some root := by
      obtain ⟨hlt, heq, -⟩ := List.idxOf?_eq_some_iff.mp hi
      exact List.getElem?_eq_some_iff.mpr ⟨hlt, heq⟩
    have hrow := (lookup_loadJustifications h.roots_sorted.nodup).mpr ⟨i, hroot, rfl⟩
    rw [hrow]
    simp [VariableList.get, hlen, List.getD_eq_getElem?_getD, hv,
      List.getElem?_drop]

/-- No vote is lost, counted twice or made up on the way from the blocks of a chain into the
state at its end. -/
theorem vote_ledger_exact {validators : List Validator} {time : UInt64} {g : State H}
    {blocks : List (Block H)} (hth : th.CollisionFree) (hn : 1 ≤ validators.length)
    (hg : State.fromGenesis th time validators = (.ok g : Result H (State H)))
    (hr : runChain th g blocks = .ok st) :
    (∀ c : Checkpoint H, st.historicalBlockHashes.get c.slot.toNat = some c.root →
      st.latestFinalized.slot < c.slot →
      isSlotJustified st.justifiedSlots st.latestFinalized.slot.toNat c.slot.toNat = false →
      ∀ v < validators.length,
        rowBit st c.root v = true ↔ votedFor validators.length (chainRounds th g blocks) c v) ∧
    ∀ slot : UInt64, st.latestFinalized.slot < slot →
      (isSlotJustified st.justifiedSlots st.latestFinalized.slot.toNat slot.toNat = true ↔
        ∃ root, st.historicalBlockHashes.get slot.toNat = some root ∧
          ∃ l, l <+: chainRounds th g blocks ∧
            2 * validators.length ≤ 3 * (voters validators.length l ⟨root, slot⟩).card) := by
  obtain ⟨vs, rfl, rfl⟩ := State.fromGenesis_eq_ok hg
  have hgen := wellformed_genesis th time vs
  have hw := hgen.runChain hth hr
  have hl := (ledger_invariant hth hn).chain hth hgen hr (ledger_genesis th time vs)
  rw [List.nil_append] at hl
  refine ⟨fun c hc _ hnot v hv ↦ ?_, fun slot hlt ↦ ?_⟩
  · rw [hw.rowBit_eq c.root hv]
    exact hl.bits c hc hnot v
  · have hlt' : st.latestFinalized.slot.toNat < slot.toNat := UInt64.lt_iff_toNat_lt.mp hlt
    constructor
    · intro hj
      have hidx := lt_length_of_isSlotJustified hlt' hj
      have hwin := hw.aligned.window_length
      have hhist := hw.aligned.history_length
      obtain ⟨root, hroot⟩ : ∃ root, st.historicalBlockHashes.toList[slot.toNat]? = some root :=
        ⟨_, List.getElem?_eq_getElem (by omega)⟩
      exact ⟨root, hroot, _, List.prefix_rfl, (hl.marked ⟨root, slot⟩ hroot hlt').mp hj⟩
    · rintro ⟨root, hroot, l, hpre, hcard⟩
      refine (hl.marked ⟨root, slot⟩ hroot hlt').mpr (hcard.trans ?_)
      exact Nat.mul_le_mul_left 3 (Finset.card_le_card (voters_mono hpre.subset))

theorem vote_ledger_exact_sample :
    ∃ st, runChain sampleHash sampleGenesis Sample.chain = .ok st ∧
      votedFor 3 (chainRounds sampleHash sampleGenesis Sample.chain)
        (sampleCheckpoint Sample.third) 1 ∧
      isSlotJustified st.justifiedSlots st.latestFinalized.slot.toNat 2 = true := by
  have hrun : (runChain sampleHash sampleGenesis Sample.chain).toOption.map (fun st ↦
      (st.latestFinalized.slot, st.historicalBlockHashes.get 3,
        isSlotJustified st.justifiedSlots st.latestFinalized.slot.toNat 3,
        isSlotJustified st.justifiedSlots st.latestFinalized.slot.toNat 2,
        rowBit st (sampleHash.block Sample.third) 1)) =
      some (1, some (sampleHash.block Sample.third), false, true, true) := by decide +kernel
  obtain ⟨st, hst, hview⟩ := Exec.exists_ok_of_map hrun
  simp only [Prod.mk.injEq] at hview
  obtain ⟨hfin, hthird, hopen, hmarked, hbit⟩ := hview
  obtain ⟨hbits, -⟩ := vote_ledger_exact sampleHash_collisionFree (by decide) sampleGenesis_eq hst
  have hlt : st.latestFinalized.slot < (sampleCheckpoint Sample.third).slot := by
    rw [hfin]
    decide
  exact ⟨st, hst, (hbits (sampleCheckpoint Sample.third) hthird hlt hopen 1 (by decide)).mp hbit,
    hmarked⟩

end Ethlambda.StateTransition
