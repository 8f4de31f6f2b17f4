import Ethlambda.Chain.Admission
import Ethlambda.Chain.LatestMessages
import Ethlambda.Chain.Redelivery

namespace Ethlambda.Chain

open Ethlambda.Base Ethlambda.Types Ethlambda.Storage Ethlambda.StateTransition Ethlambda.ForkChoice

set_option linter.unusedSectionVars false

variable {H : Type} [LinearOrder H] [Zero H] {host : Host H} {s t : Store H} {ε : Type}
  {keys : List (SignatureKey H)} {sb : SignedBlockWithAttestation H} {post : State H}

/-- Where fork choice leads from the justified block with the votes of the keys. -/
def choice (host : Host H) (s : Store H) (keys : List (SignatureKey H)) (minScore : ℕ) : Exec ε H :=
  (computeLmdGhostHead host s.latestJustified.root (s.getLiveChain host)
    (s.extractLatestAttestations keys) minScore).map Prod.fst

def headKeys (host : Host H) (s : Store H) : List (SignatureKey H) :=
  host.order s.knownPayloads.uniqueKeys

/-- The vote names a live block above the justified one. -/
def Weighs (host : Host H) (s : Store H) (data : AttestationData H) : Prop :=
  Weighed (s.getLiveChain host) s.latestJustified.slot data.head.root

theorem choice_eq_ok {minScore : ℕ} {head : H} : (choice host s keys minScore : Exec ε H) = .ok head ↔
    ∃ w, (computeLmdGhostHead host s.latestJustified.root (s.getLiveChain host)
      (s.extractLatestAttestations keys) minScore : Exec ε (H × Weights H)) = .ok (head, w) := by
  unfold choice
  generalize computeLmdGhostHead host s.latestJustified.root (s.getLiveChain host)
    (s.extractLatestAttestations keys) minScore = x
  cases x with
  | error e => simp [Except.map]
  | ok g => simp [Except.map, Prod.ext_iff]

/-- The head is fork choice over the known votes. -/
theorem updateHead_of_choice {head : H}
    (h : (choice host s (headKeys host s) 0 : Exec ε H) = .ok head) :
    (updateHead host : Op (Store H) ε Unit) s = .ok (.ok (), { s with head := head }) := by
  obtain ⟨w, hw⟩ := choice_eq_ok.mp h
  unfold updateHead Store.extractLatestKnownAttestations
  rw [Op.get_bind]
  exact Op.lift_bind_of_ok hw _ s

/-- The safe target is fork choice over the votes of both buffers, where two thirds of the
validators have to stand behind a block. -/
theorem updateSafeTarget_of_choice {st : State H} {target : H} (hst : s.getState s.head = some st)
    (h : (choice host s (allKeys host s) ((st.validators.len * 2 + 2) / 3) : Exec ε H) = .ok target) :
    (updateSafeTarget host : Op (Store H) ε Unit) s =
      .ok (.ok (), { s with safeTarget := target }) := by
  obtain ⟨w, hw⟩ := choice_eq_ok.mp h
  have hexpect : (Exec.expect "head state exists" (s.getState s.head) : Exec ε (State H)) = .ok st := by
    rw [hst]
    rfl
  unfold updateSafeTarget
  rw [Op.get_bind, Op.lift_bind_of_ok hexpect]
  exact Op.lift_bind_of_ok hw _ s

section Missing

/-- Two stores with the same justified block and the same live blocks above it lead fork choice to
the same block, if the votes that one of them lacks are followed by others, weigh nothing or name the
head that the others name. -/
theorem choice_congr (hh : HashSound host) (hs : BlockTree host s) (ht : BlockTree host t)
    (hjustified : t.latestJustified = s.latestJustified)
    (hlive : ∀ k : UInt64 × H, s.latestJustified.slot ≤ k.1 →
      t.liveChain.lookup k = s.liveChain.lookup k)
    (hsub : ∀ r d, t.attestationDataByRoot.lookup r = some d →
      s.attestationDataByRoot.lookup r = some d)
    (hmissing : ∀ v r d, (v, r) ∈ keys → s.attestationDataByRoot.lookup r = some d →
      t.attestationDataByRoot.lookup r = none →
      (∃ d', Votes t keys v d' ∧ d.slot < d'.slot) ∨
        (∀ d', Latest s keys v d' → ¬Weighs host s d') ∧
          (∀ d', Latest t keys v d' → ¬Weighs host t d') ∨
        (∃ d', Votes t keys v d') ∧ ∃ root, (∀ d', Latest s keys v d' → d'.head.root = root) ∧
          ∀ d', Latest t keys v d' → d'.head.root = root) (minScore : ℕ) :
    ∃ head, (choice host s keys minScore : Exec ε H) = .ok head ∧
      (choice host t keys minScore : Exec ε H) = .ok head := by
  obtain ⟨p, hp⟩ := hs.justified
  have hagree : AgreeFrom s.latestJustified.slot (s.getLiveChain host) (t.getLiveChain host) := by
    intro r slot q hle
    rw [hs.lookup_getLiveChain hh, ht.lookup_getLiveChain hh, hlive _ hle]
  have hvotes (v : UInt64) :
      voteOf (t.extractLatestAttestations keys) v = voteOf (s.extractLatestAttestations keys) v ∨
      (Weightless (s.getLiveChain host) s.latestJustified.slot (s.extractLatestAttestations keys) v ∧
        Weightless (s.getLiveChain host) s.latestJustified.slot
          (t.extractLatestAttestations keys) v) := by
    by_cases hlater : ∀ r d, (v, r) ∈ keys → s.attestationDataByRoot.lookup r = some d →
        t.attestationDataByRoot.lookup r = none → ∃ d', Votes t keys v d' ∧ d.slot < d'.slot
    · left
      rw [voteOf, voteOf, lookup_extract_congr hsub hlater]
    · simp only [not_forall] at hlater
      obtain ⟨r, d, hmem, hsome, hnone, hnot⟩ := hlater
      rcases (hmissing v r d hmem hsome hnone).resolve_left hnot with
        ⟨hweighs, hweighs'⟩ | ⟨⟨d', hd'⟩, root, hroot, hroot'⟩
      · refine .inr ⟨fun data hdata ↦ ?_, fun data hdata hweighed ↦ ?_⟩
        · exact hweighs data ((extract_latest keys v).1 data hdata)
        · apply hweighs' data ((extract_latest keys v).1 data hdata)
          unfold Weighs
          rw [hjustified]
          exact hagree.weighed hweighed
      · have hvotes : Votes s keys v d' := by
          obtain ⟨r', hr', hlookup'⟩ := hd'
          exact ⟨r', hr', hsub r' d' hlookup'⟩
        obtain ⟨data, hdata⟩ := hvotes.exists_extract
        obtain ⟨data', hdata'⟩ := hd'.exists_extract
        left
        rw [voteOf, voteOf, hdata, hdata', Option.map_some, Option.map_some,
          hroot data ((extract_latest keys v).1 data hdata),
          hroot' data' ((extract_latest keys v).1 data' hdata')]
  obtain ⟨head, w, w', hrun, hrun'⟩ := computeLmdGhostHead_congr_above (ε := ε) hagree
    (hs.ordered_getLiveChain hh) (ht.ordered_getLiveChain hh) hvotes
    ((hs.lookup_getLiveChain hh).mpr hp) (hs.justified_ne_zero hh) host host minScore
  refine ⟨head, choice_eq_ok.mpr ⟨w, hrun⟩, choice_eq_ok.mpr ⟨w', ?_⟩⟩
  rw [hjustified]
  exact hrun'

end Missing

section Finalization

def advanced (s : Store H) (post : State H) : ForkCheckpoints H :=
  ⟨s.head, if s.latestJustified.slot < post.latestJustified.slot then some post.latestJustified
    else none, if s.latestFinalized.slot < post.latestFinalized.slot then some post.latestFinalized
    else none⟩

/-- What the import of a block would record if nothing was pruned. -/
def recordUnpruned (host : Host H) (sb : SignedBlockWithAttestation H) (post : State H)
    (s : Store H) : Store H :=
  writeBlock host sb post (s.setCheckpoints (advanced s post))

/-- No latest vote of a validator that is not above the slot weighs anything. -/
def Faded (host : Host H) (slot : UInt64) (keys : List (SignatureKey H)) (s : Store H) : Prop :=
  ∀ v d, Latest s keys v d → d.slot ≤ slot → ¬Weighs host s d

theorem adopted_unpruned (s : Store H) (post : State H) :
    Adopted s post (s.setCheckpoints (advanced s post)) := by
  refine ⟨rfl, rfl, rfl, rfl, rfl, rfl, rfl, ?_, ?_, fun k p ↦ id, fun k _ ↦ rfl⟩
  · simp only [Store.setCheckpoints, advanced]
    split
    · rfl
    · rfl
  · simp only [Store.setCheckpoints, advanced]
    split
    · rfl
    · rfl

theorem adoptCheckpoints_of_lt (hfin : s.latestFinalized.slot < post.latestFinalized.slot) :
    (adoptCheckpoints host s post).attestationDataByRoot =
      Table.retain (fun _ data ↦ decide (post.latestFinalized.slot < data.slot))
        s.attestationDataByRoot := by
  simp [adoptCheckpoints, hfin, Store.updateCheckpoints, Store.pruneAttestationDataByRoot,
    Store.pruneGossipSignatures, Store.pruneLiveChain, Store.setCheckpoints]

theorem lookup_recordBlock_data (host : Host H) (sb : SignedBlockWithAttestation H)
    (hfin : s.latestFinalized.slot < post.latestFinalized.slot) (r : H) :
    (recordBlock host sb post s).attestationDataByRoot.lookup r =
        (recordUnpruned host sb post s).attestationDataByRoot.lookup r ∨
      (recordBlock host sb post s).attestationDataByRoot.lookup r = none ∧
        ∀ d, (recordUnpruned host sb post s).attestationDataByRoot.lookup r = some d →
          d.slot ≤ post.latestFinalized.slot := by
  have hkept : (s.setCheckpoints (advanced s post)).attestationDataByRoot =
      s.attestationDataByRoot := rfl
  rw [recordBlock, recordUnpruned, writeBlock_data, writeBlock_data, adoptCheckpoints_of_lt hfin,
    hkept]
  rcases Table.lookup_putBatch_or (attestationDataEntries host sb) r with ⟨v, hput⟩ | hput
  · exact .inl ((hput _).trans (hput _).symm)
  · rw [hput, hput, Table.lookup_retain]
    cases s.attestationDataByRoot.lookup r with
    | none => exact .inl rfl
    | some d =>
      by_cases hd : post.latestFinalized.slot < d.slot
      · exact .inl (by simp [hd])
      · refine .inr ⟨by simpa using UInt64.not_lt.mp hd, fun d' hd' ↦ ?_⟩
        rw [← Option.some.inj hd']
        exact UInt64.not_lt.mp hd

/-- What the finalized slot cuts off the two tables is nothing to fork choice, if the votes that are
not above it weigh nothing. -/
theorem choice_recordBlock (hh : HashSound host) (htree : BlockTree host s) {verify : Bool}
    (hpost : postState host s sb verify = .ok post)
    (hfin : s.latestFinalized.slot < post.latestFinalized.slot)
    (hunpruned : Faded host post.latestFinalized.slot keys (recordUnpruned host sb post s))
    (hpruned : Faded host post.latestFinalized.slot keys (recordBlock host sb post s))
    (minScore : ℕ) :
    ∃ head, (choice host (recordUnpruned host sb post s) keys minScore : Exec ε H) = .ok head ∧
      (choice host (recordBlock host sb post s) keys minScore : Exec ε H) = .ok head := by
  have hi := htree.imported hh hpost
  have ha := adopted host s post
  have hu := adopted_unpruned s post
  have htree' := htree.recordBlock hh hpost
  have hdata := lookup_recordBlock_data host sb hfin
  have hjustified : (recordBlock host sb post s).latestJustified =
      (recordUnpruned host sb post s).latestJustified := by
    rw [recordBlock, recordUnpruned, writeBlock_justified, writeBlock_justified, ha.justified,
      hu.justified]
  have hunprunedTree : BlockTree host (recordUnpruned host sb post s) :=
    (hu.tree htree hi).writeBlock hh (hu.imported hi)
  refine choice_congr hh hunprunedTree htree' hjustified ?_ ?_ ?_ minScore
  · intro k hk
    rw [← hjustified] at hk
    have hle : (adoptCheckpoints host s post).latestFinalized.slot ≤ k.1 :=
      UInt64.le_trans htree'.ordered hk
    rw [recordBlock, recordUnpruned, writeBlock_liveChain, writeBlock_liveChain,
      Table.lookup_insert_eq_ite, Table.lookup_insert_eq_ite, ha.live_kept k hle]
    rfl
  · intro r d hd
    rcases hdata r with heq | ⟨hnone, -⟩
    · exact heq.symm.trans hd
    · exact nomatch hnone.symm.trans hd
  · intro v r d hmem hsome hnone
    by_cases hlater : ∃ d', Votes (recordBlock host sb post s) keys v d' ∧
        post.latestFinalized.slot < d'.slot
    · obtain ⟨d', hd', hlt⟩ := hlater
      rcases hdata r with heq | ⟨-, hle⟩
      · exact nomatch (heq.symm.trans hnone).symm.trans hsome
      · exact .inl ⟨d', hd', UInt64.lt_of_le_of_lt (hle d hsome) hlt⟩
    · have hle' {d' : AttestationData H} (hd' : Votes (recordBlock host sb post s) keys v d') :
          d'.slot ≤ post.latestFinalized.slot :=
        UInt64.not_lt.mp fun hlt ↦ hlater ⟨d', hd', hlt⟩
      refine .inr (.inl ⟨fun d' hd' ↦ hunpruned v d' hd' ?_, fun d' hd' ↦
        hpruned v d' hd' (hle' hd'.1)⟩)
      obtain ⟨r', hr', hlookup⟩ := hd'.1
      rcases hdata r' with heq | ⟨-, hle⟩
      · exact hle' ⟨r', hr', heq.trans hlookup⟩
      · exact hle d' hlookup

/-- Where a block advances the finalized slot, the pruning that follows changes neither the head nor
the safe target, if no latest vote that is not above the new finalized slot weighs anything, neither
before the pruning nor after it. -/
theorem finalization_pruning_unseen (hh : HashSound host) {st : State H}
    {body : Option (BlockBody H)} {s₀ : Store H} {calls : List (Call H)} (hst : Anchor host st)
    (h₀ : Store.initStore host st body = .ok s₀) (hrun : Call.run host s₀ calls = .ok s)
    (hpost : postState host s sb true = .ok post)
    (hfin : s.latestFinalized.slot < post.latestFinalized.slot)
    (hunpruned : ∀ keys ∈ [headKeys host (recordBlock host sb post s),
      allKeys host (recordBlock host sb post s)],
      Faded host post.latestFinalized.slot keys (recordUnpruned host sb post s))
    (hpruned : ∀ keys ∈ [headKeys host (recordBlock host sb post s),
      allKeys host (recordBlock host sb post s)],
      Faded host post.latestFinalized.slot keys (recordBlock host sb post s)) :
    (∃ head, (choice host (recordUnpruned host sb post s)
        (headKeys host (recordUnpruned host sb post s)) 0 : Exec ε H) = .ok head ∧
      (choice host (recordBlock host sb post s)
        (headKeys host (recordBlock host sb post s)) 0 : Exec ε H) = .ok head) ∧
    ∀ minScore, ∃ target, (choice host (recordUnpruned host sb post s)
        (allKeys host (recordUnpruned host sb post s)) minScore : Exec ε H) = .ok target ∧
      (choice host (recordBlock host sb post s)
        (allKeys host (recordBlock host sb post s)) minScore : Exec ε H) = .ok target := by
  have htree : BlockTree host s := Call.run_keeps (blockTree_invariant hh).steady
    (fun h ↦ h.pruneOldData) (blockTree_initStore hh hst h₀) hrun
  have hfewer := fewer_adoptCheckpoints host s post
  have hhead : headKeys host (recordUnpruned host sb post s) =
      headKeys host (recordBlock host sb post s) := by
    rw [headKeys, headKeys, recordUnpruned, recordBlock, writeBlock_knownPayloads,
      writeBlock_knownPayloads, hfewer.knownPayloads]
    rfl
  have hall : allKeys host (recordUnpruned host sb post s) =
      allKeys host (recordBlock host sb post s) := by
    rw [allKeys, allKeys, recordUnpruned, recordBlock, writeBlock_knownPayloads,
      writeBlock_knownPayloads, writeBlock_newPayloads, writeBlock_newPayloads, hfewer.knownPayloads,
      hfewer.newPayloads]
    rfl
  rw [hhead, hall]
  refine ⟨?_, fun minScore ↦ ?_⟩
  · exact choice_recordBlock hh htree hpost hfin (hunpruned _ List.mem_cons_self)
      (hpruned _ List.mem_cons_self) 0
  · have hmem : allKeys host (recordBlock host sb post s) ∈ [headKeys host (recordBlock host sb post s),
      allKeys host (recordBlock host sb post s)] := List.mem_cons_of_mem _ List.mem_cons_self
    exact choice_recordBlock hh htree hpost hfin (hunpruned _ hmem) (hpruned _ hmem) minScore

/-- A third block without votes. -/
def idleThird : Block ℕ := sampleBlock Sample.second 3 .empty

/-- Its rival, whose votes justify the second block and finalize the first. -/
def votedThird : Block ℕ := sampleBlock Sample.second 3
  ⟨[sampleVote ⟨[true, true], two_le_limit⟩ Sample.first Sample.second], one_le_limit⟩

/-- A vote that carries slot 1 and names a block of slot 3 as the head. -/
def earlyVote : AttestationData ℕ :=
  ⟨1, sampleCheckpoint idleThird, sampleCheckpoint Sample.first, sampleCheckpoint sampleOrigin⟩

def earlyAggregate : SignedAggregatedAttestation ℕ :=
  ⟨earlyVote, ⟨[false, false, true], three_le_limit⟩,
    ⟨[2, 1, UInt8.ofNat (sampleHost.attestationData earlyVote)], by simp⟩⟩

def earlyCalls : List (Call ℕ) :=
  [.onBlock sampleFirst [], .onBlock sampleSecond [],
    .onBlock (sampleSigned idleThird (ownVote idleThird Sample.second)) [],
    .onGossipAggregatedAttestation earlyAggregate, .onTick 4000 false false]

def votedSigned : SignedBlockWithAttestation ℕ :=
  sampleProved votedThird (ownVote votedThird Sample.second)

/-- The early vote makes the idle block the head. The pruning drops it, and the head is the rival. -/
theorem early_vote_pruned :
    ∃ s post, Call.run sampleHost sampleStore earlyCalls = .ok s ∧
      postState sampleHost s votedSigned true = .ok post ∧
      s.latestFinalized.slot < post.latestFinalized.slot ∧
      (choice sampleHost (recordUnpruned sampleHost votedSigned post s)
        (headKeys sampleHost (recordUnpruned sampleHost votedSigned post s)) 0 : Exec Empty ℕ) =
          .ok (sampleHash.block idleThird) ∧
      (choice sampleHost (recordBlock sampleHost votedSigned post s)
        (headKeys sampleHost (recordBlock sampleHost votedSigned post s)) 0 : Exec Empty ℕ) =
          .ok (sampleHash.block votedThird) ∧
      sampleHash.block idleThird ≠ sampleHash.block votedThird := by
  have hview : ((Call.run sampleHost sampleStore earlyCalls).toOption.bind fun s ↦
      (postState sampleHost s votedSigned true).toOption.map fun post ↦
        decide (s.latestFinalized.slot < post.latestFinalized.slot ∧
          (choice sampleHost (recordUnpruned sampleHost votedSigned post s)
            (headKeys sampleHost (recordUnpruned sampleHost votedSigned post s)) 0 :
              Exec Empty ℕ).toOption = some (sampleHash.block idleThird) ∧
          (choice sampleHost (recordBlock sampleHost votedSigned post s)
            (headKeys sampleHost (recordBlock sampleHost votedSigned post s)) 0 :
              Exec Empty ℕ).toOption = some (sampleHash.block votedThird))) = some true := by
    decide +kernel
  obtain ⟨s, hs, hview⟩ := Option.bind_eq_some_iff.mp hview
  obtain ⟨post, hpost, hview⟩ := Option.map_eq_some_iff.mp hview
  obtain ⟨hfin, hunpruned, hpruned⟩ := of_decide_eq_true hview
  exact ⟨s, post, Exec.eq_ok_of_toOption hs, Exec.eq_ok_of_toOption hpost, hfin,
    Exec.eq_ok_of_toOption hunpruned, Exec.eq_ok_of_toOption hpruned, by decide +kernel⟩

/-- A check that a sample store can evaluate: no stored vote at or below the slot weighs anything. -/
def fadedCheck (slot : UInt64) (s : Store ℕ) : Bool :=
  (Table.pairs s.attestationDataByRoot).all fun p ↦ decide (slot < p.2.slot) ||
    ((s.getLiveChain sampleHost).lookup p.2.head.root).all fun e ↦
      decide (e.1 ≤ s.latestJustified.slot)

theorem faded_of_check {slot : UInt64} {s : Store ℕ} (h : fadedCheck slot s = true)
    (keys : List (SignatureKey ℕ)) : Faded sampleHost slot keys s := by
  intro v d hd hle hweighs
  obtain ⟨⟨r, -, hlookup⟩, -⟩ := hd
  obtain ⟨slot', p, hblock, hlt⟩ := hweighs
  have hcheck := List.all_eq_true.mp h (r, d) (Table.mem_pairs.mpr hlookup)
  rw [hblock, Option.all_some, Bool.or_eq_true, decide_eq_true_eq, decide_eq_true_eq] at hcheck
  cases hcheck with
  | inl habove => exact UInt64.not_lt.mpr hle habove
  | inr hbelow => exact UInt64.not_lt.mpr hbelow hlt

theorem finalization_pruning_unseen_sample :
    ∃ s post, Call.run sampleHost sampleStore [.onBlock sampleFirst [], .onBlock sampleSecond []] =
        .ok s ∧ postState sampleHost s sampleThird true = .ok post ∧
      s.latestFinalized.slot < post.latestFinalized.slot ∧
      ∃ head, (choice sampleHost (recordUnpruned sampleHost sampleThird post s)
          (headKeys sampleHost (recordUnpruned sampleHost sampleThird post s)) 0 :
            Exec Empty ℕ) = .ok head ∧
        (choice sampleHost (recordBlock sampleHost sampleThird post s)
          (headKeys sampleHost (recordBlock sampleHost sampleThird post s)) 0 :
            Exec Empty ℕ) = .ok head := by
  have hview : ((Call.run sampleHost sampleStore
      [.onBlock sampleFirst [], .onBlock sampleSecond []]).toOption.bind fun s ↦
      (postState sampleHost s sampleThird true).toOption.map fun post ↦
        decide (s.latestFinalized.slot < post.latestFinalized.slot ∧
          fadedCheck post.latestFinalized.slot (recordUnpruned sampleHost sampleThird post s) ∧
          fadedCheck post.latestFinalized.slot (recordBlock sampleHost sampleThird post s))) =
      some true := by decide +kernel
  obtain ⟨s, hs, hview⟩ := Option.bind_eq_some_iff.mp hview
  obtain ⟨post, hpost, hview⟩ := Option.map_eq_some_iff.mp hview
  obtain ⟨hfin, hunpruned, hpruned⟩ := of_decide_eq_true hview
  have hrun := Exec.eq_ok_of_toOption hs
  have hpost := Exec.eq_ok_of_toOption hpost
  exact ⟨s, post, hrun, hpost, hfin, (finalization_pruning_unseen sampleHost_hashSound
    sampleGenesis_anchor sampleStore_eq hrun hpost hfin (fun keys _ ↦ faded_of_check hunpruned keys)
    fun keys _ ↦ faded_of_check hpruned keys).1⟩

end Finalization

section ProposerVote

/-- Data is stored under its own root. -/
def DataFiled (host : Host H) (s : Store H) : Prop :=
  ∀ r d, s.attestationDataByRoot.lookup r = some d → host.attestationData d = r

theorem dataFiled_invariant (host : Host H) : VoteInvariant (DataFiled host) where
  fewer := fun h hf r d hd ↦ h r d (hf.data r d hd)
  promote := fun h ↦ h
  aggregate := fun h _ ↦ h

theorem DataFiled.insertData (h : DataFiled host s) (d : AttestationData H) :
    DataFiled host (s.insertAttestationDataByRoot (host.attestationData d) d) := by
  intro r d' hd
  rw [Store.insertAttestationDataByRoot, Table.lookup_insert_eq_ite] at hd
  split at hd
  · rename_i hr
    rw [hr, Option.some.inj hd]
  · exact h r d' hd

theorem DataFiled.putBatch {l : List (H × AttestationData H)}
    (hl : ∀ e ∈ l, host.attestationData e.2 = e.1) {table : Table H (AttestationData H)}
    (h : ∀ r d, table.lookup r = some d → host.attestationData d = r) (r : H)
    (d : AttestationData H) (hd : (Table.putBatch l table).lookup r = some d) :
    host.attestationData d = r := by
  cases Table.lookup_putBatch_cases hd with
  | inl hmem => exact hl (r, d) hmem
  | inr hlookup => exact h r d hlookup

theorem attestationDataEntries_filed (host : Host H) (sb : SignedBlockWithAttestation H) :
    ∀ e ∈ attestationDataEntries host sb, host.attestationData e.2 = e.1 := by
  intro e he
  cases List.mem_append.mp he with
  | inl he =>
    obtain ⟨q, -, rfl⟩ := List.mem_map.mp he
    rfl
  | inr he =>
    obtain rfl := List.mem_singleton.mp he
    rfl

theorem DataFiled.adopt (h : DataFiled host s) (post : State H) :
    DataFiled host (adoptCheckpoints host s post) :=
  (dataFiled_invariant host).fewer h (fewer_adoptCheckpoints host s post)

theorem DataFiled.run {st : State H} {body : Option (BlockBody H)} {s₀ : Store H}
    {calls : List (Call H)} (h₀ : Store.initStore host st body = .ok s₀)
    (hrun : Call.run host s₀ calls = .ok s) : DataFiled host s := by
  refine Runs.run_invariant (P := DataFiled host) (fun t c t' h hs ↦ ?_) ?_ hrun
  · refine (dataFiled_invariant host).step h hs ?_ ?_ ?_
    · exact fun signed ids sig _ _ ↦ ⟨h.insertData signed.data, h.insertData signed.data⟩
    · exact fun aggregated _ _ ↦ h.insertData aggregated.data
    · intro sb ids post _ _ _
      have hrecord : DataFiled host (recordBlock host sb post t) := by
        intro r d hd
        rw [recordBlock, writeBlock_data] at hd
        exact DataFiled.putBatch (attestationDataEntries_filed host sb) (h.adopt post) r d hd
      exact ⟨hrecord, fun head sig _ ↦ hrecord⟩
  · obtain ⟨-, rfl⟩ := Store.initStore_eq_ok.mp h₀
    exact fun _ _ hd ↦ (nomatch hd)

section Twins

variable {sb' : SignedBlockWithAttestation H} {post' : State H}

end Twins

def nextBlock : Block ℕ := sampleBlock votedThird 4 .empty

end ProposerVote

end Ethlambda.Chain
