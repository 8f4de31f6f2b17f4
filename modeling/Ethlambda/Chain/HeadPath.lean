import Ethlambda.Chain.Reachable

namespace Ethlambda.Chain

open Ethlambda.Base Ethlambda.Types Ethlambda.Storage Ethlambda.StateTransition Ethlambda.ForkChoice

set_option linter.unusedSectionVars false

variable {H : Type} [LinearOrder H] [Zero H] {host : Host H} {s s' : Store H}

/-- A live block and the parent it is filed with. -/
def LiveLink (s : Store H) (r p : H) : Prop := ∃ slot, s.liveChain.lookup (slot, r) = some p

/-- The tree together with the way from the head back to the justified block. -/
structure HeadLinked (host : Host H) (s : Store H) : Prop where
  tree : BlockTree host s
  linked : Relation.ReflTransGen (LiveLink s) s.head s.latestJustified.root

section Invariant

theorem BlockTree.computeLmdGhostHead_linked {ε : Type} (hh : HashSound host) (h : BlockTree host s)
    {attestations : Table UInt64 (AttestationData H)} {minScore : ℕ} {r : H × Weights H}
    (hr : (computeLmdGhostHead host s.latestJustified.root (s.getLiveChain host) attestations
      minScore : Exec ε (H × Weights H)) = .ok r) :
    Relation.ReflTransGen (LiveLink s) r.1 s.latestJustified.root := by
  have hlinks := computeLmdGhostHead_links (h.start_mem hh) (h.justified_ne_zero hh) hr
  refine Relation.ReflTransGen.mono ?_ _ _ hlinks
  intro a b ⟨slot, hab⟩
  exact ⟨slot, (h.lookup_getLiveChain hh).mp hab⟩

theorem liveLink_congr (h : s'.liveChain = s.liveChain) : LiveLink s' = LiveLink s := by
  unfold LiveLink
  rw [h]

theorem headLinked_invariant (hh : HashSound host) : Steady host (HeadLinked host) where
  frame := by
    intro s s' h hf
    refine ⟨h.tree.frame hf, ?_⟩
    rw [liveLink_congr hf.liveChain, hf.head, hf.justified]
    exact h.linked
  head := fun h hr ↦ ⟨h.tree.congr rfl rfl rfl rfl rfl, h.tree.computeLmdGhostHead_linked hh hr⟩
  safeTarget := fun h _ ↦ ⟨h.tree.congr rfl rfl rfl rfl rfl, h.linked⟩
  record := by
    intro ε s t sb verify post r h hpost ht hr
    have hrec := h.tree.recordBlock hh hpost
    rw [ht] at hrec
    exact ⟨hrec.congr rfl rfl rfl rfl rfl, hrec.computeLmdGhostHead_linked hh hr⟩
  pending := fun sb h ↦ ⟨h.tree.insertPendingBlock hh sb, h.linked⟩

theorem headLinked_initStore (hh : HashSound host) {st : State H} (hst : Anchor host st)
    {body : Option (BlockBody H)} (h : Store.initStore host st body = .ok s) :
    HeadLinked host s := by
  refine ⟨blockTree_initStore hh hst h, ?_⟩
  obtain ⟨-, rfl⟩ := Store.initStore_eq_ok.mp h
  exact .refl

theorem HeadLinked.reachable (hh : HashSound host) {st : State H} (hst : Anchor host st)
    {body : Option (BlockBody H)} {s₀ : Store H} {calls : List (Call H)}
    (h₀ : Store.initStore host st body = .ok s₀) (hrun : Call.run host s₀ calls = .ok s) :
    HeadLinked host s :=
  Call.run_keeps (headLinked_invariant hh) (fun h ↦ ⟨h.tree.pruneOldData, h.linked⟩)
    (headLinked_initStore hh hst h₀) hrun

/-- A path of live links ends at a live block, so it also begins at one. -/
theorem HeadLinked.head_live (h : HeadLinked host s) :
    ∃ slot p, s.liveChain.lookup (slot, s.head) = some p := by
  rcases Relation.ReflTransGen.cases_head h.linked with heq | ⟨p, ⟨slot, hp⟩, -⟩
  · rw [heq]
    exact ⟨_, h.tree.justified⟩
  · exact ⟨slot, p, hp⟩

end Invariant

section Advance

/-- Neither checkpoint has gone back. -/
structure Advances (s s' : Store H) : Prop where
  justified : s.latestJustified.slot ≤ s'.latestJustified.slot
  finalized : s.latestFinalized.slot ≤ s'.latestFinalized.slot

theorem Adopted.justified_le {post : State H} (h : Adopted s post s') :
    s.latestJustified.slot ≤ s'.latestJustified.slot := by
  rw [h.justified]
  split
  · rename_i hlt
    exact UInt64.le_of_lt hlt
  · exact UInt64.le_refl _

theorem advances_invariant (host : Host H) (s : Store H) : TableInvariant host (Advances s) where
  congr := by
    intro t t' h _ _ _ hj hf
    refine ⟨?_, ?_⟩
    · rw [hj]
      exact h.justified
    · rw [hf]
      exact h.finalized
  record := by
    intro t sb verify post h _
    have ha := adopted host t post
    exact ⟨UInt64.le_trans h.justified ha.justified_le, UInt64.le_trans h.finalized ha.finalized_le⟩
  pending := fun _ h ↦ ⟨h.justified, h.finalized⟩

theorem Call.step_advances {c : Call H} (h : Call.step host s c = .ok s') : Advances s s' :=
  Call.step_keeps (advances_invariant host s).steady (fun _ h ↦ ⟨h.justified, h.finalized⟩)
    ⟨UInt64.le_refl _, UInt64.le_refl _⟩ h

end Advance

/-- Whatever blocks and votes come in, fork choice can always be run from the justified block to a
head that descends from it. -/
theorem head_descends_from_justified (hh : HashSound host) {time : UInt64}
    {validators : List Validator} {g : State H} {body : Option (BlockBody H)} {s₀ : Store H}
    {calls : List (Call H)}
    (hg : State.fromGenesis host.toTreeHash time validators =
      (.ok g : StateTransition.Result H (State H)))
    (h₀ : Store.initStore host g body = .ok s₀) (hrun : Call.run host s₀ calls = .ok s) :
    (∃ slot p, s.liveChain.lookup (slot, s.latestJustified.root) = some p) ∧
    (∃ slot p, s.liveChain.lookup (slot, s.head) = some p) ∧
    Relation.ReflTransGen (LiveLink s) s.head s.latestJustified.root ∧
    (∀ slot r p slot' q, s.liveChain.lookup (slot, r) = some p →
      s.liveChain.lookup (slot', p) = some q → slot' < slot) ∧
    s.latestFinalized.slot ≤ s.latestJustified.slot ∧
    ∀ c s', Call.step host s c = .ok s' → s.latestJustified.slot ≤ s'.latestJustified.slot ∧
      s.latestFinalized.slot ≤ s'.latestFinalized.slot := by
  have h := HeadLinked.reachable hh (anchor_genesis hg) h₀ hrun
  refine ⟨⟨_, h.tree.justified⟩, h.head_live, h.linked, ?_, h.tree.ordered, ?_⟩
  · intro slot r p slot' q hr hp
    rw [← h.tree.lookup_getLiveChain hh] at hr hp
    exact h.tree.ordered_getLiveChain hh r slot p hr slot' q hp
  · intro c s' hs
    have ha := Call.step_advances hs
    exact ⟨ha.justified, ha.finalized⟩

theorem head_descends_from_justified_sample :
    ∃ s, Call.run sampleHost sampleStore [.onBlock sampleFirst [0], .onTick 4000 false false] = .ok s ∧
      s.head ≠ s.latestJustified.root ∧
      Relation.ReflTransGen (LiveLink s) s.head s.latestJustified.root := by
  have hview : (Call.run sampleHost sampleStore
      [.onBlock sampleFirst [0], .onTick 4000 false false]).toOption.map
      (fun s ↦ decide (s.head ≠ s.latestJustified.root)) = some true := by decide +kernel
  obtain ⟨s, hs, hhead⟩ := Exec.exists_ok_of_map hview
  exact ⟨s, hs, of_decide_eq_true hhead,
    (head_descends_from_justified sampleHost_hashSound sampleGenesis_eq sampleStore_eq hs).2.2.1⟩

section Source

/-- No stored state has justified a later slot than the store. -/
def JustifiedCapped (s : Store H) : Prop :=
  ∀ r st, s.states.lookup r = some st → st.latestJustified.slot ≤ s.latestJustified.slot

theorem Adopted.post_justified_le {post : State H} (h : Adopted s post s') :
    post.latestJustified.slot ≤ s'.latestJustified.slot := by
  rw [h.justified]
  split
  · exact UInt64.le_refl _
  · rename_i hlt
    exact UInt64.not_lt.mp hlt

theorem justifiedCapped_invariant (host : Host H) : TableInvariant host JustifiedCapped where
  congr := by
    intro s s' h hs _ _ hj _ r st hst
    rw [hs] at hst
    rw [hj]
    exact h r st hst
  record := by
    intro s sb verify post h _ r st hst
    have ha := adopted host s post
    rw [lookup_recordBlock_states] at hst
    split at hst
    · rw [← Option.some.inj hst]
      exact ha.post_justified_le
    · exact UInt64.le_trans (h r st hst) ha.justified_le
  pending := fun _ h ↦ h

theorem JustifiedCapped.pruneOldData (h : JustifiedCapped s) :
    JustifiedCapped (s.pruneOldData host) :=
  fun r st hst ↦ h r st (lookup_states_of_pruneOldData hst)

theorem justifiedCapped_initStore (hh : HashSound host) {st : State H} (hst : Anchor host st)
    {body : Option (BlockBody H)} (h : Store.initStore host st body = .ok s) :
    JustifiedCapped s := by
  have hle := (hst.sound hh).1.aligned.justified_le
  obtain ⟨-, rfl⟩ := Store.initStore_eq_ok.mp h
  intro r st' hr
  obtain ⟨rfl, rfl⟩ := Table.lookup_singleton.mp hr
  change st.latestJustified.slot ≤ st.latestBlockHeader.slot
  rw [UInt64.le_iff_toNat_le]
  omega

theorem BlockTree.live_ne_zero (hh : HashSound host) (h : BlockTree host s) {slot : UInt64}
    {r p : H} (hr : s.liveChain.lookup (slot, r) = some p) : r ≠ 0 := by
  obtain ⟨st, hst, -⟩ := h.live slot r p hr
  rw [← hst.root_eq]
  exact hh.collisionFree.header_ne_zero _

/-- Live links from a block lead through its state's history: a live block that they reach is the
block itself or stands in the history at its own slot. -/
theorem BlockTree.history_of_linked (hh : HashSound host) (h : BlockTree host s) {r x : H}
    {st : State H} (hst : Stored host r st) (hpath : Relation.ReflTransGen (LiveLink s) r x)
    {slot : UInt64} {p : H} (hx : s.liveChain.lookup (slot, x) = some p) :
    x = r ∨ st.historicalBlockHashes.toList[slot.toNat]? = some x := by
  have hal := hst.wellformed.aligned
  -- the induction carries a header of the block reached that is linked into the history
  suffices hlinked : ∃ hdr, host.header hdr = x ∧ Linked st.historicalBlockHashes.toList hdr ∧
      (x = r ∨ st.historicalBlockHashes.toList[hdr.slot.toNat]? = some x) by
    obtain ⟨hdr, hhdr, -, hhist⟩ := hlinked
    obtain ⟨sx, hsx, rfl, -⟩ := h.live slot x p hx
    rw [hsx.wellformed.slot_eq, ← cachedHeader_slot host.toTreeHash sx, ← hsx.header_eq hh hhdr]
    exact hhist
  induction hpath generalizing slot p with
  | refl =>
    refine ⟨cachedHeader host.toTreeHash st, hst.root_eq, ?_, .inl rfl⟩
    simpa [Linked] using hal.header_linked
  | tail hpath hlink ih =>
    rename_i y z
    obtain ⟨ySlot, hyz⟩ := hlink
    obtain ⟨hdr, hhdr, hlinked, -⟩ := ih hyz
    obtain ⟨sy, hsy, -, rfl⟩ := h.live ySlot y z hyz
    have hdreq := hsy.header_eq hh hhdr
    have hne := h.live_ne_zero hh hx
    rcases hlinked with hzero | ⟨i, -, hi, -⟩
    · rw [hdreq, cachedHeader_slot] at hzero
      exact absurd (hsy.origin hzero) hne
    · rw [hdreq, cachedHeader_parentRoot] at hi
      obtain ⟨parent, rfl, hparent, hlinked⟩ := hal.history_linked i _ hi hne
      exact ⟨parent, hparent, hlinked, .inr hi⟩

/-- What a builder compares sources with, before the block has any vote. -/
theorem applyBlock_empty_justified {st post : State H} {block : Block H}
    (hempty : block.body = .default) (h : applyBlock host st block = .ok post) :
    post.latestJustified = if st.latestBlockHeader.slot = 0 then
      ⟨host.header (cachedHeader host.toTreeHash st), st.latestJustified.slot⟩
      else st.latestJustified := by
  obtain ⟨st₁, h₁, h⟩ := Exec.bind_eq_ok.mp (Exec.mapError_eq_ok.mp h)
  obtain ⟨st₂, h₂, h⟩ := Exec.bind_eq_ok.mp h
  obtain ⟨-, rfl⟩ := processSlots_eq_ok.mp h₁
  obtain ⟨-, -, -, -, -, hashes, window, -, -, rfl⟩ := processBlockHeader_eq_ok h₂
  rw [hempty] at h
  obtain ⟨-, slots, t, -, hrun, hpost⟩ := processAttestations_eq_ok h
  obtain rfl := Except.ok.inj hrun
  obtain ⟨roots, votes, rfl⟩ := serializeJustifications_eq_ok hpost
  simp only [openTally, cachedHeader_slot]

/-- The vote's source is at least as high as what a builder on the head compares it with. The two
are one checkpoint exactly when the head's own state has justified the store's justified slot. -/
theorem source_eq_builder_iff (hh : HashSound host) {anchor : State H} (hanchor : Anchor host anchor)
    {body : Option (BlockBody H)} {s₀ : Store H} {calls : List (Call H)}
    (h₀ : Store.initStore host anchor body = .ok s₀) (hrun : Call.run host s₀ calls = .ok s)
    {head post : State H} (hhead : s.states.lookup s.head = some head) {ε : Type} {slot : UInt64}
    {vote : AttestationData H} (hvote : (produceAttestationData s slot : Exec ε _) = .ok vote)
    {block : Block H} (hempty : block.body = .default)
    (hpost : applyBlock host head block = .ok post) :
    post.latestJustified.slot ≤ vote.source.slot ∧
      (vote.source = post.latestJustified ↔
        head.latestJustified.slot = s.latestJustified.slot) := by
  have hlinked := HeadLinked.reachable hh hanchor h₀ hrun
  have hcapped := Call.run_keeps (justifiedCapped_invariant host).steady
    JustifiedCapped.pruneOldData (justifiedCapped_initStore hh hanchor h₀) hrun
  have hstored := hlinked.tree.states _ head hhead
  have hal := hstored.wellformed.aligned
  have hsource : vote.source = s.latestJustified := by
    obtain ⟨_, -, hvote⟩ := Exec.bind_eq_ok.mp hvote
    obtain ⟨_, -, hvote⟩ := Exec.bind_eq_ok.mp hvote
    rw [← Except.ok.inj hvote]
  have hslot : post.latestJustified.slot = head.latestJustified.slot := by
    rw [applyBlock_empty_justified hempty hpost]
    split <;> rfl
  rw [hsource]
  refine ⟨hslot ▸ hcapped _ head hhead, fun heq ↦ by rw [← hslot, heq], fun heq ↦ ?_⟩
  obtain ⟨p, hp⟩ := hlinked.tree.justified
  have hroot : s.latestJustified.root = post.latestJustified.root := by
    rw [applyBlock_empty_justified hempty hpost]
    have hzero : head.latestBlockHeader.slot = 0 ↔ head.latestBlockHeader.slot.toNat = 0 := by
      rw [← UInt64.toNat_inj]
      rfl
    rcases hlinked.tree.history_of_linked hh hstored hlinked.linked hp with hself | hhist
    · -- the head is the justified block, whose slot its own state cannot have justified
      obtain ⟨st, hst, hstslot, -⟩ := hlinked.tree.live _ _ p hp
      rw [hself] at hst
      have hsame := (hst.unique hh hstored).1
      have hle := hal.justified_le
      have hz : head.latestBlockHeader.slot = 0 := by
        rw [hzero]
        rw [heq, ← hstslot, hsame, hstored.wellformed.slot_eq] at hle
        omega
      rw [if_pos hz, hself]
      exact hstored.root_eq.symm
    · have hpos : 0 < head.latestBlockHeader.slot.toNat := by
        rw [← hal.history_length]
        exact Nat.zero_lt_of_lt (List.getElem?_eq_some_iff.mp hhist).1
      rw [if_neg fun hz ↦ Nat.pos_iff_ne_zero.mp hpos (hzero.mp hz)]
      have hj := hal.justified_root hpos
      rw [heq, hhist] at hj
      exact Option.some.inj hj
  exact Checkpoint.ext hroot (hslot.trans heq).symm

/-- A rival of the second block on the same parent, without the votes that justify it. -/
def sampleLate : SignedBlockWithAttestation ℕ :=
  sampleSigned (sampleBlock Sample.first 3 .empty)
    (ownVote (sampleBlock Sample.first 3 .empty) Sample.first)

/-- The source of a vote for slot 4 and the checkpoint that a builder of slot 4 compares it with. -/
def sourceView (calls : List (Call ℕ)) : Option (Checkpoint ℕ × Checkpoint ℕ) := do
  let s ← (Call.run sampleHost sampleStore calls).toOption
  let head ← s.states.lookup s.head
  let vote ← (produceAttestationData s 4 : Exec Empty (AttestationData ℕ)).toOption
  let post ← (applyBlock sampleHost head (candidateBlock 4 1 s.head .empty)).toOption
  pure (vote.source, post.latestJustified)

theorem exists_sourceView {calls : List (Call ℕ)} {a b : Checkpoint ℕ}
    (h : sourceView calls = some (a, b)) :
    ∃ s head vote post, Call.run sampleHost sampleStore calls = .ok s ∧
      s.states.lookup s.head = some head ∧
      (produceAttestationData s 4 : Exec Empty (AttestationData ℕ)) = .ok vote ∧
      applyBlock sampleHost head (candidateBlock 4 1 s.head .empty) = .ok post ∧
      vote.source = a ∧ post.latestJustified = b := by
  obtain ⟨s, hs, h⟩ := Option.bind_eq_some_iff.mp h
  obtain ⟨head, hhead, h⟩ := Option.bind_eq_some_iff.mp h
  obtain ⟨vote, hvote, h⟩ := Option.bind_eq_some_iff.mp h
  obtain ⟨post, hpost, h⟩ := Option.bind_eq_some_iff.mp h
  obtain ⟨hsource, hjustified⟩ := Prod.mk.inj (Option.some.inj h)
  exact ⟨s, head, vote, post, Exec.eq_ok_of_toOption hs, hhead, Exec.eq_ok_of_toOption hvote,
    Exec.eq_ok_of_toOption hpost, hsource, hjustified⟩

theorem source_eq_builder_iff_sample :
    ∃ s head, Call.run sampleHost sampleStore [.onBlock sampleFirst [0], .onBlock sampleSecond [0]] =
        .ok s ∧
      s.states.lookup s.head = some head ∧ s.latestJustified = sampleCheckpoint Sample.first ∧
      head.latestJustified.slot = s.latestJustified.slot := by
  have hview : sourceView [.onBlock sampleFirst [0], .onBlock sampleSecond [0]] =
      some (sampleCheckpoint Sample.first, sampleCheckpoint Sample.first) := by decide +kernel
  obtain ⟨s, head, vote, post, hrun, hhead, hvote, hpost, hsource, hjustified⟩ :=
    exists_sourceView hview
  have hiff := source_eq_builder_iff sampleHost_hashSound (anchor_genesis sampleGenesis_eq)
    sampleStore_eq hrun hhead hvote rfl hpost
  refine ⟨s, head, hrun, hhead, ?_, hiff.2.mp (hsource.trans hjustified.symm)⟩
  obtain ⟨_, -, hvote⟩ := Exec.bind_eq_ok.mp hvote
  obtain ⟨_, -, hvote⟩ := Exec.bind_eq_ok.mp hvote
  rw [← hsource, ← Except.ok.inj hvote]

/-- Once the rival is the head, a vote names the first block as its source, while a builder on the
rival still asks for genesis. -/
theorem source_ne_builder :
    ∃ s head vote post, Store.initStore sampleHost sampleGenesis none = .ok sampleStore ∧
      Call.run sampleHost sampleStore
        [.onBlock sampleFirst [0], .onBlock sampleSecond [0], .onBlock sampleLate [0]] = .ok s ∧
      s.states.lookup s.head = some head ∧
      (produceAttestationData s 4 : Exec Empty (AttestationData ℕ)) = .ok vote ∧
      applyBlock sampleHost head (candidateBlock 4 1 s.head .empty) = .ok post ∧
      vote.source ≠ post.latestJustified := by
  have hview : sourceView
      [.onBlock sampleFirst [0], .onBlock sampleSecond [0], .onBlock sampleLate [0]] =
      some (sampleCheckpoint Sample.first, sampleCheckpoint sampleOrigin) := by decide +kernel
  obtain ⟨s, head, vote, post, hrun, hhead, hvote, hpost, hsource, hjustified⟩ :=
    exists_sourceView hview
  refine ⟨s, head, vote, post, sampleStore_eq, hrun, hhead, hvote, hpost, ?_⟩
  rw [hsource, hjustified]
  decide +kernel

end Source

end Ethlambda.Chain
