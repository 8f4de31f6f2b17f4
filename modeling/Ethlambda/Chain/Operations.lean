import Ethlambda.Chain.Coherence
import Ethlambda.Chain.Proposal

namespace Ethlambda.Chain

open Ethlambda.Base Ethlambda.Types Ethlambda.Storage Ethlambda.StateTransition Ethlambda.ForkChoice

set_option linter.unusedSectionVars false

variable {H : Type} [LinearOrder H] [Zero H] {host : Host H} {s s' : Store H} {ε : Type}
  {I : Store H → Prop}

/-- What an invariant has to stand for the operations on a store to keep it: votes and the clock
may change, head and safe target may move to live blocks, and blocks may come in. -/
structure StoreInvariant (host : Host H) (I : Store H → Prop) : Prop where
  coherent : ∀ {s}, I s → Coherent host s
  frame : ∀ {s s'}, I s → Frame s s' → I s'
  head : ∀ {s slot r p}, I s → s.liveChain.lookup (slot, r) = some p → I { s with head := r }
  safeTarget : ∀ {s slot r p}, I s → s.liveChain.lookup (slot, r) = some p →
    I { s with safeTarget := r }
  record : ∀ {s t sb verify post slot r p}, I s → postState host s sb verify = .ok post →
    recordBlock host sb post s = t → t.liveChain.lookup (slot, r) = some p → I { t with head := r }
  pending : ∀ {s} sb, I s → I (s.insertPendingBlock host (host.block sb.message.block) sb)

/-- What it takes for the operations that bring no block in to keep `I`. Head and safe target go where
fork choice leads. -/
structure Calm (host : Host H) (I : Store H → Prop) : Prop where
  frame : ∀ {s s'}, I s → Frame s s' → I s'
  head : ∀ {ε : Type} {s r}, I s → (computeLmdGhostHead host s.latestJustified.root
    (s.getLiveChain host) (s.extractLatestKnownAttestations host) 0 : Exec ε (H × Weights H)) =
      .ok r → I { s with head := r.1 }
  safeTarget : ∀ {ε : Type} {s votes minScore r}, I s →
    (computeLmdGhostHead host s.latestJustified.root (s.getLiveChain host) votes minScore :
      Exec ε (H × Weights H)) = .ok r → I { s with safeTarget := r.1 }

/-- What it takes for every operation on a store to keep `I`. -/
structure Steady (host : Host H) (I : Store H → Prop) : Prop extends Calm host I where
  record : ∀ {ε : Type} {s t sb verify post r}, I s → postState host s sb verify = .ok post →
    recordBlock host sb post s = t → (computeLmdGhostHead host t.latestJustified.root
      (t.getLiveChain host) (t.extractLatestKnownAttestations host) 0 :
        Exec ε (H × Weights H)) = .ok r → I { t with head := r.1 }
  pending : ∀ {s} sb, I s → I (s.insertPendingBlock host (host.block sb.message.block) sb)

theorem StoreInvariant.steady (hh : HashSound host) (hI : StoreInvariant host I) :
    Steady host I where
  frame := hI.frame
  head := by
    intro ε s r h hr
    obtain ⟨slot, p, hp⟩ := (hI.coherent h).computeLmdGhostHead_live hh hr
    exact hI.head h hp
  safeTarget := by
    intro ε s votes minScore r h hr
    obtain ⟨slot, p, hp⟩ := (hI.coherent h).computeLmdGhostHead_live hh hr
    exact hI.safeTarget h hp
  record := by
    intro ε s t sb verify post r h hpost ht hr
    have hrec := (hI.coherent h).recordBlock hh hpost
    rw [ht] at hrec
    obtain ⟨slot, p, hp⟩ := hrec.computeLmdGhostHead_live hh hr
    exact hI.record h hpost ht hp
  pending := hI.pending

/-- What it takes for ticks and block production to keep `I`: the single things they do keep it. -/
structure Ticking (host : Host H) (I : Store H → Prop) : Prop where
  clock : ∀ {s} time, I s → I { s with time := time }
  promote : ∀ {s}, I s → I s.promoteNewAggregatedPayloads
  updateHead : ∀ {ε : Type}, Op.Keeps I (updateHead host : Op (Store H) ε Unit)
  updateSafeTarget : ∀ {ε : Type}, Op.Keeps I (updateSafeTarget host : Op (Store H) ε Unit)
  aggregate : ∀ {ε : Type}, Op.Keeps I
    (aggregateCommitteeSignatures host : Op (Store H) ε (List (SignedAggregatedAttestation H)))

/-- The same for a node that puts no signatures together. -/
structure Quiet (host : Host H) (I : Store H → Prop) : Prop where
  clock : ∀ {s} time, I s → I { s with time := time }
  promote : ∀ {s}, I s → I s.promoteNewAggregatedPayloads
  updateHead : ∀ {ε : Type}, Op.Keeps I (updateHead host : Op (Store H) ε Unit)
  updateSafeTarget : ∀ {ε : Type}, Op.Keeps I (updateSafeTarget host : Op (Store H) ε Unit)

theorem Ticking.quiet (hI : Ticking host I) : Quiet host I :=
  ⟨hI.clock, hI.promote, hI.updateHead, hI.updateSafeTarget⟩

section Heads

theorem Coherent.updateHead (hh : HashSound host) (h : Coherent host s) :
    ∃ head, (updateHead host : Op (Store H) ε Unit) s = .ok (.ok (), { s with head := head }) ∧
      ∃ slot p, s.liveChain.lookup (slot, head) = some p := by
  obtain ⟨r, hr⟩ := h.exists_computeLmdGhostHead (ε := ε) hh
    (s.extractLatestKnownAttestations host) 0
  refine ⟨r.1, ?_, h.computeLmdGhostHead_live hh hr⟩
  unfold Chain.updateHead
  rw [Op.get_bind, Op.lift_bind_of_ok hr]
  rfl

/-- Fork choice has no error of its own. -/
theorem updateHead_infallible : Op.Infallible (updateHead host : Op (Store H) ε Unit) :=
  .bind .get fun _ ↦ .bind (.lift fun _ ↦ computeLmdGhostHead_ne_fail) fun _ ↦ .modify _

/-- Fork choice moves the head and nothing else. -/
theorem updateHead_eq_ok {r : Except ε Unit} (h : updateHead host s = .ok (r, s')) :
    ∃ g, (computeLmdGhostHead host s.latestJustified.root (s.getLiveChain host)
      (s.extractLatestKnownAttestations host) 0 : Exec ε (H × Weights H)) = .ok g ∧
      s' = { s with head := g.1 } := by
  unfold updateHead at h
  rw [Op.get_bind] at h
  rcases Op.bind_eq_ok.mp h with ⟨g, t, hlift, hrest⟩ | ⟨e, he, -⟩
  · obtain ⟨rfl, ⟨g', hg, hok⟩ | ⟨e, -, hok⟩⟩ := Op.lift_eq_ok.mp hlift
    · obtain rfl := Except.ok.inj hok
      obtain ⟨-, rfl⟩ := Prod.mk.inj (Except.ok.inj hrest)
      exact ⟨g, hg, rfl⟩
    · exact nomatch hok
  · obtain ⟨-, ⟨g, -, hok⟩ | ⟨e', hfail, -⟩⟩ := Op.lift_eq_ok.mp he
    · exact nomatch hok
    · exact absurd hfail computeLmdGhostHead_ne_fail

theorem updateHead_keeps (hI : Calm host I) :
    Op.Keeps I (updateHead host : Op (Store H) ε Unit) := by
  intro s r s' h hr
  obtain ⟨g, hg, rfl⟩ := updateHead_eq_ok hr
  exact hI.head h hg

/-- The safe target moves where fork choice leads, and nothing else changes. -/
theorem updateSafeTarget_eq_ok {r : Except ε Unit} (h : updateSafeTarget host s = .ok (r, s')) :
    s' = s ∨ ∃ g, (∃ votes minScore, (computeLmdGhostHead host s.latestJustified.root
      (s.getLiveChain host) votes minScore : Exec ε (H × Weights H)) = .ok g) ∧
      s' = { s with safeTarget := g.1 } := by
  unfold updateSafeTarget at h
  rw [Op.get_bind] at h
  rcases Op.bind_eq_ok.mp h with ⟨st, t, hst, hrest⟩ | ⟨e, he, -⟩
  · obtain ⟨rfl, -⟩ := Op.lift_eq_ok.mp hst
    rcases Op.bind_eq_ok.mp hrest with ⟨g, u, hlift, hset⟩ | ⟨e, he, -⟩
    · obtain ⟨hg, rfl⟩ := Op.lift_eq_ok_ok.mp hlift
      obtain ⟨-, rfl⟩ := Prod.mk.inj (Except.ok.inj hset)
      exact .inr ⟨g, ⟨_, _, hg⟩, rfl⟩
    · obtain ⟨rfl, -⟩ := Op.lift_eq_ok.mp he
      exact .inl rfl
  · obtain ⟨rfl, -⟩ := Op.lift_eq_ok.mp he
    exact .inl rfl

theorem updateSafeTarget_keeps (hI : Calm host I) :
    Op.Keeps I (updateSafeTarget host : Op (Store H) ε Unit) := by
  intro s r s' h hr
  obtain rfl | ⟨g, ⟨votes, minScore, hg⟩, rfl⟩ := updateSafeTarget_eq_ok hr
  · exact h
  · exact hI.safeTarget h hg

end Heads

section Ticks

theorem aggregateCommitteeSignatures_keeps (hI : Calm host I) :
    Op.Keeps I
      (aggregateCommitteeSignatures host : Op (Store H) ε (List (SignedAggregatedAttestation H))) := by
  refine Op.Keeps.bind Op.Keeps.get fun s ↦ ?_
  apply Op.Keeps.ite
  · exact fun _ ↦ Op.Keeps.pure _
  · intro _
    refine Op.Keeps.bind (Op.Keeps.lift _) fun st ↦ Op.Keeps.bind (Op.Keeps.lift _) fun acc ↦ ?_
    refine Op.Keeps.bind (Op.Keeps.modify fun s h ↦ ?_) fun _ ↦
      Op.Keeps.bind (Op.Keeps.modify fun s h ↦ ?_) fun _ ↦ Op.Keeps.pure _
    · exact hI.frame h ⟨rfl, rfl, rfl, rfl, rfl, rfl, rfl, rfl, rfl, rfl⟩
    · exact hI.frame h ⟨rfl, rfl, rfl, rfl, rfl, rfl, rfl, rfl, rfl, rfl⟩

theorem Calm.ticking (hI : Calm host I) : Ticking host I where
  clock := fun _ h ↦ hI.frame h ⟨rfl, rfl, rfl, rfl, rfl, rfl, rfl, rfl, rfl, rfl⟩
  promote := fun h ↦ hI.frame h ⟨rfl, rfl, rfl, rfl, rfl, rfl, rfl, rfl, rfl, rfl⟩
  updateHead := updateHead_keeps hI
  updateSafeTarget := updateSafeTarget_keeps hI
  aggregate := aggregateCommitteeSignatures_keeps hI

theorem Quiet.acceptNewAttestations (hI : Quiet host I) :
    Op.Keeps I (Chain.acceptNewAttestations host : Op (Store H) ε Unit) :=
  Op.Keeps.bind (Op.Keeps.modify fun _ h ↦ hI.promote h) fun _ ↦ hI.updateHead

variable {isAggregator : Bool}

theorem Quiet.processInterval (hI : Quiet host I)
    (haggregate : isAggregator = true → Op.Keeps I (aggregateCommitteeSignatures host :
      Op (Store H) ε (List (SignedAggregatedAttestation H)))) (interval : ℕ) (signal : Bool) :
    Op.Keeps I (Chain.processInterval host interval signal isAggregator :
      Op (Store H) ε (List (SignedAggregatedAttestation H))) := by
  unfold Chain.processInterval
  split
  · apply Op.Keeps.ite
    · exact fun _ ↦ Op.Keeps.bind hI.acceptNewAttestations fun _ ↦ Op.Keeps.pure _
    · exact fun _ ↦ Op.Keeps.pure _
  · exact Op.Keeps.pure _
  · apply Op.Keeps.ite
    · exact haggregate
    · exact fun _ ↦ Op.Keeps.pure _
  · exact Op.Keeps.bind hI.updateSafeTarget fun _ ↦ Op.Keeps.pure _
  · exact Op.Keeps.bind hI.acceptNewAttestations fun _ ↦ Op.Keeps.pure _
  · exact Op.Keeps.lift _

theorem Quiet.tickIntervals (hI : Quiet host I)
    (haggregate : isAggregator = true → Op.Keeps I (aggregateCommitteeSignatures host :
      Op (Store H) ε (List (SignedAggregatedAttestation H)))) (time turns : ℕ) (hasProposal : Bool) :
    Op.Keeps I (Chain.tickIntervals host time hasProposal isAggregator turns :
      Op (Store H) ε (List (SignedAggregatedAttestation H))) := by
  induction turns with
  | zero => exact Op.Keeps.pure _
  | succ turns ih =>
    refine Op.Keeps.bind Op.Keeps.get fun s ↦ ?_
    apply Op.Keeps.ite
    · intro _
      apply Op.Keeps.bind
      · exact Op.Keeps.modify fun s h ↦ hI.clock _ h
      intro _
      refine Op.Keeps.bind Op.Keeps.get fun s ↦ ?_
      exact Op.Keeps.bind (hI.processInterval haggregate _ _) fun _ ↦
        Op.Keeps.bind ih fun _ ↦ Op.Keeps.pure _
    · exact fun _ ↦ Op.Keeps.pure _

theorem Quiet.onTick (hI : Quiet host I)
    (haggregate : isAggregator = true → Op.Keeps I (aggregateCommitteeSignatures host :
      Op (Store H) ε (List (SignedAggregatedAttestation H)))) (timestampMs : UInt64)
    (hasProposal : Bool) : Op.Keeps I (Chain.onTick host timestampMs hasProposal isAggregator :
      Op (Store H) ε (List (SignedAggregatedAttestation H))) := by
  refine Op.Keeps.bind Op.Keeps.get fun s ↦ Op.Keeps.bind (Op.Keeps.lift _) fun g ↦ ?_
  apply Op.Keeps.bind
  · apply Op.Keeps.ite
    · exact fun _ ↦ Op.Keeps.modify fun s h ↦ hI.clock _ h
    · exact fun _ ↦ Op.Keeps.pure _
  · exact fun _ ↦ Op.Keeps.bind Op.Keeps.get fun s ↦ hI.tickIntervals haggregate _ _ _

theorem onTick_keeps (hI : Ticking host I) (timestampMs : UInt64) (hasProposal isAggregator : Bool) :
    Op.Keeps I (onTick host timestampMs hasProposal isAggregator :
      Op (Store H) ε (List (SignedAggregatedAttestation H))) :=
  hI.quiet.onTick (fun _ ↦ hI.aggregate) _ _

theorem onGossipAttestation_keeps (hI : Calm host I) (signed : SignedAttestation H) (ids : List UInt64) :
    Op.Keeps I (onGossipAttestation host signed ids) := by
  refine Op.Keeps.bind Op.Keeps.get fun s ↦ Op.Keeps.bind (Op.Keeps.lift _) fun sig ↦ ?_
  apply Op.Keeps.bind
  · exact Op.Keeps.modify fun s h ↦ hI.frame h ⟨rfl, rfl, rfl, rfl, rfl, rfl, rfl, rfl, rfl, rfl⟩
  · intro _
    apply Op.Keeps.ite
    · exact fun _ ↦ Op.Keeps.modify fun s h ↦
        hI.frame h ⟨rfl, rfl, rfl, rfl, rfl, rfl, rfl, rfl, rfl, rfl⟩
    · exact fun _ ↦ Op.Keeps.pure _

theorem onGossipAggregatedAttestation_keeps (hI : Calm host I)
    (aggregated : SignedAggregatedAttestation H) :
    Op.Keeps I (onGossipAggregatedAttestation host aggregated) := by
  refine Op.Keeps.bind Op.Keeps.get fun s ↦ Op.Keeps.bind (Op.Keeps.lift _) fun _ ↦ ?_
  apply Op.Keeps.bind
  · exact Op.Keeps.modify fun s h ↦ hI.frame h ⟨rfl, rfl, rfl, rfl, rfl, rfl, rfl, rfl, rfl, rfl⟩
  · exact fun _ ↦ Op.Keeps.modify fun s h ↦
      hI.frame h ⟨rfl, rfl, rfl, rfl, rfl, rfl, rfl, rfl, rfl, rfl⟩

/-- A proposer does not aggregate on its way to the head. -/
theorem Quiet.getProposalHead (hI : Quiet host I) (slot : UInt64) :
    Op.Keeps I (Chain.getProposalHead host slot : Op (Store H) ε H) := by
  refine Op.Keeps.bind Op.Keeps.get fun s ↦ Op.Keeps.bind (Op.Keeps.lift _) fun _ ↦ ?_
  refine Op.Keeps.bind (Op.Keeps.lift _) fun _ ↦ Op.Keeps.bind (Op.Keeps.lift _) fun _ ↦ ?_
  apply Op.Keeps.bind
  · exact hI.onTick (fun h ↦ absurd h Bool.false_ne_true) _ _
  · exact fun _ ↦ Op.Keeps.bind hI.acceptNewAttestations fun _ ↦
      Op.Keeps.bind Op.Keeps.get fun _ ↦ Op.Keeps.pure _

theorem getProposalHead_keeps (hI : Ticking host I) (slot : UInt64) :
    Op.Keeps I (getProposalHead host slot : Op (Store H) ε H) :=
  hI.quiet.getProposalHead slot

theorem Quiet.produceBlockWithSignatures (hI : Quiet host I) (slot validatorIndex : UInt64) :
    Op.Keeps I (Chain.produceBlockWithSignatures host slot validatorIndex) :=
  Op.Keeps.bind (hI.getProposalHead slot) fun _ ↦
    Op.Keeps.bind Op.Keeps.get fun _ ↦ Op.Keeps.lift _

theorem produceBlockWithSignatures_keeps (hI : Ticking host I) (slot validatorIndex : UInt64) :
    Op.Keeps I (produceBlockWithSignatures host slot validatorIndex) :=
  hI.quiet.produceBlockWithSignatures slot validatorIndex

end Ticks

section Blocks

variable {sb : SignedBlockWithAttestation H} {verify : Bool} {post : State H}

theorem recordProposerVote_keeps (hframe : ∀ {s s'}, I s → Frame s s' → I s') (ids : List UInt64) :
    Op.Keeps I (recordProposerVote host sb verify ids) := by
  apply Op.Keeps.ite
  · intro _
    exact Op.Keeps.bind (Op.Keeps.lift _) fun _ ↦
      Op.Keeps.modify fun s h ↦ hframe h ⟨rfl, rfl, rfl, rfl, rfl, rfl, rfl, rfl, rfl, rfl⟩
  · intro _
    apply Op.Keeps.ite
    · intro _
      exact Op.Keeps.bind (Op.Keeps.lift _) fun _ ↦
        Op.Keeps.modify fun s h ↦ hframe h ⟨rfl, rfl, rfl, rfl, rfl, rfl, rfl, rfl, rfl, rfl⟩
    · exact fun _ ↦ Op.Keeps.pure _

/-- What the import of a block can come to: the block's state is there already, the block is
rejected, or it is recorded and the head is chosen again before the proposer's vote is kept. -/
theorem onBlockCore_eq_ok {ids : List UInt64} {r : Except (StoreError H) Unit}
    (h : onBlockCore host sb verify ids s = .ok (r, s')) :
    s.hasState (host.block sb.message.block) = true ∧ r = .ok () ∧ s' = s ∨
    s.hasState (host.block sb.message.block) = false ∧
      ((∃ e, postState host s sb verify = Exec.fail e ∧ r = .error e ∧ s' = s) ∨
      ∃ post g, postState host s sb verify = .ok post ∧
        (computeLmdGhostHead host (recordBlock host sb post s).latestJustified.root
          ((recordBlock host sb post s).getLiveChain host)
          ((recordBlock host sb post s).extractLatestKnownAttestations host) 0 :
            Exec (StoreError H) (H × Weights H)) = .ok g ∧
        recordProposerVote host sb verify ids { recordBlock host sb post s with head := g.1 } =
          .ok (r, s')) := by
  unfold onBlockCore at h
  rw [Op.get_bind] at h
  cases hstate : s.hasState (host.block sb.message.block) with
  | true =>
    rw [hstate, if_pos rfl] at h
    obtain ⟨rfl, rfl⟩ := Prod.mk.inj (Except.ok.inj h)
    exact .inl ⟨rfl, rfl, rfl⟩
  | false =>
    rw [hstate, if_neg Bool.false_ne_true] at h
    refine .inr ⟨rfl, ?_⟩
    rcases Op.bind_eq_ok.mp h with ⟨post, t, hlift, hrest⟩ | ⟨e, hlift, rfl⟩
    · obtain ⟨hpost, rfl⟩ := Op.lift_eq_ok_ok.mp hlift
      rw [Op.modify_bind] at hrest
      rcases Op.bind_eq_ok.mp hrest with ⟨_, u, hhead, hvote⟩ | ⟨e, hhead, -⟩
      · obtain ⟨g, hg, rfl⟩ := updateHead_eq_ok hhead
        exact .inr ⟨post, g, hpost, hg, hvote⟩
      · exact absurd hhead (updateHead_infallible _ _ _)
    · obtain ⟨rfl, ⟨post, -, hok⟩ | ⟨e', hfail, hok⟩⟩ := Op.lift_eq_ok.mp hlift
      · cases hok
      · obtain rfl := Except.error.inj hok
        exact .inl ⟨e, hfail, rfl, rfl⟩

/-- Importing a block, whatever comes of it. The head is chosen again after the live chain has been
cut. -/
theorem onBlockCore_keeps (hI : Steady host I) (sb : SignedBlockWithAttestation H) (verify : Bool)
    (ids : List UInt64) : Op.Keeps I (onBlockCore host sb verify ids) := by
  intro s r s' h hr
  rcases onBlockCore_eq_ok hr with ⟨-, -, rfl⟩ | ⟨-, ⟨e, -, -, rfl⟩ | ⟨post, g, hpost, hg, hvote⟩⟩
  · exact h
  · exact h
  · exact recordProposerVote_keeps hI.frame ids _ r s' (hI.record h hpost rfl hg) hvote

end Blocks

section Coherence

theorem Coherent.insertPendingBlock (hh : HashSound host) (h : Coherent host s)
    (sb : SignedBlockWithAttestation H) :
    Coherent host (s.insertPendingBlock host (host.block sb.message.block) sb) := by
  have hheaders (r : H) :
      (s.insertPendingBlock host (host.block sb.message.block) sb).blockHeaders.lookup r =
      if r = host.block sb.message.block then some (sb.message.block.header host.toTreeHash)
      else s.blockHeaders.lookup r := Table.lookup_insert_eq_ite _ _ _ _
  refine ⟨h.states, ?_, ?_, h.listed, h.ancestors, h.ordered, h.justified, h.finalized⟩
  · intro r hdr hhdr
    rw [hheaders] at hhdr
    split at hhdr
    · rename_i hr
      rw [hr, ← Option.some.inj hhdr, hh.block_eq]
    · exact h.headers r hdr hhdr
  · intro slot r p hp
    obtain ⟨st, hdr, hst, hhdr, hslot, hparent⟩ := h.live slot r p hp
    refine ⟨st, hdr, hst, ?_, hslot, hparent⟩
    rw [hheaders]
    split
    · rename_i hr
      have hsame : hdr = sb.message.block.header host.toTreeHash := by
        apply hh.collisionFree.header_injective
        rw [h.headers r hdr hhdr, ← hh.block_eq, hr]
      rw [hsame]
    · exact hhdr

theorem coherent_invariant (hh : HashSound host) : StoreInvariant host (Coherent host) where
  coherent := id
  frame := fun h hf ↦ h.frame hf
  head := fun h _ ↦ h.congr rfl rfl rfl rfl rfl
  safeTarget := fun h _ ↦ h.congr rfl rfl rfl rfl rfl
  record := by
    intro s t sb verify post slot r p h hpost ht _
    have hrec := h.recordBlock hh hpost
    rw [ht] at hrec
    exact hrec.congr rfl rfl rfl rfl rfl
  pending := fun sb h ↦ h.insertPendingBlock hh sb

end Coherence

/-- A coherent store whose head is live and whose safe target has a header. -/
structure Available (host : Host H) (s : Store H) : Prop where
  coherent : Coherent host s
  head : ∃ slot p, s.liveChain.lookup (slot, s.head) = some p
  safeTarget : ∃ h, s.blockHeaders.lookup s.safeTarget = some h

section Available

variable {sb : SignedBlockWithAttestation H} {post : State H}

theorem Available.frame (h : Available host s) (hf : Frame s s') : Available host s' := by
  refine ⟨h.coherent.frame hf, ?_, ?_⟩
  · rw [hf.liveChain, hf.head]
    exact h.head
  · rw [hf.headers, hf.safeTarget]
    exact h.safeTarget

theorem writeBlock_safeTarget : (writeBlock host sb post s).safeTarget = s.safeTarget := rfl

theorem lookup_writeBlock_headers {r : H} (hr : ∃ hdr, s.blockHeaders.lookup r = some hdr) :
    ∃ hdr, (writeBlock host sb post s).blockHeaders.lookup r = some hdr :=
  exists_lookup_insert hr

theorem recordBlock_safeTarget (host : Host H) (sb : SignedBlockWithAttestation H) (post : State H)
    (h : ∃ hdr, s.blockHeaders.lookup s.safeTarget = some hdr) :
    ∃ hdr, (recordBlock host sb post s).blockHeaders.lookup
      (recordBlock host sb post s).safeTarget = some hdr := by
  have ha := adopted host s post
  unfold recordBlock
  rw [writeBlock_safeTarget]
  apply lookup_writeBlock_headers
  rw [ha.headers, ha.safeTarget]
  exact h

theorem available_invariant (hh : HashSound host) : StoreInvariant host (Available host) where
  coherent := fun h ↦ h.coherent
  frame := fun h hf ↦ h.frame hf
  head := fun h hl ↦ ⟨h.coherent.congr rfl rfl rfl rfl rfl, ⟨_, _, hl⟩, h.safeTarget⟩
  safeTarget := by
    intro s slot r p h hl
    obtain ⟨-, hdr, -, hhdr, -⟩ := h.coherent.live slot r p hl
    exact ⟨h.coherent.congr rfl rfl rfl rfl rfl, h.head, ⟨hdr, hhdr⟩⟩
  record := by
    intro s t sb verify post slot r p h hpost ht hl
    have hrec := h.coherent.recordBlock hh hpost
    have hsafe := recordBlock_safeTarget host sb post h.safeTarget
    rw [ht] at hrec hsafe
    exact ⟨hrec.congr rfl rfl rfl rfl rfl, ⟨slot, p, hl⟩, hsafe⟩
  pending := fun sb h ↦ ⟨h.coherent.insertPendingBlock hh sb, h.head,
    exists_lookup_insert h.safeTarget⟩

end Available

section Anchor

/-- A state that some chain of accepted blocks leads to from genesis, with any state root in its
header. -/
def Anchor (host : Host H) (st : State H) : Prop :=
  ∃ (time : UInt64) (validators : List Validator) (g : State H) (blocks : List (Block H))
    (st₀ : State H) (root : H),
    State.fromGenesis host.toTreeHash time validators = (.ok g : StateTransition.Result H (State H)) ∧
    runChain host.toTreeHash g blocks = .ok st₀ ∧ st = withStateRoot st₀ root

theorem Anchor.origin {st : State H} (hh : HashSound host) (h : Anchor host st) :
    st.latestBlockHeader.slot.toNat = 0 → st.latestBlockHeader.parentRoot = 0 := by
  obtain ⟨time, validators, g, blocks, st₀, root, hg, hrun, rfl⟩ := h
  obtain ⟨vs, -, rfl⟩ := State.fromGenesis_eq_ok hg
  intro hzero
  by_cases hne : blocks = []
  · subst hne
    obtain rfl : genesisState host.toTreeHash time vs = st₀ := Except.ok.inj hrun
    rfl
  · have hpos := (wellformed_genesis host.toTreeHash time vs).started hh.collisionFree hne hrun
    exact absurd hzero (Nat.pos_iff_ne_zero.mp hpos)

theorem Anchor.sound {st : State H} (hh : HashSound host) (h : Anchor host st) :
    Wellformed host.toTreeHash st.validators.toList.length st ∧ Named st := by
  obtain ⟨time, validators, g, blocks, st₀, root, hg, hrun, rfl⟩ := h
  obtain ⟨vs, -, rfl⟩ := State.fromGenesis_eq_ok hg
  have hgen := wellformed_genesis host.toTreeHash time vs
  have hw := hgen.runChain hh.collisionFree hrun
  have hn : Named (genesisState host.toTreeHash time vs) := fun hne ↦ absurd rfl hne
  refine ⟨?_, show Named st₀ from hgen.named_runChain hh.collisionFree hn hrun⟩
  rw [show (withStateRoot st₀ root).validators.toList.length = vs.toList.length from
    hw.aligned.validators_length]
  exact hw.withStateRoot root

theorem anchor_genesis {time : UInt64} {validators : List Validator} {g : State H}
    (h : State.fromGenesis host.toTreeHash time validators =
      (.ok g : StateTransition.Result H (State H))) : Anchor host g := by
  obtain ⟨vs, -, rfl⟩ := State.fromGenesis_eq_ok h
  exact ⟨time, validators, _, [], _, 0, h, rfl, rfl⟩

theorem stored_anchor (hh : HashSound host) {st : State H} (hst : Anchor host st) :
    Stored host (Store.anchor host st).2 (Store.anchor host st).1 := by
  obtain ⟨hw, hn⟩ := hst.sound hh
  have horigin := hst.origin hh
  refine ⟨hw.withStateRoot _, hn, ?_, horigin⟩
  have hdr : (Store.anchor host st).1.latestBlockHeader.stateRoot =
      host.state (withStateRoot st 0) := rfl
  have hcached : cachedHeader host.toTreeHash (Store.anchor host st).1 =
      (Store.anchor host st).1.latestBlockHeader := by
    unfold cachedHeader
    split
    · rename_i hz
      have hsame : (Store.anchor host st).1 = withStateRoot st 0 := by
        rw [← hz]
        rfl
      rw [hsame, show host.state (withStateRoot st 0) = 0 from hdr.symm.trans hz]
      rfl
    · rfl
  rw [hcached]
  rfl

/-- A fresh store on an anchor has everything the node relies on. -/
theorem available_initStore (hh : HashSound host) {st : State H} (hst : Anchor host st)
    {body : Option (BlockBody H)} (h : Store.initStore host st body = .ok s) :
    Available host s := by
  obtain ⟨-, rfl⟩ := Store.initStore_eq_ok.mp h
  have hw := (hst.sound hh).1
  have hlen := hw.aligned.history_length
  have hself : ∃ p, (AList.singleton ((Store.anchor host st).1.latestBlockHeader.slot,
      (Store.anchor host st).2) (Store.anchor host st).1.latestBlockHeader.parentRoot :
      Table (UInt64 × H) H).lookup ((Store.anchor host st).1.latestBlockHeader.slot,
      (Store.anchor host st).2) = some p := ⟨_, Table.lookup_singleton.mpr ⟨rfl, rfl⟩⟩
  refine ⟨⟨?_, ?_, ?_, ?_, ?_, UInt64.le_refl _, hself, hself⟩,
    ⟨_, hself⟩, ⟨_, Table.lookup_singleton.mpr ⟨rfl, rfl⟩⟩⟩
  · intro r st' hr
    obtain ⟨rfl, rfl⟩ := Table.lookup_singleton.mp hr
    exact stored_anchor hh hst
  · intro r hdr hr
    obtain ⟨rfl, rfl⟩ := Table.lookup_singleton.mp hr
    rfl
  · intro slot r p hp
    obtain ⟨heq, rfl⟩ := Table.lookup_singleton.mp hp
    obtain ⟨rfl, rfl⟩ := Prod.mk.inj heq
    exact ⟨_, _, Table.lookup_singleton.mpr ⟨rfl, rfl⟩, Table.lookup_singleton.mpr ⟨rfl, rfl⟩, rfl, rfl⟩
  · intro r st' hr _
    obtain ⟨rfl, rfl⟩ := Table.lookup_singleton.mp hr
    rw [show (Store.anchor host st).1.slot = st.slot from rfl, hw.slot_eq]
    exact hself
  · intro r st' i x hr hx _ hle
    obtain ⟨rfl, rfl⟩ := Table.lookup_singleton.mp hr
    have hi : i < st.historicalBlockHashes.toList.length := (List.getElem?_eq_some_iff.mp hx).1
    have hle' : st.latestBlockHeader.slot.toNat ≤ i := hle
    omega

variable {st : State H} {body : Option (BlockBody H)}

theorem initStore_headState (h : Store.initStore host st body = .ok s) :
    s.getState s.head = some (Store.anchor host st).1 := by
  obtain ⟨-, rfl⟩ := Store.initStore_eq_ok.mp h
  exact Table.lookup_singleton.mpr ⟨rfl, rfl⟩

theorem initStore_finalized (h : Store.initStore host st body = .ok s) :
    s.latestFinalized = s.latestJustified := by
  obtain ⟨-, rfl⟩ := Store.initStore_eq_ok.mp h
  rfl

theorem initStore_head_eq (h : Store.initStore host st body = .ok s) :
    s.head = s.latestFinalized.root := by
  obtain ⟨-, rfl⟩ := Store.initStore_eq_ok.mp h
  rfl

theorem initStore_signatures (h : Store.initStore host st body = .ok s) (r : H) :
    s.blockSignatures.lookup r = none := by
  obtain ⟨-, rfl⟩ := Store.initStore_eq_ok.mp h
  rfl

end Anchor

end Ethlambda.Chain
