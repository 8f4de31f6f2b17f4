import Ethlambda.Chain.HeadPath
import Ethlambda.Chain.Retention

namespace Ethlambda.Chain

open Ethlambda.Base Ethlambda.Types Ethlambda.Storage Ethlambda.StateTransition

set_option linter.unusedSectionVars false

variable {H : Type} [LinearOrder H] [Zero H] {host : Host H} {s : Store H} {server : Server host}
  {sb : SignedBlockWithAttestation H}

/-- No state and no header is left that a prune would delete. -/
structure NothingDue (host : Host H) (s : Store H) : Prop where
  states : ∀ r ∈ s.expired host statesToKeep s.protectedRoots, s.states.lookup r = none
  blocks : s.expired host blocksToKeep s.protectedRoots = []

theorem NothingDue.pruneOldData (h : NothingDue host s) : s.pruneOldData host = s := by
  have hstates : Table.deleteBatch (s.expired host statesToKeep s.protectedRoots) s.states =
      s.states := by
    refine Table.retain_eq_self fun r st hst ↦ decide_eq_true fun hr ↦ ?_
    rw [h.states r hr] at hst
    exact nomatch hst
  have hnil {V : Type} (t : Table H V) : Table.deleteBatch [] t = t :=
    Table.retain_eq_self fun _ _ _ ↦ rfl
  have hsame : s.pruneOldStates host s.protectedRoots = s := by
    unfold Store.pruneOldStates
    rw [hstates]
  rw [Store.pruneOldData, hsame, Store.pruneOldBlocks, h.blocks]
  simp only [hnil]

theorem nothingDue_of_few (h : s.blockHeaders.keys.length ≤ statesToKeep) : NothingDue host s := by
  have hexpired {window : ℕ} (hw : statesToKeep ≤ window) :
      s.expired host window s.protectedRoots = [] := by
    rw [Store.expired, if_pos (h.trans hw)]
  refine ⟨fun r hr ↦ ?_, hexpired (by decide)⟩
  rw [hexpired le_rfl] at hr
  exact absurd hr List.not_mem_nil

/-- A block that the server is through with: its parent's state is there, and so is its own, with
no children waiting for it and with a header of the head to read. Where its own state is gone, the
block is one that is rejected. -/
structure Settled (server : Server host) (sb : SignedBlockWithAttestation H) : Prop where
  parent : ∃ st, server.store.states.lookup sb.message.block.parentRoot = some st
  own : ((∃ st, server.store.states.lookup (host.block sb.message.block) = some st) ∧
      server.pendingBlocks.lookup (host.block sb.message.block) = none ∧
      ∃ hdr, server.store.blockHeaders.lookup server.store.head = some hdr) ∨
    (server.store.states.lookup (host.block sb.message.block) = none ∧
      ∃ e, postState host server.store sb true = Exec.fail e)
  due : NothingDue host server.store

section Settled

theorem processBlock_of_known {st : State H} {hdr : BlockHeader H}
    (hst : server.store.states.lookup (host.block sb.message.block) = some st)
    (hhead : server.store.blockHeaders.lookup server.store.head = some hdr) :
    Server.processBlock host sb server = .ok (.ok (), server) := by
  have hknown : onBlock host sb (Server.validatorIds host server) server.store =
      .ok (.ok (), server.store) := by
    unfold onBlock onBlockCore
    rw [Op.get_bind, Store.hasState, hst]
    rfl
  have hslot : (server.store.headSlot : Exec (StoreError H) UInt64) = .ok hdr.slot := by
    rw [Store.headSlot, Store.getBlockHeader, hhead]
    rfl
  unfold Server.processBlock
  rw [Op.get_bind, Op.bind_of_ok (Server.onStore_of_eq hknown), Op.get_bind,
    Op.lift_bind_of_ok hslot]
  rfl

theorem processBlock_of_rejected {e : StoreError H}
    (hst : server.store.states.lookup (host.block sb.message.block) = none)
    (he : postState host server.store sb true = Exec.fail e) :
    Server.processBlock host sb server = .ok (.error e, server) := by
  have hreject : onBlock host sb (Server.validatorIds host server) server.store =
      .ok (.error e, server.store) := by
    unfold onBlock onBlockCore
    rw [Op.get_bind, Store.hasState, hst, he]
    rfl
  unfold Server.processBlock
  rw [Op.get_bind]
  exact Op.bind_eq_ok.mpr (.inr ⟨e, Server.onStore_of_eq hreject, rfl⟩)

theorem Settled.processOrPendBlock {ε : Type} (h : Settled server sb) :
    (Server.processOrPendBlock host sb :
      Op (Server host) ε (List (SignedBlockWithAttestation H))) server = .ok (.ok [], server) := by
  obtain ⟨parent, hparent⟩ := h.parent
  unfold Server.processOrPendBlock
  rw [Op.get_bind, Store.hasState, hparent, if_neg (by simp), Op.bind_apply]
  rcases h.own with ⟨⟨st, hst⟩, hwaiting, hdr, hhead⟩ | ⟨hst, e, he⟩
  · rw [Op.attempt, processBlock_of_known hst hhead]
    dsimp only
    rw [Server.collectPendingChildren, Op.get_bind, hwaiting]
    rfl
  · rw [Op.attempt, processBlock_of_rejected hst he]
    rfl

/-- A settled block changes nothing, however often it comes again. -/
theorem Settled.step (h : Settled server sb) (turns : ℕ) :
    Server.step host server ⟨turns + 1, .newBlock sb⟩ = .ok server := by
  have hdrain : (Server.drainQueue host (turns + 1) [sb] : Op (Server host) Empty Unit) server =
      .ok (.ok (), server) := by
    rw [Server.drainQueue, Op.bind_of_ok h.processOrPendBlock]
    cases turns <;> rfl
  have hhandle : (Server.handle host (turns + 1) (.newBlock sb) : Op (Server host) Empty Unit)
      server = .ok (.ok (), { server with store := server.store.pruneOldData host }) := by
    rw [Server.handle, Server.onBlock, Op.bind_of_ok hdrain]
    rfl
  rw [Server.step, hhandle, h.due.pruneOldData]

end Settled

/-- After any run, delivering settled blocks again leaves tables, pending blocks and outgoing
messages as they are. -/
theorem redelivery_unchanged {server₀ : Server host} {deliveries : List (Server.Delivery H)}
    (hrun : Server.run host server₀ deliveries = .ok server)
    {again : List (ℕ × SignedBlockWithAttestation H)} (hagain : ∀ p ∈ again, Settled server p.2) :
    Server.run host server₀ (deliveries ++ again.map fun p ↦ ⟨p.1 + 1, .newBlock p.2⟩) =
      .ok server := by
  refine Runs.run_append_eq_ok.mpr ⟨server, hrun, ?_⟩
  induction again with
  | nil => rfl
  | cons p again ih =>
    rw [List.forall_mem_cons] at hagain
    exact Runs.run_cons_eq_ok.mpr ⟨server, hagain.1.step p.1, ih hagain.2⟩

section Pruned

variable {p : H} {ph : BlockHeader H}

/-- The state of the parent is gone, and so is whatever led to it. The block is kept as pending and
the parent is recorded as pending on the zero root. -/
theorem Orphaned.step_of_pruned (hh : HashSound host) (hs : Orphaned server)
    (hp : sb.message.block.parentRoot = p)
    (hstate : server.store.states.lookup p = none) (hrecord : server.pendingBlockParents.lookup p = none)
    (hheader : server.store.blockHeaders.lookup p = some ph) (hparent : ph.parentRoot = 0)
    (hne : p ≠ host.block sb.message.block) :
    ∃ server', Server.step host server ⟨1, .newBlock sb⟩ = .ok server' ∧
      server'.pendingBlockParents.lookup p = some 0 := by
  have hmissing : (Server.missingAncestor server.pendingBlockParents
      (server.pendingBlockParents.keys.length + 1) p : Exec Empty H) = .ok p := by
    rw [Server.missingAncestor, hrecord]
  have hpend : ∃ waiting : Server host, (Server.pendBlock host sb :
      Op (Server host) Empty (List (SignedBlockWithAttestation H))) server = .ok (.ok [], waiting) ∧
      waiting.pendingBlockParents.lookup p = some 0 := by
    unfold Server.pendBlock
    rw [Op.get_bind, hp, Op.lift_bind_of_ok hmissing, Op.modify_bind, Op.modify_bind, Op.get_bind]
    set t := server.store.insertPendingBlock host (host.block sb.message.block) sb with ht
    have hzero : t.blockHeaders.lookup 0 = none := by
      rw [ht, lookup_insertPendingBlock_headers, if_neg (hh.zero_ne_block _), hs.header]
    have hstored : t.blockHeaders.lookup p = some ph := by
      rw [ht, lookup_insertPendingBlock_headers, if_neg hne, hheader]
    have hlen : 0 < t.blockHeaders.keys.length :=
      List.length_pos_of_mem (AList.mem_keys.mpr (Table.mem_iff_lookup.mpr ⟨ph, hstored⟩))
    obtain ⟨n, hn⟩ : ∃ n, t.blockHeaders.keys.length = n + 1 := ⟨_, (Nat.succ_pred_eq_of_pos hlen).symm⟩
    have hno : t.hasState 0 = false := by
      rw [Store.hasState, show t.states = server.store.states from rfl, hs.state]
      rfl
    set waiting := Server.addPending host p (host.block sb.message.block)
      { server with
        pendingBlockParents := server.pendingBlockParents.insert (host.block sb.message.block) p
        store := t } with hwaiting
    have hstore : waiting.store = t := rfl
    have hready : waiting.store.hasState ph.parentRoot = false := by rw [hstore, hparent, hno]
    rw [hstore, hn, climb_of_waiting (n + 1) (by rw [hstore, hstored]) hready, hparent]
    obtain ⟨sent, hclimb⟩ := climb_of_missing (ε := Empty)
      { Server.addPending host 0 p waiting with
        pendingBlockParents := waiting.pendingBlockParents.insert p 0 } n hzero
    exact ⟨_, hclimb, AList.lookup_insert _⟩
  obtain ⟨waiting, hpend, hlookup⟩ := hpend
  have hno : server.store.hasState p = false := by
    rw [Store.hasState, hstate]
    rfl
  have hdrain : (Server.drainQueue host 1 [sb] : Op (Server host) Empty Unit) server =
      .ok (.ok (), waiting) := by
    have hprocess : (Server.processOrPendBlock host sb :
        Op (Server host) Empty (List (SignedBlockWithAttestation H))) server =
        .ok (.ok [], waiting) := by
      rw [Server.processOrPendBlock, Op.get_bind, hp, hno]
      exact hpend
    rw [Server.drainQueue, Op.bind_of_ok hprocess]
    rfl
  refine ⟨{ waiting with store := waiting.store.pruneOldData host }, ?_, hlookup⟩
  rw [Server.step, Server.handle, Server.onBlock, Op.bind_of_ok hdrain]
  rfl

end Pruned

section Sample

/-- The first block with a signature of someone else. -/
def sampleLookalike : SignedBlockWithAttestation ℕ :=
  ⟨sampleFirst.message, ⟨.empty, sampleSignature 2 sampleFirst.message.proposerAttestation.data⟩⟩

theorem redelivery_unchanged_sample :
    ∃ server, Server.run sampleHost sampleServer [⟨1, .newBlock sampleFirst⟩] = .ok server ∧
      Server.run sampleHost sampleServer ([⟨1, .newBlock sampleFirst⟩] ++
        [(0, sampleFirst), (0, sampleLookalike)].map fun p ↦ ⟨p.1 + 1, .newBlock p.2⟩) =
        .ok server := by
  have hview : (Server.run sampleHost sampleServer [⟨1, .newBlock sampleFirst⟩]).toOption.map
      (fun server ↦ decide ((server.store.states.lookup Sample.first.parentRoot).isSome = true ∧
        (server.store.states.lookup (sampleHash.block Sample.first)).isSome = true ∧
        server.pendingBlocks.lookup (sampleHash.block Sample.first) = none ∧
        (server.store.blockHeaders.lookup server.store.head).isSome = true ∧
        server.store.blockHeaders.keys.length = 2)) = some true := by decide +kernel
  obtain ⟨server, hrun, hview⟩ := Exec.exists_ok_of_map hview
  obtain ⟨hparent, hown, hwaiting, hhead, hlen⟩ := of_decide_eq_true hview
  refine ⟨server, hrun, redelivery_unchanged hrun ?_⟩
  have hsettled (sb : SignedBlockWithAttestation ℕ) (hsb : sb.message.block = Sample.first) :
      Settled server sb := by
    refine ⟨?_, .inl ⟨?_, ?_, Option.isSome_iff_exists.mp hhead⟩,
      nothingDue_of_few (by rw [hlen]; decide)⟩
    · rw [hsb]
      exact Option.isSome_iff_exists.mp hparent
    · rw [hsb]
      exact Option.isSome_iff_exists.mp hown
    · rw [hsb]
      exact hwaiting
  intro p hp
  simp only [List.mem_cons, List.not_mem_nil, or_false] at hp
  rcases hp with rfl | rfl
  · exact hsettled sampleFirst rfl
  · exact hsettled sampleLookalike rfl

/-- Three blocks finalize the first of them, so that genesis loses its protection, and three thousand
blocks on no parent push its state out. The first block, imported and still stored, now counts as
pending when it comes again. -/
theorem redelivery_pends :
    ∃ server₁ server server', Store.initStore sampleHost sampleGenesis none = .ok sampleStore ∧
      Server.run sampleHost sampleServer [⟨1, .newBlock sampleFirst⟩, ⟨1, .newBlock sampleSecond⟩,
        ⟨1, .newBlock sampleThird⟩] = .ok server₁ ∧
      (server₁.store.states.lookup (sampleHash.block Sample.first)).isSome = true ∧
      Server.run sampleHost server₁ (((List.range 3000).map orphan).map fun sb ↦
        ⟨1, .newBlock sb⟩) = .ok server ∧
      server.store.blockHeaders.lookup (sampleHash.block Sample.first) =
        some (Sample.first.header sampleHash) ∧
      Server.step sampleHost server ⟨1, .newBlock sampleFirst⟩ = .ok server' ∧
      server.pendingBlockParents.lookup (sampleHash.block sampleOrigin) = none ∧
      server'.pendingBlockParents.lookup (sampleHash.block sampleOrigin) = some 0 := by
  have hview : (Server.run sampleHost sampleServer [⟨1, .newBlock sampleFirst⟩,
      ⟨1, .newBlock sampleSecond⟩, ⟨1, .newBlock sampleThird⟩]).toOption.map
      (fun server ↦ decide (server.pendingBlockParents.lookup 0 = none ∧
        server.store.blockHeaders.lookup 0 = none ∧ server.store.states.lookup 0 = none ∧
        (server.store.states.lookup (sampleHash.block Sample.first)).isSome = true ∧
        server.store.blockHeaders.lookup (sampleHash.block Sample.first) =
          some (Sample.first.header sampleHash) ∧
        server.store.blockHeaders.lookup (sampleHash.block sampleOrigin) =
          some (sampleOrigin.header sampleHash) ∧
        sampleHash.block sampleOrigin ∉ server.store.protectedRoots ∧
        server.pendingBlockParents.lookup (sampleHash.block sampleOrigin) = none ∧
        server.store.blockHeaders.keys.length = 4)) = some true := by decide +kernel
  obtain ⟨server₁, hfirst, hview⟩ := Exec.exists_ok_of_map hview
  obtain ⟨hzero, hzeroHeader, hzeroState, himported, hheader, horigin, hroots, hrecord, hcount⟩ :=
    of_decide_eq_true hview
  have horphaned : Orphaned server₁ := ⟨hzero, hzeroHeader, hzeroState⟩
  have hlen : ((List.range 3000).map orphan).length = 3000 := by
    rw [List.length_map, List.length_range]
  have hblocks : ∀ sb ∈ (List.range 3000).map orphan, sb.message.block.parentRoot = 0 := by
    intro sb hsb
    obtain ⟨k, -, rfl⟩ := List.mem_map.mp hsb
    rfl
  have hslots : ∀ sb ∈ (List.range 3000).map orphan,
      (sampleOrigin.header sampleHash).slot.toNat < sb.message.block.slot.toNat := by
    intro sb hsb
    obtain ⟨k, hk, rfl⟩ := List.mem_map.mp hsb
    rw [orphan_slot (Nat.lt_trans (List.mem_range.mp hk) (by decide))]
    exact Nat.succ_pos _
  have hother : ∀ sb ∈ (List.range 3000).map orphan,
      sampleHash.block sampleOrigin ≠ sampleHost.block sb.message.block := by
    intro sb hsb heq
    have hlt := hslots sb hsb
    have hsame : sampleOrigin.header sampleHash = sb.message.block.header sampleHash :=
      sampleHash_collisionFree.header_injective heq
    rw [hsame] at hlt
    exact Nat.lt_irrefl _ hlt
  have hfew : server₁.store.blockHeaders.keys.length + ((List.range 3000).map orphan).length ≤
      blocksToKeep := by
    rw [hcount, hlen]
    decide
  obtain ⟨server, hrun, hstore, hend, hlookup⟩ := horphaned.run sampleHost_hashSound hblocks
  have hlost := foldl_arrive_states sampleHost_hashSound horigin rfl hroots hslots
    (orphans_nodup (by decide))
    (by rw [hlen]) hfew
  have hkept := foldl_arrive_headers sampleHost_hashSound horigin rfl hfew
  have hkeptFirst := foldl_arrive_headers sampleHost_hashSound hheader rfl hfew
  rw [← hstore] at hlost hkept hkeptFirst
  have hnone := (hlookup _ hother).trans hrecord
  obtain ⟨server', hstep, hsome⟩ := hend.step_of_pruned sampleHost_hashSound
    (show sampleFirst.message.block.parentRoot = sampleHash.block sampleOrigin from rfl) hlost hnone
    hkept rfl (by decide)
  exact ⟨server₁, server, server', sampleStore_eq, hfirst, himported, hrun, hkeptFirst, hstep, hnone,
    hsome⟩

end Sample

end Ethlambda.Chain
