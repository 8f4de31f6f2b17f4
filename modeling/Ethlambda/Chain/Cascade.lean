import Ethlambda.Base.Forest
import Ethlambda.Chain.Grounded

namespace Ethlambda.Chain

open Ethlambda.Base Ethlambda.Types Ethlambda.Storage Ethlambda.StateTransition Ethlambda.ForkChoice

set_option linter.unusedSectionVars false

variable {H : Type} [LinearOrder H] [Zero H] {host : Host H} {s s' : Store H} {ε : Type}
  {sb : SignedBlockWithAttestation H}

/-- Some header with the second root names the first as its parent. -/
def ParentOf (host : Host H) (p c : H) : Prop :=
  ∃ hdr : BlockHeader H, host.header hdr = c ∧ hdr.parentRoot = p

/-- No block is its own ancestor. -/
def Acyclic (host : Host H) : Prop := ∀ r, ¬Relation.TransGen (ParentOf host) r r

theorem ParentOf.unique (hh : HashSound host) {p q c : H} (hp : ParentOf host p c)
    (hq : ParentOf host q c) : p = q := by
  obtain ⟨hdr, hroot, rfl⟩ := hp
  obtain ⟨hdr', hroot', rfl⟩ := hq
  rw [hh.collisionFree.header_injective (hroot.trans hroot'.symm)]

theorem parentOf_block (hh : HashSound host) (block : Block H) :
    ParentOf host block.parentRoot (host.block block) :=
  ⟨block.header host.toTreeHash, (hh.block_eq block).symm, rfl⟩

/-- The records of the blocks that wait: each waits for its own parent and is listed once, and the
ancestor recorded for it is one. -/
structure Lineage (host : Host H) (server : Server host) : Prop where
  store : Grounded host server.store
  waits : ∀ p c, Waits server p c → ParentOf host p c
  nodup : ∀ p children, server.pendingBlocks.lookup p = some children → children.Nodup
  ancestors : ∀ c a, server.pendingBlockParents.lookup c = some a →
    Relation.TransGen (ParentOf host) a c

section Lineage

variable {server server' : Server host}

theorem lineage_carries : Server.Carries (Grounded host) (Lineage host) :=
  ⟨fun h ↦ h.store, fun h hs ↦ ⟨hs, h.waits, h.nodup, h.ancestors⟩,
    fun h ↦ ⟨h.store, h.waits, h.nodup, h.ancestors⟩, fun h ↦ ⟨h.store, h.waits, h.nodup, h.ancestors⟩⟩

theorem Lineage.addPending (h : Lineage host server) {p c : H} (hpc : ParentOf host p c) :
    Lineage host (Server.addPending host p c server) := by
  refine ⟨h.store, fun q d hd ↦ ?_, fun q children hq ↦ ?_, h.ancestors⟩
  · rcases waits_addPending.mp hd with hd | ⟨rfl, rfl⟩
    · exact h.waits q d hd
    · exact hpc
  · have hold : ((server.pendingBlocks.lookup p).getD []).Nodup := by
      cases hlookup : server.pendingBlocks.lookup p with
      | none => exact List.nodup_nil
      | some waiting => exact h.nodup p waiting hlookup
    unfold Server.addPending at hq
    dsimp only at hq
    rw [Table.lookup_insert_eq_ite] at hq
    split at hq
    · rw [← Option.some.inj hq]
      split
      · exact hold
      · rename_i hnew
        rw [List.nodup_append_comm]
        exact List.nodup_cons.mpr ⟨hnew, hold⟩
    · exact h.nodup q children hq

theorem Lineage.insertAncestor (h : Lineage host server) {c a : H}
    (hca : Relation.TransGen (ParentOf host) a c) :
    Lineage host { server with pendingBlockParents := server.pendingBlockParents.insert c a } := by
  refine ⟨h.store, h.waits, h.nodup, fun d b hd ↦ ?_⟩
  dsimp only at hd
  rw [Table.lookup_insert_eq_ite] at hd
  split at hd
  · rename_i heq
    rw [heq, ← Option.some.inj hd]
    exact hca
  · exact h.ancestors d b hd

theorem Lineage.collected (h : Lineage host server) {root : H}
    {more : List (SignedBlockWithAttestation H)} (hmore : Collected server root more server') :
    Lineage host server' := by
  refine ⟨?_, fun p c hp ↦ h.waits p c ((hmore.waits p c).mp hp).2, fun p children hp ↦ ?_,
    fun c a hc ↦ ?_⟩
  · rw [hmore.store]
    exact h.store
  · rw [hmore.lookup] at hp
    split at hp
    · exact nomatch hp
    · exact h.nodup p children hp
  · by_cases hw : Waits server root c
    · exact nomatch (hmore.released c hw).symm.trans hc
    · exact h.ancestors c a ((hmore.kept c hw).symm.trans hc)

/-- The walk along the recorded ancestors ends, at an ancestor. -/
theorem Lineage.missingAncestor (hacyclic : Acyclic host) (h : Lineage host server) (r : H) :
    ∃ m, (Server.missingAncestor server.pendingBlockParents
        (server.pendingBlockParents.keys.length + 1) r : Exec ε H) = .ok m ∧
      Relation.ReflTransGen (ParentOf host) m r := by
  obtain ⟨height, hheight⟩ := exists_height hacyclic server.pendingBlockParents.keys
  have hfall (x y : H) (hxy : server.pendingBlockParents.lookup x = some y) : height y < height x :=
    hheight x (AList.mem_keys.mpr (Table.mem_iff_lookup.mpr ⟨y, hxy⟩)) y (h.ancestors x y hxy)
  obtain ⟨m, hm, -, hpath⟩ := exists_missingAncestor (ε := ε) (r := r) hfall
    (Nat.lt_succ_of_le rank_le_length)
  refine ⟨m, hm, ?_⟩
  clear hm
  induction hpath with
  | refl => exact .refl
  | tail _ hstep ih => exact (h.ancestors _ _ hstep).to_reflTransGen.trans ih

/-- Climbing through the stored headers keeps the records in order and comes back with one block at
most. -/
theorem Lineage.climb (h : Lineage host server) {steps : ℕ} {root : H}
    {more : List (SignedBlockWithAttestation H)}
    (hclimb : (Server.climb host steps root :
      Op (Server host) ε (List (SignedBlockWithAttestation H))) server = .ok (.ok more, server')) :
    Lineage host server' ∧ more.length ≤ 1 := by
  induction steps generalizing root server with
  | zero => exact nomatch hclimb
  | succ steps ih =>
    cases hhdr : server.store.blockHeaders.lookup root with
    | none =>
      obtain ⟨sent, hmissing⟩ := climb_of_missing (ε := ε) server steps hhdr
      obtain ⟨hmore, rfl⟩ := Prod.mk.inj (Except.ok.inj (hclimb.symm.trans hmissing))
      obtain rfl := Except.ok.inj hmore
      exact ⟨lineage_carries.send h, Nat.zero_le 1⟩
    | some hdr =>
      have hparent : ParentOf host hdr.parentRoot root := ⟨hdr, h.store.headers root hdr hhdr, rfl⟩
      cases hst : server.store.hasState hdr.parentRoot with
      | false =>
        rw [climb_of_waiting steps hhdr hst] at hclimb
        exact ih ((h.addPending hparent).insertAncestor (.single hparent)) hclimb
      | true =>
        rw [Server.climb, Op.get_bind, Store.getBlockHeader, hhdr] at hclimb
        dsimp only at hclimb
        rw [if_pos hst] at hclimb
        obtain ⟨x, t, hlift, hrest⟩ := Op.bind_eq_ok_ok.mp hclimb
        obtain ⟨-, rfl⟩ := Op.lift_eq_ok_ok.mp hlift
        obtain ⟨hmore, rfl⟩ := Prod.mk.inj (Except.ok.inj hrest)
        obtain rfl := Except.ok.inj hmore
        exact ⟨h, le_rfl⟩

theorem climb_ends {height : H → ℕ} (hgrounded : Grounded host server.store)
    (hheight : ∀ r ∈ server.store.blockHeaders.keys, ∀ p,
      Relation.TransGen (ParentOf host) p r → height p < height r) {steps : ℕ} {root : H}
    (hsteps : rank height server.store.blockHeaders.keys root < steps) :
    Op.Ends (Server.climb host steps root :
      Op (Server host) ε (List (SignedBlockWithAttestation H))) server := by
  induction steps generalizing root server with
  | zero => exact absurd hsteps (Nat.not_lt_zero _)
  | succ steps ih =>
    cases hhdr : server.store.blockHeaders.lookup root with
    | none =>
      obtain ⟨sent, hmissing⟩ := climb_of_missing (ε := ε) server steps hhdr
      exact Op.ends_of_eq hmissing
    | some hdr =>
      have hmem : root ∈ server.store.blockHeaders.keys :=
        AList.mem_keys.mpr (Table.mem_iff_lookup.mpr ⟨hdr, hhdr⟩)
      have hparent : ParentOf host hdr.parentRoot root :=
        ⟨hdr, hgrounded.headers root hdr hhdr, rfl⟩
      cases hst : server.store.hasState hdr.parentRoot with
      | false =>
        unfold Op.Ends
        rw [climb_of_waiting steps hhdr hst]
        have hlower := rank_lt hmem (hheight root hmem hdr.parentRoot (.single hparent))
        apply ih
        · exact hgrounded
        · exact hheight
        · exact Nat.lt_of_lt_of_le hlower (Nat.lt_succ_iff.mp hsteps)
      | true =>
        unfold Op.Ends
        rw [Server.climb, Op.get_bind, Store.getBlockHeader, hhdr]
        dsimp only
        rw [if_pos hst]
        exact Op.ends_bind (Op.ends_lift server Exec.expect_ne_diverge) fun _ _ _ ↦ Op.ends_of_eq rfl

/-- The server that has put a block aside and starts to climb. -/
def setAside (host : Host H) (server : Server host) (sb : SignedBlockWithAttestation H)
    (missing : H) : Server host :=
  Server.addPending host sb.message.block.parentRoot (host.block sb.message.block)
    { server with
      pendingBlockParents := server.pendingBlockParents.insert (host.block sb.message.block) missing
      store := server.store.insertPendingBlock host (host.block sb.message.block) sb }

theorem Lineage.setAside (hh : HashSound host) (h : Lineage host server)
    (sb : SignedBlockWithAttestation H) {missing : H}
    (hmissing : Relation.ReflTransGen (ParentOf host) missing sb.message.block.parentRoot) :
    Lineage host (setAside host server sb missing) := by
  have hparent := parentOf_block hh sb.message.block
  have hrecord := h.insertAncestor (Relation.TransGen.tail' hmissing hparent)
  refine Lineage.addPending ?_ hparent
  exact lineage_carries.put hrecord (h.store.writeSignedBlock hh sb)

theorem Lineage.pendBlock_eq (hacyclic : Acyclic host) (h : Lineage host server)
    (sb : SignedBlockWithAttestation H) :
    ∃ missing, Relation.ReflTransGen (ParentOf host) missing sb.message.block.parentRoot ∧
      (Server.pendBlock host sb : Op (Server host) ε (List (SignedBlockWithAttestation H))) server =
        Server.climb host ((Chain.setAside host server sb missing).store.blockHeaders.keys.length + 1)
          missing (Chain.setAside host server sb missing) := by
  obtain ⟨missing, hmissing, hreach⟩ := h.missingAncestor (ε := ε) hacyclic sb.message.block.parentRoot
  refine ⟨missing, hreach, ?_⟩
  unfold Server.pendBlock
  rw [Op.get_bind, Op.lift_bind_of_ok hmissing, Op.modify_bind, Op.modify_bind, Op.get_bind]
  rfl

theorem Lineage.pendBlock_ends (hh : HashSound host) (hacyclic : Acyclic host)
    (h : Lineage host server) (sb : SignedBlockWithAttestation H) :
    Op.Ends (Server.pendBlock host sb :
      Op (Server host) ε (List (SignedBlockWithAttestation H))) server := by
  obtain ⟨missing, hreach, heq⟩ := h.pendBlock_eq (ε := ε) hacyclic sb
  have haside := h.setAside hh sb hreach
  obtain ⟨height, hheight⟩ := exists_height hacyclic
    (Chain.setAside host server sb missing).store.blockHeaders.keys
  unfold Op.Ends
  rw [heq]
  exact climb_ends haside.store hheight (Nat.lt_succ_of_le rank_le_length)

theorem Lineage.processBlock_ends (hh : HashSound host) (h : Lineage host server)
    (sb : SignedBlockWithAttestation H) : Op.Ends (Server.processBlock host sb) server := by
  unfold Server.processBlock Op.Ends
  rw [Op.get_bind]
  refine Op.ends_bind ?_ fun _ t _ ↦ ?_
  · exact Op.ends_within (h.store.onBlock_ends hh _)
  · unfold Op.Ends
    rw [Op.get_bind]
    refine Op.ends_bind (Op.ends_lift t ?_) fun _ _ _ ↦ Op.ends_of_eq rfl
    exact Exec.bind_ne_panic Exec.expect_ne_diverge fun _ _ ↦ nofun

/-- One turn of the work queue comes to an end. -/
theorem Lineage.processOrPendBlock_ends (hh : HashSound host) (hacyclic : Acyclic host)
    (h : Lineage host server) (sb : SignedBlockWithAttestation H) :
    Op.Ends (Server.processOrPendBlock host sb :
      Op (Server host) ε (List (SignedBlockWithAttestation H))) server := by
  unfold Server.processOrPendBlock Op.Ends
  rw [Op.get_bind]
  split
  · exact h.pendBlock_ends hh hacyclic sb
  · refine Op.ends_bind (Op.ends_attempt (h.processBlock_ends hh sb)) fun r t _ ↦ ?_
    cases r with
    | error e => exact Op.ends_of_eq rfl
    | ok u =>
      obtain ⟨more, t', hok, -⟩ := exists_collected (ε := ε) t (host.block sb.message.block)
      exact Op.ends_of_eq hok

end Lineage

section Queue

variable {server server' : Server host} {queue more : List (SignedBlockWithAttestation H)}

def rootOf (host : Host H) (x : SignedBlockWithAttestation H) : H := host.block x.message.block

/-- The roots of all blocks that wait. -/
def waitingRoots (server : Server host) : List H :=
  (Table.pairs server.pendingBlocks).flatMap Prod.snd

theorem Lineage.nodup_waitingRoots (hh : HashSound host) (h : Lineage host server) :
    (waitingRoots server).Nodup := by
  refine List.nodup_flatMap.mpr ⟨fun e he ↦ h.nodup e.1 e.2 (Table.mem_pairs.mp he), ?_⟩
  have hkeys : ((Table.pairs server.pendingBlocks).map Prod.fst).Nodup := by
    rw [Table.map_fst_pairs]
    exact server.pendingBlocks.keys_nodup
  refine List.Pairwise.imp_of_mem ?_ (List.pairwise_map.mp hkeys)
  intro e e' he he' hne c hc hc'
  have hp := h.waits e.1 c ⟨e.2, Table.mem_pairs.mp he, hc⟩
  have hq := h.waits e'.1 c ⟨e'.2, Table.mem_pairs.mp he', hc'⟩
  exact hne (hp.unique hh hq)

theorem Collected.waitingRoots_perm {root : H} (h : Collected server root more server') :
    (waitingRoots server).Perm
      ((server.pendingBlocks.lookup root).getD [] ++ waitingRoots server') := by
  cases hroot : server.pendingBlocks.lookup root with
  | none =>
    refine (Table.pairs_perm fun p ↦ ?_).flatMap_right Prod.snd
    rw [h.lookup]
    split
    · rename_i hp
      rw [hp, hroot]
    · rfl
  | some children =>
    have hperm := (Table.pairs_erase_perm hroot).flatMap_right Prod.snd
    unfold waitingRoots
    rw [h.erased]
    exact hperm

theorem nodup_of_subperm {α : Type} {l l' : List α} (h : l.Subperm l') (hl' : l'.Nodup) :
    l.Nodup := by
  obtain ⟨k, hperm, hsub⟩ := h
  exact hperm.nodup_iff.mp (hl'.sublist hsub)

theorem map_filterMap_sublist {α β : Type} {load : α → Option β} {key : β → α}
    (h : ∀ a b, load a = some b → key b = a) (l : List α) :
    ((l.filterMap load).map key).Sublist l := by
  induction l with
  | nil => exact List.nil_sublist []
  | cons a l ih =>
    cases ha : load a with
    | none =>
      rw [List.filterMap_cons_none ha]
      exact ih.cons a
    | some b =>
      rw [List.filterMap_cons_some ha, List.map_cons, h a b ha]
      exact ih.cons_cons a

/-- The blocks that come back from the records were all in them, and are in them no longer. -/
theorem Collected.roots_subperm (hgrounded : Grounded host server.store) {root : H}
    (h : Collected server root more server') :
    (more.map (rootOf host) ++ waitingRoots server').Subperm (waitingRoots server) := by
  obtain ⟨roots, hperm, rfl⟩ := h.loaded
  have hsub := map_filterMap_sublist hgrounded.loads roots
  have hroots := (hsub.append_right (waitingRoots server')).subperm
  exact (hroots.trans (hperm.append_right _).subperm).trans h.waitingRoots_perm.symm.subperm

theorem Collected.parentRoot_eq (hh : HashSound host) (h : Lineage host server) {root : H}
    (hmore : Collected server root more server') {x : SignedBlockWithAttestation H} (hx : x ∈ more) :
    x.message.block.parentRoot = root := by
  obtain ⟨c, hwaits, hload⟩ := (hmore.mem x).mp hx
  have hparent := parentOf_block hh x.message.block
  rw [h.store.loads c x hload] at hparent
  exact hparent.unique hh (h.waits root c hwaits)

theorem Grounded.handled (hh : HashSound host) (h : Grounded host s)
    {r : Except (StoreError H) Unit} (hhandled : Handled host s sb r s') : Grounded host s' := by
  cases hhandled with
  | known hst => exact h
  | rejected hst he => exact h
  | @imported post head _ hst hpost hframe =>
    have hrec := h.recordBlock hh hpost
    generalize Chain.recordBlock host sb post s = t at hrec hframe
    have hhead : Grounded host { t with head := head } :=
      ⟨hrec.states, hrec.headers, hrec.live, hrec.loads, hrec.signed⟩
    exact hhead.frame hframe

/-- No state is lost while blocks are imported. -/
theorem Handled.states_of (hhandled : Handled host s sb (.ok ()) s') {r : H}
    (h : (∃ st, s.states.lookup r = some st) ∨ r = host.block sb.message.block) :
    ∃ st, s'.states.lookup r = some st := by
  cases hhandled with
  | known hst =>
    rcases h with h | rfl
    · exact h
    · exact ⟨_, hst⟩
  | @imported post _ _ _ hpost hframe =>
    have hlookup := lookup_states_of_import hframe r
    by_cases hr : r = host.block sb.message.block
    · exact ⟨post, hlookup.trans (if_pos hr)⟩
    · obtain ⟨st, hst⟩ := h.resolve_right hr
      exact ⟨st, hlookup.trans ((if_neg hr).trans hst)⟩

/-- The queue after its first turn: every block in it can be processed. -/
structure Cascading (host : Host H) (server : Server host)
    (queue : List (SignedBlockWithAttestation H)) : Prop where
  lineage : Lineage host server
  ready : ∀ x ∈ queue, ∃ st, server.store.states.lookup x.message.block.parentRoot = some st

/-- What a turn does that processes its block. -/
structure Cascades (server : Server host) (sb : SignedBlockWithAttestation H)
    (more : List (SignedBlockWithAttestation H)) (server' : Server host) : Prop where
  lineage : Lineage host server'
  states : ∀ r, (∃ st, server.store.states.lookup r = some st) →
    ∃ st, server'.store.states.lookup r = some st
  ready : ∀ x ∈ more, ∃ st, server'.store.states.lookup x.message.block.parentRoot = some st
  children : ∀ x ∈ more, ParentOf host (rootOf host sb) (rootOf host x)
  roots : (more.map (rootOf host) ++ waitingRoots server').Subperm (waitingRoots server)

theorem Lineage.cascades (hh : HashSound host) (h : Lineage host server)
    (hparent : ∃ st, server.store.states.lookup sb.message.block.parentRoot = some st)
    (hturn : Turn server sb more server') : Cascades server sb more server' := by
  cases hturn with
  | pended hnone hstore hwaits hclimb =>
    obtain ⟨st, hst⟩ := hparent
    exact nomatch hnone.symm.trans hst
  | rejected hst he =>
    exact ⟨h, fun r hr ↦ hr, nofun, nofun, List.Subperm.refl _⟩
  | @passed s' server' more _ hhandled hmore =>
    have hput : Lineage host { server with store := s' } :=
      lineage_carries.put h (h.store.handled hh hhandled)
    have hlink (x : SignedBlockWithAttestation H) (hx : x ∈ more) :
        x.message.block.parentRoot = rootOf host sb := hmore.parentRoot_eq hh hput hx
    constructor
    case lineage => exact hput.collected hmore
    case states =>
      intro r hr
      rw [hmore.store]
      exact hhandled.states_of (.inl hr)
    case ready =>
      intro x hx
      rw [hmore.store, hlink x hx]
      exact hhandled.states_of (.inr rfl)
    case children =>
      intro x hx
      rw [← hlink x hx]
      exact parentOf_block hh x.message.block
    case roots =>
      have hroots := hmore.roots_subperm hput.store
      exact hroots

theorem Cascades.cascading (h : Cascades server sb more server')
    (hqueue : Cascading host server queue) : Cascading host server' (queue ++ more) := by
  refine ⟨h.lineage, fun x hx ↦ ?_⟩
  rcases List.mem_append.mp hx with hx | hx
  · exact h.states _ (hqueue.ready x hx)
  · exact h.ready x hx

theorem Lineage.pended (hh : HashSound host) (hacyclic : Acyclic host) (h : Lineage host server)
    (hpend : (Server.pendBlock host sb :
      Op (Server host) ε (List (SignedBlockWithAttestation H))) server = .ok (.ok more, server')) :
    Cascading host server' more ∧ more.length ≤ 1 := by
  obtain ⟨missing, hreach, heq⟩ := h.pendBlock_eq (ε := ε) hacyclic sb
  rw [heq] at hpend
  obtain ⟨hlineage, hlength⟩ := (h.setAside hh sb hreach).climb hpend
  have hclimbed := climbed hpend
  refine ⟨⟨hlineage, fun x hx ↦ ?_⟩, hlength⟩
  obtain ⟨r, hdr, st, hhdr, hload, hst⟩ := hclimbed.ready x hx
  rw [hclimbed.store, parentRoot_of_getSignedBlock hhdr hload]
  exact ⟨st, hst⟩

/-- The first turn may put its block aside. What it adds to the queue can be processed all the
same. -/
theorem Lineage.firstTurn (hh : HashSound host) (hacyclic : Acyclic host) (h : Lineage host server)
    (hturn : (Server.processOrPendBlock host sb :
      Op (Server host) ε (List (SignedBlockWithAttestation H))) server = .ok (.ok more, server')) :
    Cascading host server' more ∧ (Cascades server sb more server' ∨ more.length ≤ 1) := by
  cases hparent : server.store.states.lookup sb.message.block.parentRoot with
  | none =>
    unfold Server.processOrPendBlock at hturn
    rw [Op.get_bind, Store.hasState, hparent, Option.isSome_none, Bool.not_false, if_pos rfl] at hturn
    obtain ⟨hcascading, hlength⟩ := h.pended hh hacyclic hturn
    exact ⟨hcascading, .inr hlength⟩
  | some st =>
    have hcascades := h.cascades hh ⟨st, hparent⟩ (turn_of_processOrPendBlock hturn)
    exact ⟨⟨hcascades.lineage, hcascades.ready⟩, .inl hcascades⟩

theorem Cascading.head (hh : HashSound host) (h : Cascading host server (sb :: queue))
    (hturn : (Server.processOrPendBlock host sb :
      Op (Server host) ε (List (SignedBlockWithAttestation H))) server = .ok (.ok more, server')) :
    Cascades server sb more server' ∧ Cascading host server' (queue ++ more) := by
  have hcascades := h.lineage.cascades hh (h.ready sb List.mem_cons_self)
    (turn_of_processOrPendBlock hturn)
  have htail : Cascading host server queue :=
    ⟨h.lineage, fun x hx ↦ h.ready x (List.mem_cons_of_mem sb hx)⟩
  exact ⟨hcascades, hcascades.cascading htail⟩

theorem drainQueue_nil (server : Server host) (turns : ℕ) :
    (Server.drainQueue host turns [] : Op (Server host) ε Unit) server = .ok (.ok (), server) := by
  cases turns with
  | zero => rfl
  | succ turns => rfl

/-- Every turn takes one block from the queue, and what it adds it takes from the records: after as
many turns as there are blocks in both, nothing is left. -/
theorem Cascading.settles (hh : HashSound host) (hacyclic : Acyclic host)
    (h : Cascading host server queue) {n : ℕ}
    (hn : queue.length + (waitingRoots server).length ≤ n) :
    Op.Settles (fun turns ↦ (Server.drainQueue host turns queue : Op (Server host) ε Unit)) server := by
  induction n generalizing server queue with
  | zero =>
    obtain rfl : queue = [] := List.length_eq_zero_iff.mp (by omega)
    exact Op.settles_of_ok (drainQueue_nil server)
  | succ n ih =>
    cases queue with
    | nil =>
      exact Op.settles_of_ok (drainQueue_nil server)
    | cons block queue =>
      refine Op.settles_succ (fun _ ↦ rfl) (h.lineage.processOrPendBlock_ends hh hacyclic block) ?_
      intro more server' hturn
      obtain ⟨hcascades, hnext⟩ := h.head hh hturn
      have hroots := hcascades.roots.length_le
      rw [List.length_append, List.length_map] at hroots
      rw [List.length_cons] at hn
      refine ih hnext ?_
      rw [List.length_append]
      omega

theorem Lineage.settles (hh : HashSound host) (hacyclic : Acyclic host) (h : Lineage host server)
    (sb : SignedBlockWithAttestation H) :
    Op.Settles (fun turns ↦ (Server.drainQueue host turns [sb] : Op (Server host) ε Unit)) server := by
  refine Op.settles_succ (fun _ ↦ rfl) (h.processOrPendBlock_ends hh hacyclic sb) ?_
  intro more server' hturn
  exact (h.firstTurn hh hacyclic hturn).1.settles hh hacyclic le_rfl

theorem Cascading.drained (hh : HashSound host) (h : Cascading host server queue) {turns : ℕ}
    {r : Except Empty Unit}
    (hdrain : (Server.drainQueue host turns queue : Op (Server host) Empty Unit) server =
      .ok (r, server')) : Lineage host server' := by
  induction turns generalizing server queue with
  | zero =>
    cases queue with
    | nil =>
      obtain ⟨-, rfl⟩ := Prod.mk.inj (Except.ok.inj hdrain)
      exact h.lineage
    | cons block queue => exact nomatch hdrain
  | succ turns ih =>
    cases queue with
    | nil =>
      obtain ⟨-, rfl⟩ := Prod.mk.inj (Except.ok.inj hdrain)
      exact h.lineage
    | cons block queue =>
      rcases Op.bind_eq_ok.mp hdrain with ⟨more, t, hturn, hrest⟩ | ⟨e, -, -⟩
      · exact ih (h.head hh hturn).2 hrest
      · exact e.elim

theorem Lineage.drained (hh : HashSound host) (hacyclic : Acyclic host) (h : Lineage host server)
    {turns : ℕ} {r : Except Empty Unit}
    (hdrain : (Server.drainQueue host turns [sb] : Op (Server host) Empty Unit) server =
      .ok (r, server')) : Lineage host server' := by
  cases turns with
  | zero => exact nomatch hdrain
  | succ turns =>
    rcases Op.bind_eq_ok.mp hdrain with ⟨more, t, hturn, hrest⟩ | ⟨e, -, -⟩
    · exact (h.firstTurn hh hacyclic hturn).1.drained hh hrest
    · exact e.elim

/-- A turn of the work queue: the block it takes and the blocks it adds. -/
structure QueueTurn (host : Host H) where
  server : Server host
  block : SignedBlockWithAttestation H
  more : List (SignedBlockWithAttestation H)

def QueueTurn.pends (t : QueueTurn host) : Bool :=
  !t.server.store.hasState t.block.message.block.parentRoot

/-- The turns that a call takes. -/
def queueTurns : ℕ → List (SignedBlockWithAttestation H) → Server host → List (QueueTurn host)
  | _, [], _ => []
  | 0, _ :: _, _ => []
  | turns + 1, block :: queue, server =>
    match (Server.processOrPendBlock host block :
      Op (Server host) Empty (List (SignedBlockWithAttestation H))) server with
    | .ok (.ok more, server') => ⟨server, block, more⟩ :: queueTurns turns (queue ++ more) server'
    | _ => [⟨server, block, []⟩]

/-- The roots that these turns add to the queue. -/
def enqueued (ts : List (QueueTurn host)) : List H := ts.flatMap fun t ↦ t.more.map (rootOf host)

/-- The turns of a queue of blocks that can be processed: none of them puts its block aside, and
they only add blocks that were waiting, each a descendant of one that was in the queue. -/
structure Orderly (server : Server host) (queue : List (SignedBlockWithAttestation H))
    (ts : List (QueueTurn host)) : Prop where
  processed : ∀ t ∈ ts, t.pends = false
  roots : (enqueued ts).Subperm (waitingRoots server)
  descend : ∀ r ∈ enqueued ts, ∃ x ∈ queue, Relation.TransGen (ParentOf host) (rootOf host x) r

theorem Orderly.nil (server : Server host) (queue : List (SignedBlockWithAttestation H)) :
    Orderly server queue [] := ⟨nofun, List.nil_subperm, nofun⟩

theorem Orderly.cons {ts : List (QueueTurn host)} (hparent : QueueTurn.pends ⟨server, sb, more⟩ = false)
    (h : Cascades server sb more server') (hrest : Orderly server' (queue ++ more) ts) :
    Orderly server (sb :: queue) (⟨server, sb, more⟩ :: ts) := by
  constructor
  case processed => exact List.forall_mem_cons.mpr ⟨hparent, hrest.processed⟩
  case roots => exact ((List.subperm_append_left _).mpr hrest.roots).trans h.roots
  case descend =>
    intro r hr
    rcases List.mem_append.mp hr with hr | hr
    · obtain ⟨x, hx, rfl⟩ := List.mem_map.mp hr
      exact ⟨sb, List.mem_cons_self, .single (h.children x hx)⟩
    · obtain ⟨x, hx, hpath⟩ := hrest.descend r hr
      rcases List.mem_append.mp hx with hx | hx
      · exact ⟨x, List.mem_cons_of_mem sb hx, hpath⟩
      · exact ⟨sb, List.mem_cons_self, .head (h.children x hx) hpath⟩

theorem Cascading.orderly (hh : HashSound host) (h : Cascading host server queue) (turns : ℕ) :
    Orderly server queue (queueTurns turns queue server) := by
  induction turns generalizing server queue with
  | zero =>
    cases queue with
    | nil => exact .nil server []
    | cons block queue => exact .nil server _
  | succ turns ih =>
    cases queue with
    | nil => exact .nil server []
    | cons block queue =>
      obtain ⟨st, hst⟩ := h.ready block List.mem_cons_self
      have hpends (more : List (SignedBlockWithAttestation H)) :
          QueueTurn.pends ⟨server, block, more⟩ = false := by
        rw [QueueTurn.pends, Store.hasState, hst]
        rfl
      rw [queueTurns]
      split
      · rename_i more server' hturn
        obtain ⟨hcascades, hnext⟩ := h.head hh hturn
        exact .cons (hpends more) hcascades (ih hnext)
      · refine ⟨List.forall_mem_cons.mpr ⟨hpends [], ?_⟩, List.nil_subperm, ?_⟩ <;> simp [enqueued]

/-- The turns of a call: only the first may put its block aside, and no root is added twice. -/
theorem Lineage.queueTurns (hh : HashSound host) (hacyclic : Acyclic host) (h : Lineage host server)
    (turns : ℕ) (sb : SignedBlockWithAttestation H) :
    (∀ t ∈ (queueTurns turns [sb] server).tail, t.pends = false) ∧
      (enqueued (queueTurns turns [sb] server)).Nodup := by
  cases turns with
  | zero => exact ⟨nofun, List.nodup_nil⟩
  | succ turns =>
    rw [Chain.queueTurns]
    split
    · rename_i more server' hturn
      obtain ⟨hcascading, hfirst⟩ := h.firstTurn hh hacyclic hturn
      have horderly := hcascading.orderly hh turns
      rw [List.nil_append]
      refine ⟨horderly.processed, ?_⟩
      change (more.map (rootOf host) ++ enqueued (Chain.queueTurns turns more server')).Nodup
      rcases hfirst with hcascades | hlength
      · have hsub := ((List.subperm_append_left _).mpr horderly.roots).trans hcascades.roots
        exact nodup_of_subperm hsub (h.nodup_waitingRoots hh)
      · have hrest := nodup_of_subperm horderly.roots (hcascading.lineage.nodup_waitingRoots hh)
        rcases more with _ | ⟨x, _ | ⟨y, more⟩⟩
        · exact hrest
        · refine List.nodup_cons.mpr ⟨fun hmem ↦ ?_, hrest⟩
          -- a root that is added later lies above the block that the climb came back with
          obtain ⟨y, hy, hpath⟩ := horderly.descend _ hmem
          rw [List.mem_singleton.mp hy] at hpath
          exact hacyclic _ hpath
        · exact absurd hlength (by simp)
    · exact ⟨nofun, List.nodup_nil⟩

end Queue

/-- The servers of a node: started from an anchor, running, started again on what is stored. -/
inductive Running (host : Host H) : Server host → Prop
  | spawn {st : State H} {body : Option (BlockBody H)} {s : Store H}
      {keys : Table UInt64 host.SecretKey} {isAggregator : Bool} (hst : Anchor host st)
      (hs : Store.initStore host st body = .ok s) : Running host (Server.spawn host s keys isAggregator)
  | step {server server' : Server host} {d : Server.Delivery H} (h : Running host server)
      (hs : Server.step host server d = .ok server') : Running host server'
  | restart {server : Server host} {st : State H} {s : Store H}
      {keys : Table UInt64 host.SecretKey} {isAggregator : Bool} (h : Running host server)
      (hst : Anchor host st) (hs : reopen host server.store st none = .ok s) :
      Running host (Server.spawn host s keys isAggregator)

section Running

variable {server server' : Server host}

theorem lineage_spawn (h : Grounded host s) (keys : Table UInt64 host.SecretKey)
    (isAggregator : Bool) : Lineage host (Server.spawn host s keys isAggregator) := by
  refine ⟨h, ?_, fun p children hp ↦ ?_, fun c a hc ↦ ?_⟩
  · rintro p c ⟨children, hp, -⟩
    exact nomatch hp
  · exact nomatch hp
  · exact nomatch hc

theorem Lineage.step (hh : HashSound host) (hacyclic : Acyclic host) (h : Lineage host server)
    {d : Server.Delivery H} (hs : Server.step host server d = .ok server') :
    Lineage host server' := by
  obtain ⟨r, hr⟩ := Server.handle_of_step hs
  by_cases hm : ∃ block, d.message = .newBlock block
  · obtain ⟨block, hblock⟩ := hm
    rw [hblock] at hr
    rcases Op.bind_eq_ok.mp hr with ⟨u, drained, hdrain, hrest⟩ | ⟨e, -, -⟩
    · obtain ⟨-, rfl⟩ := Prod.mk.inj (Except.ok.inj hrest)
      have hdrained := h.drained hh hacyclic hdrain
      exact lineage_carries.put hdrained hdrained.store.pruneOldData
    · exact e.elim
  · exact Server.handle_keeps (Server.steadyOn (grounded_steady hh) fun _ ↦ True) lineage_carries
      (fun _ _ _ _ _ _ _ _ ↦ trivial) d.turns (fun block hb ↦ hm ⟨block, hb⟩) server r server' h hr

theorem Running.lineage (hh : HashSound host) (hacyclic : Acyclic host) (h : Running host server) :
    Lineage host server := by
  induction h with
  | spawn hst hs => exact lineage_spawn (grounded_initStore hh hst hs) _ _
  | step _ hs ih => exact ih.step hh hacyclic hs
  | restart _ hst hs ih => exact lineage_spawn (ih.store.reopen hh hst hs) _ _

/-- The cascade that a block sets off comes to an end: neither the walks nor the queue go on for
ever. From the second turn on no block is put aside, and no root enters the queue twice. -/
theorem cascade_terminates (hh : HashSound host) (hacyclic : Acyclic host)
    (h : Running host server) (sb : SignedBlockWithAttestation H) :
    Op.Settles (fun turns ↦ (Server.onBlock host turns sb : Op (Server host) Empty Unit)) server ∧
      ∀ turns, (∀ t ∈ (queueTurns turns [sb] server).tail, t.pends = false) ∧
        (enqueued (queueTurns turns [sb] server)).Nodup := by
  have hlineage := h.lineage hh hacyclic
  refine ⟨?_, fun turns ↦ hlineage.queueTurns hh hacyclic turns sb⟩
  exact Op.settles_bind (hlineage.settles hh hacyclic sb) fun _ _ ↦ Op.ends_of_eq rfl

end Running

section Sample

theorem sampleHost_acyclic : Acyclic sampleHost := by
  have hlt {p c : ℕ} (h : ParentOf sampleHost p c) : p < c := by
    obtain ⟨hdr, rfl, rfl⟩ := h
    exact Nat.lt_one_add_iff.mpr (Nat.left_le_pair _ _)
  have hpath {p c : ℕ} (h : Relation.TransGen (ParentOf sampleHost) p c) : p < c := by
    induction h with
    | single h => exact hlt h
    | tail _ h ih => exact ih.trans (hlt h)
  exact fun r h ↦ lt_irrefl r (hpath h)

/-- The second block comes before the first, and follows it out of the records. -/
theorem cascade_terminates_sample :
    ∃ server, Server.step sampleHost sampleServer ⟨1, .newBlock sampleSecond⟩ = .ok server ∧
      (queueTurns 3 [sampleFirst] server).map (fun t ↦ rootOf sampleHost t.block) =
        [sampleHash.block Sample.first, sampleHash.block Sample.second] ∧
      Op.Settles (fun turns ↦ (Server.onBlock sampleHost turns sampleFirst :
        Op (Server sampleHost) Empty Unit)) server ∧
      ∀ turns, (∀ t ∈ (queueTurns turns [sampleFirst] server).tail, t.pends = false) ∧
        (enqueued (queueTurns turns [sampleFirst] server)).Nodup := by
  have hview : (Server.step sampleHost sampleServer ⟨1, .newBlock sampleSecond⟩).toOption.map
      (fun server ↦ (queueTurns 3 [sampleFirst] server).map fun t ↦ rootOf sampleHost t.block) =
      some [sampleHash.block Sample.first, sampleHash.block Sample.second] := by decide +kernel
  obtain ⟨server, hstep, hturns⟩ := Exec.exists_ok_of_map hview
  have hrunning : Running sampleHost server :=
    .step (.spawn sampleGenesis_anchor sampleStore_eq) hstep
  exact ⟨server, hstep, hturns,
    cascade_terminates sampleHost_hashSound sampleHost_acyclic hrunning sampleFirst⟩

end Sample

end Ethlambda.Chain
