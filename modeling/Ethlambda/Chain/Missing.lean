import Ethlambda.Chain.Sync

namespace Ethlambda.Chain

open Ethlambda.Base Ethlambda.Types Ethlambda.Storage Ethlambda.StateTransition

set_option linter.unusedSectionVars false

variable {H : Type} [LinearOrder H] [Zero H] {host : Host H} {s₀ s s' : Store H}
  {blocks queue more : List (SignedBlockWithAttestation H)} {server server' server'' : Server host}
  {sb : SignedBlockWithAttestation H} {r : H} {ε : Type} {anchor : State H}

/-- The way up from a root ends at a block that was never seen. -/
structure Lacks (host : Host H) (blocks : List (SignedBlockWithAttestation H)) (s : Store H)
    (r m : H) : Prop where
  path : Relation.ReflTransGen (Link host blocks s) r m
  unseen : s.blockHeaders.lookup m = none

section Lacks

variable {m m' : H}

theorem link_unique (hnodup : (blocks.map fun sb ↦ host.block sb.message.block).Nodup) {x y z : H}
    (hy : Link host blocks s x y) (hz : Link host blocks s x z) : y = z := by
  obtain ⟨a, ha, hroot, rfl, -⟩ := hy
  obtain ⟨b, hb, hroot', rfl, -⟩ := hz
  rw [List.inj_on_of_nodup_map hnodup ha hb (hroot.trans hroot'.symm)]

theorem Lacks.ends (h : Lacks host blocks s r m) {x : H}
    (hpath : Relation.ReflTransGen (Link host blocks s) m x) : x = m := by
  rcases Relation.ReflTransGen.cases_head hpath with heq | ⟨y, hlink, -⟩
  · exact heq.symm
  · obtain ⟨-, -, -, -, hdr, hhdr⟩ := hlink
    exact nomatch h.unseen.symm.trans hhdr

theorem Lacks.unique (hnodup : (blocks.map fun sb ↦ host.block sb.message.block).Nodup)
    (h : Lacks host blocks s r m) (h' : Lacks host blocks s r m') : m = m' := by
  have hright : Relator.RightUnique (Link host blocks s) := fun _ _ _ ↦ link_unique hnodup
  rcases Relation.ReflTransGen.total_of_right_unique hright h.path h'.path with hpath | hpath
  · exact (h.ends hpath).symm
  · exact h'.ends hpath

theorem reflTransGen_link_mono (h : ∀ r hdr, s.blockHeaders.lookup r = some hdr →
    ∃ hdr', s'.blockHeaders.lookup r = some hdr') {x y : H}
    (hpath : Relation.ReflTransGen (Link host blocks s) x y) :
    Relation.ReflTransGen (Link host blocks s') x y := by
  rcases Relation.reflTransGen_iff_eq_or_transGen.mp hpath with heq | hpath
  · rw [heq]
  · exact (link_mono h hpath).to_reflTransGen

/-- A path of stored blocks stays stateless all the way up. -/
theorem Synced.stateless_of_path (h : Synced host s₀ blocks server [])
    (hnodup : (blocks.map fun sb ↦ host.block sb.message.block).Nodup)
    (hhead : ∃ st, s₀.states.lookup s₀.head = some st) {x : H}
    (hpath : Relation.ReflTransGen (Link host blocks server.store) r x)
    (hr : server.store.states.lookup r = none) : server.store.states.lookup x = none := by
  induction hpath with
  | refl => exact hr
  | tail _ hlink ih => exact h.stateless_of_link hnodup hhead hlink ih

end Lacks

/-- What working off a queue leaves behind. -/
structure Drained (server : Server host) (queue : List (SignedBlockWithAttestation H))
    (server' : Server host) : Prop where
  sent : server'.sent = server.sent
  p2p : server'.p2p = server.p2p
  waits : ∀ p c, Waits server' p c → Waits server p c
  states : ∀ r st, server.store.states.lookup r = some st →
    ∃ st', server'.store.states.lookup r = some st'
  done : ∀ x ∈ queue, ∃ st, server'.store.states.lookup (host.block x.message.block) = some st
  headers : ∀ r hdr, server.store.blockHeaders.lookup r = some hdr →
    ∃ hdr', server'.store.blockHeaders.lookup r = some hdr'
  headers_of : ∀ r hdr, server'.store.blockHeaders.lookup r = some hdr →
    (∃ x ∈ queue, host.block x.message.block = r) ∨
      ∃ hdr', server.store.blockHeaders.lookup r = some hdr'

theorem Drained.nil (server : Server host) : Drained server [] server where
  sent := rfl
  p2p := rfl
  waits _ _ h := h
  states _ st h := ⟨st, h⟩
  done _ h := absurd h List.not_mem_nil
  headers _ hdr h := ⟨hdr, h⟩
  headers_of _ hdr h := .inr ⟨hdr, h⟩

theorem collectPendingChildren_sent {root : H}
    (h : (Server.collectPendingChildren host root :
      Op (Server host) ε (List (SignedBlockWithAttestation H))) server = .ok (.ok more, server')) :
    server'.sent = server.sent ∧ server'.p2p = server.p2p := by
  unfold Server.collectPendingChildren at h
  rw [Op.get_bind] at h
  cases hroot : server.pendingBlocks.lookup root with
  | none =>
    rw [hroot] at h
    obtain ⟨-, rfl⟩ := Prod.mk.inj (Except.ok.inj h)
    exact ⟨rfl, rfl⟩
  | some children =>
    rw [hroot] at h
    dsimp only at h
    rw [Op.modify_bind] at h
    obtain ⟨-, rfl⟩ := Prod.mk.inj (Except.ok.inj h)
    exact ⟨rfl, rfl⟩

/-- A block whose parent has a state sends nothing. -/
theorem processOrPendBlock_sent (hparent : ∃ st, server.store.states.lookup
      sb.message.block.parentRoot = some st)
    (h : (Server.processOrPendBlock host sb :
      Op (Server host) ε (List (SignedBlockWithAttestation H))) server = .ok (.ok more, server')) :
    server'.sent = server.sent ∧ server'.p2p = server.p2p := by
  obtain ⟨st, hst⟩ := hparent
  unfold Server.processOrPendBlock at h
  rw [Op.get_bind, Store.hasState, hst, Option.isSome_some, Bool.not_true,
    if_neg Bool.false_ne_true] at h
  rcases Op.bind_eq_ok.mp h with ⟨result, t, hattempt, hrest⟩ | ⟨e, -, heq⟩
  · obtain ⟨s', -, rfl⟩ := handled_of_processBlock (Op.attempt_eq_ok.mp hattempt)
    cases result with
    | ok u =>
      cases u
      have hsame := collectPendingChildren_sent hrest
      exact hsame
    | error e =>
      obtain ⟨-, rfl⟩ := Prod.mk.inj (Except.ok.inj hrest)
      exact ⟨rfl, rfl⟩
  · cases heq

/-- A turn on a block that has the state of its parent. -/
theorem Synced.pass_drained (hh : HashSound host) (hbody : Function.Injective host.body)
    (hvalid : ∀ sb ∈ blocks, Valid host s₀ blocks sb)
    (hnodup : (blocks.map fun sb ↦ host.block sb.message.block).Nodup)
    (h : Synced host s₀ blocks server (sb :: queue)) :
    ∃ more server', (Server.processOrPendBlock host sb :
      Op (Server host) ε (List (SignedBlockWithAttestation H))) server = .ok (.ok more, server') ∧
      Synced host s₀ blocks server' (queue ++ more) ∧
      more.length + server'.pendingBlockParents.keys.length ≤
        server.pendingBlockParents.keys.length ∧
      Drained server [sb] server' ∧
      ∀ x ∈ more, ∃ hdr, server.store.blockHeaders.lookup (host.block x.message.block) = some hdr := by
  obtain ⟨more, server', heq, hnext, hlength⟩ := h.pass (ε := ε) hh hbody hvalid hnodup
  have hparent := (h.tracking.ready sb List.mem_cons_self).2
  obtain ⟨hsent, hp2p⟩ := processOrPendBlock_sent hparent heq
  refine ⟨more, server', heq, hnext, hlength, ?_⟩
  cases turn_of_processOrPendBlock heq with
  | pended hnone =>
    obtain ⟨st, hst⟩ := hparent
    exact nomatch hnone.symm.trans hst
  | rejected _ he =>
    obtain ⟨post, hpost⟩ :=
      (hvalid sb (h.queued sb List.mem_cons_self)).postState h.tracking hparent
    exact nomatch he.symm.trans hpost
  | passed _ hhandled hmore =>
    have hpassed := hhandled.passed hbody
    refine ⟨⟨hsent, hp2p, fun p c hc ↦ ((hmore.waits p c).mp hc).2, fun r st hr ↦ ?_, fun x hx ↦ ?_,
      fun r hdr hr ↦ ?_, fun r hdr hr ↦ ?_⟩, fun x hx ↦ ?_⟩
    · rw [hmore.store]
      by_cases heq : r = host.block sb.message.block
      · rw [heq]
        exact hpassed.state
      · exact ⟨st, (hpassed.states r heq).trans hr⟩
    · obtain rfl := List.mem_singleton.mp hx
      rw [hmore.store]
      exact hpassed.state
    · rw [hmore.store]
      exact hpassed.headers r hdr hr
    · rw [hmore.store] at hr
      rcases hpassed.headers_of r hdr hr with heq | hold
      · exact .inl ⟨sb, List.mem_singleton_self sb, heq.symm⟩
      · exact .inr ⟨hdr, hold⟩
    · obtain ⟨c, hc, hload⟩ := (hmore.mem x).mp hx
      obtain ⟨y, -, hget, -⟩ := h.recorded.children _ c hc
      have hroot : host.block x.message.block = c := by
        have hloads := hnext.tracking.loads c x
        rw [hmore.store] at hloads
        exact hloads hload
      rw [hroot]
      exact header_of_getSignedBlock hget

theorem Drained.step (h : Drained server [sb] server')
    (hrest : Drained server' (queue ++ more) server'')
    (hmore : ∀ x ∈ more, ∃ hdr,
      server.store.blockHeaders.lookup (host.block x.message.block) = some hdr) :
    Drained server (sb :: queue) server'' where
  sent := hrest.sent.trans h.sent
  p2p := hrest.p2p.trans h.p2p
  waits p c hc := h.waits p c (hrest.waits p c hc)
  states r st hr := by
    obtain ⟨st', hr'⟩ := h.states r st hr
    exact hrest.states r st' hr'
  done x hx := by
    rcases List.mem_cons.mp hx with rfl | hx
    · obtain ⟨st, hst⟩ := h.done x (List.mem_singleton_self x)
      exact hrest.states _ st hst
    · exact hrest.done x (List.mem_append_left more hx)
  headers r hdr hr := by
    obtain ⟨hdr', hr'⟩ := h.headers r hdr hr
    exact hrest.headers r hdr' hr'
  headers_of r hdr hr := by
    rcases hrest.headers_of r hdr hr with ⟨x, hx, rfl⟩ | ⟨hdr', hr'⟩
    · rcases List.mem_append.mp hx with hx | hx
      · exact .inl ⟨x, List.mem_cons_of_mem sb hx, rfl⟩
      · exact .inr (hmore x hx)
    · rcases h.headers_of r hdr' hr' with ⟨x, hx, hroot⟩ | hold
      · obtain rfl := List.mem_singleton.mp hx
        exact .inl ⟨x, List.mem_cons_self, hroot⟩
      · exact .inr hold

theorem Synced.drained (hh : HashSound host) (hbody : Function.Injective host.body)
    (hvalid : ∀ sb ∈ blocks, Valid host s₀ blocks sb)
    (hnodup : (blocks.map fun sb ↦ host.block sb.message.block).Nodup) {turns : ℕ}
    (h : Synced host s₀ blocks server queue)
    (hturns : queue.length + server.pendingBlockParents.keys.length ≤ turns) :
    ∃ server', (Server.drainQueue host turns queue : Op (Server host) ε Unit) server =
      .ok (.ok (), server') ∧ Synced host s₀ blocks server' [] ∧ Drained server queue server' := by
  induction turns generalizing server queue with
  | zero =>
    cases queue with
    | nil => exact ⟨server, rfl, h, .nil server⟩
    | cons sb queue =>
      rw [List.length_cons] at hturns
      omega
  | succ turns ih =>
    cases queue with
    | nil => exact ⟨server, rfl, h, .nil server⟩
    | cons sb queue =>
      obtain ⟨more, t, heq, ht, hle, hpass, hmore⟩ := h.pass_drained (ε := ε) hh hbody hvalid hnodup
      rw [List.length_cons] at hturns
      obtain ⟨server', hdrain, hs, hrest⟩ := ih ht (by rw [List.length_append]; omega)
      refine ⟨server', ?_, hs, hpass.step hrest hmore⟩
      rw [Server.drainQueue, Op.bind_of_ok heq]
      exact hdrain

/-- A block that is put aside, with the first ancestor that was never seen, which the network is
asked for. -/
structure PutAside (host : Host H) (blocks : List (SignedBlockWithAttestation H))
    (server : Server host) (sb : SignedBlockWithAttestation H) (m : H) (server' : Server host) :
    Prop where
  sent : server'.sent = server.sent ++ [.fetchBlock m]
  p2p : server'.p2p = server.p2p
  waits : ∀ p c, Waits server' p c ↔
    Waits server p c ∨ p = sb.message.block.parentRoot ∧ c = host.block sb.message.block
  states : server'.store.states = server.store.states
  headers : ∀ r, server'.store.blockHeaders.lookup r =
    if r = host.block sb.message.block then some (sb.message.block.header host.toTreeHash)
    else server.store.blockHeaders.lookup r
  lacks : Lacks host blocks server'.store sb.message.block.parentRoot m
  listed : ∃ x ∈ blocks, host.block x.message.block = m
  below : height host blocks m < height host blocks (host.block sb.message.block)

section PutAside

theorem climb_fetches (server : Server host) (steps : ℕ) {m : H}
    (hhdr : server.store.blockHeaders.lookup m = none) (hp2p : server.p2p = true) :
    (Server.climb host (steps + 1) m :
      Op (Server host) ε (List (SignedBlockWithAttestation H))) server =
        .ok (.ok [], { server with sent := server.sent ++ [.fetchBlock m] }) := by
  rw [Server.climb, Op.get_bind, Store.getBlockHeader, hhdr]
  dsimp only
  rw [Server.publish, Op.modify_bind, Op.pure_apply, if_pos hp2p]

theorem processOrPendBlock_fetches
    (hparent : server.store.states.lookup sb.message.block.parentRoot = none) {m : H}
    (hm : (Server.missingAncestor server.pendingBlockParents
      (server.pendingBlockParents.keys.length + 1) sb.message.block.parentRoot : Exec ε H) = .ok m)
    (hhdr : server.store.blockHeaders.lookup m = none) (hne : m ≠ host.block sb.message.block)
    (hp2p : server.p2p = true) :
    (Server.processOrPendBlock host sb :
      Op (Server host) ε (List (SignedBlockWithAttestation H))) server =
        .ok (.ok [], putAside host server sb m (server.sent ++ [.fetchBlock m])) := by
  have hno : server.store.hasState sb.message.block.parentRoot = false := by
    rw [Store.hasState, hparent]
    rfl
  have hmissing : (server.store.insertPendingBlock host (host.block sb.message.block)
      sb).blockHeaders.lookup m = none := by
    rw [lookup_insertPendingBlock_headers, if_neg hne, hhdr]
  unfold Server.processOrPendBlock Server.pendBlock
  rw [Op.get_bind, hno, Bool.not_false, if_pos rfl, Op.get_bind, Op.lift_bind_of_ok hm,
    Op.modify_bind, Op.modify_bind, Op.get_bind]
  exact climb_fetches (Server.addPending host sb.message.block.parentRoot
    (host.block sb.message.block)
    { server with
      pendingBlockParents := server.pendingBlockParents.insert (host.block sb.message.block) m
      store := server.store.insertPendingBlock host (host.block sb.message.block) sb }) _ hmissing hp2p

theorem height_le_of_path (hh : HashSound host) (hs₀ : Fresh host s₀ anchor)
    (hvalid : ∀ sb ∈ blocks, Valid host s₀ blocks sb)
    (hnodup : (blocks.map fun sb ↦ host.block sb.message.block).Nodup) {x y : H}
    (h : Relation.ReflTransGen (Link host blocks s) x y) :
    height host blocks y ≤ height host blocks x := by
  rcases Relation.reflTransGen_iff_eq_or_transGen.mp h with rfl | h
  · exact le_rfl
  · exact (height_lt_of_transGen hh hs₀ hvalid hnodup h).le

/-- An unseen ancestor of a valid block is a block of the list. -/
theorem Synced.listed_of_unseen (h : Synced host s₀ blocks server [])
    (hvalid : ∀ sb ∈ blocks, Valid host s₀ blocks sb)
    (hs₀ : Fresh host s₀ anchor)
    (hnodup : (blocks.map fun sb ↦ host.block sb.message.block).Nodup) (hsb : sb ∈ blocks)
    (hparent : server.store.states.lookup sb.message.block.parentRoot = none) {m : H}
    (hpath : Relation.ReflTransGen (Link host blocks server.store) sb.message.block.parentRoot m) :
    ∃ x ∈ blocks, host.block x.message.block = m := by
  have hhead : ∃ st, s₀.states.lookup s₀.head = some st := ⟨anchor, (hs₀.states _ _).mpr ⟨rfl, rfl⟩⟩
  have hstateless := h.stateless_of_path hnodup hhead hpath hparent
  obtain ⟨y, hy, hym⟩ : ∃ y ∈ blocks, y.message.block.parentRoot = m := by
    rcases Relation.ReflTransGen.cases_tail hpath with heq | ⟨x, -, y, hy, -, hym, -⟩
    · exact ⟨sb, hsb, heq.symm⟩
    · exact ⟨y, hy, hym⟩
  obtain ⟨parent, st, hderived, -, -⟩ := hvalid y hy
  rw [hym] at hderived
  cases hderived with
  | anchor hanchor => exact nomatch hstateless.symm.trans (h.tracking.anchor _ _ hanchor)
  | block hmem => exact ⟨_, hmem, rfl⟩

theorem Synced.asides (hh : HashSound host) (hbody : Function.Injective host.body)
    (hs₀ : Fresh host s₀ anchor) (hvalid : ∀ sb ∈ blocks, Valid host s₀ blocks sb)
    (hnodup : (blocks.map fun sb ↦ host.block sb.message.block).Nodup)
    (h : Synced host s₀ blocks server []) (hsb : sb ∈ blocks) (hp2p : server.p2p = true)
    (hparent : server.store.states.lookup sb.message.block.parentRoot = none) :
    ∃ m server', (Server.processOrPendBlock host sb :
      Op (Server host) ε (List (SignedBlockWithAttestation H))) server = .ok (.ok [], server') ∧
      Synced host s₀ blocks server' [] ∧ PutAside host blocks server sb m server' := by
  obtain ⟨server', heq, hnext⟩ := h.putAside (ε := ε) hh hbody hs₀ hvalid hnodup hsb hparent
  obtain ⟨m, hm, hpath, hhdr⟩ := h.exists_missing (ε := ε) hh hs₀ hvalid hnodup hparent
  have hgrow (r : H) (hdr : BlockHeader H) (hr : server.store.blockHeaders.lookup r = some hdr) :
      ∃ hdr', (server.store.insertPendingBlock host (host.block sb.message.block)
        sb).blockHeaders.lookup r = some hdr' := by
    rw [lookup_insertPendingBlock_headers]
    split
    · exact ⟨_, rfl⟩
    · exact ⟨hdr, hr⟩
  have hfirst : Link host blocks (server.store.insertPendingBlock host
      (host.block sb.message.block) sb) (host.block sb.message.block) sb.message.block.parentRoot :=
    ⟨sb, hsb, rfl, rfl, _, (lookup_insertPendingBlock_headers sb _ _).trans (if_pos rfl)⟩
  have hbelow : height host blocks m < height host blocks (host.block sb.message.block) :=
    (height_le_of_path hh hs₀ hvalid hnodup hpath).trans_lt
      (hfirst.height_lt hh hs₀ hvalid hnodup)
  have hne : m ≠ host.block sb.message.block := by
    rintro rfl
    exact lt_irrefl _ hbelow
  have hexact := processOrPendBlock_fetches (ε := ε) hparent hm hhdr hne hp2p
  obtain rfl : server' = Chain.putAside host server sb m (server.sent ++ [.fetchBlock m]) :=
    (Prod.mk.inj (Except.ok.inj (heq.symm.trans hexact))).2
  refine ⟨m, _, heq, hnext, rfl, rfl, fun p c ↦ waits_putAside, rfl, fun r ↦ ?_, ⟨?_, ?_⟩, ?_, hbelow⟩
  · exact lookup_insertPendingBlock_headers sb _ r
  · exact reflTransGen_link_mono hgrow hpath
  · exact (lookup_insertPendingBlock_headers sb _ m).trans ((if_neg hne).trans hhdr)
  · exact h.listed_of_unseen hvalid hs₀ hnodup hsb hparent hpath

end PutAside

/-- What a delivered block does: it is put aside, or it is imported with all that waited for it. -/
inductive Arrives (host : Host H) (blocks : List (SignedBlockWithAttestation H))
    (server : Server host) (sb : SignedBlockWithAttestation H) (server' : Server host) : Prop
  | aside {m : H} (h : PutAside host blocks server sb m server')
  | imported (h : Drained server [sb] server')

section Arrives

theorem Arrives.states (h : Arrives host blocks server sb server') {st : State H}
    (hst : server.store.states.lookup r = some st) :
    ∃ st', server'.store.states.lookup r = some st' := by
  cases h with
  | aside haside => exact ⟨st, (congrArg (AList.lookup r) haside.states).trans hst⟩
  | imported hdrained => exact hdrained.states r st hst

theorem Arrives.headers (h : Arrives host blocks server sb server') {hdr : BlockHeader H}
    (hhdr : server.store.blockHeaders.lookup r = some hdr) :
    ∃ hdr', server'.store.blockHeaders.lookup r = some hdr' := by
  cases h with
  | aside haside =>
    rw [haside.headers]
    split
    · exact ⟨_, rfl⟩
    · exact ⟨hdr, hhdr⟩
  | imported hdrained => exact hdrained.headers r hdr hhdr

/-- A delivered block is stored or it is imported. -/
theorem Arrives.kept (h : Arrives host blocks server sb server') :
    (∃ st, server'.store.states.lookup (host.block sb.message.block) = some st) ∨
      ∃ hdr, server'.store.blockHeaders.lookup (host.block sb.message.block) = some hdr := by
  cases h with
  | aside haside => exact .inr ⟨_, (haside.headers _).trans (if_pos rfl)⟩
  | imported hdrained => exact .inl (hdrained.done sb (List.mem_singleton_self sb))

end Arrives

/-- Where nothing waits, the records are empty. -/
theorem Recorded.eq_empty (h : Recorded host blocks server)
    (hnone : ∀ p c, ¬Waits server p c) :
    server.pendingBlocks = ∅ ∧ server.pendingBlockParents = ∅ := by
  refine ⟨Table.eq_empty fun p ↦ ?_, Table.eq_empty fun c ↦ ?_⟩
  · refine Option.eq_none_iff_forall_ne_some.mpr fun l hl ↦ ?_
    obtain ⟨c, hc⟩ := List.exists_mem_of_ne_nil l (h.lists p l hl).1
    exact hnone p c ⟨l, hl, hc⟩
  · refine Option.eq_none_iff_forall_ne_some.mpr fun a ha ↦ ?_
    obtain ⟨p, hp⟩ := (h.entries c).mp ⟨a, ha⟩
    exact hnone p c hp

/-- Where nothing waits, every stored block has its state. -/
theorem Synced.state_of_header (h : Synced host s₀ blocks server []) (hs₀ : Fresh host s₀ anchor)
    (hnone : ∀ p c, ¬Waits server p c) {hdr : BlockHeader H}
    (hhdr : server.store.blockHeaders.lookup r = some hdr) :
    ∃ st, server.store.states.lookup r = some st := by
  rcases h.held r hdr hhdr with rfl | hst | ⟨z, hz, -⟩ | ⟨z, -, -, hw, -⟩
  · exact ⟨anchor, h.tracking.anchor _ _ ((hs₀.states _ _).mpr ⟨rfl, rfl⟩)⟩
  · exact hst
  · exact absurd hz List.not_mem_nil
  · exact absurd hw (hnone _ _)

theorem Synced.nothingDue (hfew : blocks.length + 1 ≤ statesToKeep)
    (h : Synced host s₀ blocks server queue) : NothingDue host server.store := by
  have hsub := (server.store.blockHeaders.keys_nodup.subperm fun r hr ↦ by
    obtain ⟨hdr, hhdr⟩ := Table.mem_iff_lookup.mp (AList.mem_keys.mp hr)
    exact (h.tracking.headers r hdr hhdr).2).length_le
  rw [List.length_cons, List.length_map] at hsub
  exact nothingDue_of_few (hsub.trans hfew)

theorem Synced.arrives (hh : HashSound host) (hbody : Function.Injective host.body)
    (hs₀ : Fresh host s₀ anchor) (hvalid : ∀ sb ∈ blocks, Valid host s₀ blocks sb)
    (hnodup : (blocks.map fun sb ↦ host.block sb.message.block).Nodup)
    (hfew : blocks.length + 1 ≤ statesToKeep) (h : Synced host s₀ blocks server [])
    (hp2p : server.p2p = true) (hsb : sb ∈ blocks) {turns : ℕ} (hturns : blocks.length < turns) :
    ∃ server', Server.deliver host server (turns, sb) = .ok server' ∧
      Synced host s₀ blocks server' [] ∧ Arrives host blocks server sb server' := by
  have hrecords := h.records_le
  obtain ⟨drained, hdrain, hend, harrives⟩ : ∃ drained,
      (Server.drainQueue host turns [sb] : Op (Server host) Empty Unit) server =
        .ok (.ok (), drained) ∧ Synced host s₀ blocks drained [] ∧
        Arrives host blocks server sb drained := by
    cases hparent : server.store.states.lookup sb.message.block.parentRoot with
    | none =>
      obtain ⟨m, t, heq, ht, haside⟩ :=
        h.asides (ε := Empty) hh hbody hs₀ hvalid hnodup hsb hp2p hparent
      cases turns with
      | zero => exact absurd hturns (Nat.not_lt_zero _)
      | succ turns =>
        refine ⟨t, ?_, ht, .aside haside⟩
        rw [Server.drainQueue, Op.bind_of_ok heq]
        cases turns <;> rfl
    | some st =>
      have hlength : [sb].length + server.pendingBlockParents.keys.length ≤ turns := by
        rw [List.length_singleton]
        omega
      obtain ⟨t, heq, ht, hdrained⟩ :=
        (h.cons hsb ⟨st, hparent⟩).drained (ε := Empty) hh hbody hvalid hnodup hlength
      exact ⟨t, heq, ht, .imported hdrained⟩
  refine ⟨drained, ?_, hend, harrives⟩
  have hhandle : (Server.handle host turns (.newBlock sb) : Op (Server host) Empty Unit) server =
      .ok (.ok (), { drained with store := drained.store.pruneOldData host }) := by
    rw [Server.handle, Server.onBlock, Op.bind_of_ok hdrain]
    rfl
  rw [Server.deliver, Server.step, hhandle, (hend.nothingDue hfew).pruneOldData]

end Ethlambda.Chain
