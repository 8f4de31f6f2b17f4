import Ethlambda.Chain.Pending
import Mathlib.Logic.Equiv.List

namespace Ethlambda.Chain

open Ethlambda.Base Ethlambda.Types Ethlambda.Storage Ethlambda.StateTransition

set_option linter.unusedSectionVars false

variable {H : Type} [LinearOrder H] [Zero H]

/-- The states that valid blocks of a list lead to, from those of a fresh store on. -/
inductive Derived (host : Host H) (s₀ : Store H) (blocks : List (SignedBlockWithAttestation H)) :
    H → State H → Prop
  | anchor {r : H} {st : State H} (h : s₀.states.lookup r = some st) : Derived host s₀ blocks r st
  | block {sb : SignedBlockWithAttestation H} {parent st : State H} (hmem : sb ∈ blocks)
      (hparent : Derived host s₀ blocks sb.message.block.parentRoot parent)
      (hverify : verifySignatures host parent sb = .ok ())
      (hst : stateTransition host.toTreeHash parent sb.message.block = .ok st) :
      Derived host s₀ blocks (host.block sb.message.block)
        (withStateRoot st sb.message.block.stateRoot)

/-- Signatures and state transition of the block are valid on the state of its parent, which is the
anchor or a valid block of the list. -/
def Valid (host : Host H) (s₀ : Store H) (blocks : List (SignedBlockWithAttestation H))
    (sb : SignedBlockWithAttestation H) : Prop :=
  ∃ parent st, Derived host s₀ blocks sb.message.block.parentRoot parent ∧
    verifySignatures host parent sb = .ok () ∧
    stateTransition host.toTreeHash parent sb.message.block = .ok st

/-- A store that holds nothing but its anchor. -/
structure Fresh (host : Host H) (s₀ : Store H) (anchor : State H) : Prop where
  states : ∀ r st, s₀.states.lookup r = some st ↔ r = s₀.head ∧ st = anchor
  headers : ∀ r hdr, s₀.blockHeaders.lookup r = some hdr → host.header hdr = r ∧ r = s₀.head
  unsigned : ∀ r, s₀.getSignedBlock host r = none
  stored : Stored host s₀.head anchor

/-- The server's step on a delivered block, with the turns that its work queue may take. -/
def Server.deliver (host : Host H) (server : Server host)
    (d : ℕ × SignedBlockWithAttestation H) : Except Panic (Server host) :=
  Server.step host server ⟨d.1, .newBlock d.2⟩

variable {host : Host H} {s₀ : Store H} {blocks : List (SignedBlockWithAttestation H)}
  {server server' : Server host} {sb : SignedBlockWithAttestation H} {r : H} {st : State H}

theorem fresh_initStore (hh : HashSound host) (hst : Anchor host st) {body : Option (BlockBody H)}
    (h : Store.initStore host st body = .ok s₀) : Fresh host s₀ (Store.anchor host st).1 := by
  have hstored := stored_anchor hh hst
  obtain ⟨-, rfl⟩ := Store.initStore_eq_ok.mp h
  refine ⟨fun r st' ↦ Table.lookup_singleton, fun r hdr hr ↦ ?_, fun r ↦ ?_, hstored⟩
  · obtain ⟨rfl, rfl⟩ := Table.lookup_singleton.mp hr
    exact ⟨rfl, rfl⟩
  · refine Option.eq_none_iff_forall_ne_some.mpr fun x hx ↦ ?_
    obtain ⟨hdr, -, hx⟩ := Option.bind_eq_some_iff.mp hx
    obtain ⟨sigs, hsigs, -⟩ := Option.bind_eq_some_iff.mp hx
    exact nomatch hsigs

section Derived

variable {anchor : State H}

theorem Derived.cases (h : Derived host s₀ blocks r st) :
    s₀.states.lookup r = some st ∨ ∃ sb ∈ blocks, ∃ parent st₁, host.block sb.message.block = r ∧
      Derived host s₀ blocks sb.message.block.parentRoot parent ∧
      verifySignatures host parent sb = .ok () ∧
      stateTransition host.toTreeHash parent sb.message.block = .ok st₁ ∧
      st = withStateRoot st₁ sb.message.block.stateRoot := by
  cases h with
  | anchor h => exact .inl h
  | @block sb parent st₁ hmem hparent hverify hst =>
    exact .inr ⟨sb, hmem, parent, st₁, rfl, hparent, hverify, hst, rfl⟩

/-- Derived states belong under their roots, and no slot lies below the anchor's. -/
theorem Derived.stored (hh : HashSound host) (hs₀ : Fresh host s₀ anchor)
    (h : Derived host s₀ blocks r st) : Stored host r st ∧ anchor.slot.toNat ≤ st.slot.toNat := by
  induction h with
  | anchor h =>
    obtain ⟨rfl, rfl⟩ := (hs₀.states _ _).mp h
    exact ⟨hs₀.stored, le_rfl⟩
  | @block sb parent st hmem hparent hverify hst ih =>
    obtain ⟨hstored, hslot, -⟩ := ih.1.transition hh hst
    obtain ⟨-, hlt, -⟩ := ih.1.wellformed.transition_header hh.collisionFree hst
    refine ⟨hstored, ?_⟩
    rw [← ih.1.wellformed.slot_eq] at hlt
    rw [show (withStateRoot st sb.message.block.stateRoot).slot = st.slot from rfl, hslot]
    exact ih.2.trans hlt.le

/-- No block comes back to the root of the anchor, since slots grow along the chain. -/
theorem Valid.lookup_anchor (hh : HashSound host) (hs₀ : Fresh host s₀ anchor)
    (h : Valid host s₀ blocks sb) : s₀.states.lookup (host.block sb.message.block) = none := by
  obtain ⟨parent, st, hparent, -, hst⟩ := h
  obtain ⟨hp, hle⟩ := hparent.stored hh hs₀
  obtain ⟨hstored, hslot, -⟩ := hp.transition hh hst
  obtain ⟨-, hlt, -⟩ := hp.wellformed.transition_header hh.collisionFree hst
  rw [← hp.wellformed.slot_eq, ← hslot] at hlt
  refine Option.eq_none_iff_forall_ne_some.mpr fun st₀ h₀ ↦ ?_
  obtain ⟨hroot, rfl⟩ := (hs₀.states _ _).mp h₀
  rw [hroot] at hstored
  have hsame : st.slot = st₀.slot := (hstored.unique hh hs₀.stored).1
  rw [hsame] at hlt
  omega

theorem Derived.eq_anchor (hh : HashSound host) (hs₀ : Fresh host s₀ anchor)
    (h : Derived host s₀ blocks r st) {st₀ : State H} (h₀ : s₀.states.lookup r = some st₀) :
    st = st₀ := by
  rcases h.cases with h | ⟨sb, -, parent, st₁, rfl, hparent, hverify, hst, -⟩
  · exact Option.some.inj (h.symm.trans h₀)
  · have hvalid : Valid host s₀ blocks sb := ⟨parent, st₁, hparent, hverify, hst⟩
    exact nomatch (hvalid.lookup_anchor hh hs₀).symm.trans h₀

end Derived

theorem postState_of_valid {s : Store H} {parent : State H}
    (hparent : s.states.lookup sb.message.block.parentRoot = some parent)
    (hverify : verifySignatures host parent sb = .ok ())
    (hst : stateTransition host.toTreeHash parent sb.message.block = .ok st) :
    postState host s sb true = .ok (withStateRoot st sb.message.block.stateRoot) := by
  unfold postState
  refine Exec.bind_eq_ok.mpr ⟨parent, okOr_eq_ok.mpr hparent, ?_⟩
  refine Exec.bind_eq_ok.mpr ⟨(), hverify, ?_⟩
  exact Exec.bind_eq_ok.mpr ⟨st, Exec.mapError_eq_ok.mpr hst, rfl⟩

/-- What the server knows while it works through a queue: tables and records fit the roots, no state
contradicts a derived one, and the blocks of the queue have the state of their parent. -/
structure Tracking (host : Host H) (s₀ : Store H) (blocks : List (SignedBlockWithAttestation H))
    (roots : List H) (server : Server host) (queue : List (SignedBlockWithAttestation H)) : Prop where
  headers : ∀ r hdr, server.store.blockHeaders.lookup r = some hdr → host.header hdr = r ∧ r ∈ roots
  loads : ∀ r x, server.store.getSignedBlock host r = some x → host.block x.message.block = r
  waits : ∀ p c, Waits server p c → ∃ hdr, host.header hdr = c ∧ hdr.parentRoot = p
  anchor : ∀ r st, s₀.states.lookup r = some st → server.store.states.lookup r = some st
  agrees : ∀ r st st', server.store.states.lookup r = some st → Derived host s₀ blocks r st' →
    st' = st
  closed : ∀ r st, server.store.states.lookup r = some st → (∃ st₀, s₀.states.lookup r = some st₀) ∨
    ∃ hdr parent, host.header hdr = r ∧ server.store.states.lookup hdr.parentRoot = some parent
  ready : ∀ x ∈ queue, host.block x.message.block ∈ roots ∧
    ∃ st, server.store.states.lookup x.message.block.parentRoot = some st

section Tracking

variable {roots : List H} {queue more : List (SignedBlockWithAttestation H)}

/-- A block that was loaded from under `r` has the header that hashes to `r`. -/
theorem Tracking.parentRoot_eq (hh : HashSound host) (h : Tracking host s₀ blocks roots server queue)
    {x : SignedBlockWithAttestation H} {hdr : BlockHeader H}
    (hx : server.store.getSignedBlock host r = some x) (hdr_eq : host.header hdr = r) :
    x.message.block.parentRoot = hdr.parentRoot := by
  have hroot := h.loads r x hx
  rw [hh.block_eq, ← hdr_eq] at hroot
  rw [← hh.collisionFree.header_injective hroot]
  rfl

theorem Valid.postState (hvalid : Valid host s₀ blocks sb)
    (h : Tracking host s₀ blocks roots server queue)
    (hparent : ∃ st, server.store.states.lookup sb.message.block.parentRoot = some st) :
    ∃ post, postState host server.store sb true = .ok post := by
  obtain ⟨parent, st, hderived, hverify, hst⟩ := hvalid
  obtain ⟨parent', hlookup⟩ := hparent
  obtain rfl := h.agrees _ _ _ hlookup hderived
  exact ⟨_, postState_of_valid hlookup hverify hst⟩

theorem Tracking.insertPendingBlock (hh : HashSound host) (hbody : Function.Injective host.body)
    (h : Tracking host s₀ blocks roots server queue) (hroot : host.block sb.message.block ∈ roots)
    {waiting : Server host}
    (hstore : waiting.store = server.store.insertPendingBlock host (host.block sb.message.block) sb)
    (hwaits : ∀ p c, Waits waiting p c ↔ Waits server p c ∨
      p = sb.message.block.parentRoot ∧ c = host.block sb.message.block) :
    Tracking host s₀ blocks roots waiting queue := by
  have hstates : waiting.store.states = server.store.states := by rw [hstore]; rfl
  constructor
  case headers =>
    intro r hdr hhdr
    rw [hstore, lookup_insertPendingBlock_headers] at hhdr
    split at hhdr
    · rename_i hr
      rw [hr, ← Option.some.inj hhdr]
      exact ⟨(hh.block_eq _).symm, hroot⟩
    · exact h.headers r hdr hhdr
  case loads =>
    intro r x hx
    rw [hstore, Store.insertPendingBlock, getSignedBlock_writeSignedBlock hbody] at hx
    split at hx
    · rename_i hr
      rw [hr, ← Option.some.inj hx]
    · exact h.loads r x hx
  case waits =>
    intro p c hp
    rcases (hwaits p c).mp hp with hp | ⟨rfl, rfl⟩
    · exact h.waits p c hp
    · exact ⟨_, (hh.block_eq _).symm, rfl⟩
  case anchor => rw [hstates]; exact h.anchor
  case agrees => rw [hstates]; exact h.agrees
  case closed => rw [hstates]; exact h.closed
  case ready => rw [hstates]; exact h.ready

theorem Tracking.climbed (hh : HashSound host) (h : Tracking host s₀ blocks roots server queue)
    (hclimb : Climbed server more server') :
    Tracking host s₀ blocks roots server' (queue ++ more) := by
  have hstore := hclimb.store
  constructor
  case headers => rw [hstore]; exact h.headers
  case loads => rw [hstore]; exact h.loads
  case waits =>
    intro p c hp
    rcases hclimb.recorded p c hp with hp | ⟨hdr, hhdr, hparent⟩
    · exact h.waits p c hp
    · exact ⟨hdr, (h.headers c hdr hhdr).1, hparent⟩
  case anchor => rw [hstore]; exact h.anchor
  case agrees => rw [hstore]; exact h.agrees
  case closed => rw [hstore]; exact h.closed
  case ready =>
    intro x hx
    rw [hstore]
    rcases List.mem_append.mp hx with hx | hx
    · exact h.ready x hx
    · obtain ⟨r, hdr, st, hhdr, hget, hst⟩ := hclimb.ready x hx
      obtain ⟨hroot, hmem⟩ := h.headers r hdr hhdr
      refine ⟨by rwa [h.loads r x hget], st, ?_⟩
      rw [h.parentRoot_eq hh hget hroot]
      exact hst

theorem Tracking.collected (hh : HashSound host) (h : Tracking host s₀ blocks roots server queue)
    (hstate : ∃ st, server.store.states.lookup r = some st)
    (hmore : Collected server r more server') :
    Tracking host s₀ blocks roots server' (queue ++ more) := by
  have hstore := hmore.store
  constructor
  case headers => rw [hstore]; exact h.headers
  case loads => rw [hstore]; exact h.loads
  case waits => exact fun p c hp ↦ h.waits p c ((hmore.waits p c).mp hp).2
  case anchor => rw [hstore]; exact h.anchor
  case agrees => rw [hstore]; exact h.agrees
  case closed => rw [hstore]; exact h.closed
  case ready =>
    intro x hx
    rw [hstore]
    rcases List.mem_append.mp hx with hx | hx
    · exact h.ready x hx
    · obtain ⟨c, hc, hget⟩ := (hmore.mem x).mp hx
      obtain ⟨hdr, hroot, hparent⟩ := h.waits r c hc
      obtain ⟨hdr', hhdr'⟩ := header_of_getSignedBlock hget
      refine ⟨?_, ?_⟩
      · rw [h.loads c x hget]
        exact (h.headers c hdr' hhdr').2
      · rw [h.parentRoot_eq hh hget hroot, hparent]
        exact hstate

/-- A new state is the derived one wherever there is one: the block is known by its root, and the
state of its parent agrees. -/
theorem Tracking.imported (hh : HashSound host) (hbody : Function.Injective host.body)
    (h : Tracking host s₀ blocks roots server queue) (hroot : host.block sb.message.block ∈ roots)
    {post : State H} {head : H} {s' : Store H}
    (hst : server.store.states.lookup (host.block sb.message.block) = none)
    (hpost : postState host server.store sb true = .ok post)
    (hframe : Frame { recordBlock host sb post server.store with head := head } s') :
    Tracking host s₀ blocks roots { server with store := s' } queue := by
  have hstates := lookup_states_of_import hframe
  have hold {r : H} {st : State H} (hr : server.store.states.lookup r = some st) :
      s'.states.lookup r = some st := by
    rw [hstates, if_neg]
    · exact hr
    · rintro rfl
      exact nomatch hst.symm.trans hr
  constructor
  case headers =>
    intro r hdr hhdr
    have hhdr' := (lookup_headers_of_import hframe r).symm.trans hhdr
    split at hhdr'
    · rename_i hr
      rw [hr, ← Option.some.inj hhdr']
      exact ⟨(hh.block_eq _).symm, hroot⟩
    · exact h.headers r hdr hhdr'
  case loads =>
    intro r x hx
    have hx' := (getSignedBlock_of_import hbody hframe r).symm.trans hx
    split at hx'
    · rename_i hr
      rw [hr, ← Option.some.inj hx']
    · exact h.loads r x hx'
  case waits => exact h.waits
  case anchor => exact fun r st hr ↦ hold (h.anchor r st hr)
  case agrees =>
    intro r st st' hr hderived
    change s'.states.lookup r = some st at hr
    rw [hstates] at hr
    split at hr
    · rename_i heq
      obtain rfl := Option.some.inj hr
      obtain ⟨parent, st₁, hparent, -, htrans, rfl⟩ := postState_eq_ok hpost
      rcases hderived.cases with h₀ | ⟨sb', -, parent', st₂, hr', hp', -, htrans', rfl⟩
      · rw [heq] at h₀
        exact nomatch hst.symm.trans (h.anchor _ _ h₀)
      · have hblock := hh.block_injective hbody (hr'.trans heq)
        rw [hblock] at hp' htrans' ⊢
        obtain rfl := h.agrees _ _ _ hparent hp'
        rw [Except.ok.inj (htrans'.symm.trans htrans)]
    · exact h.agrees r st st' hr hderived
  case closed =>
    intro r st hr
    change s'.states.lookup r = some st at hr
    rw [hstates] at hr
    split at hr
    · rename_i heq
      obtain ⟨parent, st₁, hparent, -⟩ := postState_eq_ok hpost
      exact .inr ⟨_, parent, by rw [heq, hh.block_eq], hold hparent⟩
    · rcases h.closed r st hr with h₀ | ⟨hdr, parent, hroot, hparent⟩
      · exact .inl h₀
      · exact .inr ⟨hdr, parent, hroot, hold hparent⟩
  case ready =>
    intro x hx
    obtain ⟨hmem, st, hparent⟩ := h.ready x hx
    exact ⟨hmem, st, hold hparent⟩

theorem Tracking.turn (hh : HashSound host) (hbody : Function.Injective host.body)
    (h : Tracking host s₀ blocks roots server queue) (hroot : host.block sb.message.block ∈ roots)
    (hturn : Turn server sb more server') : Tracking host s₀ blocks roots server' (queue ++ more) := by
  cases hturn with
  | pended hparent hstore hwaits hclimb =>
    exact (h.insertPendingBlock hh hbody hroot hstore hwaits).climbed hh hclimb
  | passed hparent hhandled hmore =>
    cases hhandled with
    | known hst => exact h.collected hh ⟨_, hst⟩ hmore
    | @imported post head s' hst hpost hframe =>
      refine (h.imported hh hbody hroot hst hpost hframe).collected hh ⟨post, ?_⟩ hmore
      exact (lookup_states_of_import hframe _).trans (if_pos rfl)
  | rejected hparent he =>
    rw [List.append_nil]
    exact h

theorem Tracking.tail (h : Tracking host s₀ blocks roots server (sb :: queue)) :
    Tracking host s₀ blocks roots server queue :=
  ⟨h.headers, h.loads, h.waits, h.anchor, h.agrees, h.closed,
    fun x hx ↦ h.ready x (List.mem_cons_of_mem sb hx)⟩

/-- What each turn keeps, the whole queue keeps. -/
theorem Tracking.drainQueue {ε : Type} (hh : HashSound host) (hbody : Function.Injective host.body)
    {P : Server host → List (SignedBlockWithAttestation H) → Prop}
    (hP : ∀ {server server' sb queue more}, Tracking host s₀ blocks roots server (sb :: queue) →
      P server (sb :: queue) → Turn server sb more server' → P server' (queue ++ more))
    {turns : ℕ} (h : Tracking host s₀ blocks roots server queue) (hp : P server queue)
    (hdrain : (Server.drainQueue host turns queue : Op (Server host) ε Unit) server =
      .ok (.ok (), server')) : Tracking host s₀ blocks roots server' [] ∧ P server' [] := by
  induction turns generalizing server queue with
  | zero =>
    cases queue with
    | nil =>
      obtain ⟨-, rfl⟩ := Prod.mk.inj (Except.ok.inj hdrain)
      exact ⟨h, hp⟩
    | cons sb queue => exact nomatch hdrain
  | succ turns ih =>
    cases queue with
    | nil =>
      obtain ⟨-, rfl⟩ := Prod.mk.inj (Except.ok.inj hdrain)
      exact ⟨h, hp⟩
    | cons sb queue =>
      obtain ⟨more, t, hprocess, hrest⟩ := Op.bind_eq_ok_ok.mp hdrain
      have hturn := turn_of_processOrPendBlock hprocess
      have hroot := (h.ready sb List.mem_cons_self).1
      exact ih (h.tail.turn hh hbody hroot hturn) (hP h hp hturn) hrest

/-- With few headers a delivered block is one turn of its own and then the queue that it leaves;
the prune at the end finds nothing to do. -/
theorem Tracking.deliver {turns : ℕ} (hh : HashSound host) (hbody : Function.Injective host.body)
    {P : Server host → List (SignedBlockWithAttestation H) → Prop}
    (hP : ∀ {server server' sb queue more}, Tracking host s₀ blocks roots server (sb :: queue) →
      P server (sb :: queue) → Turn server sb more server' → P server' (queue ++ more))
    (hfew : roots.length ≤ statesToKeep) (h : Tracking host s₀ blocks roots server [])
    (hroot : host.block sb.message.block ∈ roots)
    (hfirst : ∀ {more t}, Turn server sb more t → P t more)
    (hs : Server.deliver host server (turns, sb) = .ok server') :
    Tracking host s₀ blocks roots server' [] ∧ P server' [] := by
  obtain ⟨r, hr⟩ := Server.handle_of_step hs
  cases turns with
  | zero => exact nomatch hr
  | succ turns =>
    rcases Op.bind_eq_ok.mp hr with ⟨u, drained, hdrain, hrest⟩ | ⟨e, -, -⟩
    · obtain ⟨more, t, hprocess, hqueue⟩ := Op.bind_eq_ok_ok.mp hdrain
      have hturn := turn_of_processOrPendBlock hprocess
      have hend := (h.turn hh hbody hroot hturn).drainQueue hh hbody hP (hfirst hturn) hqueue
      have hkeys : drained.store.blockHeaders.keys.length ≤ roots.length := by
        refine (drained.store.blockHeaders.keys_nodup.subperm fun r hr ↦ ?_).length_le
        obtain ⟨hdr, hhdr⟩ := Table.mem_iff_lookup.mp (AList.mem_keys.mp hr)
        exact (hend.1.headers r hdr hhdr).2
      have hdue : NothingDue host drained.store := nothingDue_of_few (hkeys.trans hfew)
      obtain ⟨-, rfl⟩ := Prod.mk.inj (Except.ok.inj hrest)
      dsimp only
      rw [hdue.pruneOldData]
      exact hend
    · exact nomatch e

end Tracking

section Runs

variable {roots : List H} {ds : List (ℕ × SignedBlockWithAttestation H)}

theorem Tracking.run (hh : HashSound host) (hbody : Function.Injective host.body)
    (hfew : roots.length ≤ statesToKeep) (h : Tracking host s₀ blocks roots server [])
    (hroots : ∀ d ∈ ds, host.block d.2.message.block ∈ roots)
    (hrun : Runs.run (Server.deliver host) server ds = .ok server') :
    Tracking host s₀ blocks roots server' [] := by
  refine Runs.run_invariant_of_trace
    (P := fun server ↦ Tracking host s₀ blocks roots server [])
    (C := fun p ↦ host.block p.2.2.message.block ∈ roots) ?_ h
    (fun p hp ↦ hroots p.2 (Runs.mem_of_mem_trace hp)) hrun
  intro server d server' h hroot hs
  exact (h.deliver (P := fun _ _ ↦ True) hh hbody (fun _ _ _ ↦ trivial) hfew hroot
    (fun _ ↦ trivial) hs).1

/-- The roots of the anchor and of all delivered blocks. -/
def seenRoots (host : Host H) (s₀ : Store H) (ds : List (ℕ × SignedBlockWithAttestation H)) : List H :=
  (s₀.head :: ds.map fun d ↦ host.block d.2.message.block).dedup

theorem mem_seenRoots {d : ℕ × SignedBlockWithAttestation H} (hd : d ∈ ds) :
    host.block d.2.message.block ∈ seenRoots host s₀ ds :=
  List.mem_dedup.mpr (List.mem_cons_of_mem _ (List.mem_map_of_mem hd))

theorem tracking_spawn (hh : HashSound host) {anchor : State H} (hs₀ : Fresh host s₀ anchor)
    (keys : Table UInt64 host.SecretKey) (isAggregator : Bool)
    (blocks : List (SignedBlockWithAttestation H)) (hhead : s₀.head ∈ roots) :
    Tracking host s₀ blocks roots (Server.spawn host s₀ keys isAggregator) [] := by
  constructor
  case headers =>
    intro r hdr hhdr
    obtain ⟨hroot, rfl⟩ := hs₀.headers r hdr hhdr
    exact ⟨hroot, hhead⟩
  case loads => exact fun r x hx ↦ nomatch (hs₀.unsigned r).symm.trans hx
  case waits =>
    rintro p c ⟨children, hlookup, -⟩
    exact nomatch hlookup
  case anchor => exact fun r st hr ↦ hr
  case agrees => exact fun r st st' hr hderived ↦ hderived.eq_anchor hh hs₀ hr
  case closed => exact fun r st hr ↦ .inl ⟨st, hr⟩
  case ready => exact fun x hx ↦ absurd hx List.not_mem_nil

end Runs

section Sample

def dataCode (d : AttestationData ℕ) : ℕ × (ℕ × ℕ) × (ℕ × ℕ) × ℕ × ℕ :=
  (d.slot.toNat, (d.head.root, d.head.slot.toNat), (d.target.root, d.target.slot.toNat),
    d.source.root, d.source.slot.toNat)

def bodyCode (b : BlockBody ℕ) : ℕ :=
  Encodable.encode (b.attestations.toList.map fun a ↦ (a.aggregationBits.toList, dataCode a.data))

theorem bodyCode_injective : Function.Injective bodyCode := by
  rintro ⟨⟨l, hl⟩⟩ ⟨⟨l', hl'⟩⟩ h
  have hcode : Function.Injective fun a : AggregatedAttestation ℕ ↦
      (a.aggregationBits.toList, dataCode a.data) := by
    rintro ⟨⟨bits, hbits⟩, ⟨slot, ⟨hr, hs⟩, ⟨tr, ts⟩, ⟨sr, ss⟩⟩⟩
      ⟨⟨bits', hbits'⟩, ⟨slot', ⟨hr', hs'⟩, ⟨tr', ts'⟩, ⟨sr', ss'⟩⟩⟩ heq
    simp only [dataCode, Prod.mk.injEq, UInt64.toNat_inj] at heq
    obtain ⟨rfl, rfl, ⟨rfl, rfl⟩, ⟨rfl, rfl⟩, rfl, rfl⟩ := heq
    rfl
  obtain rfl : l = l' := List.map_injective_iff.mpr hcode (Encodable.encode_injective h)
  rfl

/-- The sample node with a hash that tells all bodies apart. -/
def distinctHost : Host ℕ :=
  { sampleHost with
    body := bodyCode
    block := fun b ↦ 1 + Nat.pair b.parentRoot (Nat.pair b.stateRoot (Nat.pair (bodyCode b.body)
      (Nat.pair b.slot.toNat b.proposerIndex.toNat))) }

theorem distinctHost_hashSound : HashSound distinctHost where
  collisionFree := ⟨sampleHash_collisionFree.header_injective,
    sampleHash_collisionFree.header_ne_zero⟩
  block_eq := fun _ ↦ rfl

theorem distinctHost_anchor : Anchor distinctHost sampleGenesis :=
  ⟨0, sampleValidators, sampleGenesis, [], sampleGenesis, 0, rfl, rfl, rfl⟩

theorem distinctHost_initStore : Store.initStore distinctHost sampleGenesis none = .ok sampleStore :=
  sampleStore_eq

def sampleChain : List (SignedBlockWithAttestation ℕ) := [sampleFirst, sampleLate]

/-- The states of the two blocks, as far as the blocks are valid. -/
def sampleStates : Option (State ℕ × State ℕ) := do
  let anchor := (Store.anchor distinctHost sampleGenesis).1
  let _ ← (verifySignatures distinctHost anchor sampleFirst).toOption
  let first ← (stateTransition distinctHost.toTreeHash anchor sampleFirst.message.block).toOption
  let parent := withStateRoot first sampleFirst.message.block.stateRoot
  let _ ← (verifySignatures distinctHost parent sampleLate).toOption
  let late ← (stateTransition distinctHost.toTreeHash parent sampleLate.message.block).toOption
  some (first, late)

theorem sampleChain_valid : ∀ sb ∈ sampleChain, Valid distinctHost sampleStore sampleChain sb := by
  have hview : sampleStates.isSome = true := by decide +kernel
  obtain ⟨p, hp⟩ := Option.isSome_iff_exists.mp hview
  unfold sampleStates at hp
  obtain ⟨_, hverify, hp⟩ := Option.bind_eq_some_iff.mp hp
  obtain ⟨first, hfirst, hp⟩ := Option.bind_eq_some_iff.mp hp
  obtain ⟨_, hverify', hp⟩ := Option.bind_eq_some_iff.mp hp
  obtain ⟨late, hlate, -⟩ := Option.bind_eq_some_iff.mp hp
  have hs₀ := fresh_initStore distinctHost_hashSound distinctHost_anchor distinctHost_initStore
  have hanchor : Derived distinctHost sampleStore sampleChain sampleFirst.message.block.parentRoot
      (Store.anchor distinctHost sampleGenesis).1 := .anchor ((hs₀.states _ _).mpr ⟨rfl, rfl⟩)
  have hparent := hanchor.block List.mem_cons_self (Exec.eq_ok_of_toOption hverify)
    (Exec.eq_ok_of_toOption hfirst)
  intro sb hsb
  simp only [sampleChain, List.mem_cons, List.not_mem_nil, or_false] at hsb
  rcases hsb with rfl | rfl
  · exact ⟨_, first, hanchor, Exec.eq_ok_of_toOption hverify, Exec.eq_ok_of_toOption hfirst⟩
  · exact ⟨_, late, hparent, Exec.eq_ok_of_toOption hverify', Exec.eq_ok_of_toOption hlate⟩

def distinctServer : Server distinctHost := Server.spawn distinctHost sampleStore ∅ false

end Sample

end Ethlambda.Chain
