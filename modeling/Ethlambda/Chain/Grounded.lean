import Ethlambda.Chain.Crash
import Ethlambda.Chain.Pending

namespace Ethlambda.Chain

open Ethlambda.Base Ethlambda.Types Ethlambda.Storage Ethlambda.StateTransition Ethlambda.ForkChoice

set_option linter.unusedSectionVars false

variable {H : Type} [LinearOrder H] [Zero H] {host : Host H} {s s' : Store H} {ε : Type}
  {sb : SignedBlockWithAttestation H}

/-- The tables hold nothing but what blocks and anchors brought, each under its own root. -/
structure Grounded (host : Host H) (s : Store H) : Prop where
  states : ∀ r st, s.states.lookup r = some st → Stored host r st
  headers : ∀ r hdr, s.blockHeaders.lookup r = some hdr → host.header hdr = r
  live : ∀ slot r p, s.liveChain.lookup (slot, r) = some p →
    ∃ st, Stored host r st ∧ st.slot = slot ∧ st.latestBlockHeader.parentRoot = p
  loads : ∀ r x, s.getSignedBlock host r = some x → host.block x.message.block = r
  signed : ∀ r sigs, s.blockSignatures.lookup r = some sigs →
    ∃ hdr, s.blockHeaders.lookup r = some hdr

section Grounded

theorem Grounded.frame (h : Grounded host s) (hf : Frame s s') : Grounded host s' := by
  constructor
  case states => rw [hf.states]; exact h.states
  case headers => rw [hf.headers]; exact h.headers
  case live => rw [hf.liveChain]; exact h.live
  case loads =>
    intro r x hx
    rw [getSignedBlock_congr host hf.headers hf.bodies hf.signatures] at hx
    exact h.loads r x hx
  case signed => rw [hf.signatures, hf.headers]; exact h.signed

/-- A block is put together from its header, its signatures and the empty or the stored body. -/
structure Assembled (host : Host H) (s : Store H) (r : H) (x : SignedBlockWithAttestation H)
    (hdr : BlockHeader H) (sigs : BlockSignaturesWithAttestation H) (body : BlockBody H) : Prop where
  header : s.blockHeaders.lookup r = some hdr
  signatures : s.blockSignatures.lookup r = some sigs
  read : if hdr.bodyRoot = host.body .default then body = .default
    else s.blockBodies.lookup r = some body
  block : x = sigs.toSignedBlock (.fromHeaderAndBody hdr body)

theorem getSignedBlock_eq_some {r : H} {x : SignedBlockWithAttestation H} :
    s.getSignedBlock host r = some x ↔ ∃ hdr sigs body, Assembled host s r x hdr sigs body := by
  unfold Store.getSignedBlock
  constructor
  · intro h
    obtain ⟨hdr, hhdr, h⟩ := Option.bind_eq_some_iff.mp h
    obtain ⟨sigs, hsigs, h⟩ := Option.bind_eq_some_iff.mp h
    dsimp only at h
    split at h
    · rename_i hempty
      exact ⟨hdr, sigs, .default, hhdr, hsigs, by rw [if_pos hempty], (Option.some.inj h).symm⟩
    · rename_i hempty
      obtain ⟨body, hbody, h⟩ := Option.bind_eq_some_iff.mp h
      exact ⟨hdr, sigs, body, hhdr, hsigs, by rw [if_neg hempty, hbody], (Option.some.inj h).symm⟩
  · rintro ⟨hdr, sigs, body, hhdr, hsigs, hbody, rfl⟩
    rw [hhdr, hsigs]
    dsimp only [Option.bind_eq_bind, Option.bind_some]
    split at hbody
    · rename_i hempty
      rw [if_pos hempty, hbody]
      rfl
    · rename_i hempty
      rw [if_neg hempty, hbody]
      rfl

theorem Assembled.parentRoot_eq {r : H} {x : SignedBlockWithAttestation H} {hdr : BlockHeader H}
    {sigs : BlockSignaturesWithAttestation H} {body : BlockBody H}
    (h : Assembled host s r x hdr sigs body) : x.message.block.parentRoot = hdr.parentRoot := by
  rw [h.block]
  rfl

theorem parentRoot_of_getSignedBlock {r : H} {x : SignedBlockWithAttestation H}
    {hdr : BlockHeader H} (hhdr : s.blockHeaders.lookup r = some hdr)
    (h : s.getSignedBlock host r = some x) : x.message.block.parentRoot = hdr.parentRoot := by
  obtain ⟨hdr', sigs, body, hx⟩ := getSignedBlock_eq_some.mp h
  obtain rfl := Option.some.inj (hhdr.symm.trans hx.header)
  exact hx.parentRoot_eq

/-- What is read from the root of a block that was written there has this root, whichever body is
read. -/
theorem loads_writeSignedBlock (hh : HashSound host) {root r : H}
    {x : SignedBlockWithAttestation H} (hroot : root = host.block sb.message.block)
    (hold : ∀ r x, s.getSignedBlock host r = some x → host.block x.message.block = r)
    (h : (s.writeSignedBlock host root sb).getSignedBlock host r = some x) :
    host.block x.message.block = r := by
  obtain ⟨hdr, sigs, body, hhdr, hsigs, hbody, rfl⟩ := getSignedBlock_eq_some.mp h
  unfold Store.writeSignedBlock at hhdr hsigs hbody
  dsimp only at hhdr hsigs hbody
  rw [Table.lookup_insert_eq_ite] at hhdr hsigs
  by_cases hr : r = root
  · rw [if_pos hr] at hhdr hsigs
    obtain rfl := Option.some.inj hhdr
    have hsame : host.body body = host.body sb.message.block.body := by
      split at hbody
      · rename_i hempty
        rw [hbody]
        exact hempty.symm
      · rename_i hne
        rw [hr, AList.lookup_insert] at hbody
        rw [Option.some.inj hbody]
    rw [hr, hroot, hh.block_eq, hh.block_eq]
    simp only [BlockSignaturesWithAttestation.toSignedBlock, Block.fromHeaderAndBody, Block.header,
      hsame]
  · rw [if_neg hr] at hhdr hsigs
    refine hold r _ (getSignedBlock_eq_some.mpr ⟨hdr, sigs, body, hhdr, hsigs, ?_, rfl⟩)
    split
    · rename_i hempty
      rwa [if_pos hempty] at hbody
    · rename_i hempty
      rw [if_neg hempty] at hbody
      split at hbody
      · rwa [AList.lookup_insert_ne hr] at hbody
      · exact hbody

theorem Grounded.writeSignedBlock (hh : HashSound host) (h : Grounded host s)
    (sb : SignedBlockWithAttestation H) :
    Grounded host (s.writeSignedBlock host (host.block sb.message.block) sb) := by
  constructor
  case states => exact h.states
  case headers =>
    intro r hdr hhdr
    have hhdr' : (s.blockHeaders.insert (host.block sb.message.block)
      (sb.message.block.header host.toTreeHash)).lookup r = some hdr := hhdr
    rw [Table.lookup_insert_eq_ite] at hhdr'
    split at hhdr'
    · rename_i hr
      rw [hr, ← Option.some.inj hhdr', hh.block_eq]
    · exact h.headers r hdr hhdr'
  case live => exact h.live
  case loads => exact fun r x hx ↦ loads_writeSignedBlock hh rfl h.loads hx
  case signed =>
    intro r sigs hsigs
    have hsigs' : (s.blockSignatures.insert (host.block sb.message.block)
      ⟨sb.message.proposerAttestation, sb.signature⟩).lookup r = some sigs := hsigs
    change ∃ hdr, (s.blockHeaders.insert _ _).lookup r = some hdr
    rw [Table.lookup_insert_eq_ite] at hsigs' ⊢
    split at hsigs'
    · rename_i hr
      exact ⟨_, if_pos hr⟩
    · rename_i hr
      rw [if_neg hr]
      exact h.signed r sigs hsigs'

theorem Grounded.adopt (h : Grounded host s) (post : State H) :
    Grounded host (adoptCheckpoints host s post) := by
  have ha := adopted host s post
  constructor
  case states => rw [ha.states]; exact h.states
  case headers => rw [ha.headers]; exact h.headers
  case live => exact fun slot r p hp ↦ h.live slot r p (ha.live_of _ p hp)
  case loads =>
    intro r x hx
    rw [getSignedBlock_congr host ha.headers ha.bodies ha.signatures] at hx
    exact h.loads r x hx
  case signed => rw [ha.signatures, ha.headers]; exact h.signed

/-- A new state and its entry in the live chain. -/
theorem Grounded.insertState (h : Grounded host s) {block : Block H} {post : State H}
    (hpost : Stored host (host.block block) post) (hslot : post.slot = block.slot)
    (hparent : post.latestBlockHeader.parentRoot = block.parentRoot) :
    Grounded host { s with
      states := s.states.insert (host.block block) post
      liveChain := s.liveChain.insert (block.slot, host.block block) block.parentRoot } := by
  refine ⟨fun r st hst ↦ ?_, h.headers, fun slot r p hp ↦ ?_, h.loads, h.signed⟩
  · dsimp only at hst
    rw [Table.lookup_insert_eq_ite] at hst
    split at hst
    · rename_i hr
      rw [hr, ← Option.some.inj hst]
      exact hpost
    · exact h.states r st hst
  · dsimp only at hp
    rw [Table.lookup_insert_eq_ite] at hp
    split at hp
    · rename_i heq
      obtain ⟨rfl, rfl⟩ := Prod.mk.inj heq
      exact ⟨post, hpost, hslot, hparent.trans (Option.some.inj hp)⟩
    · exact h.live slot r p hp

theorem Grounded.recordBlock (hh : HashSound host) (h : Grounded host s) {verify : Bool}
    {post : State H} (hpost : postState host s sb verify = .ok post) :
    Grounded host (recordBlock host sb post s) := by
  obtain ⟨parent, st, hparent, -, hst, rfl⟩ := postState_eq_ok hpost
  have hp := h.states _ parent hparent
  obtain ⟨hstored, hslot, -⟩ := hp.transition hh hst
  obtain ⟨-, -, hheader, -⟩ := hp.wellformed.transition_header hh.collisionFree hst
  have hlink : (withStateRoot st sb.message.block.stateRoot).latestBlockHeader.parentRoot =
      sb.message.block.parentRoot := by
    rw [withStateRoot, hheader]
  have hadopt := h.adopt (withStateRoot st sb.message.block.stateRoot)
  unfold Chain.recordBlock
  generalize adoptCheckpoints host s (withStateRoot st sb.message.block.stateRoot) = t at hadopt ⊢
  have hrec := (hadopt.writeSignedBlock hh sb).insertState hstored hslot hlink
  exact ⟨hrec.states, hrec.headers, hrec.live, hrec.loads, hrec.signed⟩

theorem grounded_steady (hh : HashSound host) : Steady host (Grounded host) where
  frame := fun h hf ↦ h.frame hf
  head := fun h _ ↦ ⟨h.states, h.headers, h.live, h.loads, h.signed⟩
  safeTarget := fun h _ ↦ ⟨h.states, h.headers, h.live, h.loads, h.signed⟩
  record := by
    intro ε s t sb verify post r h hpost ht _
    have hrec := h.recordBlock hh hpost
    rw [ht] at hrec
    exact ⟨hrec.states, hrec.headers, hrec.live, hrec.loads, hrec.signed⟩
  pending := fun sb h ↦ h.writeSignedBlock hh sb

theorem lookup_of_deleteBatch {V : Type} {keys : List H} {t : Table H V} {r : H} {v : V}
    (hr : (Table.deleteBatch keys t).lookup r = some v) : r ∉ keys ∧ t.lookup r = some v := by
  rw [Table.lookup_deleteBatch] at hr
  split at hr
  · exact nomatch hr
  · rename_i hmem
    exact ⟨hmem, hr⟩

/-- A block that can be read after a prune could be read before. -/
theorem getSignedBlock_of_pruneOldData {r : H} {x : SignedBlockWithAttestation H}
    (h : (s.pruneOldData host).getSignedBlock host r = some x) : s.getSignedBlock host r = some x := by
  obtain ⟨hdr, sigs, body, hhdr, hsigs, hbody, rfl⟩ := getSignedBlock_eq_some.mp h
  refine getSignedBlock_eq_some.mpr ⟨hdr, sigs, body, lookup_headers_of_pruneOldData hhdr,
    (lookup_of_deleteBatch hsigs).2, ?_, rfl⟩
  split
  · rename_i hempty
    rwa [if_pos hempty] at hbody
  · rename_i hempty
    rw [if_neg hempty] at hbody
    exact (lookup_of_deleteBatch hbody).2

theorem Grounded.pruneOldData (h : Grounded host s) : Grounded host (s.pruneOldData host) := by
  constructor
  case states => exact fun r st hst ↦ h.states r st (lookup_states_of_pruneOldData hst)
  case headers => exact fun r hdr hhdr ↦ h.headers r hdr (lookup_headers_of_pruneOldData hhdr)
  case live => exact h.live
  case loads => exact fun r x hx ↦ h.loads r x (getSignedBlock_of_pruneOldData hx)
  case signed =>
    intro r sigs hsigs
    obtain ⟨hkept, hold⟩ := lookup_of_deleteBatch hsigs
    obtain ⟨hdr, hhdr⟩ := h.signed r sigs hold
    exact ⟨hdr, (Table.lookup_deleteBatch _ _ r).trans ((if_neg hkept).trans hhdr)⟩

theorem grounded_initStore (hh : HashSound host) {st : State H} (hst : Anchor host st)
    {body : Option (BlockBody H)} (h : Store.initStore host st body = .ok s) : Grounded host s := by
  have htree := blockTree_initStore hh hst h
  have hfresh := initStore_signatures h
  refine ⟨htree.states, htree.headers, htree.live, fun r x hx ↦ ?_, fun r sigs hsigs ↦ ?_⟩
  · obtain ⟨hdr, sigs, body, hx⟩ := getSignedBlock_eq_some.mp hx
    exact nomatch (hfresh r).symm.trans hx.signatures
  · exact nomatch (hfresh r).symm.trans hsigs

/-- A restart adds an anchor to what is there. -/
theorem Grounded.reopen (hh : HashSound host) (h : Grounded host s) {st : State H}
    (hst : Anchor host st) (hr : reopen host s st none = .ok s') : Grounded host s' := by
  have hstored := stored_anchor hh hst
  unfold Chain.reopen at hr
  dsimp only at hr
  split at hr
  · obtain rfl := Except.ok.inj hr
    set root := (Store.anchor host st).2 with hroot
    set header := (Store.anchor host st).1.latestBlockHeader with hheader
    have hheaders (r : H) (hdr : BlockHeader H)
        (hhdr : (s.blockHeaders.insert root header).lookup r = some hdr) : host.header hdr = r := by
      rw [Table.lookup_insert_eq_ite] at hhdr
      split at hhdr
      · rename_i heq
        rw [← Option.some.inj hhdr, heq]
        rfl
      · exact h.headers r hdr hhdr
    constructor
    case states =>
      intro r st' hst'
      dsimp only at hst'
      rw [Table.lookup_insert_eq_ite] at hst'
      split at hst'
      · rename_i heq
        rw [← Option.some.inj hst', heq]
        exact hstored
      · exact h.states r st' hst'
    case headers => exact hheaders
    case live =>
      intro slot r p hp
      dsimp only at hp
      rw [Table.lookup_insert_eq_ite] at hp
      split at hp
      · rename_i heq
        obtain ⟨rfl, rfl⟩ := Prod.mk.inj heq
        exact ⟨_, hstored, hstored.wellformed.slot_eq, Option.some.inj hp⟩
      · exact h.live slot r p hp
    case loads =>
      intro r x hx
      obtain ⟨hdr, sigs, body, hhdr, hsigs, hbody, rfl⟩ := getSignedBlock_eq_some.mp hx
      -- what is signed had a header before, and it is the same
      obtain ⟨hdr', hhdr'⟩ := h.signed r sigs hsigs
      obtain rfl : hdr = hdr' := hh.collisionFree.header_injective
        ((hheaders r hdr hhdr).trans (h.headers r hdr' hhdr').symm)
      exact h.loads r _ (getSignedBlock_eq_some.mpr ⟨hdr, sigs, body, hhdr', hsigs, hbody, rfl⟩)
    case signed =>
      intro r sigs hsigs
      obtain ⟨hdr, hhdr⟩ := h.signed r sigs hsigs
      exact exists_lookup_insert ⟨hdr, hhdr⟩
  · exact nomatch hr

end Grounded

section Import

theorem okOr_ne_panic {α : Type} {e : ε} {x : Option α} {p : Panic} : okOr e x ≠ Exec.panic p := by
  cases x with
  | none => exact nofun
  | some a => exact nofun

theorem Grounded.postState_ne_diverge (h : Grounded host s) :
    postState host s sb true ≠ Exec.panic .diverge := by
  unfold postState
  refine Exec.bind_ne_panic okOr_ne_panic fun parent hparent ↦ ?_
  refine Exec.bind_ne_panic ?_ fun _ _ ↦ Exec.bind_ne_panic ?_ fun _ _ ↦ nofun
  · rw [if_pos rfl]
    exact (verifySignatures_raises parent).ne_panic nofun
  · have hstored := h.states _ parent (okOr_eq_ok.mp hparent)
    have hnp := hstored.wellformed.stateTransition_noPanic sb.message.block
    exact (Exec.noPanic_mapError _).mpr hnp .diverge

theorem Grounded.updateHead_ends (hh : HashSound host) (h : Grounded host s) :
    Op.Ends (updateHead host : Op (Store H) ε Unit) s := by
  refine Op.ends_bind (Op.ends_of_eq rfl) fun t t' ht ↦ ?_
  obtain ⟨hs, rfl⟩ := Prod.mk.inj (Except.ok.inj ht)
  obtain rfl : s = t := Except.ok.inj hs
  have hord := LiveStored.ordered_getLiveChain hh h.live
  exact Op.ends_bind (Op.ends_lift s (computeLmdGhostHead_ne_diverge hord)) fun _ _ _ ↦ Op.ends_of_eq rfl

theorem recordProposerVote_ends (ids : List UInt64) :
    Op.Ends (recordProposerVote host sb true ids) s := by
  unfold recordProposerVote
  rw [Bool.not_true, if_neg Bool.false_ne_true]
  split
  · exact Op.ends_bind (Op.ends_lift s okOr_ne_panic) fun _ _ _ ↦ Op.ends_of_eq rfl
  · exact Op.ends_of_eq rfl

/-- The import of one block comes to an end. -/
theorem Grounded.onBlock_ends (hh : HashSound host) (h : Grounded host s) (ids : List UInt64) :
    Op.Ends (onBlock host sb ids) s := by
  unfold onBlock onBlockCore Op.Ends
  rw [Op.get_bind]
  split
  · exact nofun
  · refine Op.ends_bind (Op.ends_lift s (h.postState_ne_diverge)) fun post t hpost ↦ ?_
    obtain ⟨hpost, rfl⟩ := Op.lift_eq_ok_ok.mp hpost
    unfold Op.Ends
    rw [Op.modify_bind]
    refine Op.ends_bind ((h.recordBlock hh hpost).updateHead_ends hh) fun _ u _ ↦ ?_
    exact recordProposerVote_ends ids

end Import

end Ethlambda.Chain
