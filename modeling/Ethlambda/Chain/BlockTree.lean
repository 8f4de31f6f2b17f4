import Ethlambda.Chain.Import
import Ethlambda.StateTransition.Checkpoints
import Mathlib.Data.List.TakeWhile

namespace Ethlambda.Chain

open Ethlambda.Base Ethlambda.Types Ethlambda.Storage Ethlambda.StateTransition Ethlambda.ForkChoice

set_option linter.unusedSectionVars false

variable {H : Type} [LinearOrder H] [Zero H]

/-- Roots identify headers, and a block has the root of its header. -/
structure HashSound (host : Host H) : Prop where
  collisionFree : host.toTreeHash.CollisionFree
  block_eq : ∀ b, host.block b = host.header (b.header host.toTreeHash)

/-- A state that belongs under the root `r`. -/
structure Stored (host : Host H) (r : H) (st : State H) : Prop where
  wellformed : Wellformed host.toTreeHash st.validators.toList.length st
  named : Named st
  root_eq : host.header (cachedHeader host.toTreeHash st) = r
  origin : st.latestBlockHeader.slot.toNat = 0 → st.latestBlockHeader.parentRoot = 0

/-- The live chain and the stored states describe one tree of blocks. A live block had a state when
it came in, which may be gone by now. -/
structure BlockTree (host : Host H) (s : Store H) : Prop where
  states : ∀ r st, s.states.lookup r = some st → Stored host r st
  headers : ∀ r h, s.blockHeaders.lookup r = some h → host.header h = r
  live : ∀ slot r p, s.liveChain.lookup (slot, r) = some p →
    ∃ st, Stored host r st ∧ st.slot = slot ∧ st.latestBlockHeader.parentRoot = p
  listed : ∀ r st, s.states.lookup r = some st → s.latestFinalized.slot ≤ st.slot →
    ∃ p, s.liveChain.lookup (st.slot, r) = some p
  ancestors : ∀ r st i x, s.states.lookup r = some st →
    st.historicalBlockHashes.toList[i]? = some x → x ≠ 0 → s.latestFinalized.slot.toNat ≤ i →
    ∃ slot p, slot.toNat = i ∧ s.liveChain.lookup (slot, x) = some p
  ordered : s.latestFinalized.slot ≤ s.latestJustified.slot
  justified : ∃ p, s.liveChain.lookup (s.latestJustified.slot, s.latestJustified.root) = some p
  finalized : ∃ p, s.liveChain.lookup (s.latestFinalized.slot, s.latestFinalized.root) = some p

structure Frame (s s' : Store H) : Prop where
  config : s'.config = s.config
  states : s'.states = s.states
  headers : s'.blockHeaders = s.blockHeaders
  bodies : s'.blockBodies = s.blockBodies
  signatures : s'.blockSignatures = s.blockSignatures
  liveChain : s'.liveChain = s.liveChain
  justified : s'.latestJustified = s.latestJustified
  finalized : s'.latestFinalized = s.latestFinalized
  head : s'.head = s.head
  safeTarget : s'.safeTarget = s.safeTarget

variable {host : Host H} {s s' : Store H}

theorem BlockTree.congr (h : BlockTree host s) (hs : s'.states = s.states)
    (hh : s'.blockHeaders = s.blockHeaders) (hl : s'.liveChain = s.liveChain)
    (hj : s'.latestJustified = s.latestJustified) (hf : s'.latestFinalized = s.latestFinalized) :
    BlockTree host s' := by
  constructor
  case states => rw [hs]; exact h.states
  case headers => rw [hh]; exact h.headers
  case live => rw [hl]; exact h.live
  case listed => rw [hs, hl, hf]; exact h.listed
  case ancestors => rw [hs, hl, hf]; exact h.ancestors
  case ordered => rw [hf, hj]; exact h.ordered
  case justified => rw [hl, hj]; exact h.justified
  case finalized => rw [hl, hf]; exact h.finalized

theorem BlockTree.frame (h : BlockTree host s) (hf : Frame s s') : BlockTree host s' :=
  h.congr hf.states hf.headers hf.liveChain hf.justified hf.finalized

section LiveChain

theorem Stored.header_eq (hh : HashSound host) {r : H} {st : State H} {hdr : BlockHeader H}
    (h : Stored host r st) (hhdr : host.header hdr = r) : hdr = cachedHeader host.toTreeHash st := by
  apply hh.collisionFree.header_injective
  rw [hhdr, h.root_eq]

/-- A root has one slot and one parent, whatever state it is read from. -/
theorem Stored.unique (hh : HashSound host) {r : H} {st st' : State H} (h : Stored host r st)
    (h' : Stored host r st') :
    st.slot = st'.slot ∧ st.latestBlockHeader.parentRoot = st'.latestBlockHeader.parentRoot := by
  have heq := h'.header_eq hh h.root_eq
  rw [h.wellformed.slot_eq, h'.wellformed.slot_eq, ← cachedHeader_slot host.toTreeHash st,
    ← cachedHeader_slot host.toTreeHash st', ← cachedHeader_parentRoot host.toTreeHash st,
    ← cachedHeader_parentRoot host.toTreeHash st', heq]
  exact ⟨rfl, rfl⟩

/-- Every entry of the live chain is a block that had a state. -/
def LiveStored (host : Host H) (s : Store H) : Prop :=
  ∀ slot r p, s.liveChain.lookup (slot, r) = some p →
    ∃ st, Stored host r st ∧ st.slot = slot ∧ st.latestBlockHeader.parentRoot = p

theorem LiveStored.slot_unique (hh : HashSound host) (h : LiveStored host s) {a b : UInt64}
    {r p q : H} (ha : s.liveChain.lookup (a, r) = some p) (hb : s.liveChain.lookup (b, r) = some q) :
    a = b := by
  obtain ⟨st, hst, rfl, -⟩ := h a r p ha
  obtain ⟨st', hst', rfl, -⟩ := h b r q hb
  exact (hst.unique hh hst').1

theorem BlockTree.slot_unique (hh : HashSound host) (h : BlockTree host s) {a b : UInt64}
    {r p q : H} (ha : s.liveChain.lookup (a, r) = some p) (hb : s.liveChain.lookup (b, r) = some q) :
    a = b := LiveStored.slot_unique hh h.live ha hb

/-- Where a root has one slot, fork choice sees exactly the live blocks, in whatever order the table
is read. -/
theorem lookup_getLiveChain_iff (host : Host H) (huniq : ∀ {a b : UInt64} {r p q : H},
      s.liveChain.lookup (a, r) = some p → s.liveChain.lookup (b, r) = some q → a = b)
    {slot : UInt64} {r p : H} :
    (s.getLiveChain host).lookup r = some (slot, p) ↔ s.liveChain.lookup (slot, r) = some p := by
  unfold Store.getLiveChain
  have hperm : (host.order (Table.pairs s.liveChain)).Perm (Table.pairs s.liveChain) :=
    host.order_perm _
  rw [Table.lookup_ofPairs]
  · rw [List.mem_map]
    constructor
    · rintro ⟨⟨⟨slot', r'⟩, p'⟩, hmem, heq⟩
      simp only [Prod.mk.injEq] at heq
      obtain ⟨rfl, rfl, rfl⟩ := heq
      exact Table.mem_pairs.mp (hperm.mem_iff.mp hmem)
    · intro hlookup
      exact ⟨((slot, r), p), hperm.mem_iff.mpr (Table.mem_pairs.mpr hlookup), rfl⟩
  · rw [List.map_map]
    refine ((hperm.map _).nodup_iff).mpr ?_
    have hkeys : (Table.pairs s.liveChain).Nodup := by
      refine List.Nodup.of_map Prod.fst ?_
      rw [Table.map_fst_pairs]
      exact s.liveChain.keys_nodup
    refine (List.nodup_map_iff_inj_on hkeys).mpr ?_
    rintro ⟨⟨a, r₁⟩, p₁⟩ h₁ ⟨⟨b, r₂⟩, p₂⟩ h₂ heq
    obtain rfl : r₁ = r₂ := heq
    have hl₁ := Table.mem_pairs.mp h₁
    have hl₂ := Table.mem_pairs.mp h₂
    obtain rfl := huniq hl₁ hl₂
    rw [hl₁] at hl₂
    rw [Option.some.inj hl₂]

/-- Fork choice sees exactly the live blocks, each under its own root. -/
theorem BlockTree.lookup_getLiveChain (hh : HashSound host) (h : BlockTree host s) {slot : UInt64}
    {r p : H} :
    (s.getLiveChain host).lookup r = some (slot, p) ↔ s.liveChain.lookup (slot, r) = some p :=
  lookup_getLiveChain_iff host (h.slot_unique hh)

/-- A live block comes after its parent. -/
theorem LiveStored.ordered_getLiveChain (hh : HashSound host) (h : LiveStored host s) :
    Ordered (s.getLiveChain host) := by
  intro r slot p hr slot' p' hp
  rw [lookup_getLiveChain_iff host (h.slot_unique hh)] at hr hp
  obtain ⟨st, hst, rfl, rfl⟩ := h slot r p hr
  obtain ⟨st', hst', rfl, -⟩ := h slot' _ p' hp
  rw [UInt64.lt_iff_toNat_lt, hst.wellformed.slot_eq, hst'.wellformed.slot_eq,
    ← cachedHeader_slot host.toTreeHash st']
  rcases hst.wellformed.aligned.header_linked with hzero | ⟨q, hq, hhist, hne, -⟩
  · have hroot := hst'.root_eq
    rw [hst.origin hzero] at hroot
    exact absurd hroot (hh.collisionFree.header_ne_zero _)
  · obtain ⟨par, hslot, hpar, -⟩ := hst.wellformed.aligned.history_linked q _ hhist hne
    rw [← hst'.header_eq hh hpar, hslot]
    exact hq

theorem BlockTree.ordered_getLiveChain (hh : HashSound host) (h : BlockTree host s) :
    Ordered (s.getLiveChain host) := LiveStored.ordered_getLiveChain hh h.live

theorem BlockTree.justified_ne_zero (hh : HashSound host) (h : BlockTree host s) :
    s.latestJustified.root ≠ 0 := by
  obtain ⟨p, hp⟩ := h.justified
  obtain ⟨st, hst, -⟩ := h.live _ _ p hp
  rw [← hst.root_eq]
  exact hh.collisionFree.header_ne_zero _

theorem BlockTree.start_mem (hh : HashSound host) (h : BlockTree host s) :
    ∃ e, (s.getLiveChain host).lookup s.latestJustified.root = some e := by
  obtain ⟨p, hp⟩ := h.justified
  exact ⟨_, (h.lookup_getLiveChain hh).mpr hp⟩

theorem BlockTree.computeLmdGhostHead_live {ε : Type} (hh : HashSound host) (h : BlockTree host s)
    {attestations : Table UInt64 (AttestationData H)} {minScore : ℕ} {r : H × Weights H}
    (hr : (computeLmdGhostHead host s.latestJustified.root (s.getLiveChain host) attestations
      minScore : Exec ε (H × Weights H)) = .ok r) :
    ∃ slot p, s.liveChain.lookup (slot, r.1) = some p := by
  obtain ⟨⟨slot, p⟩, he⟩ := computeLmdGhostHead_mem (h.start_mem hh) (h.justified_ne_zero hh) hr
  exact ⟨slot, p, (h.lookup_getLiveChain hh).mp he⟩

theorem BlockTree.exists_computeLmdGhostHead {ε : Type} (hh : HashSound host) (h : BlockTree host s)
    (attestations : Table UInt64 (AttestationData H)) (minScore : ℕ) :
    ∃ r, (computeLmdGhostHead host s.latestJustified.root (s.getLiveChain host) attestations
      minScore : Exec ε (H × Weights H)) = .ok r :=
  computeLmdGhostHead_ok (h.ordered_getLiveChain hh) (h.start_mem hh) (h.justified_ne_zero hh)

end LiveChain

section Adoption

variable {post : State H}

theorem lookup_pruneLiveChain_of_le {fin : UInt64} {k : UInt64 × H} (h : fin ≤ k.1) :
    (s.pruneLiveChain host fin).liveChain.lookup k = s.liveChain.lookup k := by
  refine (Table.lookup_deleteBatch _ _ _).trans (if_neg fun hmem ↦ ?_)
  have hlt : k.1 < fin := by simpa using List.mem_takeWhile_imp hmem
  exact absurd h (UInt64.not_le.mpr hlt)

theorem lookup_of_lookup_pruneLiveChain {fin : UInt64} {k : UInt64 × H} {p : H}
    (h : (s.pruneLiveChain host fin).liveChain.lookup k = some p) :
    s.liveChain.lookup k = some p := by
  have hlookup := (Table.lookup_deleteBatch _ s.liveChain k).symm.trans h
  split at hlookup
  · exact nomatch hlookup
  · exact hlookup

structure Adopted (s : Store H) (post : State H) (s' : Store H) : Prop where
  config : s'.config = s.config
  states : s'.states = s.states
  headers : s'.blockHeaders = s.blockHeaders
  bodies : s'.blockBodies = s.blockBodies
  signatures : s'.blockSignatures = s.blockSignatures
  head : s'.head = s.head
  safeTarget : s'.safeTarget = s.safeTarget
  justified : s'.latestJustified =
    if s.latestJustified.slot < post.latestJustified.slot then post.latestJustified
    else s.latestJustified
  finalized : s'.latestFinalized =
    if s.latestFinalized.slot < post.latestFinalized.slot then post.latestFinalized
    else s.latestFinalized
  live_of : ∀ k p, s'.liveChain.lookup k = some p → s.liveChain.lookup k = some p
  live_kept : ∀ k : UInt64 × H, s'.latestFinalized.slot ≤ k.1 →
    s'.liveChain.lookup k = s.liveChain.lookup k

theorem adopted (host : Host H) (s : Store H) (post : State H) :
    Adopted s post (adoptCheckpoints host s post) := by
  unfold adoptCheckpoints
  by_cases hj : s.latestJustified.slot < post.latestJustified.slot <;>
    by_cases hf : s.latestFinalized.slot < post.latestFinalized.slot <;>
    simp only [hj, hf, if_true, if_false, Option.isSome_some, Option.isSome_none, Bool.or_true,
      Bool.or_false, Bool.false_eq_true, Store.updateCheckpoints, Store.setCheckpoints,
      Store.pruneGossipSignatures, Store.pruneAttestationDataByRoot, Option.getD_some,
      Option.getD_none]
  · exact ⟨rfl, rfl, rfl, rfl, rfl, rfl, rfl, (if_pos hj).symm, (if_pos hf).symm,
      fun k p ↦ lookup_of_lookup_pruneLiveChain, fun k ↦ lookup_pruneLiveChain_of_le⟩
  · exact ⟨rfl, rfl, rfl, rfl, rfl, rfl, rfl, (if_pos hj).symm, (if_neg hf).symm, fun k p ↦ id,
      fun k _ ↦ rfl⟩
  · exact ⟨rfl, rfl, rfl, rfl, rfl, rfl, rfl, (if_neg hj).symm, (if_pos hf).symm,
      fun k p ↦ lookup_of_lookup_pruneLiveChain, fun k ↦ lookup_pruneLiveChain_of_le⟩
  · exact ⟨rfl, rfl, rfl, rfl, rfl, rfl, rfl, (if_neg hj).symm, (if_neg hf).symm, fun k p ↦ id,
      fun k _ ↦ rfl⟩

theorem Adopted.finalized_le (h : Adopted s post s') :
    s.latestFinalized.slot ≤ s'.latestFinalized.slot := by
  rw [h.finalized]
  split
  · rename_i hlt
    exact UInt64.le_of_lt hlt
  · exact UInt64.le_refl _

/-- The finalized block stays at or below the justified one: a new state's own two checkpoints are
in this order, and each is taken over only if it is higher. -/
theorem Adopted.ordered (h : Adopted s post s')
    (hs : s.latestFinalized.slot ≤ s.latestJustified.slot)
    (hpost : post.latestFinalized.slot ≤ post.latestJustified.slot) :
    s'.latestFinalized.slot ≤ s'.latestJustified.slot := by
  rw [h.finalized, h.justified]
  rw [UInt64.le_iff_toNat_le] at hs hpost ⊢
  split <;> split <;> rename_i hf hj <;> rw [UInt64.lt_iff_toNat_lt] at hf hj <;> omega

end Adoption

section Recording

variable {sb : SignedBlockWithAttestation H} {verify : Bool} {post : State H}

theorem writeBlock_justified :
    (writeBlock host sb post s).latestJustified = s.latestJustified := rfl

theorem writeBlock_liveChain : (writeBlock host sb post s).liveChain =
    s.liveChain.insert (sb.message.block.slot, host.block sb.message.block)
      sb.message.block.parentRoot := rfl

theorem writeBlock_data : (writeBlock host sb post s).attestationDataByRoot =
    Table.putBatch (attestationDataEntries host sb) s.attestationDataByRoot := rfl

theorem writeBlock_knownPayloads : (writeBlock host sb post s).knownPayloads =
    s.knownPayloads.pushBatch (knownEntries host sb) := rfl

theorem writeBlock_newPayloads : (writeBlock host sb post s).newPayloads = s.newPayloads := rfl

theorem okOr_eq_ok {ε α : Type} {e : ε} {x : Option α} {a : α} :
    okOr e x = .ok a ↔ x = some a := by
  cases x <;> simp [okOr, Exec.fail]

/-- A post-state comes from a stored parent state by an accepted block. -/
theorem postState_eq_ok (h : postState host s sb verify = .ok post) :
    ∃ parent st, s.states.lookup sb.message.block.parentRoot = some parent ∧
      (verify = true → verifySignatures host parent sb = .ok ()) ∧
      stateTransition host.toTreeHash parent sb.message.block = .ok st ∧
      post = withStateRoot st sb.message.block.stateRoot := by
  unfold postState at h
  obtain ⟨parent, hparent, h⟩ := Exec.bind_eq_ok.mp h
  obtain ⟨u, hverify, h⟩ := Exec.bind_eq_ok.mp h
  obtain ⟨st, hst, h⟩ := Exec.bind_eq_ok.mp h
  refine ⟨parent, st, okOr_eq_ok.mp hparent, fun hv ↦ ?_, Exec.mapError_eq_ok.mp hst,
    (Except.ok.inj h).symm⟩
  rw [if_pos hv] at hverify
  exact hverify

theorem cachedHeader_withStateRoot {th : TreeHash H} {st : State H} {block : Block H}
    (hheader : st.latestBlockHeader = ⟨block.slot, block.proposerIndex, block.parentRoot, 0,
      th.body block.body⟩) (hroot : block.stateRoot = th.state st) :
    cachedHeader th (withStateRoot st block.stateRoot) = block.header th := by
  unfold cachedHeader withStateRoot
  by_cases hz : block.stateRoot = 0
  · have hsame : ({ st with latestBlockHeader := { st.latestBlockHeader with
        stateRoot := block.stateRoot } } : State H) = st := by
      rw [hz]
      cases st
      simp_all
    simp only [hz, if_true] at hsame ⊢
    rw [hsame, ← hroot, hz, hheader]
    simp [Block.header, hz]
  · simp [hz, hheader, Block.header]

structure Imported (host : Host H) (s : Store H) (block : Block H) (post : State H) : Prop where
  stored : Stored host (host.block block) post
  slot_eq : post.slot = block.slot
  pos : 0 < post.latestBlockHeader.slot.toNat
  ancestors : ∀ i x, post.historicalBlockHashes.toList[i]? = some x → x ≠ 0 →
    s.latestFinalized.slot.toNat ≤ i →
    ∃ slot p, slot.toNat = i ∧ s.liveChain.lookup (slot, x) = some p

/-- What an accepted block makes of a state that belongs under the root it names. -/
theorem Stored.transition (hh : HashSound host) {parentRoot : H} {parent st : State H}
    {block : Block H} (hp : Stored host parentRoot parent)
    (hst : stateTransition host.toTreeHash parent block = .ok st) :
    Stored host (host.block block) (withStateRoot st block.stateRoot) ∧ st.slot = block.slot ∧
      0 < st.latestBlockHeader.slot.toNat ∧
      st.historicalBlockHashes.toList = parent.historicalBlockHashes.toList ++ block.parentRoot ::
        List.replicate (block.slot.toNat - parent.latestBlockHeader.slot.toNat - 1) 0 := by
  obtain ⟨-, hlt, hheader, hroot, hhist⟩ := hp.wellformed.transition_header hh.collisionFree hst
  have hw := hp.wellformed.stateTransition hh.collisionFree hst
  have hslot : st.latestBlockHeader.slot = block.slot := by rw [hheader]
  have hpos : 0 < st.latestBlockHeader.slot.toNat := by
    rw [hslot]
    exact Nat.zero_lt_of_lt hlt
  refine ⟨⟨?_, ?_, ?_, ?_⟩, hw.slot_eq.trans hslot, hpos, hhist⟩
  · have hlen : (withStateRoot st block.stateRoot).validators.toList.length =
        parent.validators.toList.length := hw.aligned.validators_length
    rw [hlen]
    exact hw.withStateRoot _
  · exact (show Named st from hp.wellformed.named hh.collisionFree hp.named hst)
  · rw [cachedHeader_withStateRoot hheader hroot, hh.block_eq]
  · intro hzero
    exact absurd hzero (Nat.pos_iff_ne_zero.mp hpos)

theorem BlockTree.imported (hh : HashSound host) (h : BlockTree host s)
    (hpost : postState host s sb verify = .ok post) :
    Imported host s sb.message.block post := by
  obtain ⟨parent, st, hparent, -, hst, rfl⟩ := postState_eq_ok hpost
  have hp := h.states _ parent hparent
  obtain ⟨hstored, hslot, hpos, hhist⟩ := hp.transition hh hst
  refine ⟨hstored, hslot, hpos, ?_⟩
  intro i x hi hx hle
  rw [show (withStateRoot st sb.message.block.stateRoot).historicalBlockHashes.toList =
    st.historicalBlockHashes.toList from rfl, hhist] at hi
  rcases appended_getElem? hi with hi | ⟨rfl, rfl⟩ | ⟨-, rfl⟩
  · exact h.ancestors _ parent i x hparent hi hx hle
  · have hlen := hp.wellformed.aligned.history_length
    rw [hlen, ← hp.wellformed.slot_eq] at hle ⊢
    obtain ⟨p, hp⟩ := h.listed _ parent hparent (UInt64.le_iff_toNat_le.mpr hle)
    exact ⟨parent.slot, p, rfl, hp⟩
  · exact absurd rfl hx

/-- A checkpoint of a new state that lies above the finalized slot is a live block. -/
theorem Imported.checkpoint_live {block : Block H} (h : Imported host s block post)
    {c : Checkpoint H} (hc : post.historicalBlockHashes.toList[c.slot.toNat]? = some c.root)
    (hne : c.root ≠ 0) (hle : s.latestFinalized.slot ≤ c.slot) :
    ∃ p, s.liveChain.lookup (c.slot, c.root) = some p := by
  obtain ⟨slot, p, hslot, hp⟩ := h.ancestors _ _ hc hne (UInt64.le_iff_toNat_le.mp hle)
  rw [UInt64.toNat_inj.mp hslot] at hp
  exact ⟨p, hp⟩

theorem Imported.nonempty {block : Block H} (h : Imported host s block post) :
    post.historicalBlockHashes.toList ≠ [] := by
  rw [← List.length_pos_iff, h.stored.wellformed.aligned.history_length]
  exact h.pos

/-- The new checkpoints are live blocks, whether or not the live chain is cut below them. -/
theorem Adopted.tree (ha : Adopted s post s') (h : BlockTree host s) {block : Block H}
    (hi : Imported host s block post) : BlockTree host s' := by
  have hal := hi.stored.wellformed.aligned
  have hord := ha.ordered h.ordered (UInt64.le_iff_toNat_le.mpr hal.finalized_le_justified)
  have hfin := UInt64.le_iff_toNat_le.mp ha.finalized_le
  constructor
  case states => rw [ha.states]; exact h.states
  case headers => rw [ha.headers]; exact h.headers
  case live =>
    intro slot r p hp
    exact h.live slot r p (ha.live_of _ p hp)
  case listed =>
    intro r st hst hle
    rw [ha.states] at hst
    rw [ha.live_kept _ hle]
    exact h.listed r st hst (UInt64.le_trans ha.finalized_le hle)
  case ancestors =>
    intro r st i x hst hx hne hle
    rw [ha.states] at hst
    obtain ⟨slot, p, rfl, hp⟩ := h.ancestors r st i x hst hx hne (by omega)
    exact ⟨slot, p, rfl, by rw [ha.live_kept _ (UInt64.le_iff_toNat_le.mpr hle), hp]⟩
  case ordered => exact hord
  case justified =>
    rw [ha.live_kept _ hord, ha.justified]
    by_cases hlt : s.latestJustified.slot < post.latestJustified.slot
    · rw [if_pos hlt]
      exact hi.checkpoint_live (hal.justified_root hi.pos) (hi.stored.named hi.nonempty).1
        (UInt64.le_trans h.ordered (UInt64.le_of_lt hlt))
    · rw [if_neg hlt]
      exact h.justified
  case finalized =>
    rw [ha.live_kept _ (UInt64.le_refl _), ha.finalized]
    by_cases hlt : s.latestFinalized.slot < post.latestFinalized.slot
    · rw [if_pos hlt]
      exact hi.checkpoint_live (hal.finalized_root hi.pos) (hi.stored.named hi.nonempty).2
        (UInt64.le_of_lt hlt)
    · rw [if_neg hlt]
      exact h.finalized

theorem exists_lookup_insert {K V : Type} [DecidableEq K] {t : Table K V} {k k' : K} {v : V}
    (h : ∃ p, t.lookup k' = some p) : ∃ p, (t.insert k v).lookup k' = some p := by
  rw [Table.lookup_insert_eq_ite]
  split
  · exact ⟨v, rfl⟩
  · exact h

theorem BlockTree.insert (sb : SignedBlockWithAttestation H) (hh : HashSound host)
    (h : BlockTree host s) (hi : Imported host s sb.message.block post) :
    BlockTree host ((s.insertSignedBlock host (host.block sb.message.block) sb).insertState
      (host.block sb.message.block) post) := by
  have hblock : host.header (sb.message.block.header host.toTreeHash) =
      host.block sb.message.block := (hh.block_eq _).symm
  have hstates (r : H) : ((s.insertSignedBlock host (host.block sb.message.block) sb).insertState
      (host.block sb.message.block) post).states.lookup r =
      if r = host.block sb.message.block then some post else s.states.lookup r :=
    Table.lookup_insert_eq_ite _ _ _ _
  have hheaders (r : H) : ((s.insertSignedBlock host (host.block sb.message.block) sb).insertState
      (host.block sb.message.block) post).blockHeaders.lookup r =
      if r = host.block sb.message.block then some (sb.message.block.header host.toTreeHash)
      else s.blockHeaders.lookup r :=
    Table.lookup_insert_eq_ite _ _ _ _
  have hlive {k : UInt64 × H} (hk : ∃ p, s.liveChain.lookup k = some p) :
      ∃ p, (s.liveChain.insert (sb.message.block.slot, host.block sb.message.block)
        sb.message.block.parentRoot).lookup k = some p := exists_lookup_insert hk
  constructor
  case states =>
    intro r st hst
    rw [hstates] at hst
    split at hst
    · rename_i hr
      rw [hr, ← Option.some.inj hst]
      exact hi.stored
    · exact h.states r st hst
  case headers =>
    intro r hdr hhdr
    rw [hheaders] at hhdr
    split at hhdr
    · rename_i hr
      rw [hr, ← Option.some.inj hhdr, hblock]
    · exact h.headers r hdr hhdr
  case live =>
    intro slot r p hp
    have hp' : (s.liveChain.insert (sb.message.block.slot, host.block sb.message.block)
        sb.message.block.parentRoot).lookup (slot, r) = some p := hp
    rw [Table.lookup_insert_eq_ite] at hp'
    split at hp'
    · rename_i heq
      obtain ⟨rfl, rfl⟩ := Prod.mk.inj heq
      refine ⟨post, hi.stored, hi.slot_eq, ?_⟩
      rw [← Option.some.inj hp', ← cachedHeader_parentRoot host.toTreeHash post,
        ← hi.stored.header_eq hh hblock]
      rfl
    · exact h.live slot r p hp'
  case listed =>
    intro r st hst hle
    rw [hstates] at hst
    split at hst
    · rename_i hr
      rw [hr, ← Option.some.inj hst, hi.slot_eq]
      exact ⟨_, AList.lookup_insert _⟩
    · exact hlive (h.listed r st hst hle)
  case ancestors =>
    intro r st i x hst hx hne hle
    rw [hstates] at hst
    have hold : ∃ slot p, slot.toNat = i ∧ s.liveChain.lookup (slot, x) = some p := by
      split at hst
      · rw [← Option.some.inj hst] at hx
        exact hi.ancestors i x hx hne hle
      · exact h.ancestors r st i x hst hx hne hle
    obtain ⟨slot, p, hslot, hp⟩ := hold
    obtain ⟨p', hp'⟩ := hlive ⟨p, hp⟩
    exact ⟨slot, p', hslot, hp'⟩
  case ordered => exact h.ordered
  case justified => exact hlive h.justified
  case finalized => exact hlive h.finalized

theorem Adopted.imported (ha : Adopted s post s') {block : Block H}
    (h : Imported host s block post) : Imported host s' block post := by
  refine ⟨h.stored, h.slot_eq, h.pos, fun i x hx hne hle ↦ ?_⟩
  have hfin := UInt64.le_iff_toNat_le.mp ha.finalized_le
  obtain ⟨slot, p, rfl, hp⟩ := h.ancestors i x hx hne (hfin.trans hle)
  exact ⟨slot, p, rfl, by rw [ha.live_kept _ (UInt64.le_iff_toNat_le.mpr hle), hp]⟩

theorem BlockTree.writeBlock (hh : HashSound host) (h : BlockTree host s)
    (hi : Imported host s sb.message.block post) : BlockTree host (writeBlock host sb post s) :=
  (h.insert sb hh hi).congr rfl rfl rfl rfl rfl

theorem BlockTree.recordBlock (hh : HashSound host) (h : BlockTree host s)
    (hpost : postState host s sb verify = .ok post) :
    BlockTree host (recordBlock host sb post s) := by
  have ha := adopted host s post
  have hi := h.imported hh hpost
  exact (ha.tree h hi).writeBlock hh (ha.imported hi)

end Recording

end Ethlambda.Chain
