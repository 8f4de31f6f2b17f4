import Ethlambda.Chain.BlockTree

namespace Ethlambda.Chain

open Ethlambda.Base Ethlambda.Types Ethlambda.Storage Ethlambda.StateTransition Ethlambda.ForkChoice

set_option linter.unusedSectionVars false

variable {H : Type} [LinearOrder H] [Zero H]

/-- The tables describe one tree of blocks: live blocks have a header and a state, and whatever is
not older than the finalized block is live. -/
structure Coherent (host : Host H) (s : Store H) : Prop where
  states : ∀ r st, s.states.lookup r = some st → Stored host r st
  headers : ∀ r h, s.blockHeaders.lookup r = some h → host.header h = r
  live : ∀ slot r p, s.liveChain.lookup (slot, r) = some p → ∃ st h,
    s.states.lookup r = some st ∧ s.blockHeaders.lookup r = some h ∧ h.slot = slot ∧
      h.parentRoot = p
  listed : ∀ r st, s.states.lookup r = some st → s.latestFinalized.slot ≤ st.slot →
    ∃ p, s.liveChain.lookup (st.slot, r) = some p
  ancestors : ∀ r st i x, s.states.lookup r = some st →
    st.historicalBlockHashes.toList[i]? = some x → x ≠ 0 → s.latestFinalized.slot.toNat ≤ i →
    ∃ slot p, slot.toNat = i ∧ s.liveChain.lookup (slot, x) = some p
  ordered : s.latestFinalized.slot ≤ s.latestJustified.slot
  justified : ∃ p, s.liveChain.lookup (s.latestJustified.slot, s.latestJustified.root) = some p
  finalized : ∃ p, s.liveChain.lookup (s.latestFinalized.slot, s.latestFinalized.root) = some p

variable {host : Host H} {s s' : Store H}

theorem Coherent.congr (h : Coherent host s) (hs : s'.states = s.states)
    (hh : s'.blockHeaders = s.blockHeaders) (hl : s'.liveChain = s.liveChain)
    (hj : s'.latestJustified = s.latestJustified) (hf : s'.latestFinalized = s.latestFinalized) :
    Coherent host s' := by
  constructor
  case states => rw [hs]; exact h.states
  case headers => rw [hh]; exact h.headers
  case live => rw [hl, hs, hh]; exact h.live
  case listed => rw [hs, hl, hf]; exact h.listed
  case ancestors => rw [hs, hl, hf]; exact h.ancestors
  case ordered => rw [hf, hj]; exact h.ordered
  case justified => rw [hl, hj]; exact h.justified
  case finalized => rw [hl, hf]; exact h.finalized

theorem Coherent.frame (h : Coherent host s) (hf : Frame s s') : Coherent host s' :=
  h.congr hf.states hf.headers hf.liveChain hf.justified hf.finalized

/-- Every live block still has its header and its state. -/
def Kept (s : Store H) : Prop :=
  ∀ slot r p, s.liveChain.lookup (slot, r) = some p → ∃ st h,
    s.states.lookup r = some st ∧ s.blockHeaders.lookup r = some h ∧ h.slot = slot ∧
      h.parentRoot = p

theorem Coherent.tree (hh : HashSound host) (h : Coherent host s) : BlockTree host s := by
  refine ⟨h.states, h.headers, fun slot r p hp ↦ ?_, h.listed, h.ancestors, h.ordered, h.justified,
    h.finalized⟩
  obtain ⟨st, hdr, hst, hhdr, hslot, hparent⟩ := h.live slot r p hp
  have hstored := h.states r st hst
  have heq := hstored.header_eq hh (h.headers r hdr hhdr)
  refine ⟨st, hstored, ?_, ?_⟩
  · rw [hstored.wellformed.slot_eq, ← cachedHeader_slot host.toTreeHash st, ← heq, hslot]
  · rw [← cachedHeader_parentRoot host.toTreeHash st, ← heq, hparent]

theorem BlockTree.coherent (h : BlockTree host s) (hkept : Kept s) : Coherent host s :=
  ⟨h.states, h.headers, hkept, h.listed, h.ancestors, h.ordered, h.justified, h.finalized⟩

section LiveChain

theorem Coherent.computeLmdGhostHead_live {ε : Type} (hh : HashSound host) (h : Coherent host s)
    {attestations : Table UInt64 (AttestationData H)} {minScore : ℕ} {r : H × Weights H}
    (hr : (computeLmdGhostHead host s.latestJustified.root (s.getLiveChain host) attestations
      minScore : Exec ε (H × Weights H)) = .ok r) :
    ∃ slot p, s.liveChain.lookup (slot, r.1) = some p :=
  (h.tree hh).computeLmdGhostHead_live hh hr

theorem Coherent.exists_computeLmdGhostHead {ε : Type} (hh : HashSound host) (h : Coherent host s)
    (attestations : Table UInt64 (AttestationData H)) (minScore : ℕ) :
    ∃ r, (computeLmdGhostHead host s.latestJustified.root (s.getLiveChain host) attestations
      minScore : Exec ε (H × Weights H)) = .ok r :=
  (h.tree hh).exists_computeLmdGhostHead hh attestations minScore

end LiveChain

section Recording

variable {sb : SignedBlockWithAttestation H} {verify : Bool} {post : State H}

theorem Kept.adopt (h : Kept s) : Kept (adoptCheckpoints host s post) := by
  have ha := adopted host s post
  intro slot r p hp
  rw [ha.states, ha.headers]
  exact h slot r p (ha.live_of _ p hp)

theorem Kept.insert (sb : SignedBlockWithAttestation H) (hh : HashSound host) (h : Kept s)
    (hheaders : ∀ r hdr, s.blockHeaders.lookup r = some hdr → host.header hdr = r) :
    Kept ((s.insertSignedBlock host (host.block sb.message.block) sb).insertState
      (host.block sb.message.block) post) := by
  have hblock : host.header (sb.message.block.header host.toTreeHash) =
      host.block sb.message.block := (hh.block_eq _).symm
  intro slot r p hp
  change (s.liveChain.insert _ _).lookup (slot, r) = some p at hp
  change ∃ st hdr, (s.states.insert _ _).lookup r = some st ∧
    (s.blockHeaders.insert _ _).lookup r = some hdr ∧ _
  rw [Table.lookup_insert_eq_ite] at hp ⊢
  rw [Table.lookup_insert_eq_ite]
  split at hp
  · rename_i heq
    obtain ⟨rfl, rfl⟩ := Prod.mk.inj heq
    rw [if_pos rfl, if_pos rfl]
    exact ⟨post, _, rfl, rfl, rfl, Option.some.inj hp⟩
  · obtain ⟨st, hdr, hst, hhdr, hslot, hparent⟩ := h slot r p hp
    by_cases hr : r = host.block sb.message.block
    · have hsame : hdr = sb.message.block.header host.toTreeHash := by
        apply hh.collisionFree.header_injective
        rw [hheaders r hdr hhdr, hblock, hr]
      rw [if_pos hr, if_pos hr]
      exact ⟨post, hdr, rfl, by rw [hsame], hslot, hparent⟩
    · rw [if_neg hr, if_neg hr]
      exact ⟨st, hdr, hst, hhdr, hslot, hparent⟩

theorem Coherent.recordBlock (hh : HashSound host) (h : Coherent host s)
    (hpost : postState host s sb verify = .ok post) :
    Coherent host (recordBlock host sb post s) := by
  have hkept : Kept s := h.live
  have hheaders := h.headers
  rw [← (adopted host s post).headers] at hheaders
  exact ((h.tree hh).recordBlock hh hpost).coherent (hkept.adopt.insert sb hh hheaders)

end Recording

end Ethlambda.Chain
