import Ethlambda.Chain.Backends
import Ethlambda.Chain.Tracking

namespace Ethlambda.Chain

open Ethlambda.Base Ethlambda.Types Ethlambda.Storage

set_option linter.unusedSectionVars false

variable {H : Type} [LinearOrder H] [Zero H] {host : Host H} {e : Enumeration} {b : Backend}
  {s : Store H} {r : H} {sb : SignedBlockWithAttestation H}

/-- Operations one after the other, each with what it reads of the backend. -/
def performEach (host : Host H) (ops : List (Backend × StoreOp host)) (s : Store H) : Store H :=
  ops.foldl (fun s op ↦ (perform host op.1 s op.2).1) s

/-- An operation that writes no other block under the root and does not prune it. -/
def Spares (host : Host H) (r : H) (sb : SignedBlockWithAttestation H) (e : Enumeration)
    (s : Store H) : StoreOp host → Prop
  | .insertPendingBlock root signedBlock => root = r → signedBlock = sb
  | .insertSignedBlock root signedBlock => root = r → signedBlock = sb
  | .pruneOldBlocks protectedRoots =>
    r ∉ s.expired (enumerating host e) blocksToKeep protectedRoots
  | .pruneOldData => r ∉ s.expired (enumerating host e) blocksToKeep s.protectedRoots
  | _ => True

/-- Each of the operations spares the block in the store it finds. -/
def EachSpares (host : Host H) (r : H) (sb : SignedBlockWithAttestation H) :
    List (Backend × StoreOp host) → Store H → Prop
  | [], _ => True
  | op :: ops, s => Spares host r sb op.1.toEnumeration s op.2 ∧
      EachSpares host r sb ops (perform host op.1 s op.2).1

theorem getSignedBlock_insertSignedBlock (hbody : Function.Injective host.body) (root r : H)
    (signedBlock : SignedBlockWithAttestation H) :
    (s.insertSignedBlock host root signedBlock).getSignedBlock host r =
      if r = root then some signedBlock else s.getSignedBlock host r :=
  getSignedBlock_writeSignedBlock hbody signedBlock root r

theorem getSignedBlock_pruneOldBlocks {protectedRoots : List H}
    (h : r ∉ s.expired (enumerating host e) blocksToKeep protectedRoots) :
    (s.pruneOldBlocks (enumerating host e) protectedRoots).getSignedBlock host r =
      s.getSignedBlock host r := by
  unfold Store.getSignedBlock Store.pruneOldBlocks
  simp only [Table.lookup_deleteBatch, if_neg h]

theorem getSignedBlock_updateCheckpoints (checkpoints : ForkCheckpoints H) :
    (s.updateCheckpoints (enumerating host e) checkpoints).getSignedBlock host r =
      s.getSignedBlock host r := by
  unfold Store.updateCheckpoints
  split
  · split
    · exact getSignedBlock_congr host rfl rfl rfl r
    · exact getSignedBlock_congr host rfl rfl rfl r
  · exact getSignedBlock_congr host rfl rfl rfl r

/-- One operation. -/
theorem getSignedBlock_perform (hbody : Function.Injective host.body) {op : StoreOp host}
    (hop : Spares host r sb b.toEnumeration s op) (h : s.getSignedBlock host r = some sb) :
    (perform host b s op).1.getSignedBlock host r = some sb := by
  cases op with
  | insertPendingBlock root signedBlock =>
    refine (getSignedBlock_writeSignedBlock hbody signedBlock root r).trans ?_
    by_cases hroot : r = root
    · rw [if_pos hroot, hop hroot.symm]
    · rw [if_neg hroot, h]
  | insertSignedBlock root signedBlock =>
    refine (getSignedBlock_insertSignedBlock hbody root r signedBlock).trans ?_
    by_cases hroot : r = root
    · rw [if_pos hroot, hop hroot.symm]
    · rw [if_neg hroot, h]
  | pruneOldBlocks protectedRoots => exact (getSignedBlock_pruneOldBlocks hop).trans h
  | pruneOldData =>
    -- the states go first, and the headers that decide what is old stay as they are
    have hstates : (s.pruneOldStates (enumerating host b.toEnumeration)
        s.protectedRoots).getSignedBlock host r =
        s.getSignedBlock host r := getSignedBlock_congr host rfl rfl rfl r
    exact (getSignedBlock_pruneOldBlocks hop).trans (hstates.trans h)
  | updateCheckpoints checkpoints => exact (getSignedBlock_updateCheckpoints checkpoints).trans h
  | _ => exact (getSignedBlock_congr host rfl rfl rfl r).trans h

/-- Any number of operations. -/
theorem getSignedBlock_performEach (hbody : Function.Injective host.body)
    {ops : List (Backend × StoreOp host)} (hops : EachSpares host r sb ops s)
    (h : s.getSignedBlock host r = some sb) :
    (performEach host ops s).getSignedBlock host r = some sb := by
  induction ops generalizing s with
  | nil => exact h
  | cons op ops ih =>
    obtain ⟨hop, hops⟩ := hops
    exact ih hops (getSignedBlock_perform hbody hop h)

theorem signed_block_roundtrip (hbody : Function.Injective host.body) (s : Store H)
    (sb : SignedBlockWithAttestation H) {ops : List (Backend × StoreOp host)} :
    let r := host.block sb.message.block
    (EachSpares host r sb ops (s.insertSignedBlock host r sb) →
        (performEach host ops (s.insertSignedBlock host r sb)).getSignedBlock host r = some sb) ∧
      (EachSpares host r sb ops (s.insertPendingBlock host r sb) →
        (performEach host ops (s.insertPendingBlock host r sb)).getSignedBlock host r = some sb) := by
  intro r
  refine ⟨fun hops ↦ getSignedBlock_performEach hbody hops ?_,
    fun hops ↦ getSignedBlock_performEach hbody hops ?_⟩
  · rw [getSignedBlock_insertSignedBlock hbody, if_pos rfl]
  · exact (getSignedBlock_writeSignedBlock hbody sb r r).trans (if_pos rfl)

/-- A block with an empty body waits for its parent, comes in, and another one follows. -/
theorem signed_block_roundtrip_sample :
    sampleFirst.message.block.body = .default ∧
      (performEach distinctHost
        [(newestFirst.inMemory,
            .insertSignedBlock (distinctHost.block sampleFirst.message.block) sampleFirst),
          (newestFirst.inMemory,
            .insertPendingBlock (distinctHost.block sampleLate.message.block) sampleLate),
          (oldestFirst.inMemory, .pruneOldData)]
        (sampleStore.insertPendingBlock distinctHost (distinctHost.block sampleFirst.message.block)
          sampleFirst)).getSignedBlock distinctHost (distinctHost.block sampleFirst.message.block) =
        some sampleFirst := by
  refine ⟨by decide +kernel, (signed_block_roundtrip bodyCode_injective sampleStore sampleFirst).2
    ⟨fun _ ↦ rfl, fun hroot ↦ ?_, ?_, trivial⟩⟩
  · exact absurd hroot (by decide +kernel)
  · have hnone : ∀ (e : Enumeration) (t : Store ℕ), t.blockHeaders.keys.length ≤ blocksToKeep →
        t.expired (enumerating distinctHost e) blocksToKeep t.protectedRoots = [] := by
      intro e t ht
      rw [Store.expired, if_pos ht]
    change _ ∉ Store.expired _ _ _ _
    rw [hnone]
    · exact List.not_mem_nil
    · decide +kernel

end Ethlambda.Chain
