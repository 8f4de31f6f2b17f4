import Ethlambda.Base.Bytes
import Ethlambda.Chain.Retention
import Ethlambda.Storage.InMemory

namespace Ethlambda.Chain

open Ethlambda.Base Ethlambda.Types Ethlambda.Storage Ethlambda.StateTransition

set_option linter.unusedSectionVars false

/-- What an operation reads of a backend besides the entries of its tables: their order, and how many
bytes the backend estimates a table to hold. -/
structure Backend extends Enumeration where
  estimateTableBytes : TableId → UInt64

/-- The in-memory backend estimates nothing. -/
def Enumeration.inMemory (e : Enumeration) : Backend := { e with estimateTableBytes := fun _ ↦ 0 }

variable {H : Type} [LinearOrder H] [Zero H]

/-- The key of a live chain entry: its slot in eight bytes, highest first, and its root. -/
def encodeLiveChainKey (rootBytes : H → List UInt8) (key : UInt64 × H) : List UInt8 :=
  bigEndian 8 key.1.toNat ++ rootBytes key.2

/-- A backend that enumerates the live chain in the order of the keys' bytes. -/
def Enumeration.Ascending (e : Enumeration) (rootBytes : H → List UInt8) : Prop :=
  ∀ keys : List (UInt64 × H),
    ((e.order keys).map (encodeLiveChainKey rootBytes)).Pairwise (· ≤ ·)

/-- The operations of the store. -/
inductive StoreOp (host : Host H)
  | time
  | setTime (time : UInt64)
  | config
  | head
  | safeTarget
  | setSafeTarget (safeTarget : H)
  | latestJustified
  | latestFinalized
  | updateCheckpoints (checkpoints : ForkCheckpoints H)
  | pruneOldData
  | getLiveChain
  | getBlockRoots
  | pruneLiveChain (finalizedSlot : UInt64)
  | pruneGossipSignatures (finalizedSlot : UInt64)
  | pruneAttestationDataByRoot (finalizedSlot : UInt64)
  | pruneOldStates (protectedRoots : List H)
  | pruneOldBlocks (protectedRoots : List H)
  | getBlockHeader (root : H)
  | insertPendingBlock (root : H) (signedBlock : SignedBlockWithAttestation H)
  | insertSignedBlock (root : H) (signedBlock : SignedBlockWithAttestation H)
  | getSignedBlock (root : H)
  | getState (root : H)
  | hasState (root : H)
  | insertState (root : H) (state : State H)
  | insertAttestationDataByRoot (root : H) (data : AttestationData H)
  | insertAttestationDataByRootBatch (entries : List (H × AttestationData H))
  | getAttestationDataByRoot (root : H)
  | extractLatestAttestations (keys : List (SignatureKey H))
  | extractLatestKnownAttestations
  | iterKnownAggregatedPayloads
  | iterKnownAggregatedPayloadKeys
  | insertKnownAggregatedPayload (key : SignatureKey H) (payload : StoredAggregatedPayload)
  | insertKnownAggregatedPayloadsBatch (entries : List (SignatureKey H × StoredAggregatedPayload))
  | iterNewAggregatedPayloads
  | iterNewAggregatedPayloadKeys
  | insertNewAggregatedPayload (key : SignatureKey H) (payload : StoredAggregatedPayload)
  | insertNewAggregatedPayloadsBatch (entries : List (SignatureKey H × StoredAggregatedPayload))
  | promoteNewAggregatedPayloads
  | newAggregatedPayloadsCount
  | knownAggregatedPayloadsCount
  | gossipSignaturesCount
  | deleteGossipSignatures (keys : List (SignatureKey H))
  | iterGossipSignatures
  | insertGossipSignature (dataRoot : H) (slot validatorId : UInt64) (signature : host.Signature)
  | headSlot
  | safeTargetSlot
  | headState
  | estimateTableBytes (table : TableId)

/-- What an operation returns. A hash map is what it gives for each key; a hash set and an iterator
over a table stand for their entries, whose order means nothing. -/
inductive Reply (H : Type)
  | done
  | slot (slot : UInt64)
  | config (config : ChainConfig)
  | root (root : H)
  | checkpoint (checkpoint : Checkpoint H)
  | count (n : ℕ)
  | bytes (estimate : UInt64)
  | flag (b : Bool)
  | header (header : Option (BlockHeader H))
  | signedBlock (block : Option (SignedBlockWithAttestation H))
  | state (state : Option (State H))
  | data (data : Option (AttestationData H))
  | chain (lookup : H → Option (UInt64 × H))
  | roots (roots : Finset H)
  | votes (lookup : UInt64 → Option (AttestationData H))
  | payloads (lookup : SignatureKey H → Option (List StoredAggregatedPayload))
  | keys (keys : Finset (SignatureKey H))
  | signatures (entries : Multiset (SignatureKey H × StoredSignature))
  | slotOrPanic (slot : Exec Empty UInt64)
  | stateOrPanic (state : Exec Empty (State H))

variable (host : Host H) (backend : Backend) (e : Enumeration) (s : Store H)

/-- The keys that the pruning of the live chain collects. -/
def liveChainKeysBelow (finalizedSlot : UInt64) : List (UInt64 × H) :=
  (e.order s.liveChain.keys).takeWhile fun k ↦ decide (k.1 < finalizedSlot)

/-- One operation. Only the tables of the backend are read in its order: the hash sets that the
store builds in memory are the same on every backend. -/
def perform : StoreOp host → Store H × Reply H
  | .time => (s, .slot s.time)
  | .setTime time => ({ s with time := time }, .done)
  | .config => (s, .config s.config)
  | .head => (s, .root s.head)
  | .safeTarget => (s, .root s.safeTarget)
  | .setSafeTarget safeTarget => ({ s with safeTarget := safeTarget }, .done)
  | .latestJustified => (s, .checkpoint s.latestJustified)
  | .latestFinalized => (s, .checkpoint s.latestFinalized)
  | .updateCheckpoints checkpoints =>
    (s.updateCheckpoints (enumerating host backend.toEnumeration) checkpoints, .done)
  | .pruneOldData => (s.pruneOldData (enumerating host backend.toEnumeration), .done)
  | .getLiveChain =>
    (s, .chain fun root ↦ (s.getLiveChain (enumerating host backend.toEnumeration)).lookup root)
  | .getBlockRoots => (s, .roots s.getBlockRoots.toFinset)
  | .pruneLiveChain finalizedSlot =>
    (s.pruneLiveChain (enumerating host backend.toEnumeration) finalizedSlot,
      .count (liveChainKeysBelow backend.toEnumeration s finalizedSlot).length)
  | .pruneGossipSignatures finalizedSlot =>
    let pruned := s.pruneGossipSignatures finalizedSlot
    (pruned, .count (s.gossipSignatures.keys.length - pruned.gossipSignatures.keys.length))
  | .pruneAttestationDataByRoot finalizedSlot =>
    let pruned := s.pruneAttestationDataByRoot finalizedSlot
    (pruned, .count (s.attestationDataByRoot.keys.length - pruned.attestationDataByRoot.keys.length))
  | .pruneOldStates protectedRoots =>
    let host := enumerating host backend.toEnumeration
    (s.pruneOldStates host protectedRoots,
      .count (s.expired host statesToKeep protectedRoots).length)
  | .pruneOldBlocks protectedRoots =>
    let host := enumerating host backend.toEnumeration
    (s.pruneOldBlocks host protectedRoots,
      .count (s.expired host blocksToKeep protectedRoots).length)
  | .getBlockHeader root => (s, .header (s.getBlockHeader root))
  | .insertPendingBlock root signedBlock => (s.insertPendingBlock host root signedBlock, .done)
  | .insertSignedBlock root signedBlock => (s.insertSignedBlock host root signedBlock, .done)
  | .getSignedBlock root => (s, .signedBlock (s.getSignedBlock host root))
  | .getState root => (s, .state (s.getState root))
  | .hasState root => (s, .flag (s.hasState root))
  | .insertState root state => (s.insertState root state, .done)
  | .insertAttestationDataByRoot root data => (s.insertAttestationDataByRoot root data, .done)
  | .insertAttestationDataByRootBatch entries => (s.insertAttestationDataByRootBatch entries, .done)
  | .getAttestationDataByRoot root => (s, .data (s.getAttestationDataByRoot root))
  | .extractLatestAttestations keys =>
    (s, .votes fun validator ↦ (s.extractLatestAttestations keys).lookup validator)
  | .extractLatestKnownAttestations =>
    (s, .votes fun validator ↦ (s.extractLatestKnownAttestations host).lookup validator)
  | .iterKnownAggregatedPayloads => (s, .payloads fun key ↦ s.knownPayloads.grouped.lookup key)
  | .iterKnownAggregatedPayloadKeys => (s, .keys s.knownPayloads.uniqueKeys.toFinset)
  | .insertKnownAggregatedPayload key payload =>
    ({ s with knownPayloads := s.knownPayloads.push key payload }, .done)
  | .insertKnownAggregatedPayloadsBatch entries =>
    (s.insertKnownAggregatedPayloadsBatch entries, .done)
  | .iterNewAggregatedPayloads => (s, .payloads fun key ↦ s.newPayloads.grouped.lookup key)
  | .iterNewAggregatedPayloadKeys => (s, .keys s.newPayloads.uniqueKeys.toFinset)
  | .insertNewAggregatedPayload key payload => (s.insertNewAggregatedPayload key payload, .done)
  | .insertNewAggregatedPayloadsBatch entries =>
    (s.insertNewAggregatedPayloadsBatch entries, .done)
  | .promoteNewAggregatedPayloads => (s.promoteNewAggregatedPayloads, .done)
  | .newAggregatedPayloadsCount => (s, .count s.newPayloads.entries.length)
  | .knownAggregatedPayloadsCount => (s, .count s.knownPayloads.entries.length)
  | .gossipSignaturesCount => (s, .count s.gossipSignaturesCount)
  | .deleteGossipSignatures keys => (s.deleteGossipSignatures keys, .done)
  | .iterGossipSignatures =>
    (s, .signatures (s.iterGossipSignatures (enumerating host backend.toEnumeration)))
  | .insertGossipSignature dataRoot slot validatorId signature =>
    (s.insertGossipSignature host dataRoot slot validatorId signature, .done)
  | .headSlot => (s, .slotOrPanic s.headSlot)
  | .safeTargetSlot => (s, .slotOrPanic s.safeTargetSlot)
  | .headState => (s, .stateOrPanic s.headState)
  | .estimateTableBytes table => (s, .bytes (backend.estimateTableBytes table))

/-- Two stores with the same metadata, the same entries in every table and the same buffers. -/
structure SameContents (a b : Store H) : Prop where
  time : a.time = b.time
  config : a.config = b.config
  head : a.head = b.head
  safeTarget : a.safeTarget = b.safeTarget
  latestJustified : a.latestJustified = b.latestJustified
  latestFinalized : a.latestFinalized = b.latestFinalized
  blockHeaders : ∀ root, a.blockHeaders.lookup root = b.blockHeaders.lookup root
  blockBodies : ∀ root, a.blockBodies.lookup root = b.blockBodies.lookup root
  blockSignatures : ∀ root, a.blockSignatures.lookup root = b.blockSignatures.lookup root
  states : ∀ root, a.states.lookup root = b.states.lookup root
  gossipSignatures : ∀ key, a.gossipSignatures.lookup key = b.gossipSignatures.lookup key
  attestationDataByRoot : ∀ root,
    a.attestationDataByRoot.lookup root = b.attestationDataByRoot.lookup root
  liveChain : ∀ key, a.liveChain.lookup key = b.liveChain.lookup key
  newPayloads : a.newPayloads = b.newPayloads
  knownPayloads : a.knownPayloads = b.knownPayloads
  gossipSignaturesCount : a.gossipSignaturesCount = b.gossipSignaturesCount

theorem SameContents.refl (s : Store H) : SameContents s s :=
  ⟨rfl, rfl, rfl, rfl, rfl, rfl, fun _ ↦ rfl, fun _ ↦ rfl, fun _ ↦ rfl, fun _ ↦ rfl, fun _ ↦ rfl,
    fun _ ↦ rfl, fun _ ↦ rfl, rfl, rfl, rfl⟩

/-- The live chain entries below a slot are handed out before all others. -/
def OldFirst (e : Enumeration) (s : Store H) (finalizedSlot : UInt64) : Prop :=
  (e.order s.liveChain.keys).Pairwise fun k k' ↦ k'.1 < finalizedSlot → k.1 < finalizedSlot

/-- The retention window does not end between two headers of one slot. -/
def ClearCut (s : Store H) (window : ℕ) : Prop :=
  ∀ slot : ℕ,
    (Table.pairs s.blockHeaders).countP (fun p ↦ decide (slot ≤ p.2.slot.toNat)) ≤ window ∨
      window ≤ (Table.pairs s.blockHeaders).countP fun p ↦ decide (slot < p.2.slot.toNat)

/-- No root stands under two slots of the live chain. -/
def UniqueSlots (s : Store H) : Prop :=
  ∀ {slot slot' : UInt64} {root parent parent' : H},
    s.liveChain.lookup (slot, root) = some parent →
      s.liveChain.lookup (slot', root) = some parent' → slot = slot'

/-- Where the outcome of an operation depends neither on the order of a table nor on an estimate of
its size. -/
def Unordered (host : Host H) (e : Enumeration) (estimate : TableId → UInt64) (s : Store H) :
    StoreOp host → Prop
  | .pruneLiveChain finalizedSlot => OldFirst e s finalizedSlot
  | .updateCheckpoints checkpoints => ∀ finalized, checkpoints.finalized = some finalized →
      s.latestFinalized.slot < finalized.slot → OldFirst e s finalized.slot
  | .pruneOldStates _ => ClearCut s statesToKeep
  | .pruneOldBlocks _ => ClearCut s blocksToKeep
  | .pruneOldData => ClearCut s statesToKeep ∧ ClearCut s blocksToKeep
  | .getLiveChain => UniqueSlots s
  | .estimateTableBytes table => estimate table = 0
  | _ => True

section Prune

variable {e e' : Enumeration} {a b : Store H}

theorem Enumeration.Ascending.oldFirst {rootBytes : H → List UInt8} (h : e.Ascending rootBytes)
    (s : Store H) (finalizedSlot : UInt64) : OldFirst e s finalizedSlot := by
  refine (List.pairwise_map.mp (h s.liveChain.keys)).imp fun {k k'} hle hold ↦ ?_
  have hslots : k.1.toNat ≤ k'.1.toNat :=
    le_of_bigEndian_append_le (n := 8) (by simpa using k.1.toNat_lt) (by simpa using k'.1.toNat_lt) hle
  exact UInt64.lt_iff_toNat_lt.mpr (hslots.trans_lt (UInt64.lt_iff_toNat_lt.mp hold))

/-- Where the old keys come first, the pruning collects all of them. -/
theorem liveChainKeysBelow_eq {finalizedSlot : UInt64} (h : OldFirst e a finalizedSlot) :
    liveChainKeysBelow e a finalizedSlot =
      (e.order a.liveChain.keys).filter fun k ↦ decide (k.1 < finalizedSlot) := by
  refine takeWhile_eq_filter (h.imp fun {k k'} hold hk' ↦ ?_)
  exact decide_eq_true (hold (of_decide_eq_true hk'))

theorem liveChainKeysBelow_perm (hsame : SameContents a b) {finalizedSlot : UInt64}
    (ha : OldFirst e a finalizedSlot) (hb : OldFirst e' b finalizedSlot) :
    (liveChainKeysBelow e a finalizedSlot).Perm (liveChainKeysBelow e' b finalizedSlot) := by
  rw [liveChainKeysBelow_eq ha, liveChainKeysBelow_eq hb]
  refine List.Perm.filter _ ?_
  exact (e.order_perm _).trans ((Table.keys_perm hsame.liveChain).trans (e'.order_perm _).symm)

theorem lookup_pruneLiveChain (host : Host H) (e : Enumeration) (s : Store H)
    (finalizedSlot : UInt64) (key : UInt64 × H) :
    (s.pruneLiveChain (enumerating host e) finalizedSlot).liveChain.lookup key =
      if key ∈ liveChainKeysBelow e s finalizedSlot then none else s.liveChain.lookup key := by
  have hlookup := Table.lookup_deleteBatch (liveChainKeysBelow e s finalizedSlot) s.liveChain key
  by_cases h : key ∈ liveChainKeysBelow e s finalizedSlot
  · rw [if_pos h] at hlookup ⊢
    exact hlookup
  · rw [if_neg h] at hlookup ⊢
    exact hlookup

theorem SameContents.pruneLiveChain (host : Host H) (hsame : SameContents a b)
    {finalizedSlot : UInt64} (ha : OldFirst e a finalizedSlot) (hb : OldFirst e' b finalizedSlot) :
    SameContents (a.pruneLiveChain (enumerating host e) finalizedSlot)
      (b.pruneLiveChain (enumerating host e') finalizedSlot) :=
  { hsame with
    liveChain := fun key ↦ by
      rw [lookup_pruneLiveChain, lookup_pruneLiveChain, hsame.liveChain]
      simp only [(liveChainKeysBelow_perm hsame ha hb).mem_iff] }

theorem SameContents.pruneGossipSignatures (hsame : SameContents a b) (finalizedSlot : UInt64) :
    SameContents (a.pruneGossipSignatures finalizedSlot) (b.pruneGossipSignatures finalizedSlot) := by
  have hkept : ∀ key, (a.pruneGossipSignatures finalizedSlot).gossipSignatures.lookup key =
      (b.pruneGossipSignatures finalizedSlot).gossipSignatures.lookup key := by
    intro key
    simp only [Store.pruneGossipSignatures, Table.lookup_retain, hsame.gossipSignatures]
  have hcount : (a.pruneGossipSignatures finalizedSlot).gossipSignaturesCount =
      (b.pruneGossipSignatures finalizedSlot).gossipSignaturesCount := by
    have hbefore := (Table.keys_perm hsame.gossipSignatures).length_eq
    have hafter := (Table.keys_perm hkept).length_eq
    have hcounts := hsame.gossipSignaturesCount
    simp only [Store.pruneGossipSignatures] at hafter ⊢
    rw [hbefore, hafter, hcounts]
  exact { hsame with gossipSignatures := hkept, gossipSignaturesCount := hcount }

theorem SameContents.pruneAttestationDataByRoot (hsame : SameContents a b)
    (finalizedSlot : UInt64) :
    SameContents (a.pruneAttestationDataByRoot finalizedSlot)
      (b.pruneAttestationDataByRoot finalizedSlot) :=
  { hsame with
    attestationDataByRoot := fun root ↦ by
      simp only [Store.pruneAttestationDataByRoot, Table.lookup_retain,
        hsame.attestationDataByRoot] }

theorem SameContents.setCheckpoints (hsame : SameContents a b) (c : ForkCheckpoints H) :
    SameContents (a.setCheckpoints c) (b.setCheckpoints c) :=
  { hsame with
    head := rfl
    latestJustified := by simp only [Store.setCheckpoints, hsame.latestJustified]
    latestFinalized := by simp only [Store.setCheckpoints, hsame.latestFinalized] }

theorem SameContents.updateCheckpoints (host : Host H) (hsame : SameContents a b)
    {c : ForkCheckpoints H} {estimate : TableId → UInt64}
    (ha : Unordered host e estimate a (.updateCheckpoints c))
    (hb : Unordered host e' estimate b (.updateCheckpoints c)) :
    SameContents (a.updateCheckpoints (enumerating host e) c)
      (b.updateCheckpoints (enumerating host e') c) := by
  have hset := hsame.setCheckpoints c
  cases hfinalized : c.finalized with
  | none => simpa only [Store.updateCheckpoints, hfinalized] using hset
  | some finalized =>
    simp only [Store.updateCheckpoints, hfinalized, hsame.latestFinalized]
    split
    · rename_i hlt
      refine .pruneAttestationDataByRoot (.pruneGossipSignatures (.pruneLiveChain host hset ?_ ?_) _) _
      · exact ha finalized hfinalized (hsame.latestFinalized ▸ hlt)
      · exact hb finalized hfinalized hlt
    · exact hset

end Prune

section Expire

variable {e e' : Enumeration} {a b : Store H} {window : ℕ}

/-- The headers of a store, the youngest first. -/
def headersByAge (e : Enumeration) (s : Store H) : List (H × BlockHeader H) :=
  (e.order (Table.pairs s.blockHeaders)).insertionSort fun x y ↦ y.2.slot.toNat ≤ x.2.slot.toNat

theorem headersByAge_perm (e : Enumeration) (s : Store H) :
    (headersByAge e s).Perm (Table.pairs s.blockHeaders) :=
  (List.perm_insertionSort _ _).trans (e.order_perm _)

theorem headersByAge_pairwise (e : Enumeration) (s : Store H) :
    (headersByAge e s).Pairwise fun x y ↦ y.2.slot.toNat ≤ x.2.slot.toNat :=
  insertionSort_pairwise (fun p : H × BlockHeader H ↦ p.2.slot.toNat) _

/-- Past a clear cut lie the headers with a full window of younger ones. -/
theorem mem_drop_headersByAge (hcut : ClearCut a window) {p : H × BlockHeader H} :
    p ∈ (headersByAge e a).drop window ↔ p ∈ Table.pairs a.blockHeaders ∧
      window ≤ (Table.pairs a.blockHeaders).countP
        fun q ↦ decide (p.2.slot.toNat < q.2.slot.toNat) := by
  have hperm := headersByAge_perm e a
  have hsorted := headersByAge_pairwise e a
  constructor
  · intro h
    refine ⟨hperm.mem_iff.mp (List.mem_of_mem_drop h), ?_⟩
    have hcount := lt_countP_of_mem_drop (fun q ↦ q.2.slot.toNat) hsorted h
    rw [hperm.countP_eq] at hcount
    exact (hcut p.2.slot.toNat).resolve_left (not_le.mpr hcount)
  · intro h
    obtain ⟨hmem, hcount⟩ := h
    rw [← hperm.countP_eq] at hcount
    exact mem_drop_of_pairwise (fun q ↦ q.2.slot.toNat) hsorted (hperm.mem_iff.mpr hmem) hcount

theorem drop_headersByAge_perm (e e' : Enumeration)
    (hheaders : ∀ root, a.blockHeaders.lookup root = b.blockHeaders.lookup root)
    (ha : ClearCut a window) (hb : ClearCut b window) :
    ((headersByAge e a).drop window).Perm ((headersByAge e' b).drop window) := by
  have hpairs := Table.pairs_perm hheaders
  have hnodup : ∀ (e : Enumeration) (s : Store H), ((headersByAge e s).drop window).Nodup := by
    intro e s
    refine List.Nodup.sublist (List.drop_sublist _ _) ((headersByAge_perm e s).nodup_iff.mpr ?_)
    refine List.Nodup.of_map Prod.fst ?_
    rw [Table.map_fst_pairs]
    exact s.blockHeaders.keys_nodup
  refine (List.perm_ext_iff_of_nodup (hnodup e a) (hnodup e' b)).mpr fun p ↦ ?_
  rw [mem_drop_headersByAge ha, mem_drop_headersByAge hb, hpairs.mem_iff, hpairs.countP_eq]

theorem ClearCut.congr (hheaders : ∀ root, a.blockHeaders.lookup root = b.blockHeaders.lookup root)
    (h : ClearCut a window) : ClearCut b window := by
  have hpairs := Table.pairs_perm hheaders
  intro slot
  rw [← hpairs.countP_eq, ← hpairs.countP_eq]
  exact h slot

theorem expired_perm (e e' : Enumeration) (host : Host H)
    (hheaders : ∀ root, a.blockHeaders.lookup root = b.blockHeaders.lookup root)
    (hcut : ClearCut a window) (protectedRoots : List H) :
    (a.expired (enumerating host e) window protectedRoots).Perm
      (b.expired (enumerating host e') window protectedRoots) := by
  have hlength := (Table.keys_perm hheaders).length_eq
  have hdrop : (((a.rootsByAge (enumerating host e)).drop window).Perm
      ((b.rootsByAge (enumerating host e')).drop window)) := by
    have := (drop_headersByAge_perm e e' hheaders hcut (hcut.congr hheaders)).map Prod.fst
    rwa [List.map_drop, List.map_drop] at this
  rw [Store.expired, Store.expired, hlength]
  split
  · rfl
  · exact hdrop.filter _

theorem SameContents.pruneOldStates (host : Host H) (hsame : SameContents a b)
    (hcut : ClearCut a statesToKeep) (protectedRoots : List H) :
    SameContents (a.pruneOldStates (enumerating host e) protectedRoots)
      (b.pruneOldStates (enumerating host e') protectedRoots) :=
  { hsame with
    states := Table.lookup_deleteBatch_congr (expired_perm e e' host hsame.blockHeaders hcut _)
      hsame.states }

theorem SameContents.pruneOldBlocks (host : Host H) (hsame : SameContents a b)
    (hcut : ClearCut a blocksToKeep) (protectedRoots : List H) :
    SameContents (a.pruneOldBlocks (enumerating host e) protectedRoots)
      (b.pruneOldBlocks (enumerating host e') protectedRoots) :=
  have hexpired := expired_perm e e' host hsame.blockHeaders hcut protectedRoots
  { hsame with
    blockHeaders := Table.lookup_deleteBatch_congr hexpired hsame.blockHeaders
    blockBodies := Table.lookup_deleteBatch_congr hexpired hsame.blockBodies
    blockSignatures := Table.lookup_deleteBatch_congr hexpired hsame.blockSignatures }

theorem SameContents.pruneOldData (host : Host H) (hsame : SameContents a b)
    {estimate : TableId → UInt64} (hcut : Unordered host e estimate a .pruneOldData) :
    SameContents (a.pruneOldData (enumerating host e)) (b.pruneOldData (enumerating host e')) := by
  have hprotected : a.protectedRoots = b.protectedRoots := by
    simp only [Store.protectedRoots, hsame.latestFinalized, hsame.latestJustified]
  rw [Store.pruneOldData, Store.pruneOldData, hprotected]
  exact (hsame.pruneOldStates host hcut.1 _).pruneOldBlocks host hcut.2 _

end Expire

section Insert

variable {a b : Store H}

theorem SameContents.writeSignedBlock (host : Host H) (hsame : SameContents a b) (root : H)
    (signedBlock : SignedBlockWithAttestation H) :
    SameContents (a.writeSignedBlock host root signedBlock)
      (b.writeSignedBlock host root signedBlock) :=
  { hsame with
    blockHeaders := Table.lookup_insert_congr hsame.blockHeaders _ _
    blockBodies := fun key ↦ by
      simp only [Store.writeSignedBlock]
      split
      · exact Table.lookup_insert_congr hsame.blockBodies _ _ key
      · exact hsame.blockBodies key
    blockSignatures := Table.lookup_insert_congr hsame.blockSignatures _ _ }

theorem SameContents.insertSignedBlock (host : Host H) (hsame : SameContents a b) (root : H)
    (signedBlock : SignedBlockWithAttestation H) :
    SameContents (a.insertSignedBlock host root signedBlock)
      (b.insertSignedBlock host root signedBlock) :=
  { hsame.writeSignedBlock host root signedBlock with
    liveChain := Table.lookup_insert_congr hsame.liveChain _ _ }

theorem SameContents.insertGossipSignature (host : Host H) (hsame : SameContents a b)
    (dataRoot : H) (slot validatorId : UInt64) (signature : host.Signature) :
    SameContents (a.insertGossipSignature host dataRoot slot validatorId signature)
      (b.insertGossipSignature host dataRoot slot validatorId signature) :=
  { hsame with
    gossipSignatures := Table.lookup_insert_congr hsame.gossipSignatures _ _
    gossipSignaturesCount := by
      simp only [Store.insertGossipSignature, hsame.gossipSignatures, hsame.gossipSignaturesCount] }

theorem SameContents.deleteGossipSignatures (hsame : SameContents a b)
    (keys : List (SignatureKey H)) :
    SameContents (a.deleteGossipSignatures keys) (b.deleteGossipSignatures keys) :=
  { hsame with
    gossipSignatures := Table.lookup_deleteBatch_congr (.refl keys) hsame.gossipSignatures
    gossipSignaturesCount := by
      simp only [Store.deleteGossipSignatures, hsame.gossipSignaturesCount] }

end Insert

section Simulate

variable {host : Host H} {e : Enumeration} {ordered : Backend} {a b : Store H} {op : StoreOp host}

theorem Unordered.congr (hsame : SameContents a b) {rootBytes : H → List UInt8}
    (hordered : ordered.Ascending rootBytes)
    (h : Unordered host e ordered.estimateTableBytes a op) :
    Unordered host ordered.toEnumeration ordered.estimateTableBytes b op := by
  cases op with
  | pruneLiveChain finalizedSlot => exact hordered.oldFirst b finalizedSlot
  | updateCheckpoints checkpoints => exact fun finalized _ _ ↦ hordered.oldFirst b finalized.slot
  | pruneOldStates protectedRoots => exact ClearCut.congr hsame.blockHeaders h
  | pruneOldBlocks protectedRoots => exact ClearCut.congr hsame.blockHeaders h
  | pruneOldData => exact h.imp (ClearCut.congr hsame.blockHeaders) (ClearCut.congr hsame.blockHeaders)
  | getLiveChain =>
    intro slot slot' root parent parent' hparent hparent'
    rw [← hsame.liveChain] at hparent hparent'
    exact h hparent hparent'
  | estimateTableBytes table => exact h
  | _ => trivial

/-- An operation keeps two stores with the same contents alike. -/
theorem SameContents.after (hsame : SameContents a b)
    (ha : Unordered host e ordered.estimateTableBytes a op)
    (hb : Unordered host ordered.toEnumeration ordered.estimateTableBytes b op) :
    SameContents (perform host e.inMemory a op).1 (perform host ordered b op).1 := by
  cases op with
  | setTime time => exact { hsame with time := rfl }
  | setSafeTarget safeTarget => exact { hsame with safeTarget := rfl }
  | updateCheckpoints checkpoints => exact hsame.updateCheckpoints host ha hb
  | pruneOldData => exact hsame.pruneOldData host ha
  | pruneLiveChain finalizedSlot => exact hsame.pruneLiveChain host ha hb
  | pruneGossipSignatures finalizedSlot => exact hsame.pruneGossipSignatures finalizedSlot
  | pruneAttestationDataByRoot finalizedSlot => exact hsame.pruneAttestationDataByRoot finalizedSlot
  | pruneOldStates protectedRoots => exact hsame.pruneOldStates host ha protectedRoots
  | pruneOldBlocks protectedRoots => exact hsame.pruneOldBlocks host ha protectedRoots
  | insertPendingBlock root signedBlock => exact hsame.writeSignedBlock host root signedBlock
  | insertSignedBlock root signedBlock => exact hsame.insertSignedBlock host root signedBlock
  | insertState root state =>
    exact { hsame with states := Table.lookup_insert_congr hsame.states _ _ }
  | insertAttestationDataByRoot root data =>
    exact { hsame with
      attestationDataByRoot := Table.lookup_insert_congr hsame.attestationDataByRoot _ _ }
  | insertAttestationDataByRootBatch entries =>
    exact { hsame with
      attestationDataByRoot := Table.lookup_putBatch_congr entries hsame.attestationDataByRoot }
  | insertKnownAggregatedPayload key payload =>
    exact { hsame with knownPayloads := congrArg (·.push key payload) hsame.knownPayloads }
  | insertKnownAggregatedPayloadsBatch entries =>
    exact { hsame with knownPayloads := congrArg (·.pushBatch entries) hsame.knownPayloads }
  | insertNewAggregatedPayload key payload =>
    exact { hsame with newPayloads := congrArg (·.push key payload) hsame.newPayloads }
  | insertNewAggregatedPayloadsBatch entries =>
    exact { hsame with newPayloads := congrArg (·.pushBatch entries) hsame.newPayloads }
  | promoteNewAggregatedPayloads =>
    refine { hsame with newPayloads := ?_, knownPayloads := ?_ }
    · simp only [perform, Store.promoteNewAggregatedPayloads, hsame.newPayloads]
    · simp only [perform, Store.promoteNewAggregatedPayloads, hsame.newPayloads,
        hsame.knownPayloads]
  | deleteGossipSignatures keys => exact hsame.deleteGossipSignatures keys
  | insertGossipSignature dataRoot slot validatorId signature =>
    exact hsame.insertGossipSignature host dataRoot slot validatorId signature
  | _ => exact hsame

theorem SameContents.getLiveChain (host : Host H) {e' : Enumeration} (hsame : SameContents a b)
    (ha : UniqueSlots a) (hb : UniqueSlots b) (root : H) :
    (a.getLiveChain (enumerating host e)).lookup root =
      (b.getLiveChain (enumerating host e')).lookup root := by
  apply Option.ext
  intro entry
  rw [lookup_getLiveChain_iff _ ha, lookup_getLiveChain_iff _ hb, hsame.liveChain]

theorem SameContents.extractLatestAttestations (hsame : SameContents a b)
    (keys : List (SignatureKey H)) :
    a.extractLatestAttestations keys = b.extractLatestAttestations keys := by
  have hlookup : a.getAttestationDataByRoot = b.getAttestationDataByRoot :=
    funext hsame.attestationDataByRoot
  simp only [Store.extractLatestAttestations, hlookup]

theorem SameContents.getSignedBlock (host : Host H) (hsame : SameContents a b) (root : H) :
    a.getSignedBlock host root = b.getSignedBlock host root := by
  simp only [Store.getSignedBlock, hsame.blockHeaders, hsame.blockSignatures, hsame.blockBodies]

end Simulate

/-- One call on both backends, with the order in which each hands out the entries meanwhile and what
the ordered one estimates. -/
structure BackendCall (host : Host H) where
  op : StoreOp host
  memory : Enumeration
  ordered : Backend

def BackendCall.inMemory {host : Host H} (c : BackendCall host) : Backend := c.memory.inMemory

section Sample

/-- A hash map that hands out what went in last first, and one that does the opposite. -/
def newestFirst : Enumeration := ⟨fun l ↦ l, fun l ↦ List.Perm.refl l⟩

def oldestFirst : Enumeration := ⟨List.reverse, List.reverse_perm⟩

end Sample

end Ethlambda.Chain
