import Ethlambda.Chain.Backends
import Ethlambda.Storage.InMemory

namespace Ethlambda.Chain

open Ethlambda.Base Ethlambda.Types Ethlambda.Storage

/-- A root as the 32 bytes it is. -/
structure H256 where
  bytes : Vector UInt8 32
deriving DecidableEq

namespace H256

variable {ε : Type}

def toList (root : H256) : List UInt8 := root.bytes.toList

def fromSlice (bytes : List UInt8) : Exec ε H256 :=
  if h : bytes.length = 32 then .ok ⟨bytes.toArray, h⟩ else Exec.panic .assertion

theorem fromSlice_toList (root : H256) : (fromSlice root.toList : Exec ε H256) = .ok root := by
  have hlength : root.toList.length = 32 := root.bytes.length_toList
  rw [fromSlice, dif_pos hlength]
  refine congrArg (fun bytes ↦ Except.ok (mk bytes)) (Vector.toArray_inj.mp ?_)
  exact Array.toArray_toList

theorem toList_injective : Function.Injective toList := by
  intro a b h
  have hslice := fromSlice_toList (ε := Empty) a
  rw [h, fromSlice_toList] at hslice
  exact (Except.ok.inj hslice).symm

/-- Roots are compared byte by byte. -/
instance : LinearOrder H256 where
  le a b := a.toList ≤ b.toList
  lt a b := a.toList < b.toList
  le_refl a := List.le_refl a.toList
  le_trans a b c hab hbc := List.le_trans hab hbc
  le_antisymm a b hab hba := toList_injective (List.le_antisymm hab hba)
  le_total a b := List.le_total a.toList b.toList
  lt_iff_le_not_ge a b :=
    ⟨fun h ↦ ⟨List.le_of_lt h, List.not_le.mpr h⟩, fun h ↦ List.not_le.mp h.2⟩
  toDecidableLE a b := inferInstanceAs (Decidable (a.toList ≤ b.toList))
  toDecidableEq := inferInstance

instance : Zero H256 := ⟨⟨Vector.replicate 32 0⟩⟩

end H256

variable {ε : Type}

/-- The key of a live chain entry with a root of 32 bytes. -/
abbrev liveChainKey (key : UInt64 × H256) : List UInt8 := encodeLiveChainKey H256.toList key

def decodeLiveChainKey (bytes : List UInt8) : Exec ε (UInt64 × H256) := do
  let slotBytes ← Exec.index (if 8 ≤ bytes.length then some (bytes.take 8) else none)
  let root ← H256.fromSlice (bytes.drop 8)
  pure (UInt64.ofNat (fromBigEndian slotBytes), root)

/-- A backend that hands out the entries under a prefix in the order of their keys. -/
structure OrderedBackend where
  prefixIterator : TableData → List UInt8 → List (List UInt8 × List UInt8)
  complete : ∀ t start, (prefixIterator t start).Perm
    ((Table.pairs t).filter fun e ↦ start.isPrefixOf e.1)
  ascending : ∀ t start, ((prefixIterator t start).map Prod.fst).Pairwise (· < ·)

/-- One that sorts the entries anew each time. -/
def OrderedBackend.sorting : OrderedBackend where
  prefixIterator t start :=
    ((Table.pairs t).filter fun e ↦ start.isPrefixOf e.1).insertionSort fun e e' ↦ e.1 ≤ e'.1
  complete t start := List.perm_insertionSort _ _
  ascending t start := by
    set entries := (Table.pairs t).filter fun e ↦ start.isPrefixOf e.1 with hentries
    have : IsTrans (List UInt8 × List UInt8) fun e e' ↦ e.1 ≤ e'.1 :=
      ⟨fun _ _ _ h h' ↦ List.le_trans h h'⟩
    have : Std.Total fun e e' : List UInt8 × List UInt8 ↦ e.1 ≤ e'.1 :=
      ⟨fun e e' ↦ List.le_total e.1 e'.1⟩
    have hle : ((entries.insertionSort fun e e' ↦ e.1 ≤ e'.1).map Prod.fst).Pairwise (· ≤ ·) :=
      List.pairwise_map.mpr (List.pairwise_insertionSort _ entries)
    have hnodup : ((entries.insertionSort fun e e' ↦ e.1 ≤ e'.1).map Prod.fst).Nodup := by
      refine (((List.perm_insertionSort _ entries).map Prod.fst).nodup_iff).mpr ?_
      refine List.Nodup.sublist (List.filter_sublist.map Prod.fst) ?_
      rw [Table.map_fst_pairs]
      exact t.keys_nodup
    refine (hle.and hnodup).imp fun h ↦ ?_
    exact List.not_le.mp fun hge ↦ h.2 (List.le_antisymm h.1 hge)

/-- The keys up to the first one whose slot is not below the finalized slot. -/
def keysToDelete (finalizedSlot : UInt64) :
    List (List UInt8 × List UInt8) → Exec ε (List (List UInt8))
  | [] => pure []
  | (k, _) :: entries => do
    let (slot, _) ← decodeLiveChainKey k
    if slot < finalizedSlot then
      let keys ← keysToDelete finalizedSlot entries
      pure (k :: keys)
    else pure []

/-- What the pruning leaves in the table and how many entries it counts. -/
def OrderedBackend.pruneLiveChain (backend : OrderedBackend) (table : TableData)
    (finalizedSlot : UInt64) : Exec ε (TableData × ℕ) := do
  let keys ← keysToDelete finalizedSlot (backend.prefixIterator table [])
  let count := keys.length
  if count = 0 then pure (table, 0)
  else pure (Table.deleteBatch keys table, count)

section Key

theorem decodeLiveChainKey_encode (key : UInt64 × H256) :
    (decodeLiveChainKey (liveChainKey key) : Exec ε (UInt64 × H256)) = .ok key := by
  have hlength : (bigEndian 8 key.1.toNat).length = 8 := length_bigEndian 8 _
  have hfits : key.1.toNat < 256 ^ 8 := key.1.toNat_lt
  have hlong : 8 ≤ (liveChainKey key).length := by
    rw [liveChainKey, encodeLiveChainKey, List.length_append, hlength]
    omega
  have htake : (liveChainKey key).take 8 = bigEndian 8 key.1.toNat := List.take_left' hlength
  have hdrop : (liveChainKey key).drop 8 = key.2.toList := List.drop_left' hlength
  rw [decodeLiveChainKey, if_pos hlong, Exec.index_some, Exec.ok_bind, hdrop,
    H256.fromSlice_toList, Exec.ok_bind, htake, fromBigEndian_bigEndian hfits, UInt64.ofNat_toNat]
  rfl

theorem liveChainKey_injective : Function.Injective liveChainKey := by
  intro a b h
  have hdecode := decodeLiveChainKey_encode (ε := Empty) a
  rw [h, decodeLiveChainKey_encode] at hdecode
  exact (Except.ok.inj hdecode).symm

/-- The bytes of two keys are in the order of their slots, and of their roots in one slot. -/
theorem liveChainKey_lt_iff (a b : UInt64 × H256) :
    liveChainKey a < liveChainKey b ↔ a.1 < b.1 ∨ a.1 = b.1 ∧ a.2 < b.2 := by
  rw [liveChainKey, liveChainKey, encodeLiveChainKey, encodeLiveChainKey,
    bigEndian_append_lt_iff a.1.toNat_lt b.1.toNat_lt, UInt64.lt_iff_toNat_lt,
    UInt64.toNat_inj]
  rfl

end Key

/-- The live chain as its keys and values stand in the backend. -/
structure StoredAs (t : Table (UInt64 × H256) H256) (table : TableData) : Prop where
  lookup : ∀ key, table.lookup (liveChainKey key) = (t.lookup key).map H256.toList
  encoded : ∀ k ∈ table.keys, ∃ key, k = liveChainKey key

section Prune

variable {t : Table (UInt64 × H256) H256} {table : TableData} {finalizedSlot : UInt64}

theorem StoredAs.empty : StoredAs ∅ ∅ := ⟨fun _ ↦ rfl, fun _ h ↦ absurd h List.not_mem_nil⟩

theorem StoredAs.insert (h : StoredAs t table) (key : UInt64 × H256) (parent : H256) :
    StoredAs (t.insert key parent) (table.insert (liveChainKey key) parent.toList) where
  lookup := by
    intro key'
    rw [Table.lookup_insert_eq_ite, Table.lookup_insert_eq_ite, h.lookup]
    by_cases heq : key' = key
    · rw [if_pos heq, if_pos (congrArg liveChainKey heq), Option.map_some]
    · rw [if_neg heq, if_neg (liveChainKey_injective.ne heq)]
  encoded := by
    intro k hk
    rcases AList.mem_insert table |>.mp (AList.mem_keys.mpr hk) with rfl | hk
    · exact ⟨key, rfl⟩
    · exact h.encoded k (AList.mem_keys.mp hk)

theorem StoredAs.keys_perm (h : StoredAs t table) : table.keys.Perm (t.keys.map liveChainKey) := by
  refine (List.perm_ext_iff_of_nodup table.keys_nodup
    (t.keys_nodup.map liveChainKey_injective)).mpr fun k ↦ ?_
  rw [List.mem_map]
  constructor
  · intro hk
    obtain ⟨key, rfl⟩ := h.encoded k hk
    have hsome := AList.lookup_isSome.mpr (AList.mem_keys.mpr hk)
    rw [h.lookup, Option.isSome_map] at hsome
    exact ⟨key, AList.mem_keys.mp (AList.lookup_isSome.mp hsome), rfl⟩
  · rintro ⟨key, hkey, rfl⟩
    have hsome := AList.lookup_isSome.mpr (AList.mem_keys.mpr hkey)
    refine AList.mem_keys.mp (AList.lookup_isSome.mp ?_)
    rw [h.lookup, Option.isSome_map]
    exact hsome

/-- Over the entries of encoded keys in ascending order, all keys of old slots are found. -/
theorem keysToDelete_eq {keys : List (UInt64 × H256)} {entries : List (List UInt8 × List UInt8)}
    (hkeys : entries.map Prod.fst = keys.map liveChainKey)
    (hascending : (keys.map liveChainKey).Pairwise (· < ·)) :
    (keysToDelete finalizedSlot entries : Exec ε (List (List UInt8))) =
      .ok ((keys.filter fun key ↦ decide (key.1 < finalizedSlot)).map liveChainKey) := by
  induction keys generalizing entries with
  | nil =>
    obtain rfl : entries = [] := List.map_eq_nil_iff.mp hkeys
    rfl
  | cons key keys ih =>
    cases entries with
    | nil => exact nomatch hkeys
    | cons entry entries =>
      obtain ⟨hfirst, hrest⟩ := List.cons.inj hkeys
      rw [List.map_cons, List.pairwise_cons] at hascending
      obtain ⟨hleast, hascending⟩ := hascending
      rw [keysToDelete, hfirst, decodeLiveChainKey_encode, Exec.ok_bind]
      dsimp only
      by_cases hold : key.1 < finalizedSlot
      · have hfilter : (key :: keys).filter (fun key ↦ decide (key.1 < finalizedSlot)) =
            key :: keys.filter fun key ↦ decide (key.1 < finalizedSlot) :=
          List.filter_cons_of_pos (decide_eq_true hold)
        rw [if_pos hold, ih hrest hascending, Exec.ok_bind, hfilter]
        rfl
      · -- no later key has a smaller slot
        have hlater : ∀ key' ∈ keys, ¬ key'.1 < finalizedSlot := by
          intro key' hkey' hlt
          have hle := (liveChainKey_lt_iff key key').mp
            (hleast _ (List.mem_map_of_mem hkey'))
          rcases hle with h | ⟨h, -⟩
          · exact hold (UInt64.lt_trans h hlt)
          · exact hold (h ▸ hlt)
        have hnone : (key :: keys).filter (fun key ↦ decide (key.1 < finalizedSlot)) = [] := by
          refine List.filter_eq_nil_iff.mpr fun key' hkey' ↦ ?_
          rw [decide_eq_true_eq]
          rcases List.mem_cons.mp hkey' with rfl | hkey'
          · exact hold
          · exact hlater key' hkey'
        rw [if_neg hold, hnone]
        rfl

/-- The iterator hands out the entries by their keys, in one order or another. -/
theorem StoredAs.iterated (h : StoredAs t table) (backend : OrderedBackend) :
    ∃ keys : List (UInt64 × H256), keys.Perm t.keys ∧
      (backend.prefixIterator table []).map Prod.fst = keys.map liveChainKey := by
  have hall : (Table.pairs table).filter (fun e ↦ List.isPrefixOf [] e.1) = Table.pairs table :=
    List.filter_eq_self.mpr fun e _ ↦ rfl
  have hperm : ((backend.prefixIterator table []).map Prod.fst).Perm (t.keys.map liveChainKey) := by
    refine ((backend.complete table []).map Prod.fst).trans ?_
    rw [hall, Table.map_fst_pairs]
    exact h.keys_perm
  obtain ⟨keys, hkeys, hpermKeys⟩ := (congrFun₂ (List.eq_map_comp_perm liveChainKey) _ _).mpr hperm
  exact ⟨keys, hpermKeys, hkeys⟩

theorem StoredAs.deleteBatch (h : StoredAs t table) (keys : List (UInt64 × H256))
    (drop : UInt64 × H256 → Bool) (hkeys : ∀ key, key ∈ keys ↔ key ∈ t ∧ drop key = true) :
    StoredAs (Table.retain (fun key _ ↦ !drop key) t)
      (Table.deleteBatch (keys.map liveChainKey) table) where
  lookup := by
    intro key
    have hmap : liveChainKey key ∈ keys.map liveChainKey ↔ key ∈ t ∧ drop key = true := by
      rw [List.mem_map_of_injective liveChainKey_injective, hkeys]
    rw [Table.lookup_deleteBatch, h.lookup, Table.lookup_retain]
    simp only [hmap]
    cases hlookup : t.lookup key with
    | none => simp
    | some parent =>
      have hmem : key ∈ t := AList.lookup_isSome.mp (hlookup ▸ rfl)
      cases hdrop : drop key with
      | false => simp
      | true => simp [hmem]
  encoded := by
    intro k hk
    refine h.encoded k (AList.mem_keys.mp (AList.lookup_isSome.mp ?_))
    have hsome := AList.lookup_isSome.mpr (AList.mem_keys.mpr hk)
    rw [Table.lookup_deleteBatch] at hsome
    split at hsome
    · exact nomatch hsome
    · exact hsome

/-- The pruning leaves the entries from the finalized slot on and counts the others. -/
theorem StoredAs.prune (h : StoredAs t table) (backend : OrderedBackend) (finalizedSlot : UInt64) :
    ∃ table', (backend.pruneLiveChain table finalizedSlot : Exec ε (TableData × ℕ)) =
        .ok (table', (t.keys.filter fun key ↦ decide (key.1 < finalizedSlot)).length) ∧
      StoredAs (Table.retain (fun key _ ↦ !decide (key.1 < finalizedSlot)) t) table' := by
  obtain ⟨keys, hperm, hkeys⟩ := h.iterated backend
  have hascending := hkeys ▸ backend.ascending table []
  have hcount : ((keys.filter fun key ↦ decide (key.1 < finalizedSlot)).map liveChainKey).length =
      (t.keys.filter fun key ↦ decide (key.1 < finalizedSlot)).length := by
    rw [List.length_map]
    exact (hperm.filter _).length_eq
  have hdelete := h.deleteBatch (keys.filter fun key ↦ decide (key.1 < finalizedSlot))
    (fun key ↦ decide (key.1 < finalizedSlot)) fun key ↦ by
      rw [List.mem_filter, hperm.mem_iff, AList.mem_keys]
  rw [OrderedBackend.pruneLiveChain, keysToDelete_eq hkeys hascending, Exec.ok_bind]
  dsimp only
  rw [hcount]
  split
  · rename_i hnone
    have hempty : keys.filter (fun key ↦ decide (key.1 < finalizedSlot)) = [] := by
      rw [hnone, List.length_map] at hcount
      exact List.length_eq_zero_iff.mp hcount
    refine ⟨table, by rw [hnone]; rfl, ?_⟩
    have hnothing : Table.deleteBatch ([] : List (List UInt8)) table = table :=
      Table.retain_eq_self fun k v _ ↦ rfl
    rw [hempty, List.map_nil, hnothing] at hdelete
    exact hdelete
  · exact ⟨_, rfl, hdelete⟩

end Prune

/-- The pruning of the store is the pruning of the bytes, on any backend that keeps them in order. -/
theorem StoredAs.pruneLiveChain {host : Host H256} {e : Enumeration} {s : Store H256}
    {table : TableData} (h : StoredAs s.liveChain table) (he : e.Ascending H256.toList)
    (backend : OrderedBackend) (finalizedSlot : UInt64) :
    ∃ table', (backend.pruneLiveChain table finalizedSlot : Exec ε (TableData × ℕ)) =
        .ok (table', (liveChainKeysBelow e s finalizedSlot).length) ∧
      StoredAs (s.pruneLiveChain (enumerating host e) finalizedSlot).liveChain table' := by
  obtain ⟨table', hrun, hstored⟩ := h.prune (ε := ε) backend finalizedSlot
  have hbelow := liveChainKeysBelow_eq (he.oldFirst s finalizedSlot)
  have hcount : (liveChainKeysBelow e s finalizedSlot).length =
      (s.liveChain.keys.filter fun key ↦ decide (key.1 < finalizedSlot)).length := by
    rw [hbelow]
    exact ((e.order_perm _).filter _).length_eq
  refine ⟨table', hcount ▸ hrun, fun key ↦ ?_, hstored.encoded⟩
  have hmem : key ∈ liveChainKeysBelow e s finalizedSlot ↔
      key ∈ s.liveChain ∧ key.1 < finalizedSlot := by
    rw [hbelow, List.mem_filter, (e.order_perm _).mem_iff, ← AList.mem_keys, decide_eq_true_eq]
  rw [hstored.lookup, lookup_pruneLiveChain, Table.lookup_retain]
  simp only [hmem]
  cases hlookup : s.liveChain.lookup key with
  | none => simp
  | some parent =>
    have hkey : key ∈ s.liveChain := AList.lookup_isSome.mp (hlookup ▸ rfl)
    by_cases hold : key.1 < finalizedSlot
    · simp [hkey, hold]
    · simp [hold]

/-- The table after a number of writes. -/
def writtenLiveChain (entries : List ((UInt64 × H256) × H256)) : TableData :=
  Table.putBatch (entries.map fun p ↦ (liveChainKey p.1, p.2.toList)) ∅

theorem writtenLiveChain_storedAs (entries : List ((UInt64 × H256) × H256)) :
    StoredAs (Table.putBatch entries ∅) (writtenLiveChain entries) := by
  induction entries using List.reverseRecOn with
  | nil => exact .empty
  | append_singleton entries p ih =>
    have hstep := ih.insert p.1 p.2
    rw [writtenLiveChain, Table.putBatch, Table.putBatch, List.map_append, List.foldl_append,
      List.foldl_append]
    exact hstep

theorem keys_putBatch_toFinset (entries : List ((UInt64 × H256) × H256)) :
    (Table.putBatch entries ∅).keys.toFinset = (entries.map Prod.fst).toFinset := by
  induction entries using List.reverseRecOn with
  | nil => rfl
  | append_singleton entries p ih =>
    ext key
    have hih := congrArg (key ∈ ·) ih
    simp only [List.mem_toFinset, AList.mem_keys.symm, eq_iff_iff] at hih
    rw [Table.putBatch, List.foldl_append, ← Table.putBatch, List.mem_toFinset, ← AList.mem_keys,
      List.mem_toFinset, List.map_append, List.mem_append]
    change key ∈ (Table.putBatch entries ∅).insert p.1 p.2 ↔ key ∈ entries.map Prod.fst ∨ key ∈ [p.1]
    rw [AList.mem_insert, hih, List.mem_singleton, or_comm]

theorem pruneLiveChain_exact (backend : OrderedBackend)
    (entries : List ((UInt64 × H256) × H256)) (finalizedSlot : UInt64) :
    (∃ table' count, (backend.pruneLiveChain (writtenLiveChain entries) finalizedSlot :
          Exec ε (TableData × ℕ)) = .ok (table', count) ∧
        (∀ key, table'.lookup (liveChainKey key) = if key.1 < finalizedSlot then none
          else (writtenLiveChain entries).lookup (liveChainKey key)) ∧
        (∀ k ∈ table'.keys, ∃ key, k = liveChainKey key) ∧
        count = ((entries.map Prod.fst).toFinset.filter fun key ↦ key.1 < finalizedSlot).card) ∧
      (∀ key key' : UInt64 × H256,
        liveChainKey key < liveChainKey key' ↔ toLex key < toLex key') ∧
      ∀ key, (decodeLiveChainKey (liveChainKey key) : Exec ε (UInt64 × H256)) = .ok key := by
  have hstored := writtenLiveChain_storedAs entries
  obtain ⟨table', hrun, hpruned⟩ := hstored.prune (ε := ε) backend finalizedSlot
  refine ⟨⟨table', _, hrun, fun key ↦ ?_, hpruned.encoded, ?_⟩, fun key key' ↦ ?_,
    decodeLiveChainKey_encode⟩
  · rw [hpruned.lookup, hstored.lookup, Table.lookup_retain]
    cases (Table.putBatch entries ∅).lookup key with
    | none => simp
    | some parent =>
      by_cases hold : key.1 < finalizedSlot
      · simp [hold]
      · simp [hold]
  · rw [← keys_putBatch_toFinset,
      ← List.toFinset_card_of_nodup ((Table.putBatch entries ∅).keys_nodup.filter _),
      List.toFinset_filter]
    simp only [decide_eq_true_eq]
  · rw [liveChainKey_lt_iff, Prod.Lex.toLex_lt_toLex]

section Sample

def sampleRoot (byte : UInt8) : H256 := ⟨Vector.replicate 32 byte⟩

/-- Two blocks of slot 1 and one of a slot whose lowest byte is smaller. -/
def sampleLiveChain : List ((UInt64 × H256) × H256) :=
  [((256, sampleRoot 9), sampleRoot 8), ((1, sampleRoot 8), sampleRoot 7),
    ((1, sampleRoot 6), sampleRoot 7)]

theorem pruneLiveChain_exact_sample :
    ∃ table', (OrderedBackend.sorting.pruneLiveChain (writtenLiveChain sampleLiveChain) 2 :
        Exec Empty (TableData × ℕ)) = .ok (table', 2) ∧
      table'.lookup (liveChainKey (1, sampleRoot 6)) = none ∧
      table'.lookup (liveChainKey (256, sampleRoot 9)) = some (sampleRoot 8).toList ∧
      liveChainKey (1, sampleRoot 8) < liveChainKey (256, sampleRoot 6) := by
  obtain ⟨⟨table', count, hrun, hlookup, -, hcount⟩, horder, -⟩ :=
    pruneLiveChain_exact (ε := Empty) OrderedBackend.sorting sampleLiveChain 2
  have htwo : ((sampleLiveChain.map Prod.fst).toFinset.filter fun key ↦ key.1 < 2).card = 2 := by
    decide +kernel
  obtain rfl := hcount.trans htwo
  refine ⟨table', hrun, ?_, ?_, (horder _ _).mpr (Prod.Lex.toLex_lt_toLex.mpr (.inl (by decide)))⟩
  · rw [hlookup, if_pos (by decide)]
  · rw [hlookup, if_neg (by decide)]
    decide +kernel

end Sample

end Ethlambda.Chain
