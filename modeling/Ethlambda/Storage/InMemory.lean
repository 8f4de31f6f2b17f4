import Ethlambda.Base.Exec
import Ethlambda.Base.Journal

namespace Ethlambda.Storage

open Ethlambda.Base

/-- Tables in the storage layer. -/
inductive TableId
  | blockHeaders
  | blockBodies
  | blockSignatures
  | states
  | gossipSignatures
  | attestationDataByRoot
  | metadata
  | liveChain
deriving DecidableEq

def allTables : List TableId :=
  [.blockHeaders, .blockBodies, .blockSignatures, .states, .gossipSignatures, .attestationDataByRoot,
    .metadata, .liveChain]

theorem mem_allTables (table : TableId) : table ∈ allTables := by
  cases table <;> decide

abbrev TableData := Table (List UInt8) (List UInt8)

abbrev StorageData := Table TableId TableData

/-- Pending operation for a key. The last operation wins. -/
abbrev PendingOp := Change (List UInt8)

abbrev PendingOps := Table TableId (Table (List UInt8) PendingOp)

/-- Every table is there from the start, and none is ever removed. -/
structure InMemoryBackend where
  data : StorageData
  complete : ∀ table, ∃ t, data.lookup table = some t

def InMemoryBackend.new : InMemoryBackend where
  data := Table.ofPairs (allTables.map fun table ↦ (table, ∅))
  complete := by
    intro table
    refine ⟨∅, (Table.lookup_ofPairs (by decide)).mpr ?_⟩
    exact List.mem_map.mpr ⟨table, mem_allTables table, rfl⟩

def read {ε : Type} (data : StorageData) (table : TableId) (key : List UInt8) :
    Exec ε (Option (List UInt8)) := do
  let t ← Exec.expect "table exists" (data.lookup table)
  pure (t.lookup key)

/-- The changes of a batch, next to the data they are meant for. -/
structure InMemoryWriteBatch where
  data : StorageData
  ops : PendingOps

def InMemoryBackend.beginWrite (backend : InMemoryBackend) : InMemoryWriteBatch := ⟨backend.data, ∅⟩

/-- The order in which the operations of a batch come out of their maps. -/
structure ReplayOrder where
  tables : PendingOps → List (TableId × Table (List UInt8) PendingOp)
  keys : TableId → Table (List UInt8) PendingOp → List (List UInt8 × PendingOp)
  tables_perm : ∀ ops, (tables ops).Perm (Table.pairs ops)
  keys_perm : ∀ table ops, (keys table ops).Perm (Table.pairs ops)

namespace InMemoryWriteBatch

def record (table : TableId) (changes : List (List UInt8 × PendingOp)) (b : InMemoryWriteBatch) :
    InMemoryWriteBatch :=
  let tableOps := (b.ops.lookup table).getD ∅
  { b with ops := b.ops.insert table (Table.putBatch changes tableOps) }

def putBatch (table : TableId) (batch : List (List UInt8 × List UInt8)) (b : InMemoryWriteBatch) :
    InMemoryWriteBatch := record table (batch.map fun p ↦ (p.1, .put p.2)) b

def deleteBatch (table : TableId) (keys : List (List UInt8)) (b : InMemoryWriteBatch) :
    InMemoryWriteBatch := record table (keys.map fun key ↦ (key, .delete)) b

def commitTable {ε : Type} (order : ReplayOrder) (data : StorageData)
    (e : TableId × Table (List UInt8) PendingOp) : Exec ε StorageData := do
  let t ← Exec.expect "table exists" (data.lookup e.1)
  pure (data.insert e.1 (Change.applyAll (order.keys e.1 e.2) t))

def commit {ε : Type} (order : ReplayOrder) (b : InMemoryWriteBatch) : Exec ε StorageData :=
  (order.tables b.ops).foldlM (commitTable order) b.data

end InMemoryWriteBatch

/-- The calls that fill a batch. -/
inductive BatchCall
  | putBatch (table : TableId) (batch : List (List UInt8 × List UInt8))
  | deleteBatch (table : TableId) (keys : List (List UInt8))

namespace BatchCall

def table : BatchCall → TableId
  | .putBatch table _ => table
  | .deleteBatch table _ => table

/-- The single puts and deletes of a call. -/
def changes : BatchCall → List (List UInt8 × PendingOp)
  | .putBatch _ batch => batch.map fun p ↦ (p.1, .put p.2)
  | .deleteBatch _ keys => keys.map fun key ↦ (key, .delete)

def perform (b : InMemoryWriteBatch) : BatchCall → InMemoryWriteBatch
  | .putBatch table batch => b.putBatch table batch
  | .deleteBatch table keys => b.deleteBatch table keys

theorem perform_eq (b : InMemoryWriteBatch) (call : BatchCall) :
    perform b call = b.record call.table call.changes := by
  cases call with
  | putBatch table batch => rfl
  | deleteBatch table keys => rfl

end BatchCall

/-- What is stored under each key of each table, if anything. -/
abbrev Contents := TableId → List UInt8 → Option (List UInt8)

def InMemoryBackend.contents (backend : InMemoryBackend) : Contents :=
  fun table key ↦ (backend.data.lookup table).bind fun t ↦ t.lookup key

namespace Contents

/-- A single put or delete. -/
def write (table : TableId) (c : Contents) (key : List UInt8) (value : Option (List UInt8)) :
    Contents := Function.update c table (Function.update (c table) key value)

/-- The puts or deletes of a call, one after the other. -/
def call (c : Contents) : BatchCall → Contents
  | .putBatch table batch => batch.foldl (fun c p ↦ c.write table p.1 (some p.2)) c
  | .deleteBatch table keys => keys.foldl (fun c key ↦ c.write table key none) c

end Contents

/-- What the calls do to one table. -/
def tableLog (calls : List BatchCall) (table : TableId) : List (List UInt8 × PendingOp) :=
  calls.flatMap fun call ↦ if call.table = table then call.changes else []

section Batch

variable {ε : Type} {table : TableId} {t : TableData} {data : StorageData} {calls : List BatchCall}

theorem Contents.write_eq_ite (c : Contents) (written : TableId) (key k : List UInt8)
    (value : Option (List UInt8)) :
    c.write written key value table k = if table = written ∧ k = key then value else c table k := by
  unfold Contents.write
  by_cases ht : table = written
  · subst ht
    rw [Function.update_self, Function.update_apply]
    simp only [true_and]
  · rw [Function.update_of_ne ht, if_neg fun h ↦ ht h.1]

/-- A call writes its changes in their order, the last one of a key stays. -/
theorem Contents.call_eq (c : Contents) (call : BatchCall) (key : List UInt8) :
    c.call call table key =
      if call.table = table then Change.overlay (Change.last call.changes key) (c table key)
      else c table key := by
  cases call with
  | putBatch written batch =>
    change batch.foldl _ c table key = if written = table then
      Change.overlay (Change.last (batch.map fun p ↦ (p.1, Change.put p.2)) key) (c table key) else _
    induction batch generalizing c with
    | nil => exact (ite_self _).symm
    | cons p batch ih =>
      rw [List.foldl_cons, ih, Contents.write_eq_ite, List.map_cons, Change.last_cons,
        Change.overlay_or]
      by_cases ht : written = table
      · subst ht
        by_cases hk : key = p.1
        · simp [hk, Change.overlay, Change.result]
        · simp [hk, Change.overlay]
      · rw [if_neg ht, if_neg ht, if_neg fun h ↦ ht h.1.symm]
  | deleteBatch written keys =>
    change keys.foldl _ c table key = if written = table then
      Change.overlay (Change.last (keys.map fun key ↦ (key, Change.delete)) key) (c table key) else _
    induction keys generalizing c with
    | nil => exact (ite_self _).symm
    | cons k keys ih =>
      rw [List.foldl_cons, ih, Contents.write_eq_ite, List.map_cons, Change.last_cons,
        Change.overlay_or]
      by_cases ht : written = table
      · subst ht
        by_cases hk : key = k
        · simp [hk, Change.overlay, Change.result]
        · simp [hk, Change.overlay]
      · rw [if_neg ht, if_neg ht, if_neg fun h ↦ ht h.1.symm]

theorem Contents.foldl_call (c : Contents) (calls : List BatchCall) (key : List UInt8) :
    calls.foldl Contents.call c table key =
      Change.overlay (Change.last (tableLog calls table) key) (c table key) := by
  induction calls generalizing c with
  | nil => rfl
  | cons call calls ih =>
    have hlog : tableLog (call :: calls) table =
        (if call.table = table then call.changes else []) ++ tableLog calls table := List.flatMap_cons
    rw [List.foldl_cons, ih, Contents.call_eq, hlog, Change.last_append, Change.overlay_or]
    by_cases ht : call.table = table
    · rw [if_pos ht, if_pos ht]
    · rw [if_neg ht, if_neg ht]
      rfl

/-- Filling a batch leaves the data alone and keeps the log of every table. -/
theorem foldl_perform (calls : List BatchCall) (table : TableId) (b : InMemoryWriteBatch) :
    (calls.foldl BatchCall.perform b).data = b.data ∧
      ((calls.foldl BatchCall.perform b).ops.lookup table).getD ∅ =
        Table.putBatch (tableLog calls table) ((b.ops.lookup table).getD ∅) := by
  induction calls generalizing b with
  | nil => exact ⟨rfl, rfl⟩
  | cons call calls ih =>
    rw [List.foldl_cons, BatchCall.perform_eq]
    obtain ⟨hdata, hops⟩ := ih (b.record call.table call.changes)
    refine ⟨hdata, hops.trans ?_⟩
    rw [tableLog, tableLog, List.flatMap_cons, Table.putBatch, Table.putBatch, List.foldl_append]
    congr 1
    unfold InMemoryWriteBatch.record
    dsimp only
    rw [Table.lookup_insert_eq_ite]
    by_cases ht : table = call.table
    · rw [if_pos ht, if_pos ht.symm, ht]
      rfl
    · rw [if_neg ht, if_neg (Ne.symm ht)]
      rfl

/-- The tables are written one by one, each once. -/
theorem foldlM_commitTable (order : ReplayOrder)
    {l : List (TableId × Table (List UInt8) PendingOp)} (hl : (l.map Prod.fst).Nodup)
    (hcomplete : ∀ table, ∃ t, data.lookup table = some t) :
    ∃ data', (l.foldlM (InMemoryWriteBatch.commitTable order) data : Exec ε StorageData) = .ok data' ∧
      ∀ table t, data.lookup table = some t →
        (∀ ops, (table, ops) ∈ l →
          data'.lookup table = some (Change.applyAll (order.keys table ops) t)) ∧
        (table ∉ l.map Prod.fst → data'.lookup table = some t) := by
  induction l generalizing data with
  | nil => exact ⟨data, rfl, fun table t h ↦ ⟨fun ops hops ↦ absurd hops List.not_mem_nil, fun _ ↦ h⟩⟩
  | cons e l ih =>
    obtain ⟨first, ops⟩ := e
    rw [List.map_cons, List.nodup_cons] at hl
    obtain ⟨t, ht⟩ := hcomplete first
    have hone : (InMemoryWriteBatch.commitTable order data (first, ops) : Exec ε StorageData) =
        .ok (data.insert first (Change.applyAll (order.keys first ops) t)) := by
      rw [InMemoryWriteBatch.commitTable, ht]
      rfl
    have hnext : ∀ table, ∃ t', (data.insert first
        (Change.applyAll (order.keys first ops) t)).lookup table = some t' := by
      intro table
      rw [Table.lookup_insert_eq_ite]
      split
      · exact ⟨_, rfl⟩
      · exact hcomplete table
    obtain ⟨data', hrest, hdata'⟩ := ih hl.2 hnext
    refine ⟨data', ?_, fun table t' ht' ↦ ?_⟩
    · rw [List.foldlM_cons, hone]
      exact hrest
    · by_cases hfirst : table = first
      · subst hfirst
        obtain rfl := Option.some.inj (ht.symm.trans ht')
        have hkept := (hdata' table _ (AList.lookup_insert _)).2 hl.1
        refine ⟨fun ops' hops' ↦ ?_, fun hnot ↦ absurd List.mem_cons_self hnot⟩
        rcases List.mem_cons.mp hops' with heq | hmem
        · obtain ⟨-, rfl⟩ := Prod.mk.inj heq
          exact hkept
        · exact absurd (List.mem_map.mpr ⟨_, hmem, rfl⟩) hl.1
      · have hold := hdata' table t' ((AList.lookup_insert_ne hfirst).trans ht')
        refine ⟨fun ops' hops' ↦ ?_, fun hnot ↦ ?_⟩
        · rcases List.mem_cons.mp hops' with heq | hmem
          · exact absurd (Prod.mk.inj heq).1 hfirst
          · exact hold.1 ops' hmem
        · exact hold.2 fun hmem ↦ hnot (List.mem_cons_of_mem _ hmem)

theorem read_of_lookup {key : List UInt8} (h : data.lookup table = some t) :
    (read data table key : Exec ε (Option (List UInt8))) = .ok (t.lookup key) := by
  rw [read, h]
  rfl

/-- What a commit leaves under a key: the last put or delete of the calls decides, in whatever order
the maps hand them out. -/
theorem read_commit (backend : InMemoryBackend) (calls : List BatchCall) (order : ReplayOrder) :
    ∃ data, ((calls.foldl BatchCall.perform backend.beginWrite).commit order :
        Exec ε StorageData) = .ok data ∧
      ∀ table key, (read data table key : Exec ε (Option (List UInt8))) =
        .ok (Change.overlay (Change.last (tableLog calls table) key) (backend.contents table key)) := by
  have hfill (table : TableId) := foldl_perform calls table backend.beginWrite
  generalize calls.foldl BatchCall.perform backend.beginWrite = b at hfill
  have hdata : b.data = backend.data := (hfill .states).1
  have hkeys : ((order.tables b.ops).map Prod.fst).Nodup := by
    rw [((order.tables_perm b.ops).map Prod.fst).nodup_iff, Table.map_fst_pairs]
    exact b.ops.keys_nodup
  obtain ⟨data, hcommit, hwritten⟩ := foldlM_commitTable order hkeys
    (hdata ▸ backend.complete)
  refine ⟨data, hcommit, fun table key ↦ ?_⟩
  obtain ⟨t, ht⟩ := backend.complete table
  have hold : backend.contents table key = t.lookup key := by
    rw [InMemoryBackend.contents, ht]
    rfl
  have hlast := Change.lookup_putBatch_eq_last (tableLog calls table) ∅ key
  have hops := (hfill table).2
  change _ = Table.putBatch (tableLog calls table) ∅ at hops
  rw [hold]
  rw [← hdata] at ht
  cases hlookup : b.ops.lookup table with
  | none =>
    have hnot : table ∉ (order.tables b.ops).map Prod.fst := by
      rw [((order.tables_perm b.ops).map Prod.fst).mem_iff, Table.map_fst_pairs]
      exact fun hmem ↦ AList.lookup_eq_none.mp hlookup (AList.mem_keys.mpr hmem)
    rw [read_of_lookup ((hwritten table t ht).2 hnot)]
    rw [← hops, hlookup] at hlast
    have hnone : Change.last (tableLog calls table) key = none := by simpa using hlast.symm
    rw [hnone]
    rfl
  | some ops =>
    have hmem : (table, ops) ∈ order.tables b.ops :=
      (order.tables_perm b.ops).mem_iff.mpr (Table.mem_pairs.mpr hlookup)
    rw [read_of_lookup ((hwritten table t ht).1 ops hmem), Change.lookup_applyAll,
      Change.last_eq_lookup (order.keys_perm table ops)]
    rw [hlookup, Option.getD_some] at hops
    rw [hops, hlast]
    simp

/-- A batch shows nothing before it is committed. Then every key of every table holds what single
puts and deletes leave in it one after the other: what was put there last, nothing when it was deleted
last, and what it held before when no call names it. -/
theorem commit_eq_sequential (backend : InMemoryBackend) (calls : List BatchCall)
    (order : ReplayOrder) :
    (calls.foldl BatchCall.perform backend.beginWrite).data = backend.data ∧
      ∃ data, ((calls.foldl BatchCall.perform backend.beginWrite).commit order :
          Exec ε StorageData) = .ok data ∧
        ∀ table key,
          (read data table key : Exec ε (Option (List UInt8))) =
            .ok (calls.foldl Contents.call backend.contents table key) ∧
          (∀ value, Change.last (tableLog calls table) key = some (.put value) →
            (read data table key : Exec ε (Option (List UInt8))) = .ok (some value)) ∧
          (Change.last (tableLog calls table) key = some .delete →
            (read data table key : Exec ε (Option (List UInt8))) = .ok none) ∧
          (Change.last (tableLog calls table) key = none →
            (read data table key : Exec ε (Option (List UInt8))) =
              read backend.data table key) := by
  obtain ⟨data, hcommit, hread⟩ := read_commit backend calls order
  refine ⟨(foldl_perform calls .states backend.beginWrite).1, data, hcommit, fun table key ↦ ?_⟩
  obtain ⟨t, ht⟩ := backend.complete table
  have hbefore : (read backend.data table key : Exec ε (Option (List UInt8))) =
      .ok (backend.contents table key) := by
    rw [read_of_lookup ht, InMemoryBackend.contents, ht]
    rfl
  rw [hread, Contents.foldl_call, hbefore]
  refine ⟨rfl, fun value hlast ↦ ?_, fun hlast ↦ ?_, fun hlast ↦ ?_⟩
  · rw [hlast]
    rfl
  · rw [hlast]
    rfl
  · rw [hlast]
    rfl

/-- Last in, first out. -/
def ReplayOrder.reversed : ReplayOrder where
  tables := fun ops ↦ (Table.pairs ops).reverse
  keys := fun _ ops ↦ (Table.pairs ops).reverse
  tables_perm := fun _ ↦ List.reverse_perm _
  keys_perm := fun _ _ ↦ List.reverse_perm _

/-- Key 1 is put, deleted and put again, key 2 put and deleted, key 3 put in another table. -/
def overlappingCalls : List BatchCall :=
  [.putBatch .states [([1], [7]), ([2], [8])], .putBatch .metadata [([3], [9])],
    .deleteBatch .states [[2], [1]], .putBatch .states [([1], [5]), ([1], [6])]]

theorem commit_eq_sequential_sample : ∃ data,
    ((overlappingCalls.foldl BatchCall.perform InMemoryBackend.new.beginWrite).commit
        ReplayOrder.reversed : Exec Empty StorageData) = .ok data ∧
      (read data .states [1] : Exec Empty _) = .ok (some [6]) ∧
      (read data .states [2] : Exec Empty _) = .ok none ∧
      (read data .metadata [3] : Exec Empty _) = .ok (some [9]) ∧
      (read data .states [3] : Exec Empty _) = read InMemoryBackend.new.data .states [3] := by
  obtain ⟨-, data, hcommit, hread⟩ :=
    commit_eq_sequential InMemoryBackend.new overlappingCalls ReplayOrder.reversed
  exact ⟨data, hcommit, (hread .states [1]).2.1 [6] rfl, (hread .states [2]).2.2.1 rfl,
    (hread .metadata [3]).2.1 [9] rfl, (hread .states [3]).2.2.2 rfl⟩

end Batch

end Ethlambda.Storage
