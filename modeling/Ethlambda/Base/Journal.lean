import Ethlambda.Base.Table

namespace Ethlambda.Base

/-- What may be done to the entry of one key. -/
inductive Change (V : Type)
  | put (value : V)
  | delete

namespace Change

variable {K V : Type}

/-- What the key holds afterwards. -/
def result : Change V → Option V
  | .put value => some value
  | .delete => none

/-- What a key holds that was changed last by the given operation, if at all. -/
def overlay (c : Option (Change V)) (old : Option V) : Option V :=
  match c with
  | none => old
  | some c => c.result

variable [DecidableEq K]

def apply (t : Table K V) (p : K × Change V) : Table K V :=
  match p.2 with
  | .put value => t.insert p.1 value
  | .delete => t.erase p.1

/-- Operations one after the other. -/
def applyAll (log : List (K × Change V)) (t : Table K V) : Table K V := log.foldl apply t

/-- The last operation on a key. -/
def last (log : List (K × Change V)) (k : K) : Option (Change V) :=
  log.foldl (fun c p ↦ if k = p.1 then some p.2 else c) none

theorem lookup_apply (t : Table K V) (p : K × Change V) (k : K) :
    (apply t p).lookup k = if k = p.1 then p.2.result else t.lookup k := by
  unfold apply
  split
  · rename_i value hp
    rw [Table.lookup_insert_eq_ite, hp]
    rfl
  · rename_i hp
    rw [Table.lookup_erase_eq_ite, hp]
    rfl

/-- The fold that finds the last operation, from any operation before. -/
theorem foldl_last (log : List (K × Change V)) (k : K) (c : Option (Change V)) :
    log.foldl (fun c p ↦ if k = p.1 then some p.2 else c) c = (last log k).or c := by
  induction log generalizing c with
  | nil => simp [last]
  | cons p log ih =>
    rw [last, List.foldl_cons, List.foldl_cons, ih, ih]
    by_cases hk : k = p.1
    · simp [hk]
    · simp [hk]

@[simp] theorem last_nil (k : K) : last ([] : List (K × Change V)) k = none := rfl

theorem last_cons (p : K × Change V) (log : List (K × Change V)) (k : K) :
    last (p :: log) k = (last log k).or (if k = p.1 then some p.2 else none) := by
  rw [last, List.foldl_cons, foldl_last]

theorem last_append (log log' : List (K × Change V)) (k : K) :
    last (log ++ log') k = (last log' k).or (last log k) := by
  rw [last, List.foldl_append, foldl_last, ← last]

theorem overlay_or (c d : Option (Change V)) (old : Option V) :
    overlay (c.or d) old = overlay c (overlay d old) := by
  cases c with
  | none => simp [overlay]
  | some c => simp [overlay]

/-- A key holds what the last operation on it leaves, whatever happened to it before. -/
theorem lookup_applyAll (log : List (K × Change V)) (t : Table K V) (k : K) :
    (applyAll log t).lookup k = overlay (last log k) (t.lookup k) := by
  induction log generalizing t with
  | nil => rfl
  | cons p log ih =>
    rw [applyAll, List.foldl_cons, ← applyAll, ih, lookup_apply, last_cons, overlay_or]
    congr 1
    by_cases hk : k = p.1
    · simp [hk, overlay]
    · simp [hk, overlay]

/-- A map that takes one operation after the other remembers the last one of each key. -/
theorem lookup_putBatch_eq_last (log : List (K × Change V)) (pending : Table K (Change V)) (k : K) :
    (Table.putBatch log pending).lookup k = (last log k).or (pending.lookup k) := by
  induction log generalizing pending with
  | nil => simp [Table.putBatch]
  | cons p log ih =>
    rw [Table.putBatch, List.foldl_cons, ← Table.putBatch, ih, Table.lookup_insert_eq_ite, last_cons]
    by_cases hk : k = p.1
    · simp [hk]
    · simp [hk]

theorem last_eq_some_iff {log : List (K × Change V)} (hkeys : (log.map Prod.fst).Nodup) {k : K}
    {c : Change V} : last log k = some c ↔ (k, c) ∈ log := by
  induction log generalizing c with
  | nil => simp
  | cons p log ih =>
    obtain ⟨k', d⟩ := p
    rw [List.map_cons, List.nodup_cons] at hkeys
    rw [last_cons, List.mem_cons]
    by_cases hk : k = k'
    · subst hk
      have hnot (e : Change V) : (k, e) ∉ log := fun he ↦ hkeys.1 (List.mem_map.mpr ⟨_, he, rfl⟩)
      have hnone : last log k = none := by
        refine Option.eq_none_iff_forall_ne_some.mpr fun e he ↦ ?_
        exact hnot e ((ih hkeys.2).mp he)
      simp [hnone, hnot, eq_comm]
    · simp [hk, ih hkeys.2]

/-- With one operation for each key the order means nothing. -/
theorem last_eq_lookup {pending : Table K (Change V)} {log : List (K × Change V)}
    (h : log.Perm (Table.pairs pending)) (k : K) : last log k = pending.lookup k := by
  have hkeys : (log.map Prod.fst).Nodup := by
    rw [(h.map Prod.fst).nodup_iff, Table.map_fst_pairs]
    exact pending.keys_nodup
  refine Option.ext fun c ↦ ?_
  rw [last_eq_some_iff hkeys, h.mem_iff, Table.mem_pairs]

end Change

end Ethlambda.Base
