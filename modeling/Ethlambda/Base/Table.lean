import Mathlib.Data.Finset.Card
import Mathlib.Data.List.AList
import Mathlib.Data.List.Sort

namespace Ethlambda.Base

/-- A finite map. The order of its entries carries no meaning. -/
abbrev Table (K V : Type) := AList (fun _ : K ↦ V)

/-- Equality of roots and of keys is lawful, whatever definition tests for membership. -/
instance lawfulBEq_root {H : Type} [LinearOrder H] : LawfulBEq H := inferInstance

instance lawfulBEq_key {H : Type} [LinearOrder H] : LawfulBEq (UInt64 × H) := inferInstance

namespace Table

open AList

variable {K V : Type}

def retain (keep : K → V → Bool) (t : Table K V) : Table K V :=
  ⟨t.entries.filter fun e ↦ keep e.1 e.2, t.nodupKeys.sublist List.filter_sublist⟩

def pairs (t : Table K V) : List (K × V) := t.entries.map fun e ↦ (e.1, e.2)

theorem map_fst_pairs (t : Table K V) : (pairs t).map Prod.fst = t.keys := by
  simp [pairs, keys, List.keys, Function.comp_def]

theorem pairs_retain_sublist (keep : K → V → Bool) (t : Table K V) :
    (pairs (retain keep t)).Sublist (pairs t) := List.filter_sublist.map _

section Lookup

variable [DecidableEq K]

def ofPairs (l : List (K × V)) : Table K V := l.foldl (fun t p ↦ t.insert p.1 p.2) ∅

def putBatch (l : List (K × V)) (t : Table K V) : Table K V :=
  l.foldl (fun t p ↦ t.insert p.1 p.2) t

def deleteBatch (keys : List K) (t : Table K V) : Table K V :=
  retain (fun k _ ↦ decide (k ∉ keys)) t

theorem lookup_insert_eq_ite (a b : K) (v : V) (t : Table K V) :
    (t.insert b v).lookup a = if a = b then some v else t.lookup a := by
  split
  · rename_i h
    subst h
    exact lookup_insert t
  · rename_i h
    exact lookup_insert_ne h

theorem lookup_erase_eq_ite (a b : K) (t : Table K V) :
    (t.erase b).lookup a = if a = b then none else t.lookup a := by
  split
  · rename_i h
    subst h
    exact lookup_erase a t
  · rename_i h
    exact lookup_erase_ne h

theorem lookup_foldl_erase (l : List K) (t : Table K V) (a : K) :
    (l.foldl (fun t b ↦ t.erase b) t).lookup a = if a ∈ l then none else t.lookup a := by
  induction l generalizing t with
  | nil => simp
  | cons b l ih =>
    rw [List.foldl_cons, ih, lookup_erase_eq_ite]
    by_cases hb : a = b
    · simp [hb]
    · simp [hb]

theorem eq_empty {t : Table K V} (h : ∀ a, t.lookup a = none) : t = ∅ := by
  apply AList.ext
  refine List.eq_nil_iff_forall_not_mem.mpr fun e he ↦ ?_
  exact nomatch (h e.1).symm.trans (mem_lookup_iff.mpr he)

theorem mem_entries_iff_lookup {t : Table K V} {a : K} {v : V} :
    (⟨a, v⟩ : Sigma fun _ : K ↦ V) ∈ t.entries ↔ t.lookup a = some v :=
  mem_lookup_iff.symm

theorem lookup_singleton {a b : K} {v w : V} :
    (AList.singleton a v : Table K V).lookup b = some w ↔ b = a ∧ w = v := by
  rw [← mem_entries_iff_lookup]
  change (⟨b, w⟩ : Sigma fun _ : K ↦ V) ∈ [⟨a, v⟩] ↔ b = a ∧ w = v
  simp [Sigma.mk.injEq]

theorem mem_pairs {t : Table K V} {a : K} {v : V} : (a, v) ∈ pairs t ↔ t.lookup a = some v := by
  rw [← mem_entries_iff_lookup, pairs, List.mem_map]
  constructor
  · rintro ⟨⟨b, w⟩, hmem, heq⟩
    obtain ⟨rfl, rfl⟩ := Prod.mk.inj heq
    exact hmem
  · intro h
    exact ⟨_, h, rfl⟩

theorem countP_pairs_insert {t : Table K V} {a : K} (h : a ∉ t) (v : V) (p : K × V → Bool) :
    (pairs (t.insert a v)).countP p = (pairs t).countP p + if p (a, v) then 1 else 0 := by
  rw [pairs, entries_insert_of_notMem h, List.map_cons, List.countP_cons, pairs]

theorem pairs_perm {t t' : Table K V} (h : ∀ a, t.lookup a = t'.lookup a) :
    (pairs t).Perm (pairs t') := by
  refine (List.lookup_ext t.nodupKeys t'.nodupKeys fun a v ↦ ?_).map _
  change v ∈ t.lookup a ↔ v ∈ t'.lookup a
  rw [h a]

theorem keys_perm {t t' : Table K V} (h : ∀ a, t.lookup a = t'.lookup a) :
    t.keys.Perm t'.keys := by
  rw [← map_fst_pairs, ← map_fst_pairs]
  exact (pairs_perm h).map _

/-- What is erased and what is left make up the table. -/
theorem pairs_erase_perm {t : Table K V} {a : K} {v : V} (h : t.lookup a = some v) :
    (pairs t).Perm ((a, v) :: pairs (t.erase a)) := by
  have hinsert : pairs ((t.erase a).insert a v) = (a, v) :: pairs (t.erase a) := by
    rw [pairs, entries_insert_of_notMem (by simp), List.map_cons, pairs]
  rw [← hinsert]
  refine pairs_perm fun b ↦ ?_
  rw [lookup_insert_eq_ite, lookup_erase_eq_ite]
  by_cases hb : b = a
  · rw [if_pos hb, hb, h]
  · rw [if_neg hb, if_neg hb]

theorem countP_pairs_erase {t : Table K V} {a : K} {v : V} (h : t.lookup a = some v)
    (p : K × V → Bool) :
    (pairs (t.erase a)).countP p + (if p (a, v) then 1 else 0) = (pairs t).countP p := by
  rw [(pairs_erase_perm h).countP_eq p, List.countP_cons]

open Classical in
/-- Counting entries is counting keys. -/
theorem countP_pairs (t : Table K V) (p : K → V → Prop) :
    (pairs t).countP (fun e ↦ decide (p e.1 e.2)) =
      (t.keys.toFinset.filter fun a ↦ ∃ v, t.lookup a = some v ∧ p a v).card := by
  have hnodup : (pairs t).Nodup := by
    refine List.Nodup.of_map Prod.fst ?_
    rw [map_fst_pairs]
    exact t.keys_nodup
  have hinj : ∀ e ∈ (pairs t).toFinset.filter (fun e ↦ p e.1 e.2),
      ∀ e' ∈ (pairs t).toFinset.filter (fun e ↦ p e.1 e.2), e.1 = e'.1 → e = e' := by
    intro e he e' he' heq
    rw [Finset.mem_filter, List.mem_toFinset] at he he'
    refine Prod.ext heq ?_
    have hlookup := mem_pairs.mp he.1
    rw [heq, mem_pairs.mp he'.1] at hlookup
    exact (Option.some.inj hlookup).symm
  rw [List.countP_eq_length_filter, ← List.toFinset_card_of_nodup (hnodup.filter _),
    List.toFinset_filter]
  simp only [decide_eq_true_eq]
  rw [← Finset.card_image_of_injOn hinj]
  congr 1
  ext a
  simp only [Finset.mem_image, Finset.mem_filter, List.mem_toFinset, Prod.exists, mem_pairs]
  constructor
  · intro h
    obtain ⟨b, v, ⟨hlookup, hp⟩, rfl⟩ := h
    exact ⟨mem_keys.mp (lookup_isSome.mp (hlookup ▸ rfl)), v, hlookup, hp⟩
  · intro h
    obtain ⟨-, v, hlookup, hp⟩ := h
    exact ⟨a, v, ⟨hlookup, hp⟩, rfl⟩

theorem lookup_retain (keep : K → V → Bool) (t : Table K V) (a : K) :
    (retain keep t).lookup a = (t.lookup a).filter (keep a) := by
  apply Option.ext
  intro v
  rw [← mem_entries_iff_lookup]
  change (⟨a, v⟩ : Sigma fun _ : K ↦ V) ∈ t.entries.filter _ ↔ _
  rw [List.mem_filter, mem_entries_iff_lookup, Option.filter_eq_some_iff]

theorem retain_eq_self {keep : K → V → Bool} {t : Table K V}
    (h : ∀ a v, t.lookup a = some v → keep a v = true) : retain keep t = t := by
  apply AList.ext
  exact List.filter_eq_self.mpr fun e he ↦ h e.1 e.2 (mem_entries_iff_lookup.mp he)

theorem lookup_deleteBatch (keys : List K) (t : Table K V) (a : K) :
    (deleteBatch keys t).lookup a = if a ∈ keys then none else t.lookup a := by
  rw [deleteBatch, lookup_retain]
  cases t.lookup a with
  | none => simp
  | some v => by_cases h : a ∈ keys <;> simp [h]

theorem mem_iff_lookup {t : Table K V} {a : K} : a ∈ t ↔ ∃ v, t.lookup a = some v := by
  rw [← lookup_isSome, Option.isSome_iff_exists]

theorem lookup_ofPairs_of_notMem {l : List (K × V)} {a : K} (h : a ∉ l.map Prod.fst)
    (t : Table K V) : (l.foldl (fun t p ↦ t.insert p.1 p.2) t).lookup a = t.lookup a := by
  induction l generalizing t with
  | nil => rfl
  | cons p l ih =>
    simp only [List.map_cons, List.mem_cons, not_or] at h
    rw [List.foldl_cons, ih h.2, lookup_insert_ne h.1]

theorem lookup_putBatch_of_mem {l : List (K × V)} {t : Table K V} {a : K} {v : V} (h : (a, v) ∈ l)
    (huniq : ∀ w, (a, w) ∈ l → w = v) : (putBatch l t).lookup a = some v := by
  induction l generalizing t with
  | nil => exact absurd h List.not_mem_nil
  | cons p l ih =>
    rw [putBatch, List.foldl_cons]
    by_cases hl : a ∈ l.map Prod.fst
    · obtain ⟨⟨b, w⟩, hmem, rfl⟩ := List.mem_map.mp hl
      obtain rfl := huniq w (List.mem_cons_of_mem p hmem)
      exact ih hmem fun w' hw' ↦ huniq w' (List.mem_cons_of_mem p hw')
    · rw [lookup_ofPairs_of_notMem hl]
      rcases List.mem_cons.mp h with rfl | h
      · exact lookup_insert t
      · exact absurd (List.mem_map_of_mem h) hl

theorem lookup_putBatch_cases {l : List (K × V)} {t : Table K V} {a : K} {v : V}
    (h : (putBatch l t).lookup a = some v) : (a, v) ∈ l ∨ t.lookup a = some v := by
  induction l generalizing t with
  | nil => exact .inr h
  | cons p l ih =>
    rcases ih h with hmem | hlookup
    · exact .inl (List.mem_cons_of_mem p hmem)
    · rw [lookup_insert_eq_ite] at hlookup
      split at hlookup
      · rename_i heq
        rw [heq, ← Option.some.inj hlookup]
        exact .inl List.mem_cons_self
      · exact .inr hlookup

theorem lookup_deleteBatch_congr {keys keys' : List K} {t t' : Table K V} (hkeys : keys.Perm keys')
    (ht : ∀ a, t.lookup a = t'.lookup a) (a : K) :
    (deleteBatch keys t).lookup a = (deleteBatch keys' t').lookup a := by
  rw [lookup_deleteBatch, lookup_deleteBatch, ht]
  simp only [hkeys.mem_iff]

theorem lookup_insert_congr {t t' : Table K V} (ht : ∀ a, t.lookup a = t'.lookup a) (b : K) (v : V)
    (a : K) : (t.insert b v).lookup a = (t'.insert b v).lookup a := by
  rw [lookup_insert_eq_ite, lookup_insert_eq_ite, ht]

theorem lookup_putBatch_congr (l : List (K × V)) {t t' : Table K V}
    (ht : ∀ a, t.lookup a = t'.lookup a) (a : K) :
    (putBatch l t).lookup a = (putBatch l t').lookup a := by
  induction l generalizing t t' with
  | nil => exact ht a
  | cons p l ih => exact ih (lookup_insert_congr ht p.1 p.2)

/-- A batch decides the value under a key, or it leaves the key alone. -/
theorem lookup_putBatch_or (l : List (K × V)) (a : K) :
    (∃ v, ∀ t : Table K V, (putBatch l t).lookup a = some v) ∨
      ∀ t : Table K V, (putBatch l t).lookup a = t.lookup a := by
  induction l with
  | nil => exact .inr fun t ↦ rfl
  | cons p l ih =>
    cases ih with
    | inl h =>
      obtain ⟨v, h⟩ := h
      exact .inl ⟨v, fun t ↦ h _⟩
    | inr h =>
      by_cases ha : a = p.1
      · exact .inl ⟨p.2, fun t ↦ by rw [putBatch, List.foldl_cons, ← putBatch, h, ha, lookup_insert]⟩
      · exact .inr fun t ↦ by rw [putBatch, List.foldl_cons, ← putBatch, h, lookup_insert_ne ha]

theorem length_keys_insert_le (a : K) (v : V) (t : Table K V) :
    (t.insert a v).keys.length ≤ t.keys.length + 1 := by
  rw [keys_insert, List.length_cons]
  exact Nat.succ_le_succ List.erase_sublist.length_le

theorem length_keys_putBatch_le (l : List (K × V)) (t : Table K V) :
    (putBatch l t).keys.length ≤ t.keys.length + l.length := by
  induction l generalizing t with
  | nil => exact le_rfl
  | cons p l ih =>
    have hinsert := length_keys_insert_le p.1 p.2 t
    have hrest := ih (t.insert p.1 p.2)
    rw [List.length_cons]
    exact hrest.trans (by omega)

omit [DecidableEq K] in
theorem keys_retain (keep : K → Bool) (t : Table K V) :
    (retain (fun k _ ↦ keep k) t).keys = t.keys.filter keep := by
  change (t.entries.filter fun e ↦ keep e.1).map Sigma.fst = (t.entries.map Sigma.fst).filter keep
  rw [List.filter_map]
  rfl

/-- Deleting keys of the table, each named once, removes as many entries. -/
theorem length_keys_deleteBatch {keys : List K} {t : Table K V} (hnodup : keys.Nodup)
    (hkeys : ∀ k ∈ keys, k ∈ t.keys) :
    (deleteBatch keys t).keys.length + keys.length = t.keys.length := by
  have hperm : (t.keys.filter fun k ↦ decide (k ∈ keys)).Perm keys := by
    refine (List.perm_ext_iff_of_nodup (t.keys_nodup.filter _) hnodup).mpr fun k ↦ ?_
    rw [List.mem_filter, decide_eq_true_eq]
    exact ⟨And.right, fun hk ↦ ⟨hkeys k hk, hk⟩⟩
  have hsplit := List.length_eq_length_filter_add (l := t.keys) fun k ↦ decide (k ∈ keys)
  have hrest : (deleteBatch keys t).keys = t.keys.filter fun k ↦ !decide (k ∈ keys) := by
    rw [deleteBatch, keys_retain]
    simp only [decide_not]
  rw [hrest, hsplit, hperm.length_eq, Nat.add_comm]

omit [DecidableEq K] in
theorem length_keys_retain (keep : K → V → Bool) (t : Table K V) :
    (retain keep t).keys.length + (pairs t).countP (fun e ↦ !keep e.1 e.2) =
      t.keys.length := by
  have hkept : (retain keep t).keys.length = t.entries.countP fun e ↦ keep e.1 e.2 := by
    rw [List.countP_eq_length_filter]
    exact List.length_map _
  have hdropped : (pairs t).countP (fun e ↦ !keep e.1 e.2) =
      t.entries.countP fun e ↦ !keep e.1 e.2 := List.countP_map
  have hsplit := List.length_eq_countP_add_countP (fun e : Sigma fun _ : K ↦ V ↦ keep e.1 e.2)
    (l := t.entries)
  have hall : t.keys.length = t.entries.length := List.length_map _
  simp only [Bool.not_eq_true, Bool.decide_eq_false] at hsplit
  rw [hkept, hdropped, hall, hsplit]

theorem length_keys_insert (a : K) (v : V) (t : Table K V) :
    (t.insert a v).keys.length = if (t.lookup a).isNone then t.keys.length + 1 else t.keys.length := by
  rw [AList.keys_insert, List.length_cons]
  cases hlookup : t.lookup a with
  | none =>
    have hnew : a ∉ t.keys := AList.lookup_eq_none.mp hlookup
    rw [List.erase_of_not_mem hnew]
    rfl
  | some w =>
    have hold : a ∈ t.keys := AList.mem_keys.mp (AList.lookup_isSome.mp (hlookup ▸ rfl))
    have hpos : 0 < t.keys.length := List.length_pos_of_mem hold
    rw [List.length_erase_of_mem hold, Nat.sub_add_cancel hpos]
    rfl

theorem lookup_ofPairs {l : List (K × V)} (hl : (l.map Prod.fst).Nodup) {a : K} {v : V} :
    (ofPairs l).lookup a = some v ↔ (a, v) ∈ l := by
  suffices h : ∀ t : Table K V, (∀ p ∈ l, p.1 ∉ t) →
      ((l.foldl (fun t p ↦ t.insert p.1 p.2) t).lookup a = some v ↔
        (a, v) ∈ l ∨ t.lookup a = some v) by
    rw [ofPairs, h ∅ (by simp)]
    simp
  induction l with
  | nil => simp
  | cons p l ih =>
    intro t ht
    obtain ⟨hp, hl⟩ := List.nodup_cons.mp hl
    rw [List.foldl_cons, ih hl]
    · rw [lookup_insert_eq_ite, List.mem_cons]
      have hpt : t.lookup p.1 = none := lookup_eq_none.mpr (ht p (by simp))
      rcases p with ⟨k, w⟩
      by_cases hk : a = k
      · subst hk
        have hn : (a, v) ∉ l := fun h ↦ hp (List.mem_map.mpr ⟨_, h, rfl⟩)
        simp [hn, hpt, eq_comm]
      · simp [hk]
    · intro q hq
      rw [mem_insert, not_or]
      exact ⟨fun h ↦ hp (h ▸ List.mem_map_of_mem hq), ht q (by simp [hq])⟩

end Lookup

section Sorted

variable [LinearOrder K]

def sortedKeys (t : Table K V) : List K := t.keys.insertionSort (· ≤ ·)

theorem mem_sortedKeys {t : Table K V} {a : K} : a ∈ sortedKeys t ↔ a ∈ t :=
  List.mem_insertionSort _

theorem sortedKeys_pairwise (t : Table K V) : (sortedKeys t).Pairwise (· < ·) := by
  have hle : (sortedKeys t).Pairwise (· ≤ ·) := List.pairwise_insertionSort _ _
  have hnd : (sortedKeys t).Nodup := (List.perm_insertionSort _ _).nodup_iff.mpr t.keys_nodup
  exact (hle.and hnd).imp fun h ↦ lt_of_le_of_ne h.1 h.2

end Sorted

end Table

end Ethlambda.Base
