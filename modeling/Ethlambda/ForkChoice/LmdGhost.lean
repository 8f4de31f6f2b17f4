import Ethlambda.Base.Ranked
import Ethlambda.Base.Table
import Ethlambda.Types.Signed
import Mathlib.Data.Prod.Lex
import Mathlib.Logic.Relation

namespace Ethlambda.ForkChoice

open Ethlambda.Base Ethlambda.Types

set_option linter.unusedSectionVars false

variable {H : Type} [LinearOrder H] [Zero H] {ε : Type}

abbrev BlockMap (H : Type) := Table H (UInt64 × H)

abbrev Weights (H : Type) := Table H ℕ

def Weights.of (weights : Weights H) (root : H) : ℕ := (weights.lookup root).getD 0

/-- Walk from a vote's head back to the start slot and add one to every block on the way. A walk of
more steps than there are blocks meets a block again and never ends. -/
def creditAncestors (blocks : BlockMap H) (startSlot : UInt64) :
    ℕ → H → Weights H → Exec ε (Weights H)
  | 0, _, _ => Exec.panic .diverge
  | steps + 1, root, weights => match blocks.lookup root with
    | some (slot, parentRoot) =>
      if startSlot < slot then
        creditAncestors blocks startSlot steps parentRoot
          (weights.insert root (Weights.of weights root + 1))
      else .ok weights
    | none => .ok weights

def computeBlockWeights (host : Host H) (startSlot : UInt64) (blocks : BlockMap H)
    (attestations : Table UInt64 (AttestationData H)) : Exec ε (Weights H) :=
  (host.order (Table.pairs attestations)).foldlM
    (fun weights a ↦ creditAncestors blocks startSlot (blocks.keys.length + 1) a.2.head.root weights)
    ∅

/-- The blocks that name each parent, without those below the threshold. -/
def childrenMap (blocks : List (H × UInt64 × H)) (weights : Weights H) (minScore : ℕ) :
    Table H (List H) :=
  blocks.foldl (fun children (root, _, parentRoot) ↦
    if parentRoot = 0 then children
    else if 0 < minScore ∧ Weights.of weights root < minScore then children
    else children.insert parentRoot ((children.lookup parentRoot).getD [] ++ [root])) ∅

/-- Go to the heaviest child, the greatest root among equals, as long as there is one. -/
def descend (weights : Weights H) (children : Table H (List H)) : ℕ → H → Exec ε H
  | 0, _ => Exec.panic .diverge
  | steps + 1, head =>
    match (children.lookup head).bind (maxByKey fun root ↦ toLex (Weights.of weights root, root)) with
    | some best => descend weights children steps best
    | none => .ok head

def computeLmdGhostHead (host : Host H) (startRoot : H) (blocks : BlockMap H)
    (attestations : Table UInt64 (AttestationData H)) (minScore : ℕ) :
    Exec ε (H × Weights H) := do
  if blocks.entries = [] then
    pure (startRoot, ∅)
  else
    let startRoot ← if startRoot = 0 then
        Exec.expect "we already checked blocks is non-empty"
          ((minByKey (fun e ↦ e.2.1.toNat) (host.order (Table.pairs blocks))).map Prod.fst)
      else pure startRoot
    match blocks.lookup startRoot with
    | none => pure (startRoot, ∅)
    | some (startSlot, _) =>
      let weights ← computeBlockWeights host startSlot blocks attestations
      let children := childrenMap (host.order (Table.pairs blocks)) weights minScore
      let head ← descend weights children (blocks.keys.length + 1) startRoot
      pure (head, weights)

variable {blocks : BlockMap H} {weights : Weights H} {children : Table H (List H)}

/-- Every block comes after its parent. -/
def Ordered (blocks : BlockMap H) : Prop :=
  ∀ r s p, blocks.lookup r = some (s, p) → ∀ s' p', blocks.lookup p = some (s', p') → s' < s

def slotOf (blocks : BlockMap H) (root : H) : ℕ :=
  ((blocks.lookup root).map fun e ↦ e.1.toNat).getD 0

theorem slotOf_eq {r p : H} {s : UInt64} (h : blocks.lookup r = some (s, p)) :
    slotOf blocks r = s.toNat := by
  rw [slotOf, h]
  rfl

theorem mem_keys_of_lookup {r : H} {e : UInt64 × H} (h : blocks.lookup r = some e) :
    r ∈ blocks.keys := by
  exact Table.mem_iff_lookup.mpr ⟨e, h⟩

theorem creditAncestors_ok (hord : Ordered blocks) {start : UInt64} {steps : ℕ} {root : H}
    (h : rank (slotOf blocks) blocks.keys root < steps) (weights : Weights H) :
    ∃ w, (creditAncestors blocks start steps root weights : Exec ε (Weights H)) = .ok w := by
  induction steps generalizing root weights with
  | zero => exact absurd h (Nat.not_lt_zero _)
  | succ steps ih =>
    unfold creditAncestors
    cases hr : blocks.lookup root with
    | none => exact ⟨weights, rfl⟩
    | some e =>
      obtain ⟨slot, parent⟩ := e
      dsimp only
      split
      · cases hp : blocks.lookup parent with
        | none =>
          cases steps with
          | zero =>
            have hpos : 0 < rank (slotOf blocks) blocks.keys root :=
              List.countP_pos_iff.mpr ⟨root, mem_keys_of_lookup hr, by simp⟩
            omega
          | succ steps =>
            unfold creditAncestors
            rw [hp]
            exact ⟨_, rfl⟩
        | some e' =>
          obtain ⟨slot', parent'⟩ := e'
          refine ih ?_ _
          have hlt : slotOf blocks parent < slotOf blocks root := by
            rw [slotOf_eq hr, slotOf_eq hp]
            exact UInt64.lt_iff_toNat_lt.mp (hord root slot parent hr slot' parent' hp)
          have := rank_lt (mem_keys_of_lookup hr) hlt
          omega
      · exact ⟨weights, rfl⟩

theorem computeBlockWeights_ok (hord : Ordered blocks) (host : Host H) (start : UInt64)
    (attestations : Table UInt64 (AttestationData H)) :
    ∃ w, (computeBlockWeights host start blocks attestations : Exec ε (Weights H)) = .ok w := by
  unfold computeBlockWeights
  generalize (∅ : Weights H) = w
  induction host.order (Table.pairs attestations) generalizing w with
  | nil => exact ⟨w, rfl⟩
  | cons a l ih =>
    have hrank : rank (slotOf blocks) blocks.keys a.2.head.root < blocks.keys.length + 1 :=
      Nat.lt_succ_of_le rank_le_length
    obtain ⟨w', hw'⟩ := creditAncestors_ok (ε := ε) hord hrank w
    rw [List.foldlM_cons, hw', Exec.ok_bind]
    exact ih w'

theorem mem_fileChild {minScore : ℕ} {parent root r p : H} {t : Table H (List H)} :
    root ∈ ((if p = 0 then t
      else if 0 < minScore ∧ Weights.of weights r < minScore then t
      else t.insert p ((t.lookup p).getD [] ++ [r])).lookup parent).getD [] ↔
    root ∈ (t.lookup parent).getD [] ∨
      parent ≠ 0 ∧ (root = r ∧ parent = p) ∧ minScore ≤ Weights.of weights root := by
  by_cases hp : p = 0
  · rw [if_pos hp]
    refine ⟨.inl, fun h ↦ h.resolve_right fun h ↦ ?_⟩
    exact h.1 (h.2.1.2.trans hp)
  rw [if_neg hp]
  by_cases hscore : 0 < minScore ∧ Weights.of weights r < minScore
  · rw [if_pos hscore]
    refine ⟨.inl, fun h ↦ h.resolve_right fun h ↦ ?_⟩
    have hle := h.2.1.1 ▸ h.2.2
    omega
  rw [if_neg hscore, Table.lookup_insert_eq_ite]
  by_cases heq : parent = p
  · have hle : minScore ≤ Weights.of weights r := by omega
    subst heq
    rw [if_pos rfl, Option.getD_some, List.mem_append, List.mem_singleton]
    refine or_congr_right ⟨fun h ↦ ⟨hp, ⟨h, rfl⟩, h ▸ hle⟩, fun h ↦ h.2.1.1⟩
  · rw [if_neg heq]
    simp [heq]

/-- The children under a block are the entries of the list that name it and reach the threshold. -/
theorem mem_childrenMap {l : List (H × UInt64 × H)} {minScore : ℕ} {parent root : H} :
    root ∈ ((childrenMap l weights minScore).lookup parent).getD [] ↔
      parent ≠ 0 ∧ (∃ slot, (root, slot, parent) ∈ l) ∧ minScore ≤ Weights.of weights root := by
  suffices hgen : ∀ t : Table H (List H),
      root ∈ ((l.foldl (fun children (root, _, parentRoot) ↦
        if parentRoot = 0 then children
        else if 0 < minScore ∧ Weights.of weights root < minScore then children
        else children.insert parentRoot ((children.lookup parentRoot).getD [] ++ [root]))
          t).lookup parent).getD [] ↔ root ∈ (t.lookup parent).getD [] ∨
      parent ≠ 0 ∧ (∃ slot, (root, slot, parent) ∈ l) ∧ minScore ≤ Weights.of weights root by
    rw [childrenMap, hgen ∅]
    simp
  induction l with
  | nil => simp
  | cons e l ih =>
    obtain ⟨r, slot, p⟩ := e
    intro t
    rw [List.foldl_cons, ih, mem_fileChild, or_assoc, ← and_or_left, ← or_and_right]
    simp only [List.mem_cons, Prod.mk.injEq, exists_or, exists_and_left, exists_eq_left]

def Filed (blocks : BlockMap H) (children : Table H (List H)) : Prop :=
  ∀ p rs, children.lookup p = some rs → ∀ r ∈ rs, ∃ slot, blocks.lookup r = some (slot, p)

theorem filed_childrenMap (host : Host H) (minScore : ℕ) :
    Filed blocks (childrenMap (host.order (Table.pairs blocks)) weights minScore) := by
  intro p rs hp r hr
  obtain ⟨-, ⟨slot, hmem⟩, -⟩ := mem_childrenMap.mp (by rw [hp]; exact hr)
  exact ⟨slot, Table.mem_pairs.mp ((host.mem_order).mp hmem)⟩

theorem descend_mem (hfiled : Filed blocks children) {steps : ℕ} {start head : H}
    (hstart : ∃ e, blocks.lookup start = some e)
    (h : (descend weights children steps start : Exec ε H) = .ok head) :
    ∃ e, blocks.lookup head = some e := by
  induction steps generalizing start with
  | zero => exact nomatch h
  | succ steps ih =>
    unfold descend at h
    split at h
    · rename_i best hbest
      obtain ⟨rs, hrs, hmax⟩ := Option.bind_eq_some_iff.mp hbest
      obtain ⟨slot, hslot⟩ := hfiled start rs hrs best (maxByKey_mem hmax)
      exact ih ⟨_, hslot⟩ h
    · rw [← Except.ok.inj h]
      exact hstart

theorem descend_ok (hord : Ordered blocks) (hfiled : Filed blocks children) {steps : ℕ} {start : H}
    (hstart : ∃ e, blocks.lookup start = some e)
    (h : rank (OrderDual.toDual ∘ slotOf blocks) blocks.keys start < steps) :
    ∃ head, (descend weights children steps start : Exec ε H) = .ok head := by
  induction steps generalizing start with
  | zero => exact absurd h (Nat.not_lt_zero _)
  | succ steps ih =>
    unfold descend
    split
    · rename_i best hbest
      obtain ⟨rs, hrs, hmax⟩ := Option.bind_eq_some_iff.mp hbest
      obtain ⟨slot, hslot⟩ := hfiled start rs hrs best (maxByKey_mem hmax)
      obtain ⟨⟨slot₀, parent₀⟩, hstart⟩ := hstart
      refine ih ⟨_, hslot⟩ ?_
      have hlt : (OrderDual.toDual ∘ slotOf blocks) best < (OrderDual.toDual ∘ slotOf blocks) start := by
        rw [Function.comp_apply, Function.comp_apply, OrderDual.toDual_lt_toDual, slotOf_eq hslot,
          slotOf_eq hstart]
        exact UInt64.lt_iff_toNat_lt.mp (hord best slot start hslot slot₀ parent₀ hstart)
      have := rank_lt (mem_keys_of_lookup hstart) hlt
      omega
    · exact ⟨start, rfl⟩

theorem computeLmdGhostHead_eq (host : Host H) {start parent : H} {slot : UInt64}
    (attestations : Table UInt64 (AttestationData H)) (minScore : ℕ)
    (hstart : blocks.lookup start = some (slot, parent)) (hne : start ≠ 0) :
    (computeLmdGhostHead host start blocks attestations minScore : Exec ε (H × Weights H)) =
      computeBlockWeights host slot blocks attestations >>= fun weights ↦
      descend weights (childrenMap (host.order (Table.pairs blocks)) weights minScore)
        (blocks.keys.length + 1) start >>= fun head ↦ pure (head, weights) := by
  have hentries : blocks.entries ≠ [] := by
    intro hnil
    have hmem := Table.mem_entries_iff_lookup.mpr hstart
    rw [hnil] at hmem
    exact List.not_mem_nil hmem
  unfold computeLmdGhostHead
  rw [if_neg hentries, if_neg hne, Exec.pure_eq_ok, Exec.ok_bind]
  dsimp only
  rw [hstart]

/-- From a start block that fork choice sees, the head is a block that fork choice sees. -/
theorem computeLmdGhostHead_mem {host : Host H} {start : H}
    {attestations : Table UInt64 (AttestationData H)} {minScore : ℕ} {head : H} {w : Weights H}
    (hstart : ∃ e, blocks.lookup start = some e) (hne : start ≠ 0)
    (h : (computeLmdGhostHead host start blocks attestations minScore : Exec ε (H × Weights H)) =
      .ok (head, w)) : ∃ e, blocks.lookup head = some e := by
  obtain ⟨⟨slot, parent⟩, hlookup⟩ := hstart
  rw [computeLmdGhostHead_eq host attestations minScore hlookup hne] at h
  obtain ⟨weights, -, h⟩ := Exec.bind_eq_ok.mp h
  obtain ⟨head', hhead, h⟩ := Exec.bind_eq_ok.mp h
  obtain ⟨rfl, -⟩ := Prod.mk.inj (Except.ok.inj h)
  exact descend_mem (filed_childrenMap host minScore) ⟨_, hlookup⟩ hhead

/-- A start block that fork choice does not see is the head itself. -/
theorem computeLmdGhostHead_unseen {host : Host H} {start : H}
    {attestations : Table UInt64 (AttestationData H)} {minScore : ℕ}
    (hstart : blocks.lookup start = none) (hne : start ≠ 0) :
    (computeLmdGhostHead host start blocks attestations minScore : Exec ε (H × Weights H)) =
      .ok (start, ∅) := by
  unfold computeLmdGhostHead
  by_cases hentries : blocks.entries = []
  · rw [if_pos hentries]
    rfl
  · rw [if_neg hentries, if_neg hne, Exec.pure_eq_ok, Exec.ok_bind]
    dsimp only
    rw [hstart]
    rfl

/-- One block names the other as its parent. -/
def ParentLink (blocks : BlockMap H) (r p : H) : Prop := ∃ slot, blocks.lookup r = some (slot, p)

theorem descend_links (hfiled : Filed blocks children) {steps : ℕ} {start head : H}
    (h : (descend weights children steps start : Exec ε H) = .ok head) :
    Relation.ReflTransGen (ParentLink blocks) head start := by
  induction steps generalizing start with
  | zero => exact nomatch h
  | succ steps ih =>
    unfold descend at h
    split at h
    · rename_i best hbest
      obtain ⟨rs, hrs, hmax⟩ := Option.bind_eq_some_iff.mp hbest
      exact (ih h).tail (hfiled start rs hrs best (maxByKey_mem hmax))
    · rw [← Except.ok.inj h]

/-- Parent links lead from the head back to the start block. -/
theorem computeLmdGhostHead_links {host : Host H} {start : H}
    {attestations : Table UInt64 (AttestationData H)} {minScore : ℕ} {r : H × Weights H}
    (hstart : ∃ e, blocks.lookup start = some e) (hne : start ≠ 0)
    (h : (computeLmdGhostHead host start blocks attestations minScore : Exec ε (H × Weights H)) =
      .ok r) : Relation.ReflTransGen (ParentLink blocks) r.1 start := by
  obtain ⟨⟨slot, parent⟩, hlookup⟩ := hstart
  rw [computeLmdGhostHead_eq host attestations minScore hlookup hne] at h
  obtain ⟨weights, -, h⟩ := Exec.bind_eq_ok.mp h
  obtain ⟨head, hhead, h⟩ := Exec.bind_eq_ok.mp h
  rw [← Except.ok.inj h]
  exact descend_links (filed_childrenMap host minScore) hhead

/-- Where every block comes after its parent, the walks end. -/
theorem computeLmdGhostHead_ok {host : Host H} {start : H}
    {attestations : Table UInt64 (AttestationData H)} {minScore : ℕ} (hord : Ordered blocks)
    (hstart : ∃ e, blocks.lookup start = some e) (hne : start ≠ 0) :
    ∃ r, (computeLmdGhostHead host start blocks attestations minScore : Exec ε (H × Weights H)) =
      .ok r := by
  obtain ⟨⟨slot, parent⟩, hlookup⟩ := hstart
  rw [computeLmdGhostHead_eq host attestations minScore hlookup hne]
  obtain ⟨w, hw⟩ := computeBlockWeights_ok (ε := ε) hord host slot attestations
  rw [hw, Exec.ok_bind]
  obtain ⟨head, hhead⟩ := descend_ok (ε := ε) hord (filed_childrenMap host minScore) ⟨_, hlookup⟩
    (Nat.lt_succ_of_le rank_le_length)
  rw [hhead, Exec.ok_bind]
  exact ⟨_, rfl⟩

/-- Even from a start block that fork choice does not see, the walks end. -/
theorem computeLmdGhostHead_ne_diverge {host : Host H} {start : H}
    {attestations : Table UInt64 (AttestationData H)} {minScore : ℕ} (hord : Ordered blocks) :
    (computeLmdGhostHead host start blocks attestations minScore : Exec ε (H × Weights H)) ≠
      Exec.panic .diverge := by
  by_cases hne : start = 0
  · unfold computeLmdGhostHead
    split
    · exact nofun
    · dsimp only
      refine Exec.bind_ne_panic ?_ fun root _ ↦ ?_
      · cases (minByKey (fun e ↦ e.2.1.toNat) (host.order (Table.pairs blocks))).map Prod.fst with
        | none => exact nofun
        | some root => exact nofun
      · split
        · exact nofun
        · rename_i slot parent hroot
          obtain ⟨w, hw⟩ := computeBlockWeights_ok (ε := ε) hord host slot attestations
          obtain ⟨head, hhead⟩ := descend_ok (ε := ε) hord (filed_childrenMap host minScore)
            ⟨_, hroot⟩ (Nat.lt_succ_of_le rank_le_length)
          rw [hw, Exec.ok_bind, hhead]
          exact nofun
  · cases hstart : blocks.lookup start with
    | none =>
      rw [computeLmdGhostHead_unseen hstart hne]
      exact nofun
    | some e =>
      have hok : ∃ r, (computeLmdGhostHead host start blocks attestations minScore :
          Exec ε (H × Weights H)) = .ok r := computeLmdGhostHead_ok hord ⟨e, hstart⟩ hne
      obtain ⟨r, hr⟩ := hok
      rw [hr]
      exact nofun

section Errors

theorem creditAncestors_ne_fail {start : UInt64} {steps : ℕ} {root : H} {w : Weights H} {e : ε} :
    creditAncestors blocks start steps root w ≠ Exec.fail e := by
  induction steps generalizing root w with
  | zero => exact nofun
  | succ steps ih =>
    unfold creditAncestors
    split
    · split
      · exact ih
      · exact nofun
    · exact nofun

theorem computeBlockWeights_ne_fail {host : Host H} {start : UInt64}
    {attestations : Table UInt64 (AttestationData H)} {e : ε} :
    computeBlockWeights host start blocks attestations ≠ Exec.fail e := by
  unfold computeBlockWeights
  generalize (∅ : Weights H) = w
  induction host.order (Table.pairs attestations) generalizing w with
  | nil => exact nofun
  | cons a l ih =>
    rw [List.foldlM_cons]
    exact Exec.bind_ne_fail creditAncestors_ne_fail fun w' _ ↦ ih w'

theorem descend_ne_fail {steps : ℕ} {head : H} {e : ε} :
    descend weights children steps head ≠ Exec.fail e := by
  induction steps generalizing head with
  | zero => exact nofun
  | succ steps ih =>
    unfold descend
    split
    · exact ih
    · exact nofun

/-- Fork choice has no error of its own. -/
theorem computeLmdGhostHead_ne_fail {host : Host H} {start : H}
    {attestations : Table UInt64 (AttestationData H)} {minScore : ℕ} {e : ε} :
    computeLmdGhostHead host start blocks attestations minScore ≠ Exec.fail e := by
  unfold computeLmdGhostHead
  split
  · exact nofun
  · have hfrom (root : H) : (match blocks.lookup root with
        | none => pure (root, ∅)
        | some (startSlot, _) => do
          let weights ← computeBlockWeights host startSlot blocks attestations
          let head ← descend weights (childrenMap (host.order (Table.pairs blocks)) weights minScore)
            (blocks.keys.length + 1) root
          pure (head, weights) : Exec ε (H × Weights H)) ≠ Exec.fail e := by
      split
      · exact nofun
      · exact Exec.bind_ne_fail computeBlockWeights_ne_fail fun w _ ↦
          Exec.bind_ne_fail descend_ne_fail fun head _ ↦ nofun
    dsimp only
    split
    · exact Exec.bind_ne_fail Exec.expect_ne_fail fun root _ ↦ hfrom root
    · exact hfrom start

end Errors

end Ethlambda.ForkChoice
