import Ethlambda.Base.Forest
import Ethlambda.ForkChoice.LmdGhost

namespace Ethlambda.ForkChoice

open Ethlambda.Base Ethlambda.Types Relation

set_option linter.unusedSectionVars false

variable {H : Type} [LinearOrder H] [Zero H] {ε : Type}

variable {blocks : BlockMap H} {weights : Weights H} {children : Table H (List H)}
  {attestations : Table UInt64 (AttestationData H)}

def parentOf (blocks : BlockMap H) (root : H) : Option H := (blocks.lookup root).map Prod.snd

def childrenOf (blocks : BlockMap H) (root : H) : Finset H :=
  blocks.keys.toFinset.filter fun c ↦ parentOf blocks c = some root

/-- The block a validator's vote names as the head. -/
def voteOf (attestations : Table UInt64 (AttestationData H)) (v : UInt64) : Option H :=
  (attestations.lookup v).map fun data ↦ data.head.root

def votersOf (attestations : Table UInt64 (AttestationData H)) : Finset UInt64 :=
  attestations.keys.toFinset

/-- The validators whose vote is for a block or for one of its descendants in the map. -/
noncomputable def backersOf (blocks : BlockMap H) (attestations : Table UInt64 (AttestationData H))
    (root : H) : Finset UInt64 :=
  supporters (parentOf blocks) (voteOf attestations) (votersOf attestations) root

theorem parentOf_eq_some {r p : H} : parentOf blocks r = some p ↔ ParentLink blocks r p := by
  simp [parentOf, ParentLink]

theorem isSome_parentOf {r p : H} {slot : UInt64} (h : blocks.lookup r = some (slot, p)) :
    (parentOf blocks r).isSome := by
  rw [parentOf, h]
  rfl

theorem mem_childrenOf {r c : H} : c ∈ childrenOf blocks r ↔ parentOf blocks c = some r := by
  rw [childrenOf, Finset.mem_filter, List.mem_toFinset]
  refine ⟨And.right, fun h ↦ ⟨?_, h⟩⟩
  obtain ⟨slot, hlookup⟩ := parentOf_eq_some.mp h
  exact mem_keys_of_lookup hlookup

theorem Ordered.falling (hord : Ordered blocks) : Falling (parentOf blocks) (slotOf blocks) := by
  intro r p hr hp
  obtain ⟨slot, hr⟩ := parentOf_eq_some.mp hr
  obtain ⟨q, hq⟩ := Option.isSome_iff_exists.mp hp
  obtain ⟨slot', hp⟩ := parentOf_eq_some.mp hq
  rw [slotOf_eq hr, slotOf_eq hp]
  exact UInt64.lt_iff_toNat_lt.mp (hord r slot p hr slot' q hp)

section Weight

/-- The block takes part in the weighing. -/
def Weighed (blocks : BlockMap H) (startSlot : UInt64) (b : H) : Prop :=
  ∃ slot p, blocks.lookup b = some (slot, p) ∧ startSlot < slot

theorem Weights.of_insert (w : Weights H) (r b : H) (n : ℕ) :
    Weights.of (w.insert r n) b = if b = r then n else Weights.of w b := by
  rw [Weights.of, Table.lookup_insert_eq_ite]
  split
  · rfl
  · rfl

open Classical in
/-- One vote adds one to each block above the start slot that its head leads to. -/
theorem of_creditAncestors (hord : Ordered blocks) {start : UInt64} {steps : ℕ} {root : H}
    {w w' : Weights H} (h : (creditAncestors blocks start steps root w : Exec ε _) = .ok w') (b : H) :
    Weights.of w' b = Weights.of w b +
      if Reaches (parentOf blocks) root b ∧ Weighed blocks start b then 1 else 0 := by
  induction steps generalizing root w with
  | zero => cases h
  | succ steps ih =>
    unfold creditAncestors at h
    cases hr : blocks.lookup root with
    | none =>
      rw [hr] at h
      have hnone : parentOf blocks root = none := by rw [parentOf, hr]; rfl
      have hnot : ¬(Reaches (parentOf blocks) root b ∧ Weighed blocks start b) := by
        rintro ⟨hreach, slot, p, hb, -⟩
        rw [reaches_iff_of_none hnone] at hreach
        rw [← hreach, hr] at hb
        cases hb
      rw [← Except.ok.inj h, if_neg hnot, Nat.add_zero]
    | some e =>
      obtain ⟨slot, parent⟩ := e
      have hparent : parentOf blocks root = some parent := parentOf_eq_some.mpr ⟨slot, hr⟩
      rw [hr] at h
      dsimp only at h
      split at h
      · rename_i hslot
        rw [ih h, Weights.of_insert, reaches_iff hparent]
        by_cases hb : b = root
        · subst hb
          have hup : ¬Reaches (parentOf blocks) parent b := not_reaches_child hord.falling hparent
          have hweighed : Weighed blocks start b := ⟨slot, parent, hr, hslot⟩
          simp [hup, hweighed]
        · simp [hb, Ne.symm hb]
      · rename_i hslot
        have hnot : ¬(Reaches (parentOf blocks) root b ∧ Weighed blocks start b) := by
          rintro ⟨hreach, slot', p, hb, hlt⟩
          have hle := (hreach.depth_le hord.falling (isSome_parentOf hb)).2
          rw [slotOf_eq hr, slotOf_eq hb] at hle
          have := UInt64.lt_iff_toNat_lt.mp hlt
          have := UInt64.lt_iff_toNat_lt.not.mp hslot
          omega
        rw [← Except.ok.inj h, if_neg hnot, Nat.add_zero]

open Classical in
theorem of_foldlM_credit (hord : Ordered blocks) {start : UInt64} {steps : ℕ}
    {l : List (UInt64 × AttestationData H)} {w w' : Weights H}
    (h : (l.foldlM (fun w a ↦ creditAncestors blocks start steps a.2.head.root w) w : Exec ε _) =
      .ok w') {b : H} (hb : Weighed blocks start b) :
    Weights.of w' b = Weights.of w b +
      l.countP (fun a ↦ decide (Reaches (parentOf blocks) a.2.head.root b)) := by
  induction l generalizing w with
  | nil => rw [← Except.ok.inj h, List.countP_nil, Nat.add_zero]
  | cons a l ih =>
    rw [List.foldlM_cons] at h
    obtain ⟨w₁, hw₁, h⟩ := Exec.bind_eq_ok.mp h
    rw [ih h, of_creditAncestors hord hw₁ b, List.countP_cons]
    simp only [hb, and_true, decide_eq_true_eq]
    omega

/-- The weight of a block above the start slot is the number of validators behind it. -/
theorem of_computeBlockWeights (hord : Ordered blocks) {host : Host H} {start : UInt64}
    {w : Weights H} (h : (computeBlockWeights host start blocks attestations : Exec ε _) = .ok w)
    {b : H} (hb : Weighed blocks start b) :
    Weights.of w b = (backersOf blocks attestations b).card := by
  classical
  rw [of_foldlM_credit hord h hb, (host.order_perm _).countP_eq]
  have hcount := Table.countP_pairs attestations
    fun _ data ↦ Reaches (parentOf blocks) data.head.root b
  have hzero : Weights.of (∅ : Weights H) b = 0 := rfl
  rw [hzero, Nat.zero_add, hcount]
  congr 1
  ext v
  rw [Finset.mem_filter, backersOf, mem_supporters, votersOf]
  simp [voteOf]

/-- A vote adds entries for the blocks it counts for and none of value zero. -/
theorem lookup_creditAncestors {start : UInt64} {steps : ℕ} {root : H} {w w' : Weights H}
    (h : (creditAncestors blocks start steps root w : Exec ε _) = .ok w')
    (hw : ∀ b n, w.lookup b = some n → 0 < n ∧ Weighed blocks start b) :
    ∀ b n, w'.lookup b = some n → 0 < n ∧ Weighed blocks start b := by
  induction steps generalizing root w with
  | zero => exact nomatch h
  | succ steps ih =>
    unfold creditAncestors at h
    split at h
    · rename_i slot parent hr
      split at h
      · rename_i hslot
        refine ih h fun b n hn ↦ ?_
        rw [Table.lookup_insert_eq_ite] at hn
        split at hn
        · rename_i heq
          rw [← Option.some.inj hn, heq]
          exact ⟨Nat.succ_pos _, slot, parent, hr, hslot⟩
        · exact hw b n hn
      · exact Except.ok.inj h ▸ hw
    · exact Except.ok.inj h ▸ hw

theorem lookup_computeBlockWeights {host : Host H} {start : UInt64} {w : Weights H}
    (h : (computeBlockWeights host start blocks attestations : Exec ε _) = .ok w) :
    ∀ b n, w.lookup b = some n → 0 < n ∧ Weighed blocks start b := by
  have hrun (l : List (UInt64 × AttestationData H)) (w₀ : Weights H)
      (hw₀ : ∀ b n, w₀.lookup b = some n → 0 < n ∧ Weighed blocks start b)
      (h : (l.foldlM (fun w a ↦ creditAncestors blocks start (blocks.keys.length + 1) a.2.head.root w)
        w₀ : Exec ε _) = .ok w) :
      ∀ b n, w.lookup b = some n → 0 < n ∧ Weighed blocks start b := by
    induction l generalizing w₀ with
    | nil => exact Except.ok.inj h ▸ hw₀
    | cons a l ih =>
      rw [List.foldlM_cons] at h
      obtain ⟨w₁, hw₁, h⟩ := Exec.bind_eq_ok.mp h
      exact ih w₁ (lookup_creditAncestors hw₁ hw₀) h
  exact hrun _ ∅ (fun b n hn ↦ nomatch hn) h

open Classical in
/-- The entry of a block as the votes alone determine it. -/
noncomputable def weightOf (blocks : BlockMap H) (attestations : Table UInt64 (AttestationData H))
    (start : UInt64) (b : H) : Option ℕ :=
  if Weighed blocks start b ∧ (backersOf blocks attestations b).card ≠ 0 then
    some (backersOf blocks attestations b).card
  else none

theorem lookup_eq_weightOf (hord : Ordered blocks) {host : Host H} {start : UInt64}
    {w : Weights H} (h : (computeBlockWeights host start blocks attestations : Exec ε _) = .ok w)
    (b : H) : w.lookup b = weightOf blocks attestations start b := by
  unfold weightOf
  cases hn : w.lookup b with
  | none =>
    rw [if_neg]
    rintro ⟨hb, hne⟩
    rw [← of_computeBlockWeights hord h hb, Weights.of, hn] at hne
    exact hne rfl
  | some n =>
    obtain ⟨hpos, hb⟩ := lookup_computeBlockWeights h b n hn
    have hof := of_computeBlockWeights hord h hb
    rw [Weights.of, hn, Option.getD_some] at hof
    rw [if_pos ⟨hb, hof ▸ hpos.ne'⟩, hof]

theorem getD_weightOf {start : UInt64} {b : H} (hb : Weighed blocks start b) :
    (weightOf blocks attestations start b).getD 0 = (backersOf blocks attestations b).card := by
  unfold weightOf
  split
  · rfl
  · rename_i hnot
    simp only [hb, true_and, ne_eq, not_not] at hnot
    exact hnot.symm

end Weight

section Descent

/-- A child the descent may move to: the parent's root is not zero and the child reaches the
threshold. -/
def Eligible (blocks : BlockMap H) (weight : H → ℕ) (minScore : ℕ) (p c : H) : Prop :=
  p ≠ 0 ∧ ParentLink blocks c p ∧ minScore ≤ weight c

/-- Heavier blocks come first, the greater root among equals. -/
def priority (weight : H → ℕ) (c : H) : ℕ ×ₗ H := toLex (weight c, c)

theorem priority_injective (weight : H → ℕ) : Function.Injective (priority weight) :=
  injective_weight_root weight

theorem descend_settles {child : H → H → Prop}
    (hchild : ∀ p c, c ∈ (children.lookup p).getD [] ↔ child p c) {steps : ℕ} {start head : H}
    (h : (descend weights children steps start : Exec ε H) = .ok head) :
    Settles child (priority (Weights.of weights)) start head := by
  induction steps generalizing start with
  | zero => exact nomatch h
  | succ steps ih =>
    unfold descend at h
    cases hbest : (children.lookup start).bind
        (maxByKey fun root ↦ toLex (Weights.of weights root, root)) with
    | none =>
      rw [hbest] at h
      rw [← Except.ok.inj h]
      refine ⟨.refl, fun c hc ↦ ?_⟩
      rw [← hchild] at hc
      cases hrs : children.lookup start with
      | none => simp [hrs] at hc
      | some rs =>
        rw [hrs, Option.bind_some] at hbest
        rw [hrs, Option.getD_some, maxByKey_eq_none.mp hbest] at hc
        exact List.not_mem_nil hc
    | some best =>
      rw [hbest] at h
      obtain ⟨rs, hrs, hmax⟩ := Option.bind_eq_some_iff.mp hbest
      have hgreedy : Greedy child (priority (Weights.of weights)) start best := by
        refine ⟨(hchild start best).mp ?_, fun c hc ↦ ?_⟩
        · rw [hrs]
          exact maxByKey_mem hmax
        · rw [← hchild, hrs] at hc
          exact le_maxByKey hmax c hc
      obtain ⟨hpath, hend⟩ := ih h
      exact ⟨.head hgreedy hpath, hend⟩

/-- The weight of a block, zero where it has no entry. -/
noncomputable def scoreOf (blocks : BlockMap H) (attestations : Table UInt64 (AttestationData H))
    (start : UInt64) (b : H) : ℕ := (weightOf blocks attestations start b).getD 0

theorem computeLmdGhostHead_settles (host : Host H) (hord : Ordered blocks) {start parent : H}
    {startSlot : UInt64} (hstart : blocks.lookup start = some (startSlot, parent)) (hne : start ≠ 0)
    (attestations : Table UInt64 (AttestationData H)) (minScore : ℕ) :
    ∃ head w, (computeLmdGhostHead host start blocks attestations minScore : Exec ε (H × Weights H)) =
        .ok (head, w) ∧ (∀ b, w.lookup b = weightOf blocks attestations startSlot b) ∧
      Settles (Eligible blocks (scoreOf blocks attestations startSlot) minScore)
        (priority (scoreOf blocks attestations startSlot)) start head := by
  have hok : ∃ r, (computeLmdGhostHead host start blocks attestations minScore :
      Exec ε (H × Weights H)) = .ok r := computeLmdGhostHead_ok hord ⟨_, hstart⟩ hne
  obtain ⟨⟨head, w⟩, hrun⟩ := hok
  refine ⟨head, w, hrun, ?_⟩
  rw [computeLmdGhostHead_eq host attestations minScore hstart hne] at hrun
  obtain ⟨w', hw, hrun⟩ := Exec.bind_eq_ok.mp hrun
  obtain ⟨head', hhead, hrun⟩ := Exec.bind_eq_ok.mp hrun
  obtain ⟨rfl, rfl⟩ := Prod.mk.inj (Except.ok.inj hrun)
  have hlookup := lookup_eq_weightOf hord hw
  have hscore : scoreOf blocks attestations startSlot = Weights.of w' := by
    funext b
    rw [scoreOf, Weights.of, hlookup]
  rw [hscore]
  refine ⟨hlookup, descend_settles (fun p c ↦ ?_) hhead⟩
  rw [mem_childrenMap]
  simp only [Eligible, ParentLink, host.mem_order, Table.mem_pairs]

theorem nonempty_host : Nonempty (Host H) :=
  ⟨{ header := fun _ ↦ 0
     body := fun _ ↦ 0
     block := fun _ ↦ 0
     state := fun _ ↦ 0
     attestationData := fun _ ↦ 0
     PublicKey := Unit
     Signature := Unit
     SecretKey := Unit
     Aggregate := Unit
     publicKeyFromBytes := fun _ ↦ none
     signatureFromBytes := fun _ ↦ none
     signatureToBytes := fun _ ↦ []
     sign := fun _ _ _ ↦ none
     isValid := fun _ _ _ _ ↦ false
     aggregateFromBytes := fun _ ↦ none
     aggregateToBytes := fun _ ↦ []
     xmssAggregateSignatures := fun _ _ _ _ ↦ none
     xmssVerifyAggregatedSignatures := fun _ _ _ _ ↦ false
     order := id
     order_perm := fun l ↦ .refl l }⟩

/-- One head for every order in which the tables are read. -/
theorem exists_head (hord : Ordered blocks) {start parent : H} {startSlot : UInt64}
    (hstart : blocks.lookup start = some (startSlot, parent)) (hne : start ≠ 0)
    (attestations : Table UInt64 (AttestationData H)) (minScore : ℕ) :
    ∃ head, (∀ host : Host H, ∃ w,
        (computeLmdGhostHead host start blocks attestations minScore : Exec ε (H × Weights H)) =
          .ok (head, w) ∧ ∀ b, w.lookup b = weightOf blocks attestations startSlot b) ∧
      Settles (Eligible blocks (scoreOf blocks attestations startSlot) minScore)
        (priority (scoreOf blocks attestations startSlot)) start head := by
  obtain ⟨host₀⟩ := nonempty_host (H := H)
  obtain ⟨head, -, -, -, hsettles⟩ :=
    computeLmdGhostHead_settles (ε := ε) host₀ hord hstart hne attestations minScore
  refine ⟨head, fun host ↦ ?_, hsettles⟩
  obtain ⟨head', w, hrun, hlookup, hsettles'⟩ :=
    computeLmdGhostHead_settles (ε := ε) host hord hstart hne attestations minScore
  rw [hsettles.unique (priority_injective _) hsettles']
  exact ⟨w, hrun, hlookup⟩

section Above

variable {blocks' : BlockMap H} {attestations' : Table UInt64 (AttestationData H)} {start : UInt64}

/-- The two maps hold the same blocks from the slot on. -/
def AgreeFrom (start : UInt64) (blocks blocks' : BlockMap H) : Prop :=
  ∀ r slot p, start ≤ slot →
    (blocks'.lookup r = some (slot, p) ↔ blocks.lookup r = some (slot, p))

/-- The validator has no vote, or one for a block that takes no part in the weighing. -/
def Weightless (blocks : BlockMap H) (start : UInt64) (attestations : Table UInt64 (AttestationData H))
    (v : UInt64) : Prop :=
  ∀ data, attestations.lookup v = some data → ¬Weighed blocks start data.head.root

theorem Ordered.weighed_child (hord : Ordered blocks) {startSlot slot : UInt64} {p q c : H}
    (hp : blocks.lookup p = some (slot, q)) (hle : startSlot ≤ slot) (hc : ParentLink blocks c p) :
    Weighed blocks startSlot c := by
  obtain ⟨slot', hc⟩ := hc
  exact ⟨slot', p, hc, UInt64.lt_of_le_of_lt hle (hord c slot' p hc slot q hp)⟩

theorem AgreeFrom.symm (h : AgreeFrom start blocks blocks') : AgreeFrom start blocks' blocks :=
  fun r slot p hle ↦ (h r slot p hle).symm

theorem AgreeFrom.weighed (h : AgreeFrom start blocks blocks') {b : H} (hb : Weighed blocks start b) :
    Weighed blocks' start b := by
  obtain ⟨slot, p, hlookup, hlt⟩ := hb
  exact ⟨slot, p, (h b slot p (UInt64.le_of_lt hlt)).mpr hlookup, hlt⟩

theorem AgreeFrom.weighed_iff (h : AgreeFrom start blocks blocks') {b : H} :
    Weighed blocks' start b ↔ Weighed blocks start b :=
  ⟨h.symm.weighed, h.weighed⟩

theorem AgreeFrom.parentLink (h : AgreeFrom start blocks blocks') (hord : Ordered blocks)
    {slot : UInt64} {p q c : H} (hp : blocks.lookup p = some (slot, q)) (hle : start ≤ slot)
    (hc : ParentLink blocks c p) : ParentLink blocks' c p := by
  obtain ⟨slot', hc⟩ := hc
  have hlt := UInt64.lt_of_le_of_lt hle (hord c slot' p hc slot q hp)
  exact ⟨slot', (h c slot' p (UInt64.le_of_lt hlt)).mpr hc⟩

/-- The way back to a block above the start stays above it. -/
theorem AgreeFrom.reaches (h : AgreeFrom start blocks blocks') (hord : Ordered blocks) {x b : H}
    (hb : Weighed blocks start b) (hx : Reaches (parentOf blocks) x b) :
    Weighed blocks start x ∧ Reaches (parentOf blocks') x b := by
  induction hx using ReflTransGen.head_induction_on with
  | refl => exact ⟨hb, .refl⟩
  | head hstep _ ih =>
    obtain ⟨⟨slot, q, hp, hlt⟩, hreach⟩ := ih
    have hle := UInt64.le_of_lt hlt
    have hlink := parentOf_eq_some.mp hstep
    have hlink' := h.parentLink hord hp hle hlink
    exact ⟨hord.weighed_child hp hle hlink, .head (parentOf_eq_some.mpr hlink') hreach⟩

theorem mem_backersOf {b : H} {v : UInt64} : v ∈ backersOf blocks attestations b ↔
    ∃ data, attestations.lookup v = some data ∧ Reaches (parentOf blocks) data.head.root b := by
  rw [backersOf, mem_supporters, votersOf, List.mem_toFinset, ← AList.mem_keys,
    Table.mem_iff_lookup]
  unfold voteOf
  constructor
  · intro h
    obtain ⟨⟨data, hdata⟩, x, hx, hreach⟩ := h
    rw [hdata] at hx
    obtain rfl := Option.some.inj hx
    exact ⟨data, hdata, hreach⟩
  · intro h
    obtain ⟨data, hdata, hreach⟩ := h
    exact ⟨⟨data, hdata⟩, _, by rw [hdata]; rfl, hreach⟩

theorem AgreeFrom.backersOf_subset (h : AgreeFrom start blocks blocks') (hord : Ordered blocks)
    (hvotes : ∀ v, voteOf attestations' v = voteOf attestations v ∨
      Weightless blocks start attestations v) {b : H} (hb : Weighed blocks start b) :
    backersOf blocks attestations b ⊆ backersOf blocks' attestations' b := by
  intro v hv
  obtain ⟨data, hdata, hreach⟩ := mem_backersOf.mp hv
  obtain ⟨hweighed, hreach⟩ := h.reaches hord hb hreach
  cases hvotes v with
  | inl heq =>
    rw [voteOf, voteOf, hdata] at heq
    obtain ⟨data', hdata', hroot⟩ := Option.map_eq_some_iff.mp heq
    exact mem_backersOf.mpr ⟨data', hdata', hroot.symm ▸ hreach⟩
  | inr hnone => exact absurd hweighed (hnone data hdata)

/-- The weights depend on the blocks above the start and on the votes for them. -/
theorem AgreeFrom.scoreOf_eq (h : AgreeFrom start blocks blocks') (hord : Ordered blocks)
    (hord' : Ordered blocks')
    (hvotes : ∀ v, voteOf attestations' v = voteOf attestations v ∨
      (Weightless blocks start attestations v ∧ Weightless blocks start attestations' v)) :
    scoreOf blocks' attestations' start = scoreOf blocks attestations start := by
  funext b
  by_cases hb : Weighed blocks start b
  · have hbackers : backersOf blocks' attestations' b = backersOf blocks attestations b := by
      apply Finset.Subset.antisymm
      · refine h.symm.backersOf_subset hord' (fun v ↦ ?_) (h.weighed hb)
        refine (hvotes v).imp Eq.symm fun hnone data hdata hweighed ↦ ?_
        exact hnone.2 data hdata (h.weighed_iff.mp hweighed)
      · exact h.backersOf_subset hord (fun v ↦ (hvotes v).imp_right And.left) hb
    rw [scoreOf, scoreOf, getD_weightOf (h.weighed hb), getD_weightOf hb, hbackers]
  · have hb' : ¬Weighed blocks' start b := fun hb' ↦ hb (h.weighed_iff.mp hb')
    simp [scoreOf, weightOf, hb, hb']

/-- Fork choice depends on the blocks from the start on and on the votes for blocks above it, and
not on how its tables are laid out or read. -/
theorem computeLmdGhostHead_congr_above {parent root : H} (h : AgreeFrom start blocks blocks')
    (hord : Ordered blocks) (hord' : Ordered blocks')
    (hvotes : ∀ v, voteOf attestations' v = voteOf attestations v ∨
      (Weightless blocks start attestations v ∧ Weightless blocks start attestations' v))
    (hstart : blocks.lookup root = some (start, parent)) (hne : root ≠ 0) (host host' : Host H)
    (minScore : ℕ) :
    ∃ head w w', (computeLmdGhostHead host root blocks attestations minScore :
        Exec ε (H × Weights H)) = .ok (head, w) ∧
      (computeLmdGhostHead host' root blocks' attestations' minScore : Exec ε (H × Weights H)) =
        .ok (head, w') := by
  have hstart' := (h root start parent (UInt64.le_refl start)).mpr hstart
  obtain ⟨head, w, hrun, -, hsettles⟩ :=
    computeLmdGhostHead_settles (ε := ε) host hord hstart hne attestations minScore
  obtain ⟨head', w', hrun', -, hsettles'⟩ :=
    computeLmdGhostHead_settles (ε := ε) host' hord' hstart' hne attestations' minScore
  rw [h.scoreOf_eq hord hord' hvotes] at hsettles'
  have hfrom : Settles (Eligible blocks' (scoreOf blocks attestations start) minScore)
      (priority (scoreOf blocks attestations start)) root head := by
    -- from the start on the descent sees the same children in both maps
    refine hsettles.congr (P := fun p ↦ ∃ slot q, blocks.lookup p = some (slot, q) ∧ start ≤ slot)
      ?_ ?_ ⟨start, parent, hstart, UInt64.le_refl start⟩
    · intro p hp c
      obtain ⟨slot, q, hp, hle⟩ := hp
      have hp' := (h p slot q hle).mpr hp
      have hlink : ParentLink blocks' c p ↔ ParentLink blocks c p :=
        ⟨h.symm.parentLink hord' hp' hle, h.parentLink hord hp hle⟩
      simp only [Eligible, hlink]
    · intro p c hp hc
      obtain ⟨slot, q, hp, hle⟩ := hp
      obtain ⟨slot', p', hc, hlt⟩ := hord.weighed_child hp hle hc.2.1
      exact ⟨slot', p', hc, UInt64.le_of_lt hlt⟩
  obtain rfl := hfrom.unique (priority_injective _) hsettles'
  exact ⟨head, w, w', hrun, hrun'⟩

/-- Fork choice depends on what its tables hold and not on how they are laid out or read. -/
theorem computeLmdGhostHead_congr (hord : Ordered blocks)
    (hblocks : ∀ r, blocks'.lookup r = blocks.lookup r)
    (hvotes : ∀ v, attestations'.lookup v = attestations.lookup v) {start : H}
    (hstart : ∃ e, blocks.lookup start = some e) (hne : start ≠ 0) (host host' : Host H)
    (minScore : ℕ) :
    ∃ head w w', (computeLmdGhostHead host start blocks attestations minScore :
        Exec ε (H × Weights H)) = .ok (head, w) ∧
      (computeLmdGhostHead host' start blocks' attestations' minScore : Exec ε (H × Weights H)) =
        .ok (head, w') := by
  obtain ⟨⟨slot, parent⟩, hstart⟩ := hstart
  have hord' : Ordered blocks' := by
    intro r slot p hr slot' p' hp
    rw [hblocks] at hr hp
    exact hord r slot p hr slot' p' hp
  have hagree : AgreeFrom slot blocks blocks' := fun r _ _ _ ↦ by rw [hblocks]
  refine computeLmdGhostHead_congr_above hagree hord hord' (fun v ↦ .inl ?_) hstart hne host
    host' minScore
  rw [voteOf, voteOf, hvotes]

end Above

/-- Fork choice ends. Above the start slot the weights count the validators behind each block. The
head is where the moves to the best child end, whatever order the tables are read in. -/
theorem lmd_ghost_correct (hord : Ordered blocks) {start parent : H} {startSlot : UInt64}
    (hstart : blocks.lookup start = some (startSlot, parent)) (hne : start ≠ 0)
    (attestations : Table UInt64 (AttestationData H)) (minScore : ℕ) :
    ∃ (head : H) (weight : H → Option ℕ),
      (∀ host : Host H, ∃ w,
        (computeLmdGhostHead host start blocks attestations minScore : Exec ε (H × Weights H)) =
          .ok (head, w) ∧ ∀ b, w.lookup b = weight b) ∧
      (∀ b slot p, blocks.lookup b = some (slot, p) → startSlot < slot →
        (weight b).getD 0 = (backersOf blocks attestations b).card ∧
        (weight b).getD 0 = (directVoters (voteOf attestations) (votersOf attestations) b).card +
          ∑ c ∈ childrenOf blocks b, (weight c).getD 0) ∧
      Settles (Eligible blocks (fun b ↦ (weight b).getD 0) minScore)
        (priority fun b ↦ (weight b).getD 0) start head := by
  obtain ⟨head, hruns, hsettles⟩ := exists_head (ε := ε) hord hstart hne attestations minScore
  refine ⟨head, weightOf blocks attestations startSlot, hruns, fun b slot p hb hlt ↦ ?_, hsettles⟩
  have hweight : (weightOf blocks attestations startSlot b).getD 0 =
      (backersOf blocks attestations b).card := getD_weightOf ⟨slot, p, hb, hlt⟩
  refine ⟨hweight, ?_⟩
  rw [hweight, backersOf, card_supporters hord.falling fun c ↦ mem_childrenOf]
  congr 1
  refine Finset.sum_congr rfl fun c hc ↦ ?_
  have hlink := parentOf_eq_some.mp (mem_childrenOf.mp hc)
  exact (getD_weightOf (hord.weighed_child hb (UInt64.le_of_lt hlt) hlink)).symm

theorem ordered_of_pairs (h : ∀ e ∈ Table.pairs blocks, ∀ e' ∈ Table.pairs blocks,
    e'.1 = e.2.2 → e'.2.1 < e.2.1) : Ordered blocks := by
  intro r slot p hr slot' p' hp
  exact h (r, slot, p) (Table.mem_pairs.mpr hr) (p, slot', p') (Table.mem_pairs.mpr hp) rfl

def forkBlocks : BlockMap ℕ :=
  Table.ofPairs [(1, 0, 0), (2, 1, 1), (3, 1, 1), (4, 2, 2), (5, 2, 3)]

def headVote (root : ℕ) : AttestationData ℕ := ⟨2, ⟨root, 2⟩, ⟨1, 0⟩, ⟨1, 0⟩⟩

def forkVotes : Table UInt64 (AttestationData ℕ) :=
  Table.ofPairs [(0, headVote 4), (1, headVote 2), (2, headVote 5)]

theorem lmd_ghost_correct_sample :
    ∃ (head : ℕ) (weight : ℕ → Option ℕ),
      (∀ host : Host ℕ, ∃ w,
        (computeLmdGhostHead host 1 forkBlocks forkVotes 0 : Exec Empty (ℕ × Weights ℕ)) =
          .ok (head, w) ∧ ∀ b, w.lookup b = weight b) ∧
      (weight 2).getD 0 = (backersOf forkBlocks forkVotes 2).card ∧
      Settles (Eligible forkBlocks (fun b ↦ (weight b).getD 0) 0)
        (priority fun b ↦ (weight b).getD 0) 1 head := by
  have hord : Ordered forkBlocks := ordered_of_pairs (by decide)
  obtain ⟨head, weight, hruns, hweight, hsettles⟩ := lmd_ghost_correct (ε := Empty) hord
    (rfl : forkBlocks.lookup 1 = some (0, 0)) (by decide) forkVotes 0
  exact ⟨head, weight, hruns, (hweight 2 1 1 rfl (by decide)).1, hsettles⟩

def zeroBlocks : BlockMap ℕ := Table.ofPairs [(1, 0, 9), (0, 1, 1), (2, 2, 0)]

theorem zeroBlocks_child (p c : ℕ) :
    ParentLink zeroBlocks c p ↔ (c = 1 ∧ p = 9) ∨ (c = 0 ∧ p = 1) ∨ (c = 2 ∧ p = 0) := by
  have hmem : ParentLink zeroBlocks c p ↔ ∃ slot, (c, slot, p) ∈ Table.pairs zeroBlocks := by
    simp only [ParentLink, Table.mem_pairs]
  have hpairs : Table.pairs zeroBlocks = [(2, 2, 0), (0, 1, 1), (1, 0, 9)] := rfl
  rw [hmem, hpairs]
  simp only [List.mem_cons, Prod.mk.injEq, List.not_mem_nil, or_false, exists_or, exists_and_left,
    exists_eq_left]
  omega

/-- A block whose root is zero has a child that the descent does not see. -/
theorem zero_root_ends_descent :
    Ordered zeroBlocks ∧ zeroBlocks.lookup 1 = some (0, 9) ∧
      ∀ host : Host ℕ, ∃ w,
        (computeLmdGhostHead host 1 zeroBlocks ∅ 0 : Exec Empty (ℕ × Weights ℕ)) = .ok (0, w) ∧
        ParentLink zeroBlocks 2 0 ∧ 0 ≤ Weights.of w 2 := by
  have hord : Ordered zeroBlocks := ordered_of_pairs (by decide)
  refine ⟨hord, rfl, fun host ↦ ?_⟩
  obtain ⟨head, w, hrun, -, hsettles⟩ := computeLmdGhostHead_settles (ε := Empty) host hord
    (rfl : zeroBlocks.lookup 1 = some (0, 9)) (by decide) ∅ 0
  have hzero : Settles (Eligible zeroBlocks (scoreOf zeroBlocks ∅ 0) 0)
      (priority (scoreOf zeroBlocks ∅ 0)) 1 0 := by
    have hstep : Greedy (Eligible zeroBlocks (scoreOf zeroBlocks ∅ 0) 0)
        (priority (scoreOf zeroBlocks ∅ 0)) 1 0 := by
      refine ⟨⟨one_ne_zero, (zeroBlocks_child 1 0).mpr (by decide), Nat.zero_le _⟩, fun c hc ↦ ?_⟩
      have hlink := (zeroBlocks_child 1 c).mp hc.2.1
      have hc0 : c = 0 := by omega
      rw [hc0]
    exact ⟨.single hstep, fun c hc ↦ hc.1 rfl⟩
  obtain rfl := hsettles.unique (priority_injective _) hzero
  exact ⟨w, hrun, (zeroBlocks_child 0 2).mpr (by decide), Nat.zero_le _⟩

end Descent

section SafeTarget

/-- Above the start a child with more than half of the votes outweighs its siblings. -/
theorem score_lt_of_majority (hord : Ordered blocks) {startSlot : UInt64} {p c c' : H} {m : ℕ}
    (hm : attestations.keys.length < 2 * m) (hc : ParentLink blocks c p)
    (hc' : ParentLink blocks c' p) (hw : Weighed blocks startSlot c)
    (hw' : Weighed blocks startSlot c') (hle : m ≤ scoreOf blocks attestations startSlot c)
    (hne : c' ≠ c) :
    scoreOf blocks attestations startSlot c' < scoreOf blocks attestations startSlot c := by
  have hshare : (backersOf blocks attestations c).card + (backersOf blocks attestations c').card ≤
      (votersOf attestations).card :=
    card_supporters_add_le hord.falling (parentOf_eq_some.mpr hc) (parentOf_eq_some.mpr hc') hne.symm
  have hvoters : (votersOf attestations).card = attestations.keys.length :=
    List.toFinset_card_of_nodup attestations.keys_nodup
  unfold scoreOf at hle ⊢
  rw [getD_weightOf hw] at hle ⊢
  rw [getD_weightOf hw']
  omega

/-- With a majority threshold every move is also the move without a threshold. -/
theorem greedy_of_majority (hord : Ordered blocks) {start parent x : H} {startSlot : UInt64} {m : ℕ}
    (hstart : blocks.lookup start = some (startSlot, parent))
    (hm : attestations.keys.length < 2 * m)
    (h : ReflTransGen (Greedy (Eligible blocks (scoreOf blocks attestations startSlot) m)
      (priority (scoreOf blocks attestations startSlot))) start x) :
    ReflTransGen (Greedy (Eligible blocks (scoreOf blocks attestations startSlot) 0)
      (priority (scoreOf blocks attestations startSlot))) start x ∧
      ∃ slot p, blocks.lookup x = some (slot, p) ∧ startSlot ≤ slot := by
  induction h with
  | refl => exact ⟨.refl, startSlot, parent, hstart, UInt64.le_refl startSlot⟩
  | @tail p c _ hstep ih =>
    obtain ⟨hpath, slot, q, hp, hle⟩ := ih
    obtain ⟨⟨hne, hlink, hscore⟩, -⟩ := hstep
    have hweighed := hord.weighed_child hp hle hlink
    have hgreedy : Greedy (Eligible blocks (scoreOf blocks attestations startSlot) 0)
        (priority (scoreOf blocks attestations startSlot)) p c := by
      refine greedy_of_outweighs ⟨hne, hlink, Nat.zero_le _⟩ fun c' hc' hcc ↦ ?_
      obtain ⟨-, hlink', -⟩ := hc'
      exact score_lt_of_majority hord hm hlink hlink' hweighed (hord.weighed_child hp hle hlink')
        hscore hcc
    refine ⟨hpath.tail hgreedy, ?_⟩
    obtain ⟨slot', p', hc, hlt⟩ := hweighed
    exact ⟨slot', p', hc, UInt64.le_of_lt hlt⟩

/-- With a threshold above half of the votes fork choice stops at the head or before it. Two thirds
of the validators, rounded up, are such a threshold. -/
theorem safe_target_behind_head (hord : Ordered blocks) {start : H}
    (hstart : ∃ e, blocks.lookup start = some e) (hne : start ≠ 0)
    (attestations : Table UInt64 (AttestationData H)) (m : ℕ)
    (hm : attestations.keys.length < 2 * m ∨
      ∃ n, 0 < n ∧ attestations.keys.length ≤ n ∧ m = (n * 2 + 2) / 3) :
    ∃ safe head,
      (∀ host : Host H, ∃ w, (computeLmdGhostHead host start blocks attestations m :
        Exec ε (H × Weights H)) = .ok (safe, w)) ∧
      (∀ host : Host H, ∃ w, (computeLmdGhostHead host start blocks attestations 0 :
        Exec ε (H × Weights H)) = .ok (head, w)) ∧
      ReflTransGen (ParentLink blocks) head safe := by
  obtain ⟨⟨startSlot, parent⟩, hstart⟩ := hstart
  have hm : attestations.keys.length < 2 * m := by
    cases hm with
    | inl hm => exact hm
    | inr hm =>
      obtain ⟨n, hn, hle, rfl⟩ := hm
      omega
  obtain ⟨safe, hsafe, hpath, -⟩ := exists_head (ε := ε) hord hstart hne attestations m
  obtain ⟨head, hhead, hsettles⟩ := exists_head (ε := ε) hord hstart hne attestations 0
  have honWay := hsettles.passes (priority_injective _) (greedy_of_majority hord hstart hm hpath).1
  refine ⟨safe, head, fun host ↦ ?_, fun host ↦ ?_, ?_⟩
  · obtain ⟨w, hrun, -⟩ := hsafe host
    exact ⟨w, hrun⟩
  · obtain ⟨w, hrun, -⟩ := hhead host
    exact ⟨w, hrun⟩
  · rw [← reflTransGen_swap]
    exact ReflTransGen.mono (fun p c hstep ↦ hstep.1.2.1) _ _ honWay

theorem safe_target_behind_head_sample :
    ∃ safe head,
      (∀ host : Host ℕ, ∃ w, (computeLmdGhostHead host 1 forkBlocks forkVotes 2 :
        Exec Empty (ℕ × Weights ℕ)) = .ok (safe, w)) ∧
      (∀ host : Host ℕ, ∃ w, (computeLmdGhostHead host 1 forkBlocks forkVotes 0 :
        Exec Empty (ℕ × Weights ℕ)) = .ok (head, w)) ∧
      ReflTransGen (ParentLink forkBlocks) head safe :=
  safe_target_behind_head (ordered_of_pairs (by decide)) ⟨_, rfl⟩ (by decide) forkVotes 2
    (.inr ⟨3, by decide⟩)

end SafeTarget

end Ethlambda.ForkChoice
