import Ethlambda.Base.Ranked
import Ethlambda.Chain.Admission
import Ethlambda.Chain.Redelivery
import Ethlambda.StateTransition.Accountable

namespace Ethlambda.Chain

open Ethlambda.Base Ethlambda.Types Ethlambda.Storage Ethlambda.StateTransition Ethlambda.ForkChoice

set_option linter.unusedSectionVars false

variable {H : Type} [LinearOrder H] [Zero H] {host : Host H} {s s₀ : Store H} {ε : Type}

/-- A block and its parent, both with a stored header. -/
def HeaderLink (s : Store H) (r p : H) : Prop :=
  ∃ hdr hdr', s.blockHeaders.lookup r = some hdr ∧ hdr.parentRoot = p ∧
    s.blockHeaders.lookup p = some hdr'

/-- The second block is the first one or an ancestor of it, and everything between is stored. -/
def Behind (s : Store H) (r x : H) : Prop := Relation.ReflTransGen (HeaderLink s) r x

/-- What a vote takes for granted: the headers from the head back to the finalized block or to the
anchor, and the header of the safe target. -/
structure ChainStored (s₀ s : Store H) : Prop where
  head : ∃ hdr, s.blockHeaders.lookup s.head = some hdr
  back : Behind s s.head s.latestFinalized.root ∨ Behind s s.head s₀.head
  safeTarget : ∃ hdr, s.blockHeaders.lookup s.safeTarget = some hdr

/-- The second block lies a number of steps behind the first, and every step starts above the
slot. -/
inductive Above (s : Store H) (slot : UInt64) : ℕ → H → H → Prop
  | refl (r : H) : Above s slot 0 r r
  | step {n : ℕ} {r x : H} {hdr : BlockHeader H} (hhdr : s.blockHeaders.lookup r = some hdr)
      (hslot : slot < hdr.slot) (hrest : Above s slot n hdr.parentRoot x) : Above s slot (n + 1) r x

/-- A vote that every node with the same blocks would take for a good one. -/
structure VoteWellFormed (s : Store H) (vote : AttestationData H) : Prop where
  valid : validateAttestationData s vote = .ok ()
  source : Behind s vote.target.root vote.source.root
  target : Behind s vote.head.root vote.target.root
  chosen : vote.target = s.latestJustified ∨
    slotIsJustifiableAfter vote.target.slot.toNat s.latestFinalized.slot.toNat = true ∧
      s.latestJustified.slot ≤ vote.target.slot

section Links

variable {r x p : H} {hdr hdr' : BlockHeader H}

theorem Behind.stored (h : Behind s r x) (hr : ∃ hdr, s.blockHeaders.lookup r = some hdr) :
    ∃ hdr, s.blockHeaders.lookup x = some hdr := by
  cases h with
  | refl => exact hr
  | tail _ hlink =>
    obtain ⟨_, hdr', -, -, hx⟩ := hlink
    exact ⟨hdr', hx⟩

/-- A block with a stored ancestor has a stored parent on the way there. -/
theorem Behind.parent (h : Behind s r x) (hne : r ≠ x) (hr : s.blockHeaders.lookup r = some hdr) :
    (∃ hdr', s.blockHeaders.lookup hdr.parentRoot = some hdr') ∧ Behind s hdr.parentRoot x := by
  rcases Relation.ReflTransGen.cases_head h with heq | ⟨p, ⟨hdr₁, hdr', h₁, rfl, hp⟩, hrest⟩
  · exact absurd heq hne
  · obtain rfl := Option.some.inj (h₁.symm.trans hr)
    exact ⟨⟨hdr', hp⟩, hrest⟩

theorem Behind.tail (h : Behind s r x) (hx : s.blockHeaders.lookup x = some hdr)
    (hp : s.blockHeaders.lookup hdr.parentRoot = some hdr') : Behind s r hdr.parentRoot :=
  Relation.ReflTransGen.tail h ⟨hdr, hdr', hx, rfl, hp⟩

/-- The header under a root has the slot of the state that belongs there. -/
theorem Stored.header_slot (hh : HashSound host) (htree : BlockTree host s) {st : State H}
    (h : Stored host r st) (hr : s.blockHeaders.lookup r = some hdr) : hdr.slot = st.slot := by
  rw [h.header_eq hh (htree.headers r hdr hr), cachedHeader_slot, h.wellformed.slot_eq]

theorem BlockTree.live_header (hh : HashSound host) (htree : BlockTree host s) {slot : UInt64}
    (hlive : s.liveChain.lookup (slot, r) = some p) (hr : s.blockHeaders.lookup r = some hdr) :
    hdr.slot = slot ∧ hdr.parentRoot = p := by
  obtain ⟨st, hst, rfl, rfl⟩ := htree.live slot r p hlive
  rw [hst.header_eq hh (htree.headers r hdr hr), cachedHeader_slot, cachedHeader_parentRoot,
    hst.wellformed.slot_eq]
  exact ⟨rfl, rfl⟩

/-- A live block lies above every live block that its links lead to. -/
theorem BlockTree.slot_lt_of_linked (hh : HashSound host) (htree : BlockTree host s)
    (h : Relation.ReflTransGen (LiveLink s) r x) (hne : x ≠ r) {a b : UInt64} {q : H}
    (hr : s.liveChain.lookup (a, r) = some p) (hx : s.liveChain.lookup (b, x) = some q) : b < a := by
  obtain ⟨st, hst, rfl, -⟩ := htree.live a r p hr
  have hhist := (htree.history_of_linked hh hst h hx).resolve_left hne
  have hlt := (List.getElem?_eq_some_iff.mp hhist).1
  rw [hst.wellformed.aligned.history_length, ← hst.wellformed.slot_eq] at hlt
  exact UInt64.lt_iff_toNat_lt.mpr hlt

/-- If the stored headers lead from a block down to the justified slot or below it, the links of the
live chain to the justified block are among them. -/
theorem BlockTree.behind_of_linked (hh : HashSound host) (htree : BlockTree host s) {stop : H}
    (hlinked : Relation.ReflTransGen (LiveLink s) r s.latestJustified.root)
    (hbehind : Behind s r stop) (hstop : s.blockHeaders.lookup stop = some hdr')
    (hslot : hdr'.slot ≤ s.latestJustified.slot) (hr : ∃ hdr, s.blockHeaders.lookup r = some hdr) :
    Behind s r s.latestJustified.root := by
  obtain ⟨q, hq⟩ := htree.justified
  induction hlinked using Relation.ReflTransGen.head_induction_on with
  | refl => exact .refl
  | head hlink hrest ih =>
    rename_i r p
    obtain ⟨slot, hp⟩ := hlink
    obtain ⟨hdr, hhdr⟩ := hr
    obtain ⟨hslot', rfl⟩ := htree.live_header hh hp hhdr
    by_cases heq : r = s.latestJustified.root
    · rw [heq]
      exact .refl
    · -- above the justified block the headers cannot have come to their end
      have hlt := htree.slot_lt_of_linked hh (.head ⟨slot, hp⟩ hrest) (Ne.symm heq) hp hq
      have hne : r ≠ stop := by
        rintro rfl
        obtain rfl := Option.some.inj (hhdr.symm.trans hstop)
        rw [hslot'] at hslot
        exact absurd hslot (UInt64.not_le.mpr hlt)
      obtain ⟨hparent, hrest⟩ := hbehind.parent hne hhdr
      obtain ⟨hdr₁, hp₁⟩ := hparent
      exact .head ⟨hdr, hdr₁, hhdr, rfl, hp₁⟩ (ih hrest ⟨hdr₁, hp₁⟩)

end Links

section Walk

/-- Where a walk back from the head is: at a stored header of the head's history, which comes before
none of the stored ancestors that are not above it. -/
structure Walked (s : Store H) (history : List H) (top : BlockHeader H) (t : Located H) : Prop where
  stored : s.blockHeaders.lookup t.1 = some t.2
  linked : Linked history t.2
  reached : Behind s s.head t.1
  le : t.2.slot ≤ top.slot
  passes : ∀ x hdr, s.blockHeaders.lookup x = some hdr → Behind s s.head x → hdr.slot ≤ t.2.slot →
    Behind s t.1 x

variable {st : State H} {top hdr : BlockHeader H} {t t' : Located H}

theorem walked_head (hst : Stored host s.head st) (hh : HashSound host) (htree : BlockTree host s)
    (htop : s.blockHeaders.lookup s.head = some top) :
    Walked s st.historicalBlockHashes.toList top (s.head, top) := by
  refine ⟨htop, ?_, .refl, UInt64.le_refl _, fun x hdr _ hx _ ↦ hx⟩
  have hlinked := hst.wellformed.aligned.header_linked
  rw [hst.header_eq hh (htree.headers _ top htop)]
  simpa [Linked] using hlinked

theorem Walked.step (hst : Stored host s.head st) (hh : HashSound host) (htree : BlockTree host s)
    (h : Walked s st.historicalBlockHashes.toList top t) (hpos : 0 < t.2.slot)
    (hp : s.blockHeaders.lookup t.2.parentRoot = some hdr) :
    Walked s st.historicalBlockHashes.toList top (t.2.parentRoot, hdr) ∧ hdr.slot < t.2.slot := by
  rcases h.linked with hzero | ⟨i, hi, hhist, hne, -⟩
  · rw [UInt64.lt_iff_toNat_lt] at hpos
    exact absurd hzero (Nat.pos_iff_ne_zero.mp hpos)
  · obtain ⟨hdr', rfl, hroot, hlinked⟩ := hst.wellformed.aligned.history_linked i _ hhist hne
    obtain rfl : hdr = hdr' :=
      hh.collisionFree.header_injective ((htree.headers _ hdr hp).trans hroot.symm)
    have hlt : hdr.slot < t.2.slot := UInt64.lt_iff_toNat_lt.mpr hi
    refine ⟨⟨hp, hlinked, h.reached.tail h.stored hp, ?_, fun x hdr' hx hbehind hle ↦ ?_⟩, hlt⟩
    · exact UInt64.le_trans (UInt64.le_of_lt hlt) h.le
    · have hlt' : hdr'.slot < t.2.slot := UInt64.lt_of_le_of_lt hle hlt
      have hne : t.1 ≠ x := by
        intro heq
        rw [← heq, h.stored] at hx
        rw [← Option.some.inj hx] at hlt'
        exact absurd rfl (UInt64.ne_of_lt hlt')
      exact ((h.passes x hdr' hx hbehind (UInt64.le_of_lt hlt')).parent hne h.stored).2

theorem stepBack_eq_ok : (stepBack s t : Exec ε (Located H)) = .ok t' ↔
    t'.1 = t.2.parentRoot ∧ s.blockHeaders.lookup t.2.parentRoot = some t'.2 := by
  unfold stepBack Store.getBlockHeader
  cases hp : s.blockHeaders.lookup t.2.parentRoot with
  | none => exact ⟨fun h ↦ (nomatch h), fun h ↦ (nomatch h.2)⟩
  | some hdr =>
    constructor
    · intro h
      obtain rfl := Except.ok.inj h
      exact ⟨rfl, rfl⟩
    · rintro ⟨h₁, h₂⟩
      obtain ⟨r, hdr'⟩ := t'
      obtain rfl : r = t.2.parentRoot := h₁
      obtain rfl := Option.some.inj h₂
      rfl

/-- The bounded walk fails exactly where a header it needs is missing. -/
theorem exists_lookBack_iff {slot : UInt64} {steps : ℕ} (hstored : s.blockHeaders.lookup t.1 = some t.2) :
    (∃ t', (lookBack s slot steps t : Exec ε (Located H)) = .ok t') ↔
      ∀ n, n ≤ steps → ∀ x, Above s slot n t.1 x → ∃ hdr, s.blockHeaders.lookup x = some hdr := by
  induction steps generalizing t with
  | zero =>
    refine iff_of_true ⟨t, rfl⟩ fun n hn x hx ↦ ?_
    obtain rfl := Nat.le_zero.mp hn
    cases hx
    exact ⟨t.2, hstored⟩
  | succ steps ih =>
    rw [lookBack]
    by_cases hslot : slot < t.2.slot
    · rw [if_pos hslot]
      constructor
      · rintro ⟨t', hok⟩ n hn x hx
        obtain ⟨p, hp, hrest⟩ := Exec.bind_eq_ok.mp hok
        obtain ⟨hroot, hlookup⟩ := stepBack_eq_ok.mp hp
        cases hx with
        | refl => exact ⟨t.2, hstored⟩
        | step hhdr _ habove =>
          obtain rfl := Option.some.inj (hstored.symm.trans hhdr)
          rw [← hroot] at hlookup habove
          exact (ih hlookup).mp ⟨t', hrest⟩ _ (Nat.le_of_succ_le_succ hn) x habove
      · intro hall
        obtain ⟨hdr, hp⟩ := hall 1 (Nat.succ_le_succ (Nat.zero_le steps)) _
          (.step hstored hslot (.refl _))
        obtain ⟨t', ht'⟩ := (ih (t := (t.2.parentRoot, hdr)) hp).mpr fun n hn x hx ↦
          hall (n + 1) (Nat.succ_le_succ hn) x (.step hstored hslot hx)
        exact ⟨t', Exec.bind_eq_ok.mpr ⟨_, stepBack_eq_ok.mpr ⟨rfl, hp⟩, ht'⟩⟩
    · rw [if_neg hslot]
      refine iff_of_true ⟨t, rfl⟩ fun n hn x hx ↦ ?_
      cases hx with
      | refl => exact ⟨t.2, hstored⟩
      | step hhdr habove _ =>
        obtain rfl := Option.some.inj (hstored.symm.trans hhdr)
        exact absurd habove hslot

theorem Walked.lookBack (hst : Stored host s.head st) (hh : HashSound host)
    (htree : BlockTree host s) (h : Walked s st.historicalBlockHashes.toList top t) {slot : UInt64}
    {steps : ℕ} (hback : (lookBack s slot steps t : Exec ε (Located H)) = .ok t') :
    Walked s st.historicalBlockHashes.toList top t' := by
  induction steps generalizing t with
  | zero =>
    obtain rfl := Except.ok.inj hback
    exact h
  | succ steps ih =>
    rw [Chain.lookBack] at hback
    split at hback
    · rename_i hslot
      obtain ⟨p, hp, hrest⟩ := Exec.bind_eq_ok.mp hback
      obtain ⟨hroot, hlookup⟩ := stepBack_eq_ok.mp hp
      have hnext := (h.step hst hh htree (UInt64.lt_of_le_of_lt UInt64.zero_le hslot) hlookup).1
      rw [← hroot] at hnext
      exact ih hnext hrest
    · obtain rfl := Except.ok.inj hback
      exact h

def headerSlot (s : Store H) (r : H) : ℕ := ((s.blockHeaders.lookup r).map fun hdr ↦ hdr.slot.toNat).getD 0

theorem headerSlot_eq {r : H} (h : s.blockHeaders.lookup r = some hdr) :
    headerSlot s r = hdr.slot.toNat := by
  rw [headerSlot, h]
  rfl

/-- The second walk comes to its end: above the finalized slot the parent is stored, and every step
goes to a lower slot. -/
theorem Walked.backToJustifiable (hst : Stored host s.head st) (hh : HashSound host)
    (htree : BlockTree host s) (h : Walked s st.historicalBlockHashes.toList top t) {stop : H}
    {bottom : BlockHeader H} (hstop : s.blockHeaders.lookup stop = some bottom)
    (hbehind : Behind s s.head stop) {finalized : UInt64} (hle : bottom.slot ≤ finalized) {steps : ℕ}
    (hsteps : rank (headerSlot s) s.blockHeaders.keys t.1 < steps) :
    ∃ t', (backToJustifiable s finalized steps t : Exec ε (Located H)) = .ok t' ∧
      Walked s st.historicalBlockHashes.toList top t' ∧
      (finalized < t'.2.slot → slotIsJustifiableAfter t'.2.slot.toNat finalized.toNat = true) := by
  induction steps generalizing t with
  | zero => exact absurd hsteps (Nat.not_lt_zero _)
  | succ steps ih =>
    rw [Chain.backToJustifiable]
    split
    · rename_i hwalk
      have hlt : bottom.slot < t.2.slot := UInt64.lt_of_le_of_lt hle hwalk.1
      have hne : t.1 ≠ stop := by
        rintro rfl
        obtain rfl := Option.some.inj (h.stored.symm.trans hstop)
        exact absurd rfl (UInt64.ne_of_lt hlt)
      obtain ⟨hdr, hp⟩ := ((h.passes stop bottom hstop hbehind (UInt64.le_of_lt hlt)).parent hne
        h.stored).1
      obtain ⟨hnext, hlower⟩ := h.step hst hh htree (UInt64.lt_of_le_of_lt UInt64.zero_le hwalk.1) hp
      have hmem : t.1 ∈ s.blockHeaders.keys :=
        AList.mem_keys.mpr (Table.mem_iff_lookup.mpr ⟨t.2, h.stored⟩)
      have hmeasure : headerSlot s t.2.parentRoot < headerSlot s t.1 := by
        rw [headerSlot_eq hp, headerSlot_eq h.stored]
        exact UInt64.lt_iff_toNat_lt.mp hlower
      have hrank := rank_lt hmem hmeasure
      obtain ⟨t', ht', hwalked, hjust⟩ := ih hnext (Nat.lt_of_lt_of_le hrank (Nat.lt_succ_iff.mp hsteps))
      exact ⟨t', Exec.bind_eq_ok.mpr ⟨_, stepBack_eq_ok.mpr ⟨rfl, hp⟩, ht'⟩, hwalked, hjust⟩
    · rename_i hwalk
      refine ⟨t, rfl, h, fun hlt ↦ ?_⟩
      rw [not_and, Bool.not_eq_false] at hwalk
      exact hwalk hlt

end Walk

section Vote

theorem getAttestationTarget_eq {top safe : BlockHeader H}
    (htop : s.blockHeaders.lookup s.head = some top)
    (hsafe : s.blockHeaders.lookup s.safeTarget = some safe) :
    (getAttestationTarget s : Exec ε (Checkpoint H)) = (do
      let t ← lookBack s safe.slot justificationLookbackSlots (s.head, top)
      let t ← backToJustifiable s s.latestFinalized.slot (s.blockHeaders.keys.length + 1) t
      if t.2.slot < s.latestJustified.slot then pure s.latestJustified else pure ⟨t.1, t.2.slot⟩) := by
  unfold getAttestationTarget Store.safeTargetSlot Store.getBlockHeader
  rw [htop, hsafe]
  rfl

theorem produceAttestationData_eq_ok {top : BlockHeader H} {slot : UInt64} {vote : AttestationData H}
    (htop : s.blockHeaders.lookup s.head = some top) :
    (produceAttestationData s slot : Exec ε (AttestationData H)) = .ok vote ↔
      ∃ target, (getAttestationTarget s : Exec ε (Checkpoint H)) = .ok target ∧
        vote = ⟨slot, ⟨s.head, top.slot⟩, target, s.latestJustified⟩ := by
  unfold produceAttestationData Store.headSlot Store.getBlockHeader
  rw [htop, Exec.bind_eq_ok]
  constructor
  · rintro ⟨_, hhead, hrest⟩
    obtain rfl := Except.ok.inj hhead
    obtain ⟨target, htarget, hvote⟩ := Exec.bind_eq_ok.mp hrest
    exact ⟨target, htarget, (Except.ok.inj hvote).symm⟩
  · rintro ⟨target, htarget, rfl⟩
    exact ⟨top.slot, rfl, Exec.bind_eq_ok.mpr ⟨target, htarget, rfl⟩⟩

/-- The stored headers lead from the head to one that is not above the finalized slot. -/
theorem ChainStored.bottom (hh : HashSound host) (htree₀ : BlockTree host s₀)
    (hroot : s₀.head = s₀.latestFinalized.root) (hadvances : Advances s₀ s)
    (htree : BlockTree host s) (h : ChainStored s₀ s) :
    ∃ stop bottom, s.blockHeaders.lookup stop = some bottom ∧ Behind s s.head stop ∧
      bottom.slot ≤ s.latestFinalized.slot := by
  rcases h.back with hback | hback
  · obtain ⟨bottom, hbottom⟩ := hback.stored h.head
    obtain ⟨p, hp⟩ := htree.finalized
    refine ⟨_, bottom, hbottom, hback, ?_⟩
    rw [(htree.live_header hh hp hbottom).1]
    exact UInt64.le_refl _
  · obtain ⟨bottom, hbottom⟩ := hback.stored h.head
    obtain ⟨p, hp⟩ := htree₀.finalized
    obtain ⟨st, hst, hslot, -⟩ := htree₀.live _ _ p hp
    rw [← hroot] at hst
    refine ⟨_, bottom, hbottom, hback, ?_⟩
    rw [hst.header_slot hh htree hbottom, hslot]
    exact hadvances.finalized

variable {top safe : BlockHeader H} {slot : UInt64} {vote : AttestationData H}

/-- A vote with a target that the walks have come to. -/
theorem HeadLinked.voteWellFormed (hh : HashSound host) (h : HeadLinked host s)
    {history : List H} (htop : s.blockHeaders.lookup s.head = some top)
    (hjustified : Behind s s.head s.latestJustified.root)
    (hslot : slot.toNat = s.time.toNat / intervalsPerSlot) {t : Located H}
    (ht : Walked s history top t) (hjust : s.latestFinalized.slot < t.2.slot →
      slotIsJustifiableAfter t.2.slot.toNat s.latestFinalized.slot.toNat = true) :
    VoteWellFormed s ⟨slot, ⟨s.head, top.slot⟩,
      if t.2.slot < s.latestJustified.slot then s.latestJustified else ⟨t.1, t.2.slot⟩,
      s.latestJustified⟩ := by
  obtain ⟨q, hq⟩ := h.tree.justified
  obtain ⟨source, hsource⟩ := hjustified.stored ⟨top, htop⟩
  have hsourceSlot := (h.tree.live_header hh hq hsource).1
  obtain ⟨headSlot, p, hhead⟩ := h.head_live
  have hheadSlot := (h.tree.live_header hh hhead htop).1
  have hge : s.latestJustified.slot ≤ top.slot := by
    rw [hheadSlot]
    by_cases heq : s.latestJustified.root = s.head
    · rw [heq] at hq
      rw [h.tree.slot_unique hh hq hhead]
      exact UInt64.le_refl _
    · exact UInt64.le_of_lt (h.tree.slot_lt_of_linked hh h.linked heq hhead hq)
  have hnow : slot.toNat ≤ s.time.toNat / intervalsPerSlot + 1 := by omega
  split
  · refine ⟨validateAttestationData_eq_ok.mpr ?_, .refl, hjustified, .inl rfl⟩
    exact ⟨⟨source, hsource, hsourceSlot⟩, ⟨source, hsource, hsourceSlot⟩, ⟨top, htop, rfl⟩,
      UInt64.le_refl _, hge, hnow⟩
  · rename_i hclamp
    have hle : s.latestJustified.slot ≤ t.2.slot := UInt64.not_lt.mp hclamp
    have hpasses : Behind s t.1 s.latestJustified.root := by
      refine ht.passes _ source hsource hjustified ?_
      rw [hsourceSlot]
      exact hle
    refine ⟨validateAttestationData_eq_ok.mpr ?_, hpasses, ht.reached, .inr ⟨?_, hle⟩⟩
    · exact ⟨⟨source, hsource, hsourceSlot⟩, ⟨t.2, ht.stored, rfl⟩, ⟨top, htop, rfl⟩, hle, ht.le, hnow⟩
    · rcases UInt64.lt_or_eq_of_le (UInt64.le_trans h.tree.ordered hle) with hlt | heq
      · exact hjust hlt
      · dsimp only
        rw [heq]
        exact slotIsJustifiableAfter_self _

/-- Every vote a node produces is well formed, unless the walk towards the safe target leaves the
chain of stored headers: the walk does not stop at the finalized block. -/
theorem produced_vote_wellFormed_iff (hh : HashSound host) {anchor : State H}
    (hanchor : Anchor host anchor) {body : Option (BlockBody H)} {calls : List (Call H)}
    (h₀ : Store.initStore host anchor body = .ok s₀) (hrun : Call.run host s₀ calls = .ok s)
    (hchain : ChainStored s₀ s) (hslot : slot.toNat = s.time.toNat / intervalsPerSlot) :
    (∃ vote, (produceAttestationData s slot : Exec ε (AttestationData H)) = .ok vote ∧
      VoteWellFormed s vote) ↔
    ∀ safe, s.blockHeaders.lookup s.safeTarget = some safe → ∀ n, n ≤ justificationLookbackSlots →
      ∀ r, Above s safe.slot n s.head r → ∃ hdr, s.blockHeaders.lookup r = some hdr := by
  have hlinked := HeadLinked.reachable hh hanchor h₀ hrun
  obtain ⟨top, htop⟩ := hchain.head
  obtain ⟨safe, hsafe⟩ := hchain.safeTarget
  have hback : (∃ t, (lookBack s safe.slot justificationLookbackSlots (s.head, top) :
      Exec ε (Located H)) = .ok t) ↔ _ := exists_lookBack_iff htop
  constructor
  · rintro ⟨vote, hvote, -⟩ safe' hsafe'
    obtain rfl := Option.some.inj (hsafe.symm.trans hsafe')
    obtain ⟨target, htarget, -⟩ := (produceAttestationData_eq_ok htop).mp hvote
    rw [getAttestationTarget_eq htop hsafe] at htarget
    obtain ⟨t, ht, -⟩ := Exec.bind_eq_ok.mp htarget
    exact hback.mp ⟨t, ht⟩
  · intro hall
    obtain ⟨t, ht⟩ := hback.mpr (hall safe hsafe)
    obtain ⟨slot', p, hlive⟩ := hlinked.head_live
    obtain ⟨st, hst, -⟩ := hlinked.tree.live _ _ p hlive
    have hadvances : Advances s₀ s := Call.run_keeps (advances_invariant host s₀).steady
      (fun h ↦ ⟨h.justified, h.finalized⟩) ⟨UInt64.le_refl _, UInt64.le_refl _⟩ hrun
    obtain ⟨stop, bottom, hstop, hbehind, hle⟩ := hchain.bottom hh (blockTree_initStore hh hanchor h₀)
      (initStore_head_eq h₀) hadvances hlinked.tree
    have hjustified := hlinked.tree.behind_of_linked hh hlinked.linked hbehind hstop
      (UInt64.le_trans hle hlinked.tree.ordered) ⟨top, htop⟩
    have hwalked := (walked_head hst hh hlinked.tree htop).lookBack hst hh hlinked.tree ht
    obtain ⟨t', ht', hwalked', hjust⟩ := hwalked.backToJustifiable (ε := ε) hst hh hlinked.tree hstop
      hbehind hle (Nat.lt_succ_of_le rank_le_length)
    refine ⟨_, (produceAttestationData_eq_ok htop).mpr ⟨_, ?_, rfl⟩,
      hlinked.voteWellFormed hh htop hjustified hslot hwalked' hjust⟩
    rw [getAttestationTarget_eq htop hsafe, ht, Exec.ok_bind, ht', Exec.ok_bind]
    split
    · rfl
    · rfl

end Vote

section Flood

/-- Pending blocks, each with the prune that follows it. -/
def floodCalls (blocks : List (SignedBlockWithAttestation H)) : List (Call H) :=
  blocks.flatMap fun sb ↦ [.insertPendingBlock sb, .pruneOldData]

theorem run_floodCalls (host : Host H) (blocks : List (SignedBlockWithAttestation H)) (s : Store H) :
    Call.run host s (floodCalls blocks) = .ok (blocks.foldl (arrive host) s) := by
  induction blocks generalizing s with
  | nil => rfl
  | cons sb blocks ih =>
    refine Runs.run_cons_eq_ok.mpr ⟨_, rfl, Runs.run_cons_eq_ok.mpr ⟨_, rfl, ?_⟩⟩
    exact ih (arrive host s sb)

/-- The tables change, nothing else. -/
theorem foldl_arrive_metadata (host : Host H) (blocks : List (SignedBlockWithAttestation H))
    (s : Store H) :
    (blocks.foldl (arrive host) s).head = s.head ∧
      (blocks.foldl (arrive host) s).safeTarget = s.safeTarget ∧
      (blocks.foldl (arrive host) s).time = s.time ∧
      (blocks.foldl (arrive host) s).latestFinalized = s.latestFinalized := by
  induction blocks generalizing s with
  | nil => exact ⟨rfl, rfl, rfl, rfl⟩
  | cons sb blocks ih => exact ih (arrive host s sb)

end Flood

section Sample

theorem produced_vote_wellFormed_iff_sample :
    ∃ s, Call.run sampleHost sampleStore [.onBlock sampleFirst [0], .onTick 4000 false false] = .ok s ∧
      s.head = sampleHash.block Sample.first ∧
      ∃ vote, (produceAttestationData s 1 : Exec Empty (AttestationData ℕ)) = .ok vote ∧
        VoteWellFormed s vote := by
  have hview : (Call.run sampleHost sampleStore
      [.onBlock sampleFirst [0], .onTick 4000 false false]).toOption.map (fun s ↦
        decide (s.head = sampleHash.block Sample.first ∧ s.safeTarget = sampleHash.block sampleOrigin ∧
          s.latestFinalized.root = sampleHash.block sampleOrigin ∧ s.time = 5 ∧
          s.blockHeaders.lookup (sampleHash.block Sample.first) =
            some (Sample.first.header sampleHash) ∧
          s.blockHeaders.lookup (sampleHash.block sampleOrigin) =
            some (sampleOrigin.header sampleHash))) = some true := by decide +kernel
  obtain ⟨s, hrun, hview⟩ := Exec.exists_ok_of_map hview
  obtain ⟨hhead, hsafe, hfinalized, htime, hfirst, horigin⟩ := of_decide_eq_true hview
  have hchain : ChainStored sampleStore s := by
    refine ⟨⟨_, hhead ▸ hfirst⟩, .inl ?_, ⟨_, hsafe ▸ horigin⟩⟩
    rw [hhead, hfinalized]
    exact .single ⟨_, _, hfirst, rfl, horigin⟩
  refine ⟨s, hrun, hhead, ?_⟩
  refine (produced_vote_wellFormed_iff sampleHost_hashSound sampleGenesis_anchor sampleStore_eq hrun
    hchain (by rw [htime]; rfl)).mpr ?_
  intro safe hlookup n _ r hr
  rw [hsafe, horigin] at hlookup
  obtain rfl := Option.some.inj hlookup
  rw [hhead] at hr
  cases hr with
  | refl => exact ⟨_, hfirst⟩
  | step hhdr hslot hrest =>
    obtain rfl := Option.some.inj (hfirst.symm.trans hhdr)
    cases hrest with
    | refl => exact ⟨_, horigin⟩
    | step hhdr' hslot' _ =>
      obtain rfl := Option.some.inj (horigin.symm.trans hhdr')
      exact absurd hslot' (by decide)

/-- The votes for the first block make it the safe target. Later a rival chain on genesis finalizes
slot 3. -/
def staleCalls : List (Call ℕ) :=
  [.onBlock sampleFirst [], .onBlock sampleSecond [], .onTick 6400 false false,
    .onBlock (sampleProved Sample.rivalThird (ownVote Sample.rivalThird sampleOrigin)) [],
    .onBlock (sampleProved Sample.rivalFourth (ownVote Sample.rivalFourth Sample.rivalThird)) [],
    .onBlock (sampleProved Sample.rivalFifth (ownVote Sample.rivalFifth Sample.rivalFourth)) []]

/-- What the rival chain leaves behind. -/
structure StaleStore (s : Store ℕ) : Prop where
  head : s.head = sampleHash.block Sample.rivalFifth
  safeTarget : s.safeTarget = sampleHash.block Sample.first
  finalized : s.latestFinalized.root = sampleHash.block Sample.rivalThird
  time : s.time = 8
  origin : s.blockHeaders.lookup (sampleHash.block sampleOrigin) = some (sampleOrigin.header sampleHash)
  first : s.blockHeaders.lookup (sampleHash.block Sample.first) = some (Sample.first.header sampleHash)
  third : s.blockHeaders.lookup (sampleHash.block Sample.rivalThird) =
    some (Sample.rivalThird.header sampleHash)
  fourth : s.blockHeaders.lookup (sampleHash.block Sample.rivalFourth) =
    some (Sample.rivalFourth.header sampleHash)
  fifth : s.blockHeaders.lookup (sampleHash.block Sample.rivalFifth) =
    some (Sample.rivalFifth.header sampleHash)
  unprotected : sampleHash.block sampleOrigin ∉ s.protectedRoots
  count : s.blockHeaders.keys.length = 6
  newer : ∀ p ∈ Table.pairs s.blockHeaders, p.1 ≠ sampleHash.block sampleOrigin →
    0 < p.2.slot.toNat ∧ p.2.parentRoot ≠ 0

theorem exists_staleStore : ∃ s, Call.run sampleHost sampleStore staleCalls = .ok s ∧ StaleStore s := by
  have hview : (Call.run sampleHost sampleStore staleCalls).toOption.map (fun s ↦ decide (
      (s.head = sampleHash.block Sample.rivalFifth ∧ s.safeTarget = sampleHash.block Sample.first ∧
        s.latestFinalized.root = sampleHash.block Sample.rivalThird ∧ s.time = 8) ∧
      (s.blockHeaders.lookup (sampleHash.block sampleOrigin) = some (sampleOrigin.header sampleHash) ∧
        s.blockHeaders.lookup (sampleHash.block Sample.first) = some (Sample.first.header sampleHash)) ∧
      (s.blockHeaders.lookup (sampleHash.block Sample.rivalThird) =
          some (Sample.rivalThird.header sampleHash) ∧
        s.blockHeaders.lookup (sampleHash.block Sample.rivalFourth) =
          some (Sample.rivalFourth.header sampleHash) ∧
        s.blockHeaders.lookup (sampleHash.block Sample.rivalFifth) =
          some (Sample.rivalFifth.header sampleHash)) ∧
      sampleHash.block sampleOrigin ∉ s.protectedRoots ∧ s.blockHeaders.keys.length = 6 ∧
      ∀ p ∈ Table.pairs s.blockHeaders, p.1 ≠ sampleHash.block sampleOrigin →
        0 < p.2.slot.toNat ∧ p.2.parentRoot ≠ 0)) = some true := by decide +kernel
  obtain ⟨s, hrun, hview⟩ := Exec.exists_ok_of_map hview
  obtain ⟨⟨hhead, hsafe, hfinalized, htime⟩, ⟨horigin, hfirst⟩, ⟨hthird, hfourth, hfifth⟩,
    hroots, hcount, hnewer⟩ := of_decide_eq_true hview
  exact ⟨s, hrun, hhead, hsafe, hfinalized, htime, horigin, hfirst, hthird, hfourth, hfifth, hroots,
    hcount, hnewer⟩

/-- Just enough blocks on no parent drive out the header of genesis. -/
def staleFlood : List (SignedBlockWithAttestation ℕ) := (List.range 21595).map orphan

theorem StaleStore.flood {s : Store ℕ} (h : StaleStore s) (htree : BlockTree sampleHost s) :
    (staleFlood.foldl (arrive sampleHost) s).blockHeaders.lookup (sampleHash.block sampleOrigin) = none ∧
      ∀ x hdr, x ≠ sampleHash.block sampleOrigin → s.blockHeaders.lookup x = some hdr →
        (staleFlood.foldl (arrive sampleHost) s).blockHeaders.lookup x = some hdr := by
  have hlength : staleFlood.length = 21595 := by rw [staleFlood, List.length_map, List.length_range]
  refine foldl_arrive_oldest sampleHost_hashSound htree.headers h.origin h.unprotected
    (fun p hp hne ↦ (h.newer p hp hne).1) (fun sb hsb ↦ ?_) (orphans_nodup (by decide))
    (fun p hp hne hmem ↦ ?_) (by rw [hlength, h.count]) fun hnil ↦ ?_
  · obtain ⟨k, hk, rfl⟩ := List.mem_map.mp hsb
    rw [orphan_slot (Nat.lt_trans (List.mem_range.mp hk) (by decide))]
    exact Nat.succ_pos _
  · -- a block on no parent has the zero root for its parent, which none of the others has
    obtain ⟨sb, hsb, rfl⟩ := List.mem_map.mp hmem
    obtain ⟨k, -, rfl⟩ := List.mem_map.mp hsb
    exact (h.newer _ hp hne).2 rfl
  · rw [hnil] at hlength
    exact absurd hlength (by decide)

/-- The head and the two blocks behind it lie above the safe target, which is on the other chain. The
third step back leads below the finalized block, to a header that is gone. -/
theorem vote_walk_panics :
    ∃ s, Store.initStore sampleHost sampleGenesis none = .ok sampleStore ∧
      Call.run sampleHost sampleStore (staleCalls ++ floodCalls staleFlood) = .ok s ∧
      ChainStored sampleStore s ∧ (1 : UInt64).toNat = s.time.toNat / intervalsPerSlot ∧
      (produceAttestationData s 1 : Exec Empty (AttestationData ℕ)) =
        Exec.panic (.expect "parent block exists") := by
  obtain ⟨s, hrun, h⟩ := exists_staleStore
  have htree := (HeadLinked.reachable sampleHost_hashSound sampleGenesis_anchor sampleStore_eq hrun).tree
  obtain ⟨hlost, hkept⟩ := h.flood htree
  obtain ⟨hhead, hsafe, htime, hfinalized⟩ := foldl_arrive_metadata sampleHost staleFlood s
  have hflooded := run_floodCalls sampleHost staleFlood s
  generalize staleFlood.foldl (arrive sampleHost) s = t at hlost hkept hhead hsafe htime hfinalized hflooded
  rw [h.head] at hhead
  rw [h.safeTarget] at hsafe
  rw [h.time] at htime
  have hfirst := hkept _ _ (by decide) h.first
  have hthird := hkept _ _ (by decide) h.third
  have hfourth := hkept _ _ (by decide) h.fourth
  have hfifth := hkept _ _ (by decide) h.fifth
  refine ⟨t, sampleStore_eq, Runs.run_append_eq_ok.mpr ⟨s, hrun, hflooded⟩, ⟨⟨_, hhead ▸ hfifth⟩, .inl ?_,
    ⟨_, hsafe ▸ hfirst⟩⟩, by rw [htime]; rfl, ?_⟩
  · rw [hhead, hfinalized, h.finalized]
    exact .head ⟨_, _, hfifth, rfl, hfourth⟩ (.single ⟨_, _, hfourth, rfl, hthird⟩)
  · have hback : (lookBack t (Sample.first.header sampleHash).slot justificationLookbackSlots
        (t.head, Sample.rivalFifth.header sampleHash) : Exec Empty (Located ℕ)) =
        Exec.panic (.expect "parent block exists") := by
      have hstep (r : ℕ) {hdr hdr' : BlockHeader ℕ} (hp : t.blockHeaders.lookup hdr.parentRoot = some hdr') :
          (stepBack t (r, hdr) : Exec Empty (Located ℕ)) = .ok (hdr.parentRoot, hdr') :=
        stepBack_eq_ok.mpr ⟨rfl, hp⟩
      have hfive : (Sample.first.header sampleHash).slot < (Sample.rivalFifth.header sampleHash).slot := by
        decide
      rw [lookBack, if_pos hfive, hstep _ hfourth, Exec.ok_bind, lookBack, if_pos (by decide),
        hstep _ hthird, Exec.ok_bind, lookBack, if_pos (by decide), stepBack, Store.getBlockHeader]
      change (Exec.expect "parent block exists" (t.blockHeaders.lookup (sampleHash.block sampleOrigin)) >>=
        _) >>= _ = _
      rw [hlost]
      rfl
    unfold produceAttestationData Store.headSlot Store.getBlockHeader
    rw [getAttestationTarget_eq (hhead ▸ hfifth) (hsafe ▸ hfirst), hback, hhead, hfifth]
    rfl

end Sample

end Ethlambda.Chain
