import Ethlambda.Chain.WideSlots
import Ethlambda.Chain.Reachable
import Ethlambda.ForkChoice.Ghost

namespace Ethlambda.Chain

open Ethlambda.Base Ethlambda.Types Ethlambda.Storage Ethlambda.StateTransition Ethlambda.ForkChoice

set_option linter.unusedSectionVars false

variable {H : Type} [LinearOrder H] [Zero H] {ε : Type} {host : Host H} {s : Store H}

/-- A vote of the validator whose data is stored. -/
def Votes (s : Store H) (keys : List (SignatureKey H)) (v : UInt64) (d : AttestationData H) : Prop :=
  ∃ r, (v, r) ∈ keys ∧ s.attestationDataByRoot.lookup r = some d

/-- A vote of the validator that no other of its votes comes after. -/
def Latest (s : Store H) (keys : List (SignatureKey H)) (v : UInt64) (d : AttestationData H) : Prop :=
  Votes s keys v d ∧ ∀ d', Votes s keys v d' → d'.slot ≤ d.slot

/-- No validator has two different latest votes. -/
def Untied (s : Store H) (keys : List (SignatureKey H)) : Prop :=
  ∀ v d d', Latest s keys v d → Latest s keys v d' → d = d'

section Extraction

variable {keys l : List (SignatureKey H)} {v : UInt64} {d : AttestationData H}

theorem Votes.perm (h : l.Perm keys) : Votes s l v d ↔ Votes s keys v d := by
  unfold Votes
  simp only [h.mem_iff]

theorem Latest.perm (h : l.Perm keys) : Latest s l v d ↔ Latest s keys v d := by
  unfold Latest
  simp only [Votes.perm h]

/-- What one more key does to the validator's entry. -/
def note (entry : Option (AttestationData H)) (data : AttestationData H) : AttestationData H :=
  match entry with
  | none => data
  | some existing => if existing.slot < data.slot then data else existing

theorem note_slot_lt {entry : Option (AttestationData H)} {slot : UInt64}
    (hentry : ∀ e, entry = some e → e.slot < slot) (hd : d.slot < slot) :
    (note entry d).slot < slot := by
  cases entry with
  | none => exact hd
  | some e =>
    dsimp only [note]
    split
    · exact hd
    · exact hentry e rfl

theorem note_of_lt {entry : Option (AttestationData H)} {slot : UInt64}
    (hentry : ∀ e, entry = some e → e.slot < slot) (hd : ¬d.slot < slot) : note entry d = d := by
  cases entry with
  | none => rfl
  | some e => exact if_pos (UInt64.lt_of_lt_of_le (hentry e rfl) (UInt64.not_lt.mp hd))

theorem lookup_extract_concat (keys : List (SignatureKey H)) (w : UInt64) (r : H) (v : UInt64) :
    (s.extractLatestAttestations (keys ++ [(w, r)])).lookup v =
      match s.attestationDataByRoot.lookup r with
      | none => (s.extractLatestAttestations keys).lookup v
      | some data => if v = w then some (note ((s.extractLatestAttestations keys).lookup v) data)
        else (s.extractLatestAttestations keys).lookup v := by
  unfold Store.extractLatestAttestations
  rw [List.foldl_append, List.foldl_cons, List.foldl_nil]
  generalize List.foldl _ _ keys = result
  unfold Store.getAttestationDataByRoot
  cases hdata : s.attestationDataByRoot.lookup r with
  | none => rfl
  | some data =>
    dsimp only
    by_cases hv : v = w
    · subst hv
      rw [if_pos rfl]
      cases hold : result.lookup v with
      | none => simp [note]
      | some existing =>
        dsimp only [note]
        split
        · exact AList.lookup_insert result
        · exact hold
    · rw [if_neg hv]
      split
      · exact AList.lookup_insert_ne hv
      · split
        · exact AList.lookup_insert_ne hv
        · rfl

theorem votes_concat {w : UInt64} {r : H} : Votes s (keys ++ [(w, r)]) v d ↔
    Votes s keys v d ∨ (v = w ∧ s.attestationDataByRoot.lookup r = some d) := by
  unfold Votes
  simp only [List.mem_append, List.mem_singleton, Prod.mk.injEq, or_and_right, exists_or, and_assoc,
    exists_and_left, exists_eq_left]

/-- The entry of a validator is one of its latest votes. Without an entry it has no vote. -/
theorem extract_latest (keys : List (SignatureKey H)) (v : UInt64) :
    (∀ d, (s.extractLatestAttestations keys).lookup v = some d → Latest s keys v d) ∧
      ((s.extractLatestAttestations keys).lookup v = none → ∀ d, ¬Votes s keys v d) := by
  induction keys using List.reverseRecOn with
  | nil =>
    refine ⟨fun d hd ↦ (nomatch hd), fun _ d hd ↦ ?_⟩
    obtain ⟨r, hr, -⟩ := hd
    exact List.not_mem_nil hr
  | append_singleton keys key ih =>
    obtain ⟨w, r⟩ := key
    rw [lookup_extract_concat]
    unfold Latest at ih ⊢
    simp only [votes_concat]
    cases hdata : s.attestationDataByRoot.lookup r with
    | none => simpa using ih
    | some data =>
      by_cases hv : v = w
      · subst hv
        simp only [if_pos, Option.some.injEq, true_and, reduceCtorEq, false_implies, and_true,
          forall_eq']
        obtain ⟨hsome, hnone⟩ := ih
        cases hold : (s.extractLatestAttestations keys).lookup v with
        | none => simp [note, hnone hold]
        | some existing =>
          obtain ⟨hex, hmax⟩ := hsome existing hold
          dsimp only [note]
          split
          · rename_i hlt
            refine ⟨.inr rfl, fun d' hd' ↦ ?_⟩
            cases hd' with
            | inl hd' => exact UInt64.le_trans (hmax d' hd') (UInt64.le_of_lt hlt)
            | inr hd' => exact hd' ▸ UInt64.le_refl _
          · rename_i hlt
            refine ⟨.inl hex, fun d' hd' ↦ ?_⟩
            cases hd' with
            | inl hd' => exact hmax d' hd'
            | inr hd' => exact hd' ▸ UInt64.not_lt.mp hlt
      · simpa [hv] using ih

theorem Votes.exists_extract (h : Votes s keys v d) :
    ∃ data, (s.extractLatestAttestations keys).lookup v = some data :=
  Option.ne_none_iff_exists'.mp fun hnone ↦ (extract_latest keys v).2 hnone d h

/-- While two tables differ in votes before a slot only, the entries agree or lie before it. -/
theorem lookup_extract_cases {t : Store H} (slot : UInt64)
    (hsub : ∀ r d, t.attestationDataByRoot.lookup r = some d →
      s.attestationDataByRoot.lookup r = some d)
    (hbefore : ∀ r d, (v, r) ∈ keys → s.attestationDataByRoot.lookup r = some d →
      t.attestationDataByRoot.lookup r = none → d.slot < slot) :
    (s.extractLatestAttestations keys).lookup v = (t.extractLatestAttestations keys).lookup v ∨
      (∀ e, (s.extractLatestAttestations keys).lookup v = some e → e.slot < slot) ∧
        ∀ e, (t.extractLatestAttestations keys).lookup v = some e → e.slot < slot := by
  induction keys using List.reverseRecOn with
  | nil => exact .inl rfl
  | append_singleton keys key ih =>
    obtain ⟨w, r⟩ := key
    have ih := ih fun r' d hmem ↦ hbefore r' d (List.mem_append_left _ hmem)
    rw [lookup_extract_concat, lookup_extract_concat]
    by_cases hv : v = w
    · subst hv
      have hbefore := fun d ↦ hbefore r d (List.mem_append_right _ List.mem_cons_self)
      generalize (s.extractLatestAttestations keys).lookup v = x at ih ⊢
      generalize (t.extractLatestAttestations keys).lookup v = y at ih ⊢
      cases ht : t.attestationDataByRoot.lookup r with
      | some d =>
        rw [hsub r d ht]
        simp only [if_true, Option.some.injEq, forall_eq']
        rcases ih with rfl | ⟨hx, hy⟩
        · exact .inl rfl
        · by_cases hd : d.slot < slot
          · exact .inr ⟨note_slot_lt hx hd, note_slot_lt hy hd⟩
          · exact .inl ((note_of_lt hx hd).trans (note_of_lt hy hd).symm)
      | none =>
        cases hs : s.attestationDataByRoot.lookup r with
        | none => exact ih
        | some d =>
          -- the vote that the second table lacks comes before the slot
          have hd := hbefore d hs ht
          simp only [if_true, Option.some.injEq, forall_eq']
          rcases ih with rfl | ⟨hx, hy⟩
          · by_cases hx : ∀ e, x = some e → e.slot < slot
            · exact .inr ⟨note_slot_lt hx hd, hx⟩
            · simp only [not_forall, UInt64.not_lt] at hx
              obtain ⟨e, rfl, he⟩ := hx
              refine .inl (congrArg some (if_neg ?_))
              exact UInt64.not_lt.mpr (UInt64.le_of_lt (UInt64.lt_of_lt_of_le hd he))
          · exact .inr ⟨note_slot_lt hx hd, hy⟩
    · simp only [if_neg hv]
      cases ht : t.attestationDataByRoot.lookup r with
      | some d =>
        rw [hsub r d ht]
        exact ih
      | none =>
        cases s.attestationDataByRoot.lookup r with
        | none => exact ih
        | some d => exact ih

/-- Votes that are missing do not matter to a validator with a later vote. -/
theorem lookup_extract_congr {t : Store H}
    (hsub : ∀ r d, t.attestationDataByRoot.lookup r = some d →
      s.attestationDataByRoot.lookup r = some d)
    (hlater : ∀ r d, (v, r) ∈ keys → s.attestationDataByRoot.lookup r = some d →
      t.attestationDataByRoot.lookup r = none → ∃ d', Votes t keys v d' ∧ d.slot < d'.slot) :
    (s.extractLatestAttestations keys).lookup v = (t.extractLatestAttestations keys).lookup v := by
  obtain ⟨hsome, hnone⟩ := extract_latest (s := t) keys v
  cases hentry : (t.extractLatestAttestations keys).lookup v with
  | none =>
    have hcases := lookup_extract_cases 0 hsub fun r d hmem hs ht ↦ by
      obtain ⟨d', hd', -⟩ := hlater r d hmem hs ht
      exact absurd hd' (hnone hentry d')
    rw [hentry] at hcases
    refine hcases.elim id fun hbelow ↦ Option.eq_none_iff_forall_ne_some.mpr fun e he ↦ ?_
    exact UInt64.not_lt_zero (hbelow.1 e he)
  | some e =>
    obtain ⟨-, hmax⟩ := hsome e hentry
    have hcases := lookup_extract_cases e.slot hsub fun r d hmem hs ht ↦ by
      obtain ⟨d', hd', hlt⟩ := hlater r d hmem hs ht
      exact UInt64.lt_of_lt_of_le hlt (hmax d' hd')
    rw [hentry] at hcases
    exact hcases.elim id fun hbelow ↦ absurd (hbelow.2 e rfl) (UInt64.lt_irrefl e.slot)

/-- The first of several latest votes wins. -/
theorem lookup_extract_first {r : H} (hd : s.attestationDataByRoot.lookup r = some d)
    (hmax : ∀ d', Votes s l v d' → d'.slot ≤ d.slot) :
    (s.extractLatestAttestations ((v, r) :: l)).lookup v = some d := by
  induction l using List.reverseRecOn with
  | nil =>
    have hone := lookup_extract_concat (s := s) [] v r v
    rw [List.nil_append] at hone
    rw [hone, hd]
    simp [Store.extractLatestAttestations, note]
  | append_singleton l key ih =>
    obtain ⟨w, q⟩ := key
    have hold := ih fun d' hd' ↦ hmax d' (by
      exact votes_concat.mpr (.inl hd'))
    rw [← List.cons_append, lookup_extract_concat, hold]
    cases hdata : s.attestationDataByRoot.lookup q with
    | none => rfl
    | some data =>
      dsimp only
      split
      · rename_i hv
        have hle : data.slot ≤ d.slot := hmax data (votes_concat.mpr (.inr ⟨hv, hdata⟩))
        rw [note, if_neg (UInt64.not_lt.mpr hle)]
      · rfl

/-- The entry does not depend on the order of the keys: it is the latest vote. -/
def OrderFree (s : Store H) (keys : List (SignatureKey H)) : Prop :=
  ∀ l l', l.Perm keys → l'.Perm keys → ∀ v,
    (s.extractLatestAttestations l).lookup v = (s.extractLatestAttestations l').lookup v ∧
      ∀ d, (s.extractLatestAttestations l).lookup v = some d ↔ Latest s keys v d

theorem Untied.lookup_extract (h : Untied s keys) (hl : l.Perm keys) (v : UInt64)
    (d : AttestationData H) :
    (s.extractLatestAttestations l).lookup v = some d ↔ Latest s keys v d := by
  obtain ⟨hsome, hnone⟩ := extract_latest (s := s) l v
  constructor
  · intro hd
    exact (Latest.perm hl).mp (hsome d hd)
  · intro hlatest
    cases hentry : (s.extractLatestAttestations l).lookup v with
    | none => exact absurd ((Votes.perm hl).mpr hlatest.1) (hnone hentry d)
    | some d' => rw [h v d d' hlatest ((Latest.perm hl).mp (hsome d' hentry))]

theorem orderFree_iff : OrderFree s keys ↔ Untied s keys := by
  constructor
  · intro h v d d' hd hd'
    -- put one vote first, then the other
    have hfirst (e : AttestationData H) (he : Latest s keys v e) :
        (s.extractLatestAttestations keys).lookup v = some e := by
      obtain ⟨⟨r, hr, hlookup⟩, hmax⟩ := he
      have hperm : ((v, r) :: keys.erase (v, r)).Perm keys := (List.perm_cons_erase hr).symm
      rw [(h keys _ (.refl keys) hperm v).1]
      refine lookup_extract_first hlookup fun e' he' ↦ hmax e' ?_
      obtain ⟨q, hq, hlookup'⟩ := he'
      exact ⟨q, List.mem_of_mem_erase hq, hlookup'⟩
    exact Option.some.inj ((hfirst d hd).symm.trans (hfirst d' hd'))
  · intro h l l' hl hl' v
    refine ⟨Option.ext fun d ↦ ?_, h.lookup_extract hl v⟩
    rw [h.lookup_extract hl v d, h.lookup_extract hl' v d]

end Extraction

/-- Without ties the new head does not depend on the order in which any table is read. -/
theorem Untied.updateHead_eq (hh : HashSound host) (h : BlockTree host s)
    (huntied : Untied s s.knownPayloads.uniqueKeys) (host' : Host H) :
    (updateHead host' : Op (Store H) ε Unit) s = updateHead host s := by
  have hblocks (r : H) : (s.getLiveChain host').lookup r = (s.getLiveChain host).lookup r := by
    refine Option.ext fun e ↦ ?_
    obtain ⟨slot, p⟩ := e
    rw [h.lookup_getLiveChain hh, lookup_getLiveChain_iff host' (h.slot_unique hh)]
  have hvotes (v : UInt64) : (s.extractLatestKnownAttestations host').lookup v =
      (s.extractLatestKnownAttestations host).lookup v :=
    (orderFree_iff.mpr huntied _ _ (host'.order_perm _) (host.order_perm _) v).1
  obtain ⟨head, w, w', hrun, hrun'⟩ := computeLmdGhostHead_congr (ε := ε)
    (h.ordered_getLiveChain hh) hblocks hvotes (h.start_mem hh) (h.justified_ne_zero hh) host host' 0
  unfold updateHead
  rw [Op.get_bind, Op.get_bind, Op.lift_bind_of_ok hrun, Op.lift_bind_of_ok hrun']
  rfl

/-- Reading the votes of a set of keys gives one map, whatever the order, exactly if no validator
has two latest votes. In a reached store without ties the head is then a function of the store. -/
theorem latest_votes_order_free_iff :
    (∀ (s : Store H) (keys : List (SignatureKey H)), OrderFree s keys ↔ Untied s keys) ∧
    ∀ (host : Host H) (st : State H) (body : Option (BlockBody H)) (s₀ s : Store H)
      (calls : List (Call H)), HashSound host → Anchor host st →
      Store.initStore host st body = .ok s₀ → Call.run host s₀ calls = .ok s →
      Untied s s.knownPayloads.uniqueKeys →
      ∀ host' : Host H, (updateHead host' : Op (Store H) ε Unit) s = updateHead host s := by
  refine ⟨fun s keys ↦ orderFree_iff, ?_⟩
  intro host st body s₀ s calls hh hst h₀ hrun huntied host'
  have htree : BlockTree host s := Call.run_keeps (blockTree_invariant hh).steady
    (fun h ↦ h.pruneOldData) (blockTree_initStore hh hst h₀) hrun
  exact huntied.updateHead_eq hh htree host'

section Sample

def sampleRival : Block ℕ := sampleBlock sampleOrigin 2 .empty

/-- A vote of validator 0 in slot 1 for one of two competing blocks. -/
def rivalVote (head : Block ℕ) : AttestationData ℕ :=
  ⟨1, sampleCheckpoint head, sampleCheckpoint sampleOrigin, sampleCheckpoint sampleOrigin⟩

def rivalAggregate (head : Block ℕ) : SignedAggregatedAttestation ℕ :=
  ⟨rivalVote head, ⟨[true], one_le_limit⟩,
    ⟨[0, 1, UInt8.ofNat (sampleHost.attestationData (rivalVote head))], by simp⟩⟩

def rivalCalls : List (Call ℕ) :=
  [.onBlock sampleFirst [], .onBlock (sampleSigned sampleRival (ownVote sampleRival sampleOrigin)) [],
    .onGossipAggregatedAttestation (rivalAggregate Sample.first),
    .onGossipAggregatedAttestation (rivalAggregate sampleRival), .onTick 4000 false false]

/-- The same node with its tables read the other way round. -/
def reversedHost : Host ℕ := { sampleHost with order := List.reverse, order_perm := List.reverse_perm }

def headAfter (host : Host ℕ) (s : Store ℕ) : Option ℕ :=
  ((updateHead host : Op (Store ℕ) Empty Unit) s).toOption.map fun r ↦ r.2.head

/-- A validator votes twice in a slot. Which block is the head depends on the vote read first. -/
theorem rival_votes_order_dependent :
    ∃ s, Call.run sampleHost sampleStore rivalCalls = .ok s ∧
      ¬OrderFree s s.knownPayloads.uniqueKeys ∧
      headAfter sampleHost s = some (sampleHash.block Sample.first) ∧
      headAfter reversedHost s = some (sampleHash.block sampleRival) := by
  have hview : (Call.run sampleHost sampleStore rivalCalls).toOption.map (fun s ↦
      (headAfter sampleHost s, headAfter reversedHost s,
        decide ((s.extractLatestAttestations s.knownPayloads.uniqueKeys).lookup 0 =
          (s.extractLatestAttestations s.knownPayloads.uniqueKeys.reverse).lookup 0))) =
      some (some (sampleHash.block Sample.first), some (sampleHash.block sampleRival), false) := by
    decide +kernel
  obtain ⟨s, hs, hview⟩ := Exec.exists_ok_of_map hview
  obtain ⟨hhead, hview⟩ := Prod.mk.inj hview
  obtain ⟨hhead', hne⟩ := Prod.mk.inj hview
  refine ⟨s, hs, fun hfree ↦ ?_, hhead, hhead'⟩
  exact of_decide_eq_false hne (hfree _ _ (.refl _) (List.reverse_perm _) 0).1

theorem latest_votes_order_free_iff_sample :
    (∀ keys, OrderFree sampleStore keys ↔ Untied sampleStore keys) ∧
    ∃ s, Call.run sampleHost sampleStore (rivalCalls.eraseIdx 3) = .ok s ∧
      s.knownPayloads.uniqueKeys ≠ [] ∧
      ∀ host' : Host ℕ, (updateHead host' : Op (Store ℕ) Empty Unit) s = updateHead sampleHost s := by
  refine ⟨(latest_votes_order_free_iff (ε := Empty)).1 sampleStore, ?_⟩
  have hview : (Call.run sampleHost sampleStore (rivalCalls.eraseIdx 3)).toOption.map
      (fun s ↦ s.knownPayloads.uniqueKeys) =
      some [(0, sampleHost.attestationData (rivalVote Sample.first))] := by decide +kernel
  obtain ⟨s, hs, hkeys⟩ := Exec.exists_ok_of_map hview
  refine ⟨s, hs, by simp [hkeys], (latest_votes_order_free_iff (ε := Empty)).2 sampleHost
    sampleGenesis none sampleStore s _ sampleHost_hashSound sampleGenesis_anchor sampleStore_eq hs ?_⟩
  rw [hkeys]
  intro v d d' hd hd'
  obtain ⟨⟨r, hr, hlookup⟩, -⟩ := hd
  obtain ⟨⟨r', hr', hlookup'⟩, -⟩ := hd'
  obtain ⟨-, rfl⟩ := Prod.mk.inj (List.mem_singleton.mp hr)
  obtain ⟨-, rfl⟩ := Prod.mk.inj (List.mem_singleton.mp hr')
  exact Option.some.inj (hlookup.symm.trans hlookup')

end Sample

end Ethlambda.Chain
