import Ethlambda.Base.Newest
import Ethlambda.Chain.Retention

namespace Ethlambda.Chain

open Ethlambda.Base Ethlambda.Types Ethlambda.Storage Ethlambda.StateTransition

set_option linter.unusedSectionVars false

variable {H : Type} [LinearOrder H] [Zero H] {host : Host H} {s t : Store H} {r : H}

/-- The slot that the header of a block gives, which is the age of its state. -/
def slotAt (s : Store H) (r : H) : ℕ := ((s.blockHeaders.lookup r).map (·.slot.toNat)).getD 0

/-- The roots of the newest headers, as many as states are kept. -/
def stateWindow (host : Host H) (s : Store H) : Finset H :=
  ((s.rootsByAge host).take statesToKeep).toFinset

/-- The newest states and the protected ones are still there, and no others. -/
def KeepsNewest (s : Store H) (protectedRoots : List H) (t : Store H) : Prop :=
  ∃ newest, Newest (slotAt s) statesToKeep s.states.keys.toFinset newest ∧
    ∀ r, t.states.lookup r = if r ∈ newest ∨ r ∈ protectedRoots then s.states.lookup r else none

theorem slotAt_of_mem {hdr : BlockHeader H} (h : s.blockHeaders.lookup r = some hdr) :
    slotAt s r = hdr.slot.toNat := by
  rw [slotAt, h]
  rfl

theorem rootsByAge_pairwise (host : Host H) (s : Store H) :
    (s.rootsByAge host).Pairwise fun a b ↦ slotAt s b ≤ slotAt s a := by
  set sorted := (host.order (Table.pairs s.blockHeaders)).insertionSort
    (fun a b ↦ b.2.slot.toNat ≤ a.2.slot.toNat) with hsorted
  have hpair : sorted.Pairwise fun a b ↦ b.2.slot.toNat ≤ a.2.slot.toNat :=
    insertionSort_pairwise (fun p : H × BlockHeader H ↦ p.2.slot.toNat) _
  have hslot : ∀ p ∈ sorted, slotAt s p.1 = p.2.slot.toNat := by
    intro p hp
    rw [hsorted, List.mem_insertionSort, host.mem_order, Table.mem_pairs] at hp
    exact slotAt_of_mem hp
  refine List.pairwise_map.mpr (hpair.imp_of_mem fun {a b} ha hb hle ↦ ?_)
  rw [hslot a ha, hslot b hb]
  exact hle

theorem stateWindow_window (host : Host H) (s : Store H) : Window (slotAt s) statesToKeep
    (stateWindow host s) ((s.rootsByAge host).drop statesToKeep).toFinset := by
  have hsplit := List.take_append_drop statesToKeep (s.rootsByAge host)
  have hnodup := hsplit ▸ rootsByAge_nodup host s
  have hsorted := hsplit ▸ rootsByAge_pairwise host s
  rw [List.nodup_append] at hnodup
  rw [List.pairwise_append] at hsorted
  constructor
  case disjoint =>
    refine Finset.disjoint_left.mpr fun a ha ha' ↦ ?_
    exact hnodup.2.2 a (List.mem_toFinset.mp ha) a (List.mem_toFinset.mp ha') rfl
  case le =>
    exact fun w hw d hd ↦ hsorted.2.2 w (List.mem_toFinset.mp hw) d (List.mem_toFinset.mp hd)
  case card_le => exact (List.toFinset_card_le _).trans (List.length_take_le _ _)
  case full =>
    intro hD
    obtain ⟨d, hd⟩ := hD
    have hpos := List.length_pos_of_mem (List.mem_toFinset.mp hd)
    rw [List.length_drop] at hpos
    rw [stateWindow, List.toFinset_card_of_nodup hnodup.1, List.length_take]
    omega

theorem mem_expired_iff {window : ℕ} {protectedRoots : List H} :
    r ∈ s.expired host window protectedRoots ↔
      r ∈ (s.rootsByAge host).drop window ∧ r ∉ protectedRoots :=
  ⟨mem_drop_of_mem_expired, fun h ↦ mem_expired_of_mem_drop h.1 h.2⟩

theorem lookup_pruneOldStates (protectedRoots : List H) (r : H) :
    (s.pruneOldStates host protectedRoots).states.lookup r =
      if r ∈ s.expired host statesToKeep protectedRoots then none else s.states.lookup r :=
  Table.lookup_deleteBatch _ s.states r

/-- The prune keeps of the states what lies in the window of headers, and the protected ones. -/
theorem mem_pruneOldStates (hheaders : ∀ r ∈ s.states, r ∈ s.blockHeaders)
    {protectedRoots : List H} : r ∈ (s.pruneOldStates host protectedRoots).states ↔
      r ∈ keptBy s.states.keys.toFinset (stateWindow host s) protectedRoots.toFinset := by
  rw [← AList.lookup_isSome, lookup_pruneOldStates, mem_keptBy, List.mem_toFinset,
    List.mem_toFinset, ← AList.mem_keys, stateWindow, List.mem_toFinset]
  have hall : r ∈ s.states →
      r ∈ (s.rootsByAge host).take statesToKeep ∨ r ∈ (s.rootsByAge host).drop statesToKeep := by
    intro hr
    rw [← List.mem_append, List.take_append_drop]
    exact mem_rootsByAge.mpr (Table.mem_iff_lookup.mp (hheaders r hr))
  have hdisj := (stateWindow_window host s).disjoint
  have hnot : r ∈ (s.rootsByAge host).take statesToKeep →
      r ∉ (s.rootsByAge host).drop statesToKeep := fun hr hr' ↦
    Finset.disjoint_left.mp hdisj (List.mem_toFinset.mpr hr) (List.mem_toFinset.mpr hr')
  by_cases hexp : r ∈ s.expired host statesToKeep protectedRoots
  · obtain ⟨hdrop, hroots⟩ := mem_expired_iff.mp hexp
    rw [if_pos hexp]
    refine iff_of_false (by simp) fun h ↦ ?_
    exact h.2.elim (fun hr ↦ hnot hr hdrop) hroots
  · rw [if_neg hexp, AList.lookup_isSome]
    refine ⟨fun hr ↦ ⟨hr, ?_⟩, And.left⟩
    by_cases hroots : r ∈ protectedRoots
    · exact .inr hroots
    · exact .inl ((hall hr).resolve_right fun hdrop ↦ hexp (mem_expired_iff.mpr ⟨hdrop, hroots⟩))

theorem keepsNewest_iff_kept (hheaders : ∀ r ∈ s.states, r ∈ s.blockHeaders)
    {protectedRoots : List H} :
    KeepsNewest s protectedRoots (s.pruneOldStates host protectedRoots) ↔
      ∃ K, Newest (slotAt s) statesToKeep s.states.keys.toFinset K ∧
        keptBy s.states.keys.toFinset (stateWindow host s) protectedRoots.toFinset =
          K ∪ s.states.keys.toFinset ∩ protectedRoots.toFinset := by
  refine exists_congr fun K ↦ and_congr_right fun hK ↦ ⟨fun hlookup ↦ ?_, fun hkept r ↦ ?_⟩
  · ext r
    rw [← mem_pruneOldStates hheaders, ← AList.lookup_isSome, hlookup, Finset.mem_union,
      Finset.mem_inter, List.mem_toFinset, List.mem_toFinset, ← AList.mem_keys]
    have hmem : r ∈ K → r ∈ s.states := fun hr ↦
      AList.mem_keys.mpr (List.mem_toFinset.mp (hK.subset hr))
    split
    · rename_i hr
      rw [AList.lookup_isSome]
      constructor
      · intro hstate
        exact hr.imp_right fun hroots ↦ ⟨hstate, hroots⟩
      · intro h
        exact h.elim hmem And.left
    · rename_i hr
      rw [not_or] at hr
      refine iff_of_false (by simp) fun h ↦ ?_
      exact h.elim hr.1 fun h ↦ hr.2 h.2
  · have hmem : r ∈ (s.pruneOldStates host protectedRoots).states ↔
        r ∈ s.states ∧ (r ∈ K ∨ r ∈ protectedRoots) := by
      rw [mem_pruneOldStates hheaders, hkept, Finset.mem_union, Finset.mem_inter,
        List.mem_toFinset, List.mem_toFinset, ← AList.mem_keys]
      constructor
      · rintro (hr | ⟨hstate, hroots⟩)
        · exact ⟨AList.mem_keys.mpr (List.mem_toFinset.mp (hK.subset hr)), .inl hr⟩
        · exact ⟨hstate, .inr hroots⟩
      · rintro ⟨hstate, hr | hroots⟩
        · exact .inl hr
        · exact .inr ⟨hstate, hroots⟩
    rw [← AList.lookup_isSome, ← AList.lookup_isSome, lookup_pruneOldStates] at hmem
    rw [lookup_pruneOldStates]
    cases hlookup : s.states.lookup r with
    | none => simp
    | some st =>
      rw [hlookup] at hmem
      by_cases hr : r ∈ K ∨ r ∈ protectedRoots
      · rw [if_pos hr]
        split
        · rename_i hexp
          rw [if_pos hexp] at hmem
          exact absurd (hmem.mpr ⟨rfl, hr⟩) (by simp)
        · rfl
      · rw [if_neg hr]
        split
        · rfl
        · rename_i hexp
          rw [if_neg hexp] at hmem
          exact absurd (hmem.mp rfl).2 hr

/-- The prune does as it says exactly if each state that falls out of the window unprotected has as
many protected ones behind the window, no older than itself, as there are headers without a state
in the window. -/
theorem prune_keeps_newest_iff (host : Host H) (s : Store H)
    (hheaders : ∀ r ∈ s.states, r ∈ s.blockHeaders) (protectedRoots : List H) :
    KeepsNewest s protectedRoots (s.pruneOldStates host protectedRoots) ↔
      ∀ r ∈ s.states, r ∉ stateWindow host s → r ∉ protectedRoots →
        ((stateWindow host s).filter fun x ↦ x ∉ s.states).card ≤
          (protectedRoots.toFinset.filter fun x ↦
            x ∈ s.states ∧ x ∉ stateWindow host s ∧ slotAt s r ≤ slotAt s x).card := by
  have hwin := stateWindow_window host s
  have hS : s.states.keys.toFinset ⊆
      stateWindow host s ∪ ((s.rootsByAge host).drop statesToKeep).toFinset := by
    intro r hr
    rw [List.mem_toFinset, ← AList.mem_keys] at hr
    rw [Finset.mem_union, stateWindow, List.mem_toFinset, List.mem_toFinset, ← List.mem_append,
      List.take_append_drop]
    exact mem_rootsByAge.mpr (Table.mem_iff_lookup.mp (hheaders r hr))
  rw [keepsNewest_iff_kept hheaders, hwin.keeps_newest_iff hS]
  have hgaps : stateWindow host s \ s.states.keys.toFinset =
      (stateWindow host s).filter fun x ↦ x ∉ s.states := by
    ext x
    rw [Finset.mem_sdiff, Finset.mem_filter, List.mem_toFinset, ← AList.mem_keys]
  have hbehind (r : H) : (s.states.keys.toFinset ∩ protectedRoots.toFinset ∩
      ((s.rootsByAge host).drop statesToKeep).toFinset).filter (fun x ↦ slotAt s r ≤ slotAt s x) =
      protectedRoots.toFinset.filter fun x ↦
        x ∈ s.states ∧ x ∉ stateWindow host s ∧ slotAt s r ≤ slotAt s x := by
    ext x
    simp only [Finset.mem_filter, Finset.mem_inter, List.mem_toFinset, ← AList.mem_keys]
    constructor
    · rintro ⟨⟨⟨hstate, hroots⟩, hdrop⟩, hle⟩
      refine ⟨hroots, hstate, fun hx ↦ ?_, hle⟩
      exact Finset.disjoint_left.mp hwin.disjoint hx (List.mem_toFinset.mpr hdrop)
    · rintro ⟨hroots, hstate, hx, hle⟩
      have hmem := hS (List.mem_toFinset.mpr (AList.mem_keys.mp hstate))
      exact ⟨⟨⟨hstate, hroots⟩,
        List.mem_toFinset.mp ((Finset.mem_union.mp hmem).resolve_left hx)⟩, hle⟩
  simp only [hgaps, hbehind, List.mem_toFinset, ← AList.mem_keys]

section Sample

/-- A store in which every header has a state. -/
def stateful (headers : List (ℕ × BlockHeader ℕ)) : Store ℕ :=
  { sampleStore with
    blockHeaders := Table.putBatch headers ∅
    states := Table.putBatch (headers.map fun p ↦ (p.1, sampleGenesis)) ∅ }

theorem lookup_stateful {headers : List (ℕ × BlockHeader ℕ)}
    (hsound : ∀ p ∈ headers, sampleHost.header p.2 = p.1) {r : ℕ} {hdr : BlockHeader ℕ} :
    (stateful headers).blockHeaders.lookup r = some hdr ↔ (r, hdr) ∈ headers := by
  refine ⟨fun h ↦ (Table.lookup_putBatch_cases h).resolve_right nofun, fun h ↦ ?_⟩
  exact lookup_putBatch_headers sampleHost_hashSound hsound (hsound _ h) (.inl h)

theorem mem_stateful {headers : List (ℕ × BlockHeader ℕ)}
    (hsound : ∀ p ∈ headers, sampleHost.header p.2 = p.1) {r : ℕ} :
    r ∈ (stateful headers).states ↔ r ∈ (stateful headers).blockHeaders := by
  rw [Table.mem_iff_lookup, Table.mem_iff_lookup]
  constructor
  · rintro ⟨st, hst⟩
    obtain ⟨p, hp, heq⟩ := List.mem_map.mp ((Table.lookup_putBatch_cases hst).resolve_right nofun)
    obtain ⟨rfl, -⟩ := Prod.mk.inj heq
    exact ⟨p.2, (lookup_stateful hsound).mpr hp⟩
  · rintro ⟨hdr, hhdr⟩
    refine ⟨sampleGenesis, Table.lookup_putBatch_of_mem
      (List.mem_map.mpr ⟨_, (lookup_stateful hsound).mp hhdr, rfl⟩) fun w hw ↦ ?_⟩
    obtain ⟨p, -, heq⟩ := List.mem_map.mp hw
    exact (Prod.mk.inj heq).2.symm

/-- The blocks of 3002 slots. -/
def manyHeaders : List (ℕ × BlockHeader ℕ) :=
  ((List.range 3002).map orphan).map (headerEntry sampleHost)

/-- Of the 3002 states the oldest is protected, and the prune deletes the next. -/
theorem prune_keeps_newest_sample :
    (∀ r ∈ (stateful manyHeaders).states, r ∈ (stateful manyHeaders).blockHeaders) ∧
      sampleHash.block (orphan 1).message.block ∈ (stateful manyHeaders).states ∧
      ((stateful manyHeaders).pruneOldStates sampleHost
        [sampleHash.block (orphan 0).message.block]).states.lookup
          (sampleHash.block (orphan 1).message.block) = none ∧
      KeepsNewest (stateful manyHeaders) [sampleHash.block (orphan 0).message.block]
        ((stateful manyHeaders).pruneOldStates sampleHost
          [sampleHash.block (orphan 0).message.block]) := by
  have hsound : ∀ p ∈ manyHeaders, sampleHost.header p.2 = p.1 :=
    headerEntry_sound sampleHost_hashSound _
  have hmem {k : ℕ} (hk : k < 3002) : headerEntry sampleHost (orphan k) ∈ manyHeaders :=
    List.mem_map_of_mem (List.mem_map_of_mem (List.mem_range.mpr hk))
  have hslot {k : ℕ} (hk : k < 3002) : (headerEntry sampleHost (orphan k)).2.slot.toNat = k + 2 :=
    orphan_slot (Nat.lt_trans hk (by decide))
  have hnodup : manyHeaders.Nodup := orphans_nodup (by decide)
  have hlen : manyHeaders.length = 3002 := by
    rw [manyHeaders, List.length_map, List.length_map, List.length_range]
  have hget {i : ℕ} (hi : i < manyHeaders.length) :
      manyHeaders[i] = headerEntry sampleHost (orphan i) := by
    simp only [manyHeaders, List.getElem_map, List.getElem_range]
  have hone := (lookup_stateful hsound).mpr (hmem (k := 1) (by decide))
  generalize manyHeaders = headers at *
  have hheaders : ∀ r ∈ (stateful headers).states, r ∈ (stateful headers).blockHeaders :=
    fun r ↦ (mem_stateful hsound).mp
  refine ⟨hheaders, (mem_stateful hsound).mpr (Table.mem_iff_lookup.mpr ⟨_, hone⟩), ?_,
    (prune_keeps_newest_iff sampleHost _ hheaders _).mpr ?_⟩
  · rw [lookup_pruneOldStates, if_pos]
    refine mem_expired_of_mem_drop
      (mem_drop_of_newer hone (hnodup.sublist (List.drop_sublist 2 headers)) ?_ ?_) ?_
    · intro p hp
      obtain ⟨i, hi, rfl⟩ := List.mem_drop_iff_getElem.mp hp
      rw [hget]
      refine ⟨(lookup_stateful hsound).mpr (hmem (by omega)), ?_⟩
      have hone : (headerEntry sampleHost (orphan 1)).2.slot.toNat = 3 := hslot (by decide)
      have htwo := hslot (k := 2 + i) (by omega)
      change (headerEntry sampleHost (orphan 1)).2.slot.toNat < _
      omega
    · rw [List.length_drop, hlen]
    · rw [List.mem_singleton]
      intro heq
      have hsame : (headerEntry sampleHost (orphan 1)).2 = (headerEntry sampleHost (orphan 0)).2 :=
        sampleHash_collisionFree.header_injective heq
      have hone := hslot (k := 1) (by decide)
      rw [hsame, hslot (by decide)] at hone
      exact absurd hone (by decide)
  · intro r _ _ _
    have hnone : ((stateWindow sampleHost (stateful headers)).filter fun x ↦
        x ∉ (stateful headers).states) = ∅ := by
      refine Finset.filter_eq_empty_iff.mpr fun x hx ↦ not_not.mpr ?_
      rw [stateWindow, List.mem_toFinset] at hx
      exact (mem_stateful hsound).mpr
        (Table.mem_iff_lookup.mpr (mem_rootsByAge.mp (List.mem_of_mem_take hx)))
    rw [hnone, Finset.card_empty]
    exact Nat.zero_le _

/-- Blocks that wait for their parents leave their headers and nothing else. -/
theorem foldl_insertPendingBlock (host : Host H) (blocks : List (SignedBlockWithAttestation H))
    (s : Store H) :
    (blocks.foldl (fun s sb ↦ s.insertPendingBlock host (host.block sb.message.block) sb) s).blockHeaders =
        Table.putBatch (blocks.map (headerEntry host)) s.blockHeaders ∧
      (blocks.foldl (fun s sb ↦ s.insertPendingBlock host (host.block sb.message.block) sb) s).states =
        s.states ∧
      (blocks.foldl (fun s sb ↦
        s.insertPendingBlock host (host.block sb.message.block) sb) s).protectedRoots =
        s.protectedRoots := by
  induction blocks generalizing s with
  | nil => exact ⟨rfl, rfl, rfl⟩
  | cons sb blocks ih => exact ih (s.insertPendingBlock host (host.block sb.message.block) sb)

/-- A node has imported the first block, and 3000 later blocks wait for their parents. Of its two
states the newer one is pruned. -/
theorem newest_state_pruned :
    ∃ (server : Server sampleHost) (s : Store ℕ),
      Server.run sampleHost sampleServer [⟨1, .newBlock sampleFirst⟩] = .ok server ∧
      s = ((List.range 3000).map orphan).foldl (fun s sb ↦
        s.insertPendingBlock sampleHost (sampleHost.block sb.message.block) sb) server.store ∧
      (∀ r ∈ s.states, r ∈ s.blockHeaders) ∧ s.states.keys.length = 2 ∧
      ¬KeepsNewest s s.protectedRoots (s.pruneOldStates sampleHost s.protectedRoots) := by
  have hview : (Server.run sampleHost sampleServer [⟨1, .newBlock sampleFirst⟩]).toOption.map
      (fun server ↦ decide (server.store.head = sampleHash.block Sample.first ∧
        server.store.blockHeaders.lookup server.store.head = some (Sample.first.header sampleHash) ∧
        server.store.head ∉ server.store.protectedRoots ∧
        server.store.head ∈ server.store.states.keys ∧ server.store.states.keys.length = 2 ∧
        ∀ r ∈ server.store.states.keys, ∃ hdr, server.store.blockHeaders.lookup r = some hdr ∧
          sampleHost.header hdr = r)) = some true := by decide +kernel
  obtain ⟨server, hrun, hview⟩ := Exec.exists_ok_of_map hview
  obtain ⟨hhead, hhdr, hroots, hstate, hcount, hsound⟩ := of_decide_eq_true hview
  obtain ⟨hall, hstates, hprotected⟩ := foldl_insertPendingBlock sampleHost
    ((List.range 3000).map orphan) server.store
  refine ⟨server, _, hrun, rfl, ?_⟩
  have hbatch := headerEntry_sound sampleHost_hashSound ((List.range 3000).map orphan)
  generalize ((List.range 3000).map orphan).foldl (fun s sb ↦
    s.insertPendingBlock sampleHost (sampleHost.block sb.message.block) sb) server.store = s
    at hall hstates hprotected
  have hstored {r : ℕ} {hdr : BlockHeader ℕ} (hroot : sampleHost.header hdr = r)
      (h : (r, hdr) ∈ ((List.range 3000).map orphan).map (headerEntry sampleHost) ∨
        server.store.blockHeaders.lookup r = some hdr) : s.blockHeaders.lookup r = some hdr := by
    rw [hall]
    exact lookup_putBatch_headers sampleHost_hashSound hbatch hroot h
  have hheaders : ∀ r ∈ s.states, r ∈ s.blockHeaders := by
    intro r hr
    rw [hstates, AList.mem_keys] at hr
    obtain ⟨hdr, hlookup, hroot⟩ := hsound r hr
    exact Table.mem_iff_lookup.mpr ⟨hdr, hstored hroot (.inr hlookup)⟩
  have hhdr' : s.blockHeaders.lookup server.store.head = some (Sample.first.header sampleHash) :=
    hstored (by rw [hhead]; rfl) (.inr hhdr)
  have hdrop : server.store.head ∈ (s.rootsByAge sampleHost).drop statesToKeep := by
    refine mem_drop_of_newer hhdr' (orphans_nodup (n := 3000) (by decide)) (fun p hp ↦ ?_) ?_
    · refine ⟨hstored (hbatch p hp) (.inl hp), ?_⟩
      obtain ⟨sb, hsb, rfl⟩ := List.mem_map.mp hp
      obtain ⟨k, hk, rfl⟩ := List.mem_map.mp hsb
      change 1 < (orphan k).message.block.slot.toNat
      rw [orphan_slot (Nat.lt_trans (List.mem_range.mp hk) (by decide))]
      omega
    · rw [List.length_map, List.length_map, List.length_range]
  have hexp : server.store.head ∈ s.expired sampleHost statesToKeep s.protectedRoots :=
    mem_expired_of_mem_drop hdrop (hprotected ▸ hroots)
  have hcount' : s.states.keys.length = 2 := hstates ▸ hcount
  refine ⟨hheaders, hcount', ?_⟩
  rintro ⟨newest, hnewest, hlookup⟩
  -- both states are among the newest 3000
  have hS : s.states.keys.toFinset.card = 2 := by
    rw [List.toFinset_card_of_nodup s.states.keys_nodup, hcount']
  have hboth : newest = s.states.keys.toFinset := by
    refine Finset.eq_of_subset_of_card_le hnewest.subset ?_
    rw [hnewest.card, hS]
    decide
  have hkept := hlookup server.store.head
  rw [lookup_pruneOldStates, if_pos hexp, if_pos] at hkept
  · have hsome := AList.lookup_isSome.mpr (AList.mem_keys.mpr hstate)
    rw [← hstates, ← hkept] at hsome
    exact nomatch hsome
  · refine .inl ?_
    rw [hboth, List.mem_toFinset, hstates]
    exact hstate

end Sample

end Ethlambda.Chain
