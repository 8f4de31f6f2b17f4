import Ethlambda.Chain.Authenticity
import Ethlambda.Chain.Handlers

namespace Ethlambda.Chain

open Ethlambda.Base Ethlambda.Types Ethlambda.Storage Ethlambda.StateTransition

set_option linter.unusedSectionVars false

variable {H : Type} [LinearOrder H] [Zero H] {host : Host H} {s : Store H}

/-- The headers and the states that the node reads without a fallback. -/
structure Relied (s : Store H) : Prop where
  headHeader : ∃ hdr, s.blockHeaders.lookup s.head = some hdr
  safeTargetHeader : ∃ hdr, s.blockHeaders.lookup s.safeTarget = some hdr
  justifiedHeader : ∃ hdr, s.blockHeaders.lookup s.latestJustified.root = some hdr
  finalizedHeader : ∃ hdr, s.blockHeaders.lookup s.latestFinalized.root = some hdr
  headState : ∃ st, s.states.lookup s.head = some st
  justifiedState : ∃ st, s.states.lookup s.latestJustified.root = some st
  finalizedState : ∃ st, s.states.lookup s.latestFinalized.root = some st

theorem Available.relied (h : Available host s) : Relied s := by
  obtain ⟨slot, p, hp⟩ := h.head
  obtain ⟨pj, hj⟩ := h.coherent.justified
  obtain ⟨pf, hf⟩ := h.coherent.finalized
  obtain ⟨st, hdr, hst, hhdr, -⟩ := h.coherent.live _ _ _ hp
  obtain ⟨stj, hdrj, hstj, hhdrj, -⟩ := h.coherent.live _ _ _ hj
  obtain ⟨stf, hdrf, hstf, hhdrf, -⟩ := h.coherent.live _ _ _ hf
  exact ⟨⟨hdr, hhdr⟩, h.safeTarget, ⟨hdrj, hhdrj⟩, ⟨hdrf, hhdrf⟩, ⟨st, hst⟩, ⟨stj, hstj⟩, ⟨stf, hstf⟩⟩

structure Readable (host : Host H) (s : Store H) : Prop where
  headState : ∃ st, (s.headState : Exec Empty (State H)) = .ok st
  headSlot : ∃ slot, (s.headSlot : Exec Empty UInt64) = .ok slot
  safeTargetSlot : ∃ slot, (s.safeTargetSlot : Exec Empty UInt64) = .ok slot
  updateSafeTarget : Op.Returns (updateSafeTarget host : Op (Store H) Empty Unit) s
  updateHead : Op.Returns (updateHead host : Op (Store H) Empty Unit) s

theorem Available.readable (hh : HashSound host) (h : Available host s) : Readable host s := by
  obtain ⟨hdr, hhdr⟩ := h.relied.headHeader
  obtain ⟨st, hst⟩ := h.relied.headState
  obtain ⟨safe, hsafe⟩ := h.safeTarget
  constructor
  case headState => exact ⟨st, by rw [Store.headState, Store.getState, hst, Exec.expect_some]⟩
  case headSlot => exact ⟨hdr.slot, by rw [Store.headSlot, Store.getBlockHeader, hhdr]; rfl⟩
  case safeTargetSlot =>
    exact ⟨safe.slot, by rw [Store.safeTargetSlot, Store.getBlockHeader, hsafe]; rfl⟩
  case updateSafeTarget =>
    unfold Chain.updateSafeTarget
    obtain ⟨g, hg⟩ := h.coherent.exists_computeLmdGhostHead (ε := Empty) hh
      (s.extractLatestAttestations (allKeys host s)) ((st.validators.len * 2 + 2) / 3)
    rw [Op.returns_get_bind]
    apply Op.returns_of_eq
    rw [Store.getState, hst, Exec.expect_some, Op.lift_bind_of_ok rfl, Op.lift_bind_of_ok hg]
    rfl
  case updateHead =>
    obtain ⟨head, hhead, -⟩ := h.coherent.updateHead (ε := Empty) hh
    exact Op.returns_of_eq hhead

section Windows

variable {window : ℕ} {roots : List H} {r : H}

theorem mem_rootsByAge : r ∈ s.rootsByAge host ↔ ∃ hdr, s.blockHeaders.lookup r = some hdr := by
  rw [(rootsByAge_perm host s).mem_iff, ← AList.mem_keys, Table.mem_iff_lookup]

theorem mem_take_of_notMem_expired (hr : r ∈ s.rootsByAge host)
    (h : r ∉ s.expired host window roots) (hroots : r ∉ roots) :
    r ∈ (s.rootsByAge host).take window := by
  unfold Store.expired at h
  split at h
  · rename_i hle
    rw [List.take_of_length_le (by rw [(rootsByAge_perm host s).length_eq]; exact hle)]
    exact hr
  · rw [← List.take_append_drop window (s.rootsByAge host), List.mem_append] at hr
    rcases hr with hr | hr
    · exact hr
    · exact absurd (List.mem_filter.mpr ⟨hr, decide_eq_true hroots⟩) h

/-- A prune takes nothing that the node may come to need exactly when every live block and the safe
target lie inside their windows. -/
theorem Available.pruneOldData_iff (h : Available host s) :
    Available host (s.pruneOldData host) ↔ Retained host s := by
  refine ⟨fun hp ↦ ⟨fun slot r p hlive hroots ↦ ?_, fun hroots ↦ ?_⟩, h.pruneOldData⟩
  · obtain ⟨-, hdr, -, hhdr, -⟩ := h.coherent.live slot r p hlive
    obtain ⟨st, -, hst, -⟩ := hp.coherent.live slot r p hlive
    refine mem_take_of_notMem_expired (mem_rootsByAge.mpr ⟨hdr, hhdr⟩) (fun hexp ↦ ?_) hroots
    rw [lookup_pruneOldData_states, if_pos hexp] at hst
    exact nomatch hst
  · obtain ⟨hdr, hhdr⟩ := hp.safeTarget
    refine mem_take_of_notMem_expired (mem_rootsByAge.mpr h.safeTarget) (fun hexp ↦ ?_) hroots
    rw [lookup_pruneOldData_headers] at hhdr
    rw [show (s.pruneOldData host).safeTarget = s.safeTarget from rfl, if_pos hexp] at hhdr
    exact nomatch hhdr

/-- As long as no more headers are stored than states are kept, nothing is pruned. -/
theorem Available.retained_of_few (h : Available host s)
    (hfew : s.blockHeaders.keys.length ≤ statesToKeep) : Retained host s := by
  have hall {r : H} (hr : r ∈ s.rootsByAge host) {window : ℕ} (hw : statesToKeep ≤ window) :
      r ∈ (s.rootsByAge host).take window := by
    rw [List.take_of_length_le]
    · exact hr
    · rw [(rootsByAge_perm host s).length_eq]
      exact hfew.trans hw
  refine ⟨fun slot r p hlive _ ↦ ?_, fun _ ↦ ?_⟩
  · obtain ⟨-, hdr, -, hhdr, -⟩ := h.coherent.live slot r p hlive
    exact hall (mem_rootsByAge.mpr ⟨hdr, hhdr⟩) le_rfl
  · exact hall (mem_rootsByAge.mpr h.safeTarget) (by decide)

/-- A block with two properties: no other live block needs the window, and no other block stored is as
new. -/
structure Topped (s : Store H) (r : H) (hdr : BlockHeader H) : Prop where
  live : ∀ slot x p, s.liveChain.lookup (slot, x) = some p → x ∉ s.protectedRoots → x = r
  header : s.blockHeaders.lookup r = some hdr
  newest : ∀ x hdr', s.blockHeaders.lookup x = some hdr' → x ≠ r → hdr'.slot.toNat < hdr.slot.toNat

theorem Topped.mem_take {hdr : BlockHeader H} (h : Topped s r hdr) (hwindow : 0 < window) :
    r ∈ (s.rootsByAge host).take window := by
  set sorted := (host.order (Table.pairs s.blockHeaders)).insertionSort
    (fun a b ↦ b.2.slot.toNat ≤ a.2.slot.toNat) with hsorted
  have hmem {p : H × BlockHeader H} : p ∈ sorted ↔ s.blockHeaders.lookup p.1 = some p.2 := by
    rw [hsorted, List.mem_insertionSort, host.mem_order, Table.mem_pairs]
  have hpair : sorted.Pairwise fun a b ↦ b.2.slot.toNat ≤ a.2.slot.toNat :=
    insertionSort_pairwise (fun p : H × BlockHeader H ↦ p.2.slot.toNat) _
  obtain ⟨n, rfl⟩ : ∃ n, window = n + 1 := ⟨window - 1, by omega⟩
  rw [Store.rootsByAge, ← hsorted]
  have hr : (r, hdr) ∈ sorted := hmem.mpr h.header
  cases hl : sorted with
  | nil =>
    rw [hl] at hr
    exact absurd hr List.not_mem_nil
  | cons p rest =>
    rw [hl, List.mem_cons] at hr
    suffices p.1 = r by simp [this]
    by_contra hne
    have hlt := h.newest p.1 p.2 (hmem.mp (by simp [hl])) hne
    rw [hl, List.pairwise_cons] at hpair
    have hle := hpair.1 _ (hr.resolve_left fun heq ↦ hne (congrArg Prod.fst heq).symm)
    exact absurd hle (Nat.not_le.mpr hlt)

theorem Available.retained_of_topped {hdr : BlockHeader H} (h : Available host s)
    (ht : Topped s r hdr) (hfew : s.blockHeaders.keys.length ≤ blocksToKeep) : Retained host s := by
  refine ⟨fun slot x p hlive hroots ↦ ?_, fun _ ↦ ?_⟩
  · rw [ht.live slot x p hlive hroots]
    exact ht.mem_take (by decide)
  · rw [List.take_of_length_le (by rw [(rootsByAge_perm host s).length_eq]; exact hfew)]
    exact mem_rootsByAge.mpr h.safeTarget

/-- There is room for every header, or for those that matter. -/
def Roomy (s : Store H) : Prop :=
  s.blockHeaders.keys.length ≤ statesToKeep ∨
    s.blockHeaders.keys.length ≤ blocksToKeep ∧ ∃ r hdr, Topped s r hdr

theorem Available.retained_of_roomy (h : Available host s) (hr : Roomy s) : Retained host s := by
  rcases hr with hfew | ⟨hfew, r, hdr, ht⟩
  · exact h.retained_of_few hfew
  · exact h.retained_of_topped ht hfew

end Windows

theorem Available.drained {p : Server host × Server.Delivery H} {drained : Server host}
    (hh : HashSound host) (h : Available host p.1.store) (hd : Server.Drained host p drained) :
    Available host drained.store := by
  obtain ⟨block, -, hdrain⟩ := hd
  exact Server.drainQueue_keeps ((available_invariant hh).steady hh) Server.holds_carriesWaiting _ _ _ _
    drained h hdrain

theorem Available.step {server server' : Server host} {d : Server.Delivery H} (hh : HashSound host)
    (h : Available host server.store)
    (hret : ∀ drained, Server.Drained host (server, d) drained → Retained host drained.store)
    (hs : Server.step host server d = .ok server') : Available host server'.store :=
  Server.step_keeps ((available_invariant hh).steady hh) h
    (fun drained hdrained ha ↦ ha.pruneOldData (hret drained hdrained)) hs

/-- In every run from an anchor in which each prune meets a store whose live blocks are among the
newest headers that it keeps, the node has everything it relies on after every handler. -/
theorem run_relied {st : State H} {body : Option (BlockBody H)} {s₀ : Store H}
    {keys : Table UInt64 host.SecretKey} {isAggregator : Bool} {deliveries : List (Server.Delivery H)}
    {server : Server host} (hh : HashSound host) (hst : Anchor host st)
    (hinit : Store.initStore host st body = .ok s₀)
    (hret : ∀ p ∈ Runs.trace (Server.step host) (Server.spawn host s₀ keys isAggregator) deliveries,
      ∀ drained, Server.Drained host p drained → Retained host drained.store)
    (hrun : Server.run host (Server.spawn host s₀ keys isAggregator) deliveries = .ok server) :
    Relied server.store ∧ Readable host server.store := by
  have hkeep : Available host server.store :=
    Runs.run_invariant_of_trace (P := Server.Holds (Available host))
      (fun _ _ _ h hd hs ↦ h.step hh hd hs) (available_initStore hh hst hinit) hret hrun
  exact ⟨hkeep.relied, hkeep.readable hh⟩

/-- It is enough that each prune meets a store with room. -/
theorem retained_of_roomy {st : State H} {body : Option (BlockBody H)} {s₀ : Store H}
    {keys : Table UInt64 host.SecretKey} {isAggregator : Bool} {deliveries : List (Server.Delivery H)}
    (hh : HashSound host) (hst : Anchor host st) (hinit : Store.initStore host st body = .ok s₀)
    (hroomy : ∀ p ∈ Runs.trace (Server.step host) (Server.spawn host s₀ keys isAggregator) deliveries,
      ∀ drained, Server.Drained host p drained → Roomy drained.store) :
    ∀ p ∈ Runs.trace (Server.step host) (Server.spawn host s₀ keys isAggregator) deliveries,
      ∀ drained, Server.Drained host p drained → Retained host drained.store :=
  Runs.forall_trace_of_invariant (P := Server.Holds (Available host))
    (fun _ _ _ h hd hs ↦ h.step hh hd hs)
    (fun _ h hd drained hdrained ↦ (h.drained hh hdrained).retained_of_roomy (hd drained hdrained))
    (available_initStore hh hst hinit) hroomy

section Flood

variable {r : H} {hdr : BlockHeader H} {sb : SignedBlockWithAttestation H}
  {blocks : List (SignedBlockWithAttestation H)}

/-- A block leaves the window once enough newer headers are stored, whatever they belong to. -/
theorem mem_drop_of_newer {window : ℕ} (hhdr : s.blockHeaders.lookup r = some hdr)
    {newer : List (H × BlockHeader H)} (hnodup : newer.Nodup)
    (hnewer : ∀ p ∈ newer, s.blockHeaders.lookup p.1 = some p.2 ∧ hdr.slot.toNat < p.2.slot.toNat)
    (hlen : window ≤ newer.length) : r ∈ (s.rootsByAge host).drop window := by
  set sorted := (host.order (Table.pairs s.blockHeaders)).insertionSort
    (fun a b ↦ b.2.slot.toNat ≤ a.2.slot.toNat) with hsorted
  have hmem {p : H × BlockHeader H} : p ∈ sorted ↔ s.blockHeaders.lookup p.1 = some p.2 := by
    rw [hsorted, List.mem_insertionSort, host.mem_order, Table.mem_pairs]
  have hcount : window ≤ sorted.countP fun p ↦ decide (hdr.slot.toNat < p.2.slot.toNat) := by
    rw [List.countP_eq_length_filter]
    refine hlen.trans (hnodup.subperm fun p hp ↦ ?_).length_le
    exact List.mem_filter.mpr ⟨hmem.mpr (hnewer p hp).1, decide_eq_true (hnewer p hp).2⟩
  have hpair : sorted.Pairwise fun a b ↦ b.2.slot.toNat ≤ a.2.slot.toNat :=
    insertionSort_pairwise (fun p : H × BlockHeader H ↦ p.2.slot.toNat) _
  have hdrop : (r, hdr) ∈ sorted.drop window :=
    mem_drop_of_pairwise (fun p ↦ p.2.slot.toNat) hpair (hmem.mpr hhdr) hcount
  rw [Store.rootsByAge, ← List.map_drop]
  exact List.mem_map_of_mem hdrop

theorem mem_expired_of_mem_drop {window : ℕ} {roots : List H}
    (h : r ∈ (s.rootsByAge host).drop window) (hroots : r ∉ roots) : r ∈ s.expired host window roots := by
  have hlong : ¬s.blockHeaders.keys.length ≤ window := by
    have hpos := List.length_pos_of_mem h
    rw [List.length_drop, (rootsByAge_perm host s).length_eq] at hpos
    omega
  rw [Store.expired, if_neg hlong]
  exact List.mem_filter.mpr ⟨h, decide_eq_true hroots⟩

/-- The state of a block expires once enough newer headers are stored. -/
theorem lookup_states_of_newer (hhdr : s.blockHeaders.lookup r = some hdr)
    (hroots : r ∉ s.protectedRoots) {newer : List (H × BlockHeader H)} (hnodup : newer.Nodup)
    (hnewer : ∀ p ∈ newer, s.blockHeaders.lookup p.1 = some p.2 ∧ hdr.slot.toNat < p.2.slot.toNat)
    (hlen : statesToKeep ≤ newer.length) : (s.pruneOldData host).states.lookup r = none := by
  rw [lookup_pruneOldData_states, if_pos]
  exact mem_expired_of_mem_drop (mem_drop_of_newer hhdr hnodup hnewer hlen) hroots

/-- With one header too many, the oldest one goes and all others stay. -/
theorem lookup_headers_of_oldest (hhdr : s.blockHeaders.lookup r = some hdr)
    (hroots : r ∉ s.protectedRoots) {newer : List (H × BlockHeader H)} (hnodup : newer.Nodup)
    (hnewer : ∀ p ∈ newer, s.blockHeaders.lookup p.1 = some p.2 ∧ hdr.slot.toNat < p.2.slot.toNat)
    (hlen : blocksToKeep ≤ newer.length)
    (hcount : s.blockHeaders.keys.length ≤ blocksToKeep + 1) (x : H) :
    (s.pruneOldData host).blockHeaders.lookup x = if x = r then none else s.blockHeaders.lookup x := by
  have hdrop : r ∈ (s.rootsByAge host).drop blocksToKeep := mem_drop_of_newer hhdr hnodup hnewer hlen
  have hone : (s.rootsByAge host).drop blocksToKeep = [r] := by
    have hlength : ((s.rootsByAge host).drop blocksToKeep).length ≤ 1 := by
      rw [List.length_drop, (rootsByAge_perm host s).length_eq]
      omega
    match hl : (s.rootsByAge host).drop blocksToKeep, hlength with
    | [], _ =>
      rw [hl] at hdrop
      exact absurd hdrop List.not_mem_nil
    | [y], _ =>
      rw [hl] at hdrop
      rw [List.mem_singleton.mp hdrop]
  have hmem : x ∈ s.expired host blocksToKeep s.protectedRoots ↔ x = r := by
    constructor
    · intro hx
      rw [Store.expired] at hx
      split at hx
      · exact absurd hx List.not_mem_nil
      · have hx' := (List.mem_filter.mp hx).1
        rw [hone] at hx'
        exact List.mem_singleton.mp hx'
    · rintro rfl
      exact mem_expired_of_mem_drop hdrop hroots
  rw [lookup_pruneOldData_headers]
  simp only [hmem]

def arrive (host : Host H) (s : Store H) (sb : SignedBlockWithAttestation H) : Store H :=
  (s.insertPendingBlock host (host.block sb.message.block) sb).pruneOldData host

def headerEntry (host : Host H) (sb : SignedBlockWithAttestation H) : H × BlockHeader H :=
  (host.block sb.message.block, sb.message.block.header host.toTreeHash)

theorem pruneOldData_headers (h : s.blockHeaders.keys.length ≤ blocksToKeep) :
    (s.pruneOldData host).blockHeaders = s.blockHeaders := by
  change Table.deleteBatch (Store.expired host s blocksToKeep s.protectedRoots) s.blockHeaders = _
  rw [Store.expired, if_pos h]
  exact Table.retain_eq_self fun _ _ _ ↦ rfl

theorem foldl_arrive (host : Host H)
    (hfew : s.blockHeaders.keys.length + blocks.length ≤ blocksToKeep) :
    (blocks.foldl (arrive host) s).blockHeaders =
        Table.putBatch (blocks.map (headerEntry host)) s.blockHeaders ∧
      (blocks.foldl (arrive host) s).head = s.head ∧
      (blocks.foldl (arrive host) s).protectedRoots = s.protectedRoots := by
  induction blocks generalizing s with
  | nil => exact ⟨rfl, rfl, rfl⟩
  | cons sb blocks ih =>
    have hins := Table.length_keys_insert_le (host.block sb.message.block)
      (sb.message.block.header host.toTreeHash) s.blockHeaders
    rw [List.length_cons] at hfew
    have hheaders : (arrive host s sb).blockHeaders =
        s.blockHeaders.insert (host.block sb.message.block)
          (sb.message.block.header host.toTreeHash) := by
      apply pruneOldData_headers
      change (s.blockHeaders.insert _ _).keys.length ≤ blocksToKeep
      omega
    have hnext := ih (s := arrive host s sb) (by rw [hheaders]; omega)
    rw [hheaders] at hnext
    exact hnext

theorem lookup_putBatch_headers (hh : HashSound host) {l : List (H × BlockHeader H)}
    {t : Table H (BlockHeader H)} (hl : ∀ p ∈ l, host.header p.2 = p.1)
    (hroot : host.header hdr = r) (h : (r, hdr) ∈ l ∨ t.lookup r = some hdr) :
    (Table.putBatch l t).lookup r = some hdr := by
  have huniq {w : BlockHeader H} (hw : (r, w) ∈ l) : w = hdr :=
    hh.collisionFree.header_injective ((hl _ hw).trans hroot.symm)
  by_cases hr : r ∈ l.map Prod.fst
  · obtain ⟨⟨r', w⟩, hmem, rfl⟩ := List.mem_map.mp hr
    have hw := huniq hmem
    rw [hw] at hmem
    exact Table.lookup_putBatch_of_mem hmem fun w' hw' ↦ huniq hw'
  · have hnot : (r, hdr) ∉ l := fun hmem ↦ hr (List.mem_map_of_mem hmem)
    rw [Table.putBatch, Table.lookup_ofPairs_of_notMem hr]
    exact h.resolve_left hnot

theorem headerEntry_sound (hh : HashSound host) (blocks : List (SignedBlockWithAttestation H)) :
    ∀ p ∈ blocks.map (headerEntry host), host.header p.2 = p.1 := by
  intro p hp
  obtain ⟨sb, -, rfl⟩ := List.mem_map.mp hp
  exact (hh.block_eq _).symm

/-- What the last of many blocks does: the store it meets holds the headers of all of them. -/
theorem foldl_arrive_last (host : Host H) (sb : SignedBlockWithAttestation H)
    {init : List (SignedBlockWithAttestation H)}
    (hfew : s.blockHeaders.keys.length + init.length ≤ blocksToKeep) :
    ∃ t : Store H, (init ++ [sb]).foldl (arrive host) s = t.pruneOldData host ∧
      t.blockHeaders = Table.putBatch ((init ++ [sb]).map (headerEntry host)) s.blockHeaders ∧
      t.protectedRoots = s.protectedRoots := by
  obtain ⟨hheaders, -, hprotected⟩ := foldl_arrive host hfew
  refine ⟨(init.foldl (arrive host) s).insertPendingBlock host (host.block sb.message.block) sb,
    ?_, ?_, hprotected⟩
  · rw [List.foldl_append]
    rfl
  · change (init.foldl (arrive host) s).blockHeaders.insert _ _ = _
    rw [hheaders, Table.putBatch, Table.putBatch, List.map_append, List.foldl_append]
    rfl

/-- Once enough newer blocks wait, the state of a block is gone unless it is protected. -/
theorem foldl_arrive_states (hh : HashSound host)
    (hhdr : s.blockHeaders.lookup r = some hdr) (hroot : host.header hdr = r)
    (hroots : r ∉ s.protectedRoots)
    (hslots : ∀ sb ∈ blocks, hdr.slot.toNat < sb.message.block.slot.toNat)
    (hnodup : (blocks.map (headerEntry host)).Nodup) (hlen : statesToKeep ≤ blocks.length)
    (hfew : s.blockHeaders.keys.length + blocks.length ≤ blocksToKeep) :
    (blocks.foldl (arrive host) s).states.lookup r = none := by
  have hne : blocks ≠ [] := by
    rintro rfl
    simp at hlen
  obtain ⟨init, last, rfl⟩ : ∃ init last, blocks = init ++ [last] :=
    ⟨_, _, (List.dropLast_append_getLast hne).symm⟩
  have hinit : s.blockHeaders.keys.length + init.length ≤ blocksToKeep := by
    rw [List.length_append] at hfew
    omega
  -- only the last of the prunes matters, and the store that it meets
  obtain ⟨t, hfold, hall, hprotected⟩ := foldl_arrive_last host last hinit
  rw [hfold]
  have hsound := headerEntry_sound hh (init ++ [last])
  have hhead : t.blockHeaders.lookup r = some hdr := by
    rw [hall]
    exact lookup_putBatch_headers hh hsound hroot (.inr hhdr)
  have hprot : r ∉ t.protectedRoots := by
    rw [hprotected]
    exact hroots
  refine lookup_states_of_newer hhead hprot hnodup (fun p hp ↦ ⟨?_, ?_⟩) (by simpa using hlen)
  · rw [hall]
    exact lookup_putBatch_headers hh hsound (hsound p hp) (.inl hp)
  · obtain ⟨sb, hsb, rfl⟩ := List.mem_map.mp hp
    exact hslots sb hsb

theorem foldl_arrive_headers (hh : HashSound host)
    (hhdr : s.blockHeaders.lookup r = some hdr) (hroot : host.header hdr = r)
    (hfew : s.blockHeaders.keys.length + blocks.length ≤ blocksToKeep) :
    (blocks.foldl (arrive host) s).blockHeaders.lookup r = some hdr := by
  rw [(foldl_arrive host hfew).1]
  exact lookup_putBatch_headers hh (headerEntry_sound hh blocks) hroot (.inr hhdr)

/-- Blocks on no parent drive out the oldest header alone, if there are just enough of them. -/
theorem foldl_arrive_oldest (hh : HashSound host)
    (hsound : ∀ x h, s.blockHeaders.lookup x = some h → host.header h = x)
    (hhdr : s.blockHeaders.lookup r = some hdr) (hroots : r ∉ s.protectedRoots)
    (hnewer : ∀ p ∈ Table.pairs s.blockHeaders, p.1 ≠ r → hdr.slot.toNat < p.2.slot.toNat)
    (hslots : ∀ sb ∈ blocks, hdr.slot.toNat < sb.message.block.slot.toNat)
    (hnodup : (blocks.map (headerEntry host)).Nodup)
    (hfresh : ∀ p ∈ Table.pairs s.blockHeaders, p.1 ≠ r → p ∉ blocks.map (headerEntry host))
    (hcount : s.blockHeaders.keys.length + blocks.length = blocksToKeep + 1) (hne : blocks ≠ []) :
    (blocks.foldl (arrive host) s).blockHeaders.lookup r = none ∧
      ∀ x h, x ≠ r → s.blockHeaders.lookup x = some h →
        (blocks.foldl (arrive host) s).blockHeaders.lookup x = some h := by
  obtain ⟨init, last, rfl⟩ : ∃ init last, blocks = init ++ [last] :=
    ⟨_, _, (List.dropLast_append_getLast hne).symm⟩
  rw [List.length_append, List.length_singleton] at hcount
  obtain ⟨t, hfold, hheaders, hprotected⟩ := foldl_arrive_last host last
    (show s.blockHeaders.keys.length + init.length ≤ blocksToKeep by omega)
  have hbatch := headerEntry_sound hh (init ++ [last])
  have hstored {x : H} {h : BlockHeader H} (hx : (x, h) ∈ (init ++ [last]).map (headerEntry host) ∨
      s.blockHeaders.lookup x = some h) (hroot : host.header h = x) :
      t.blockHeaders.lookup x = some h := by
    rw [hheaders]
    exact lookup_putBatch_headers hh hbatch hroot hx
  have hrest {p : H × BlockHeader H} (hp : p ∈ Table.pairs (s.blockHeaders.erase r)) :
      p.1 ≠ r ∧ p ∈ Table.pairs s.blockHeaders := by
    have hlookup := Table.mem_pairs.mp hp
    rw [Table.lookup_erase_eq_ite] at hlookup
    split at hlookup
    · exact nomatch hlookup
    · rename_i hpr
      exact ⟨hpr, Table.mem_pairs.mpr hlookup⟩
  have hnewerNodup : (Table.pairs (s.blockHeaders.erase r) ++
      (init ++ [last]).map (headerEntry host)).Nodup := by
    refine List.nodup_append'.mpr ⟨?_, hnodup, fun p hp hp' ↦ hfresh p (hrest hp).2 (hrest hp).1 hp'⟩
    refine List.Nodup.of_map Prod.fst ?_
    rw [Table.map_fst_pairs]
    exact AList.keys_nodup _
  have hnewerStored : ∀ p ∈ Table.pairs (s.blockHeaders.erase r) ++
      (init ++ [last]).map (headerEntry host), t.blockHeaders.lookup p.1 = some p.2 ∧
      hdr.slot.toNat < p.2.slot.toNat := by
    intro p hp
    rcases List.mem_append.mp hp with hp | hp
    · obtain ⟨hpr, hmem⟩ := hrest hp
      have hlookup := Table.mem_pairs.mp hmem
      exact ⟨hstored (.inr hlookup) (hsound _ _ hlookup), hnewer p hmem hpr⟩
    · refine ⟨hstored (.inl hp) (hbatch p hp), ?_⟩
      obtain ⟨sb, hsb, rfl⟩ := List.mem_map.mp hp
      exact hslots sb hsb
  have hlength : (Table.pairs s.blockHeaders).length = s.blockHeaders.keys.length := by
    rw [← Table.map_fst_pairs, List.length_map]
  have hnewerLen : blocksToKeep ≤ (Table.pairs (s.blockHeaders.erase r) ++
      (init ++ [last]).map (headerEntry host)).length := by
    have herase := (Table.pairs_erase_perm hhdr).length_eq
    rw [List.length_cons] at herase
    rw [List.length_append, List.length_map, List.length_append, List.length_singleton]
    omega
  have hkeys : t.blockHeaders.keys.length ≤ blocksToKeep + 1 := by
    have hle := Table.length_keys_putBatch_le ((init ++ [last]).map (headerEntry host)) s.blockHeaders
    rw [← hheaders, List.length_map, List.length_append, List.length_singleton] at hle
    omega
  have hlookup (x : H) : (t.pruneOldData host).blockHeaders.lookup x =
      if x = r then none else t.blockHeaders.lookup x :=
    lookup_headers_of_oldest (hstored (.inr hhdr) (hsound r hdr hhdr)) (hprotected ▸ hroots)
      hnewerNodup hnewerStored hnewerLen hkeys x
  rw [hfold]
  refine ⟨(hlookup r).trans (if_pos rfl), fun x h hx hold ↦ ?_⟩
  exact (hlookup x).trans ((if_neg hx).trans (hstored (.inr hold) (hsound x h hold)))

theorem HashSound.zero_ne_block (hh : HashSound host) (block : Block H) : 0 ≠ host.block block := by
  rw [hh.block_eq]
  exact (hh.collisionFree.header_ne_zero _).symm

/-- The zero root belongs to no block that the server has seen. -/
structure Orphaned (server : Server host) : Prop where
  record : server.pendingBlockParents.lookup 0 = none
  header : server.store.blockHeaders.lookup 0 = none
  state : server.store.states.lookup 0 = none

variable {server : Server host} {ε : Type}

theorem climb_of_missing (server : Server host) (steps : ℕ) {root : H}
    (h : server.store.blockHeaders.lookup root = none) :
    ∃ sent, (Server.climb host (steps + 1) root :
      Op (Server host) ε (List (SignedBlockWithAttestation H))) server =
        .ok (.ok [], { server with sent := sent }) := by
  rw [Server.climb, Op.get_bind, Store.getBlockHeader, h]
  dsimp only
  rw [Server.publish, Op.modify_bind, Op.pure_apply]
  split
  · exact ⟨_, rfl⟩
  · exact ⟨server.sent, rfl⟩

/-- A stored block whose parent has no state is recorded as pending on its parent. -/
theorem climb_of_waiting (steps : ℕ) {root : H}
    (h : server.store.blockHeaders.lookup root = some hdr)
    (hstate : server.store.hasState hdr.parentRoot = false) :
    (Server.climb host (steps + 1) root :
      Op (Server host) ε (List (SignedBlockWithAttestation H))) server =
      Server.climb host steps hdr.parentRoot
        { Server.addPending host hdr.parentRoot root server with
          pendingBlockParents := server.pendingBlockParents.insert root hdr.parentRoot } := by
  rw [Server.climb, Op.get_bind, Store.getBlockHeader, h]
  dsimp only
  rw [hstate, if_neg Bool.false_ne_true, Op.modify_bind, Op.modify_bind]
  rfl

theorem Orphaned.pendBlock (hh : HashSound host) (hs : Orphaned server)
    (hsb : sb.message.block.parentRoot = 0) :
    ∃ server' : Server host, (Server.pendBlock host sb :
        Op (Server host) ε (List (SignedBlockWithAttestation H))) server = .ok (.ok [], server') ∧
      server'.store = server.store.insertPendingBlock host (host.block sb.message.block) sb ∧
      server'.pendingBlockParents =
        server.pendingBlockParents.insert (host.block sb.message.block) 0 := by
  have hne := hh.zero_ne_block sb.message.block
  have hmissing : (Server.missingAncestor server.pendingBlockParents
      (server.pendingBlockParents.keys.length + 1) 0 : Exec ε H) = .ok 0 := by
    rw [Server.missingAncestor, hs.record]
  have hheader : (server.store.insertPendingBlock host (host.block sb.message.block) sb).blockHeaders.lookup
      0 = none := by
    change (server.store.blockHeaders.insert _ _).lookup 0 = none
    rw [Table.lookup_insert_eq_ite, if_neg hne, hs.header]
  unfold Server.pendBlock
  rw [Op.get_bind, hsb, Op.lift_bind_of_ok hmissing, Op.modify_bind, Op.modify_bind, Op.get_bind]
  set waiting := Server.addPending host 0 (host.block sb.message.block)
    { server with
      pendingBlockParents := server.pendingBlockParents.insert (host.block sb.message.block) 0
      store := server.store.insertPendingBlock host (host.block sb.message.block) sb } with hw
  obtain ⟨sent, hclimb⟩ := climb_of_missing (ε := ε) waiting
    waiting.store.blockHeaders.keys.length hheader
  exact ⟨_, hclimb, rfl, rfl⟩

theorem Orphaned.drain (hh : HashSound host) (hs : Orphaned server)
    (hsb : sb.message.block.parentRoot = 0) :
    ∃ waiting : Server host, (Server.drainQueue host 1 [sb] : Op (Server host) Empty Unit) server =
        .ok (.ok (), waiting) ∧
      waiting.store = server.store.insertPendingBlock host (host.block sb.message.block) sb ∧
      waiting.pendingBlockParents =
        server.pendingBlockParents.insert (host.block sb.message.block) 0 := by
  obtain ⟨waiting, hpend, hstore, hrecords⟩ := hs.pendBlock (ε := Empty) hh hsb
  have hprocess : (Server.processOrPendBlock host sb :
      Op (Server host) Empty (List (SignedBlockWithAttestation H))) server =
      .ok (.ok [], waiting) := by
    have hno : server.store.hasState 0 = false := by
      rw [Store.hasState, hs.state]
      rfl
    rw [Server.processOrPendBlock, Op.get_bind, hsb, hno]
    exact hpend
  refine ⟨waiting, ?_, hstore, hrecords⟩
  rw [Server.drainQueue, Op.bind_of_ok hprocess]
  rfl

theorem Orphaned.step (hh : HashSound host) (hs : Orphaned server)
    (hsb : sb.message.block.parentRoot = 0) :
    ∃ server', Server.step host server ⟨1, .newBlock sb⟩ = .ok server' ∧
      server'.store = arrive host server.store sb ∧
      server'.pendingBlockParents =
        server.pendingBlockParents.insert (host.block sb.message.block) 0 ∧ Orphaned server' := by
  obtain ⟨waiting, hdrain, hstore, hrecords⟩ := hs.drain hh hsb
  have hhandle : (Server.handle host 1 (.newBlock sb) : Op (Server host) Empty Unit) server =
      .ok (.ok (), { waiting with store := waiting.store.pruneOldData host }) := by
    rw [Server.handle, Server.onBlock, Op.bind_of_ok hdrain]
    rfl
  refine ⟨{ waiting with store := waiting.store.pruneOldData host }, ?_, ?_, hrecords, ?_, ?_, ?_⟩
  · rw [Server.step, hhandle]
  · rw [hstore]
    rfl
  · rw [hrecords, Table.lookup_insert_eq_ite, if_neg (hh.zero_ne_block _), hs.record]
  · rw [lookup_pruneOldData_headers, hstore]
    change (if _ then none else (server.store.blockHeaders.insert _ _).lookup 0) = none
    rw [Table.lookup_insert_eq_ite, if_neg (hh.zero_ne_block _), hs.header, ite_self]
  · rw [lookup_pruneOldData_states, hstore]
    change (if _ then none else server.store.states.lookup 0) = none
    rw [hs.state, ite_self]

theorem Orphaned.run (hh : HashSound host) (hs : Orphaned server)
    (hblocks : ∀ sb ∈ blocks, sb.message.block.parentRoot = 0) :
    ∃ server', Server.run host server (blocks.map fun sb ↦ ⟨1, .newBlock sb⟩) = .ok server' ∧
      server'.store = blocks.foldl (arrive host) server.store ∧ Orphaned server' ∧
      ∀ r, (∀ sb ∈ blocks, r ≠ host.block sb.message.block) →
        server'.pendingBlockParents.lookup r = server.pendingBlockParents.lookup r := by
  induction blocks generalizing server with
  | nil => exact ⟨server, rfl, rfl, hs, fun _ _ ↦ rfl⟩
  | cons sb blocks ih =>
    rw [List.forall_mem_cons] at hblocks
    obtain ⟨next, hnext, hstore, hrecords, hs'⟩ := hs.step hh hblocks.1
    obtain ⟨server', hrun, hfold, hend, hlookup⟩ := ih hs' hblocks.2
    refine ⟨server', Runs.run_cons_eq_ok.mpr ⟨next, hnext, hrun⟩, ?_, hend, fun r hr ↦ ?_⟩
    · rw [hfold, hstore, List.foldl_cons]
    · rw [List.forall_mem_cons] at hr
      rw [hlookup r hr.2, hrecords, Table.lookup_insert_eq_ite, if_neg hr.1]

theorem Topped.insertPendingBlock (h : Topped s r hdr) (hne : host.block sb.message.block ≠ r)
    (hslot : sb.message.block.slot.toNat < hdr.slot.toNat) :
    Topped (s.insertPendingBlock host (host.block sb.message.block) sb) r hdr := by
  have hheaders (x : H) : (s.insertPendingBlock host (host.block sb.message.block) sb).blockHeaders.lookup
      x = if x = host.block sb.message.block then some (sb.message.block.header host.toTreeHash)
        else s.blockHeaders.lookup x := Table.lookup_insert_eq_ite _ _ _ _
  refine ⟨h.live, ?_, fun x hdr' hx hxr ↦ ?_⟩
  · rw [hheaders, if_neg hne.symm]
    exact h.header
  · rw [hheaders] at hx
    split at hx
    · obtain rfl := Option.some.inj hx
      exact hslot
    · exact h.newest x hdr' hx hxr

theorem Topped.pruneOldData (h : Topped s r hdr) (hfew : s.blockHeaders.keys.length ≤ blocksToKeep) :
    Topped (s.pruneOldData host) r hdr :=
  ⟨h.live, by rw [pruneOldData_headers hfew]; exact h.header,
    fun x hdr' hx ↦ h.newest x hdr' (by rwa [pruneOldData_headers hfew] at hx)⟩

/-- Older blocks on no parent leave room for the newest block, however many they are. -/
theorem Orphaned.roomy (hh : HashSound host) (hs : Orphaned server)
    (ht : Topped server.store r hdr) (hblocks : ∀ sb ∈ blocks, sb.message.block.parentRoot = 0)
    (hslots : ∀ sb ∈ blocks, host.block sb.message.block ≠ r ∧
      sb.message.block.slot.toNat < hdr.slot.toNat)
    (hfew : server.store.blockHeaders.keys.length + blocks.length ≤ blocksToKeep) :
    ∀ p ∈ Runs.trace (Server.step host) server (blocks.map fun sb ↦ ⟨1, .newBlock sb⟩),
      ∀ drained, Server.Drained host p drained → Roomy drained.store := by
  induction blocks generalizing server with
  | nil => simp [Runs.trace]
  | cons sb blocks ih =>
    rw [List.forall_mem_cons] at hblocks hslots
    rw [List.length_cons] at hfew
    have hins := Table.length_keys_insert_le (host.block sb.message.block)
      (sb.message.block.header host.toTreeHash) server.store.blockHeaders
    have hlen : (server.store.insertPendingBlock host (host.block sb.message.block)
        sb).blockHeaders.keys.length ≤ server.store.blockHeaders.keys.length + 1 := hins
    have htop : Topped (server.store.insertPendingBlock host (host.block sb.message.block) sb) r hdr :=
      ht.insertPendingBlock hslots.1.1 hslots.1.2
    obtain ⟨waiting, hdrain, hwaiting, -⟩ := hs.drain hh hblocks.1
    obtain ⟨next, hnext, hstore, -, hs'⟩ := hs.step hh hblocks.1
    rw [List.map_cons, Runs.trace, hnext, List.forall_mem_cons]
    constructor
    · rintro drained ⟨block, hblock, hdrained⟩
      obtain rfl : sb = block := Message.newBlock.inj hblock
      obtain ⟨-, rfl⟩ := Prod.mk.inj (Except.ok.inj (hdrain.symm.trans hdrained))
      rw [hwaiting]
      exact .inr ⟨by omega, r, hdr, htop⟩
    · refine ih hs' ?_ hblocks.2 hslots.2 ?_
      · rw [hstore]
        exact htop.pruneOldData (by omega)
      · rw [hstore, arrive, pruneOldData_headers (by omega)]
        omega

/-- A node whose head is neither justified nor finalized loses the state of its head to blocks that
cost their sender nothing: none of them is ever verified. -/
theorem Orphaned.head_lost (hh : HashSound host) (hs : Orphaned server)
    (hhdr : server.store.blockHeaders.lookup server.store.head = some hdr)
    (hroot : host.header hdr = server.store.head)
    (hroots : server.store.head ∉ server.store.protectedRoots)
    (hblocks : ∀ sb ∈ blocks, sb.message.block.parentRoot = 0)
    (hslots : ∀ sb ∈ blocks, hdr.slot.toNat < sb.message.block.slot.toNat)
    (hnodup : (blocks.map (headerEntry host)).Nodup) (hlen : statesToKeep ≤ blocks.length)
    (hfew : server.store.blockHeaders.keys.length + blocks.length ≤ blocksToKeep) :
    ∃ server', Server.run host server (blocks.map fun sb ↦ ⟨1, .newBlock sb⟩) = .ok server' ∧
      server'.store.head = server.store.head ∧
      server'.store.states.lookup server'.store.head = none := by
  obtain ⟨server', hrun, hstore, -⟩ := hs.run hh hblocks
  obtain ⟨-, hhead, -⟩ := foldl_arrive host hfew
  refine ⟨server', hrun, by rw [hstore, hhead], ?_⟩
  rw [hstore, hhead]
  exact foldl_arrive_states hh hhdr hroot hroots hslots hnodup hlen hfew

end Flood

section Sample

def sampleServer : Server sampleHost := Server.spawn sampleHost sampleStore ∅ false

/-- The sample host with tables that hand out the oldest entry first. -/
def sortedHost : Host ℕ :=
  { sampleHost with
    order := List.reverse
    order_perm := List.reverse_perm }

theorem sortedHost_hashSound : HashSound sortedHost :=
  ⟨sampleHost_hashSound.collisionFree, sampleHost_hashSound.block_eq⟩

theorem sortedGenesis_anchor : Anchor sortedHost sampleGenesis := sampleGenesis_anchor

theorem sortedStore_eq : Store.initStore sortedHost sampleGenesis none = .ok sampleStore :=
  sampleStore_eq

def sortedServer : Server sortedHost := Server.spawn sortedHost sampleStore ∅ false

/-- Whether the store that a delivery leaves to the prune has no more headers than states are kept. -/
def leavesFew (p : Server sortedHost × Server.Delivery ℕ) : Bool :=
  match p.2.message with
  | .newBlock block =>
    match (Server.drainQueue sortedHost p.2.turns [block] : Op (Server sortedHost) Empty Unit) p.1 with
    | .ok (_, server) => decide (server.store.blockHeaders.keys.length ≤ statesToKeep)
    | .error _ => true
  | _ => true

theorem roomy_of_leavesFew {p : Server sortedHost × Server.Delivery ℕ} {drained : Server sortedHost}
    (h : leavesFew p = true) (hd : Server.Drained sortedHost p drained) : Roomy drained.store := by
  obtain ⟨block, hblock, hdrain⟩ := hd
  simp only [leavesFew, hblock, hdrain, decide_eq_true_eq] at h
  exact .inl h

/-- A waiting block, older than the third. -/
def elder (k : ℕ) : SignedBlockWithAttestation ℕ :=
  sampleSigned ⟨2, UInt64.ofNat k, 0, 0, .default⟩ ⟨0, ⟨0, 0⟩, ⟨0, 0⟩, ⟨0, 0⟩⟩

theorem elders_nodup : (((List.range 3000).map elder).map (headerEntry sortedHost)).Nodup := by
  rw [List.map_map]
  refine List.nodup_range.map_on fun j hj k hk h ↦ ?_
  have hindex := congrArg (fun p : ℕ × BlockHeader ℕ ↦ p.2.proposerIndex.toNat) h
  change (UInt64.ofNat j).toNat = (UInt64.ofNat k).toNat at hindex
  rw [List.mem_range] at hj hk
  rwa [UInt64.toNat_ofNat_of_lt' (show j < 2 ^ 64 by omega),
    UInt64.toNat_ofNat_of_lt' (show k < 2 ^ 64 by omega)] at hindex

theorem elders_waiting : ∀ sb ∈ (List.range 3000).map elder, sb.message.block.parentRoot = 0 := by
  intro sb hsb
  obtain ⟨k, -, rfl⟩ := List.mem_map.mp hsb
  rfl

theorem elders_slot : ∀ sb ∈ (List.range 3000).map elder, sb.message.block.slot = 2 := by
  intro sb hsb
  obtain ⟨k, -, rfl⟩ := List.mem_map.mp hsb
  rfl

theorem elders_older : ∀ sb ∈ (List.range 3000).map elder,
    sortedHost.block sb.message.block ≠ sampleHash.block Sample.third ∧
      sb.message.block.slot.toNat < (Sample.third.header sampleHash).slot.toNat := by
  intro sb hsb
  refine ⟨fun heq ↦ ?_, by rw [elders_slot sb hsb]; decide⟩
  have hsame : sb.message.block.header sampleHash = Sample.third.header sampleHash :=
    sampleHash_collisionFree.header_injective heq
  have hslot := congrArg BlockHeader.slot hsame
  rw [show (sb.message.block.header sampleHash).slot = sb.message.block.slot from rfl,
    elders_slot sb hsb] at hslot
  exact absurd hslot (by decide)

/-- Three blocks, the first of which becomes final, and the tick of the next slot. -/
def finalizingDeliveries : List (Server.Delivery ℕ) :=
  [⟨1, .newBlock sampleFirst⟩, ⟨1, .newBlock sampleSecond⟩, ⟨1, .newBlock sampleThird⟩,
    ⟨0, .tick 16000⟩]

/-- The prunes of the run delete the genesis state and nothing that the node relies on. -/
theorem run_relied_sample :
    ∃ server, Server.run sortedHost sortedServer (finalizingDeliveries ++
        ((List.range 3000).map elder).map fun sb ↦ ⟨1, .newBlock sb⟩) = .ok server ∧
      (sampleStore.states.lookup (sampleHash.block sampleOrigin)).isSome = true ∧
      server.store.states.lookup (sampleHash.block sampleOrigin) = none ∧
      server.store.head = sampleHash.block Sample.third ∧
      Relied server.store ∧ Readable sortedHost server.store := by
  have hview : (Server.run sortedHost sortedServer finalizingDeliveries).toOption.map (fun server ↦
      decide (server.pendingBlockParents.lookup 0 = none ∧ server.store.blockHeaders.lookup 0 = none ∧
        server.store.states.lookup 0 = none ∧ server.store.head = sampleHash.block Sample.third ∧
        (∀ q ∈ Table.pairs server.store.liveChain, q.1.2 ∉ server.store.protectedRoots →
          q.1.2 = sampleHash.block Sample.third) ∧
        server.store.blockHeaders.lookup (sampleHash.block Sample.third) =
          some (Sample.third.header sampleHash) ∧
        (∀ q ∈ Table.pairs server.store.blockHeaders, q.1 ≠ sampleHash.block Sample.third →
          q.2.slot.toNat < (Sample.third.header sampleHash).slot.toNat) ∧
        server.store.blockHeaders.lookup (sampleHash.block sampleOrigin) =
          some (sampleOrigin.header sampleHash) ∧
        sampleHash.block sampleOrigin ∉ server.store.protectedRoots ∧
        server.store.blockHeaders.keys.length = 4)) = some true := by decide +kernel
  have hsmall : (Runs.trace (Server.step sortedHost) sortedServer finalizingDeliveries).all
      leavesFew = true := by decide +kernel
  obtain ⟨server₁, hfirst, hview⟩ := Exec.exists_ok_of_map hview
  obtain ⟨hrecord, hheader, hstate, hhead, hlive, hthird, hnewest, horigin, hroots, hcount⟩ :=
    of_decide_eq_true hview
  have horphaned : Orphaned server₁ := ⟨hrecord, hheader, hstate⟩
  have htop : Topped server₁.store (sampleHash.block Sample.third) (Sample.third.header sampleHash) :=
    ⟨fun slot x p hp ↦ hlive ((slot, x), p) (Table.mem_pairs.mpr hp), hthird,
      fun x hdr hx ↦ hnewest (x, hdr) (Table.mem_pairs.mpr hx)⟩
  have hlen : ((List.range 3000).map elder).length = 3000 := by
    rw [List.length_map, List.length_range]
  have hfew : server₁.store.blockHeaders.keys.length + ((List.range 3000).map elder).length ≤
      blocksToKeep := by
    rw [hcount, hlen]
    decide
  obtain ⟨server, hrun, hstore, -⟩ := horphaned.run sortedHost_hashSound elders_waiting
  have hall := Runs.run_append_eq_ok.mpr ⟨server₁, hfirst, hrun⟩
  have hlost := foldl_arrive_states sortedHost_hashSound horigin rfl hroots
    (fun sb hsb ↦ by rw [elders_slot sb hsb]; decide) elders_nodup (by rw [hlen]) hfew
  obtain ⟨-, hkept, -⟩ := foldl_arrive sortedHost hfew
  refine ⟨server, hall, by decide +kernel, by rw [hstore, hlost], by rw [hstore, hkept, hhead], ?_⟩
  refine run_relied sortedHost_hashSound sortedGenesis_anchor sortedStore_eq
    (retained_of_roomy sortedHost_hashSound sortedGenesis_anchor sortedStore_eq fun p hp ↦ ?_) hall
  change p ∈ Runs.trace (Server.step sortedHost) sortedServer (finalizingDeliveries ++ _) at hp
  rw [Runs.trace_append hfirst, List.mem_append] at hp
  rcases hp with hp | hp
  · exact fun drained ↦ roomy_of_leavesFew (List.all_eq_true.mp hsmall p hp)
  · exact horphaned.roomy sortedHost_hashSound htop elders_waiting elders_older hfew p hp

def orphan (k : ℕ) : SignedBlockWithAttestation ℕ :=
  sampleSigned ⟨UInt64.ofNat (k + 2), 0, 0, 0, .default⟩ ⟨0, ⟨0, 0⟩, ⟨0, 0⟩, ⟨0, 0⟩⟩

theorem orphan_slot {k : ℕ} (hk : k < blocksToKeep) : (orphan k).message.block.slot.toNat = k + 2 := by
  have hsmall : k < 21600 := hk
  change (UInt64.ofNat (k + 2)).toNat = k + 2
  rw [UInt64.toNat_ofNat']
  omega

theorem orphans_nodup {n : ℕ} (hn : n ≤ blocksToKeep) :
    (((List.range n).map orphan).map (headerEntry sampleHost)).Nodup := by
  rw [List.map_map]
  refine List.nodup_range.map_on fun j hj k hk h ↦ ?_
  have hslot := congrArg (fun p : ℕ × BlockHeader ℕ ↦ p.2.slot.toNat) h
  have hj' := orphan_slot (Nat.lt_of_lt_of_le (List.mem_range.mp hj) hn)
  have hk' := orphan_slot (Nat.lt_of_lt_of_le (List.mem_range.mp hk) hn)
  change (orphan j).message.block.slot.toNat = (orphan k).message.block.slot.toNat at hslot
  omega

/-- A genesis node imports the first block. Three thousand blocks on no parent later, the state of
its head is gone. -/
theorem head_state_pruned :
    ∃ server, Store.initStore sampleHost sampleGenesis none = .ok sampleStore ∧
      Server.run sampleHost sampleServer (⟨1, .newBlock sampleFirst⟩ ::
        ((List.range 3000).map orphan).map fun sb ↦ ⟨1, .newBlock sb⟩) = .ok server ∧
      server.store.head = sampleHash.block Sample.first ∧
      server.store.states.lookup server.store.head = none ∧
      (server.store.headState : Exec Empty (State ℕ)) =
        Exec.panic (.expect "head state is always available") := by
  have hview : (Server.step sampleHost sampleServer ⟨1, .newBlock sampleFirst⟩).toOption.map
      (fun server ↦ decide (server.pendingBlockParents.lookup 0 = none ∧
        server.store.blockHeaders.lookup 0 = none ∧ server.store.states.lookup 0 = none ∧
        server.store.head = sampleHash.block Sample.first ∧
        server.store.blockHeaders.lookup server.store.head = some (Sample.first.header sampleHash) ∧
        server.store.head ∉ server.store.protectedRoots ∧
        server.store.blockHeaders.keys.length = 2)) = some true := by decide +kernel
  obtain ⟨server₁, hfirst, hview⟩ := Exec.exists_ok_of_map hview
  obtain ⟨hrecord, hheader, hstate, hhead, hhdr, hroots, hcount⟩ := of_decide_eq_true hview
  have horphaned : Orphaned server₁ := ⟨hrecord, hheader, hstate⟩
  have hlen : ((List.range 3000).map orphan).length = 3000 := by
    rw [List.length_map, List.length_range]
  have hblocks : ∀ sb ∈ (List.range 3000).map orphan, sb.message.block.parentRoot = 0 := by
    intro sb hsb
    obtain ⟨k, -, rfl⟩ := List.mem_map.mp hsb
    rfl
  have hslots : ∀ sb ∈ (List.range 3000).map orphan,
      (Sample.first.header sampleHash).slot.toNat < sb.message.block.slot.toNat := by
    intro sb hsb
    obtain ⟨k, hk, rfl⟩ := List.mem_map.mp hsb
    rw [orphan_slot (Nat.lt_trans (List.mem_range.mp hk) (by decide))]
    change 1 < k + 2
    omega
  obtain ⟨server, hrun, hkept, hlost⟩ := horphaned.head_lost sampleHost_hashSound hhdr
    (by rw [hhead]; rfl) hroots hblocks hslots (orphans_nodup (by decide)) (by rw [hlen])
    (by rw [hlen, hcount]; decide)
  refine ⟨server, sampleStore_eq, Runs.run_cons_eq_ok.mpr ⟨server₁, hfirst, hrun⟩,
    hkept.trans hhead, hlost, ?_⟩
  rw [Store.headState, Store.getState, hlost]
  rfl

end Sample

end Ethlambda.Chain
