import Ethlambda.Chain.WideSlots

namespace Ethlambda.Chain

open Ethlambda.Base Ethlambda.Types Ethlambda.Storage Ethlambda.StateTransition Ethlambda.ForkChoice

set_option linter.unusedSectionVars false

variable {H : Type} [LinearOrder H] [Zero H] {host : Host H} {s s' : Store H}
  {I : Store H → Prop}

/-- A property of the tables and the checkpoints that new and pending blocks keep. Where head and
safe target point is nothing to it. -/
structure TableInvariant (host : Host H) (I : Store H → Prop) : Prop where
  congr : ∀ {s s'}, I s → s'.states = s.states → s'.blockHeaders = s.blockHeaders →
    s'.liveChain = s.liveChain → s'.latestJustified = s.latestJustified →
    s'.latestFinalized = s.latestFinalized → I s'
  record : ∀ {s sb verify post}, I s → postState host s sb verify = .ok post →
    I (recordBlock host sb post s)
  pending : ∀ {s} sb, I s → I (s.insertPendingBlock host (host.block sb.message.block) sb)

theorem TableInvariant.steady (hI : TableInvariant host I) : Steady host I where
  frame := fun h hf ↦ hI.congr h hf.states hf.headers hf.liveChain hf.justified hf.finalized
  head := fun h _ ↦ hI.congr h rfl rfl rfl rfl rfl
  safeTarget := fun h _ ↦ hI.congr h rfl rfl rfl rfl rfl
  record := by
    intro ε s t sb verify post r h hpost ht _
    have hrec := hI.record h hpost
    rw [ht] at hrec
    exact hI.congr hrec rfl rfl rfl rfl rfl
  pending := hI.pending

namespace Call

theorem step_keeps (hI : Steady host I) {c : Call H}
    (hprune : c = .pruneOldData → I s → I (s.pruneOldData host)) (h : I s)
    (hs : step host s c = .ok s') : I s' := by
  obtain ⟨r, hr⟩ := perform_of_step hs
  by_cases hc : c = .pruneOldData
  · subst hc
    obtain ⟨-, rfl⟩ := Prod.mk.inj (Except.ok.inj hr)
    exact hprune rfl h
  · exact perform_keeps hI hc s r s' h hr

/-- What every operation keeps holds in every store that operations lead to. -/
theorem run_keeps (hI : Steady host I) (hprune : ∀ {s}, I s → I (s.pruneOldData host))
    {cs : List (Call H)} (h : I s) (hs : run host s cs = .ok s') : I s' :=
  Runs.run_invariant (fun _ _ _ hi hstep ↦ step_keeps hI (fun _ ↦ hprune) hi hstep) h hs

end Call

section Tree

theorem lookup_states_of_pruneOldData {r : H} {st : State H}
    (h : (s.pruneOldData host).states.lookup r = some st) : s.states.lookup r = some st := by
  rw [lookup_pruneOldData_states] at h
  split at h
  · exact nomatch h
  · exact h

theorem lookup_headers_of_pruneOldData {r : H} {hdr : BlockHeader H}
    (h : (s.pruneOldData host).blockHeaders.lookup r = some hdr) :
    s.blockHeaders.lookup r = some hdr := by
  rw [lookup_pruneOldData_headers] at h
  split at h
  · exact nomatch h
  · exact h

theorem lookup_insertPendingBlock_headers (sb : SignedBlockWithAttestation H) (root r : H) :
    (s.insertPendingBlock host root sb).blockHeaders.lookup r =
      if r = root then some (sb.message.block.header host.toTreeHash)
      else s.blockHeaders.lookup r :=
  Table.lookup_insert_eq_ite _ _ _ _

theorem BlockTree.insertPendingBlock (hh : HashSound host) (h : BlockTree host s)
    (sb : SignedBlockWithAttestation H) :
    BlockTree host (s.insertPendingBlock host (host.block sb.message.block) sb) := by
  refine ⟨h.states, fun r hdr hhdr ↦ ?_, h.live, h.listed, h.ancestors, h.ordered, h.justified,
    h.finalized⟩
  rw [lookup_insertPendingBlock_headers] at hhdr
  split at hhdr
  · rename_i hr
    rw [hr, ← Option.some.inj hhdr, hh.block_eq]
  · exact h.headers r hdr hhdr

theorem BlockTree.pruneOldData (h : BlockTree host s) : BlockTree host (s.pruneOldData host) := by
  constructor
  case states => exact fun r st hst ↦ h.states r st (lookup_states_of_pruneOldData hst)
  case headers => exact fun r hdr hhdr ↦ h.headers r hdr (lookup_headers_of_pruneOldData hhdr)
  case live => exact h.live
  case listed => exact fun r st hst ↦ h.listed r st (lookup_states_of_pruneOldData hst)
  case ancestors =>
    exact fun r st i x hst ↦ h.ancestors r st i x (lookup_states_of_pruneOldData hst)
  case ordered => exact h.ordered
  case justified => exact h.justified
  case finalized => exact h.finalized

theorem blockTree_invariant (hh : HashSound host) : TableInvariant host (BlockTree host) where
  congr := fun h hs hb hl hj hf ↦ h.congr hs hb hl hj hf
  record := fun h hpost ↦ h.recordBlock hh hpost
  pending := fun sb h ↦ h.insertPendingBlock hh sb

theorem blockTree_initStore (hh : HashSound host) {st : State H} (hst : Anchor host st)
    {body : Option (BlockBody H)} (h : Store.initStore host st body = .ok s) : BlockTree host s :=
  (available_initStore hh hst h).coherent.tree hh

/-- Recording a block leaves the states and headers of all other roots alone. -/
theorem lookup_recordBlock_states (sb : SignedBlockWithAttestation H) (post : State H) (r : H) :
    (recordBlock host sb post s).states.lookup r =
      if r = host.block sb.message.block then some post else s.states.lookup r := by
  rw [← (adopted host s post).states]
  exact Table.lookup_insert_eq_ite _ _ _ _

theorem lookup_recordBlock_headers (sb : SignedBlockWithAttestation H) (post : State H) (r : H) :
    (recordBlock host sb post s).blockHeaders.lookup r =
      if r = host.block sb.message.block then some (sb.message.block.header host.toTreeHash)
      else s.blockHeaders.lookup r := by
  rw [← (adopted host s post).headers]
  exact Table.lookup_insert_eq_ite _ _ _ _

end Tree

section Uniform

/-- Every stored state has the genesis time of the store, and one and the same validators. -/
structure Uniform (config : ChainConfig) (validators : VariableList Validator validatorRegistryLimit)
    (s : Store H) : Prop where
  config_eq : s.config = config
  states : ∀ r st, s.states.lookup r = some st → st.config = config ∧ st.validators = validators

variable {config : ChainConfig} {validators : VariableList Validator validatorRegistryLimit}

theorem writeBlock_config (host : Host H) (sb : SignedBlockWithAttestation H) (post : State H) :
    (writeBlock host sb post s).config = s.config := rfl

theorem uniform_steady (host : Host H) : Steady host (Uniform config validators) where
  frame := by
    intro s s' h hf
    refine ⟨hf.config.trans h.config_eq, ?_⟩
    rw [hf.states]
    exact h.states
  head := fun h _ ↦ ⟨h.config_eq, h.states⟩
  safeTarget := fun h _ ↦ ⟨h.config_eq, h.states⟩
  record := by
    intro ε s t sb verify post r h hpost ht _
    subst ht
    refine ⟨?_, fun r st hst ↦ ?_⟩
    · rw [← h.config_eq, ← (adopted host s post).config]
      exact writeBlock_config host sb post
    rw [lookup_recordBlock_states] at hst
    split at hst
    · obtain rfl := Option.some.inj hst
      obtain ⟨parent, st', hparent, -, htrans, rfl⟩ := postState_eq_ok hpost
      obtain ⟨hconfig, hvals⟩ := stateTransition_fixed htrans
      obtain ⟨hc, hv⟩ := h.states _ parent hparent
      exact ⟨hconfig.trans hc, hvals.trans hv⟩
    · exact h.states r st hst
  pending := fun _ h ↦ ⟨h.config_eq, h.states⟩

theorem Uniform.pruneOldData (h : Uniform config validators s) :
    Uniform config validators (s.pruneOldData host) :=
  ⟨h.config_eq, fun r st hst ↦ h.states r st (lookup_states_of_pruneOldData hst)⟩

theorem uniform_initStore {st : State H} {body : Option (BlockBody H)}
    (h : Store.initStore host st body = .ok s) : Uniform st.config st.validators s := by
  obtain ⟨-, rfl⟩ := Store.initStore_eq_ok.mp h
  refine ⟨rfl, fun r st' hr ↦ ?_⟩
  obtain ⟨rfl, rfl⟩ := Table.lookup_singleton.mp hr
  exact ⟨rfl, rfl⟩

end Uniform

section Keyed

/-- A state under the root of its own header, which is stored next to it and names the state. -/
structure Keyed (host : Host H) (s : Store H) (r : H) (st : State H) : Prop where
  header : s.blockHeaders.lookup r = some st.latestBlockHeader
  root_eq : host.header st.latestBlockHeader = r
  slot_eq : st.slot = st.latestBlockHeader.slot
  stateRoot_eq : st.latestBlockHeader.stateRoot = host.state (withStateRoot st 0)

structure WellKeyed (host : Host H) (s : Store H) : Prop where
  tree : BlockTree host s
  keyed : ∀ r st, s.states.lookup r = some st → Keyed host s r st

theorem Keyed.cachedHeader_eq {r : H} {st : State H} (h : Keyed host s r st) :
    cachedHeader host.toTreeHash st = st.latestBlockHeader := by
  unfold cachedHeader
  split
  · rename_i hz
    have hsame : withStateRoot st 0 = st := by
      rw [← hz]
      rfl
    have hroot : host.state st = st.latestBlockHeader.stateRoot := by
      rw [h.stateRoot_eq, hsame]
    rw [hroot]
  · rfl

theorem Keyed.frame {r : H} {st : State H} (h : Keyed host s r st)
    (hh : s'.blockHeaders.lookup r = s.blockHeaders.lookup r) : Keyed host s' r st :=
  ⟨hh.trans h.header, h.root_eq, h.slot_eq, h.stateRoot_eq⟩

theorem WellKeyed.recordBlock (hh : HashSound host) (h : WellKeyed host s)
    {sb : SignedBlockWithAttestation H} {verify : Bool} {post : State H}
    (hpost : postState host s sb verify = .ok post) : WellKeyed host (recordBlock host sb post s) := by
  refine ⟨h.tree.recordBlock hh hpost, fun r st hst ↦ ?_⟩
  rw [lookup_recordBlock_states] at hst
  split at hst
  · rename_i hr
    obtain rfl := Option.some.inj hst
    obtain ⟨parent, st', hparent, -, htrans, rfl⟩ := postState_eq_ok hpost
    have hstored := (h.tree.imported hh hpost).stored
    obtain ⟨-, -, hheader, hroot, -⟩ :=
      (h.tree.states _ parent hparent).wellformed.transition_header hh.collisionFree htrans
    have hdr : (withStateRoot st' sb.message.block.stateRoot).latestBlockHeader =
        sb.message.block.header host.toTreeHash := by
      unfold withStateRoot
      rw [hheader]
      rfl
    refine ⟨?_, ?_, hstored.wellformed.slot_eq, ?_⟩
    · rw [lookup_recordBlock_headers, if_pos hr, hdr]
    · rw [hdr, ← hh.block_eq, hr]
    · have hzeroed : withStateRoot (withStateRoot st' sb.message.block.stateRoot) 0 = st' := by
        cases st'
        subst hheader
        rfl
      rw [hdr, hzeroed]
      exact hroot
  · rename_i hr
    refine (h.keyed r st hst).frame ?_
    rw [lookup_recordBlock_headers, if_neg hr]

theorem WellKeyed.insertPendingBlock (hh : HashSound host) (h : WellKeyed host s)
    (sb : SignedBlockWithAttestation H) :
    WellKeyed host (s.insertPendingBlock host (host.block sb.message.block) sb) := by
  refine ⟨h.tree.insertPendingBlock hh sb, fun r st hst ↦ ?_⟩
  have hk := h.keyed r st hst
  refine hk.frame ?_
  rw [lookup_insertPendingBlock_headers]
  split
  · rename_i hr
    -- a pending block with the root of a stored one has its header too
    have hsame : sb.message.block.header host.toTreeHash = st.latestBlockHeader := by
      apply hh.collisionFree.header_injective
      rw [← hh.block_eq, hk.root_eq, hr]
    rw [hsame, hk.header]
  · rfl

/-- A root whose header expires has lost its state by then: the window for states is the smaller
one. -/
theorem WellKeyed.pruneOldData (h : WellKeyed host s) : WellKeyed host (s.pruneOldData host) := by
  refine ⟨h.tree.pruneOldData, fun r st hst ↦ ?_⟩
  refine (h.keyed r st (lookup_states_of_pruneOldData hst)).frame ?_
  rw [lookup_pruneOldData_headers, if_neg fun hexp ↦ ?_]
  rw [lookup_pruneOldData_states, if_pos (expired_subset (by decide) hexp)] at hst
  exact nomatch hst

theorem wellKeyed_invariant (hh : HashSound host) : TableInvariant host (WellKeyed host) where
  congr := by
    intro s s' h hs hb hl hj hf
    refine ⟨h.tree.congr hs hb hl hj hf, fun r st hst ↦ ?_⟩
    rw [hs] at hst
    exact (h.keyed r st hst).frame (by rw [hb])
  record := fun h hpost ↦ h.recordBlock hh hpost
  pending := fun sb h ↦ h.insertPendingBlock hh sb

theorem wellKeyed_initStore (hh : HashSound host) {st : State H} (hst : Anchor host st)
    {body : Option (BlockBody H)} (h : Store.initStore host st body = .ok s) :
    WellKeyed host s := by
  refine ⟨blockTree_initStore hh hst h, ?_⟩
  have hslot := (hst.sound hh).1.slot_eq
  obtain ⟨-, rfl⟩ := Store.initStore_eq_ok.mp h
  intro r st' hr
  obtain ⟨rfl, rfl⟩ := Table.lookup_singleton.mp hr
  exact ⟨Table.lookup_singleton.mpr ⟨rfl, rfl⟩, rfl, hslot, rfl⟩

/-- Whatever the calls, states and headers stay paired: each state lies under the root of the header
that lies there too, and that header names the state. So no block is rejected for a parent that is
stored under the root it names. -/
theorem state_header_paired (hh : HashSound host) {time : UInt64} {validators : List Validator}
    {g : State H} {body : Option (BlockBody H)} {s₀ : Store H} {calls : List (Call H)}
    (hg : State.fromGenesis host.toTreeHash time validators =
      (.ok g : StateTransition.Result H (State H)))
    (h₀ : Store.initStore host g body = .ok s₀) (hrun : Call.run host s₀ calls = .ok s) :
    (∀ r st, s.states.lookup r = some st → ∃ h, s.blockHeaders.lookup r = some h ∧
      h = st.latestBlockHeader ∧ r = host.header h ∧ st.slot = h.slot ∧
      h.stateRoot = host.state (withStateRoot st 0)) ∧
    ∀ (block : Block H) st, s.states.lookup block.parentRoot = some st →
      (∀ expected found, stateTransition host.toTreeHash st block ≠
        Exec.fail (.invalidParent expected found)) ∧
      ∀ stateSlot blockSlot, stateTransition host.toTreeHash st block ≠
        Exec.fail (.slotMismatch stateSlot blockSlot) := by
  have h := Call.run_keeps (wellKeyed_invariant hh).steady WellKeyed.pruneOldData
    (wellKeyed_initStore hh (anchor_genesis hg) h₀) hrun
  constructor
  · intro r st hst
    have hk := h.keyed r st hst
    exact ⟨_, hk.header, rfl, hk.root_eq.symm, hk.slot_eq, hk.stateRoot_eq⟩
  · intro block st hst
    have hk := h.keyed _ st hst
    have hparent : block.parentRoot = host.header (cachedHeader host.toTreeHash st) := by
      rw [hk.cachedHeader_eq, hk.root_eq]
    exact ⟨fun a b ↦ stateTransition_ne_fail hparent (.inr ⟨a, b, rfl⟩),
      fun a b ↦ stateTransition_ne_fail hparent (.inl ⟨a, b, rfl⟩)⟩

theorem state_header_paired_sample :
    ∃ s, Call.run sampleHost sampleStore [.onBlock sampleFirst [0], .pruneOldData] = .ok s ∧
      (s.states.lookup s.head).isSome = true ∧
      ∀ r st, s.states.lookup r = some st → ∃ h, s.blockHeaders.lookup r = some h ∧
        h = st.latestBlockHeader ∧ r = sampleHost.header h ∧ st.slot = h.slot ∧
        h.stateRoot = sampleHost.state (withStateRoot st 0) := by
  have hview : (Call.run sampleHost sampleStore
      [.onBlock sampleFirst [0], .pruneOldData]).toOption.map
      (fun s ↦ (s.states.lookup s.head).isSome) = some true := by decide +kernel
  obtain ⟨s, hs, hhead⟩ := Exec.exists_ok_of_map hview
  exact ⟨s, hs, hhead,
    (state_header_paired sampleHost_hashSound sampleGenesis_eq sampleStore_eq hs).1⟩

end Keyed

end Ethlambda.Chain
