import Ethlambda.Chain.Reachable

namespace Ethlambda.Chain

open Ethlambda.Base Ethlambda.Types Ethlambda.Storage Ethlambda.StateTransition Ethlambda.ForkChoice

set_option linter.unusedSectionVars false

variable {H : Type} [LinearOrder H] [Zero H]

section Commits

variable (host : Host H)

/-- The batches that `updateCheckpoints` commits for a new state, in order. -/
def checkpointCommits (s : Store H) (post : State H) : List (Store H → Store H) :=
  let justified := if s.latestJustified.slot < post.latestJustified.slot then
    some post.latestJustified else none
  let finalized := if s.latestFinalized.slot < post.latestFinalized.slot then
    some post.latestFinalized else none
  if justified.isSome || finalized.isSome then
    (fun t ↦ t.setCheckpoints ⟨s.head, justified, finalized⟩) :: match finalized with
      | some finalized =>
        if s.latestFinalized.slot < finalized.slot then
          [fun t ↦ t.pruneLiveChain host finalized.slot,
            fun t ↦ t.pruneGossipSignatures finalized.slot,
            fun t ↦ t.pruneAttestationDataByRoot finalized.slot]
        else []
      | none => []
  else []

/-- The batch with the block's votes. Their proofs stay in memory. -/
def recordVotes (sb : SignedBlockWithAttestation H) (s : Store H) : Store H :=
  (s.insertAttestationDataByRootBatch
    (attestationDataEntries host sb)).insertKnownAggregatedPayloadsBatch (knownEntries host sb)

def blockCommits (sb : SignedBlockWithAttestation H) (post : State H) : List (Store H → Store H) :=
  [fun t ↦ t.insertSignedBlock host (host.block sb.message.block) sb,
    fun t ↦ t.insertState (host.block sb.message.block) post,
    recordVotes host sb]

/-- Everything an import commits: the checkpoints, the block, the head, the proposer's vote. -/
def importCommits (sb : SignedBlockWithAttestation H) (verify : Bool) (ids : List UInt64)
    (s : Store H) (post : State H) : List (Op (Store H) (StoreError H) Unit) :=
  (checkpointCommits host s post ++ blockCommits host sb post).map Op.modify ++
    [updateHead host, recordProposerVote host sb verify ids]

def inTurn {σ ε : Type} : List (Op σ ε Unit) → Op σ ε Unit
  | [] => pure ()
  | x :: xs => do
    x
    inTurn xs

/-- An import that gets no further than a number of commits. -/
def importFirst (commits : ℕ) (sb : SignedBlockWithAttestation H) (verify : Bool)
    (ids : List UInt64) : Op (Store H) (StoreError H) Unit := do
  let s ← Op.get
  if s.hasState (host.block sb.message.block) then
    pure ()
  else
    let post ← Op.lift (postState host s sb verify)
    inTurn ((importCommits host sb verify ids s post).take commits)

variable {host} {s : Store H} {sb : SignedBlockWithAttestation H} {verify : Bool}
  {ids : List UInt64} {post : State H}

theorem inTurn_modify {σ ε : Type} (fs : List (σ → σ)) (xs : List (Op σ ε Unit)) (s : σ) :
    inTurn (fs.map Op.modify ++ xs) s = inTurn xs (fs.foldl (fun s f ↦ f s) s) := by
  induction fs generalizing s with
  | nil => rfl
  | cons f fs ih => exact ih (f s)

theorem bind_unit {σ ε : Type} (x : Op σ ε Unit) : (x >>= fun _ ↦ pure ()) = x := by
  funext s
  rw [Op.bind_apply]
  rcases x s with p | ⟨e | u, t⟩ <;> rfl

theorem foldl_checkpointCommits (s : Store H) (post : State H) :
    (checkpointCommits host s post).foldl (fun s f ↦ f s) s = adoptCheckpoints host s post := by
  unfold checkpointCommits adoptCheckpoints
  by_cases hj : s.latestJustified.slot < post.latestJustified.slot <;>
    by_cases hf : s.latestFinalized.slot < post.latestFinalized.slot <;>
    simp [hj, hf, Store.updateCheckpoints]

theorem foldl_commits (s : Store H) (post : State H) :
    (checkpointCommits host s post ++ blockCommits host sb post).foldl (fun s f ↦ f s) s =
      recordBlock host sb post s := by
  rw [List.foldl_append, foldl_checkpointCommits]
  rfl

theorem length_importCommits_le : (importCommits host sb verify ids s post).length ≤ 9 := by
  unfold importCommits checkpointCommits
  by_cases hj : s.latestJustified.slot < post.latestJustified.slot <;>
    by_cases hf : s.latestFinalized.slot < post.latestFinalized.slot <;>
    simp [hj, hf, blockCommits]

/-- With all its commits an import is the import. -/
theorem importFirst_all {commits : ℕ} (h : 9 ≤ commits) :
    importFirst host commits sb verify ids s = onBlockCore host sb verify ids s := by
  unfold importFirst onBlockCore
  rw [Op.get_bind, Op.get_bind]
  split
  · rfl
  · rcases hpost : postState host s sb verify with (e | p) | post
    · rfl
    · rfl
    · rw [Op.lift_bind_of_ok rfl, Op.lift_bind_of_ok rfl, Op.modify_bind,
        List.take_of_length_le (length_importCommits_le.trans h), importCommits, inTurn_modify,
        foldl_commits]
      simp only [inTurn, bind_unit]

end Commits

section Restart

variable (host : Host H)

/-- `initStore` on a backend that holds tables from before. It resets the metadata and adds the
anchor; everything else stays, except what was only in memory. -/
def reopen (old : Store H) (anchorState : State H) (anchorBody : Option (BlockBody H)) :
    Except Panic (Store H) :=
  let originalStateRoot := anchorState.latestBlockHeader.stateRoot
  let (anchorState, anchorBlockRoot) := Store.anchor host anchorState
  let header := anchorState.latestBlockHeader
  if originalStateRoot = 0 ∨ originalStateRoot = header.stateRoot then
    .ok
      { time := 0
        config := anchorState.config
        head := anchorBlockRoot
        safeTarget := anchorBlockRoot
        latestJustified := ⟨anchorBlockRoot, header.slot⟩
        latestFinalized := ⟨anchorBlockRoot, header.slot⟩
        blockHeaders := old.blockHeaders.insert anchorBlockRoot header
        blockBodies := match anchorBody with
          | some body => old.blockBodies.insert anchorBlockRoot body
          | none => old.blockBodies
        blockSignatures := old.blockSignatures
        states := old.states.insert anchorBlockRoot anchorState
        gossipSignatures := old.gossipSignatures
        attestationDataByRoot := old.attestationDataByRoot
        liveChain := old.liveChain.insert (header.slot, anchorBlockRoot) header.parentRoot
        newPayloads := .new newPayloadCap
        knownPayloads := .new aggregatedPayloadCap
        gossipSignaturesCount := old.gossipSignatures.keys.length }
  else
    .error .assertion

/-- On an empty backend this is the fresh start. -/
theorem reopen_empty (old : Store H) (st : State H) (body : Option (BlockBody H)) :
    reopen host
      { old with
        blockHeaders := ∅, blockBodies := ∅, blockSignatures := ∅, states := ∅,
        gossipSignatures := ∅, attestationDataByRoot := ∅, liveChain := ∅ } st body =
      Store.initStore host st body := by
  unfold reopen Store.initStore
  dsimp only
  split
  · cases body with
    | none => simp only [AList.insert_empty]; rfl
    | some body => simp only [AList.insert_empty]; rfl
  · rfl

/-- A node's life: operations on its store, and crashes in the middle of an import that the
operator answers with a restart from some anchor. -/
inductive Incident (H : Type)
  | call (c : Call H)
  | crash (commits : ℕ) (signedBlock : SignedBlockWithAttestation H) (ids : List UInt64)
      (anchor : State H)

namespace Incident

def step (s : Store H) : Incident H → Except Panic (Store H)
  | .call c => Call.step host s c
  | .crash commits sb ids anchor => match importFirst host commits sb true ids s with
    | .ok (_, t) => reopen host t anchor none
    | .error p => .error p

def run (s : Store H) (is : List (Incident H)) : Except Panic (Store H) := Runs.run (step host) s is

/-- The crash comes after the commit that makes the block live and before the one that stores its
state. -/
def Torn (p : Store H × Incident H) : Prop :=
  ∃ commits sb ids anchor post, p.2 = .crash commits sb ids anchor ∧
    p.1.hasState (host.block sb.message.block) = false ∧
    postState host p.1 sb true = .ok post ∧
    commits = (checkpointCommits host p.1 post).length + 1

/-- No state is pruned, and the incident is not a crash between the two commits of a block. -/
def Whole (p : Store H × Incident H) : Prop :=
  (∀ c, p.2 = .call c → Call.KeepsStates host (p.1, c)) ∧ ¬Torn host p

end Incident

end Restart

section Backed

variable {host : Host H} {s s' t : Store H} {sb : SignedBlockWithAttestation H} {post : State H}

/-- Every live block has a state. -/
def LiveBacked (s : Store H) : Prop :=
  ∀ slot r p, s.liveChain.lookup (slot, r) = some p → ∃ st, s.states.lookup r = some st

theorem LiveBacked.recordBlock (h : LiveBacked s) : LiveBacked (recordBlock host sb post s) := by
  have ha := adopted host s post
  intro slot r p hp
  rw [lookup_recordBlock_states]
  split
  · exact ⟨post, rfl⟩
  · rename_i hr
    have hp' : ((adoptCheckpoints host s post).liveChain.insert
        (sb.message.block.slot, host.block sb.message.block) sb.message.block.parentRoot).lookup
        (slot, r) = some p := hp
    rw [Table.lookup_insert_eq_ite, if_neg fun heq ↦ hr (Prod.mk.inj heq).2] at hp'
    exact h slot r p (ha.live_of _ p hp')

theorem liveBacked_invariant (host : Host H) : TableInvariant host LiveBacked where
  congr := by
    intro s s' h hs _ hl _ _
    unfold LiveBacked
    rw [hs, hl]
    exact h
  record := fun h _ ↦ h.recordBlock
  pending := fun _ h ↦ h

/-- The states are the same and no live block is new. -/
structure Shrunk (s s' : Store H) : Prop where
  states : s'.states = s.states
  live : ∀ k p, s'.liveChain.lookup k = some p → s.liveChain.lookup k = some p

theorem Shrunk.refl (s : Store H) : Shrunk s s := ⟨rfl, fun _ _ h ↦ h⟩

theorem Shrunk.trans (h : Shrunk s t) (h' : Shrunk t s') : Shrunk s s' :=
  ⟨h'.states.trans h.states, fun k p hp ↦ h.live k p (h'.live k p hp)⟩

theorem shrunk_checkpointCommit {f : Store H → Store H} (hf : f ∈ checkpointCommits host s post)
    (t : Store H) : Shrunk t (f t) := by
  unfold checkpointCommits at hf
  generalize (if s.latestJustified.slot < post.latestJustified.slot then
    some post.latestJustified else none) = justified at hf
  generalize (if s.latestFinalized.slot < post.latestFinalized.slot then
    some post.latestFinalized else none) = finalized at hf
  dsimp only at hf
  split at hf
  · rcases List.mem_cons.mp hf with rfl | hf
    · exact ⟨rfl, fun _ _ h ↦ h⟩
    · split at hf
      · split at hf
        · simp only [List.mem_cons, List.not_mem_nil, or_false] at hf
          rcases hf with rfl | rfl | rfl
          · exact ⟨rfl, fun _ _ ↦ lookup_of_lookup_pruneLiveChain⟩
          · exact ⟨rfl, fun _ _ h ↦ h⟩
          · exact ⟨rfl, fun _ _ h ↦ h⟩
        · exact absurd hf List.not_mem_nil
      · exact absurd hf List.not_mem_nil
  · exact absurd hf List.not_mem_nil

theorem shrunk_foldl {fs : List (Store H → Store H)} (h : ∀ f ∈ fs, ∀ t, Shrunk t (f t))
    (s : Store H) : Shrunk s (fs.foldl (fun s f ↦ f s) s) := by
  induction fs generalizing s with
  | nil => exact Shrunk.refl s
  | cons f fs ih =>
    exact (h f List.mem_cons_self s).trans
      (ih (fun g hg ↦ h g (List.mem_cons_of_mem f hg)) (f s))

theorem inTurn_keeps {σ ε : Type} {I : σ → Prop} {xs : List (Op σ ε Unit)}
    (h : ∀ x ∈ xs, Op.Keeps I x) : Op.Keeps I (inTurn xs) := by
  induction xs with
  | nil => exact Op.Keeps.pure _
  | cons x xs ih =>
    exact Op.Keeps.bind (h x List.mem_cons_self) fun _ ↦
      ih fun y hy ↦ h y (List.mem_cons_of_mem x hy)

/-- Whatever is committed after the block and its state touches neither states nor live chain. -/
theorem inTurn_rest {k : ℕ} {verify : Bool} {ids : List UInt64} {r : Except (StoreError H) Unit}
    (h : inTurn ((importCommits host sb verify ids s post).take
      ((checkpointCommits host s post).length + (k + 2))) s = .ok (r, t)) :
    t.states = (recordBlock host sb post s).states ∧
      t.liveChain = (recordBlock host sb post s).liveChain := by
  rw [importCommits, List.map_append, List.append_assoc, List.take_append,
    List.take_of_length_le (by simp), List.length_map, Nat.add_sub_cancel_left, inTurn_modify,
    foldl_checkpointCommits] at h
  simp only [blockCommits, List.map_cons, List.map_nil, List.cons_append, List.nil_append,
    List.take_succ_cons, inTurn, Op.modify_bind] at h
  have hkeeps : Op.Keeps (fun t : Store H ↦ t.states = (recordBlock host sb post s).states ∧
      t.liveChain = (recordBlock host sb post s).liveChain)
      (inTurn ([Op.modify (recordVotes host sb), updateHead host,
        recordProposerVote host sb verify ids].take k)) := by
    apply inTurn_keeps
    intro x hx
    have hx' := List.mem_of_mem_take hx
    simp only [List.mem_cons, List.not_mem_nil, or_false] at hx'
    rcases hx' with rfl | rfl | rfl
    · exact Op.Keeps.modify fun t ht ↦ ht
    · intro t r t' ht hr
      obtain ⟨g, -, rfl⟩ := updateHead_eq_ok hr
      exact ht
    · exact recordProposerVote_keeps (fun ht hf ↦ ⟨hf.states.trans ht.1, hf.liveChain.trans ht.2⟩) ids
  refine hkeeps _ r t ?_ h
  exact ⟨rfl, rfl⟩

/-- A prefix of the commits that does not end between the block and its state leaves the states and
the live chain as they were, or cut, or as the whole import leaves them. -/
theorem importFirst_eq_ok {commits : ℕ} {ids : List UInt64} {anchor : State H}
    {r : Except (StoreError H) Unit} (h : importFirst host commits sb true ids s = .ok (r, t))
    (hwhole : ¬Incident.Torn host (s, .crash commits sb ids anchor)) :
    Shrunk s t ∨ ∃ post, postState host s sb true = .ok post ∧
      t.states = (recordBlock host sb post s).states ∧
      t.liveChain = (recordBlock host sb post s).liveChain := by
  unfold importFirst at h
  rw [Op.get_bind] at h
  split at h
  · obtain ⟨-, rfl⟩ := Prod.mk.inj (Except.ok.inj h)
    exact .inl (Shrunk.refl s)
  rename_i hstate
  rcases Op.bind_eq_ok.mp h with ⟨post, u, hlift, hrest⟩ | ⟨e, he, -⟩
  · obtain ⟨rfl, ⟨post', hpost, hok⟩ | ⟨e, -, hok⟩⟩ := Op.lift_eq_ok.mp hlift
    · obtain rfl := Except.ok.inj hok
      have hne : commits ≠ (checkpointCommits host u post).length + 1 := fun heq ↦
        hwhole ⟨commits, sb, ids, anchor, post, rfl, by simpa using hstate, hpost, heq⟩
      rcases Nat.lt_or_ge (checkpointCommits host u post).length commits with hlt | hle
      · -- the block and its state are both in
        obtain ⟨k, rfl⟩ : ∃ k, commits = (checkpointCommits host u post).length + (k + 2) :=
          ⟨commits - (checkpointCommits host u post).length - 2, by omega⟩
        refine .inr ⟨post, hpost, ?_⟩
        exact inTurn_rest hrest
      · refine .inl ?_
        rw [importCommits, List.map_append, List.append_assoc, List.take_append_of_le_length
          (by simpa using hle), ← List.map_take, ← List.append_nil (List.map _ _), inTurn_modify] at hrest
        obtain ⟨-, rfl⟩ := Prod.mk.inj (Except.ok.inj hrest)
        exact shrunk_foldl (fun f hf ↦ shrunk_checkpointCommit (List.mem_of_mem_take hf)) u
    · exact nomatch hok
  · obtain ⟨rfl, -⟩ := Op.lift_eq_ok.mp he
    exact .inl (Shrunk.refl t)

theorem LiveBacked.importFirst {commits : ℕ} {ids : List UInt64} {anchor : State H}
    {r : Except (StoreError H) Unit} (h : LiveBacked s)
    (hi : importFirst host commits sb true ids s = .ok (r, t))
    (hwhole : ¬Incident.Torn host (s, .crash commits sb ids anchor)) : LiveBacked t := by
  rcases importFirst_eq_ok hi hwhole with hs | ⟨post, -, hstates, hlive⟩
  · intro slot r p hp
    rw [hs.states]
    exact h slot r p (hs.live _ p hp)
  · unfold LiveBacked
    rw [hstates, hlive]
    exact h.recordBlock

/-- What a restart leaves in the tables. -/
theorem reopen_eq_ok {st : State H} {body : Option (BlockBody H)} (h : reopen host s st body = .ok t) :
    t.states = s.states.insert (Store.anchor host st).2 (Store.anchor host st).1 ∧
    t.liveChain = s.liveChain.insert (st.latestBlockHeader.slot, (Store.anchor host st).2)
      st.latestBlockHeader.parentRoot ∧
    t.latestJustified = ⟨(Store.anchor host st).2, st.latestBlockHeader.slot⟩ ∧
    t.head = (Store.anchor host st).2 := by
  unfold reopen at h
  dsimp only at h
  split at h
  · obtain rfl := Except.ok.inj h
    exact ⟨rfl, rfl, rfl, rfl⟩
  · exact nomatch h

theorem LiveBacked.reopen {st : State H} {body : Option (BlockBody H)} (h : LiveBacked s)
    (hr : reopen host s st body = .ok t) : LiveBacked t := by
  obtain ⟨hstates, hlive, -⟩ := reopen_eq_ok hr
  intro slot r p hp
  rw [hlive, Table.lookup_insert_eq_ite] at hp
  rw [hstates, Table.lookup_insert_eq_ite]
  split
  · exact ⟨_, rfl⟩
  · rename_i hne
    rw [if_neg fun heq ↦ hne (Prod.mk.inj heq).2] at hp
    exact h slot r p hp

theorem LiveBacked.pruneOldData (h : LiveBacked s)
    (hkeep : (s.pruneOldData host).states = s.states) : LiveBacked (s.pruneOldData host) := by
  intro slot r p hp
  rw [hkeep]
  exact h slot r p hp

theorem liveBacked_step {i : Incident H} (h : LiveBacked s) (hwhole : Incident.Whole host (s, i))
    (hs : Incident.step host s i = .ok s') : LiveBacked s' := by
  cases i with
  | call c =>
    exact Call.step_keeps (liveBacked_invariant host).steady
      (fun hc h ↦ h.pruneOldData (hwhole.1 c rfl hc)) h hs
  | crash commits sb ids anchor =>
    unfold Incident.step at hs
    dsimp only at hs
    split at hs
    · rename_i r t heq
      exact (h.importFirst heq hwhole.2).reopen hs
    · exact nomatch hs

end Backed

section Rooted

variable {host : Host H} {s s' t : Store H} {sb : SignedBlockWithAttestation H} {post : State H}
  {base base' : ℕ}

/-- Every stored state belongs where it lies, and the blocks of its history from slot `base` on have
states too. -/
structure Rooted (host : Host H) (base : ℕ) (states : Table H (State H)) : Prop where
  stored : ∀ r st, states.lookup r = some st → Stored host r st
  ancestors : ∀ r st i x, states.lookup r = some st →
    st.historicalBlockHashes.toList[i]? = some x → x ≠ 0 → base ≤ i →
    ∃ st', states.lookup x = some st'

theorem Rooted.insert {states : Table H (State H)} {r : H} {st : State H}
    (h : Rooted host base states) (hst : Stored host r st)
    (hhist : ∀ i x, st.historicalBlockHashes.toList[i]? = some x → x ≠ 0 → base ≤ i →
      ∃ st', states.lookup x = some st') : Rooted host base (states.insert r st) := by
  constructor
  case stored =>
    intro x sx hx
    rw [Table.lookup_insert_eq_ite] at hx
    split at hx
    · rename_i heq
      rw [heq, ← Option.some.inj hx]
      exact hst
    · exact h.stored x sx hx
  case ancestors =>
    intro x sx i y hx hy hne hle
    rw [Table.lookup_insert_eq_ite] at hx
    apply exists_lookup_insert
    split at hx
    · rw [← Option.some.inj hx] at hy
      exact hhist i y hy hne hle
    · exact h.ancestors x sx i y hx hy hne hle

theorem Rooted.recordBlock (hh : HashSound host) (h : Rooted host base s.states) {verify : Bool}
    (hpost : postState host s sb verify = .ok post) :
    Rooted host base (recordBlock host sb post s).states := by
  obtain ⟨parent, st, hparent, -, hst, rfl⟩ := postState_eq_ok hpost
  obtain ⟨hstored, -, -, hhist⟩ := (h.stored _ parent hparent).transition hh hst
  have hstates : (Chain.recordBlock host sb (withStateRoot st sb.message.block.stateRoot) s).states =
      s.states.insert (host.block sb.message.block)
        (withStateRoot st sb.message.block.stateRoot) := by
    rw [← (adopted host s _).states]
    rfl
  rw [hstates]
  refine h.insert hstored fun i x hi hx hle ↦ ?_
  rw [show (withStateRoot st sb.message.block.stateRoot).historicalBlockHashes.toList =
    st.historicalBlockHashes.toList from rfl, hhist] at hi
  rcases appended_getElem? hi with hi | ⟨-, rfl⟩ | ⟨-, rfl⟩
  · exact h.ancestors _ parent i x hparent hi hx hle
  · exact ⟨parent, hparent⟩
  · exact absurd rfl hx

/-- A store whose fork choice starts at a block with a state and comes out at one. -/
structure Led (host : Host H) (base : ℕ) (s : Store H) : Prop where
  rooted : Rooted host base s.states
  backed : LiveBacked s
  justified_le : base ≤ s.latestJustified.slot.toNat
  justified : ∃ st, s.states.lookup s.latestJustified.root = some st

theorem lookup_liveChain_of_getLiveChain {slot : UInt64} {r p : H}
    (h : (s.getLiveChain host).lookup r = some (slot, p)) :
    s.liveChain.lookup (slot, r) = some p := by
  rcases Table.lookup_putBatch_cases h with hmem | hempty
  · obtain ⟨⟨⟨slot', r'⟩, p'⟩, he, heq⟩ := List.mem_map.mp hmem
    simp only [Prod.mk.injEq] at heq
    obtain ⟨rfl, rfl, rfl⟩ := heq
    exact Table.mem_pairs.mp ((host.order_perm _).mem_iff.mp he)
  · exact nomatch hempty

theorem Led.computeLmdGhostHead {ε : Type} (hh : HashSound host) (h : Led host base s)
    {votes : Table UInt64 (AttestationData H)} {minScore : ℕ} {r : H × Weights H}
    (hr : (ForkChoice.computeLmdGhostHead host s.latestJustified.root (s.getLiveChain host) votes
      minScore : Exec ε (H × Weights H)) = .ok r) : ∃ st, s.states.lookup r.1 = some st := by
  obtain ⟨st, hst⟩ := h.justified
  have hne : s.latestJustified.root ≠ 0 := by
    rw [← (h.rooted.stored _ st hst).root_eq]
    exact hh.collisionFree.header_ne_zero _
  cases hstart : (s.getLiveChain host).lookup s.latestJustified.root with
  | none =>
    rw [computeLmdGhostHead_unseen hstart hne] at hr
    rw [← Except.ok.inj hr]
    exact ⟨st, hst⟩
  | some e =>
    obtain ⟨⟨slot, p⟩, he⟩ := computeLmdGhostHead_mem ⟨e, hstart⟩ hne hr
    exact h.backed slot r.1 p (lookup_liveChain_of_getLiveChain he)

theorem led_invariant (hh : HashSound host) (base : ℕ) : TableInvariant host (Led host base) where
  congr := by
    intro s s' h hs hb hl hj hf
    have hbacked := (liveBacked_invariant host).congr h.backed hs hb hl hj hf
    refine ⟨?_, hbacked, ?_, ?_⟩
    · rw [hs]
      exact h.rooted
    · rw [hj]
      exact h.justified_le
    · rw [hs, hj]
      exact h.justified
  record := by
    intro s sb verify post h hpost
    have hrooted := h.rooted.recordBlock hh hpost
    have hle := h.justified_le
    have hjustified : (recordBlock host sb post s).latestJustified =
        (adoptCheckpoints host s post).latestJustified := writeBlock_justified
    suffices hled : base ≤ (recordBlock host sb post s).latestJustified.slot.toNat ∧
        ∃ st, (recordBlock host sb post s).states.lookup
          (recordBlock host sb post s).latestJustified.root = some st from
      ⟨hrooted, h.backed.recordBlock, hled.1, hled.2⟩
    rw [hjustified, (adopted host s post).justified]
    by_cases hlt : s.latestJustified.slot < post.latestJustified.slot
    · rw [if_pos hlt]
      have hbase : base ≤ post.latestJustified.slot.toNat := by
        rw [UInt64.lt_iff_toNat_lt] at hlt
        omega
      refine ⟨hbase, ?_⟩
      obtain ⟨parent, st, hparent, -, hst, rfl⟩ := postState_eq_ok hpost
      obtain ⟨hstored, -, hpos, -⟩ := (h.rooted.stored _ parent hparent).transition hh hst
      have hal := hstored.wellformed.aligned
      have hself : (recordBlock host sb (withStateRoot st sb.message.block.stateRoot)
          s).states.lookup (host.block sb.message.block) =
          some (withStateRoot st sb.message.block.stateRoot) := by
        rw [lookup_recordBlock_states, if_pos rfl]
      refine hrooted.ancestors _ _ _ _ hself (hal.justified_root hpos) ?_ hbase
      refine (hstored.named ?_).1
      rw [← List.length_pos_iff, hal.history_length]
      exact hpos
    · rw [if_neg hlt]
      refine ⟨hle, ?_⟩
      rw [lookup_recordBlock_states]
      split
      · exact ⟨post, rfl⟩
      · exact h.justified
  pending := fun _ h ↦ ⟨h.rooted, h.backed, h.justified_le, h.justified⟩

theorem Led.pruneOldData (h : Led host base s) (hkeep : (s.pruneOldData host).states = s.states) :
    Led host base (s.pruneOldData host) := by
  refine ⟨?_, h.backed.pruneOldData hkeep, h.justified_le, ?_⟩
  · rw [hkeep]
    exact h.rooted
  · rw [hkeep]
    exact h.justified

theorem Rooted.importFirst (hh : HashSound host) (h : Rooted host base s.states) {commits : ℕ}
    {ids : List UInt64} {anchor : State H} {r : Except (StoreError H) Unit}
    (hi : importFirst host commits sb true ids s = .ok (r, t))
    (hwhole : ¬Incident.Torn host (s, .crash commits sb ids anchor)) :
    Rooted host base t.states := by
  rcases importFirst_eq_ok hi hwhole with hs | ⟨post, hpost, hstates, -⟩
  · rw [hs.states]
    exact h
  · rw [hstates]
    exact h.recordBlock hh hpost

/-- A restart from an anchor that is not older than the data. -/
theorem Rooted.reopen (hh : HashSound host) (h : Rooted host base s.states) (hb : LiveBacked s)
    {st : State H} (hst : Anchor host st) (hle : base ≤ st.latestBlockHeader.slot.toNat)
    {body : Option (BlockBody H)} (hr : Chain.reopen host s st body = .ok t) :
    Led host st.latestBlockHeader.slot.toNat t := by
  obtain ⟨hstates, -, hjustified, -⟩ := reopen_eq_ok hr
  have hlen := (hst.sound hh).1.aligned.history_length
  have hrooted : Rooted host st.latestBlockHeader.slot.toNat s.states :=
    ⟨h.stored, fun r sr i x hr hx hne hi ↦ h.ancestors r sr i x hr hx hne (hle.trans hi)⟩
  refine ⟨?_, hb.reopen hr, ?_, ?_⟩
  · rw [hstates]
    refine hrooted.insert (stored_anchor hh hst) fun i x hx _ hi ↦ ?_
    have hlt : i < st.historicalBlockHashes.toList.length := (List.getElem?_eq_some_iff.mp hx).1
    omega
  · rw [hjustified]
  · rw [hstates, hjustified]
    exact ⟨_, AList.lookup_insert _⟩

/-- Restarts use anchors of the chain, none older than the one before. -/
def Rising (host : Host H) : UInt64 → List (Incident H) → Prop
  | _, [] => True
  | slot, .call _ :: is => Rising host slot is
  | slot, .crash _ _ _ anchor :: is => Anchor host anchor ∧ slot ≤ anchor.latestBlockHeader.slot ∧
      Rising host anchor.latestBlockHeader.slot is

theorem led_run (hh : HashSound host) {slot : UInt64} {is : List (Incident H)}
    (h : Led host slot.toNat s) (hrising : Rising host slot is)
    (hwhole : ∀ p ∈ Runs.trace (Incident.step host) s is, Incident.Whole host p)
    (hrun : Incident.run host s is = .ok s') : ∃ base, Led host base s' := by
  induction is generalizing s slot with
  | nil =>
    obtain rfl := Except.ok.inj hrun
    exact ⟨_, h⟩
  | cons i is ih =>
    obtain ⟨t, ht, htail⟩ := Runs.run_cons_eq_ok.mp hrun
    have hhead : Incident.Whole host (s, i) := hwhole (s, i) (by simp [Runs.trace])
    have hrest (p) (hp : p ∈ Runs.trace (Incident.step host) t is) : Incident.Whole host p :=
      hwhole p (by simp [Runs.trace, ht, hp])
    cases i with
    | call c =>
      have hsteady := (led_invariant hh slot.toNat).steady
      refine ih (Call.step_keeps hsteady (fun hc h ↦ ?_) h ht) hrising hrest htail
      exact h.pruneOldData (hhead.1 c rfl hc)
    | crash commits sb ids anchor =>
      obtain ⟨hanchor, hle, hrising⟩ := hrising
      unfold Incident.step at ht
      dsimp only at ht
      split at ht
      · rename_i r u heq
        refine ih ?_ hrising hrest htail
        exact (h.rooted.importFirst hh heq hhead.2).reopen hh (h.backed.importFirst heq hhead.2)
          hanchor (UInt64.le_iff_toNat_le.mp hle) ht
      · cases ht

end Rooted

/-- Wherever crashes cut an import, except between a block and its state, no restart finds a live
block without a state. While restarts do not go back to older anchors, fork choice then never comes
out at a block without one. -/
theorem live_blocks_have_states {host : Host H} {s₀ s : Store H} {anchor : State H}
    {body : Option (BlockBody H)} {incidents : List (Incident H)} {ε : Type}
    (h₀ : Store.initStore host anchor body = .ok s₀)
    (hwhole : ∀ p ∈ Runs.trace (Incident.step host) s₀ incidents, Incident.Whole host p)
    (hrun : Incident.run host s₀ incidents = .ok s) :
    (∀ slot r p, s.liveChain.lookup (slot, r) = some p → ∃ st, s.states.lookup r = some st) ∧
    (HashSound host → Anchor host anchor → Rising host anchor.latestBlockHeader.slot incidents →
      ∀ (r : Except ε Unit) s', updateHead host s = .ok (r, s') →
        ∃ st, s'.states.lookup s'.head = some st) := by
  have hopen := (reopen_empty host s₀ anchor body).trans h₀
  have hlive : LiveBacked { s₀ with
      blockHeaders := ∅, blockBodies := ∅, blockSignatures := ∅, states := ∅,
      gossipSignatures := ∅, attestationDataByRoot := ∅, liveChain := ∅ } := by
    intro slot r p hp
    simp at hp
  constructor
  · exact Runs.run_invariant_of_trace (fun _ _ _ h hw hs ↦ liveBacked_step h hw hs)
      (hlive.reopen hopen) hwhole hrun
  · intro hh hanchor hrising r s' hr
    have hrooted : Rooted host 0 ∅ := by
      constructor
      · intro r st hst
        simp at hst
      · intro r st i x hst
        simp at hst
    have hled := hrooted.reopen hh hlive hanchor (Nat.zero_le _) hopen
    obtain ⟨base, h⟩ := led_run hh hled hrising hwhole hrun
    obtain ⟨g, hg, rfl⟩ := updateHead_eq_ok hr
    exact h.computeLmdGhostHead hh hg

section Sample

/-- The import of the first block is cut before its first commit, then after its last one. -/
def wholeCrashes : List (Incident ℕ) :=
  [.crash 0 sampleFirst [0] sampleGenesis, .crash 9 sampleFirst [0] sampleGenesis,
    .call (.onTick 3200 false false)]

theorem not_torn_of_mem_wholeCrashes {p : Store ℕ × Incident ℕ} (h : p.2 ∈ wholeCrashes) :
    ¬Incident.Torn sampleHost p := by
  rintro ⟨commits, sb, ids, anchor, post, hp, -, -, hcommits⟩
  have hlen : (importCommits sampleHost sb true ids p.1 post).length ≤ 9 := length_importCommits_le
  simp only [importCommits, List.length_append, List.length_map, blockCommits, List.length_cons,
    List.length_nil] at hlen
  rw [hp] at h
  simp only [wholeCrashes, List.mem_cons, Incident.crash.injEq, reduceCtorEq, List.not_mem_nil,
    or_false] at h
  omega

theorem live_blocks_have_states_sample :
    ∃ s, Incident.run sampleHost sampleStore wholeCrashes = .ok s ∧
      s.liveChain.lookup (1, sampleHash.block Sample.first) = some (sampleHash.block sampleOrigin) ∧
      (∃ st, s.states.lookup (sampleHash.block Sample.first) = some st) ∧
      ∃ st, s.states.lookup s.head = some st := by
  have hview : (Incident.run sampleHost sampleStore wholeCrashes).toOption.bind (fun s ↦
      ((updateHead sampleHost : Op (Store ℕ) Empty Unit) s).toOption.map fun q ↦
      decide (s.liveChain.lookup (1, sampleHash.block Sample.first) =
        some (sampleHash.block sampleOrigin) ∧ q.2.head = s.head)) = some true := by decide +kernel
  obtain ⟨s, hs, hview⟩ := Option.bind_eq_some_iff.mp hview
  obtain ⟨⟨r, s'⟩, hs', hview⟩ := Option.map_eq_some_iff.mp hview
  obtain ⟨hlive, hhead⟩ := of_decide_eq_true hview
  have hrun := Exec.eq_ok_of_toOption hs
  have hupdate := Exec.eq_ok_of_toOption hs'
  have hwhole (p) (hp : p ∈ Runs.trace (Incident.step sampleHost) sampleStore wholeCrashes) :
      Incident.Whole sampleHost p := by
    have hmem := Runs.mem_of_mem_trace hp
    refine ⟨fun c hc hprune ↦ ?_, not_torn_of_mem_wholeCrashes hmem⟩
    obtain rfl : c = .pruneOldData := hprune
    rw [hc] at hmem
    simp [wholeCrashes] at hmem
  obtain ⟨hbacked, hled⟩ := live_blocks_have_states (ε := Empty) sampleStore_eq hwhole hrun
  refine ⟨s, hrun, hlive, hbacked _ _ _ hlive, ?_⟩
  have hanchor : Anchor sampleHost sampleGenesis := anchor_genesis sampleGenesis_eq
  have hle := UInt64.le_refl sampleGenesis.latestBlockHeader.slot
  obtain ⟨st, hst⟩ := hled sampleHost_hashSound hanchor ⟨hanchor, hle, hanchor, hle, trivial⟩ r s'
    hupdate
  obtain ⟨g, -, rfl⟩ := updateHead_eq_ok hupdate
  have hsame : g.1 = s.head := hhead
  exact ⟨st, hsame ▸ hst⟩

/-- The import of the first block is cut between its two commits. After the restart the block is
live, the next tick makes it the head, and the head has no state. -/
theorem head_without_state :
    ∃ s s', Store.initStore sampleHost sampleGenesis none = .ok sampleStore ∧
      Incident.run sampleHost sampleStore [.crash 1 sampleFirst [0] sampleGenesis] = .ok s ∧
      s.liveChain.lookup (1, sampleHash.block Sample.first) = some (sampleHash.block sampleOrigin) ∧
      s.states.lookup (sampleHash.block Sample.first) = none ∧
      Incident.run sampleHost s [.call (.onTick 3200 false false)] = .ok s' ∧
      s'.head = sampleHash.block Sample.first ∧
      (s'.headState : Exec Empty (State ℕ)) =
        Exec.panic (.expect "head state is always available") := by
  have hview : ((Incident.run sampleHost sampleStore
      [.crash 1 sampleFirst [0] sampleGenesis]).toOption.bind fun s ↦
      (Incident.run sampleHost s [.call (.onTick 3200 false false)]).toOption.map fun s' ↦
      decide (s.liveChain.lookup (1, sampleHash.block Sample.first) =
          some (sampleHash.block sampleOrigin) ∧
        s.states.lookup (sampleHash.block Sample.first) = none ∧
        s'.head = sampleHash.block Sample.first ∧ s'.states.lookup s'.head = none)) =
      some true := by decide +kernel
  obtain ⟨s, hs, hview⟩ := Option.bind_eq_some_iff.mp hview
  obtain ⟨s', hs', hview⟩ := Option.map_eq_some_iff.mp hview
  obtain ⟨hlive, hstate, hhead, hnone⟩ := of_decide_eq_true hview
  refine ⟨s, s', sampleStore_eq, Exec.eq_ok_of_toOption hs, hlive, hstate,
    Exec.eq_ok_of_toOption hs', hhead, ?_⟩
  rw [Store.headState, Store.getState, hnone]
  rfl

end Sample

end Ethlambda.Chain
