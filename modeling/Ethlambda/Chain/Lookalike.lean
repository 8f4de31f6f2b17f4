import Ethlambda.Chain.Tracking

namespace Ethlambda.Chain

open Ethlambda.Base Ethlambda.Types Ethlambda.Storage Ethlambda.StateTransition

set_option linter.unusedSectionVars false

variable {H : Type} [LinearOrder H] [Zero H] {host : Host H} {s₀ : Store H}
  {blocks : List (SignedBlockWithAttestation H)} {server server' : Server host}
  {sb : SignedBlockWithAttestation H} {r : H} {st : State H}

/-- A block that is not lost: it has its state, or a valid copy of it is in the queue, or one is
stored and waits for a parent that has no state yet. -/
def Held (host : Host H) (s₀ : Store H) (blocks : List (SignedBlockWithAttestation H))
    (server : Server host) (queue : List (SignedBlockWithAttestation H)) (r : H) : Prop :=
  (∃ st, server.store.states.lookup r = some st) ∨
    (∃ x ∈ queue, host.block x.message.block = r ∧ Valid host s₀ blocks x) ∨
    ∃ x, server.store.getSignedBlock host r = some x ∧ Valid host s₀ blocks x ∧
      Waits server x.message.block.parentRoot r ∧
      server.store.states.lookup x.message.block.parentRoot = none

section Held

variable {roots : List H} {queue more : List (SignedBlockWithAttestation H)}

theorem Held.pended (hbody : Function.Injective host.body)
    (hvalid : host.block sb.message.block = r → Valid host s₀ blocks sb)
    (h : Held host s₀ blocks server (sb :: queue) r) {waiting : Server host}
    (hparent : server.store.states.lookup sb.message.block.parentRoot = none)
    (hstore : waiting.store = server.store.insertPendingBlock host (host.block sb.message.block) sb)
    (hwaits : ∀ p c, Waits waiting p c ↔ Waits server p c ∨
      p = sb.message.block.parentRoot ∧ c = host.block sb.message.block)
    (hclimb : Climbed waiting more server') : Held host s₀ blocks server' (queue ++ more) r := by
  have hstates : server'.store.states = server.store.states := by
    rw [hclimb.store, hstore]
    rfl
  have hget (r : H) : server'.store.getSignedBlock host r =
      if r = host.block sb.message.block then some sb else server.store.getSignedBlock host r := by
    rw [hclimb.store, hstore]
    exact getSignedBlock_writeSignedBlock hbody sb _ r
  have hown (hr : host.block sb.message.block = r) : Held host s₀ blocks server' (queue ++ more) r := by
    refine .inr (.inr ⟨sb, ?_, hvalid hr, ?_, ?_⟩)
    · rw [hget, if_pos hr.symm]
    · exact hclimb.waits _ _ ((hwaits _ _).mpr (.inr ⟨rfl, hr.symm⟩))
    · rw [hstates]
      exact hparent
  rcases h with ⟨st, hst⟩ | ⟨x, hx, hr, hx'⟩ | ⟨x, hx, hx', hw, hnone⟩
  · exact .inl ⟨st, by rw [hstates, hst]⟩
  · rcases List.mem_cons.mp hx with rfl | hx
    · exact hown hr
    · exact .inr (.inl ⟨x, List.mem_append_left more hx, hr, hx'⟩)
  · by_cases hr : host.block sb.message.block = r
    · exact hown hr
    · refine .inr (.inr ⟨x, ?_, hx', hclimb.waits _ _ ((hwaits _ _).mpr (.inl hw)), ?_⟩)
      · rw [hget, if_neg fun heq ↦ hr heq.symm, hx]
      · rw [hstates, hnone]

theorem Held.known (h : Held host s₀ blocks server (sb :: queue) r)
    (hst : server.store.states.lookup (host.block sb.message.block) = some st)
    (hmore : Collected server (host.block sb.message.block) more server') :
    Held host s₀ blocks server' (queue ++ more) r := by
  have hstore := hmore.store
  rcases h with ⟨st', hst'⟩ | ⟨x, hx, hr, hx'⟩ | ⟨x, hx, hx', hw, hnone⟩
  · exact .inl ⟨st', by rw [hstore, hst']⟩
  · rcases List.mem_cons.mp hx with rfl | hx
    · exact .inl ⟨st, by rw [hstore, ← hr, hst]⟩
    · exact .inr (.inl ⟨x, List.mem_append_left more hx, hr, hx'⟩)
  · refine .inr (.inr ⟨x, by rw [hstore, hx], hx', (hmore.waits _ _).mpr ⟨?_, hw⟩, by rw [hstore, hnone]⟩)
    intro heq
    rw [heq] at hnone
    exact nomatch hnone.symm.trans hst

/-- The children of a block that was just imported go to the queue as they were stored. -/
theorem Held.imported (hbody : Function.Injective host.body)
    (ht : Tracking host s₀ blocks roots server queue)
    (h : Held host s₀ blocks server (sb :: queue) r) {post : State H} {head : H} {s' : Store H}
    (hst : server.store.states.lookup (host.block sb.message.block) = none)
    (hframe : Frame { recordBlock host sb post server.store with head := head } s')
    (hmore : Collected { server with store := s' } (host.block sb.message.block) more server') :
    Held host s₀ blocks server' (queue ++ more) r := by
  have hstates (r : H) : server'.store.states.lookup r =
      if r = host.block sb.message.block then some post else server.store.states.lookup r := by
    rw [hmore.store]
    exact lookup_states_of_import hframe r
  have hget := getSignedBlock_of_import hbody hframe
  have hnew (hr : host.block sb.message.block = r) : Held host s₀ blocks server' (queue ++ more) r :=
    .inl ⟨post, by rw [hstates, if_pos hr.symm]⟩
  rcases h with ⟨st', hst'⟩ | ⟨x, hx, hr, hx'⟩ | ⟨x, hx, hx', hw, hnone⟩
  · refine .inl ⟨st', ?_⟩
    rw [hstates, if_neg]
    · exact hst'
    · rintro rfl
      exact nomatch hst.symm.trans hst'
  · rcases List.mem_cons.mp hx with rfl | hx
    · exact hnew hr
    · exact .inr (.inl ⟨x, List.mem_append_left more hx, hr, hx'⟩)
  · by_cases hr : host.block sb.message.block = r
    · exact hnew hr
    · have hload : s'.getSignedBlock host r = some x := by
        rw [hget, if_neg fun heq ↦ hr heq.symm, hx]
      by_cases hp : x.message.block.parentRoot = host.block sb.message.block
      · refine .inr (.inl ⟨x, List.mem_append_right queue ?_, ht.loads r x hx, hx'⟩)
        refine (hmore.mem x).mpr ⟨r, ?_, hload⟩
        rw [hp] at hw
        exact hw
      · refine .inr (.inr ⟨x, ?_, hx', (hmore.waits _ _).mpr ⟨hp, hw⟩, ?_⟩)
        · rw [hmore.store]
          exact hload
        · rw [hstates, if_neg hp, hnone]

theorem Held.turn (hbody : Function.Injective host.body)
    (ht : Tracking host s₀ blocks roots server queue)
    (hvalid : server.store.states.lookup sb.message.block.parentRoot = none →
      host.block sb.message.block = r → Valid host s₀ blocks sb)
    (h : Held host s₀ blocks server (sb :: queue) r) (hturn : Turn server sb more server') :
    Held host s₀ blocks server' (queue ++ more) r := by
  cases hturn with
  | pended hparent hstore hwaits hclimb =>
    exact h.pended hbody (hvalid hparent) hparent hstore hwaits hclimb
  | passed hparent hhandled hmore =>
    cases hhandled with
    | known hst => exact h.known hst hmore
    | imported hst hpost hframe => exact h.imported hbody ht hst hframe hmore
  | rejected hparent he =>
    rw [List.append_nil]
    rcases h with hst | ⟨x, hx, hr, hx'⟩ | hw
    · exact .inl hst
    · rcases List.mem_cons.mp hx with rfl | hx
      · obtain ⟨post, hpost⟩ := hx'.postState ht hparent
        exact nomatch he.symm.trans hpost
      · exact .inr (.inl ⟨x, hx, hr, hx'⟩)
    · exact .inr (.inr hw)

/-- If no block of the list is lost, all of them have a state: along the chain each finds the state
of its parent. -/
theorem Tracking.states_of_held (hh : HashSound host) (hbody : Function.Injective host.body)
    (ht : Tracking host s₀ blocks roots server [])
    (h : ∀ sb ∈ blocks, Held host s₀ blocks server [] (host.block sb.message.block))
    (hderived : Derived host s₀ blocks r st) : ∃ st', server.store.states.lookup r = some st' := by
  induction hderived with
  | anchor h₀ => exact ⟨_, ht.anchor _ _ h₀⟩
  | @block sb parent st hmem hparent hverify hst ih =>
    rcases h sb hmem with hstate | ⟨x, hx, -⟩ | ⟨x, hx, -, -, hnone⟩
    · exact hstate
    · exact absurd hx List.not_mem_nil
    · have hblock := hh.block_injective hbody (ht.loads _ x hx)
      obtain ⟨parent', hparent'⟩ := ih
      rw [hblock, hparent'] at hnone
      exact nomatch hnone

theorem Valid.derived (h : Valid host s₀ blocks sb) (hmem : sb ∈ blocks) :
    ∃ st, Derived host s₀ blocks (host.block sb.message.block) st := by
  obtain ⟨parent, st, hparent, hverify, hst⟩ := h
  exact ⟨_, .block hmem hparent hverify hst⟩

end Held

/-- A block that can not come to a state with what the server has of it. -/
structure Lost (host : Host H) (s₀ : Store H) (blocks : List (SignedBlockWithAttestation H))
    (server : Server host) (queue : List (SignedBlockWithAttestation H)) (r : H) : Prop where
  state : server.store.states.lookup r = none
  stored : ∀ x, server.store.getSignedBlock host r = some x → ¬Valid host s₀ blocks x
  queued : ∀ x ∈ queue, host.block x.message.block = r → ¬Valid host s₀ blocks x

section Lost

variable {roots : List H} {queue more : List (SignedBlockWithAttestation H)}

/-- A block that is imported under the root of a valid one is itself valid. -/
theorem Tracking.valid_of_postState (hh : HashSound host) (hbody : Function.Injective host.body)
    (ht : Tracking host s₀ blocks roots server queue) {c : SignedBlockWithAttestation H}
    (hc : Valid host s₀ blocks c) (hroot : host.block sb.message.block = host.block c.message.block)
    {post : State H} (hpost : postState host server.store sb true = .ok post) :
    Valid host s₀ blocks sb := by
  obtain ⟨parent, st, hparent, hverify, hst, -⟩ := postState_eq_ok hpost
  obtain ⟨parent', -, hderived, -⟩ := hc
  rw [← hh.block_injective hbody hroot] at hderived
  obtain rfl := ht.agrees _ _ _ hparent hderived
  exact ⟨parent', st, hderived, hverify rfl, hst⟩

/-- What comes back from a turn was read from the tables that the turn left. -/
theorem Turn.loaded (hturn : Turn server sb more server') {x : SignedBlockWithAttestation H}
    (hx : x ∈ more) : ∃ r, server'.store.getSignedBlock host r = some x := by
  cases hturn with
  | pended hparent hstore hwaits hclimb =>
    obtain ⟨r, hdr, st, -, hget, -⟩ := hclimb.ready x hx
    exact ⟨r, by rw [hclimb.store, hget]⟩
  | passed hparent hhandled hmore =>
    obtain ⟨r, -, hget⟩ := (hmore.mem x).mp hx
    exact ⟨r, by rw [hmore.store]; exact hget⟩
  | rejected hparent he => exact absurd hx List.not_mem_nil

/-- A block stays lost, and it gets lost when whatever valid copy is stored is written over. -/
theorem lost_of_turn (hh : HashSound host) (hbody : Function.Injective host.body)
    {c : SignedBlockWithAttestation H} (hc : Valid host s₀ blocks c)
    (ht : Tracking host s₀ blocks roots server queue) (hroot : host.block sb.message.block ∈ roots)
    (hstate : server.store.states.lookup (host.block c.message.block) = none)
    (hstored : ∀ x, server.store.getSignedBlock host (host.block c.message.block) = some x →
      Valid host s₀ blocks x → host.block sb.message.block = host.block c.message.block ∧
        server.store.states.lookup sb.message.block.parentRoot = none)
    (hqueued : ∀ x ∈ sb :: queue, host.block x.message.block = host.block c.message.block →
      ¬Valid host s₀ blocks x) (hturn : Turn server sb more server') :
    Lost host s₀ blocks server' (queue ++ more) (host.block c.message.block) := by
  have hkept (hparent : ∃ st, server.store.states.lookup sb.message.block.parentRoot = some st)
      (x : SignedBlockWithAttestation H)
      (hx : server.store.getSignedBlock host (host.block c.message.block) = some x) :
      ¬Valid host s₀ blocks x := by
    intro hvalid
    obtain ⟨st, hst⟩ := hparent
    exact nomatch (hstored x hx hvalid).2.symm.trans hst
  have hwritten {x : SignedBlockWithAttestation H}
      (hx : (if host.block c.message.block = host.block sb.message.block then some sb
        else server.store.getSignedBlock host (host.block c.message.block)) = some x) :
      ¬Valid host s₀ blocks x := by
    split at hx
    · rename_i heq
      obtain rfl := Option.some.inj hx
      exact hqueued sb List.mem_cons_self heq.symm
    · rename_i hne
      exact fun hvalid ↦ hne (hstored x hx hvalid).1.symm
  have hstore : server'.store.states.lookup (host.block c.message.block) = none ∧
      ∀ x, server'.store.getSignedBlock host (host.block c.message.block) = some x →
        ¬Valid host s₀ blocks x := by
    cases hturn with
    | pended hparent hstore hwaits hclimb =>
      rw [hclimb.store, hstore]
      refine ⟨hstate, fun x hx ↦ ?_⟩
      rw [Store.insertPendingBlock, getSignedBlock_writeSignedBlock hbody] at hx
      exact hwritten hx
    | passed hparent hhandled hmore =>
      rw [hmore.store]
      cases hhandled with
      | known hst => exact ⟨hstate, hkept hparent⟩
      | @imported post head s' hst hpost hframe =>
        refine ⟨?_, fun x hx ↦ ?_⟩
        · refine (lookup_states_of_import hframe _).trans ?_
          rw [if_neg, hstate]
          intro heq
          exact hqueued sb List.mem_cons_self heq.symm
            (ht.valid_of_postState hh hbody hc heq.symm hpost)
        · exact hwritten ((getSignedBlock_of_import hbody hframe _).symm.trans hx)
    | rejected hparent he => exact ⟨hstate, hkept hparent⟩
  refine ⟨hstore.1, hstore.2, fun x hx hr ↦ ?_⟩
  rcases List.mem_append.mp hx with hx | hx
  · exact hqueued x (List.mem_cons_of_mem sb hx) hr
  · obtain ⟨r, hget⟩ := hturn.loaded hx
    have hload := (ht.turn hh hbody hroot hturn).loads r x hget
    exact hstore.2 x (by rw [← hr, hload, hget])

end Lost

/-- The delivery of a signed block that is not valid under the root `r`, at a time when the parent
has no state: it takes the place of whatever is stored under that root. -/
def Displaces (host : Host H) (s₀ : Store H) (blocks : List (SignedBlockWithAttestation H)) (r : H)
    (p : Server host × ℕ × SignedBlockWithAttestation H) : Prop :=
  host.block p.2.2.message.block = r ∧ ¬Valid host s₀ blocks p.2.2 ∧
    p.1.store.states.lookup p.2.2.message.block.parentRoot = none

/-- At some time in the run a valid block with the root `r` is delivered, and from then on nothing
displaces it. -/
def Survives (host : Host H) (s₀ : Store H) (blocks : List (SignedBlockWithAttestation H))
    (server : Server host) (ds : List (ℕ × SignedBlockWithAttestation H)) (r : H) : Prop :=
  ∃ pre d post, ds = pre ++ d :: post ∧ host.block d.2.message.block = r ∧
    Valid host s₀ blocks d.2 ∧
    ∀ mid, Runs.run (Server.deliver host) server pre = .ok mid →
      ∀ p ∈ Runs.trace (Server.deliver host) mid (d :: post), ¬Displaces host s₀ blocks r p

section Runs

variable {roots : List H} {ds : List (ℕ × SignedBlockWithAttestation H)}

theorem Held.deliver {d : ℕ × SignedBlockWithAttestation H} (hh : HashSound host)
    (hbody : Function.Injective host.body) (hfew : roots.length ≤ statesToKeep)
    (ht : Tracking host s₀ blocks roots server []) (hroot : host.block d.2.message.block ∈ roots)
    (hkeep : ¬Displaces host s₀ blocks r (server, d))
    (h : Held host s₀ blocks server [d.2] r) (hs : Server.deliver host server d = .ok server') :
    Held host s₀ blocks server' [] r := by
  refine (ht.deliver (P := fun server queue ↦ Held host s₀ blocks server queue r) hh hbody ?_
    hfew hroot (fun hturn ↦ h.turn hbody ht (fun hnone hr ↦ ?_) hturn) hs).2
  · intro server server' sb queue more ht h hturn
    refine h.turn hbody ht.tail (fun hnone _ ↦ ?_) hturn
    obtain ⟨-, st, hst⟩ := ht.ready sb List.mem_cons_self
    exact nomatch hnone.symm.trans hst
  · by_contra hvalid
    exact hkeep ⟨hr, hvalid, hnone⟩

theorem Held.cons (h : Held host s₀ blocks server [] r) (sb : SignedBlockWithAttestation H) :
    Held host s₀ blocks server [sb] r := by
  rcases h with h | ⟨x, hx, -⟩ | h
  · exact .inl h
  · exact absurd hx List.not_mem_nil
  · exact .inr (.inr h)

theorem Survives.held (hh : HashSound host) (hbody : Function.Injective host.body)
    (hfew : roots.length ≤ statesToKeep) (ht : Tracking host s₀ blocks roots server [])
    (hroots : ∀ d ∈ ds, host.block d.2.message.block ∈ roots)
    (h : Survives host s₀ blocks server ds r)
    (hrun : Runs.run (Server.deliver host) server ds = .ok server') :
    Held host s₀ blocks server' [] r := by
  obtain ⟨pre, d, post, rfl, hr, hvalid, hkeep⟩ := h
  obtain ⟨mid, hpre, hrest⟩ := Runs.run_append_eq_ok.mp hrun
  obtain ⟨next, hs, hpost⟩ := Runs.run_cons_eq_ok.mp hrest
  have hmid := ht.run hh hbody hfew (fun d hd ↦ hroots d (List.mem_append_left _ hd)) hpre
  have hmem (d' : ℕ × SignedBlockWithAttestation H) (hd' : d' ∈ d :: post) :
      host.block d'.2.message.block ∈ roots := hroots d' (List.mem_append_right pre hd')
  have hcalm := hkeep mid hpre
  rw [Runs.trace, hs, List.forall_mem_cons] at hcalm
  have hnext : Tracking host s₀ blocks roots next [] ∧ Held host s₀ blocks next [] r := by
    refine ⟨?_, ?_⟩
    · exact hmid.run hh hbody hfew (fun d' hd' ↦ hmem d' (List.mem_singleton.mp hd' ▸ List.mem_cons_self))
        (Runs.run_singleton.trans hs)
    · refine Held.deliver hh hbody hfew hmid (hmem d List.mem_cons_self) hcalm.1 ?_ hs
      exact .inr (.inl ⟨d.2, List.mem_singleton_self _, hr, hvalid⟩)
  refine (Runs.run_invariant_of_trace
    (P := fun server ↦ Tracking host s₀ blocks roots server [] ∧ Held host s₀ blocks server [] r)
    (C := fun p ↦ host.block p.2.2.message.block ∈ roots ∧ ¬Displaces host s₀ blocks r p) ?_ hnext
    (fun p hp ↦ ⟨hmem p.2 (List.mem_cons_of_mem d (Runs.mem_of_mem_trace hp)), hcalm.2 p hp⟩)
    hpost).2
  rintro server d server' ⟨ht, h⟩ ⟨hroot, hkeep⟩ hs
  refine ⟨?_, (h.cons d.2).deliver hh hbody hfew ht hroot hkeep hs⟩
  exact (ht.deliver (P := fun _ _ ↦ True) hh hbody (fun _ _ _ ↦ trivial) hfew hroot
    (fun _ ↦ trivial) hs).1

theorem lost_of_deliver {d : ℕ × SignedBlockWithAttestation H} (hh : HashSound host)
    (hbody : Function.Injective host.body) (hfew : roots.length ≤ statesToKeep)
    {c : SignedBlockWithAttestation H} (hc : Valid host s₀ blocks c)
    (ht : Tracking host s₀ blocks roots server []) (hroot : host.block d.2.message.block ∈ roots)
    (hstate : server.store.states.lookup (host.block c.message.block) = none)
    (hstored : ∀ x, server.store.getSignedBlock host (host.block c.message.block) = some x →
      Valid host s₀ blocks x → host.block d.2.message.block = host.block c.message.block ∧
        server.store.states.lookup d.2.message.block.parentRoot = none)
    (hd : host.block d.2.message.block = host.block c.message.block → ¬Valid host s₀ blocks d.2)
    (hs : Server.deliver host server d = .ok server') :
    Lost host s₀ blocks server' [] (host.block c.message.block) := by
  refine (ht.deliver (P := fun server queue ↦
    Lost host s₀ blocks server queue (host.block c.message.block)) hh hbody ?_ hfew hroot
    (lost_of_turn hh hbody hc ht hroot hstate hstored fun x hx ↦ ?_) hs).2
  · intro server server' sb queue more ht h hturn
    exact lost_of_turn hh hbody hc ht.tail (ht.ready sb List.mem_cons_self).1 h.state
      (fun x hx hvalid ↦ absurd hvalid (h.stored x hx)) h.queued hturn
  · obtain rfl := List.mem_singleton.mp hx
    exact hd

/-- What is not lost at the end of a run has survived it. -/
theorem survives_or_lost (hh : HashSound host) (hbody : Function.Injective host.body)
    (hfew : roots.length ≤ statesToKeep) {c : SignedBlockWithAttestation H}
    (hc : Valid host s₀ blocks c) (hanchor : s₀.states.lookup (host.block c.message.block) = none)
    (ht : Tracking host s₀ blocks roots server [])
    (h : Lost host s₀ blocks server [] (host.block c.message.block))
    (hroots : ∀ d ∈ ds, host.block d.2.message.block ∈ roots)
    (hrun : Runs.run (Server.deliver host) server ds = .ok server') :
    Survives host s₀ blocks server ds (host.block c.message.block) ∨
      Lost host s₀ blocks server' [] (host.block c.message.block) := by
  induction ds using List.reverseRecOn generalizing server' with
  | nil =>
    obtain rfl := Except.ok.inj hrun
    exact .inr h
  | append_singleton ds d ih =>
    obtain ⟨mid, hmid, hs⟩ := Runs.run_append_eq_ok.mp hrun
    rw [Runs.run_singleton] at hs
    have hearlier (d' : ℕ × SignedBlockWithAttestation H) (hd' : d' ∈ ds) :
        host.block d'.2.message.block ∈ roots := hroots d' (List.mem_append_left _ hd')
    have hroot := hroots d (List.mem_append_right _ (List.mem_singleton_self d))
    have htmid := ht.run hh hbody hfew hearlier hmid
    by_cases hd : host.block d.2.message.block = host.block c.message.block → ¬Valid host s₀ blocks d.2
    · rcases ih hearlier hmid with ⟨pre, d₀, post, rfl, hr, hvalid, hkeep⟩ | hlost
      · by_cases hdis : Displaces host s₀ blocks (host.block c.message.block) (mid, d)
        · obtain ⟨hdr, -, hnone⟩ := hdis
          refine .inr (lost_of_deliver hh hbody hfew hc htmid hroot ?_ (fun x _ _ ↦ ⟨hdr, hnone⟩) hd hs)
          -- a state of the block would mean one of its parent
          refine Option.eq_none_iff_forall_ne_some.mpr fun st hst ↦ ?_
          rcases htmid.closed _ st hst with ⟨st₀, h₀⟩ | ⟨hdr', parent, hroot', hparent⟩
          · exact nomatch hanchor.symm.trans h₀
          · rw [← hdr, hh.block_eq] at hroot'
            rw [hh.collisionFree.header_injective hroot'] at hparent
            exact nomatch hnone.symm.trans hparent
        · refine .inl ⟨pre, d₀, post ++ [d], by simp, hr, hvalid, fun start hstart p hp ↦ ?_⟩
          obtain ⟨start', hstart', hrest⟩ := Runs.run_append_eq_ok.mp hmid
          obtain rfl := Except.ok.inj (hstart.symm.trans hstart')
          rw [← List.cons_append, Runs.trace_append hrest] at hp
          rcases List.mem_append.mp hp with hp | hp
          · exact hkeep start hstart p hp
          · have hp' : p = (mid, d) := by simpa [Runs.trace, hs] using hp
            rw [hp']
            exact hdis
      · exact .inr (lost_of_deliver hh hbody hfew hc htmid hroot hlost.state
          (fun x hx hvalid ↦ absurd hvalid (hlost.stored x hx)) hd hs)
    · obtain ⟨hr, hvalid⟩ := Classical.not_imp.mp hd
      rw [not_not] at hvalid
      refine .inl ⟨ds, d, [], rfl, hr, hvalid, fun start _ p hp ↦ ?_⟩
      have hp' : p.2 = d := by simpa using Runs.mem_of_mem_trace hp
      rintro ⟨-, hnot, -⟩
      rw [hp'] at hnot
      exact hnot hvalid

end Runs

/-- Blocks of a valid chain and any others are delivered in any order. At the end all blocks of the
chain have a state exactly if each of them survives the others. -/
theorem chain_imported_iff (hh : HashSound host) (hbody : Function.Injective host.body)
    (hst : Anchor host st) {body : Option (BlockBody H)}
    (hinit : Store.initStore host st body = .ok s₀) {chain : List (SignedBlockWithAttestation H)}
    (hchain : ∀ sb ∈ chain, Valid host s₀ chain sb) {keys : Table UInt64 host.SecretKey}
    {isAggregator : Bool} {ds : List (ℕ × SignedBlockWithAttestation H)}
    (hfew : (seenRoots host s₀ ds).length ≤ statesToKeep)
    (hrun : Runs.run (Server.deliver host) (Server.spawn host s₀ keys isAggregator) ds = .ok server) :
    (∀ sb ∈ chain, ∃ st, server.store.states.lookup (host.block sb.message.block) = some st) ↔
      ∀ sb ∈ chain, Survives host s₀ chain (Server.spawn host s₀ keys isAggregator) ds
        (host.block sb.message.block) := by
  have hs₀ := fresh_initStore hh hst hinit
  have ht := tracking_spawn hh hs₀ keys isAggregator chain
    (List.mem_dedup.mpr List.mem_cons_self : s₀.head ∈ seenRoots host s₀ ds)
  have hroots (d : ℕ × SignedBlockWithAttestation H) (hd : d ∈ ds) :
      host.block d.2.message.block ∈ seenRoots host s₀ ds := mem_seenRoots hd
  constructor
  · intro hstates sb hsb
    have hanchor := (hchain sb hsb).lookup_anchor hh hs₀
    have hlost : Lost host s₀ chain (Server.spawn host s₀ keys isAggregator) []
        (host.block sb.message.block) :=
      ⟨hanchor, fun x hx ↦ (nomatch (hs₀.unsigned _).symm.trans hx),
        fun x hx ↦ absurd hx List.not_mem_nil⟩
    rcases survives_or_lost hh hbody hfew (hchain sb hsb) hanchor ht hlost hroots hrun with h | h
    · exact h
    · obtain ⟨st, hst⟩ := hstates sb hsb
      exact nomatch h.state.symm.trans hst
  · intro hsurvive sb hsb
    obtain ⟨st', hderived⟩ := (hchain sb hsb).derived hsb
    refine (ht.run hh hbody hfew hroots hrun).states_of_held hh hbody (fun sb' hsb' ↦ ?_) hderived
    exact (hsurvive sb' hsb').held hh hbody hfew ht hroots hrun

section Sample

/-- The second block with a signature of someone else. -/
def sampleLateLookalike : SignedBlockWithAttestation ℕ :=
  ⟨sampleLate.message, ⟨.empty, sampleSignature 1 sampleLate.message.proposerAttestation.data⟩⟩

/-- The second block takes the place of its look-alike and waits, beside a block on no parent, until
the first comes. A last look-alike is too late. -/
def mixedDeliveries : List (ℕ × SignedBlockWithAttestation ℕ) :=
  [(1, sampleLateLookalike), (1, orphan 5), (1, sampleLate), (2, sampleFirst),
    (1, sampleLateLookalike)]

theorem chain_imported_iff_sample :
    ∃ server, Runs.run (Server.deliver distinctHost) distinctServer mixedDeliveries = .ok server ∧
      (∀ sb ∈ sampleChain, ∃ st,
        server.store.states.lookup (distinctHost.block sb.message.block) = some st) ∧
      ∀ sb ∈ sampleChain, Survives distinctHost sampleStore sampleChain distinctServer
        mixedDeliveries (distinctHost.block sb.message.block) := by
  have hview : (Runs.run (Server.deliver distinctHost) distinctServer
      mixedDeliveries).toOption.map (fun server ↦
        decide (∀ sb ∈ sampleChain, (server.store.states.lookup
          (distinctHost.block sb.message.block)).isSome = true)) = some true := by decide +kernel
  obtain ⟨server, hrun, hview⟩ := Exec.exists_ok_of_map hview
  have hstates (sb : SignedBlockWithAttestation ℕ) (hsb : sb ∈ sampleChain) :=
    Option.isSome_iff_exists.mp (of_decide_eq_true hview sb hsb)
  refine ⟨server, hrun, hstates, ?_⟩
  exact (chain_imported_iff distinctHost_hashSound bodyCode_injective distinctHost_anchor
    distinctHost_initStore sampleChain_valid (by decide +kernel) hrun).mp hstates

/-- The second block waits, a look-alike is written over it, and when the first block comes the
look-alike is rejected. The second block has been delivered and never gets a state. -/
theorem lookalike_displaces :
    ∃ server, Store.initStore distinctHost sampleGenesis none = .ok sampleStore ∧
      (∀ sb ∈ sampleChain, Valid distinctHost sampleStore sampleChain sb) ∧
      (seenRoots distinctHost sampleStore
        [(1, sampleLate), (1, sampleLateLookalike), (2, sampleFirst)]).length ≤ statesToKeep ∧
      Runs.run (Server.deliver distinctHost) distinctServer
        [(1, sampleLate), (1, sampleLateLookalike), (2, sampleFirst)] = .ok server ∧
      (server.store.states.lookup (distinctHost.block sampleFirst.message.block)).isSome = true ∧
      server.store.states.lookup (distinctHost.block sampleLate.message.block) = none := by
  have hview : (Runs.run (Server.deliver distinctHost) distinctServer
      [(1, sampleLate), (1, sampleLateLookalike), (2, sampleFirst)]).toOption.map (fun server ↦
        decide ((server.store.states.lookup
            (distinctHost.block sampleFirst.message.block)).isSome = true ∧
          server.store.states.lookup (distinctHost.block sampleLate.message.block) = none)) =
      some true := by decide +kernel
  obtain ⟨server, hrun, hview⟩ := Exec.exists_ok_of_map hview
  obtain ⟨hfirst, hlate⟩ := of_decide_eq_true hview
  exact ⟨server, distinctHost_initStore, sampleChain_valid, by decide +kernel, hrun, hfirst, hlate⟩

end Sample

end Ethlambda.Chain
