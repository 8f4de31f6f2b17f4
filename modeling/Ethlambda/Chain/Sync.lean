import Ethlambda.Chain.Lookalike

namespace Ethlambda.Chain

open Ethlambda.Base Ethlambda.Types Ethlambda.Storage Ethlambda.StateTransition

set_option linter.unusedSectionVars false

/-- The value `top` is the greatest of `base` and of what `f` gives for the entries of the table. -/
structure Highest {K V κ : Type} [DecidableEq K] [LinearOrder κ] (base : κ) (t : Table K V)
    (f : V → κ) (top : κ) : Prop where
  base_le : base ≤ top
  capped : ∀ a v, t.lookup a = some v → f v ≤ top
  attained : top = base ∨ ∃ a v, t.lookup a = some v ∧ top = f v

section Highest

variable {K V κ : Type} [DecidableEq K] [LinearOrder κ] {base top top' : κ} {t t' : Table K V}
  {f : V → κ}

theorem Highest.insert (h : Highest base t f top) {a : K} (ha : t.lookup a = none) (v : V) :
    Highest base (t.insert a v) f (max top (f v)) := by
  have hold {b : K} {w : V} (hb : t.lookup b = some w) : (t.insert a v).lookup b = some w := by
    rw [Table.lookup_insert_eq_ite, if_neg]
    · exact hb
    · rintro rfl
      exact nomatch ha.symm.trans hb
  refine ⟨h.base_le.trans (le_max_left _ _), fun b w hb ↦ ?_, ?_⟩
  · rw [Table.lookup_insert_eq_ite] at hb
    split at hb
    · rw [← Option.some.inj hb]
      exact le_max_right _ _
    · exact (h.capped b w hb).trans (le_max_left _ _)
  · rcases le_total (f v) top with hle | hle
    · rw [max_eq_left hle]
      rcases h.attained with hbase | ⟨b, w, hb, heq⟩
      · exact .inl hbase
      · exact .inr ⟨b, w, hold hb, heq⟩
    · rw [max_eq_right hle]
      exact .inr ⟨a, v, AList.lookup_insert t, rfl⟩

theorem Highest.le (h : Highest base t f top) (h' : Highest base t' f top')
    (heq : ∀ a, t.lookup a = t'.lookup a) : top ≤ top' := by
  rcases h.attained with hbase | ⟨a, v, ha, hv⟩
  · rw [hbase]
    exact h'.base_le
  · rw [hv]
    exact h'.capped a v (by rw [← heq, ha])

theorem Highest.unique (h : Highest base t f top) (h' : Highest base t' f top')
    (heq : ∀ a, t.lookup a = t'.lookup a) : top = top' :=
  le_antisymm (h.le h' heq) (h'.le h fun a ↦ (heq a).symm)

end Highest

variable {H : Type} [LinearOrder H] [Zero H] {host : Host H} {s₀ s s' : Store H}
  {blocks : List (SignedBlockWithAttestation H)} {server server' : Server host}
  {sb : SignedBlockWithAttestation H} {r : H} {st : State H}

/-- What the store holds while nothing but blocks of the list comes in. -/
structure Backed (host : Host H) (s₀ : Store H) (blocks : List (SignedBlockWithAttestation H))
    (s : Store H) : Prop where
  available : Available host s
  sound : ∀ r st, s.states.lookup r = some st → Derived host s₀ blocks r st
  stored : ∀ r hdr, s.blockHeaders.lookup r = some hdr →
    r = s₀.head ∨ ∃ x ∈ blocks, s.getSignedBlock host r = some x
  justified : Highest s₀.latestJustified.slot.toNat s.states
    (fun st ↦ st.latestJustified.slot.toNat) s.latestJustified.slot.toNat
  finalized : Highest s₀.latestFinalized.slot.toNat s.states
    (fun st ↦ st.latestFinalized.slot.toNat) s.latestFinalized.slot.toNat

section Backed

theorem Backed.insertPendingBlock (hh : HashSound host) (hbody : Function.Injective host.body)
    (h : Backed host s₀ blocks s) (hsb : sb ∈ blocks) :
    Backed host s₀ blocks (s.insertPendingBlock host (host.block sb.message.block) sb) := by
  refine ⟨(available_invariant hh).pending sb h.available, h.sound, fun r hdr hhdr ↦ ?_, h.justified,
    h.finalized⟩
  rw [lookup_insertPendingBlock_headers] at hhdr
  rw [Store.insertPendingBlock, getSignedBlock_writeSignedBlock hbody]
  split
  · exact .inr ⟨sb, hsb, rfl⟩
  · rename_i hr
    rw [if_neg hr] at hhdr
    exact h.stored r hdr hhdr

theorem toNat_ite_lt (a b : UInt64) : (if a < b then b else a).toNat = max a.toNat b.toNat := by
  split
  · rename_i h
    rw [UInt64.lt_iff_toNat_lt] at h
    omega
  · rename_i h
    rw [UInt64.lt_iff_toNat_lt] at h
    omega

theorem recordBlock_justified (host : Host H) (s : Store H) (sb : SignedBlockWithAttestation H)
    (post : State H) :
    (recordBlock host sb post s).latestJustified.slot.toNat =
      max s.latestJustified.slot.toNat post.latestJustified.slot.toNat := by
  change (adoptCheckpoints host s post).latestJustified.slot.toNat = _
  rw [(adopted host s post).justified, apply_ite Checkpoint.slot, toNat_ite_lt]

theorem recordBlock_finalized (host : Host H) (s : Store H) (sb : SignedBlockWithAttestation H)
    (post : State H) :
    (recordBlock host sb post s).latestFinalized.slot.toNat =
      max s.latestFinalized.slot.toNat post.latestFinalized.slot.toNat := by
  change (adoptCheckpoints host s post).latestFinalized.slot.toNat = _
  rw [(adopted host s post).finalized, apply_ite Checkpoint.slot, toNat_ite_lt]

theorem recordBlock_states (sb : SignedBlockWithAttestation H) (post : State H) :
    (recordBlock host sb post s).states = s.states.insert (host.block sb.message.block) post := by
  rw [← (adopted host s post).states]
  rfl

theorem Backed.imported (hbody : Function.Injective host.body) (h : Backed host s₀ blocks s)
    (hsb : sb ∈ blocks) {post : State H} {head : H}
    (hst : s.states.lookup (host.block sb.message.block) = none)
    (hpost : postState host s sb true = .ok post)
    (hframe : Frame { recordBlock host sb post s with head := head } s')
    (havailable : Available host s') : Backed host s₀ blocks s' := by
  have hstates : s'.states = s.states.insert (host.block sb.message.block) post := by
    rw [hframe.states]
    dsimp only
    exact recordBlock_states sb post
  constructor
  case available => exact havailable
  case sound =>
    intro r st hr
    rw [hstates, Table.lookup_insert_eq_ite] at hr
    split at hr
    · rename_i heq
      obtain ⟨parent, st₁, hparent, hverify, htrans, rfl⟩ := postState_eq_ok hpost
      rw [heq, ← Option.some.inj hr]
      exact .block hsb (h.sound _ _ hparent) (hverify rfl) htrans
    · exact h.sound r st hr
  case stored =>
    intro r hdr hhdr
    have hget := getSignedBlock_of_import hbody hframe r
    by_cases hr : r = host.block sb.message.block
    · exact .inr ⟨sb, hsb, hget.trans (if_pos hr)⟩
    · have hold := (lookup_headers_of_import hframe r).symm.trans hhdr
      rw [if_neg hr] at hold
      rcases h.stored r hdr hold with heq | ⟨x, hx, hload⟩
      · exact .inl heq
      · exact .inr ⟨x, hx, (hget.trans (if_neg hr)).trans hload⟩
  case justified =>
    rw [hstates, hframe.justified]
    have heq := recordBlock_justified host s sb post
    rw [show ({ recordBlock host sb post s with head := head } : Store H).latestJustified =
      (recordBlock host sb post s).latestJustified from rfl, heq]
    exact h.justified.insert hst post
  case finalized =>
    rw [hstates, hframe.finalized]
    have heq := recordBlock_finalized host s sb post
    rw [show ({ recordBlock host sb post s with head := head } : Store H).latestFinalized =
      (recordBlock host sb post s).latestFinalized from rfl, heq]
    exact h.finalized.insert hst post

end Backed

/-- What an accepted block leaves behind, whether it was known or not: its state is there and all
other roots are as they were. -/
structure Passed (host : Host H) (s : Store H) (sb : SignedBlockWithAttestation H) (s' : Store H) :
    Prop where
  state : ∃ st, s'.states.lookup (host.block sb.message.block) = some st
  states : ∀ r, r ≠ host.block sb.message.block → s'.states.lookup r = s.states.lookup r
  headers : ∀ r hdr, s.blockHeaders.lookup r = some hdr → ∃ hdr', s'.blockHeaders.lookup r = some hdr'
  headers_of : ∀ r hdr, s'.blockHeaders.lookup r = some hdr →
    r = host.block sb.message.block ∨ s.blockHeaders.lookup r = some hdr
  loads : ∀ r, s'.getSignedBlock host r = s.getSignedBlock host r ∨
    r = host.block sb.message.block ∧ s'.getSignedBlock host r = some sb

theorem Handled.passed (hbody : Function.Injective host.body) (h : Handled host s sb (.ok ()) s') :
    Passed host s sb s' := by
  cases h with
  | known hst =>
    exact ⟨⟨_, hst⟩, fun r _ ↦ rfl, fun r hdr h ↦ ⟨hdr, h⟩, fun r hdr ↦ .inr, fun r ↦ .inl rfl⟩
  | @imported post head s' hst hpost hframe =>
    have hstates := lookup_states_of_import hframe
    have hheaders := lookup_headers_of_import hframe
    have hget := getSignedBlock_of_import hbody hframe
    refine ⟨⟨post, by rw [hstates, if_pos rfl]⟩, fun r hr ↦ by rw [hstates, if_neg hr],
      fun r hdr hhdr ↦ ?_, fun r hdr hhdr ↦ ?_, fun r ↦ ?_⟩
    · rw [hheaders]
      split
      · exact ⟨_, rfl⟩
      · exact ⟨hdr, hhdr⟩
    · rw [hheaders] at hhdr
      split at hhdr
      · rename_i hr
        exact .inl hr
      · exact .inr hhdr
    · rw [hget]
      split
      · rename_i hr
        exact .inr ⟨hr, rfl⟩
      · exact .inl rfl

/-- A stored block of the list and its parent. -/
def Link (host : Host H) (blocks : List (SignedBlockWithAttestation H)) (s : Store H) (x y : H) : Prop :=
  ∃ sb ∈ blocks, host.block sb.message.block = x ∧ sb.message.block.parentRoot = y ∧
    ∃ hdr, s.blockHeaders.lookup x = some hdr

/-- The records of waiting blocks: what waits can be loaded, it waits for a block without a state, it
is in both tables, and its recorded ancestor is one. -/
structure Recorded (host : Host H) (blocks : List (SignedBlockWithAttestation H))
    (server : Server host) : Prop where
  children : ∀ p c, Waits server p c → ∃ x ∈ blocks, server.store.getSignedBlock host c = some x ∧
    x.message.block.parentRoot = p
  lists : ∀ p l, server.pendingBlocks.lookup p = some l →
    l ≠ [] ∧ l.Nodup ∧ server.store.states.lookup p = none
  entries : ∀ c, (∃ a, server.pendingBlockParents.lookup c = some a) ↔ ∃ p, Waits server p c
  paths : ∀ c a, server.pendingBlockParents.lookup c = some a →
    Relation.TransGen (Link host blocks server.store) c a

section Recorded

variable {more : List (SignedBlockWithAttestation H)}

/-- A block waits for one parent only, its own. -/
theorem Recorded.parent_unique (h : Recorded host blocks server) {p q c : H} (hp : Waits server p c)
    (hq : Waits server q c) : p = q := by
  obtain ⟨x, -, hx, rfl⟩ := h.children p c hp
  obtain ⟨y, -, hy, rfl⟩ := h.children q c hq
  rw [Option.some.inj (hx.symm.trans hy)]

theorem link_mono (h : ∀ r hdr, s.blockHeaders.lookup r = some hdr →
    ∃ hdr', s'.blockHeaders.lookup r = some hdr') {x y : H}
    (hlink : Relation.TransGen (Link host blocks s) x y) :
    Relation.TransGen (Link host blocks s') x y := by
  refine Relation.TransGen.mono (fun x y hxy ↦ ?_) x y hlink
  obtain ⟨sb, hsb, hx, hy, hdr, hhdr⟩ := hxy
  exact ⟨sb, hsb, hx, hy, h x hdr hhdr⟩

theorem Recorded.passed (h : Recorded host blocks server)
    (hloads : ∀ r x, server.store.getSignedBlock host r = some x → host.block x.message.block = r)
    (hnodup : (blocks.map fun sb ↦ host.block sb.message.block).Nodup) (hsb : sb ∈ blocks)
    (hpassed : Passed host server.store sb s')
    (hmore : Collected { server with store := s' } (host.block sb.message.block) more server') :
    Recorded host blocks server' := by
  have hwaits (p c : H) : Waits server' p c ↔ p ≠ host.block sb.message.block ∧ Waits server p c :=
    hmore.waits p c
  constructor
  case children =>
    intro p c hp
    obtain ⟨x, hx, hget, hparent⟩ := h.children p c ((hwaits p c).mp hp).2
    refine ⟨x, hx, ?_, hparent⟩
    rw [hmore.store]
    rcases hpassed.loads c with hsame | ⟨hc, hown⟩
    · exact hsame.trans hget
    · have hroot : host.block x.message.block = host.block sb.message.block :=
        (hloads c x hget).trans hc
      rw [List.inj_on_of_nodup_map hnodup hx hsb hroot]
      exact hown
  case lists =>
    intro p l hl
    rw [hmore.lookup] at hl
    split at hl
    · exact nomatch hl
    · rename_i hp
      obtain ⟨hne, hnd, hnone⟩ := h.lists p l hl
      refine ⟨hne, hnd, ?_⟩
      rw [hmore.store]
      exact (hpassed.states p hp).trans hnone
  case entries =>
    intro c
    constructor
    · rintro ⟨a, ha⟩
      by_cases hc : Waits server (host.block sb.message.block) c
      · exact nomatch (hmore.released c hc).symm.trans ha
      · obtain ⟨p, hp⟩ := (h.entries c).mp ⟨a, (hmore.kept c hc).symm.trans ha⟩
        refine ⟨p, (hwaits p c).mpr ⟨?_, hp⟩⟩
        rintro rfl
        exact hc hp
    · rintro ⟨p, hp⟩
      obtain ⟨hne, hp⟩ := (hwaits p c).mp hp
      have hc : ¬Waits server (host.block sb.message.block) c :=
        fun hc ↦ hne (h.parent_unique hp hc)
      obtain ⟨a, ha⟩ := (h.entries c).mpr ⟨p, hp⟩
      exact ⟨a, (hmore.kept c hc).trans ha⟩
  case paths =>
    intro c a ha
    have hc : ¬Waits server (host.block sb.message.block) c := by
      intro hc
      exact nomatch (hmore.released c hc).symm.trans ha
    rw [hmore.store]
    exact link_mono hpassed.headers (h.paths c a ((hmore.kept c hc).symm.trans ha))

/-- Every block that is released leaves the records, so there are fewer of them by that many. -/
theorem Recorded.length_le (h : Recorded host blocks server)
    (hmore : Collected { server with store := s' } (host.block sb.message.block) more server') :
    more.length + server'.pendingBlockParents.keys.length ≤
      server.pendingBlockParents.keys.length := by
  have hkeys {c : H} (hc : c ∈ server'.pendingBlockParents.keys) :
      ¬Waits server (host.block sb.message.block) c ∧ c ∈ server.pendingBlockParents.keys := by
    obtain ⟨a, ha⟩ := Table.mem_iff_lookup.mp (AList.mem_keys.mp hc)
    have hnot : ¬Waits server (host.block sb.message.block) c := by
      intro hw
      exact nomatch (hmore.released c hw).symm.trans ha
    refine ⟨hnot, AList.mem_keys.mpr (Table.mem_iff_lookup.mpr ⟨a, ?_⟩)⟩
    exact (hmore.kept c hnot).symm.trans ha
  cases hl : server.pendingBlocks.lookup (host.block sb.message.block) with
  | none =>
    have hnil : more = [] := by
      refine List.eq_nil_iff_forall_not_mem.mpr fun x hx ↦ ?_
      obtain ⟨c, ⟨l, hl', -⟩, -⟩ := (hmore.mem x).mp hx
      exact nomatch hl.symm.trans hl'
    rw [hnil, List.length_nil, Nat.zero_add]
    exact (server'.pendingBlockParents.keys_nodup.subperm fun c hc ↦ (hkeys hc).2).length_le
  | some l =>
    have hmore_le : more.length ≤ l.length := hmore.length_le l hl
    have hnodup : (l ++ server'.pendingBlockParents.keys).Nodup := by
      refine (h.lists _ l hl).2.1.append server'.pendingBlockParents.keys_nodup fun c hc hc' ↦ ?_
      exact (hkeys hc').1 ⟨l, hl, hc⟩
    have hsub : l ++ server'.pendingBlockParents.keys ⊆ server.pendingBlockParents.keys := by
      intro c hc
      rcases List.mem_append.mp hc with hc | hc
      · obtain ⟨a, ha⟩ := (h.entries c).mpr ⟨_, l, hl, hc⟩
        exact AList.mem_keys.mpr (Table.mem_iff_lookup.mpr ⟨a, ha⟩)
      · exact (hkeys hc).2
    have hle := (hnodup.subperm hsub).length_le
    rw [List.length_append] at hle
    omega

/-- The server that has put a block aside, with the end of the walk as its ancestor. -/
def putAside (host : Host H) (server : Server host) (sb : SignedBlockWithAttestation H) (missing : H)
    (sent : List (Outgoing H)) : Server host :=
  { Server.addPending host sb.message.block.parentRoot (host.block sb.message.block)
      { server with
        pendingBlockParents := server.pendingBlockParents.insert (host.block sb.message.block) missing
        store := server.store.insertPendingBlock host (host.block sb.message.block) sb } with
    sent := sent }

theorem waits_putAside {missing : H} {sent : List (Outgoing H)} {p c : H} :
    Waits (putAside host server sb missing sent) p c ↔ Waits server p c ∨
      p = sb.message.block.parentRoot ∧ c = host.block sb.message.block := waits_addPending

theorem Recorded.putAside (hbody : Function.Injective host.body) (h : Recorded host blocks server)
    (hloads : ∀ r x, server.store.getSignedBlock host r = some x → host.block x.message.block = r)
    (hnodup : (blocks.map fun sb ↦ host.block sb.message.block).Nodup) (hsb : sb ∈ blocks)
    (hparent : server.store.states.lookup sb.message.block.parentRoot = none) {missing : H}
    (hwalk : Relation.ReflTransGen (Link host blocks server.store) sb.message.block.parentRoot missing)
    (sent : List (Outgoing H)) : Recorded host blocks (putAside host server sb missing sent) := by
  have hget (r : H) : (Chain.putAside host server sb missing sent).store.getSignedBlock host r =
      if r = host.block sb.message.block then some sb else server.store.getSignedBlock host r :=
    getSignedBlock_writeSignedBlock hbody sb _ r
  have hheaders (r : H) : (Chain.putAside host server sb missing sent).store.blockHeaders.lookup r =
      if r = host.block sb.message.block then some (sb.message.block.header host.toTreeHash)
      else server.store.blockHeaders.lookup r := lookup_insertPendingBlock_headers sb _ r
  have hgrow (r : H) (hdr : BlockHeader H) (hr : server.store.blockHeaders.lookup r = some hdr) :
      ∃ hdr', (Chain.putAside host server sb missing sent).store.blockHeaders.lookup r = some hdr' := by
    rw [hheaders]
    split
    · exact ⟨_, rfl⟩
    · exact ⟨hdr, hr⟩
  constructor
  case children =>
    intro p c hp
    rcases waits_putAside.mp hp with hp | ⟨rfl, rfl⟩
    · obtain ⟨x, hx, hload, hxp⟩ := h.children p c hp
      refine ⟨x, hx, ?_, hxp⟩
      rw [hget]
      split
      · rename_i hc
        rw [List.inj_on_of_nodup_map hnodup hx hsb ((hloads c x hload).trans hc)]
      · exact hload
    · exact ⟨sb, hsb, by rw [hget, if_pos rfl], rfl⟩
  case lists =>
    intro p l hl
    have hl' : (server.pendingBlocks.insert sb.message.block.parentRoot
        (if host.block sb.message.block ∈
          (server.pendingBlocks.lookup sb.message.block.parentRoot).getD [] then
            (server.pendingBlocks.lookup sb.message.block.parentRoot).getD []
          else (server.pendingBlocks.lookup sb.message.block.parentRoot).getD [] ++
            [host.block sb.message.block])).lookup p = some l := hl
    rw [Table.lookup_insert_eq_ite] at hl'
    split at hl'
    · rename_i hp
      have hold : ((server.pendingBlocks.lookup sb.message.block.parentRoot).getD []).Nodup := by
        cases hlookup : server.pendingBlocks.lookup sb.message.block.parentRoot with
        | none => exact List.nodup_nil
        | some l => exact (h.lists _ l hlookup).2.1
      rw [← Option.some.inj hl', hp]
      split
      · rename_i hmem
        exact ⟨List.ne_nil_of_mem hmem, hold, hparent⟩
      · rename_i hmem
        refine ⟨by simp, ?_, hparent⟩
        rw [List.nodup_append_comm]
        exact List.nodup_cons.mpr ⟨hmem, hold⟩
    · exact h.lists p l hl'
  case entries =>
    intro c
    have hlookup : (Chain.putAside host server sb missing sent).pendingBlockParents.lookup c =
        if c = host.block sb.message.block then some missing
        else server.pendingBlockParents.lookup c := Table.lookup_insert_eq_ite _ _ _ _
    rw [hlookup]
    split
    · rename_i hc
      exact ⟨fun _ ↦ ⟨_, waits_putAside.mpr (.inr ⟨rfl, hc⟩)⟩, fun _ ↦ ⟨missing, rfl⟩⟩
    · rename_i hc
      rw [h.entries]
      refine exists_congr fun p ↦ ⟨fun hp ↦ waits_putAside.mpr (.inl hp), fun hp ↦ ?_⟩
      rcases waits_putAside.mp hp with hp | ⟨-, heq⟩
      · exact hp
      · exact absurd heq hc
  case paths =>
    intro c a ha
    have ha' : (server.pendingBlockParents.insert (host.block sb.message.block) missing).lookup c =
        some a := ha
    rw [Table.lookup_insert_eq_ite] at ha'
    split at ha'
    · rename_i hc
      rw [hc, ← Option.some.inj ha']
      have hfirst : Link host blocks (Chain.putAside host server sb missing sent).store
          (host.block sb.message.block) sb.message.block.parentRoot :=
        ⟨sb, hsb, rfl, rfl, _, by rw [hheaders, if_pos rfl]⟩
      rcases Relation.reflTransGen_iff_eq_or_transGen.mp hwalk with heq | hwalk
      · rw [heq]
        exact .single hfirst
      · exact .head hfirst (link_mono hgrow hwalk)
    · exact link_mono hgrow (h.paths c a ha')

end Recorded

section Walk

variable {ε : Type} {anchor : State H}

/-- The slot of the block of the list that has the root, and zero for other roots. -/
def height (host : Host H) (blocks : List (SignedBlockWithAttestation H)) (r : H) : ℕ :=
  ((blocks.find? fun sb ↦ decide (host.block sb.message.block = r)).map
    fun sb ↦ sb.message.block.slot.toNat).getD 0

theorem height_eq (hnodup : (blocks.map fun sb ↦ host.block sb.message.block).Nodup)
    (hsb : sb ∈ blocks) : height host blocks (host.block sb.message.block) =
      sb.message.block.slot.toNat := by
  unfold height
  cases hfind : blocks.find? fun x ↦ decide (host.block x.message.block =
      host.block sb.message.block) with
  | none => simpa using List.find?_eq_none.mp hfind sb hsb
  | some x =>
    have hroot : host.block x.message.block = host.block sb.message.block := by
      simpa using List.find?_some hfind
    rw [List.inj_on_of_nodup_map hnodup (List.mem_of_find?_eq_some hfind) hsb hroot]
    rfl

theorem Link.height_lt (hh : HashSound host) (hs₀ : Fresh host s₀ anchor)
    (hvalid : ∀ sb ∈ blocks, Valid host s₀ blocks sb)
    (hnodup : (blocks.map fun sb ↦ host.block sb.message.block).Nodup) {x y : H}
    (h : Link host blocks s x y) : height host blocks y < height host blocks x := by
  obtain ⟨sb, hsb, rfl, rfl, -⟩ := h
  rw [height_eq hnodup hsb]
  obtain ⟨parent, st, hparent, -, hst⟩ := hvalid sb hsb
  have hp := (hparent.stored hh hs₀).1
  obtain ⟨-, hlt, -⟩ := hp.wellformed.transition_header hh.collisionFree hst
  rw [← hp.wellformed.slot_eq] at hlt
  unfold height
  cases hfind : blocks.find? fun x ↦ decide (host.block x.message.block =
      sb.message.block.parentRoot) with
  | none => exact Nat.zero_lt_of_lt hlt
  | some x =>
    have hroot : host.block x.message.block = sb.message.block.parentRoot := by
      simpa using List.find?_some hfind
    obtain ⟨parent', st', hparent', -, hst'⟩ := hvalid x (List.mem_of_find?_eq_some hfind)
    obtain ⟨hstored, hslot, -⟩ := (hparent'.stored hh hs₀).1.transition hh hst'
    rw [hroot] at hstored
    have hsame : st'.slot = parent.slot := (hstored.unique hh hp).1
    rw [← hsame, hslot] at hlt
    exact hlt

theorem height_lt_of_transGen (hh : HashSound host) (hs₀ : Fresh host s₀ anchor)
    (hvalid : ∀ sb ∈ blocks, Valid host s₀ blocks sb)
    (hnodup : (blocks.map fun sb ↦ host.block sb.message.block).Nodup) {x y : H}
    (h : Relation.TransGen (Link host blocks s) x y) : height host blocks y < height host blocks x := by
  induction h with
  | single h => exact h.height_lt hh hs₀ hvalid hnodup
  | tail _ h ih => exact (h.height_lt hh hs₀ hvalid hnodup).trans ih

end Walk

/-- The state of a server that has only seen blocks of the list. -/
structure Synced (host : Host H) (s₀ : Store H) (blocks : List (SignedBlockWithAttestation H))
    (server : Server host) (queue : List (SignedBlockWithAttestation H)) : Prop where
  tracking : Tracking host s₀ blocks (s₀.head :: blocks.map fun sb ↦ host.block sb.message.block)
    server queue
  backed : Backed host s₀ blocks server.store
  recorded : Recorded host blocks server
  queued : ∀ x ∈ queue, x ∈ blocks
  held : ∀ r hdr, server.store.blockHeaders.lookup r = some hdr →
    r = s₀.head ∨ Held host s₀ blocks server queue r

section Synced

variable {ε : Type} {anchor : State H} {queue more : List (SignedBlockWithAttestation H)}

theorem Synced.cons (h : Synced host s₀ blocks server []) (hsb : sb ∈ blocks)
    (hparent : ∃ st, server.store.states.lookup sb.message.block.parentRoot = some st) :
    Synced host s₀ blocks server [sb] := by
  have ht := h.tracking
  refine ⟨⟨ht.headers, ht.loads, ht.waits, ht.anchor, ht.agrees, ht.closed, fun x hx ↦ ?_⟩, h.backed,
    h.recorded, fun x hx ↦ ?_, fun r hdr hhdr ↦ ?_⟩
  · obtain rfl := List.mem_singleton.mp hx
    exact ⟨List.mem_cons_of_mem _ (List.mem_map_of_mem hsb), hparent⟩
  · obtain rfl := List.mem_singleton.mp hx
    exact hsb
  · rcases h.held r hdr hhdr with heq | hheld
    · exact .inl heq
    · exact .inr (hheld.cons sb)

/-- With nothing in the queue, a stored block without a state has a parent without one. -/
theorem Synced.stateless_of_link (h : Synced host s₀ blocks server [])
    (hnodup : (blocks.map fun sb ↦ host.block sb.message.block).Nodup)
    (hhead : ∃ st, s₀.states.lookup s₀.head = some st) {x y : H}
    (hlink : Link host blocks server.store x y) (hx : server.store.states.lookup x = none) :
    server.store.states.lookup y = none := by
  obtain ⟨sb, hsb, rfl, rfl, hdr, hhdr⟩ := hlink
  rcases h.held _ hdr hhdr with heq | ⟨st, hst⟩ | ⟨z, hz, -⟩ | ⟨z, hz, -, -, hnone⟩
  · obtain ⟨st, hst⟩ := hhead
    rw [heq] at hx
    exact nomatch hx.symm.trans (h.tracking.anchor _ _ hst)
  · exact nomatch hx.symm.trans hst
  · exact absurd hz List.not_mem_nil
  · rcases h.backed.stored _ hdr hhdr with heq | ⟨w, hw, hload⟩
    · obtain ⟨st, hst⟩ := hhead
      rw [heq] at hx
      exact nomatch hx.symm.trans (h.tracking.anchor _ _ hst)
    · have hroot := h.tracking.loads _ w hload
      have hsame := List.inj_on_of_nodup_map hnodup hw hsb hroot
      rw [Option.some.inj (hz.symm.trans hload), hsame] at hnone
      exact hnone

/-- With nothing in the queue, the walk through the recorded ancestors ends at a block that was
never seen. -/
theorem Synced.exists_missing (hh : HashSound host) (hs₀ : Fresh host s₀ anchor)
    (hvalid : ∀ sb ∈ blocks, Valid host s₀ blocks sb)
    (hnodup : (blocks.map fun sb ↦ host.block sb.message.block).Nodup)
    (h : Synced host s₀ blocks server []) (hr : server.store.states.lookup r = none) :
    ∃ m, (Server.missingAncestor server.pendingBlockParents
        (server.pendingBlockParents.keys.length + 1) r : Exec ε H) = .ok m ∧
      Relation.ReflTransGen (Link host blocks server.store) r m ∧
      server.store.blockHeaders.lookup m = none := by
  have hlt (x y : H) (hxy : server.pendingBlockParents.lookup x = some y) :
      height host blocks y < height host blocks x :=
    height_lt_of_transGen hh hs₀ hvalid hnodup (h.recorded.paths x y hxy)
  obtain ⟨m, hm, hnone, hpath⟩ := exists_missingAncestor (ε := ε) hlt (r := r)
    (Nat.lt_succ_of_le rank_le_length)
  have hhead : ∃ st, s₀.states.lookup s₀.head = some st := ⟨anchor, (hs₀.states _ _).mpr ⟨rfl, rfl⟩⟩
  have hlinks : Relation.ReflTransGen (Link host blocks server.store) r m := by
    clear hm hnone
    induction hpath with
    | refl => exact .refl
    | tail _ hxy ih => exact ih.trans (h.recorded.paths _ _ hxy).to_reflTransGen
  have hstateless : server.store.states.lookup m = none := by
    clear hm hnone hpath
    induction hlinks with
    | refl => exact hr
    | tail _ hxy ih => exact h.stateless_of_link hnodup hhead hxy ih
  refine ⟨m, hm, hlinks, Option.eq_none_iff_forall_ne_some.mpr fun hdr hhdr ↦ ?_⟩
  rcases h.held m hdr hhdr with heq | ⟨st, hst⟩ | ⟨z, hz, -⟩ | ⟨z, hz, -, hw, -⟩
  · obtain ⟨st, hst⟩ := hhead
    rw [heq] at hstateless
    exact nomatch hstateless.symm.trans (h.tracking.anchor _ _ hst)
  · exact nomatch hstateless.symm.trans hst
  · exact absurd hz List.not_mem_nil
  · obtain ⟨a, ha⟩ := (h.recorded.entries m).mpr ⟨_, hw⟩
    exact nomatch hnone.symm.trans ha

theorem held_of_turn {roots : List H} (hbody : Function.Injective host.body)
    (ht : Tracking host s₀ blocks roots server queue) (hvalid : Valid host s₀ blocks sb)
    (hold : ∀ r hdr, server.store.blockHeaders.lookup r = some hdr →
      r = s₀.head ∨ Held host s₀ blocks server (sb :: queue) r)
    (hturn : Turn server sb more server')
    (hheaders : ∀ r hdr, server'.store.blockHeaders.lookup r = some hdr →
      r = host.block sb.message.block ∨ server.store.blockHeaders.lookup r = some hdr)
    (r : H) (hdr : BlockHeader H) (hhdr : server'.store.blockHeaders.lookup r = some hdr) :
    r = s₀.head ∨ Held host s₀ blocks server' (queue ++ more) r := by
  have hnext {r : H} (hheld : Held host s₀ blocks server (sb :: queue) r) :
      Held host s₀ blocks server' (queue ++ more) r := hheld.turn hbody ht (fun _ _ ↦ hvalid) hturn
  rcases hheaders r hdr hhdr with rfl | hhdr
  · exact .inr (hnext (.inr (.inl ⟨sb, List.mem_cons_self, rfl, hvalid⟩)))
  · rcases hold r hdr hhdr with heq | hheld
    · exact .inl heq
    · exact .inr (hnext hheld)

theorem processOrPendBlock_of_missing
    (hparent : server.store.states.lookup sb.message.block.parentRoot = none) {m : H}
    (hm : (Server.missingAncestor server.pendingBlockParents
      (server.pendingBlockParents.keys.length + 1) sb.message.block.parentRoot : Exec ε H) = .ok m)
    (hhdr : server.store.blockHeaders.lookup m = none) (hne : m ≠ host.block sb.message.block) :
    ∃ sent, (Server.processOrPendBlock host sb :
      Op (Server host) ε (List (SignedBlockWithAttestation H))) server =
        .ok (.ok [], putAside host server sb m sent) := by
  have hno : server.store.hasState sb.message.block.parentRoot = false := by
    rw [Store.hasState, hparent]
    rfl
  unfold Server.processOrPendBlock Server.pendBlock
  rw [Op.get_bind, hno, Bool.not_false, if_pos rfl, Op.get_bind, Op.lift_bind_of_ok hm,
    Op.modify_bind, Op.modify_bind, Op.get_bind]
  have hmissing : (server.store.insertPendingBlock host (host.block sb.message.block)
      sb).blockHeaders.lookup m = none := by
    rw [lookup_insertPendingBlock_headers, if_neg hne, hhdr]
  obtain ⟨sent, hclimb⟩ := climb_of_missing (ε := ε)
    (Server.addPending host sb.message.block.parentRoot (host.block sb.message.block)
      { server with
        pendingBlockParents := server.pendingBlockParents.insert (host.block sb.message.block) m
        store := server.store.insertPendingBlock host (host.block sb.message.block) sb }) _ hmissing
  exact ⟨sent, hclimb⟩

/-- A block without a parent state is put aside, and the queue stays empty. -/
theorem Synced.putAside (hh : HashSound host) (hbody : Function.Injective host.body)
    (hs₀ : Fresh host s₀ anchor) (hvalid : ∀ sb ∈ blocks, Valid host s₀ blocks sb)
    (hnodup : (blocks.map fun sb ↦ host.block sb.message.block).Nodup)
    (h : Synced host s₀ blocks server []) (hsb : sb ∈ blocks)
    (hparent : server.store.states.lookup sb.message.block.parentRoot = none) :
    ∃ server', (Server.processOrPendBlock host sb :
      Op (Server host) ε (List (SignedBlockWithAttestation H))) server = .ok (.ok [], server') ∧
      Synced host s₀ blocks server' [] := by
  obtain ⟨m, hm, hpath, hhdr⟩ := h.exists_missing (ε := ε) hh hs₀ hvalid hnodup hparent
  have hne : m ≠ host.block sb.message.block := by
    rintro rfl
    have hfirst : Link host blocks (server.store.insertPendingBlock host
        (host.block sb.message.block) sb) (host.block sb.message.block)
        sb.message.block.parentRoot :=
      ⟨sb, hsb, rfl, rfl, _, (lookup_insertPendingBlock_headers sb _ _).trans (if_pos rfl)⟩
    have hlt := hfirst.height_lt hh hs₀ hvalid hnodup
    rcases Relation.reflTransGen_iff_eq_or_transGen.mp hpath with heq | hpath
    · rw [← heq] at hlt
      exact Nat.lt_irrefl _ hlt
    · exact Nat.lt_asymm hlt (height_lt_of_transGen hh hs₀ hvalid hnodup hpath)
  obtain ⟨sent, heq⟩ := processOrPendBlock_of_missing hparent hm hhdr hne
  have hturn := turn_of_processOrPendBlock heq
  have hroot := List.mem_cons_of_mem s₀.head
    (List.mem_map_of_mem (f := fun sb ↦ host.block sb.message.block) hsb)
  refine ⟨_, heq, h.tracking.turn hh hbody hroot hturn, h.backed.insertPendingBlock hh hbody hsb,
    h.recorded.putAside hbody h.tracking.loads hnodup hsb hparent hpath sent,
    fun x hx ↦ absurd hx List.not_mem_nil, ?_⟩
  refine held_of_turn hbody h.tracking (hvalid sb hsb) (fun r hdr hhdr ↦ ?_) hturn
    fun r hdr hhdr ↦ ?_
  · rcases h.held r hdr hhdr with heq | hheld
    · exact .inl heq
    · exact .inr (hheld.cons sb)
  · have hhdr' := (lookup_insertPendingBlock_headers sb _ r).symm.trans hhdr
    split at hhdr'
    · rename_i hr
      exact .inl hr
    · exact .inr hhdr'

theorem Valid.not_wideSlot {roots : List H} (hvalid : Valid host s₀ blocks sb)
    (h : Tracking host s₀ blocks roots server queue) : ¬WideSlot host server.store sb := by
  rintro ⟨-, parent, hparent, hwide⟩
  obtain ⟨parent', st, hderived, hverify, -⟩ := hvalid
  obtain rfl := h.agrees _ _ _ hparent hderived
  refine verifySignatures_noPanic.mp ?_ hwide
  rw [hverify]
  exact .ok _

theorem Available.processBlock_returns (hh : HashSound host) (h : Available host server.store)
    (hwide : ¬WideSlot host server.store sb) :
    ∃ r server', Server.processBlock host sb server = .ok (r, server') := by
  obtain ⟨r, s', hblock⟩ := (h.coherent.onBlock_returns hh (Server.validatorIds host server)).mpr hwide
  have hav : Available host s' :=
    onBlockCore_keeps ((available_invariant hh).steady hh) sb true _ _ r s' h hblock
  unfold Server.processBlock
  rw [Op.get_bind]
  cases r with
  | error e => exact ⟨_, _, Op.bind_eq_ok.mpr (.inr ⟨e, Server.onStore_of_eq hblock, rfl⟩)⟩
  | ok u =>
    obtain ⟨hdr, hhdr⟩ := hav.relied.headHeader
    have hslot : (s'.headSlot : Exec (StoreError H) UInt64) = .ok hdr.slot := by
      rw [Store.headSlot, Store.getBlockHeader, hhdr]
      rfl
    rw [Op.bind_of_ok (Server.onStore_of_eq hblock), Op.get_bind, Op.lift_bind_of_ok hslot]
    exact ⟨_, _, rfl⟩

/-- A block that has the state of its parent is accepted, and its children come to the queue. Each
of them leaves the records. -/
theorem Synced.pass (hh : HashSound host) (hbody : Function.Injective host.body)
    (hvalid : ∀ sb ∈ blocks, Valid host s₀ blocks sb)
    (hnodup : (blocks.map fun sb ↦ host.block sb.message.block).Nodup)
    (h : Synced host s₀ blocks server (sb :: queue)) :
    ∃ more server', (Server.processOrPendBlock host sb :
      Op (Server host) ε (List (SignedBlockWithAttestation H))) server = .ok (.ok more, server') ∧
      Synced host s₀ blocks server' (queue ++ more) ∧
      more.length + server'.pendingBlockParents.keys.length ≤
        server.pendingBlockParents.keys.length := by
  have hsb := h.queued sb List.mem_cons_self
  obtain ⟨hroot, hparent⟩ := h.tracking.ready sb List.mem_cons_self
  obtain ⟨res, t, hprocess⟩ := h.backed.available.processBlock_returns hh
    ((hvalid sb hsb).not_wideSlot h.tracking)
  obtain ⟨s', hhandled, rfl⟩ := handled_of_processBlock hprocess
  have hav : Available host s' := Server.processBlock_keeps
    (Server.steadyOn ((available_invariant hh).steady hh) fun _ ↦ True) Server.holds_carries trivial
    server res _ h.backed.available hprocess
  obtain rfl : res = .ok () := by
    cases hhandled with
    | rejected hst he =>
      obtain ⟨post, hpost⟩ := (hvalid sb hsb).postState h.tracking hparent
      exact nomatch he.symm.trans hpost
    | known hst => rfl
    | imported hst hpost hframe => rfl
  obtain ⟨more, server', hcollect, hmore⟩ := exists_collected (ε := ε)
    { server with store := s' } (host.block sb.message.block)
  have heq : (Server.processOrPendBlock host sb :
      Op (Server host) ε (List (SignedBlockWithAttestation H))) server = .ok (.ok more, server') := by
    obtain ⟨st, hst⟩ := hparent
    unfold Server.processOrPendBlock
    rw [Op.get_bind, Store.hasState, hst, Option.isSome_some, Bool.not_true,
      if_neg Bool.false_ne_true, Op.bind_of_ok (Op.attempt_eq_ok.mpr hprocess)]
    exact hcollect
  have hpassed := hhandled.passed hbody
  have hturn := turn_of_processOrPendBlock heq
  refine ⟨more, server', heq, ⟨h.tracking.tail.turn hh hbody hroot hturn, ?_,
    h.recorded.passed h.tracking.loads hnodup hsb hpassed hmore, fun x hx ↦ ?_, ?_⟩,
    h.recorded.length_le hmore⟩
  · rw [hmore.store]
    cases hhandled with
    | known hst => exact h.backed
    | imported hst hpost hframe => exact h.backed.imported hbody hsb hst hpost hframe hav
  · rcases List.mem_append.mp hx with hx | hx
    · exact h.queued x (List.mem_cons_of_mem sb hx)
    · obtain ⟨c, hc, hload⟩ := (hmore.mem x).mp hx
      obtain ⟨y, hy, hget, -⟩ := h.recorded.children _ c hc
      rcases hpassed.loads c with hsame | ⟨-, hown⟩
      · rw [← Option.some.inj (hget.symm.trans (hsame.symm.trans hload))]
        exact hy
      · rw [← Option.some.inj (hown.symm.trans hload)]
        exact hsb
  · refine held_of_turn hbody h.tracking.tail (hvalid sb hsb) h.held hturn fun r hdr hhdr ↦ ?_
    rw [hmore.store] at hhdr
    exact hpassed.headers_of r hdr hhdr

/-- The queue runs dry: each turn takes one block from the queue and the records together. -/
theorem Synced.drainQueue (hh : HashSound host) (hbody : Function.Injective host.body)
    (hvalid : ∀ sb ∈ blocks, Valid host s₀ blocks sb)
    (hnodup : (blocks.map fun sb ↦ host.block sb.message.block).Nodup) {turns : ℕ}
    (h : Synced host s₀ blocks server queue)
    (hturns : queue.length + server.pendingBlockParents.keys.length ≤ turns) :
    ∃ server', (Server.drainQueue host turns queue : Op (Server host) ε Unit) server =
      .ok (.ok (), server') ∧ Synced host s₀ blocks server' [] := by
  induction turns generalizing server queue with
  | zero =>
    cases queue with
    | nil => exact ⟨server, rfl, h⟩
    | cons sb queue =>
      rw [List.length_cons] at hturns
      omega
  | succ turns ih =>
    cases queue with
    | nil => exact ⟨server, rfl, h⟩
    | cons sb queue =>
      obtain ⟨more, t, heq, ht, hle⟩ := h.pass (ε := ε) hh hbody hvalid hnodup
      rw [List.length_cons] at hturns
      obtain ⟨server', hdrain, hs⟩ := ih ht (by rw [List.length_append]; omega)
      refine ⟨server', ?_, hs⟩
      rw [Server.drainQueue, Op.bind_of_ok heq]
      exact hdrain

theorem Synced.records_le (h : Synced host s₀ blocks server queue) :
    server.pendingBlockParents.keys.length ≤ blocks.length := by
  have hsub : server.pendingBlockParents.keys ⊆ blocks.map fun sb ↦ host.block sb.message.block := by
    intro c hc
    obtain ⟨a, ha⟩ := Table.mem_iff_lookup.mp (AList.mem_keys.mp hc)
    obtain ⟨p, hp⟩ := (h.recorded.entries c).mp ⟨a, ha⟩
    obtain ⟨x, hx, hload, -⟩ := h.recorded.children p c hp
    rw [← h.tracking.loads c x hload]
    exact List.mem_map_of_mem hx
  have hle := (server.pendingBlockParents.keys_nodup.subperm hsub).length_le
  rwa [List.length_map] at hle

theorem Synced.deliver (hh : HashSound host) (hbody : Function.Injective host.body)
    (hs₀ : Fresh host s₀ anchor) (hvalid : ∀ sb ∈ blocks, Valid host s₀ blocks sb)
    (hnodup : (blocks.map fun sb ↦ host.block sb.message.block).Nodup)
    (hfew : blocks.length + 1 ≤ statesToKeep) (h : Synced host s₀ blocks server [])
    {d : ℕ × SignedBlockWithAttestation H} (hd : d.2 ∈ blocks) (hturns : blocks.length < d.1) :
    ∃ server', Server.deliver host server d = .ok server' ∧ Synced host s₀ blocks server' [] := by
  obtain ⟨turns, sb⟩ := d
  have hrecords := h.records_le
  obtain ⟨drained, hdrain, hend⟩ : ∃ drained,
      (Server.drainQueue host turns [sb] : Op (Server host) Empty Unit) server =
        .ok (.ok (), drained) ∧ Synced host s₀ blocks drained [] := by
    cases hparent : server.store.states.lookup sb.message.block.parentRoot with
    | none =>
      obtain ⟨t, heq, ht⟩ := h.putAside (ε := Empty) hh hbody hs₀ hvalid hnodup hd hparent
      cases turns with
      | zero => exact absurd hturns (Nat.not_lt_zero _)
      | succ turns =>
        refine ⟨t, ?_, ht⟩
        rw [Server.drainQueue, Op.bind_of_ok heq]
        cases turns <;> rfl
    | some st =>
      refine (h.cons hd ⟨st, hparent⟩).drainQueue hh hbody hvalid hnodup ?_
      rw [List.length_singleton]
      simp only at hturns
      omega
  have hkeys : drained.store.blockHeaders.keys.length ≤ blocks.length + 1 := by
    have hsub := (drained.store.blockHeaders.keys_nodup.subperm fun r hr ↦ by
      obtain ⟨hdr, hhdr⟩ := Table.mem_iff_lookup.mp (AList.mem_keys.mp hr)
      exact (hend.tracking.headers r hdr hhdr).2).length_le
    rwa [List.length_cons, List.length_map] at hsub
  have hdue : NothingDue host drained.store := nothingDue_of_few (hkeys.trans hfew)
  refine ⟨drained, ?_, hend⟩
  have hhandle : (Server.handle host turns (.newBlock sb) : Op (Server host) Empty Unit) server =
      .ok (.ok (), { drained with store := drained.store.pruneOldData host }) := by
    rw [Server.handle, Server.onBlock, Op.bind_of_ok hdrain]
    rfl
  rw [Server.deliver, Server.step, hhandle, hdue.pruneOldData]

end Synced

/-- Deliveries of blocks of the list, each of them at least once, with turns enough for a queue that
holds them all. -/
structure Covers (blocks : List (SignedBlockWithAttestation H))
    (ds : List (ℕ × SignedBlockWithAttestation H)) : Prop where
  listed : ∀ d ∈ ds, d.2 ∈ blocks ∧ blocks.length < d.1
  complete : ∀ sb ∈ blocks, ∃ d ∈ ds, d.2 = sb

section Runs

variable {anchor : State H} {ds : List (ℕ × SignedBlockWithAttestation H)}

theorem Synced.run (hh : HashSound host) (hbody : Function.Injective host.body)
    (hs₀ : Fresh host s₀ anchor) (hvalid : ∀ sb ∈ blocks, Valid host s₀ blocks sb)
    (hnodup : (blocks.map fun sb ↦ host.block sb.message.block).Nodup)
    (hfew : blocks.length + 1 ≤ statesToKeep) (h : Synced host s₀ blocks server [])
    (hds : ∀ d ∈ ds, d.2 ∈ blocks ∧ blocks.length < d.1) :
    ∃ server', Runs.run (Server.deliver host) server ds = .ok server' ∧
      Synced host s₀ blocks server' [] := by
  induction ds generalizing server with
  | nil => exact ⟨server, rfl, h⟩
  | cons d ds ih =>
    rw [List.forall_mem_cons] at hds
    obtain ⟨next, hs, hnext⟩ := h.deliver hh hbody hs₀ hvalid hnodup hfew hds.1.1 hds.1.2
    obtain ⟨server', hrun, hend⟩ := ih hnext hds.2
    exact ⟨server', Runs.run_cons_eq_ok.mpr ⟨next, hs, hrun⟩, hend⟩

theorem synced_spawn (hh : HashSound host) (hst : Anchor host st) {body : Option (BlockBody H)}
    (hinit : Store.initStore host st body = .ok s₀) (keys : Table UInt64 host.SecretKey)
    (isAggregator : Bool) (blocks : List (SignedBlockWithAttestation H)) :
    Synced host s₀ blocks (Server.spawn host s₀ keys isAggregator) [] := by
  have hs₀ := fresh_initStore hh hst hinit
  have hnone (p c : H) : ¬Waits (Server.spawn host s₀ keys isAggregator) p c := by
    rintro ⟨l, hl, -⟩
    exact nomatch hl
  have hbacked : Backed host s₀ blocks s₀ := by
    have hcapped := justifiedCapped_initStore hh hst hinit
    refine ⟨available_initStore hh hst hinit, fun r st ↦ .anchor,
      fun r hdr hhdr ↦ .inl (hs₀.headers r hdr hhdr).2, ⟨le_rfl, fun r st hr ↦ ?_, .inl rfl⟩,
      ⟨le_rfl, fun r st hr ↦ ?_, .inl rfl⟩⟩
    · exact UInt64.le_iff_toNat_le.mp (hcapped r st hr)
    · obtain ⟨rfl, rfl⟩ := (hs₀.states _ _).mp hr
      rw [initStore_finalized hinit]
      exact hs₀.stored.wellformed.aligned.finalized_le_justified.trans
        (UInt64.le_iff_toNat_le.mp (hcapped _ _ hr))
  have hrecorded : Recorded host blocks (Server.spawn host s₀ keys isAggregator) := by
    constructor
    case children => exact fun p c hp ↦ absurd hp (hnone p c)
    case lists => exact fun p l hl ↦ nomatch hl
    case entries =>
      intro c
      constructor
      · rintro ⟨a, ha⟩
        exact nomatch ha
      · rintro ⟨p, hp⟩
        exact absurd hp (hnone p c)
    case paths => exact fun c a ha ↦ nomatch ha
  exact ⟨tracking_spawn hh hs₀ keys isAggregator blocks List.mem_cons_self, hbacked, hrecorded,
    fun x hx ↦ absurd hx List.not_mem_nil, fun r hdr hhdr ↦ .inl (hs₀.headers r hdr hhdr).2⟩

/-- After deliveries of valid blocks only, every block that came has survived. -/
theorem Covers.survives (hds : Covers blocks ds) (hvalid : ∀ sb ∈ blocks, Valid host s₀ blocks sb)
    (hsb : sb ∈ blocks) : Survives host s₀ blocks server ds (host.block sb.message.block) := by
  obtain ⟨d, hd, rfl⟩ := hds.complete sb hsb
  obtain ⟨pre, post, rfl⟩ := List.append_of_mem hd
  refine ⟨pre, d, post, rfl, rfl, hvalid d.2 hsb, fun mid _ p hp hdis ↦ ?_⟩
  have hmem := List.mem_append_right pre (Runs.mem_of_mem_trace hp)
  exact hdis.2.1 (hvalid p.2.2 (hds.listed p.2 hmem).1)

/-- The end of every such run: all blocks have their states, nothing else has one, and nothing
waits. -/
structure Finished (host : Host H) (s₀ : Store H) (blocks : List (SignedBlockWithAttestation H))
    (server : Server host) : Prop where
  states : ∀ r st, server.store.states.lookup r = some st ↔ Derived host s₀ blocks r st
  pendingBlocks : server.pendingBlocks = ∅
  pendingBlockParents : server.pendingBlockParents = ∅

theorem Covers.finished (hh : HashSound host) (hbody : Function.Injective host.body)
    (hst : Anchor host st) {body : Option (BlockBody H)}
    (hinit : Store.initStore host st body = .ok s₀)
    (hvalid : ∀ sb ∈ blocks, Valid host s₀ blocks sb)
    (hnodup : (blocks.map fun sb ↦ host.block sb.message.block).Nodup)
    (hfew : blocks.length + 1 ≤ statesToKeep) (keys : Table UInt64 host.SecretKey)
    (isAggregator : Bool) (hds : Covers blocks ds) :
    ∃ server, Runs.run (Server.deliver host) (Server.spawn host s₀ keys isAggregator) ds =
      .ok server ∧ Backed host s₀ blocks server.store ∧ Finished host s₀ blocks server := by
  have hs₀ := fresh_initStore hh hst hinit
  have hspawn := synced_spawn hh hst hinit keys isAggregator blocks
  obtain ⟨server, hrun, hend⟩ := hspawn.run hh hbody hs₀ hvalid hnodup hfew hds.listed
  have hroots (d : ℕ × SignedBlockWithAttestation H) (hd : d ∈ ds) : host.block d.2.message.block ∈
      s₀.head :: blocks.map fun sb ↦ host.block sb.message.block :=
    List.mem_cons_of_mem _ (List.mem_map_of_mem (hds.listed d hd).1)
  have hstate {r : H} {st : State H} (hderived : Derived host s₀ blocks r st) :
      ∃ st', server.store.states.lookup r = some st' := by
    refine hend.tracking.states_of_held hh hbody (fun sb hsb ↦ ?_) hderived
    exact (hds.survives hvalid hsb).held hh hbody (by simpa using hfew) hspawn.tracking hroots hrun
  have hwaits (p c : H) : ¬Waits server p c := by
    rintro ⟨l, hl, hc⟩
    obtain ⟨x, hx, -, rfl⟩ := hend.recorded.children p c ⟨l, hl, hc⟩
    obtain ⟨parent, -, hderived, -⟩ := hvalid x hx
    obtain ⟨st', hst'⟩ := hstate hderived
    exact nomatch (hend.recorded.lists _ l hl).2.2.symm.trans hst'
  refine ⟨server, hrun, hend.backed, fun r st ↦ ⟨hend.backed.sound r st, fun hderived ↦ ?_⟩,
    Table.eq_empty fun p ↦ ?_, Table.eq_empty fun c ↦ ?_⟩
  · obtain ⟨st', hst'⟩ := hstate hderived
    rw [hst', hend.tracking.agrees r st' st hst' hderived]
  · refine Option.eq_none_iff_forall_ne_some.mpr fun l hl ↦ ?_
    obtain ⟨c, hc⟩ := List.exists_mem_of_ne_nil l (hend.recorded.lists p l hl).1
    exact hwaits p c ⟨l, hl, hc⟩
  · refine Option.eq_none_iff_forall_ne_some.mpr fun a ha ↦ ?_
    obtain ⟨p, hp⟩ := (hend.recorded.entries c).mp ⟨a, ha⟩
    exact hwaits p c hp

end Runs

/-- Whatever the order in which valid blocks come, and however often, in the end each has its state
and nothing waits. Two such runs, one of which may bring parents first, end with the same states and
with their checkpoints at the same slots. -/
theorem sync_order_independent (hh : HashSound host) (hbody : Function.Injective host.body)
    (hst : Anchor host st) {body : Option (BlockBody H)}
    (hinit : Store.initStore host st body = .ok s₀)
    (hvalid : ∀ sb ∈ blocks, Valid host s₀ blocks sb)
    (hnodup : (blocks.map fun sb ↦ host.block sb.message.block).Nodup)
    (hfew : blocks.length + 1 ≤ statesToKeep) (keys : Table UInt64 host.SecretKey)
    (isAggregator : Bool) {ds ds' : List (ℕ × SignedBlockWithAttestation H)}
    (hds : Covers blocks ds) (hds' : Covers blocks ds') :
    ∃ server server', Runs.run (Server.deliver host) (Server.spawn host s₀ keys isAggregator) ds =
        .ok server ∧
      Runs.run (Server.deliver host) (Server.spawn host s₀ keys isAggregator) ds' = .ok server' ∧
      (∀ sb ∈ blocks, ∃ st, server.store.states.lookup (host.block sb.message.block) = some st) ∧
      server.pendingBlocks = ∅ ∧ server.pendingBlockParents = ∅ ∧
      (∀ r, server.store.states.lookup r = server'.store.states.lookup r) ∧
      server.store.latestJustified.slot = server'.store.latestJustified.slot ∧
      server.store.latestFinalized.slot = server'.store.latestFinalized.slot := by
  obtain ⟨server, hrun, hb, hf⟩ := hds.finished hh hbody hst hinit hvalid hnodup hfew keys isAggregator
  obtain ⟨server', hrun', hb', hf'⟩ :=
    hds'.finished hh hbody hst hinit hvalid hnodup hfew keys isAggregator
  have hstates (r : H) : server.store.states.lookup r = server'.store.states.lookup r := by
    refine Option.ext fun st ↦ ?_
    rw [hf.states, hf'.states]
  refine ⟨server, server', hrun, hrun', fun sb hsb ↦ ?_, hf.pendingBlocks, hf.pendingBlockParents,
    hstates, UInt64.toNat_inj.mp (hb.justified.unique hb'.justified hstates),
    UInt64.toNat_inj.mp (hb.finalized.unique hb'.finalized hstates)⟩
  obtain ⟨st', hderived⟩ := (hvalid sb hsb).derived hsb
  exact ⟨st', (hf.states _ _).mpr hderived⟩

section Sample

theorem sampleChain_covers {ds : List (ℕ × SignedBlockWithAttestation ℕ)}
    (hlisted : ∀ d ∈ ds, d = (3, sampleFirst) ∨ d = (3, sampleLate))
    (hfirst : (3, sampleFirst) ∈ ds) (hlate : (3, sampleLate) ∈ ds) : Covers sampleChain ds := by
  refine ⟨fun d hd ↦ ?_, fun sb hsb ↦ ?_⟩
  · rcases hlisted d hd with rfl | rfl
    · exact ⟨List.mem_cons_self, by decide⟩
    · exact ⟨List.mem_cons_of_mem _ List.mem_cons_self, by decide⟩
  · simp only [sampleChain, List.mem_cons, List.not_mem_nil, or_false] at hsb
    rcases hsb with rfl | rfl
    · exact ⟨_, hfirst, rfl⟩
    · exact ⟨_, hlate, rfl⟩

/-- The two sample blocks, once with the child first and once in order and with a repetition. -/
theorem sync_order_independent_sample :
    ∃ server server', Runs.run (Server.deliver distinctHost) distinctServer
        [(3, sampleLate), (3, sampleFirst)] = .ok server ∧
      Runs.run (Server.deliver distinctHost) distinctServer
        [(3, sampleFirst), (3, sampleLate), (3, sampleFirst)] = .ok server' ∧
      (∀ sb ∈ sampleChain, ∃ st,
        server.store.states.lookup (distinctHost.block sb.message.block) = some st) ∧
      server.pendingBlocks = ∅ ∧ server.pendingBlockParents = ∅ ∧
      (∀ r, server.store.states.lookup r = server'.store.states.lookup r) ∧
      server.store.latestJustified.slot = server'.store.latestJustified.slot ∧
      server.store.latestFinalized.slot = server'.store.latestFinalized.slot := by
  refine sync_order_independent distinctHost_hashSound bodyCode_injective distinctHost_anchor
    distinctHost_initStore sampleChain_valid (by decide +kernel) (by decide) ∅ false
    (sampleChain_covers ?_ ?_ ?_) (sampleChain_covers ?_ ?_ ?_)
  · simp
  · simp
  · simp
  · simp
  · simp
  · simp

end Sample

end Ethlambda.Chain
