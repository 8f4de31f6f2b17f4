import Ethlambda.Chain.Pools
import Ethlambda.Chain.Server

namespace Ethlambda.Chain

open Ethlambda.Base Ethlambda.Types Ethlambda.Storage Ethlambda.StateTransition Ethlambda.ForkChoice

set_option linter.unusedSectionVars false

variable {H : Type} [LinearOrder H] [Zero H] {host : Host H} {s s' : Store H} {ε : Type}

/-- The number of the interval that a timestamp falls into. -/
def intervalAt (genesisTime timestampMs : UInt64) : ℕ :=
  (timestampMs.toNat - genesisTime.toNat * 1000) / millisecondsPerInterval

/-- The intervals after `time` up to the target, and at most the last slot of them. -/
def dueIntervals (time target : ℕ) : List ℕ :=
  List.range' (max time (target - intervalsPerSlot) + 1)
    (target - max time (target - intervalsPerSlot))

/-- One interval: the clock shows its number, and its part of the slot's work is done. -/
def runInterval (host : Host H) (target : ℕ) (hasProposal isAggregator : Bool) (interval : ℕ) :
    Op (Store H) ε (List (SignedAggregatedAttestation H)) := do
  Op.modify fun s ↦ { s with time := UInt64.ofNat interval }
  processInterval host (interval % intervalsPerSlot) (hasProposal && interval == target) isAggregator

/-- A list of intervals, one after the other. -/
def runIntervals (host : Host H) (target : ℕ) (hasProposal isAggregator : Bool) :
    List ℕ → Op (Store H) ε (List (SignedAggregatedAttestation H))
  | [] => pure []
  | interval :: intervals => do
    let new ← runInterval host target hasProposal isAggregator interval
    let rest ← runIntervals host target hasProposal isAggregator intervals
    pure (new ++ rest)

theorem mem_dueIntervals {time target k : ℕ} :
    k ∈ dueIntervals time target ↔ max time (target - intervalsPerSlot) < k ∧ k ≤ target := by
  rw [dueIntervals, List.mem_range'_1]
  omega

theorem dueIntervals_pairwise (time target : ℕ) : (dueIntervals time target).Pairwise (· < ·) :=
  List.pairwise_lt_range'

section Clock

variable {time : UInt64}

theorem updateHead_clock (time : UInt64) :
    Op.Keeps (fun s : Store H ↦ s.time = time) (updateHead host : Op (Store H) ε Unit) := by
  intro s r s' hs h
  obtain ⟨g, -, rfl⟩ := updateHead_eq_ok h
  exact hs

theorem acceptNewAttestations_clock (time : UInt64) :
    Op.Keeps (fun s : Store H ↦ s.time = time) (acceptNewAttestations host : Op (Store H) ε Unit) :=
  Op.Keeps.bind (Op.Keeps.modify fun _ hs ↦ hs) fun _ ↦ updateHead_clock time

theorem updateSafeTarget_clock (time : UInt64) :
    Op.Keeps (fun s : Store H ↦ s.time = time) (updateSafeTarget host : Op (Store H) ε Unit) := by
  intro s r s' hs h
  obtain rfl | ⟨g, -, rfl⟩ := updateSafeTarget_eq_ok h
  · exact hs
  · exact hs

theorem aggregateCommitteeSignatures_clock (time : UInt64) :
    Op.Keeps (fun s : Store H ↦ s.time = time) (aggregateCommitteeSignatures host :
      Op (Store H) ε (List (SignedAggregatedAttestation H))) := by
  refine Op.Keeps.bind Op.Keeps.get fun s ↦ ?_
  apply Op.Keeps.ite
  · exact fun _ ↦ Op.Keeps.pure _
  · intro _
    refine Op.Keeps.bind (Op.Keeps.lift _) fun st ↦ Op.Keeps.bind (Op.Keeps.lift _) fun acc ↦ ?_
    exact Op.Keeps.bind (Op.Keeps.modify fun _ hs ↦ hs) fun _ ↦
      Op.Keeps.bind (Op.Keeps.modify fun _ hs ↦ hs) fun _ ↦ Op.Keeps.pure _

/-- The work of an interval leaves the clock alone. -/
theorem processInterval_clock (interval : ℕ) (signal isAggregator : Bool) (time : UInt64) :
    Op.Keeps (fun s : Store H ↦ s.time = time) (processInterval host interval signal isAggregator :
      Op (Store H) ε (List (SignedAggregatedAttestation H))) := by
  unfold processInterval
  split
  · apply Op.Keeps.ite
    · exact fun _ ↦ Op.Keeps.bind (acceptNewAttestations_clock time) fun _ ↦ Op.Keeps.pure _
    · exact fun _ ↦ Op.Keeps.pure _
  · exact Op.Keeps.pure _
  · apply Op.Keeps.ite
    · exact fun _ ↦ aggregateCommitteeSignatures_clock time
    · exact fun _ ↦ Op.Keeps.pure _
  · exact Op.Keeps.bind (updateSafeTarget_clock time) fun _ ↦ Op.Keeps.pure _
  · exact Op.Keeps.bind (acceptNewAttestations_clock time) fun _ ↦ Op.Keeps.pure _
  · exact Op.Keeps.lift _

end Clock

section Tick

/-- The loop of a tick runs the intervals up to its target. -/
theorem tickIntervals_eq {target turns : ℕ} (hasProposal isAggregator : Bool)
    (hturns : s.time.toNat + turns = target) (hsmall : target < 2 ^ 64) :
    (tickIntervals host target hasProposal isAggregator turns :
        Op (Store H) ε (List (SignedAggregatedAttestation H))) s =
      runIntervals host target hasProposal isAggregator (List.range' (s.time.toNat + 1) turns) s := by
  induction turns generalizing s with
  | zero => rfl
  | succ turns ih =>
    have hnext : (s.time + 1).toNat = s.time.toNat + 1 := by
      rw [UInt64.toNat_add, UInt64.toNat_one]
      omega
    have hclock : s.time + 1 = UInt64.ofNat (s.time.toNat + 1) := by
      rw [← hnext, UInt64.ofNat_toNat]
    rw [tickIntervals, Op.get_bind, if_pos (by omega), Op.modify_bind, Op.get_bind, List.range'_succ,
      runIntervals, runInterval, bind_assoc, Op.modify_bind]
    dsimp only
    rw [hnext, ← hclock]
    refine Op.bind_congr_of_ok fun new t ht ↦ ?_
    have htime : t.time = s.time + 1 := processInterval_clock _ _ _ _ _ _ _ rfl ht
    have hrest := ih (s := t) (by rw [htime, hnext]; omega)
    rw [htime, hnext] at hrest
    rw [Op.bind_apply, Op.bind_apply, hrest]

theorem intervalAt_lt (genesisTime timestampMs : UInt64) :
    intervalAt genesisTime timestampMs < 2 ^ 64 := by
  have hlt := timestampMs.toNat_lt
  have hdiv := Nat.div_le_self (timestampMs.toNat - genesisTime.toNat * 1000) millisecondsPerInterval
  rw [intervalAt]
  omega

/-- A tick runs the due intervals, each once and in order. -/
theorem onTick_eq_runIntervals (hgenesis : s.config.genesisTime.toNat * 1000 < 2 ^ 64)
    (timestampMs : UInt64) (hasProposal isAggregator : Bool) :
    (onTick host timestampMs hasProposal isAggregator :
        Op (Store H) ε (List (SignedAggregatedAttestation H))) s =
      runIntervals host (intervalAt s.config.genesisTime timestampMs) hasProposal isAggregator
        (dueIntervals s.time.toNat (intervalAt s.config.genesisTime timestampMs)) s := by
  have hsmall := intervalAt_lt s.config.genesisTime timestampMs
  have hmul : (Exec.mul64 s.config.genesisTime.toNat 1000 : Exec ε ℕ) =
      .ok (s.config.genesisTime.toNat * 1000) := if_pos hgenesis
  rw [onTick, Op.get_bind, Op.lift_bind_of_ok hmul]
  generalize htarget : intervalAt s.config.genesisTime timestampMs = target at hsmall ⊢
  rw [intervalAt] at htarget
  have hfive : intervalsPerSlot = 5 := rfl
  simp only [htarget]
  split
  · rename_i hlag
    -- the clock jumps, and the first interval then sets it anew
    have hjump : (UInt64.ofNat (target - intervalsPerSlot)).toNat = target - intervalsPerSlot := by
      rw [UInt64.toNat_ofNat']
      omega
    have hdue : dueIntervals s.time.toNat target =
        List.range' (target - intervalsPerSlot + 1) 5 := by
      rw [dueIntervals]
      congr 1 <;> omega
    rw [Op.modify_bind, Op.get_bind, tickIntervals_eq _ _ (by dsimp only; omega) hsmall, hdue]
    dsimp only
    rw [hjump, show target - (target - intervalsPerSlot) = 5 by omega]
    rfl
  · rename_i hlag
    rw [pure_bind, Op.get_bind]
    rcases Nat.lt_or_ge target s.time.toNat with hlt | hge
    · have hdue : dueIntervals s.time.toNat target = [] := by
        rw [dueIntervals, show target - max s.time.toNat (target - intervalsPerSlot) = 0 by omega]
        rfl
      rw [Nat.sub_eq_zero_of_le hlt.le, hdue]
      rfl
    · have hdue : dueIntervals s.time.toNat target =
          List.range' (s.time.toNat + 1) (target - s.time.toNat) := by
        rw [dueIntervals]
        congr 1 <;> omega
      rw [tickIntervals_eq _ _ (by omega) hsmall, hdue]

end Tick

section Infallible

variable {σ α β : Type}

theorem aggregationBitsFromValidatorIndices_ne_fail (ids : List UInt64) (e : ε) :
    aggregationBitsFromValidatorIndices ids ≠ Exec.fail e := by
  unfold aggregationBitsFromValidatorIndices
  split
  · exact Exec.expect_ne_fail
  · refine Exec.bind_ne_fail Exec.checked_ne_fail fun capacity _ ↦ ?_
    refine Exec.bind_ne_fail Exec.expect_ne_fail fun bits _ ↦ ?_
    exact Exec.foldlM_ne_fail (fun _ _ _ ↦ Exec.expect_ne_fail) ids bits e

theorem aggregateGroup_ne_fail (s : Store H) (validators : List Validator) (acc : Aggregation H)
    (group : H × List (UInt64 × host.Signature)) (e : ε) :
    aggregateGroup host s validators acc group ≠ Exec.fail e := by
  unfold aggregateGroup
  split
  · exact nofun
  · dsimp only
    split
    · exact nofun
    · split
      · exact nofun
      · exact Exec.bind_ne_fail (aggregationBitsFromValidatorIndices_ne_fail _ e) fun _ _ ↦ nofun

theorem acceptNewAttestations_infallible :
    Op.Infallible (acceptNewAttestations host : Op (Store H) ε Unit) :=
  .bind (.modify _) fun _ ↦ updateHead_infallible

theorem processInterval_infallible (interval : ℕ) (signal isAggregator : Bool) :
    Op.Infallible (processInterval host interval signal isAggregator :
      Op (Store H) ε (List (SignedAggregatedAttestation H))) := by
  unfold processInterval
  split
  · exact .ite (.bind acceptNewAttestations_infallible fun _ ↦ .pure _) (.pure _)
  · exact .pure _
  · refine .ite (.bind .get fun s ↦ .ite (.pure _) ?_) (.pure _)
    refine .bind (.lift fun _ ↦ Exec.expect_ne_fail) fun st ↦ ?_
    refine .bind (.lift fun e ↦ Exec.foldlM_ne_fail ?_ _ _ e) fun acc ↦ ?_
    · exact fun acc group e ↦ aggregateGroup_ne_fail s _ acc group e
    · exact .bind (.modify _) fun _ ↦ .bind (.modify _) fun _ ↦ .pure _
  · refine .bind (.bind .get fun s ↦ ?_) fun _ ↦ .pure _
    exact .bind (.lift fun _ ↦ Exec.expect_ne_fail) fun st ↦
      .bind (.lift fun _ ↦ computeLmdGhostHead_ne_fail) fun _ ↦ .modify _
  · exact .bind acceptNewAttestations_infallible fun _ ↦ .pure _
  · exact .lift nofun

theorem runIntervals_infallible (target : ℕ) (hasProposal isAggregator : Bool)
    (intervals : List ℕ) :
    Op.Infallible (runIntervals host target hasProposal isAggregator intervals :
      Op (Store H) ε (List (SignedAggregatedAttestation H))) := by
  induction intervals with
  | nil => exact .pure _
  | cons interval intervals ih =>
    exact .bind (.bind (.modify _) fun _ ↦ processInterval_infallible _ _ _) fun _ ↦
      .bind ih fun _ ↦ .pure _

end Infallible

section Time

/-- After consecutive intervals the clock shows the last of them. -/
theorem runIntervals_time {target k n : ℕ} {hasProposal isAggregator : Bool} {r : Except ε _}
    (hsmall : k + n < 2 ^ 64)
    (h : runIntervals host target hasProposal isAggregator (List.range' (k + 1) n) s = .ok (r, s')) :
    s'.time.toNat = if n = 0 then s.time.toNat else k + n := by
  induction n generalizing k s r with
  | zero =>
    obtain ⟨-, rfl⟩ := Prod.mk.inj (Except.ok.inj h)
    rfl
  | succ n ih =>
    rw [if_neg (Nat.succ_ne_zero n)]
    rw [List.range'_succ, runIntervals] at h
    rcases Op.bind_eq_ok.mp h with ⟨new, t, hfirst, hrest⟩ | ⟨e, he, -⟩
    · have htime : t.time = UInt64.ofNat (k + 1) := by
        have hkeep : Op.Keeps (fun s : Store H ↦ s.time = UInt64.ofNat (k + 1))
            (processInterval host ((k + 1) % intervalsPerSlot) (hasProposal && k + 1 == target)
              isAggregator : Op (Store H) ε (List (SignedAggregatedAttestation H))) :=
          processInterval_clock _ _ _ _
        exact hkeep { s with time := UInt64.ofNat (k + 1) } _ _ rfl hfirst
      have hclock : t.time.toNat = k + 1 := by
        rw [htime, UInt64.toNat_ofNat']
        omega
      rcases Op.bind_eq_ok.mp hrest with ⟨more, u, hu, hpure⟩ | ⟨e, he, -⟩
      · obtain ⟨-, rfl⟩ := Prod.mk.inj (Except.ok.inj hpure)
        have hlater := ih (by omega) hu
        rw [hlater, hclock]
        split <;> omega
      · exact absurd he (runIntervals_infallible _ _ _ _ _ _ _)
    · exact absurd he (processInterval_infallible _ _ _ _ _ _)

theorem dueIntervals_time {target : ℕ} {hasProposal isAggregator : Bool} {r : Except ε _}
    (hsmall : target < 2 ^ 64)
    (h : runIntervals host target hasProposal isAggregator (dueIntervals s.time.toNat target) s =
      .ok (r, s')) : s'.time.toNat = max s.time.toNat target := by
  have htime := s.time.toNat_lt
  have hfive : intervalsPerSlot = 5 := rfl
  rcases Nat.lt_or_ge s.time.toNat target with hlt | hge
  · have hclock := runIntervals_time (by omega) h
    rw [hclock]
    split <;> omega
  · rw [dueIntervals, show target - max s.time.toNat (target - intervalsPerSlot) = 0 by omega] at h
    obtain ⟨-, rfl⟩ := Prod.mk.inj (Except.ok.inj h)
    omega

end Time

section Calls

/-- The intervals that a call runs: its own tick's, or those of the tick in the search for the head
to propose on. -/
def intervalsRun (s : Store H) : Call H → List ℕ
  | .onTick timestampMs _ _ =>
    dueIntervals s.time.toNat (intervalAt s.config.genesisTime timestampMs)
  | .produceBlockWithSignatures slot _ => dueIntervals s.time.toNat (slot.toNat * intervalsPerSlot)
  | _ => []

/-- A call with the intervals of its tick spelled out. -/
def performOver (host : Host H) (s : Store H) (intervals : List ℕ) :
    Call H → Op (Store H) (StoreError H) Unit
  | .onTick timestampMs hasProposal isAggregator =>
    Call.discard (runIntervals host (intervalAt s.config.genesisTime timestampMs) hasProposal
      isAggregator intervals)
  | .produceBlockWithSignatures slot validatorIndex => Call.discard (do
    let _ ← runIntervals host (slot.toNat * intervalsPerSlot) true false intervals
    acceptNewAttestations host
    let s ← Op.get
    Op.lift (produceBlockFrom host s s.head slot validatorIndex))
  | c => c.perform host

/-- No timestamp that the call computes is too large for its type. -/
def ClockFits (s : Store H) : Call H → Prop
  | .onTick _ _ _ => s.config.genesisTime.toNat * 1000 < 2 ^ 64
  | .produceBlockWithSignatures slot _ =>
    s.config.genesisTime.toNat * 1000 + slot.toNat * millisecondsPerSlot < 2 ^ 64
  | _ => True

theorem intervalAt_slot {genesisTime slot : UInt64}
    (h : genesisTime.toNat * 1000 + slot.toNat * millisecondsPerSlot < 2 ^ 64) :
    intervalAt genesisTime
      (UInt64.ofNat (genesisTime.toNat * 1000 + slot.toNat * millisecondsPerSlot)) =
      slot.toNat * intervalsPerSlot := by
  rw [intervalAt, UInt64.toNat_ofNat', Nat.mod_eq_of_lt h, Nat.add_sub_cancel_left]
  change slot.toNat * (800 * 5) / 800 = slot.toNat * 5
  omega

theorem getProposalHead_eq {slot : UInt64}
    (h : s.config.genesisTime.toNat * 1000 + slot.toNat * millisecondsPerSlot < 2 ^ 64) :
    (getProposalHead host slot : Op (Store H) ε H) s = (do
      let _ ← runIntervals host (slot.toNat * intervalsPerSlot) true false
        (dueIntervals s.time.toNat (slot.toNat * intervalsPerSlot))
      acceptNewAttestations host
      let s ← Op.get
      pure s.head : Op (Store H) ε H) s := by
  have hfits := (Nat.le_add_right _ _).trans_lt h
  have hgenesis : (Exec.mul64 s.config.genesisTime.toNat 1000 : Exec ε ℕ) =
      .ok (s.config.genesisTime.toNat * 1000) := if_pos hfits
  have hoffset : (Exec.mul64 slot.toNat millisecondsPerSlot : Exec ε ℕ) =
      .ok (slot.toNat * millisecondsPerSlot) := if_pos ((Nat.le_add_left _ _).trans_lt h)
  have htime : (Exec.add64 (s.config.genesisTime.toNat * 1000) (slot.toNat * millisecondsPerSlot) :
      Exec ε ℕ) = .ok (s.config.genesisTime.toNat * 1000 + slot.toNat * millisecondsPerSlot) :=
    if_pos h
  rw [getProposalHead, Op.get_bind, Op.lift_bind_of_ok hgenesis, Op.lift_bind_of_ok hoffset,
    Op.lift_bind_of_ok htime, Op.bind_apply, Op.bind_apply,
    onTick_eq_runIntervals hfits, intervalAt_slot h]

/-- What a call runs is what its log says. -/
theorem perform_eq_performOver {c : Call H} (h : ClockFits s c) :
    c.perform host s = performOver host s (intervalsRun s c) c s := by
  cases c with
  | onTick timestampMs hasProposal isAggregator =>
    change Call.discard _ s = Call.discard _ s
    rw [Call.discard, Call.discard, Op.bind_apply, Op.bind_apply, onTick_eq_runIntervals h]
    rfl
  | produceBlockWithSignatures slot validatorIndex =>
    change Call.discard _ s = Call.discard _ s
    rw [Call.discard, Call.discard, Op.bind_apply, Op.bind_apply, produceBlockWithSignatures,
      Op.bind_apply, getProposalHead_eq h, ← Op.bind_apply]
    simp only [bind_assoc, pure_bind]
    rfl
  | _ => rfl

theorem updateCheckpoints_time (s : Store H) (c : ForkCheckpoints H) :
    (s.updateCheckpoints host c).time = s.time := by
  unfold Store.updateCheckpoints
  dsimp only
  split
  · split
    · rfl
    · rfl
  · rfl

theorem recordBlock_time (sb : SignedBlockWithAttestation H) (post : State H) (s : Store H) :
    (recordBlock host sb post s).time = s.time := by
  have hwrite : ∀ t : Store H, (writeBlock host sb post t).time = t.time := fun _ ↦ rfl
  have hadopt : ∀ justified finalized, (if justified.isSome || finalized.isSome then
      s.updateCheckpoints host ⟨s.head, justified, finalized⟩ else s).time = s.time := by
    intro justified finalized
    split
    · exact updateCheckpoints_time s _
    · rfl
  rw [recordBlock, hwrite, adoptCheckpoints]
  exact hadopt _ _

theorem onBlock_time {sb : SignedBlockWithAttestation H} {ids : List UInt64}
    {r : Except (StoreError H) Unit} (h : onBlock host sb ids s = .ok (r, s')) :
    s'.time = s.time := by
  rcases onBlock_eq_ok h with ⟨rfl, -⟩ | ⟨post, head, -, -, -, hs⟩
  · rfl
  · have htime : (recordBlock host sb post s).time = s.time := recordBlock_time sb post s
    generalize recordBlock host sb post s = u at htime hs
    rcases hs with rfl | ⟨-, sig, -, rfl⟩
    · exact htime
    · exact htime

theorem onGossipAttestation_clock (time : UInt64) (signed : SignedAttestation H)
    (ids : List UInt64) :
    Op.Keeps (fun s : Store H ↦ s.time = time) (onGossipAttestation host signed ids) := by
  refine Op.Keeps.bind Op.Keeps.get fun s ↦ Op.Keeps.bind (Op.Keeps.lift _) fun sig ↦ ?_
  refine Op.Keeps.bind (Op.Keeps.modify fun _ hs ↦ hs) fun _ ↦ ?_
  apply Op.Keeps.ite
  · exact fun _ ↦ Op.Keeps.modify fun _ hs ↦ hs
  · exact fun _ ↦ Op.Keeps.pure _

theorem onGossipAggregatedAttestation_clock (time : UInt64)
    (aggregated : SignedAggregatedAttestation H) :
    Op.Keeps (fun s : Store H ↦ s.time = time) (onGossipAggregatedAttestation host aggregated) := by
  refine Op.Keeps.bind Op.Keeps.get fun s ↦ Op.Keeps.bind (Op.Keeps.lift _) fun _ ↦ ?_
  exact Op.Keeps.bind (Op.Keeps.modify fun _ hs ↦ hs) fun _ ↦ Op.Keeps.modify fun _ hs ↦ hs

theorem onTick_time {timestampMs : UInt64} {hasProposal isAggregator : Bool} {r : Except ε _}
    (h : onTick host timestampMs hasProposal isAggregator s = .ok (r, s')) :
    s'.time.toNat = max s.time.toNat (intervalAt s.config.genesisTime timestampMs) := by
  by_cases hgenesis : s.config.genesisTime.toNat * 1000 < 2 ^ 64
  · rw [onTick_eq_runIntervals hgenesis] at h
    exact dueIntervals_time (intervalAt_lt _ _) h
  · -- the genesis time in milliseconds does not fit: the tick does not return
    have hpanic : (Exec.mul64 s.config.genesisTime.toNat 1000 : Exec ε ℕ) = Exec.panic .overflow :=
      if_neg hgenesis
    rw [onTick, Op.get_bind, Op.bind_apply, hpanic] at h
    exact nomatch h

theorem getProposalHead_time {slot : UInt64} {r : Except ε H}
    (h : getProposalHead host slot s = .ok (r, s')) :
    s'.time.toNat = max s.time.toNat (slot.toNat * intervalsPerSlot) := by
  by_cases hfits : s.config.genesisTime.toNat * 1000 + slot.toNat * millisecondsPerSlot < 2 ^ 64
  · rw [getProposalHead_eq hfits] at h
    have hsmall : slot.toNat * intervalsPerSlot < 2 ^ 64 := by
      rw [← intervalAt_slot hfits]
      exact intervalAt_lt _ _
    rcases Op.bind_eq_ok.mp h with ⟨new, t, ht, hrest⟩ | ⟨e, he, -⟩
    · have hkeep : Op.Keeps (fun s : Store H ↦ s.time = t.time) (do
          acceptNewAttestations host
          let s ← Op.get
          pure s.head : Op (Store H) ε H) :=
        Op.Keeps.bind (acceptNewAttestations_clock t.time) fun _ ↦
          Op.Keeps.bind Op.Keeps.get fun s ↦ Op.Keeps.pure s.head
      have hclock := hkeep t r s' rfl hrest
      rw [hclock]
      exact dueIntervals_time hsmall ht
    · exact absurd he (runIntervals_infallible _ _ _ _ _ _ _)
  · -- the slot's time does not fit: there is no tick at all
    rw [getProposalHead, Op.get_bind] at h
    obtain ⟨genesisTimeMs, hgenesis, h⟩ := (Op.lift_bind_eq_ok fun _ ↦ Exec.checked_ne_fail).mp h
    obtain ⟨slotOffsetMs, hoffset, h⟩ := (Op.lift_bind_eq_ok fun _ ↦ Exec.checked_ne_fail).mp h
    obtain ⟨slotTimeMs, htime, -⟩ := (Op.lift_bind_eq_ok fun _ ↦ Exec.checked_ne_fail).mp h
    obtain ⟨-, rfl⟩ := Exec.checked_eq_ok.mp hgenesis
    obtain ⟨-, rfl⟩ := Exec.checked_eq_ok.mp hoffset
    exact absurd (Exec.checked_eq_ok.mp htime).1 hfits

theorem produceBlockWithSignatures_time {slot validatorIndex : UInt64}
    {r : Except (StoreError H) Unit}
    (h : Call.discard (produceBlockWithSignatures host slot validatorIndex) s = .ok (r, s')) :
    s'.time.toNat = max s.time.toNat (slot.toNat * intervalsPerSlot) := by
  have hkeeps : ∀ (time : UInt64) (headRoot : H), Op.Keeps (fun s : Store H ↦ s.time = time) (do
      let s ← Op.get
      Op.lift (produceBlockFrom host s headRoot slot validatorIndex) :
        Op (Store H) (StoreError H) _) :=
    fun time headRoot ↦ Op.Keeps.bind Op.Keeps.get fun s ↦ Op.Keeps.lift _
  have hproduce : ∀ {r' : Except (StoreError H) _},
      produceBlockWithSignatures host slot validatorIndex s = .ok (r', s') →
        s'.time.toNat = max s.time.toNat (slot.toNat * intervalsPerSlot) := by
    intro r' h
    rcases Op.bind_eq_ok.mp h with ⟨headRoot, t, ht, hrest⟩ | ⟨e, he, -⟩
    · rw [hkeeps t.time headRoot t _ s' rfl hrest]
      exact getProposalHead_time ht
    · exact getProposalHead_time he
  rcases Op.bind_eq_ok.mp h with ⟨block, t, ht, hpure⟩ | ⟨e, he, -⟩
  · obtain ⟨-, rfl⟩ := Prod.mk.inj (Except.ok.inj hpure)
    exact hproduce ht
  · exact hproduce he

/-- After a call the clock shows no less than before and than the intervals it ran. -/
theorem step_clock {c : Call H} (h : Call.step host s c = .ok s') :
    s.time.toNat ≤ s'.time.toNat ∧ ∀ k ∈ intervalsRun s c, k ≤ s'.time.toNat := by
  have hsame : s'.time = s.time → intervalsRun s c = [] →
      s.time.toNat ≤ s'.time.toNat ∧ ∀ k ∈ intervalsRun s c, k ≤ s'.time.toNat := by
    intro htime hnone
    simp [htime, hnone]
  obtain ⟨r, hr⟩ : ∃ r, c.perform host s = .ok (r, s') := by
    unfold Call.step at h
    split at h
    · rename_i r t hr
      exact ⟨r, Except.ok.inj h ▸ hr⟩
    · exact nomatch h
  cases c with
  | onBlock sb ids => exact hsame (onBlock_time hr) rfl
  | insertPendingBlock sb =>
    obtain ⟨-, rfl⟩ := Prod.mk.inj (Except.ok.inj hr)
    exact hsame rfl rfl
  | onGossipAttestation signed ids =>
    exact hsame (onGossipAttestation_clock s.time signed ids s r s' rfl hr) rfl
  | onGossipAggregatedAttestation aggregated =>
    exact hsame (onGossipAggregatedAttestation_clock s.time aggregated s r s' rfl hr) rfl
  | pruneOldData =>
    obtain ⟨-, rfl⟩ := Prod.mk.inj (Except.ok.inj hr)
    exact hsame rfl rfl
  | onTick timestampMs hasProposal isAggregator =>
    have htime : s'.time.toNat = max s.time.toNat (intervalAt s.config.genesisTime timestampMs) := by
      rcases Op.bind_eq_ok.mp hr with ⟨new, t, ht, hpure⟩ | ⟨e, he, -⟩
      · obtain ⟨-, rfl⟩ := Prod.mk.inj (Except.ok.inj hpure)
        exact onTick_time ht
      · exact onTick_time he
    refine ⟨by omega, fun k hk ↦ ?_⟩
    have hle := (mem_dueIntervals.mp hk).2
    omega
  | produceBlockWithSignatures slot validatorIndex =>
    have htime : s'.time.toNat = max s.time.toNat (slot.toNat * intervalsPerSlot) :=
      produceBlockWithSignatures_time hr
    refine ⟨by omega, fun k hk ↦ ?_⟩
    have hle := (mem_dueIntervals.mp hk).2
    omega

/-- Over any calls the intervals that are run go up, so none of them is run twice. -/
theorem intervals_increase (s : Store H) (calls : List (Call H)) :
    (Runs.log (Call.step host) intervalsRun s calls).Pairwise (· < ·) ∧
      ∀ k ∈ Runs.log (Call.step host) intervalsRun s calls, s.time.toNat < k := by
  induction calls generalizing s with
  | nil => exact ⟨List.Pairwise.nil, fun k hk ↦ absurd hk List.not_mem_nil⟩
  | cons c calls ih =>
    have hcall : (intervalsRun s c).Pairwise (· < ·) ∧ ∀ k ∈ intervalsRun s c, s.time.toNat < k := by
      cases c with
      | onTick timestampMs hasProposal isAggregator =>
        refine ⟨dueIntervals_pairwise _ _, fun k hk ↦ ?_⟩
        exact (le_max_left _ _).trans_lt (mem_dueIntervals.mp hk).1
      | produceBlockWithSignatures slot validatorIndex =>
        refine ⟨dueIntervals_pairwise _ _, fun k hk ↦ ?_⟩
        exact (le_max_left _ _).trans_lt (mem_dueIntervals.mp hk).1
      | _ => exact ⟨List.Pairwise.nil, fun k hk ↦ absurd hk List.not_mem_nil⟩
    cases hstep : Call.step host s c with
    | error p =>
      have hlog : Runs.log (Call.step host) intervalsRun s (c :: calls) = intervalsRun s c := by
        simp [Runs.log, Runs.trace, hstep]
      rw [hlog]
      exact hcall
    | ok t =>
      obtain ⟨hclock, hran⟩ := step_clock hstep
      obtain ⟨hpairs, hlater⟩ := ih t
      rw [Runs.log_cons hstep]
      refine ⟨List.pairwise_append.mpr ⟨hcall.1, hpairs, fun k hk l hl ↦ ?_⟩, fun k hk ↦ ?_⟩
      · exact (hran k hk).trans_lt (hlater l hl)
      · rcases List.mem_append.mp hk with hk | hk
        · exact hcall.2 k hk
        · exact hclock.trans_lt (hlater k hk)

end Calls

section Server

/-- The slot and the interval that the server derives from the milliseconds are those of the
interval's number. -/
theorem Server.onTick_eq_tickSlot {server : Server host}
    (hgenesis : server.store.config.genesisTime.toNat * 1000 < 2 ^ 64) (timestampMs : UInt64) :
    (Server.onTick host timestampMs : Op (Server host) ε Unit) server = (do
      let headState ← Op.lift server.store.headState
      if headState.validators.toList = [] then
        pure ()
      else
        Server.tickSlot host timestampMs
          (UInt64.ofNat (intervalAt server.store.config.genesisTime timestampMs / intervalsPerSlot))
          (intervalAt server.store.config.genesisTime timestampMs % intervalsPerSlot) :
        Op (Server host) ε Unit) server := by
  have hmul : (Exec.mul64 server.store.config.genesisTime.toNat 1000 : Exec ε ℕ) =
      .ok (server.store.config.genesisTime.toNat * 1000) := if_pos hgenesis
  rw [Server.onTick, Op.get_bind, Op.lift_bind_of_ok hmul]
  simp only [intervalAt, millisecondsPerSlot, Nat.div_div_eq_div_mul, Nat.mod_mul_right_div_self]

end Server

/-- A tick runs the due intervals up to its own, in order, and leaves the clock there; no calls run
an interval twice; and the server counts slots and intervals as the store does. -/
theorem interval_schedule (host : Host H) :
    (∀ (s : Store H) (timestampMs : UInt64) (hasProposal isAggregator : Bool),
      s.config.genesisTime.toNat * 1000 < 2 ^ 64 →
      let t := intervalAt s.config.genesisTime timestampMs
      (onTick host timestampMs hasProposal isAggregator :
          Op (Store H) ε (List (SignedAggregatedAttestation H))) s =
        runIntervals host t hasProposal isAggregator (dueIntervals s.time.toNat t) s ∧
      (∀ (r : Except ε (List (SignedAggregatedAttestation H))) (s' : Store H),
        onTick host timestampMs hasProposal isAggregator s = .ok (r, s') →
          s'.time.toNat = max s.time.toNat t) ∧
      (dueIntervals s.time.toNat t).Pairwise (· < ·) ∧ (dueIntervals s.time.toNat t).length ≤ 5 ∧
      ∀ k, k ∈ dueIntervals s.time.toNat t ↔ max s.time.toNat (t - 5) < k ∧ k ≤ t) ∧
    (∀ (s : Store H) (c : Call H), ClockFits s c →
      c.perform host s = performOver host s (intervalsRun s c) c s) ∧
    (∀ (s : Store H) (calls : List (Call H)),
      (Runs.log (Call.step host) intervalsRun s calls).Pairwise (· < ·)) ∧
    (∀ (server : Server host) (timestampMs : UInt64),
      server.store.config.genesisTime.toNat * 1000 < 2 ^ 64 →
      let t := intervalAt server.store.config.genesisTime timestampMs
      (Server.onTick host timestampMs : Op (Server host) ε Unit) server = (do
        let headState ← Op.lift server.store.headState
        if headState.validators.toList = [] then
          pure ()
        else
          Server.tickSlot host timestampMs (UInt64.ofNat (t / 5)) (t % 5) :
          Op (Server host) ε Unit) server ∧
      (UInt64.ofNat (t / 5)).toNat = t / 5) := by
  refine ⟨fun s timestampMs hasProposal isAggregator hgenesis ↦ ?_,
    fun s c h ↦ perform_eq_performOver h, fun s calls ↦ (intervals_increase s calls).1,
    fun server timestampMs hgenesis ↦ ?_⟩
  · refine ⟨onTick_eq_runIntervals hgenesis _ _ _, fun r s' h ↦ onTick_time h,
      dueIntervals_pairwise _ _, ?_, fun k ↦ mem_dueIntervals⟩
    have hfive : intervalsPerSlot = 5 := rfl
    rw [dueIntervals, List.length_range']
    omega
  · refine ⟨Server.onTick_eq_tickSlot hgenesis timestampMs, ?_⟩
    have hsmall := intervalAt_lt server.store.config.genesisTime timestampMs
    rw [UInt64.toNat_ofNat']
    omega

/-- Ten intervals after genesis, at the start: the last five are run. -/
theorem interval_schedule_sample :
    dueIntervals sampleStore.time.toNat (intervalAt sampleStore.config.genesisTime 8000) =
        [6, 7, 8, 9, 10] ∧
      (onTick sampleHost 8000 false true :
          Op (Store ℕ) Empty (List (SignedAggregatedAttestation ℕ))) sampleStore =
        runIntervals sampleHost 10 false true [6, 7, 8, 9, 10] sampleStore ∧
      (Runs.log (Call.step sampleHost) intervalsRun sampleStore
        [.onTick 8000 false true, .onTick 4000 false true,
          .produceBlockWithSignatures 3 0]).Pairwise (· < ·) := by
  have hdue : dueIntervals sampleStore.time.toNat
      (intervalAt sampleStore.config.genesisTime 8000) = [6, 7, 8, 9, 10] := by decide +kernel
  have hat : intervalAt sampleStore.config.genesisTime 8000 = 10 := by decide +kernel
  have hgenesis : sampleStore.config.genesisTime.toNat * 1000 < 2 ^ 64 := by decide +kernel
  obtain ⟨htick, -, hruns, -⟩ := interval_schedule (ε := Empty) sampleHost
  refine ⟨hdue, ?_, hruns _ _⟩
  have heq := (htick sampleStore 8000 false true hgenesis).1
  rwa [hdue, hat] at heq

section Alarm

/-- How long the handler waits before the next tick: what is left of 800 milliseconds of the
system clock, whatever the genesis time is. -/
def msToNextInterval (msSinceEpoch : UInt64) : ℕ :=
  millisecondsPerInterval - msSinceEpoch.toNat % millisecondsPerInterval

/-- Handle a tick and set the timer for the next one. -/
def Server.handleTick (host : Host H) (timestampMs : UInt64) : Op (Server host) ε ℕ := do
  Server.onTick host timestampMs
  pure (msToNextInterval timestampMs)

/-- A tick that goes through always sets the timer by the same rule. -/
theorem Server.handleTick_eq (timestampMs : UInt64) (server : Server host) :
    (Server.handleTick host timestampMs : Op (Server host) ε ℕ) server =
      ((Server.onTick host timestampMs : Op (Server host) ε Unit) server).map
        fun p ↦ (p.1.map fun _ ↦ msToNextInterval timestampMs, p.2) := by
  rw [Server.handleTick, Op.bind_apply]
  cases (Server.onTick host timestampMs : Op (Server host) ε Unit) server with
  | error p => rfl
  | ok p =>
    obtain ⟨r, server'⟩ := p
    cases r with
    | error e => rfl
    | ok u => rfl

/-- The starts of the intervals after a timestamp. -/
def laterBoundaries (genesisTime timestampMs : UInt64) : Set ℕ :=
  {b | timestampMs.toNat < b ∧ millisecondsPerInterval ∣ b - genesisTime.toNat * 1000}

variable {genesisTime timestampMs : UInt64}

/-- The next multiple of `n`, counted from a start. -/
theorem isLeast_next_multiple {n start t : ℕ} (hn : 0 < n) (h : start ≤ t) :
    IsLeast {b | t < b ∧ n ∣ b - start} (start + ((t - start) / n + 1) * n) := by
  constructor
  · refine ⟨?_, ?_⟩
    · have hlt : t - start < ((t - start) / n + 1) * n :=
        (Nat.div_lt_iff_lt_mul hn).mp (Nat.lt_succ_self _)
      omega
    · rw [Nat.add_sub_cancel_left]
      exact Nat.dvd_mul_left n _
  · rintro b ⟨hb, k, hk⟩
    have hcount : (t - start) / n < k := by
      rw [Nat.div_lt_iff_lt_mul hn, Nat.mul_comm, ← hk]
      omega
    have hle : ((t - start) / n + 1) * n ≤ n * k := by
      rw [Nat.mul_comm n]
      exact Nat.mul_le_mul_right n hcount
    omega

/-- The first of them is where the interval count goes up. -/
theorem laterBoundaries_least (h : genesisTime.toNat * 1000 ≤ timestampMs.toNat) :
    IsLeast (laterBoundaries genesisTime timestampMs)
      (genesisTime.toNat * 1000 +
        (intervalAt genesisTime timestampMs + 1) * millisecondsPerInterval) :=
  isLeast_next_multiple (by decide) h

/-- The timer goes off at a multiple of 800 milliseconds of the system clock. -/
theorem dvd_scheduled (timestampMs : UInt64) :
    millisecondsPerInterval ∣ timestampMs.toNat + msToNextInterval timestampMs := by
  have hms : millisecondsPerInterval = 800 := rfl
  rw [msToNextInterval, hms]
  omega

theorem scheduled_on_boundary_iff (h : genesisTime.toNat * 1000 ≤ timestampMs.toNat) :
    IsLeast (laterBoundaries genesisTime timestampMs)
        (timestampMs.toNat + msToNextInterval timestampMs) ↔ 4 ∣ genesisTime.toNat := by
  have hms : millisecondsPerInterval = 800 := rfl
  have hleast := laterBoundaries_least h
  have hscheduled := dvd_scheduled timestampMs
  have hwait : msToNextInterval timestampMs = 800 - timestampMs.toNat % 800 := rfl
  constructor
  · intro hnext
    obtain ⟨-, hdvd⟩ := hnext.1
    rw [hms] at hdvd hscheduled
    omega
  · intro hgenesis
    have heq : timestampMs.toNat + msToNextInterval timestampMs = genesisTime.toNat * 1000 +
        (intervalAt genesisTime timestampMs + 1) * millisecondsPerInterval := by
      rw [intervalAt, hms]
      omega
    rw [heq]
    exact hleast

/-- Half an interval after a genesis time that four divides. -/
theorem scheduled_on_boundary_sample :
    (1770407232 : UInt64).toNat * 1000 ≤ (1770407232400 : UInt64).toNat ∧
      IsLeast (laterBoundaries 1770407232 1770407232400)
        ((1770407232400 : UInt64).toNat + msToNextInterval 1770407232400) :=
  ⟨by decide, (scheduled_on_boundary_iff (by decide)).mpr (by decide)⟩

/-- One second later the first timer already goes off 200 milliseconds too early. -/
theorem scheduled_off_boundary :
    (1770407233 : UInt64).toNat * 1000 ≤ (1770407233000 : UInt64).toNat ∧
      (1770407233000 : UInt64).toNat + msToNextInterval 1770407233000 = 1770407233600 ∧
      IsLeast (laterBoundaries 1770407233 1770407233000) 1770407233800 ∧
      ¬ IsLeast (laterBoundaries 1770407233 1770407233000)
        ((1770407233000 : UInt64).toNat + msToNextInterval 1770407233000) := by
  have hgenesis : (1770407233 : UInt64).toNat * 1000 ≤ (1770407233000 : UInt64).toNat := by decide
  have hwait : (1770407233000 : UInt64).toNat + msToNextInterval 1770407233000 =
      1770407233600 := by decide
  have hleast := laterBoundaries_least hgenesis
  refine ⟨hgenesis, hwait, hleast, fun hnext ↦ ?_⟩
  rw [hwait] at hnext
  exact absurd (hnext.unique hleast) (by decide)

end Alarm

end Ethlambda.Chain
