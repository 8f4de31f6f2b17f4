import Mathlib.Data.List.Basic
import Mathlib.Logic.Basic

namespace Ethlambda.Base.Runs

variable {σ ι ε ω : Type}

/-- Feed the inputs to `step` one after the other; the first failure ends the run. -/
def run (step : σ → ι → Except ε σ) (s : σ) (is : List ι) : Except ε σ := is.foldlM step s

/-- The inputs a run consumes, each with the state it met. -/
def trace (step : σ → ι → Except ε σ) : σ → List ι → List (σ × ι)
  | _, [] => []
  | s, i :: is => (s, i) :: match step s i with
    | .ok s' => trace step s' is
    | .error _ => []

/-- Everything the steps of a run report, in order. -/
def log (step : σ → ι → Except ε σ) (emit : σ → ι → List ω) (s : σ) (is : List ι) : List ω :=
  (trace step s is).flatMap fun p ↦ emit p.1 p.2

variable {step : σ → ι → Except ε σ} {emit : σ → ι → List ω} {s s' : σ} {i : ι} {is js : List ι}

@[simp] theorem run_nil : run step s [] = .ok s := rfl

theorem run_cons : run step s (i :: is) = (step s i).bind fun t ↦ run step t is := by
  unfold run
  rw [List.foldlM_cons]
  rfl

theorem run_cons_eq_ok :
    run step s (i :: is) = .ok s' ↔ ∃ t, step s i = .ok t ∧ run step t is = .ok s' := by
  rw [run_cons]
  cases step s i <;> simp [Except.bind]

theorem run_singleton : run step s [i] = step s i := by
  rw [run_cons]
  cases step s i <;> rfl

theorem run_append_eq_ok :
    run step s (is ++ js) = .ok s' ↔ ∃ t, run step s is = .ok t ∧ run step t js = .ok s' := by
  induction is generalizing s with
  | nil => simp
  | cons i is ih =>
    simp only [List.cons_append, run_cons_eq_ok, ih]
    constructor
    · rintro ⟨t, ht, u, hu, hs⟩
      exact ⟨u, ⟨t, ht, hu⟩, hs⟩
    · rintro ⟨u, ⟨t, ht, hu⟩, hs⟩
      exact ⟨t, ht, u, hu, hs⟩

@[simp] theorem log_nil : log step emit s [] = [] := rfl

theorem log_cons {t : σ} (h : step s i = .ok t) :
    log step emit s (i :: is) = emit s i ++ log step emit t is := by
  simp [log, trace, h]

theorem log_append {t : σ} (h : run step s is = .ok t) :
    log step emit s (is ++ js) = log step emit s is ++ log step emit t js := by
  induction is generalizing s with
  | nil =>
    obtain rfl : s = t := by simpa using h
    rfl
  | cons i is ih =>
    obtain ⟨u, hu, ht⟩ := run_cons_eq_ok.mp h
    rw [List.cons_append, log_cons hu, log_cons hu, ih ht, List.append_assoc]

theorem mem_of_mem_trace {p : σ × ι} (h : p ∈ trace step s is) : p.2 ∈ is := by
  induction is generalizing s with
  | nil => simp [trace] at h
  | cons i is ih =>
    unfold trace at h
    rcases List.mem_cons.mp h with rfl | h
    · exact List.mem_cons_self
    · cases hs : step s i with
      | error e => simp [hs] at h
      | ok t =>
        rw [hs] at h
        exact List.mem_cons_of_mem i (ih h)

/-- A run consumes its inputs in order, up to the one that fails. -/
theorem inputs_prefix : (trace step s is).map Prod.snd <+: is := by
  induction is generalizing s with
  | nil => exact List.nil_prefix
  | cons i is ih =>
    rw [trace, List.map_cons]
    refine List.cons_prefix_cons.mpr ⟨rfl, ?_⟩
    cases step s i with
    | error e => exact List.nil_prefix
    | ok t => exact ih

theorem trace_prefix (h : is <+: js) : trace step s is <+: trace step s js := by
  induction is generalizing s js with
  | nil => exact List.nil_prefix
  | cons i is ih =>
    obtain ⟨rest, rfl⟩ := h
    rw [List.cons_append, trace, trace]
    refine List.cons_prefix_cons.mpr ⟨rfl, ?_⟩
    cases step s i with
    | error e => exact List.prefix_rfl
    | ok t => exact ih (List.prefix_append is rest)

theorem trace_invariant {P : σ → Prop} (hstep : ∀ s i s', P s → step s i = .ok s' → P s')
    (hs : P s) {p : σ × ι} (h : p ∈ trace step s is) : P p.1 := by
  induction is generalizing s with
  | nil => simp [trace] at h
  | cons i is ih =>
    unfold trace at h
    rcases List.mem_cons.mp h with rfl | h
    · exact hs
    · cases ht : step s i with
      | error e => simp [ht] at h
      | ok t =>
        rw [ht] at h
        exact ih (hstep s i t hs ht) h

theorem exists_emit_of_mem_log {w : ω} (h : w ∈ log step emit s is) :
    ∃ t, ∃ i ∈ is, w ∈ emit t i := by
  obtain ⟨p, hp, hw⟩ := List.mem_flatMap.mp h
  exact ⟨p.1, p.2, mem_of_mem_trace hp, hw⟩

theorem run_congr {step' : σ → ι → Except ε σ}
    (h : ∀ p ∈ trace step s is, step p.1 p.2 = step' p.1 p.2) : run step s is = run step' s is := by
  induction is generalizing s with
  | nil => rfl
  | cons i is ih =>
    have hhead : step s i = step' s i := h (s, i) (by simp [trace])
    rw [run_cons, run_cons, ← hhead]
    cases hs : step s i with
    | error e => rfl
    | ok t => exact ih fun p hp ↦ h p (by simp [trace, hs, hp])

/-- What every step keeps, a whole run keeps. -/
theorem run_invariant {P : σ → Prop} (hstep : ∀ s i s', P s → step s i = .ok s' → P s')
    (hs : P s) (h : run step s is = .ok s') : P s' := by
  induction is generalizing s with
  | nil =>
    obtain rfl : s = s' := by simpa using h
    exact hs
  | cons i is ih =>
    obtain ⟨t, ht, h⟩ := run_cons_eq_ok.mp h
    exact ih (hstep s i t hs ht) h

/-- What every step keeps that meets a condition, a run keeps whose steps all meet it. -/
theorem run_invariant_of_trace {P : σ → Prop} {C : σ × ι → Prop}
    (hstep : ∀ s i s', P s → C (s, i) → step s i = .ok s' → P s') (hs : P s)
    (hC : ∀ p ∈ trace step s is, C p) (h : run step s is = .ok s') : P s' := by
  induction is generalizing s with
  | nil =>
    obtain rfl : s = s' := by simpa using h
    exact hs
  | cons i is ih =>
    obtain ⟨t, ht, h⟩ := run_cons_eq_ok.mp h
    have hhead := hC (s, i) (by simp [trace])
    exact ih (hstep s i t hs hhead ht) (fun p hp ↦ hC p (by simp [trace, ht, hp])) h

/-- Along a run, where every step keeps the invariant by a condition that follows from the invariant
and a simpler one, the simpler one is enough. -/
theorem forall_trace_of_invariant {P : σ → Prop} {C D : σ × ι → Prop}
    (hstep : ∀ s i s', P s → C (s, i) → step s i = .ok s' → P s')
    (hC : ∀ p, P p.1 → D p → C p) (hs : P s) (hD : ∀ p ∈ trace step s is, D p) :
    ∀ p ∈ trace step s is, C p := by
  induction is generalizing s with
  | nil => simp [trace]
  | cons i is ih =>
    have hhead := hC (s, i) hs (hD (s, i) (by simp [trace]))
    rw [trace, List.forall_mem_cons]
    refine ⟨hhead, ?_⟩
    cases ht : step s i with
    | error e => simp
    | ok t => exact ih (hstep s i t hs hhead ht) fun p hp ↦ hD p (by simp [trace, ht, hp])

/-- What steps that meet a condition keep, the others break, and no step mends, holds after a run
exactly if all its steps met the condition. -/
theorem run_iff_trace {P G : σ → Prop} {C : σ × ι → Prop}
    (hstep : ∀ s i s', P s → step s i = .ok s' → P s')
    (hkeep : ∀ s i s', P s → G s → C (s, i) → step s i = .ok s' → G s')
    (hbreak : ∀ s i s', P s → ¬C (s, i) → step s i = .ok s' → ¬G s')
    (hbroken : ∀ s i s', P s → ¬G s → step s i = .ok s' → ¬G s')
    (hP : P s) (hG : G s) (h : run step s is = .ok s') : G s' ↔ ∀ p ∈ trace step s is, C p := by
  have hlost : ∀ {is : List ι} {s : σ}, P s → ¬G s → run step s is = .ok s' → ¬G s' := by
    intro is
    induction is with
    | nil =>
      intro s _ hG h
      obtain rfl : s = s' := by simpa using h
      exact hG
    | cons i is ih =>
      intro s hP hG h
      obtain ⟨t, ht, h⟩ := run_cons_eq_ok.mp h
      exact ih (hstep s i t hP ht) (hbroken s i t hP hG ht) h
  induction is generalizing s with
  | nil =>
    obtain rfl : s = s' := by simpa using h
    simp [trace, hG]
  | cons i is ih =>
    obtain ⟨t, ht, h⟩ := run_cons_eq_ok.mp h
    rw [trace, ht, List.forall_mem_cons]
    by_cases hC : C (s, i)
    · have hrest := ih (hstep s i t hP ht) (hkeep s i t hP hG hC ht) h
      exact hrest.trans (and_iff_right hC).symm
    · refine iff_of_false ?_ fun hall ↦ hC hall.1
      exact hlost (hstep s i t hP ht) (hbreak s i t hP hC ht) h

theorem run_relates {P : σ → Prop} {R : σ → σ → Prop} (hrefl : ∀ s, R s s)
    (htrans : ∀ s t u, R s t → R t u → R s u)
    (hstep : ∀ s i s', P s → step s i = .ok s' → P s' ∧ R s s')
    (hs : P s) (h : run step s is = .ok s') : R s s' := by
  induction is generalizing s with
  | nil =>
    obtain rfl : s = s' := by simpa using h
    exact hrefl s
  | cons i is ih =>
    obtain ⟨t, ht, h⟩ := run_cons_eq_ok.mp h
    obtain ⟨hp, hr⟩ := hstep s i t hs ht
    exact htrans s t s' hr (ih hp h)

theorem run_log_invariant {P : σ → List ω → Prop}
    (hstep : ∀ s l i s', P s l → step s i = .ok s' → P s' (l ++ emit s i))
    {l : List ω} (hs : P s l) (h : run step s is = .ok s') :
    P s' (l ++ log step emit s is) := by
  induction is generalizing s l with
  | nil =>
    obtain rfl : s = s' := by simpa using h
    simpa using hs
  | cons i is ih =>
    obtain ⟨t, ht, h⟩ := run_cons_eq_ok.mp h
    rw [log_cons ht, ← List.append_assoc]
    exact ih (hstep s l i t hs ht) h

/-- A report in the middle of a run belongs to one step: the run so far, the step that made
the report, and what that step had already reported can be read off. -/
theorem log_eq_append_cons {pre post : List ω} {w : ω} (h : run step s is = .ok s')
    (hlog : log step emit s is = pre ++ w :: post) :
    ∃ is₁ i is₂ t u pre' post', is = is₁ ++ i :: is₂ ∧ run step s is₁ = .ok t ∧
      step t i = .ok u ∧ emit t i = pre' ++ w :: post' ∧ pre = log step emit s is₁ ++ pre' := by
  induction is generalizing s pre with
  | nil => simp at hlog
  | cons i is ih =>
    obtain ⟨t, ht, hrun⟩ := run_cons_eq_ok.mp h
    rw [log_cons ht] at hlog
    rcases List.append_eq_append_iff.mp hlog with ⟨rest, hpre, hlog⟩ | ⟨rest, hemit, hpost⟩
    · obtain ⟨is₁, j, is₂, v, u, pre', post', rfl, hv, hu, he, hp⟩ := ih hrun hlog
      refine ⟨i :: is₁, j, is₂, v, u, pre', post', rfl, run_cons_eq_ok.mpr ⟨t, ht, hv⟩, hu, he, ?_⟩
      rw [hpre, hp, log_cons ht, List.append_assoc]
    · cases rest with
      | nil =>
        obtain ⟨is₁, j, is₂, v, u, pre', post', rfl, hv, hu, he, hp⟩ :=
          ih hrun (show log step emit t is = [] ++ w :: post by simpa using hpost.symm)
        refine ⟨i :: is₁, j, is₂, v, u, pre', post', rfl, run_cons_eq_ok.mpr ⟨t, ht, hv⟩, hu,
          he, ?_⟩
        rw [log_cons ht, List.append_assoc, ← hp, hemit, List.append_nil, List.append_nil]
      | cons x rest =>
        obtain ⟨rfl, -⟩ : w = x ∧ post = rest ++ log step emit t is := by simpa using hpost
        exact ⟨[], i, is, s, t, pre, rest, rfl, run_nil, ht, hemit, by simp⟩

theorem log_single_eq_trace :
    log step (fun s i ↦ [(s, i)]) s is = trace step s is := by
  simp [log]

theorem trace_append {t : σ} (h : run step s is = .ok t) :
    trace step s (is ++ js) = trace step s is ++ trace step t js := by
  rw [← log_single_eq_trace, log_append h, log_single_eq_trace, log_single_eq_trace]

end Ethlambda.Base.Runs
