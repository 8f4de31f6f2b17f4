import Ethlambda.Base.Exec

namespace Ethlambda.Base

/-- A computation over a state. It may fail and still keep what it wrote, or stop the process. -/
def Op (σ ε α : Type) := σ → Except Panic (Except ε α × σ)

namespace Op

variable {σ ε α β : Type}

instance : Monad (Op σ ε) where
  pure a := fun s ↦ .ok (.ok a, s)
  bind x f := fun s ↦ match x s with
    | .error p => .error p
    | .ok (.error e, s') => .ok (.error e, s')
    | .ok (.ok a, s') => f a s'

def get : Op σ ε σ := fun s ↦ .ok (.ok s, s)

def modify (f : σ → σ) : Op σ ε Unit := fun s ↦ .ok (.ok (), f s)

def lift (x : Exec ε α) : Op σ ε α := fun s ↦ match x with
  | .ok a => .ok (.ok a, s)
  | .error (.error e) => .ok (.error e, s)
  | .error (.panic p) => .error p

/-- Run a computation and look at its result instead of failing with it. -/
def attempt {ε' : Type} (x : Op σ ε α) : Op σ ε' (Except ε α) := fun s ↦ match x s with
  | .error p => .error p
  | .ok (r, s') => .ok (.ok r, s')

def within {τ : Type} (view : τ → σ) (put : σ → τ → τ) (x : Op σ ε α) : Op τ ε α := fun t ↦
  match x (view t) with
  | .error p => .error p
  | .ok (r, s) => .ok (r, put s t)

@[simp] theorem pure_apply (a : α) (s : σ) : (pure a : Op σ ε α) s = .ok (.ok a, s) := rfl

theorem bind_apply (x : Op σ ε α) (f : α → Op σ ε β) (s : σ) :
    (x >>= f) s = match x s with
      | .error p => .error p
      | .ok (.error e, s') => .ok (.error e, s')
      | .ok (.ok a, s') => f a s' := rfl

theorem bind_pure_right (x : Op σ ε α) : (x >>= pure) = x := by
  funext s
  rw [bind_apply]
  rcases x s with p | ⟨e | a, t⟩ <;> rfl

theorem bind_bind {γ : Type} (x : Op σ ε α) (f : α → Op σ ε β) (g : β → Op σ ε γ) :
    (x >>= f >>= g) = (x >>= fun a ↦ f a >>= g) := by
  funext s
  simp only [bind_apply]
  rcases x s with p | ⟨e | a, t⟩ <;> rfl

instance : LawfulMonad (Op σ ε) :=
  LawfulMonad.mk' (Op σ ε) bind_pure_right (fun _ _ ↦ rfl) bind_bind

theorem bind_of_ok {x : Op σ ε α} {f : α → Op σ ε β} {s s' : σ} {a : α}
    (h : x s = .ok (.ok a, s')) : (x >>= f) s = f a s' := by
  rw [bind_apply, h]

@[simp] theorem get_bind (f : σ → Op σ ε β) (s : σ) : ((get : Op σ ε σ) >>= f) s = f s s := rfl

@[simp] theorem modify_bind (g : σ → σ) (f : Unit → Op σ ε β) (s : σ) :
    ((modify g : Op σ ε Unit) >>= f) s = f () (g s) := rfl

theorem lift_bind_of_ok {x : Exec ε α} {a : α} (h : x = .ok a) (f : α → Op σ ε β) (s : σ) :
    ((lift x : Op σ ε α) >>= f) s = f a s := by
  rw [h]
  rfl

theorem bind_eq_ok {x : Op σ ε α} {f : α → Op σ ε β} {s s' : σ} {r : Except ε β} :
    (x >>= f) s = .ok (r, s') ↔
      (∃ a t, x s = .ok (.ok a, t) ∧ f a t = .ok (r, s')) ∨
        ∃ e, x s = .ok (.error e, s') ∧ r = .error e := by
  rw [bind_apply]
  rcases x s with p | ⟨e | a, t⟩
  · simp
  · simp only [Except.ok.injEq, Prod.mk.injEq]
    constructor
    · rintro ⟨rfl, rfl⟩
      exact .inr ⟨e, ⟨rfl, rfl⟩, rfl⟩
    · rintro (⟨a, t, ⟨h, -⟩, -⟩ | ⟨e', ⟨h, rfl⟩, rfl⟩)
      · exact nomatch h
      · exact ⟨congrArg Except.error (Except.error.inj h), rfl⟩
  · simp only [Except.ok.injEq, Prod.mk.injEq]
    constructor
    · intro h
      exact .inl ⟨a, t, ⟨rfl, rfl⟩, h⟩
    · rintro (⟨a', t', ⟨rfl, rfl⟩, h⟩ | ⟨e', ⟨h, -⟩, -⟩)
      · exact h
      · exact nomatch h

theorem lift_eq_ok {x : Exec ε α} {s s' : σ} {r : Except ε α} :
    (lift x : Op σ ε α) s = .ok (r, s') ↔
      s' = s ∧ ((∃ a, x = .ok a ∧ r = .ok a) ∨ ∃ e, x = Exec.fail e ∧ r = .error e) := by
  rcases x with (e | p) | a
  · simp only [lift, Except.ok.injEq, Prod.mk.injEq, Exec.fail]
    constructor
    · rintro ⟨rfl, rfl⟩
      exact ⟨rfl, .inr ⟨e, rfl, rfl⟩⟩
    · rintro ⟨rfl, ⟨a, h, -⟩ | ⟨e', h, rfl⟩⟩
      · cases h
      · simp only [Except.error.injEq, Failure.error.injEq] at h
        exact ⟨by rw [h], rfl⟩
  · simp [lift, Exec.fail]
  · simp only [lift, Except.ok.injEq, Prod.mk.injEq, Exec.fail]
    constructor
    · rintro ⟨rfl, rfl⟩
      exact ⟨rfl, .inl ⟨a, rfl, rfl⟩⟩
    · rintro ⟨rfl, ⟨a', rfl, rfl⟩ | ⟨e', h, -⟩⟩
      · exact ⟨rfl, rfl⟩
      · cases h

/-- A sequence that comes to its end came through its first part. -/
theorem bind_eq_ok_ok {x : Op σ ε α} {f : α → Op σ ε β} {s s' : σ} {b : β} :
    (x >>= f) s = .ok (.ok b, s') ↔ ∃ a t, x s = .ok (.ok a, t) ∧ f a t = .ok (.ok b, s') := by
  rw [bind_eq_ok]
  simp

theorem lift_eq_ok_ok {x : Exec ε α} {s s' : σ} {a : α} :
    (lift x : Op σ ε α) s = .ok (.ok a, s') ↔ x = .ok a ∧ s' = s := by
  rw [lift_eq_ok]
  simp [and_comm]

theorem bind_congr_of_ok {x : Op σ ε α} {f g : α → Op σ ε β} {s : σ}
    (h : ∀ a t, x s = .ok (.ok a, t) → f a t = g a t) : (x >>= f) s = (x >>= g) s := by
  rw [bind_apply, bind_apply]
  rcases hx : x s with p | ⟨e | a, t⟩
  · rfl
  · rfl
  · exact h a t hx

theorem attempt_eq_ok {ε' : Type} {x : Op σ ε α} {s s' : σ} {r : Except ε α} :
    (attempt x : Op σ ε' (Except ε α)) s = .ok (.ok r, s') ↔ x s = .ok (r, s') := by
  unfold attempt
  rcases x s with p | ⟨q, t⟩ <;> simp

def Returns (x : Op σ ε α) (s : σ) : Prop := ∃ r s', x s = .ok (r, s')

theorem returns_of_eq {x : Op σ ε α} {s s' : σ} {r : Except ε α} (h : x s = .ok (r, s')) :
    Returns x s := ⟨r, s', h⟩

theorem returns_get_bind {f : σ → Op σ ε β} {s : σ} :
    Returns (get >>= f) s ↔ Returns (f s) s := Iff.rfl

theorem returns_modify_bind {g : σ → σ} {f : Unit → Op σ ε β} {s : σ} :
    Returns (modify g >>= f) s ↔ Returns (f ()) (g s) := Iff.rfl

theorem returns_lift {x : Exec ε α} {s : σ} :
    Returns (lift x : Op σ ε α) s ↔ Exec.NoPanic x := by
  rcases x with (e | p) | a
  · exact ⟨fun _ ↦ .fail e, fun _ ↦ ⟨_, _, rfl⟩⟩
  · exact ⟨fun ⟨_, _, h⟩ ↦ (nomatch h), fun h ↦ absurd rfl (h p)⟩
  · exact ⟨fun _ ↦ .ok a, fun _ ↦ ⟨_, _, rfl⟩⟩

theorem returns_bind {x : Op σ ε α} {f : α → Op σ ε β} {s : σ} :
    Returns (x >>= f) s ↔ Returns x s ∧ ∀ a s', x s = .ok (.ok a, s') → Returns (f a) s' := by
  constructor
  · rintro ⟨r, s', h⟩
    rcases bind_eq_ok.mp h with ⟨a, t, ht, h⟩ | ⟨e, he, -⟩
    · refine ⟨⟨_, _, ht⟩, fun a' t' ht' ↦ ?_⟩
      obtain ⟨ha, rfl⟩ := Prod.mk.inj (Except.ok.inj (ht.symm.trans ht'))
      obtain rfl := Except.ok.inj ha
      exact ⟨r, s', h⟩
    · exact ⟨⟨_, _, he⟩, fun a t ht ↦ nomatch he.symm.trans ht⟩
  · rintro ⟨⟨r, t, hx⟩, hf⟩
    cases r with
    | error e => exact ⟨.error e, t, bind_eq_ok.mpr (.inr ⟨e, hx, rfl⟩)⟩
    | ok a =>
      obtain ⟨r, s', h⟩ := hf a t hx
      exact ⟨r, s', bind_eq_ok.mpr (.inl ⟨a, t, hx, h⟩)⟩

/-- Whatever the computation returns, it leads from states with `I` to states with `I`. -/
def Keeps (I : σ → Prop) (x : Op σ ε α) : Prop := ∀ s r s', I s → x s = .ok (r, s') → I s'

theorem Keeps.pure {I : σ → Prop} (a : α) : Keeps I (Pure.pure a : Op σ ε α) := by
  intro s r s' hs h
  obtain ⟨-, rfl⟩ := Prod.mk.inj (Except.ok.inj h)
  exact hs

theorem Keeps.get {I : σ → Prop} : Keeps I (Op.get : Op σ ε σ) := by
  intro s r s' hs h
  obtain ⟨-, rfl⟩ := Prod.mk.inj (Except.ok.inj h)
  exact hs

theorem Keeps.lift {I : σ → Prop} (x : Exec ε α) : Keeps I (Op.lift x : Op σ ε α) := by
  intro s r s' hs h
  obtain ⟨rfl, -⟩ := lift_eq_ok.mp h
  exact hs

theorem Keeps.modify {I : σ → Prop} {f : σ → σ} (hf : ∀ s, I s → I (f s)) :
    Keeps I (Op.modify f : Op σ ε Unit) := by
  intro s r s' hs h
  obtain ⟨-, rfl⟩ := Prod.mk.inj (Except.ok.inj h)
  exact hf s hs

theorem Keeps.attempt {ε' : Type} {I : σ → Prop} {x : Op σ ε α} (hx : Keeps I x) :
    Keeps I (Op.attempt x : Op σ ε' (Except ε α)) := by
  intro s r s' hs h
  unfold Op.attempt at h
  rcases hr : x s with p | ⟨q, t⟩
  · simp [hr] at h
  · rw [hr] at h
    obtain ⟨-, rfl⟩ := Prod.mk.inj (Except.ok.inj h)
    exact hx s q t hs hr

/-- A part of a larger state is kept, and so is what the whole says about it. -/
theorem Keeps.within {τ : Type} {view : τ → σ} {put : σ → τ → τ} {I : σ → Prop} {K : τ → Prop}
    {x : Op σ ε α} (hview : ∀ {t}, K t → I (view t)) (hput : ∀ {t s}, K t → I s → K (put s t))
    (hx : Keeps I x) : Keeps K (Op.within view put x) := by
  intro t r t' ht h
  unfold Op.within at h
  rcases hr : x (view t) with p | ⟨q, s⟩
  · simp [hr] at h
  · rw [hr] at h
    obtain ⟨-, rfl⟩ := Prod.mk.inj (Except.ok.inj h)
    exact hput ht (hx _ q s (hview ht) hr)

theorem Keeps.bind {I : σ → Prop} {x : Op σ ε α} {f : α → Op σ ε β} (hx : Keeps I x)
    (hf : ∀ a, Keeps I (f a)) : Keeps I (x >>= f) := by
  intro s r s' hs h
  rcases bind_eq_ok.mp h with ⟨a, t, ht, h⟩ | ⟨e, he, -⟩
  · exact hf a t r s' (hx s _ t hs ht) h
  · exact hx s _ s' hs he

/-- What comes after the state was read may rely on what holds of it. -/
theorem Keeps.get_bind {I : σ → Prop} {f : σ → Op σ ε β} (hf : ∀ s, I s → Keeps I (f s)) :
    Keeps I ((Op.get : Op σ ε σ) >>= f) :=
  fun s r s' hs h ↦ hf s hs s r s' hs h

theorem Keeps.ite {I : σ → Prop} {c : Prop} [Decidable c] {x y : Op σ ε α} (hx : c → Keeps I x)
    (hy : ¬c → Keeps I y) : Keeps I (if c then x else y) := by
  split
  · exact hx ‹_›
  · exact hy ‹_›

/-- The computation returns no error: it ends well or stops the process. -/
def Infallible (x : Op σ ε α) : Prop := ∀ s e s', x s ≠ .ok (.error e, s')

theorem Infallible.pure (a : α) : Infallible (Pure.pure a : Op σ ε α) := nofun

theorem Infallible.get : Infallible (Op.get : Op σ ε σ) := nofun

theorem Infallible.modify (f : σ → σ) : Infallible (Op.modify f : Op σ ε Unit) := nofun

theorem Infallible.lift {x : Exec ε α} (h : ∀ e, x ≠ Exec.fail e) :
    Infallible (Op.lift x : Op σ ε α) := by
  intro s e s' hx
  obtain ⟨-, ⟨a, -, hok⟩ | ⟨e', hfail, -⟩⟩ := lift_eq_ok.mp hx
  · exact nomatch hok
  · exact h e' hfail

theorem lift_bind_eq_ok {x : Exec ε α} {f : α → Op σ ε β} {s s' : σ} {r : Except ε β}
    (h : ∀ e, x ≠ Exec.fail e) :
    (lift x >>= f) s = .ok (r, s') ↔ ∃ a, x = .ok a ∧ f a s = .ok (r, s') := by
  rw [bind_eq_ok]
  constructor
  · rintro (⟨a, t, hlift, hrest⟩ | ⟨e, he, -⟩)
    · obtain ⟨hx, rfl⟩ := lift_eq_ok_ok.mp hlift
      exact ⟨a, hx, hrest⟩
    · exact absurd he (Infallible.lift h s e s')
  · intro ⟨a, hx, hrest⟩
    exact .inl ⟨a, s, lift_eq_ok_ok.mpr ⟨hx, rfl⟩, hrest⟩

theorem Infallible.bind {x : Op σ ε α} {f : α → Op σ ε β} (hx : Infallible x)
    (hf : ∀ a, Infallible (f a)) : Infallible (x >>= f) := by
  intro s e s' h
  rcases bind_eq_ok.mp h with ⟨a, t, -, h⟩ | ⟨e', he, -⟩
  · exact hf a t e s' h
  · exact hx s e' s' he

theorem Infallible.ite {c : Prop} [Decidable c] {x y : Op σ ε α} (hx : Infallible x)
    (hy : Infallible y) : Infallible (if c then x else y) := by
  split
  · exact hx
  · exact hy

/-- The computation comes to an end, with a result or by stopping the process. -/
def Ends (x : Op σ ε α) (s : σ) : Prop := x s ≠ .error .diverge

theorem ends_of_eq {x : Op σ ε α} {s s' : σ} {r : Except ε α} (h : x s = .ok (r, s')) :
    Ends x s := by
  rw [Ends, h]
  exact nofun

theorem ends_lift {x : Exec ε α} (s : σ) (h : x ≠ Exec.panic .diverge) :
    Ends (lift x : Op σ ε α) s := by
  rcases x with (e | p) | a
  · exact nofun
  · intro heq
    exact h (congrArg (fun p ↦ Except.error (Failure.panic p)) (Except.error.inj heq))
  · exact nofun

theorem ends_bind {x : Op σ ε α} {f : α → Op σ ε β} {s : σ} (hx : Ends x s)
    (hf : ∀ a t, x s = .ok (.ok a, t) → Ends (f a) t) : Ends (x >>= f) s := by
  unfold Ends at hx ⊢
  rw [bind_apply]
  rcases hr : x s with p | ⟨e | a, t⟩
  · rw [hr] at hx
    intro heq
    exact hx (congrArg Except.error (Except.error.inj heq))
  · exact nofun
  · exact hf a t hr

theorem ends_attempt {ε' : Type} {x : Op σ ε α} {s : σ} (h : Ends x s) :
    Ends (attempt x : Op σ ε' (Except ε α)) s := by
  unfold Ends attempt at *
  rcases hr : x s with p | ⟨r, t⟩
  · rw [hr] at h
    intro heq
    exact h (congrArg Except.error (Except.error.inj heq))
  · exact nofun

theorem ends_within {τ : Type} {view : τ → σ} {put : σ → τ → τ} {x : Op σ ε α} {t : τ}
    (h : Ends x (view t)) : Ends (within view put x) t := by
  unfold Ends within at *
  rcases hr : x (view t) with p | ⟨r, s⟩
  · rw [hr] at h
    intro heq
    exact h (congrArg Except.error (Except.error.inj heq))
  · exact nofun

/-- With enough fuel the computation comes to an end, and more of it changes nothing. -/
def Settles (x : ℕ → Op σ ε α) (s : σ) : Prop :=
  ∃ enough result, result ≠ .error .diverge ∧ ∀ fuel, enough ≤ fuel → x fuel s = result

theorem settles_of_ok {x : ℕ → Op σ ε α} {r : Except ε α} {s s' : σ}
    (h : ∀ fuel, x fuel s = .ok (r, s')) : Settles x s := ⟨0, .ok (r, s'), nofun, fun fuel _ ↦ h fuel⟩

theorem settles_succ {x : ℕ → Op σ ε β} {y : Op σ ε α} {f : ℕ → α → Op σ ε β}
    {s : σ} (hx : ∀ fuel, x (fuel + 1) = y >>= f fuel) (hy : Ends y s)
    (hf : ∀ a s', y s = .ok (.ok a, s') → Settles (fun fuel ↦ f fuel a) s') : Settles x s := by
  rcases hyt : y s with p | ⟨e | a, s'⟩
  · have hp : p ≠ .diverge := fun hp ↦ hy (hyt.trans (congrArg Except.error hp))
    refine ⟨1, .error p, fun heq ↦ hp (Except.error.inj heq), fun fuel hfuel ↦ ?_⟩
    obtain ⟨fuel, rfl⟩ := Nat.exists_eq_add_of_le' hfuel
    rw [hx, bind_apply, hyt]
  · refine ⟨1, .ok (.error e, s'), nofun, fun fuel hfuel ↦ ?_⟩
    obtain ⟨fuel, rfl⟩ := Nat.exists_eq_add_of_le' hfuel
    rw [hx, bind_apply, hyt]
  · obtain ⟨enough, result, hresult, hrun⟩ := hf a s' hyt
    refine ⟨enough + 1, result, hresult, fun fuel hfuel ↦ ?_⟩
    obtain ⟨fuel, rfl⟩ := Nat.exists_eq_add_of_le' (Nat.le_trans (Nat.le_add_left 1 enough) hfuel)
    rw [hx, bind_of_ok hyt]
    exact hrun fuel (Nat.le_of_succ_le_succ hfuel)

theorem settles_bind {x : ℕ → Op σ ε α} {f : α → Op σ ε β} {s : σ} (hx : Settles x s)
    (hf : ∀ a s', Ends (f a) s') : Settles (fun fuel ↦ x fuel >>= f) s := by
  obtain ⟨enough, result, hresult, hrun⟩ := hx
  have hends : Ends (x enough) s := by
    rw [Ends, hrun enough (Nat.le_refl enough)]
    exact hresult
  refine ⟨enough, (x enough >>= f) s, ends_bind hends fun a s' _ ↦ hf a s', fun fuel hfuel ↦ ?_⟩
  dsimp only
  rw [bind_apply, bind_apply, hrun enough (Nat.le_refl enough), hrun fuel hfuel]

end Op

end Ethlambda.Base
