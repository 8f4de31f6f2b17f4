import Mathlib.Algebra.Group.Nat.Defs
import Mathlib.Data.List.Forall2
import Mathlib.Logic.Basic
import Mathlib.Order.Basic

namespace Ethlambda.Base

/-- What ends a computation without a result: a failed `expect`, a failed `unwrap`, an index
outside its slice, an arithmetic operation outside its machine type, a failed assertion, or a loop
that never ends. -/
inductive Panic
  | expect (message : String)
  | unwrap
  | index
  | overflow
  | assertion
  | diverge
deriving DecidableEq, Repr

inductive Failure (ε : Type)
  | error (e : ε)
  | panic (p : Panic)
deriving DecidableEq, Repr

abbrev Exec (ε α : Type) := Except (Failure ε) α

namespace Exec

variable {ε α β : Type}

def fail (e : ε) : Exec ε α := .error (.error e)

def panic (p : Panic) : Exec ε α := .error (.panic p)

def expect (message : String) : Option α → Exec ε α
  | some a => .ok a
  | none => panic (.expect message)

def unwrap : Option α → Exec ε α
  | some a => .ok a
  | none => panic .unwrap

def index : Option α → Exec ε α
  | some a => .ok a
  | none => panic .index

def add64 (a b : ℕ) : Exec ε ℕ := if a + b < 2 ^ 64 then .ok (a + b) else panic .overflow

def mul64 (a b : ℕ) : Exec ε ℕ := if a * b < 2 ^ 64 then .ok (a * b) else panic .overflow

def sub64 (a b : ℕ) : Exec ε ℕ := if b ≤ a then .ok (a - b) else panic .overflow

def mapError {ε' : Type} (f : ε → ε') : Exec ε α → Exec ε' α
  | .ok a => .ok a
  | .error (.error e) => fail (f e)
  | .error (.panic p) => panic p

def NoPanic (x : Exec ε α) : Prop := ∀ p, x ≠ .error (.panic p)

/-- The computation ends in no failure but the given ones. -/
def Raises (faults : Failure ε → Prop) (x : Exec ε α) : Prop := ∀ f, x = .error f → faults f

theorem bind_eq_ok {x : Exec ε α} {f : α → Exec ε β} {b : β} :
    (x >>= f) = .ok b ↔ ∃ a, x = .ok a ∧ f a = .ok b := by
  cases x with
  | error e => simp [bind, Except.bind]
  | ok a => simp [bind, Except.bind]

@[simp] theorem ok_bind (a : α) (f : α → Exec ε β) : (Except.ok a >>= f) = f a := rfl

@[simp] theorem pure_eq_ok (a : α) : (pure a : Exec ε α) = .ok a := rfl

@[simp] theorem expect_some (m : String) (a : α) : (expect m (some a) : Exec ε α) = .ok a := rfl

@[simp] theorem unwrap_some (a : α) : (unwrap (some a) : Exec ε α) = .ok a := rfl

@[simp] theorem index_some (a : α) : (index (some a) : Exec ε α) = .ok a := rfl

@[simp] theorem expect_eq_ok {m : String} {x : Option α} {a : α} :
    (expect m x : Exec ε α) = .ok a ↔ x = some a := by
  cases x <;> simp [expect, panic]

@[simp] theorem unwrap_eq_ok {x : Option α} {a : α} :
    (unwrap x : Exec ε α) = .ok a ↔ x = some a := by
  cases x <;> simp [unwrap, panic]

@[simp] theorem index_eq_ok {x : Option α} {a : α} :
    (index x : Exec ε α) = .ok a ↔ x = some a := by
  cases x <;> simp [index, panic]

@[simp] theorem fail_ne_ok {e : ε} {a : α} : (fail e : Exec ε α) ≠ .ok a := nofun

@[simp] theorem panic_ne_ok {p : Panic} {a : α} : (panic p : Exec ε α) ≠ .ok a := nofun

theorem checked_eq_ok {c : Prop} [Decidable c] {p : Panic} {a b : α} :
    (if c then .ok a else panic p : Exec ε α) = .ok b ↔ c ∧ b = a := by
  by_cases h : c
  · rw [if_pos h]
    exact ⟨fun hab ↦ ⟨h, (Except.ok.inj hab).symm⟩, fun hab ↦ congrArg Except.ok hab.2.symm⟩
  · rw [if_neg h]
    exact ⟨fun hab ↦ absurd hab panic_ne_ok, fun hab ↦ absurd hab.1 h⟩

theorem add64_eq_ok {a b c : ℕ} :
    (add64 a b : Exec ε ℕ) = .ok c ↔ a + b < 2 ^ 64 ∧ c = a + b := checked_eq_ok

theorem sub64_eq_ok {a b c : ℕ} :
    (sub64 a b : Exec ε ℕ) = .ok c ↔ b ≤ a ∧ c = a - b := checked_eq_ok

theorem expect_ne_fail {m : String} {x : Option α} {e : ε} :
    (expect m x : Exec ε α) ≠ fail e := by
  cases x with
  | none => exact nofun
  | some a => exact nofun

theorem index_ne_fail {x : Option α} {e : ε} : (index x : Exec ε α) ≠ fail e := by
  cases x with
  | none => exact nofun
  | some a => exact nofun

theorem checked_ne_fail {c : Prop} [Decidable c] {p : Panic} {a : α} {e : ε} :
    (if c then .ok a else panic p : Exec ε α) ≠ fail e := by
  split
  · exact nofun
  · exact nofun

theorem bind_ne_fail {x : Exec ε α} {f : α → Exec ε β} {e : ε} (hx : x ≠ fail e)
    (hf : ∀ a, x = .ok a → f a ≠ fail e) : (x >>= f) ≠ fail e := by
  cases x with
  | error p => exact fun h ↦ hx (congrArg Except.error (Except.error.inj h))
  | ok a => exact hf a rfl

theorem foldlM_ne_fail {f : β → α → Exec ε β} (hf : ∀ b a e, f b a ≠ fail e) (l : List α) (b : β)
    (e : ε) : l.foldlM f b ≠ fail e := by
  induction l generalizing b with
  | nil => exact nofun
  | cons a l ih => exact bind_ne_fail (hf b a e) fun b' _ ↦ ih b'

theorem bind_ne_panic {x : Exec ε α} {f : α → Exec ε β} {p : Panic} (hx : x ≠ panic p)
    (hf : ∀ a, x = .ok a → f a ≠ panic p) : (x >>= f) ≠ panic p := by
  cases x with
  | error e => exact fun h ↦ hx (congrArg Except.error (Except.error.inj h))
  | ok a => exact hf a rfl

theorem expect_ne_diverge {m : String} {x : Option α} :
    (expect m x : Exec ε α) ≠ panic .diverge := by
  cases x with
  | none => exact nofun
  | some a => exact nofun

section Raises

variable {faults : Failure ε → Prop} {x : Exec ε α}

theorem Raises.ne_fail (h : Raises faults x) {e : ε} (he : ¬faults (.error e)) : x ≠ fail e :=
  fun heq ↦ he (h _ heq)

theorem Raises.ne_panic (h : Raises faults x) {p : Panic} (hp : ¬faults (.panic p)) : x ≠ panic p :=
  fun heq ↦ hp (h _ heq)

theorem raises_ok (a : α) : Raises faults (.ok a : Exec ε α) := fun _ h ↦ nomatch h

theorem raises_fail {e : ε} (h : faults (.error e)) : Raises faults (fail e : Exec ε α) := by
  rintro _ ⟨⟩
  exact h

theorem raises_bind {f : α → Exec ε β} (hx : Raises faults x)
    (hf : ∀ a, x = .ok a → Raises faults (f a)) : Raises faults (x >>= f) := by
  cases x with
  | error e => exact fun e' h ↦ hx e' (congrArg Except.error (Except.error.inj h))
  | ok a => exact hf a rfl

theorem raises_expect {m : String} {o : Option α} (h : faults (.panic (.expect m))) :
    Raises faults (expect m o : Exec ε α) := by
  cases o with
  | none =>
    rintro _ ⟨⟩
    exact h
  | some a => exact raises_ok a

theorem raises_index {o : Option α} (h : faults (.panic .index)) :
    Raises faults (index o : Exec ε α) := by
  cases o with
  | none =>
    rintro _ ⟨⟩
    exact h
  | some a => exact raises_ok a

theorem raises_mapM {f : β → Exec ε α} {l : List β} (h : ∀ b ∈ l, Raises faults (f b)) :
    Raises faults (l.mapM f) := by
  induction l with
  | nil => exact raises_ok []
  | cons b l ih =>
    rw [List.mapM_cons]
    refine raises_bind (h b List.mem_cons_self) fun a _ ↦ ?_
    exact raises_bind (ih fun b hb ↦ h b (List.mem_cons_of_mem _ hb)) fun _ _ ↦ raises_ok _

end Raises

theorem eq_ok_of_toOption {e α : Type} {x : Except e α} {a : α} (h : x.toOption = some a) :
    x = .ok a := by
  cases x with
  | error e => exact nomatch h
  | ok b => exact congrArg Except.ok (Option.some.inj h)

/-- A computation whose result can be seen through `f` has returned. -/
theorem exists_ok_of_map {e α β : Type} {x : Except e α} {f : α → β} {b : β}
    (h : x.toOption.map f = some b) : ∃ a, x = .ok a ∧ f a = b := by
  cases x with
  | error e => exact nomatch h
  | ok a => exact ⟨a, rfl, Option.some.inj h⟩

theorem NoPanic.ok (a : α) : NoPanic (.ok a : Exec ε α) := fun _ h ↦ nomatch h

theorem NoPanic.fail (e : ε) : NoPanic (fail e : Exec ε α) := fun _ h ↦ nomatch h

theorem noPanic_bind {x : Exec ε α} {f : α → Exec ε β} :
    NoPanic (x >>= f) ↔ NoPanic x ∧ ∀ a, x = .ok a → NoPanic (f a) := by
  cases x with
  | ok a => simp [NoPanic]
  | error e =>
    cases e with
    | error e => simp [NoPanic, bind, Except.bind]
    | panic p => simp [NoPanic, bind, Except.bind]

theorem noPanic_ite {c : Prop} [Decidable c] {x y : Exec ε α} :
    NoPanic (if c then x else y) ↔ (c → NoPanic x) ∧ (¬c → NoPanic y) := by
  split
  · rename_i h
    simp [h]
  · rename_i h
    simp [h]

theorem noPanic_mapM {f : α → Exec ε β} {l : List α} (h : ∀ a ∈ l, NoPanic (f a)) :
    NoPanic (l.mapM f) := by
  induction l with
  | nil => exact .ok []
  | cons a l ih =>
    rw [List.mapM_cons, noPanic_bind]
    refine ⟨h a List.mem_cons_self, fun b _ ↦ ?_⟩
    rw [noPanic_bind]
    exact ⟨ih fun x hx ↦ h x (List.mem_cons_of_mem a hx), fun _ _ ↦ .ok _⟩

theorem mapM_eq_ok {f : α → Exec ε β} {l : List α} {bs : List β} :
    l.mapM f = .ok bs ↔ List.Forall₂ (fun a b ↦ f a = .ok b) l bs := by
  induction l generalizing bs with
  | nil =>
    rw [List.mapM_nil, List.forall₂_nil_left_iff]
    exact ⟨fun h ↦ (Except.ok.inj h).symm, fun h ↦ by rw [h]; rfl⟩
  | cons a l ih =>
    rw [List.mapM_cons, bind_eq_ok, List.forall₂_cons_left_iff]
    simp only [bind_eq_ok, ih]
    constructor
    · rintro ⟨b, hb, bs', hbs', h⟩
      exact ⟨b, bs', hb, hbs', (Except.ok.inj h).symm⟩
    · rintro ⟨b, bs', hb, hbs', rfl⟩
      exact ⟨b, hb, bs', hbs', rfl⟩

/-- Where every entry has a result, so does the list. -/
theorem exists_mapM_eq_ok {f : α → Exec ε β} {R : α → β → Prop} {l : List α}
    (h : ∀ a ∈ l, ∃ b, f a = .ok b ∧ R a b) : ∃ bs, l.mapM f = .ok bs ∧ List.Forall₂ R l bs := by
  induction l with
  | nil => exact ⟨[], rfl, .nil⟩
  | cons a l ih =>
    obtain ⟨b, hb, hR⟩ := h a List.mem_cons_self
    obtain ⟨bs, hbs, hall⟩ := ih fun x hx ↦ h x (List.mem_cons_of_mem a hx)
    exact ⟨b :: bs, by rw [List.mapM_cons, hb, ok_bind, hbs]; rfl, .cons hR hall⟩

theorem noPanic_mapError {ε' : Type} (f : ε → ε') {x : Exec ε α} :
    NoPanic (mapError f x) ↔ NoPanic x := by
  rcases x with (e | p) | a <;> simp [NoPanic, mapError, Exec.fail, panic]

theorem mapError_eq_ok {ε' : Type} {f : ε → ε'} {x : Exec ε α} {a : α} :
    mapError f x = .ok a ↔ x = .ok a := by
  rcases x with (e | p) | a <;> simp [mapError]

end Exec

end Ethlambda.Base
