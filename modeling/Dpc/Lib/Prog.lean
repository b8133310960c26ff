import Mathlib.Logic.Relation

namespace Effects

/-- The meaning of one atomic effect on the shared state. -/
class Effect (ι : Type) (σ ε : outParam Type) where
  apply : ι → σ → Except ε σ

/-- A program over a shared state. `look` reads the state in one atomic step,
`act` tries one atomic effect; everything between them is local. -/
inductive Prog (σ ι ε α : Type) : Type where
  | pure (a : α)
  | throw (e : ε)
  | look (k : σ → Prog σ ι ε α)
  | act (i : ι) (k : Except ε Unit → Prog σ ι ε α)

namespace Prog

variable {σ ι ε α β γ : Type}

def bind : Prog σ ι ε α → (α → Prog σ ι ε β) → Prog σ ι ε β
  | .pure a, f => f a
  | .throw e, _ => .throw e
  | .look k, f => .look fun s => (k s).bind f
  | .act i k, f => .act i fun r => (k r).bind f

instance : Monad (Prog σ ι ε) where
  pure := .pure
  bind := .bind

/-- Catch what a program throws. -/
def attempt : Prog σ ι ε α → Prog σ ι ε (Except ε α)
  | .pure a => .pure (.ok a)
  | .throw e => .pure (.error e)
  | .look k => .look fun s => (k s).attempt
  | .act i k => .act i fun r => (k r).attempt

/-- Lift a pure computation that may fail. -/
def ofExcept : Except ε α → Prog σ ι ε α
  | .ok a => .pure a
  | .error e => .throw e

/-- Read the state once; what is read may be a failure. -/
def query (f : σ → Except ε α) : Prog σ ι ε α := .look fun s => ofExcept (f s)

def perform (i : ι) : Prog σ ι ε Unit := .act i ofExcept

@[simp] theorem pure_bind' (a : α) (f : α → Prog σ ι ε β) : (Prog.pure a).bind f = f a := rfl
@[simp] theorem bind_eq (p : Prog σ ι ε α) (f : α → Prog σ ι ε β) : (p >>= f) = p.bind f := rfl
@[simp] theorem pure_eq (a : α) : (Pure.pure a : Prog σ ι ε α) = .pure a := rfl

theorem bind_assoc' (p : Prog σ ι ε α) (f : α → Prog σ ι ε β) (g : β → Prog σ ι ε γ) :
    (p.bind f).bind g = p.bind fun a => (f a).bind g := by
  induction p with
  | pure a => rfl
  | throw e => rfl
  | look k ih => exact congrArg Prog.look (funext ih)
  | act i k ih => exact congrArg (Prog.act i) (funext ih)

section Semantics

variable [Effect ι σ ε]

/-- Run a program alone, to its end. -/
def exec : Prog σ ι ε α → σ → Except ε α × σ
  | .pure a, s => (.ok a, s)
  | .throw e, s => (.error e, s)
  | .look k, s => (k s).exec s
  | .act i k, s =>
    match Effect.apply i s with
    | .ok s' => (k (.ok ())).exec s'
    | .error e => (k (.error e)).exec s

/-- One atomic step; a label marks the effects that change the state. -/
inductive Step : Prog σ ι ε α → σ → Option ι → Prog σ ι ε α → σ → Prop where
  | look (k : σ → Prog σ ι ε α) (s : σ) : Step (.look k) s none (k s) s
  | act (i : ι) (k : Except ε Unit → Prog σ ι ε α) (s s' : σ) (h : Effect.apply i s = .ok s') :
      Step (.act i k) s (some i) (k (.ok ())) s'
  | fail (i : ι) (k : Except ε Unit → Prog σ ι ε α) (s : σ) (e : ε)
      (h : Effect.apply i s = .error e) : Step (.act i k) s none (k (.error e)) s

/-- Where a program running alone may have been stopped: the effects that took
place, and the state they left. -/
inductive Cut : Prog σ ι ε α → σ → List ι → σ → Prop where
  | stop (p : Prog σ ι ε α) (s : σ) : Cut p s [] s
  | look {k : σ → Prog σ ι ε α} {s t : σ} {is : List ι} (h : Cut (k s) s is t) :
      Cut (.look k) s is t
  | act {i : ι} {k : Except ε Unit → Prog σ ι ε α} {s s' t : σ} {is : List ι}
      (ha : Effect.apply i s = .ok s') (h : Cut (k (.ok ())) s' is t) :
      Cut (.act i k) s (i :: is) t
  | fail {i : ι} {k : Except ε Unit → Prog σ ι ε α} {s t : σ} {is : List ι} {e : ε}
      (ha : Effect.apply i s = .error e) (h : Cut (k (.error e)) s is t) : Cut (.act i k) s is t

@[simp] theorem exec_pure (a : α) (s : σ) : (Prog.pure a : Prog σ ι ε α).exec s = (.ok a, s) := rfl
@[simp] theorem exec_throw (e : ε) (s : σ) :
    (Prog.throw e : Prog σ ι ε α).exec s = (.error e, s) := rfl

theorem exec_bind (p : Prog σ ι ε α) (f : α → Prog σ ι ε β) (s : σ) :
    (p.bind f).exec s =
      match p.exec s with
      | (.ok a, s') => (f a).exec s'
      | (.error e, s') => (.error e, s') := by
  induction p generalizing s with
  | pure a => rfl
  | throw e => rfl
  | look k ih => exact ih s s
  | act i k ih =>
    simp only [bind, exec]
    cases Effect.apply i s with
    | ok s' => exact ih _ s'
    | error e => exact ih _ s

theorem exec_attempt (p : Prog σ ι ε α) (s : σ) :
    p.attempt.exec s = (.ok (p.exec s).1, (p.exec s).2) := by
  induction p generalizing s with
  | pure a => rfl
  | throw e => rfl
  | look k ih => exact ih s s
  | act i k ih =>
    simp only [attempt, exec]
    cases Effect.apply i s with
    | ok s' => exact ih _ s'
    | error e => exact ih _ s

theorem exec_of_fst {p : Prog σ ι ε α} {s : σ} {x : Except ε α} (h : (p.exec s).1 = x) :
    p.exec s = (x, (p.exec s).2) := by
  rw [← h]

/-- A run that succeeds passes through a success of its first part. -/
theorem exec_bind_ok {p : Prog σ ι ε α} {f : α → Prog σ ι ε β} {s t : σ} {b : β}
    (h : (p.bind f).exec s = (.ok b, t)) :
    ∃ a m, p.exec s = (.ok a, m) ∧ (f a).exec m = (.ok b, t) := by
  rw [exec_bind] at h
  cases hp : p.exec s with
  | mk r m =>
    rw [hp] at h
    cases r with
    | ok a => exact ⟨a, m, rfl, h⟩
    | error e => simp at h

theorem exec_bind_of_ok {p : Prog σ ι ε α} {f : α → Prog σ ι ε β} {s m : σ} {a : α}
    (h : p.exec s = (.ok a, m)) : (p.bind f).exec s = (f a).exec m := by
  rw [exec_bind, h]

theorem exec_bind_of_error {p : Prog σ ι ε α} {f : α → Prog σ ι ε β} {s m : σ} {e : ε}
    (h : p.exec s = (.error e, m)) : (p.bind f).exec s = (.error e, m) := by
  rw [exec_bind, h]

@[simp] theorem exec_ofExcept (x : Except ε α) (s : σ) :
    (ofExcept x : Prog σ ι ε α).exec s = (x, s) := by
  cases x <;> rfl

@[simp] theorem exec_query (f : σ → Except ε α) (s : σ) :
    (query f : Prog σ ι ε α).exec s = (f s, s) := by
  simp [query, exec]

theorem exec_perform (i : ι) (s : σ) :
    (perform i : Prog σ ι ε Unit).exec s =
      match Effect.apply i s with
      | .ok s' => (.ok (), s')
      | .error e => (.error e, s) := by
  simp only [perform, exec]
  cases Effect.apply i s with
  | ok s' => rfl
  | error e => rfl

theorem exec_perform_ok {i : ι} {s t : σ} {u : Unit}
    (h : (perform i : Prog σ ι ε Unit).exec s = (.ok u, t)) : Effect.apply i s = .ok t := by
  rw [exec_perform] at h
  split at h <;> simp_all

/-- The end of a run is one of the places where it may have been stopped. -/
theorem cut_exec (p : Prog σ ι ε α) (s : σ) : ∃ is, Cut p s is (p.exec s).2 := by
  induction p generalizing s with
  | pure a => exact ⟨[], .stop _ _⟩
  | throw e => exact ⟨[], .stop _ _⟩
  | look k ih =>
    obtain ⟨is, h⟩ := ih s s
    exact ⟨is, .look h⟩
  | act i k ih =>
    simp only [exec]
    cases ha : Effect.apply i s with
    | ok s' =>
      obtain ⟨is, h⟩ := ih (.ok ()) s'
      exact ⟨i :: is, .act ha h⟩
    | error e =>
      obtain ⟨is, h⟩ := ih (.error e) s
      exact ⟨is, .fail ha h⟩

/-- A program stopped was stopped in its first part, or in its second after the first
had ended. -/
theorem Cut.of_bind {p : Prog σ ι ε α} {f : α → Prog σ ι ε β} {s t : σ} {is : List ι}
    (h : Cut (p.bind f) s is t) :
    Cut p s is t ∨ ∃ a m is₁ is₂, p.exec s = (.ok a, m) ∧ Cut p s is₁ m ∧ Cut (f a) m is₂ t ∧
      is = is₁ ++ is₂ := by
  induction p generalizing s is with
  | pure a => exact .inr ⟨a, s, [], is, rfl, .stop _ _, h, rfl⟩
  | throw e =>
    cases h
    exact .inl (.stop _ _)
  | look k ih =>
    cases h with
    | stop => exact .inl (.stop _ _)
    | look h =>
      rcases ih s h with h | ⟨a, m, is₁, is₂, he, h₁, h₂, rfl⟩
      · exact .inl (.look h)
      · exact .inr ⟨a, m, is₁, is₂, he, .look h₁, h₂, rfl⟩
  | act i k ih =>
    cases h with
    | stop => exact .inl (.stop _ _)
    | act ha h =>
      rcases ih _ h with h | ⟨a, m, is₁, is₂, he, h₁, h₂, rfl⟩
      · exact .inl (.act ha h)
      · exact .inr ⟨a, m, i :: is₁, is₂, by simp only [exec, ha, he], .act ha h₁, h₂, rfl⟩
    | fail ha h =>
      rcases ih _ h with h | ⟨a, m, is₁, is₂, he, h₁, h₂, rfl⟩
      · exact .inl (.fail ha h)
      · exact .inr ⟨a, m, is₁, is₂, by simp only [exec, ha, he], .fail ha h₁, h₂, rfl⟩

end Semantics

end Prog

end Effects
