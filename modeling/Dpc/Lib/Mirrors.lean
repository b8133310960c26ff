import Dpc.Lib.Failure

/-! Programs that do the same and end alike. -/

namespace Effects.Prog

variable {σ ι ε α β γ δ : Type}

/-- However a program ends, its result or its failure is such. -/
def Closes (Q : Except ε α → Prop) : Prog σ ι ε α → Prop
  | .pure a => Q (.ok a)
  | .throw e => Q (.error e)
  | .look k => ∀ s, (k s).Closes Q
  | .act _ k => ∀ r, (k r).Closes Q

section Closes

variable {Q : Except ε β → Prop} {Q' : Except ε α → Prop}

theorem closes_ofExcept {x : Except ε α} (h : Q' x) : (ofExcept x : Prog σ ι ε α).Closes Q' := by
  cases x with
  | ok a => exact h
  | error e => exact h

/-- Only the end of the second program matters, but for what the first one throws. -/
theorem Closes.bind_last {p : Prog σ ι ε α} {f : α → Prog σ ι ε β} (he : ∀ e, Q (.error e))
    (hf : ∀ a, (f a).Closes Q) : (p.bind f).Closes Q := by
  induction p with
  | pure a => exact hf a
  | throw e => exact he e
  | look k ih => exact fun s => ih s
  | act i k ih => exact fun r => ih r

theorem Closes.attempt_bind {p : Prog σ ι ε α} {f : Except ε α → Prog σ ι ε β} (hp : p.Closes Q')
    (hf : ∀ x, Q' x → (f x).Closes Q) : (p.attempt.bind f).Closes Q := by
  induction p with
  | pure a => exact hf _ hp
  | throw e => exact hf _ hp
  | look k ih => exact fun s => ih s (hp s)
  | act i k ih => exact fun r => ih r (hp r)

theorem Closes.exec [Effect ι σ ε] {p : Prog σ ι ε α} (h : p.Closes Q') (s : σ) :
    Q' (p.exec s).1 := by
  induction p generalizing s with
  | pure a => exact h
  | throw e => exact h
  | look k ih => exact ih s (h s) s
  | act i k ih =>
    rw [Prog.exec]
    split
    · exact ih _ (h _) _
    · exact ih _ (h _) _

end Closes

/-- Two programs read and change the state alike; the second one does not throw, and tells by its
result how the first one ends. -/
inductive Mirrors (R : Except ε α → γ → Prop) : Prog σ ι ε α → Prog σ ι ε γ → Prop where
  | pure {a : α} {c : γ} (h : R (.ok a) c) : Mirrors R (.pure a) (.pure c)
  | throw {e : ε} {c : γ} (h : R (.error e) c) : Mirrors R (.throw e) (.pure c)
  | look {k : σ → Prog σ ι ε α} {k' : σ → Prog σ ι ε γ} (h : ∀ s, Mirrors R (k s) (k' s)) :
      Mirrors R (.look k) (.look k')
  | act {i : ι} {k : Except ε Unit → Prog σ ι ε α} {k' : Except ε Unit → Prog σ ι ε γ}
      (h : ∀ r, Mirrors R (k r) (k' r)) : Mirrors R (.act i k) (.act i k')

namespace Mirrors

variable {R : Except ε α → γ → Prop} {Q : Except ε β → Prop}

/-- What follows a program, and what follows it when its failure is caught. -/
theorem attempt {p : Prog σ ι ε β} {f : β → Prog σ ι ε α} {g : Except ε β → Prog σ ι ε γ}
    (hp : p.Closes Q) (hok : ∀ b, Q (.ok b) → Mirrors R (f b) (g (.ok b)))
    (herror : ∀ e, Q (.error e) → Mirrors R (.throw e) (g (.error e))) :
    Mirrors R (p.bind f) (p.attempt.bind g) := by
  induction p with
  | pure b => exact hok b hp
  | throw e => exact herror e hp
  | look k ih => exact .look fun s => ih s (hp s)
  | act i k ih => exact .act fun r => ih r (hp r)

variable [Effect ι σ ε] {p : Prog σ ι ε α} {q : Prog σ ι ε γ} {s t : σ}

theorem exec {c : γ} (h : Mirrors R p q) (hq : q.exec s = (.ok c, t)) :
    ∃ x, p.exec s = (x, t) ∧ R x c := by
  induction h generalizing s with
  | pure h =>
    cases hq
    exact ⟨_, rfl, h⟩
  | throw h =>
    cases hq
    exact ⟨_, rfl, h⟩
  | look _ ih => exact ih s hq
  | @act i k k' _ ih =>
    simp only [Prog.exec] at hq ⊢
    cases ha : Effect.apply i s with
    | ok s' =>
      rw [ha] at hq
      exact ih _ hq
    | error e =>
      rw [ha] at hq
      exact ih _ hq

theorem cut {is : List ι} (h : Mirrors R p q) (hc : Cut q s is t) : Cut p s is t := by
  induction h generalizing s is with
  | pure h =>
    cases hc
    exact .stop _ _
  | throw h =>
    cases hc
    exact .stop _ _
  | look _ ih =>
    cases hc with
    | stop => exact .stop _ _
    | look hc => exact .look (ih _ hc)
  | act _ ih =>
    cases hc with
    | stop => exact .stop _ _
    | act ha hc => exact .act ha (ih _ hc)
    | fail ha hc => exact .fail ha (ih _ hc)

end Mirrors

end Effects.Prog
