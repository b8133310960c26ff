import Dpc.Lib.Prog

/-! What a run reads: the parts of the state that its looks depend on. -/

namespace Effects.Prog

variable {σ ι ε α β : Type} [Effect ι σ ε] {A : σ → σ → Prop} {s : σ}

/-- Along its run from a state, a program does not tell apart states that `A` relates. -/
def Within (A : σ → σ → Prop) : Prog σ ι ε α → σ → Prop
  | .pure _, _ => True
  | .throw _, _ => True
  | .look k, s => (∀ s', A s s' → k s' = k s) ∧ (k s).Within A s
  | .act i k, s =>
    match Effect.apply i s with
    | .ok t => (k (.ok ())).Within A t
    | .error e => (k (.error e)).Within A s

theorem within_ofExcept {x : Except ε α} : (ofExcept x : Prog σ ι ε α).Within A s := by
  cases x <;> trivial

theorem within_query {f : σ → Except ε α} (h : ∀ s', A s s' → f s' = f s) :
    (query f : Prog σ ι ε α).Within A s :=
  ⟨fun s' hs => congrArg ofExcept (h s' hs), within_ofExcept⟩

theorem Within.bind {p : Prog σ ι ε α} {f : α → Prog σ ι ε β} (h : p.Within A s)
    (hf : ∀ a t, p.exec s = (.ok a, t) → (f a).Within A t) : (p.bind f).Within A s := by
  induction p generalizing s with
  | pure a => exact hf a s rfl
  | throw e => trivial
  | look k ih => exact ⟨fun s' hs => congrArg (Prog.bind · f) (h.1 s' hs), ih s h.2 hf⟩
  | act i k ih =>
    simp only [Within, Prog.bind, exec] at h hf ⊢
    cases ha : Effect.apply i s with
    | ok t =>
      simp only [ha] at h hf
      exact ih _ h hf
    | error e =>
      simp only [ha] at h hf
      exact ih _ h hf

theorem Within.bind_ofExcept {x : Except ε α} {f : α → Prog σ ι ε β}
    (h : ∀ a, x = .ok a → (f a).Within A s) : ((ofExcept x).bind f).Within A s := by
  refine within_ofExcept.bind fun a t hx => ?_
  rw [exec_ofExcept] at hx
  cases hx
  exact h a rfl

theorem Within.mono {B : σ → σ → Prop} {p : Prog σ ι ε α} (h : p.Within A s)
    (hab : ∀ s s', B s s' → A s s') : p.Within B s := by
  induction p generalizing s with
  | pure a => trivial
  | throw e => trivial
  | look k ih => exact ⟨fun s' hs => h.1 s' (hab s s' hs), ih s h.2⟩
  | act i k ih =>
    simp only [Within] at h ⊢
    cases ha : Effect.apply i s with
    | ok t =>
      rw [ha] at h
      exact ih _ h
    | error e =>
      rw [ha] at h
      exact ih _ h

/-- A program that only reads, with one outcome in two states. -/
structure Alike (s t : σ) (p : Prog σ ι ε α) : Prop where
  same : (p.exec t).1 = (p.exec s).1
  left : (p.exec s).2 = s
  right : (p.exec t).2 = t

namespace Alike

variable {t : σ}

theorem ofExcept (x : Except ε α) : Alike s t (Prog.ofExcept x : Prog σ ι ε α) := by
  constructor
  · rw [exec_ofExcept, exec_ofExcept]
  · rw [exec_ofExcept]
  · rw [exec_ofExcept]

theorem query {f : σ → Except ε α} (h : f t = f s) : Alike s t (Prog.query f : Prog σ ι ε α) := by
  constructor
  · rw [exec_query, exec_query, h]
  · rw [exec_query]
  · rw [exec_query]

theorem bind {p : Prog σ ι ε α} {f : α → Prog σ ι ε β} (h : Alike s t p)
    (hf : ∀ a, p.exec s = (.ok a, s) → Alike s t (f a)) : Alike s t (p.bind f) := by
  have hs : p.exec s = ((p.exec s).1, s) := Prod.ext rfl h.left
  have ht : p.exec t = ((p.exec s).1, t) := Prod.ext h.same h.right
  cases hx : (p.exec s).1 with
  | error e =>
    rw [hx] at hs ht
    constructor
    · rw [exec_bind_of_error hs, exec_bind_of_error ht]
    · rw [exec_bind_of_error hs]
    · rw [exec_bind_of_error ht]
  | ok a =>
    rw [hx] at hs ht
    have hk := hf a hs
    constructor
    · rw [exec_bind_of_ok hs, exec_bind_of_ok ht, hk.same]
    · rw [exec_bind_of_ok hs, hk.left]
    · rw [exec_bind_of_ok ht, hk.right]

theorem bind_ofExcept {x : Except ε α} {f : α → Prog σ ι ε β}
    (hf : ∀ a, x = .ok a → Alike s t (f a)) : Alike s t ((Prog.ofExcept x).bind f) := by
  refine (ofExcept x).bind fun a ha => hf a ?_
  rw [exec_ofExcept] at ha
  exact (Prod.mk.inj ha).1

end Alike

end Effects.Prog
