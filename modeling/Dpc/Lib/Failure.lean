import Dpc.Lib.Prog

namespace Effects

variable {σ ι ε α β : Type} {P : ε → Prop}

/-- A failure of the kind `P`. -/
def FailsWith (P : ε → Prop) (x : Except ε α) : Prop := ∃ e, x = .error e ∧ P e

@[simp] theorem failsWith_error {e : ε} : FailsWith P (.error e : Except ε α) ↔ P e := by
  constructor
  · intro ⟨e', he, hp⟩
    cases he
    exact hp
  · exact fun hp => ⟨e, rfl, hp⟩

/-- A sequence that succeeds has succeeded in both its parts. -/
theorem bind_eq_ok {x : Except ε α} {f : α → Except ε β} {b : β} :
    (x >>= f) = .ok b ↔ ∃ a, x = .ok a ∧ f a = .ok b := by
  cases x with
  | error e => simp [bind, Except.bind]
  | ok a => simp [bind, Except.bind]

namespace Prog

variable [Effect ι σ ε] {s : σ}

/-- The run of a program alone ends in a failure of the kind `P`. -/
def Fails (P : ε → Prop) (p : Prog σ ι ε α) (s : σ) : Prop := FailsWith P (p.exec s).1

@[simp] theorem fails_throw {e : ε} : Fails P (Prog.throw e : Prog σ ι ε α) s ↔ P e := by
  simp [Fails]

/-- Every effect that the run of a program alone tries takes place. -/
def Smooth : Prog σ ι ε α → σ → Prop
  | .pure _, _ => True
  | .throw _, _ => True
  | .look k, s => (k s).Smooth s
  | .act i k, s => ∃ t, Effect.apply i s = .ok t ∧ (k (.ok ())).Smooth t

instance decidableSmooth : (p : Prog σ ι ε α) → (s : σ) → Decidable (p.Smooth s)
  | .pure _, _ => isTrue trivial
  | .throw _, _ => isTrue trivial
  | .look k, s => decidableSmooth (k s) s
  | .act i k, s =>
    match h : (Effect.apply i s : Except ε σ) with
    | .ok t =>
      have := decidableSmooth (k (.ok ())) t
      decidable_of_iff ((k (.ok ())).Smooth t)
        ⟨fun hk => ⟨t, h, hk⟩, fun ⟨_, ht, hk⟩ => Except.ok.inj (h.symm.trans ht) ▸ hk⟩
    | .error _ => isFalse fun ⟨_, ht, _⟩ => by cases h.symm.trans ht

theorem Smooth.of_bind {p : Prog σ ι ε α} {f : α → Prog σ ι ε β} (h : (p.bind f).Smooth s) :
    p.Smooth s ∧ ∀ a t, p.exec s = (.ok a, t) → (f a).Smooth t := by
  induction p generalizing s with
  | pure a =>
    refine ⟨trivial, fun b t hx => ?_⟩
    cases hx
    exact h
  | throw e => exact ⟨trivial, fun b t hx => by cases hx⟩
  | look k ih => exact ih s h
  | act i k ih =>
    obtain ⟨t, ht, h⟩ := h
    obtain ⟨h1, h2⟩ := ih (.ok ()) h
    refine ⟨⟨t, ht, h1⟩, fun b u hx => h2 b u ?_⟩
    rwa [exec, ht] at hx

theorem Smooth.perform {i : ι} (h : (perform i : Prog σ ι ε Unit).Smooth s) :
    ∃ t, (Prog.perform i : Prog σ ι ε Unit).exec s = (.ok (), t) := by
  obtain ⟨t, ht, _⟩ := h
  exact ⟨t, by rw [exec_perform, ht]⟩

/-- Two parts that succeed when their effects take place succeed one after the other. -/
theorem Smooth.bind {p : Prog σ ι ε α} {f : α → Prog σ ι ε β} (h : (p.bind f).Smooth s)
    (hp : p.Smooth s → ∃ a t, p.exec s = (.ok a, t))
    (hf : ∀ a t, p.exec s = (.ok a, t) → (f a).Smooth t → ∃ b u, (f a).exec t = (.ok b, u)) :
    ∃ b u, (p.bind f).exec s = (.ok b, u) := by
  obtain ⟨h1, h2⟩ := h.of_bind
  obtain ⟨a, t, ha⟩ := hp h1
  obtain ⟨b, u, hb⟩ := hf a t ha (h2 a t ha)
  exact ⟨b, u, by rw [exec_bind_of_ok ha, hb]⟩

/-- A failure is one of the first part, or of the second after it. -/
theorem exec_bind_error {p : Prog σ ι ε α} {f : α → Prog σ ι ε β} {t : σ} {e : ε}
    (hx : (p.bind f).exec s = (.error e, t)) :
    p.exec s = (.error e, t) ∨ ∃ a u, p.exec s = (.ok a, u) ∧ (f a).exec u = (.error e, t) := by
  rw [exec_bind] at hx
  cases hp : p.exec s with
  | mk r u =>
    rw [hp] at hx
    cases r with
    | error e' =>
      cases hx
      exact .inl rfl
    | ok a => exact .inr ⟨a, u, rfl, hx⟩

theorem exec_perform_error {i : ι} {t : σ} {e : ε}
    (h : (perform i : Prog σ ι ε Unit).exec s = (.error e, t)) : t = s := by
  rw [exec_perform] at h
  split at h
  · cases h
  · exact (Prod.mk.inj h).2.symm

/-- Where every effect takes place, so it does in the part that fails. -/
theorem Smooth.error_bind {p : Prog σ ι ε α} {f : α → Prog σ ι ε β} {t : σ} {e : ε}
    (h : (p.bind f).Smooth s) (hx : (p.bind f).exec s = (.error e, t)) :
    p.exec s = (.error e, t) ∨
      ∃ a u, p.exec s = (.ok a, u) ∧ (f a).Smooth u ∧ (f a).exec u = (.error e, t) := by
  rcases exec_bind_error hx with hp | ⟨a, u, hp, hx⟩
  · exact .inl hp
  · exact .inr ⟨a, u, hp, h.of_bind.2 a u hp, hx⟩

end Prog

end Effects
