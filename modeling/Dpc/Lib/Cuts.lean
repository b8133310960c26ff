import Dpc.Lib.Pool

/-! Where a program may have been stopped, and what holds there. -/

namespace Effects.Prog

variable {σ ι ε α β : Type} [Effect ι σ ε]

theorem cut_ofExcept {x : Except ε α} {s t : σ} {is : List ι}
    (h : Cut (ofExcept x : Prog σ ι ε α) s is t) : t = s := by
  cases x with
  | ok a =>
    cases h
    rfl
  | error e =>
    cases h
    rfl

theorem Cut.of_attempt {p : Prog σ ι ε α} {s t : σ} {is : List ι} (h : Cut p.attempt s is t) :
    Cut p s is t := by
  induction p generalizing s is with
  | pure a =>
    cases h
    exact .stop _ _
  | throw e =>
    cases h
    exact .stop _ _
  | look k ih =>
    cases h with
    | stop => exact .stop _ _
    | look h => exact .look (ih s h)
  | act i k ih =>
    cases h with
    | stop => exact .stop _ _
    | act ha h => exact .act ha (ih _ h)
    | fail ha h => exact .fail ha (ih _ h)

omit [Effect ι σ ε] in
theorem Emits.mono {P Q : ι → Prop} {p : Prog σ ι ε α} (h : p.Emits P) (hPQ : ∀ i, P i → Q i) :
    p.Emits Q := by
  induction p with
  | pure a => trivial
  | throw e => trivial
  | look k ih => exact fun s => ih s (h s)
  | act i k ih => exact ⟨hPQ i h.1, fun r => ih r (h.2 r)⟩

/-- Where every effect of a program moves the state along `R`, so does every cut. -/
theorem Emits.cut {P : ι → Prop} {R : σ → σ → Prop} {p : Prog σ ι ε α} {s t : σ} {is : List ι}
    (refl : ∀ s, R s s) (trans : ∀ {a b c}, R a b → R b c → R a c)
    (hP : ∀ i s t, P i → Effect.apply i s = .ok t → R s t) (h : p.Emits P) (hc : Cut p s is t) :
    R s t := by
  induction hc with
  | stop p s => exact refl s
  | look _ ih => exact ih (h _)
  | act ha _ ih => exact trans (hP _ _ _ h.1 ha) (ih (h.2 _))
  | fail _ _ ih => exact ih (h.2 _)

/-- A program that is another one, but that it throws `e` at some places. -/
inductive Stopped (e : ε) : Prog σ ι ε α → Prog σ ι ε α → Prop where
  | stop {q : Prog σ ι ε α} : Stopped e (.throw e) q
  | pure {a : α} : Stopped e (.pure a) (.pure a)
  | throw {x : ε} : Stopped e (.throw x) (.throw x)
  | look {k k' : σ → Prog σ ι ε α} (h : ∀ s, Stopped e (k s) (k' s)) :
      Stopped e (.look k) (.look k')
  | act {i : ι} {k k' : Except ε Unit → Prog σ ι ε α} (h : ∀ r, Stopped e (k r) (k' r)) :
      Stopped e (.act i k) (.act i k')

namespace Stopped

variable {e : ε} {p q : Prog σ ι ε α} {s t : σ}

omit [Effect ι σ ε] in
theorem refl (p : Prog σ ι ε α) : Stopped e p p := by
  induction p with
  | pure a => exact .pure
  | throw x => exact .throw
  | look k ih => exact .look ih
  | act i k ih => exact .act ih

omit [Effect ι σ ε] in
theorem bind {f g : α → Prog σ ι ε β} (h : Stopped e p q) (hf : ∀ a, Stopped e (f a) (g a)) :
    Stopped e (p.bind f) (q.bind g) := by
  induction h with
  | stop => exact .stop
  | pure => exact hf _
  | throw => exact .throw
  | look _ ih => exact .look ih
  | act _ ih => exact .act ih

/-- It throws at one of these places, or runs as the other one. -/
theorem exec (h : Stopped e p q) (s : σ) : (p.exec s).1 = .error e ∨ p.exec s = q.exec s := by
  induction h generalizing s with
  | stop => exact .inl rfl
  | pure => exact .inr rfl
  | throw => exact .inr rfl
  | look _ ih => exact ih s s
  | @act i _ _ _ ih =>
    simp only [Prog.exec]
    cases Effect.apply i s with
    | ok s' => exact ih _ s'
    | error e => exact ih _ s

/-- Where it ends the other one may have been stopped. -/
theorem cut (h : Stopped e p q) (s : σ) : ∃ is, Cut q s is (p.exec s).2 := by
  induction h generalizing s with
  | stop => exact ⟨[], .stop _ _⟩
  | pure => exact ⟨[], .stop _ _⟩
  | throw => exact ⟨[], .stop _ _⟩
  | look _ ih =>
    obtain ⟨is, hc⟩ := ih s s
    exact ⟨is, .look hc⟩
  | @act i _ _ _ ih =>
    simp only [Prog.exec]
    cases ha : Effect.apply i s with
    | ok s' =>
      obtain ⟨is, hc⟩ := ih (.ok ()) s'
      exact ⟨i :: is, .act ha hc⟩
    | error x =>
      obtain ⟨is, hc⟩ := ih (.error x) s
      exact ⟨is, .fail ha hc⟩

end Stopped

end Effects.Prog
