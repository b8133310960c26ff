import Dpc.Lib.Pool

/-! Programs that are stopped in the middle of an effect. -/

namespace Effects.Prog

variable {σ ι ε α τ : Type} [Effect ι σ ε] {torn : ι → σ → List τ → σ → Prop} {A : ι → Prop}

/-- Where a program running alone may have been stopped, between two effects or inside one:
`torn` says what the part of an effect leaves, and what is then left over. -/
inductive Halted (torn : ι → σ → List τ → σ → Prop) : Prog σ ι ε α → σ → List τ → σ → Prop where
  | stop (p : Prog σ ι ε α) (s : σ) : Halted torn p s [] s
  | torn {i : ι} {k : Except ε Unit → Prog σ ι ε α} {s t : σ} {left : List τ}
      (h : torn i s left t) : Halted torn (.act i k) s left t
  | look {k : σ → Prog σ ι ε α} {s t : σ} {left : List τ} (h : Halted torn (k s) s left t) :
      Halted torn (.look k) s left t
  | act {i : ι} {k : Except ε Unit → Prog σ ι ε α} {s s' t : σ} {left : List τ}
      (ha : Effect.apply i s = .ok s') (h : Halted torn (k (.ok ())) s' left t) :
      Halted torn (.act i k) s left t
  | fail {i : ι} {k : Except ε Unit → Prog σ ι ε α} {s t : σ} {left : List τ} {e : ε}
      (ha : Effect.apply i s = .error e) (h : Halted torn (k (.error e)) s left t) :
      Halted torn (.act i k) s left t

/-- What every effect keeps, done or torn, holds wherever the program was stopped. -/
theorem Halted.keeps {I : List τ → σ → Prop} {p : Prog σ ι ε α} {s t : σ} {before left : List τ}
    (h : Halted torn p s left t) (hp : p.Emits A)
    (hdone : ∀ i s t, A i → Effect.apply i s = .ok t → I before s → I before t)
    (htorn : ∀ i s l t, A i → torn i s l t → I before s → I (before ++ l) t) (hI : I before s) :
    I (before ++ left) t := by
  induction h with
  | stop p s => rwa [List.append_nil]
  | torn h => exact htorn _ _ _ _ hp.1 h hI
  | look _ ih => exact ih (hp _) hI
  | act ha _ ih => exact ih (hp.2 _) (hdone _ _ _ hp.1 ha hI)
  | fail _ _ ih => exact ih (hp.2 _) hI

/-- The effect that is tried after so many others, and the state it is tried in. -/
def next : Nat → Prog σ ι ε α → σ → Option (ι × σ)
  | _, .pure _, _ => none
  | _, .throw _, _ => none
  | n, .look k, s => (k s).next n s
  | 0, .act i _, s => some (i, s)
  | n + 1, .act i k, s =>
    match Effect.apply i s with
    | .ok s' => (k (.ok ())).next n s'
    | .error e => (k (.error e)).next n s

theorem Halted.of_next {p : Prog σ ι ε α} {n : Nat} {s m t : σ} {i : ι} {left : List τ}
    (h : p.next n s = some (i, m)) (ht : torn i m left t) : Halted torn p s left t := by
  induction p generalizing n s with
  | pure a => cases h
  | throw e => cases h
  | look k ih => exact .look (ih s h)
  | act j k ih =>
    cases n with
    | zero =>
      cases h
      exact .torn ht
    | succ n =>
      simp only [next] at h
      cases ha : Effect.apply j s with
      | ok s' =>
        rw [ha] at h
        exact .act ha (ih _ h)
      | error e =>
        rw [ha] at h
        exact .fail ha (ih _ h)

end Effects.Prog
