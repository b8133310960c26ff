import Dpc.Lib.Prog

namespace Effects

variable {σ ι ε α β : Type} [Effect ι σ ε]

/-- Rely-guarantee correctness of a program from one state. Between two of its
own steps others may move the state along `R`; each of its effects keeps `G`;
it ends in `Q` with its result, or in `E` with its failure. -/
def Safe (R : σ → σ → Prop) (G : ι → σ → σ → Prop) (E : ε → σ → Prop) (Q : α → σ → Prop) :
    Prog σ ι ε α → σ → Prop
  | .pure a, s => Q a s
  | .throw e, s => E e s
  | .look k, s => ∀ s', R s s' → Safe R G E Q (k s') s'
  | .act i k, s => ∀ s', R s s' →
      (∀ t, Effect.apply i s' = .ok t → G i s' t ∧ Safe R G E Q (k (.ok ())) t) ∧
      (∀ e, Effect.apply i s' = .error e → Safe R G E Q (k (.error e)) s')

section Rules

variable {R R' : σ → σ → Prop} {G G' : ι → σ → σ → Prop} {E E' : ε → σ → Prop}

theorem Safe.mono {Q Q' : α → σ → Prop} {p : Prog σ ι ε α} {s : σ} (h : Safe R G E Q p s)
    (hR : ∀ s t, R' s t → R s t) (hG : ∀ i s t, G i s t → G' i s t)
    (hE : ∀ e s, E e s → E' e s) (hQ : ∀ a s, Q a s → Q' a s) : Safe R' G' E' Q' p s := by
  induction p generalizing s with
  | pure a => exact hQ a s h
  | throw e => exact hE e s h
  | look k ih => exact fun s' hs => ih s' (h s' (hR _ _ hs))
  | act i k ih =>
    intro s' hs
    obtain ⟨hok, herr⟩ := h s' (hR _ _ hs)
    exact ⟨fun t ht => ⟨hG _ _ _ (hok t ht).1, ih _ (hok t ht).2⟩, fun e he => ih _ (herr e he)⟩

theorem Safe.post {Q Q' : α → σ → Prop} {p : Prog σ ι ε α} {s : σ} (h : Safe R G E Q p s)
    (hQ : ∀ a s, Q a s → Q' a s) : Safe R G E Q' p s :=
  h.mono (fun _ _ h => h) (fun _ _ _ h => h) (fun _ _ h => h) hQ

theorem Safe.bind {Q : β → σ → Prop} {p : Prog σ ι ε α} {f : α → Prog σ ι ε β} {s : σ}
    (h : Safe R G E (fun a t => Safe R G E Q (f a) t) p s) : Safe R G E Q (p.bind f) s := by
  induction p generalizing s with
  | pure a => exact h
  | throw e => exact h
  | look k ih => exact fun s' hs => ih s' (h s' hs)
  | act i k ih =>
    intro s' hs
    obtain ⟨hok, herr⟩ := h s' hs
    exact ⟨fun t ht => ⟨(hok t ht).1, ih _ (hok t ht).2⟩, fun e he => ih _ (herr e he)⟩

theorem Safe.attempt {Q : Except ε α → σ → Prop} {p : Prog σ ι ε α} {s : σ}
    (h : Safe R G (fun e t => Q (.error e) t) (fun a t => Q (.ok a) t) p s) :
    Safe R G E Q p.attempt s := by
  induction p generalizing s with
  | pure a => exact h
  | throw e => exact h
  | look k ih => exact fun s' hs => ih s' (h s' hs)
  | act i k ih =>
    intro s' hs
    obtain ⟨hok, herr⟩ := h s' hs
    exact ⟨fun t ht => ⟨(hok t ht).1, ih _ (hok t ht).2⟩, fun e he => ih _ (herr e he)⟩

theorem Safe.ofExcept {Q : α → σ → Prop} {x : Except ε α} {s : σ}
    (hok : ∀ a, x = .ok a → Q a s) (herr : ∀ e, x = .error e → E e s) :
    Safe R G E Q (Prog.ofExcept x) s := by
  cases x with
  | ok a => exact hok a rfl
  | error e => exact herr e rfl

theorem Safe.query {Q : α → σ → Prop} {f : σ → Except ε α} {s : σ}
    (hok : ∀ t a, R s t → f t = .ok a → Q a t) (herr : ∀ t e, R s t → f t = .error e → E e t) :
    Safe R G E Q (Prog.query f) s :=
  fun t ht => Safe.ofExcept (fun a ha => hok t a ht ha) (fun e he => herr t e ht he)

theorem Safe.perform {Q : Unit → σ → Prop} {i : ι} {s : σ}
    (hok : ∀ m t, R s m → Effect.apply i m = .ok t → G i m t ∧ Q () t)
    (herr : ∀ m e, R s m → Effect.apply i m = .error e → E e m) :
    Safe R G E Q (Prog.perform i) s :=
  fun m hm => ⟨fun t ht => hok m t hm ht, fun e he => herr m e hm he⟩

/-- Moves of the others before the program starts are moves it relies on. -/
theorem Safe.rely {Q : α → σ → Prop} {p : Prog σ ι ε α} {s t : σ}
    (trans : ∀ {a b c}, R a b → R b c → R a c)
    (hQ : ∀ a s t, Q a s → R s t → Q a t) (hE : ∀ e s t, E e s → R s t → E e t)
    (h : Safe R G E Q p s) (ht : R s t) : Safe R G E Q p t := by
  cases p with
  | pure a => exact hQ a s t h ht
  | throw e => exact hE e s t h ht
  | look k => exact fun u hu => h u (trans ht hu)
  | act i k => exact fun u hu => h u (trans ht hu)

end Rules

section Alone

variable {G : ι → σ → σ → Prop} {E : ε → σ → Prop} {Q : α → σ → Prop}

/-- Running alone: nobody else moves the state. -/
abbrev SafeAlone (G : ι → σ → σ → Prop) (E : ε → σ → Prop) (Q : α → σ → Prop) :
    Prog σ ι ε α → σ → Prop := Safe Eq G E Q

theorem SafeAlone.query {f : σ → Except ε α} {s : σ} (hok : ∀ a, f s = .ok a → Q a s)
    (herr : ∀ e, f s = .error e → E e s) : SafeAlone G E Q (Prog.query f) s := by
  refine Safe.query ?_ ?_
  · intro t a ht ha
    subst ht
    exact hok a ha
  · intro t e ht he
    subst ht
    exact herr e he

theorem SafeAlone.perform {Q : Unit → σ → Prop} {i : ι} {s : σ}
    (hok : ∀ t, Effect.apply i s = .ok t → G i s t ∧ Q () t)
    (herr : ∀ e, Effect.apply i s = .error e → E e s) : SafeAlone G E Q (Prog.perform i) s := by
  refine Safe.perform ?_ ?_
  · intro m t hm ht
    subst hm
    exact hok t ht
  · intro m e hm he
    subst hm
    exact herr e he

/-- The run of a program that is safe ends in one of its two postconditions. -/
theorem SafeAlone.run {p : Prog σ ι ε α} {s : σ} (h : SafeAlone G E Q p s) :
    match p.exec s with
    | (.ok a, t) => Q a t
    | (.error e, t) => E e t := by
  induction p generalizing s with
  | pure a => exact h
  | throw e => exact h
  | look k ih => exact ih s (h s rfl)
  | act i k ih =>
    simp only [Prog.exec]
    cases ha : Effect.apply i s with
    | ok m => exact ih _ ((h s rfl).1 m ha).2
    | error e => exact ih _ ((h s rfl).2 e ha)

theorem SafeAlone.ok {p : Prog σ ι ε α} {s t : σ} {a : α} (h : SafeAlone G E Q p s)
    (hx : p.exec s = (.ok a, t)) : Q a t := by
  have := h.run
  rwa [hx] at this

/-- What relates the two sides of every effect relates the start to wherever the
program may have been stopped. -/
theorem SafeAlone.cut {p : Prog σ ι ε α} {s t : σ} {is : List ι} {I : List ι → σ → σ → Prop}
    (h : SafeAlone G E Q p s) (hc : Prog.Cut p s is t) (refl : ∀ s, I [] s s)
    (cons : ∀ i is s m t, Effect.apply i s = .ok m → G i s m → I is m t → I (i :: is) s t) :
    I is s t := by
  induction hc with
  | stop p s => exact refl s
  | look _ ih => exact ih (h _ rfl)
  | act ha _ ih =>
    obtain ⟨hg, hk⟩ := (h _ rfl).1 _ ha
    exact cons _ _ _ _ _ ha hg (ih hk)
  | fail ha _ ih => exact ih ((h _ rfl).2 _ ha)

/-- Effects that take place one after another, each of which keeps `G`. -/
inductive Trace (G : ι → σ → σ → Prop) : σ → List ι → σ → Prop where
  | nil (s : σ) : Trace G s [] s
  | cons {i : ι} {is : List ι} {s m t : σ} (ha : Effect.apply i s = .ok m) (hg : G i s m)
      (h : Trace G m is t) : Trace G s (i :: is) t

/-- What two traces of the same effects keep, they keep together. -/
theorem Trace.and {G' : ι → σ → σ → Prop} {is : List ι} {s t : σ} (h : Trace G s is t)
    (h' : Trace G' s is t) : Trace (fun i a b => G i a b ∧ G' i a b) s is t := by
  induction h with
  | nil s => exact .nil s
  | cons ha hg _ ih =>
    cases h' with
    | cons ha' hg' h' =>
      cases ha.symm.trans ha'
      exact .cons ha ⟨hg, hg'⟩ (ih h')

theorem SafeAlone.trace {p : Prog σ ι ε α} {s t : σ} {is : List ι} (h : SafeAlone G E Q p s)
    (hc : Prog.Cut p s is t) : Trace G s is t := by
  refine SafeAlone.cut (I := fun is s t => Trace G s is t) h hc ?_ ?_
  · exact fun s => .nil s
  · exact fun i is s m t ha hg ht => .cons ha hg ht

/-- Running alone, with nothing promised of a failure. -/
abbrev Keeps (G : ι → σ → σ → Prop) (Q : α → σ → Prop) : Prog σ ι ε α → σ → Prop :=
  SafeAlone G (fun _ _ => True) Q

namespace Keeps

theorem pure {a : α} {s : σ} (h : Q a s) : Keeps G Q (Prog.pure a : Prog σ ι ε α) s := h

theorem throw {e : ε} {s : σ} : Keeps G Q (Prog.throw e : Prog σ ι ε α) s := trivial

theorem ofExcept {x : Except ε α} {s : σ} (h : ∀ a, x = .ok a → Q a s) :
    Keeps G Q (Prog.ofExcept x) s :=
  Safe.ofExcept h fun _ _ => trivial

theorem query {f : σ → Except ε α} {s : σ} (h : ∀ a, f s = .ok a → Q a s) :
    Keeps G Q (Prog.query f) s :=
  SafeAlone.query h fun _ _ => trivial

theorem perform {Q : Unit → σ → Prop} {i : ι} {s : σ}
    (h : ∀ t, Effect.apply i s = .ok t → G i s t ∧ Q () t) : Keeps G Q (Prog.perform i) s :=
  SafeAlone.perform h fun _ _ => trivial

/-- One program after another: what the first leaves is what the second starts from. -/
theorem bind {Q' : β → σ → Prop} {p : Prog σ ι ε α} {k : α → Prog σ ι ε β} {s : σ}
    (h : Keeps G Q p s) (hk : ∀ a t, Q a t → Keeps G Q' (k a) t) : Keeps G Q' (p.bind k) s :=
  Safe.bind (h.post hk)

theorem bind_ofExcept {Q : β → σ → Prop} {x : Except ε α} {k : α → Prog σ ι ε β} {s : σ}
    (h : ∀ a, x = .ok a → Keeps G Q (k a) s) : Keeps G Q ((Prog.ofExcept x).bind k) s :=
  Safe.bind (ofExcept h)

theorem bind_query {Q : β → σ → Prop} {f : σ → Except ε α} {k : α → Prog σ ι ε β} {s : σ}
    (h : ∀ a, f s = .ok a → Keeps G Q (k a) s) : Keeps G Q ((Prog.query f).bind k) s :=
  Safe.bind (query h)

theorem ok {p : Prog σ ι ε α} {s t : σ} {a : α} (h : Keeps G Q p s)
    (hx : p.exec s = (.ok a, t)) : Q a t :=
  SafeAlone.ok h hx

/-- What holds of the result of every run may be kept as postcondition. -/
theorem of_exec {p : Prog σ ι ε α} {s : σ} (hx : ∀ a t, p.exec s = (.ok a, t) → Q a t)
    (h : Keeps G (fun _ _ => True) p s) : Keeps G Q p s := by
  induction p generalizing s with
  | pure a => exact hx a s rfl
  | throw e => trivial
  | look k ih =>
    intro s' hs
    subst hs
    exact ih s hx (h s rfl)
  | act i k ih =>
    intro s' hs
    subst hs
    obtain ⟨hok, herr⟩ := h s rfl
    refine ⟨fun t ht => ⟨(hok t ht).1, ih _ (fun a u ha => hx a u ?_) (hok t ht).2⟩,
      fun e he => ih _ (fun a u ha => hx a u ?_) (herr e he)⟩
    · simp only [Prog.exec, ht]
      exact ha
    · simp only [Prog.exec, he]
      exact ha

/-- The result may be kept together with the run that gave it. -/
theorem with_exec {p : Prog σ ι ε α} {s : σ} (h : Keeps G Q p s) :
    Keeps G (fun a t => Q a t ∧ p.exec s = (.ok a, t)) p s :=
  of_exec (fun _ _ hx => ⟨Keeps.ok h hx, hx⟩) (h.post fun _ _ _ => trivial)

end Keeps

end Alone

end Effects
