import Dpc.Lib.Halted

/-! Programs whose effects act on a second state underneath, each by steps of its own. -/

namespace Effects.Prog

variable {σ δ ι ε α β : Type} [Effect ι σ ε] {done : ι → δ → δ → Prop}
  {torn : ι → σ → δ → σ → δ → Prop} {G : ι → σ → σ → Prop} {is js : List ι} {I J : σ → δ → Prop}

/-- Where a program running alone may have been stopped, and the effects it came to. `done` is
what an effect that takes place does underneath; `torn` is what one leaves of both states that
was stopped inside, or failed there. -/
inductive Carried (done : ι → δ → δ → Prop) (torn : ι → σ → δ → σ → δ → Prop) :
    Prog σ ι ε α → σ → δ → List ι → σ → δ → Prop where
  | stop (p : Prog σ ι ε α) (s : σ) (d : δ) : Carried done torn p s d [] s d
  | torn {i : ι} {k : Except ε Unit → Prog σ ι ε α} {s t : σ} {d d' : δ} (h : torn i s d t d') :
      Carried done torn (.act i k) s d [i] t d'
  | look {k : σ → Prog σ ι ε α} {s t : σ} {d d' : δ} {is : List ι}
      (h : Carried done torn (k s) s d is t d') : Carried done torn (.look k) s d is t d'
  | act {i : ι} {k : Except ε Unit → Prog σ ι ε α} {s s' t : σ} {d m d' : δ} {is : List ι}
      (ha : Effect.apply i s = .ok s') (hd : done i d m)
      (h : Carried done torn (k (.ok ())) s' m is t d') :
      Carried done torn (.act i k) s d (i :: is) t d'
  | fail {i : ι} {k : Except ε Unit → Prog σ ι ε α} {s t : σ} {d d' : δ} {is : List ι} {e : ε}
      (ha : Effect.apply i s = .error e) (h : Carried done torn (k (.error e)) s d is t d') :
      Carried done torn (.act i k) s d is t d'

/-- Some effects keep an invariant of the two states when they take place, and when one is
stopped inside what is left is still good enough. -/
structure Carries (done : ι → δ → δ → Prop) (torn : ι → σ → δ → σ → δ → Prop)
    (G : ι → σ → σ → Prop) (is : List ι) (I J : σ → δ → Prop) : Prop where
  done : ∀ i s t d d', i ∈ is → G i s t → Effect.apply i s = .ok t → done i d d' → I s d → I t d'
  torn : ∀ i s t d d', i ∈ is → (∀ u, Effect.apply i s = .ok u → G i s u) → torn i s d t d' →
    I s d → J t d'
  stop : ∀ s d, I s d → J s d

theorem Carries.mono (h : Carries done torn G is I J) (hs : js ⊆ is) :
    Carries done torn G js I J :=
  ⟨fun i s t d d' hi => h.done i s t d d' (hs hi), fun i s t d d' hi => h.torn i s t d d' (hs hi),
    h.stop⟩

namespace Carried

variable {Q : α → σ → Prop} {p : Prog σ ι ε α} {f : α → Prog σ ι ε β} {s t : σ} {d d' : δ}

/-- It was stopped in its first part, or came through that. -/
theorem through (h : Carried done torn (p.bind f) s d is t d') (hp : Keeps G Q p s)
    (hk : Carries done torn G is I J) (hI : I s d) :
    J t d' ∨ ∃ a m dm js, Q a m ∧ I m dm ∧ js ⊆ is ∧ Carried done torn (f a) m dm js t d' := by
  induction p generalizing s d is with
  | pure a => exact .inr ⟨a, s, d, is, hp, hI, List.Subset.refl _, h⟩
  | throw e =>
    cases h
    exact .inl (hk.stop _ _ hI)
  | look k ih =>
    cases h with
    | stop => exact .inl (hk.stop _ _ hI)
    | look h => exact ih s h (hp s rfl) hk hI
  | act i k ih =>
    cases h with
    | stop => exact .inl (hk.stop _ _ hI)
    | torn h =>
      exact .inl (hk.torn _ _ _ _ _ List.mem_cons_self (fun u hu => ((hp _ rfl).1 u hu).1) h hI)
    | act ha hd h =>
      obtain ⟨hg, hrest⟩ := (hp _ rfl).1 _ ha
      have hnext := hk.done _ _ _ _ _ List.mem_cons_self hg ha hd hI
      rcases ih _ h hrest (hk.mono (List.subset_cons_self _ _)) hnext with
        hJ | ⟨a, m, dm, js, hQ, hIm, hjs, hf⟩
      · exact .inl hJ
      · exact .inr ⟨a, m, dm, js, hQ, hIm, fun x hx => List.mem_cons_of_mem _ (hjs hx), hf⟩
    | fail ha h => exact ih _ h ((hp _ rfl).2 _ ha) hk hI

/-- One effect, and what comes after it. -/
theorem perform {i : ι} {f : Unit → Prog σ ι ε β}
    (h : Carried done torn ((Prog.perform i).bind f) s d is t d') :
    t = s ∧ d' = d ∨ i ∈ is ∧ torn i s d t d' ∨
      ∃ m dm js, i ∈ is ∧ Effect.apply i s = .ok m ∧ done i d dm ∧ js ⊆ is ∧
        Carried done torn (f ()) m dm js t d' := by
  cases h with
  | stop => exact .inl ⟨rfl, rfl⟩
  | torn h => exact .inr (.inl ⟨List.mem_cons_self, h⟩)
  | act ha hd h =>
    exact .inr (.inr ⟨_, _, _, List.mem_cons_self, ha, hd, List.subset_cons_self _ _, h⟩)
  | fail ha h =>
    cases h
    exact .inl ⟨rfl, rfl⟩

/-- Where every effect can take place underneath, so can the whole run. -/
theorem exec {A : ι → Prop} {p : Prog σ ι ε α} (hp : p.Emits A)
    (hdone : ∀ i s t d, A i → Effect.apply i s = .ok t → I s d → ∃ d', done i d d' ∧ I t d')
    (hI : I s d) : ∃ is d', Carried done torn p s d is (p.exec s).2 d' ∧ I (p.exec s).2 d' := by
  induction p generalizing s d with
  | pure a => exact ⟨[], d, .stop _ _ _, hI⟩
  | throw e => exact ⟨[], d, .stop _ _ _, hI⟩
  | look k ih =>
    obtain ⟨is, d', h, hI'⟩ := ih s (hp s) hI
    exact ⟨is, d', .look h, hI'⟩
  | act i k ih =>
    simp only [Prog.exec]
    cases ha : Effect.apply i s with
    | ok m =>
      obtain ⟨dm, hd, hm⟩ := hdone i s m d hp.1 ha hI
      obtain ⟨is, d', h, hI'⟩ := ih _ (hp.2 _) hm
      exact ⟨i :: is, d', .act ha hd h, hI'⟩
    | error e =>
      obtain ⟨is, d', h, hI'⟩ := ih _ (hp.2 _) hI
      exact ⟨is, d', .fail ha h, hI'⟩

/-- So can the run up to the effect that is stopped inside. -/
theorem of_next {A : ι → Prop} {p : Prog σ ι ε α} (hp : p.Emits A)
    (hdone : ∀ i s t d, A i → Effect.apply i s = .ok t → I s d → ∃ d', done i d d' ∧ I t d')
    {n : Nat} {m : σ} {i : ι} (h : p.next n s = some (i, m)) (hI : I s d) :
    ∃ is dm, I m dm ∧ ∀ t d', torn i m dm t d' → Carried done torn p s d is t d' := by
  induction p generalizing n s d with
  | pure a => cases h
  | throw e => cases h
  | look k ih =>
    obtain ⟨is, dm, hm, hc⟩ := ih s (hp s) h hI
    exact ⟨is, dm, hm, fun t d' ht => .look (hc t d' ht)⟩
  | act j k ih =>
    cases n with
    | zero =>
      cases h
      exact ⟨[i], d, hI, fun t d' ht => .torn ht⟩
    | succ n =>
      simp only [next] at h
      cases ha : Effect.apply j s with
      | ok s' =>
        rw [ha] at h
        obtain ⟨d1, hd, h1⟩ := hdone j s s' d hp.1 ha hI
        obtain ⟨is, dm, hm, hc⟩ := ih _ (hp.2 _) h h1
        exact ⟨j :: is, dm, hm, fun t d' ht => .act ha hd (hc t d' ht)⟩
      | error e =>
        rw [ha] at h
        obtain ⟨is, dm, hm, hc⟩ := ih _ (hp.2 _) h hI
        exact ⟨is, dm, hm, fun t d' ht => .fail ha (hc t d' ht)⟩

end Carried

end Effects.Prog
