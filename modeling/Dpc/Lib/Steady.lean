import Dpc.Lib.Duo
import Dpc.Lib.Footprint

/-! An invariant that every worker keeps as long as the others keep it, and readers whose answer
the invariant decides. -/

namespace Effects

variable {σ ι ε α β : Type} [Effect ι σ ε] {K : σ → Prop} {Q Q' : α → Prop} {s t : σ}

/-- As long as the others keep the invariant, so do the effects of a program, and its result is
such. -/
abbrev Steady (K : σ → Prop) (Q : α → Prop) : Prog σ ι ε α → σ → Prop :=
  Safe (fun _ t => K t) (fun _ _ t => K t) (fun _ _ => True) (fun a _ => Q a)

namespace Steady

/-- Where the program starts does not matter: it may rely on the invariant alone. -/
theorem anywhere {p : Prog σ ι ε α} (h : Steady K Q p s) : Steady K Q p t := by
  cases p with
  | pure a => exact h
  | throw e => trivial
  | look k => exact h
  | act i k => exact h

theorem bind {Q : β → Prop} {p : Prog σ ι ε α} {f : α → Prog σ ι ε β} (h : Steady K Q' p s)
    (hf : ∀ a, Q' a → Steady K Q (f a) s) : Steady K Q (p.bind f) s :=
  Safe.bind (h.post fun a _ ha => (hf a ha).anywhere)

theorem bind_ofExcept {Q : β → Prop} {x : Except ε α} {f : α → Prog σ ι ε β}
    (h : ∀ a, x = .ok a → Steady K Q (f a) s) : Steady K Q ((Prog.ofExcept x).bind f) s :=
  Safe.bind (Safe.ofExcept h fun _ _ => trivial)

theorem of_emits {P : ι → Prop} {p : Prog σ ι ε α}
    (hP : ∀ i s t, P i → K s → Effect.apply i s = .ok t → K t) (h : p.Emits P) :
    Steady K (fun _ => True) p s := by
  induction p generalizing s with
  | pure a => trivial
  | throw e => trivial
  | look k ih => exact fun s' _ => ih s' (h s')
  | act i k ih =>
    exact fun s' hs => ⟨fun t ht => ⟨hP i s' t h.1 hs ht, ih _ (h.2 _)⟩, fun e _ => ih _ (h.2 _)⟩

/-- A program without effects returns what it should as soon as it does beside the others. -/
theorem of_beside {p : Prog σ ι ε α} (he : p.Emits fun _ => False)
    (h : Beside (fun _ t => K t) (fun a _ => Q a) p s) : Steady K Q p s := by
  induction p generalizing s with
  | pure a => exact h
  | throw e => trivial
  | look k ih => exact fun s' hs => ih s' (he s') (h s' hs)
  | act i k ih => exact he.1.elim

end Steady

theorem Beside.forall {ν : Type} {R : σ → σ → Prop} {Q : ν → α → σ → Prop} {p : Prog σ ι ε α}
    (h : ∀ n, Beside R (Q n) p s) : Beside R (fun a t => ∀ n, Q n a t) p s := by
  induction p generalizing s with
  | pure a => exact h
  | throw e => trivial
  | look k ih => exact fun s' hs => ih s' fun n => h n s' hs
  | act i k ih =>
    exact fun s' hs => ⟨fun t ht => ⟨trivial, ih _ fun n => ((h n s' hs).1 t ht).2⟩,
      fun e he => ih _ fun n => (h n s' hs).2 e he⟩

namespace Pool

variable {starts : Prog σ ι ε Unit → Prop} {a b : Pool σ ι ε}

/-- Every worker keeps the invariant from where it stands. -/
structure Kept (K : σ → Prop) (a : Pool σ ι ε) : Prop where
  holds : K a.state
  steady : ∀ p ∈ a.workers, Steady K (fun _ => True) p a.state

/-- The step lemma. -/
theorem Kept.step (hstart : ∀ p s, starts p → Steady K (fun _ => True) p s) (h : Kept K a)
    (hs : Step starts a b) : Kept K b := by
  cases hs with
  | start workers s p hp =>
    refine ⟨h.holds, fun q hq => ?_⟩
    rcases List.mem_cons.mp hq with rfl | hq
    · exact hstart q s hp
    · exact h.steady q hq
  | work before after s s' p p' l hstep =>
    have hp := h.steady p (by simp)
    have hmove : K s' ∧ Steady K (fun _ => True) p' s' := by
      cases hstep with
      | look k => exact ⟨h.holds, hp s h.holds⟩
      | act i k _ _ ha => exact (hp s h.holds).1 s' ha
      | fail i k _ e ha => exact ⟨h.holds, (hp s h.holds).2 e ha⟩
    refine ⟨hmove.1, fun q hq => ?_⟩
    rcases List.mem_append.mp hq with hq | hq
    · exact (h.steady q (List.mem_append_left _ hq)).anywhere
    · rcases List.mem_cons.mp hq with rfl | hq
      · exact hmove.2
      · exact (h.steady q (List.mem_append_right _ (List.mem_cons_of_mem _ hq))).anywhere
  | stop before after s p =>
    refine ⟨h.holds, fun q hq => h.steady q ?_⟩
    rcases List.mem_append.mp hq with hq | hq
    · exact List.mem_append_left _ hq
    · exact List.mem_append_right _ (List.mem_cons_of_mem _ hq)

/-- The run lemma. -/
theorem Kept.run (hstart : ∀ p s, starts p → Steady K (fun _ => True) p s) (h : Kept K a)
    (hr : Reaches starts a b) : Kept K b := by
  induction hr with
  | refl => exact h
  | tail _ hs ih => exact ih.step hstart hs

end Pool

namespace Prog

/-- A program only reads, and whatever states with the invariant it reads, it gives this answer. -/
def Answers (K : σ → Prop) (a : α) : Prog σ ι ε α → Prop
  | .pure b => b = a
  | .throw _ => False
  | .look k => ∀ s, K s → (k s).Answers K a
  | .act _ _ => False

/-- What does not depend on more than the invariant tells is answered as it was at one moment. -/
theorem Within.answers {A : σ → σ → Prop} {a : α} {p : Prog σ ι ε α} (h : p.Within A s)
    (he : p.Emits fun _ => False) (hx : (p.exec s).1 = .ok a) : p.Answers (A s) a := by
  induction p with
  | pure b => exact Except.ok.inj hx
  | throw e => cases hx
  | look k ih =>
    intro s' hs
    rw [h.1 s' hs]
    exact ih s h.2 (he s) hx
  | act i k ih => exact he.1.elim

omit [Effect ι σ ε] in
theorem Answers.mono {K' : σ → Prop} {a : α} {p : Prog σ ι ε α} (h : p.Answers K a)
    (hK : ∀ s, K' s → K s) : p.Answers K' a := by
  induction p with
  | pure b => exact h
  | throw e => exact h
  | look k ih => exact fun s hs => ih s (h s (hK s hs))
  | act i k ih => exact h

theorem Answers.step {a : α} {p p' : Prog σ ι ε α} {l : Option ι} (h : p.Answers K a) (hs : K s)
    (hstep : Step p s l p' t) : p'.Answers K a ∧ t = s := by
  cases hstep with
  | look k => exact ⟨h s hs, rfl⟩
  | act i k => exact h.elim
  | fail i k => exact ⟨h.elim, rfl⟩

end Prog

/-- A reader at some point of its program, and the pool that works meanwhile. -/
structure Watched (σ ι ε α : Type) where
  reader : Prog σ ι ε α
  pool : Pool σ ι ε

namespace Watched

/-- The reader takes a step, or the pool does. -/
inductive Step (starts : Prog σ ι ε Unit → Prop) : Watched σ ι ε α → Watched σ ι ε α → Prop where
  | read {p p' : Prog σ ι ε α} {workers : List (Prog σ ι ε Unit)} {s s' : σ} {l : Option ι}
      (h : Prog.Step p s l p' s') : Step starts ⟨p, workers, s⟩ ⟨p', workers, s'⟩
  | work {p : Prog σ ι ε α} {a b : Pool σ ι ε} (h : Pool.Step starts a b) :
      Step starts ⟨p, a⟩ ⟨p, b⟩

abbrev Reaches (starts : Prog σ ι ε Unit → Prop) : Watched σ ι ε α → Watched σ ι ε α → Prop :=
  Relation.ReflTransGen (Step starts)

variable {starts : Prog σ ι ε Unit → Prop} {c d : Watched σ ι ε α} {a : α}

/-- Whatever the workers do, the answer of a reader stays decided. -/
theorem Reaches.answers (hstart : ∀ p s, starts p → Steady K (fun _ => True) p s)
    (h : c.pool.Kept K) (hc : c.reader.Answers K a) (hr : Reaches starts c d) :
    d.pool.Kept K ∧ d.reader.Answers K a := by
  induction hr with
  | refl => exact ⟨h, hc⟩
  | tail _ hs ih =>
    obtain ⟨hpool, hreader⟩ := ih
    cases hs with
    | read hstep =>
      obtain ⟨hrest, rfl⟩ := hreader.step hpool.holds hstep
      exact ⟨hpool, hrest⟩
    | work hstep => exact ⟨hpool.step hstart hstep, hreader⟩

/-- A reader may run to its end with nobody in between. -/
theorem reaches_exec {t : σ} {p : Prog σ ι ε α} {workers : List (Prog σ ι ε Unit)}
    (h : p.exec s = (.ok a, t)) : Reaches starts ⟨p, workers, s⟩ ⟨.pure a, workers, t⟩ := by
  induction p generalizing s with
  | pure b =>
    cases h
    exact .refl
  | throw e => cases h
  | look k ih => exact .head (.read (.look k s)) (ih s h)
  | act i k ih =>
    simp only [Prog.exec] at h
    split at h
    · rename_i s' ha
      exact .head (.read (.act i k s s' ha)) (ih _ h)
    · rename_i e ha
      exact .head (.read (.fail i k s e ha)) (ih _ h)

end Watched

end Effects
