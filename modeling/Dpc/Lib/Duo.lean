import Dpc.Lib.Pool

/-! Two programs that take turns, and what each ends in. -/

namespace Effects

variable {σ ι ε α β γ : Type}

namespace Prog

/-- Whatever it reads and however its effects turn out, the program does not return such a
result. -/
def Never (F : α → Prop) : Prog σ ι ε α → Prop
  | .pure a => ¬F a
  | .throw _ => True
  | .look k => ∀ s, (k s).Never F
  | .act _ k => ∀ r, (k r).Never F

/-- As long as the program may return such a result, it tries these effects only. -/
def Only (P : ι → Prop) (F : α → Prop) : Prog σ ι ε α → Prop
  | .pure _ => True
  | .throw _ => True
  | .look k => ∀ s, (k s).Only P F
  | .act i k => (P i ∨ (Prog.act i k).Never F) ∧ ∀ r, (k r).Only P F

variable {P : ι → Prop} {F : α → Prop}

theorem Never.bind {p : Prog σ ι ε β} {f : β → Prog σ ι ε α} (h : ∀ b, (f b).Never F) :
    (p.bind f).Never F := by
  induction p with
  | pure b => exact h b
  | throw e => trivial
  | look k ih => exact fun s => ih s
  | act i k ih => exact fun r => ih r

/-- What comes first never returns need not be followed up. -/
theorem Never.bind_of {G : β → Prop} {p : Prog σ ι ε β} {f : β → Prog σ ι ε α}
    (hp : p.Never fun b => ¬G b) (h : ∀ b, G b → (f b).Never F) : (p.bind f).Never F := by
  induction p with
  | pure b => exact h b (Classical.not_not.mp hp)
  | throw e => trivial
  | look k ih => exact fun s => ih s (hp s)
  | act i k ih => exact fun r => ih r (hp r)

theorem never_ofExcept {x : Except ε α} (h : ∀ a, x = .ok a → ¬F a) :
    (ofExcept x : Prog σ ι ε α).Never F := by
  cases x with
  | ok a => exact h a rfl
  | error e => trivial

theorem Never.only {p : Prog σ ι ε α} (h : p.Never F) : p.Only P F := by
  induction p with
  | pure a => trivial
  | throw e => trivial
  | look k ih => exact fun s => ih s (h s)
  | act i k ih => exact ⟨.inr h, fun r => ih r (h r)⟩

theorem Emits.only {p : Prog σ ι ε α} (h : p.Emits P) : p.Only P F := by
  induction p with
  | pure a => trivial
  | throw e => trivial
  | look k ih => exact fun s => ih s (h s)
  | act i k ih => exact ⟨.inl h.1, fun r => ih r (h.2 r)⟩

/-- What comes first may be seen to have such effects only, whatever is returned. -/
theorem Only.bind {p : Prog σ ι ε β} {f : β → Prog σ ι ε α} (h : p.Emits P)
    (hf : ∀ b, (f b).Only P F) : (p.bind f).Only P F := by
  induction p with
  | pure b => exact hf b
  | throw e => trivial
  | look k ih => exact fun s => ih s (h s)
  | act i k ih => exact ⟨.inl h.1, fun r => ih r (h.2 r)⟩

theorem Only.bind_of {G : β → Prop} {p : Prog σ ι ε β} {f : β → Prog σ ι ε α} (h : p.Emits P)
    (hp : p.Never fun b => ¬G b) (hf : ∀ b, G b → (f b).Only P F) : (p.bind f).Only P F := by
  induction p with
  | pure b => exact hf b (Classical.not_not.mp hp)
  | throw e => trivial
  | look k ih => exact fun s => ih s (h s) (hp s)
  | act i k ih => exact ⟨.inl h.1, fun r => ih r (h.2 r) (hp r)⟩

section Semantics

variable [Effect ι σ ε] {p p' : Prog σ ι ε α} {s s' : σ} {l : Option ι}

theorem Never.step (h : p.Never F) (hs : Step p s l p' s') : p'.Never F := by
  cases hs with
  | look k => exact h s
  | act i k => exact h _
  | fail i k => exact h _

theorem Only.step (h : p.Only P F) (hs : Step p s l p' s') : p'.Only P F := by
  cases hs with
  | look k => exact h s
  | act i k => exact h.2 _
  | fail i k => exact h.2 _

/-- A step of a program that may still return such a result is a look, or such an effect. -/
theorem Only.effect (h : p.Only P F) (hn : ¬p.Never F) (hs : Step p s l p' s') :
    s' = s ∨ ∃ i, P i ∧ Effect.apply i s = .ok s' := by
  cases hs with
  | look k => exact .inl rfl
  | act i k _ _ ha => exact .inr ⟨i, h.1.resolve_right hn, ha⟩
  | fail i k => exact .inl rfl

end Semantics

/-- A program after its first look. -/
def looked (s : σ) : Prog σ ι ε α → Prog σ ι ε α
  | .look k => k s
  | p => p

end Prog

/-- Correctness of a program beside others that move the state along `R`: nothing is promised of
its own effects, nor of its failure. -/
abbrev Beside [Effect ι σ ε] (R : σ → σ → Prop) (Q : α → σ → Prop) : Prog σ ι ε α → σ → Prop :=
  Safe R (fun _ _ _ => True) (fun _ _ => True) Q

namespace Beside

variable [Effect ι σ ε] {R : σ → σ → Prop} {P : ι → Prop} {F : α → Prop} {Q Q' : α → σ → Prop}
  {p p' : Prog σ ι ε α} {s s' : σ} {l : Option ι}

/-- A step of its own leaves a program correct. -/
theorem step (refl : ∀ s, R s s) (h : Beside R Q p s) (hs : Prog.Step p s l p' s') :
    Beside R Q p' s' := by
  cases hs with
  | look k => exact h s (refl s)
  | act i k _ _ ha => exact ((h s (refl s)).1 _ ha).2
  | fail i k _ e ha => exact (h s (refl s)).2 e ha

theorem bind {Q' : β → σ → Prop} {k : α → Prog σ ι ε β} (h : Beside R Q p s)
    (hk : ∀ a t, Q a t → Beside R Q' (k a) t) : Beside R Q' (p.bind k) s :=
  Safe.bind (h.post hk)

theorem and (h : Beside R Q p s) (h' : Beside R Q' p s) :
    Beside R (fun a t => Q a t ∧ Q' a t) p s := by
  induction p generalizing s with
  | pure a => exact ⟨h, h'⟩
  | throw e => trivial
  | look k ih => exact fun t ht => ih t (h t ht) (h' t ht)
  | act i k ih =>
    exact fun t ht => ⟨fun u hu => ⟨trivial, ih _ ((h t ht).1 u hu).2 ((h' t ht).1 u hu).2⟩,
      fun e he => ih _ ((h t ht).2 e he) ((h' t ht).2 e he)⟩

/-- What the others keep and each effect of a program keeps, the program keeps. -/
theorem of_emits {K : σ → Prop} (hR : ∀ s t, R s t → K s → K t)
    (hP : ∀ i s t, P i → Effect.apply i s = .ok t → K s → K t) (h : p.Emits P) (hs : K s) :
    Beside R (fun _ t => K t) p s := by
  induction p generalizing s with
  | pure a => exact hs
  | throw e => trivial
  | look k ih => exact fun t ht => ih t (h t) (hR s t ht hs)
  | act i k ih =>
    exact fun t ht => ⟨fun u hu => ⟨trivial, ih _ (h.2 _) (hP i t u h.1 hu (hR s t ht hs))⟩,
      fun e _ => ih _ (h.2 _) (hR s t ht hs)⟩

theorem of_never (h : p.Never F) : Beside R (fun a _ => ¬F a) p s := by
  induction p generalizing s with
  | pure a => exact h
  | throw e => trivial
  | look k ih => exact fun t _ => ih t (h t)
  | act i k ih => exact fun t _ => ⟨fun u _ => ⟨trivial, ih _ (h _)⟩, fun e _ => ih _ (h _)⟩

end Beside

/-- Two programs, each at some point, and the state that they share. -/
structure Duo (σ ι ε α β : Type) where
  left : Prog σ ι ε α
  right : Prog σ ι ε β
  state : σ

namespace Duo

variable [Effect ι σ ε]

/-- One of the two takes one atomic step. -/
inductive Step : Duo σ ι ε α β → Duo σ ι ε α β → Prop where
  | left {p p' : Prog σ ι ε α} {q : Prog σ ι ε β} {s s' : σ} {l : Option ι}
      (h : Prog.Step p s l p' s') : Step ⟨p, q, s⟩ ⟨p', q, s'⟩
  | right {p : Prog σ ι ε α} {q q' : Prog σ ι ε β} {s s' : σ} {l : Option ι}
      (h : Prog.Step q s l q' s') : Step ⟨p, q, s⟩ ⟨p, q', s'⟩

abbrev Reaches : Duo σ ι ε α β → Duo σ ι ε α β → Prop := Relation.ReflTransGen Step

/-- The two change sides. -/
def swap (c : Duo σ ι ε α β) : Duo σ ι ε β α := ⟨c.right, c.left, c.state⟩

variable {p : Prog σ ι ε α} {q : Prog σ ι ε β} {c d : Duo σ ι ε α β} {s t : σ} {a : α} {b : β}

theorem Step.swap (h : Step c d) : Step c.swap d.swap := by
  cases h with
  | left h => exact .right h
  | right h => exact .left h

theorem Reaches.swap (h : Reaches c d) : Reaches c.swap d.swap := by
  induction h with
  | refl => exact .refl
  | tail _ hs ih => exact ih.tail hs.swap

/-- What every step of a program keeps of it is kept on the run of both. -/
theorem Reaches.keeps_right {K : Prog σ ι ε β → Prop}
    (hK : ∀ p s l p' s', Prog.Step p s l p' s' → K p → K p') (h : K c.right) (hr : Reaches c d) :
    K d.right := by
  induction hr with
  | refl => exact h
  | tail _ hs ih =>
    cases hs with
    | left hs => exact ih
    | right hs => exact hK _ _ _ _ _ hs ih

theorem Reaches.keeps_left {K : Prog σ ι ε α → Prop}
    (hK : ∀ p s l p' s', Prog.Step p s l p' s' → K p → K p') (h : K c.left) (hr : Reaches c d) :
    K d.left :=
  keeps_right (c := c.swap) (d := d.swap) hK h hr.swap

/-- A program ends as it should, whatever the other returns, where the effects that the other
may try until it returns that are moves that the program relies on. -/
theorem Reaches.left_ends {F : β → Prop} {P : ι → Prop} {R : σ → σ → Prop} {Q : α → σ → Prop}
    (refl : ∀ s, R s s) (trans : ∀ {a b c}, R a b → R b c → R a c)
    (hQ : ∀ a s t, Q a s → R s t → Q a t) (hP : ∀ i s t, P i → Effect.apply i s = .ok t → R s t)
    (hr : Reaches c ⟨.pure a, .pure b, t⟩) (hb : F b) (honly : c.right.Only P F)
    (hsafe : Beside R Q c.left c.state) : Q a t := by
  induction hr using Relation.ReflTransGen.head_induction_on with
  | refl => exact hsafe
  | head hs hrest ih =>
    cases hs with
    | left hs => exact ih honly (hsafe.step refl hs)
    | @right p q q' s s' l hs =>
      have hn : ¬q.Never F := fun hn =>
        Reaches.keeps_right (K := (Prog.Never F ·)) (fun _ _ _ _ _ hs h => Prog.Never.step h hs)
          (Prog.Never.step hn hs) hrest hb
      have hmove : R s s' := by
        rcases honly.effect hn hs with rfl | ⟨i, hi, happly⟩
        · exact refl _
        · exact hP i _ _ hi happly
      exact ih (honly.step hs) (hsafe.rely trans hQ (fun _ _ _ _ _ => trivial) hmove)

theorem Reaches.right_ends {F : α → Prop} {P : ι → Prop} {R : σ → σ → Prop} {Q : β → σ → Prop}
    (refl : ∀ s, R s s) (trans : ∀ {a b c}, R a b → R b c → R a c)
    (hQ : ∀ b s t, Q b s → R s t → Q b t) (hP : ∀ i s t, P i → Effect.apply i s = .ok t → R s t)
    (hr : Reaches c ⟨.pure a, .pure b, t⟩) (ha : F a) (honly : c.left.Only P F)
    (hsafe : Beside R Q c.right c.state) : Q b t :=
  left_ends (c := c.swap) refl trans hQ hP hr.swap ha honly hsafe

theorem reaches_looked_left : Reaches ⟨p, q, s⟩ ⟨p.looked s, q, s⟩ := by
  cases p with
  | look k => exact .single (.left (.look k s))
  | pure a => exact .refl
  | throw e => exact .refl
  | act i k => exact .refl

theorem reaches_looked_right : Reaches ⟨p, q, s⟩ ⟨p, q.looked s, s⟩ :=
  (reaches_looked_left (p := q) (q := p)).swap

/-- One of the two may run to its end with nothing in between. -/
theorem reaches_exec_left (h : p.exec s = (.ok a, t)) : Reaches ⟨p, q, s⟩ ⟨.pure a, q, t⟩ := by
  induction p generalizing s with
  | pure a' =>
    cases h
    exact .refl
  | throw e => cases h
  | look k ih => exact .head (.left (.look k s)) (ih s h)
  | act i k ih =>
    simp only [Prog.exec] at h
    split at h
    · rename_i s' ha
      exact .head (.left (.act i k s s' ha)) (ih _ h)
    · rename_i e ha
      exact .head (.left (.fail i k s e ha)) (ih _ h)

theorem reaches_exec_right (h : q.exec s = (.ok b, t)) : Reaches ⟨p, q, s⟩ ⟨p, .pure b, t⟩ :=
  (reaches_exec_left (q := p) h).swap

end Duo

end Effects
