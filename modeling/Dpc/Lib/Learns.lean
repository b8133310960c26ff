import Dpc.Lib.Pool
import Dpc.Lib.Steady

/-! What a program comes to know of a state that others move as well, and that its own effects are
moves of the same kind. -/

namespace Effects

variable {σ ι ε α β : Type} [Effect ι σ ε] {R : σ → σ → Prop} {Q : α → σ → Prop} {s t : σ}

/-- The others move the state along `R`, and so does the program; with its result, `Q`. -/
abbrev Learns (R : σ → σ → Prop) (Q : α → σ → Prop) : Prog σ ι ε α → σ → Prop :=
  Safe R (fun _ s t => R s t) (fun _ _ => True) Q

namespace Learns

theorem bind {Q' : β → σ → Prop} {p : Prog σ ι ε α} {f : α → Prog σ ι ε β} (h : Learns R Q p s)
    (hf : ∀ a t, Q a t → Learns R Q' (f a) t) : Learns R Q' (p.bind f) s :=
  Safe.bind (h.post hf)

theorem bind_ofExcept {Q : β → σ → Prop} {x : Except ε α} {f : α → Prog σ ι ε β}
    (h : ∀ a, x = .ok a → Learns R Q (f a) s) : Learns R Q ((Prog.ofExcept x).bind f) s :=
  Safe.bind (Safe.ofExcept h fun _ _ => trivial)

theorem query {f : σ → Except ε α} (h : ∀ t a, R s t → f t = .ok a → Q a t) :
    Learns R Q (Prog.query f : Prog σ ι ε α) s :=
  Safe.query h fun _ _ _ _ => trivial

theorem perform {Q : Unit → σ → Prop} {i : ι}
    (h : ∀ m t, R s m → Effect.apply i m = .ok t → R m t ∧ Q () t) :
    Learns R Q (Prog.perform i) s :=
  Safe.perform h fun _ _ _ _ => trivial

/-- Where every effect that a program may try is such a move. -/
theorem of_emits {P : ι → Prop} {p : Prog σ ι ε α}
    (hP : ∀ i s t, P i → Effect.apply i s = .ok t → R s t) (h : p.Emits P) :
    Learns R (fun _ _ => True) p s := by
  induction p generalizing s with
  | pure a => trivial
  | throw e => trivial
  | look k ih => exact fun s' _ => ih s' (h s')
  | act i k ih =>
    exact fun s' _ => ⟨fun t ht => ⟨hP i s' t h.1 ht, ih _ (h.2 _)⟩, fun e _ => ih _ (h.2 _)⟩

theorem attempt {p : Prog σ ι ε α} (h : Learns R Q p s) :
    Learns R (fun x t => ∀ a, x = .ok a → Q a t) p.attempt s := by
  refine Safe.attempt (h.mono (fun _ _ hr => hr) (fun _ _ _ hg => hg) (fun e t _ a he => ?_)
    fun a t hq a' he => ?_)
  · cases he
  · cases he
    exact hq

/-- What was known and what no move takes away is known after. -/
theorem keep {F : σ → Prop} {p : Prog σ ι ε α} (stable : ∀ s t, R s t → F s → F t)
    (h : Learns R Q p s) (hF : F s) : Learns R (fun a t => Q a t ∧ F t) p s := by
  induction p generalizing s with
  | pure a => exact ⟨h, hF⟩
  | throw e => trivial
  | look k ih => exact fun s' hs => ih s' (h s' hs) (stable s s' hs hF)
  | act i k ih =>
    intro s' hs
    have hF' := stable s s' hs hF
    obtain ⟨hok, herr⟩ := h s' hs
    exact ⟨fun t ht => ⟨(hok t ht).1, ih _ (hok t ht).2 (stable s' t (hok t ht).1 hF')⟩,
      fun e he => ih _ (herr e he) hF'⟩

/-- What holds along the moves of one program holds along those of many that share the state. -/
theorem pool {starts : Prog σ ι ε Unit → Prop} {b : Pool σ ι ε} (refl : ∀ s, R s s)
    (trans : ∀ {s t u}, R s t → R t u → R s u)
    (hstart : ∀ p s, starts p → Learns R (fun _ _ => True) p s)
    (hr : Pool.Reaches starts ⟨[], s⟩ b) : R s b.state :=
  (hr.rely hstart refl trans (fun _ _ _ _ hg => hg) fun _ hp => absurd hp List.not_mem_nil).1

end Learns

namespace Watched

variable {starts : Prog σ ι ε Unit → Prop} {c d : Watched σ ι ε α}

/-- What a program comes to know beside a pool is so in every state from then on. -/
theorem Reaches.learns (refl : ∀ s, R s s) (trans : ∀ {s t u}, R s t → R t u → R s u)
    (stable : ∀ a s t, Q a s → R s t → Q a t)
    (hstart : ∀ p s, starts p → Learns R (fun _ _ => True) p s)
    (hpool : c.pool.AllSafe R fun _ s t => R s t) (h : Learns R Q c.reader c.pool.state)
    (hr : Reaches starts c d) : Learns R Q d.reader d.pool.state := by
  suffices hall : (d.pool.AllSafe R fun _ s t => R s t) ∧ Learns R Q d.reader d.pool.state from hall.2
  induction hr with
  | refl => exact ⟨hpool, h⟩
  | tail _ hs ih =>
    obtain ⟨hsafe, hreader⟩ := ih
    cases hs with
    | work hstep =>
      obtain ⟨hmove, hsafe'⟩ := hsafe.step hstart refl trans (fun _ _ _ _ hg => hg) hstep
      exact ⟨hsafe', hreader.rely trans stable (fun _ _ _ _ _ => trivial) hmove⟩
    | @read p p' workers s s' l hstep =>
      have hmoved : R s s' ∧ Learns R Q p' s' := by
        cases hstep with
        | look k => exact ⟨refl s, hreader s (refl s)⟩
        | act i k _ _ ha => exact (hreader s (refl s)).1 s' ha
        | fail i k _ e ha => exact ⟨refl s, (hreader s (refl s)).2 e ha⟩
      refine ⟨fun q hq => ?_, hmoved.2⟩
      exact (hsafe q hq).rely trans (fun _ _ _ _ _ => trivial) (fun _ _ _ _ _ => trivial) hmoved.1

theorem reaches_pool {p : Prog σ ι ε α} {a b : Pool σ ι ε} (h : Pool.Reaches starts a b) :
    Reaches starts ⟨p, a⟩ ⟨p, b⟩ :=
  h.lift (Watched.mk p) fun _ _ hs => .work hs

end Watched

end Effects
