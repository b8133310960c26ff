import Dpc.Lib.Safe
import Mathlib.Logic.Relation

/-! Workers that share a state. -/

namespace Effects

variable {σ ι ε α β : Type}

namespace Prog

/-- Whatever a program reads and however its effects turn out, it tries these effects only. -/
def Emits (P : ι → Prop) : Prog σ ι ε α → Prop
  | .pure _ => True
  | .throw _ => True
  | .look k => ∀ s, (k s).Emits P
  | .act i k => P i ∧ ∀ r, (k r).Emits P

variable {P : ι → Prop}

theorem Emits.bind {p : Prog σ ι ε α} {f : α → Prog σ ι ε β} (h : p.Emits P)
    (hf : ∀ a, (f a).Emits P) : (p.bind f).Emits P := by
  induction p with
  | pure a => exact hf a
  | throw e => trivial
  | look k ih => exact fun s => ih s (h s)
  | act i k ih => exact ⟨h.1, fun r => ih r (h.2 r)⟩

theorem emits_ofExcept {x : Except ε α} : (ofExcept x : Prog σ ι ε α).Emits P := by
  cases x <;> trivial

theorem emits_query {f : σ → Except ε α} : (query f : Prog σ ι ε α).Emits P :=
  fun _ => emits_ofExcept

theorem emits_perform {i : ι} (h : P i) : (perform i : Prog σ ι ε Unit).Emits P :=
  ⟨h, fun _ => emits_ofExcept⟩

theorem Emits.bind_ofExcept {x : Except ε α} {f : α → Prog σ ι ε β}
    (h : ∀ a, x = .ok a → (f a).Emits P) : ((ofExcept x).bind f).Emits P := by
  cases x with
  | ok a => exact h a rfl
  | error e => trivial

variable [Effect ι σ ε]

/-- What a program emits it guarantees, whatever the others do. -/
theorem Emits.safe {R : σ → σ → Prop} {p : Prog σ ι ε α} (h : p.Emits P) (s : σ) :
    Safe R (fun i _ _ => P i) (fun _ _ => True) (fun _ _ => True) p s := by
  induction p generalizing s with
  | pure a => trivial
  | throw e => trivial
  | look k ih => exact fun s' _ => ih s' (h s') s'
  | act i k ih => exact fun s' _ => ⟨fun t _ => ⟨h.1, ih _ (h.2 _) t⟩, fun e _ => ih _ (h.2 _) s'⟩

end Prog

/-- Workers, each at some point of its program, and the state that they share. -/
structure Pool (σ ι ε : Type) where
  workers : List (Prog σ ι ε Unit)
  state : σ

namespace Pool

variable [Effect ι σ ε]

/-- A worker starts, takes one atomic step, or stops wherever it is. -/
inductive Step (starts : Prog σ ι ε Unit → Prop) : Pool σ ι ε → Pool σ ι ε → Prop where
  | start (workers : List (Prog σ ι ε Unit)) (s : σ) (p : Prog σ ι ε Unit) (h : starts p) :
      Step starts ⟨workers, s⟩ ⟨p :: workers, s⟩
  | work (before after : List (Prog σ ι ε Unit)) (s s' : σ) (p p' : Prog σ ι ε Unit) (l : Option ι)
      (h : Prog.Step p s l p' s') :
      Step starts ⟨before ++ p :: after, s⟩ ⟨before ++ p' :: after, s'⟩
  | stop (before after : List (Prog σ ι ε Unit)) (s : σ) (p : Prog σ ι ε Unit) :
      Step starts ⟨before ++ p :: after, s⟩ ⟨before ++ after, s⟩

abbrev Reaches (starts : Prog σ ι ε Unit → Prop) : Pool σ ι ε → Pool σ ι ε → Prop :=
  Relation.ReflTransGen (Step starts)

section RelyGuarantee

variable {starts : Prog σ ι ε Unit → Prop} {R : σ → σ → Prop} {G : ι → σ → σ → Prop} {a b : Pool σ ι ε}

/-- The workers are safe where they stand. -/
def AllSafe (R : σ → σ → Prop) (G : ι → σ → σ → Prop) (a : Pool σ ι ε) : Prop :=
  ∀ p ∈ a.workers, Safe R G (fun _ _ => True) (fun _ _ => True) p a.state

theorem AllSafe.step (hstart : ∀ p s, starts p → Safe R G (fun _ _ => True) (fun _ _ => True) p s)
    (refl : ∀ s, R s s) (trans : ∀ {s t u}, R s t → R t u → R s u)
    (hG : ∀ i s t, Effect.apply i s = .ok t → G i s t → R s t) (h : AllSafe R G a)
    (hs : Step starts a b) : R a.state b.state ∧ AllSafe R G b := by
  cases hs with
  | start workers s p hp =>
    refine ⟨refl s, fun q hq => ?_⟩
    rcases List.mem_cons.mp hq with rfl | hq
    · exact hstart q s hp
    · exact h q hq
  | work before after s s' p p' l hstep =>
    have hp := h p (by simp)
    have hsafe : R s s' ∧ Safe R G (fun _ _ => True) (fun _ _ => True) p' s' := by
      cases hstep with
      | look k => exact ⟨refl s, hp s (refl s)⟩
      | act i k _ _ ha =>
        obtain ⟨hg, hk⟩ := (hp s (refl s)).1 s' ha
        exact ⟨hG i s s' ha hg, hk⟩
      | fail i k _ e ha => exact ⟨refl s, (hp s (refl s)).2 e ha⟩
    refine ⟨hsafe.1, fun q hq => ?_⟩
    -- the others did not move, but the state did
    have hother : ∀ q, q ∈ before ++ p :: after →
        Safe R G (fun _ _ => True) (fun _ _ => True) q s' := fun q hq =>
      (h q hq).rely trans (fun _ _ _ _ _ => trivial) (fun _ _ _ _ _ => trivial) hsafe.1
    rcases List.mem_append.mp hq with hq | hq
    · exact hother q (List.mem_append_left _ hq)
    · rcases List.mem_cons.mp hq with rfl | hq
      · exact hsafe.2
      · exact hother q (List.mem_append_right _ (List.mem_cons_of_mem _ hq))
  | stop before after s p =>
    refine ⟨refl s, fun q hq => h q ?_⟩
    rcases List.mem_append.mp hq with hq | hq
    · exact List.mem_append_left _ hq
    · exact List.mem_append_right _ (List.mem_cons_of_mem _ hq)

/-- If every effect that is guaranteed is a move that the others rely on, so is every run. -/
theorem Reaches.rely (hstart : ∀ p s, starts p → Safe R G (fun _ _ => True) (fun _ _ => True) p s)
    (refl : ∀ s, R s s) (trans : ∀ {s t u}, R s t → R t u → R s u)
    (hG : ∀ i s t, Effect.apply i s = .ok t → G i s t → R s t) (h : AllSafe R G a)
    (hr : Reaches starts a b) : R a.state b.state ∧ AllSafe R G b := by
  induction hr with
  | refl => exact ⟨refl _, h⟩
  | tail _ hs ih =>
    obtain ⟨hb, hsafe⟩ := ih.2.step hstart refl trans hG hs
    exact ⟨trans ih.1 hb, hsafe⟩

end RelyGuarantee

/-- A worker may run to its end with nobody in between. -/
theorem reaches_exec {starts : Prog σ ι ε Unit → Prop} (p : Prog σ ι ε Unit) (s : σ)
    (workers : List (Prog σ ι ε Unit)) :
    Reaches starts ⟨p :: workers, s⟩ ⟨workers, (p.exec s).2⟩ := by
  induction p generalizing s with
  | pure a => exact .single (.stop [] workers s _)
  | throw e => exact .single (.stop [] workers s _)
  | look k ih => exact .head (.work [] workers s s _ _ none (.look k s)) (ih s s)
  | act i k ih =>
    simp only [Prog.exec]
    cases ha : Effect.apply i s with
    | ok t => exact .head (.work [] workers s t _ _ (some i) (.act i k s t ha)) (ih _ t)
    | error e => exact .head (.work [] workers s s _ _ none (.fail i k s e ha)) (ih _ s)

end Pool

end Effects
