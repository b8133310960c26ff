import Dpc.Lib.Lists
import Mathlib.Data.List.Flatten
import Mathlib.Data.List.Pairwise

/-! Lists that are put together of groups. -/

namespace List

section Keys

variable {α κ : Type} [BEq κ] [LawfulBEq κ] {key : α → κ} {groups : List (List α)} {g : List α}

/-- Where each group has a key of its own, a key finds its group. -/
theorem filter_flatten_key {k : κ} (hg : g ∈ groups) (hk : ∀ a ∈ g, key a = k)
    (hne : g ≠ []) (hin : ∀ h ∈ groups, ∀ a ∈ h, ∀ b ∈ h, key a = key b)
    (hapart : groups.Pairwise fun g h => ∀ a ∈ g, ∀ b ∈ h, key a ≠ key b) :
    groups.flatten.filter (key · == k) = g := by
  obtain ⟨x, hx⟩ := exists_mem_of_ne_nil g hne
  have hall : g.filter (key · == k) = g := filter_eq_self.mpr fun a ha => by rw [hk a ha]; simp
  induction groups with
  | nil => contradiction
  | cons h groups ih =>
    obtain ⟨hhead, htail⟩ := pairwise_cons.mp hapart
    rw [flatten_cons, filter_append]
    rcases mem_cons.mp hg with rfl | hg
    · have hrest : groups.flatten.filter (key · == k) = [] := by
        refine filter_eq_nil_iff.mpr fun b hb he => ?_
        obtain ⟨h, hh, hb⟩ := mem_flatten.mp hb
        exact hhead h hh x hx b hb ((hk x hx).trans (eq_of_beq he).symm)
      rw [hall, hrest, append_nil]
    · have hfirst : h.filter (key · == k) = [] := by
        refine filter_eq_nil_iff.mpr fun b hb he => ?_
        exact hhead g hg b hb x hx ((eq_of_beq he).trans (hk x hx).symm)
      rw [hfirst, nil_append]
      exact ih hg (fun h hh => hin h (mem_cons_of_mem _ hh)) htail

end Keys

variable {α β γ : Type} {R : α → β → Prop} {S : β → γ → Prop} {as : List α} {bs : List β}
  {cs : List γ}

theorem Forall₂.comp (h : Forall₂ R as bs) (h' : Forall₂ S bs cs) :
    Forall₂ (fun a c => ∃ b, R a b ∧ S b c) as cs := by
  induction h generalizing cs with
  | nil =>
    cases h'
    exact .nil
  | cons hr _ ih =>
    cases h' with
    | cons hs h' => exact .cons ⟨_, hr, hs⟩ (ih h')

/-- What stands beside groups comes in groups itself. -/
theorem Forall₂.of_flatten {groups : List (List α)} (h : Forall₂ R groups.flatten bs) :
    ∃ others, bs = others.flatten ∧ Forall₂ (Forall₂ R) groups others := by
  induction groups generalizing bs with
  | nil =>
    cases h
    exact ⟨[], rfl, .nil⟩
  | cons g groups ih =>
    rw [flatten_cons] at h
    have hfirst := forall₂_take_append _ _ _ h.flip
    have hrest := forall₂_drop_append _ _ _ h.flip
    obtain ⟨others, hothers, hall⟩ := ih hrest.flip
    refine ⟨bs.take g.length :: others, ?_, .cons hfirst.flip hall⟩
    rw [flatten_cons, ← hothers, take_append_drop]

/-- Two lists beside one that determines them. -/
theorem Forall₂.unique {T : α → β → Prop} {ds : List β} (h : Forall₂ R as bs) (h' : Forall₂ T as ds)
    (hf : ∀ a b d, a ∈ as → R a b → T a d → b = d) : bs = ds := by
  induction h generalizing ds with
  | nil =>
    cases h'
    rfl
  | cons hr _ ih =>
    cases h' with
    | cons ht h' =>
      rw [hf _ _ _ mem_cons_self hr ht, ih h' fun a b d ha => hf a b d (mem_cons_of_mem _ ha)]

theorem Forall₂.pairwise {P : α → α → Prop} {Q : β → β → Prop} (h : Forall₂ R as bs)
    (hp : as.Pairwise P) (hq : ∀ {a a' b b'}, R a b → R a' b' → P a a' → Q b b') :
    bs.Pairwise Q := by
  induction h with
  | nil => exact .nil
  | cons hr hrest ih =>
    obtain ⟨hfirst, hp⟩ := pairwise_cons.mp hp
    refine .cons (fun b' hb' => ?_) (ih hp)
    obtain ⟨a', ha', hr'⟩ := hrest.exists_left hb'
    exact hq hr hr' (hfirst a' ha')

end List
