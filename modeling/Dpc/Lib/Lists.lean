import Mathlib.Data.List.Forall2

namespace List.Forall₂

variable {α β : Type} {R S : α → β → Prop} {as : List α} {bs : List β}

theorem exists_right (h : List.Forall₂ R as bs) {a : α} (ha : a ∈ as) : ∃ b ∈ bs, R a b := by
  induction h with
  | nil => contradiction
  | cons hr _ ih =>
    rcases List.mem_cons.mp ha with rfl | ha
    · exact ⟨_, by simp, hr⟩
    · obtain ⟨b, hb, hrb⟩ := ih ha
      exact ⟨b, by simp [hb], hrb⟩

theorem exists_left (h : List.Forall₂ R as bs) {b : β} (hb : b ∈ bs) : ∃ a ∈ as, R a b := by
  induction h with
  | nil => contradiction
  | cons hr _ ih =>
    rcases List.mem_cons.mp hb with rfl | hb
    · exact ⟨_, by simp, hr⟩
    · obtain ⟨a, ha, hra⟩ := ih hb
      exact ⟨a, by simp [ha], hra⟩

/-- A step that may use where the two come from. -/
theorem imp_mem (h : List.Forall₂ R as bs) (hs : ∀ a ∈ as, ∀ b ∈ bs, R a b → S a b) :
    List.Forall₂ S as bs := by
  induction h with
  | nil => exact .nil
  | cons hr _ ih =>
    refine .cons (hs _ (by simp) _ (by simp) hr) (ih fun a ha b hb => hs a ?_ b ?_)
    · simp [ha]
    · simp [hb]

end List.Forall₂

namespace List

variable {α β : Type}

/-- A prefix of some lines ends after a line, or within one. -/
theorem prefix_flatMap {f : α → List β} {as : List α} {cut : List β} (h : cut <+: as.flatMap f) :
    (∃ k, cut = (as.take k).flatMap f) ∨
      ∃ xs a ys q more, as = xs ++ a :: ys ∧ q ++ more = f a ∧ q ≠ [] ∧ more ≠ [] ∧
        cut = xs.flatMap f ++ q := by
  induction as generalizing cut with
  | nil =>
    rw [flatMap_nil, prefix_nil] at h
    exact .inl ⟨0, by rw [h, take_nil, flatMap_nil]⟩
  | cons a as ih =>
    by_cases hempty : cut = []
    · exact .inl ⟨0, hempty⟩
    obtain ⟨after, hafter⟩ := h
    rw [flatMap_cons] at hafter
    rcases append_eq_append_iff.mp hafter with ⟨more, hmore, _⟩ | ⟨q, hq, hrest⟩
    · by_cases hm : more = []
      · refine .inl ⟨1, ?_⟩
        rw [hm, append_nil] at hmore
        simp [hmore]
      · exact .inr ⟨[], a, as, cut, more, rfl, hmore.symm, hempty, hm, rfl⟩
    · rcases ih ⟨after, hrest.symm⟩ with ⟨k, hk⟩ | ⟨xs, b, ys, q', more, has, hb, hne, hm, hcut⟩
      · exact .inl ⟨k + 1, by rw [take_succ_cons, flatMap_cons, ← hk, hq]⟩
      · refine .inr ⟨a :: xs, b, ys, q', more, by rw [has, cons_append], hb, hne, hm, ?_⟩
        rw [flatMap_cons, append_assoc, ← hcut, hq]

section Keys

variable {κ : Type} [BEq κ] [LawfulBEq κ] (f : α → κ) {ks : List κ}

/-- The elements of a list by key, one key after another. -/
theorem flatMap_filter_perm (hk : ks.Nodup) (l : List α) :
    (ks.flatMap fun k => l.filter (f · == k)).Perm (l.filter fun a => ks.contains (f a)) := by
  induction ks with
  | nil => simp
  | cons k ks ih =>
    obtain ⟨hnew, hnodup⟩ := nodup_cons.mp hk
    have hall := filter_append_perm (f · == k) (l.filter fun a => (k :: ks).contains (f a))
    have hhere : (l.filter fun a => (k :: ks).contains (f a)).filter (f · == k) =
        l.filter (f · == k) := by
      rw [filter_filter]
      apply filter_congr
      intro a _
      by_cases ha : f a = k
      · simp [ha]
      · simp [ha]
    have hthere : (l.filter fun a => (k :: ks).contains (f a)).filter (fun a => !(f a == k)) =
        l.filter fun a => ks.contains (f a) := by
      rw [filter_filter]
      apply filter_congr
      intro a _
      by_cases ha : f a = k
      · simp [ha, hnew]
      · simp [ha]
    rw [hhere, hthere] at hall
    rw [flatMap_cons]
    exact ((ih hnodup).append_left _).trans hall

theorem flatMap_filter_perm_self (hk : ks.Nodup) {l : List α} (hl : ∀ a ∈ l, f a ∈ ks) :
    (ks.flatMap fun k => l.filter (f · == k)).Perm l := by
  have hperm := flatMap_filter_perm f hk l
  have hall : (l.filter fun a => ks.contains (f a)) = l := by
    apply filter_eq_self.mpr
    intro a ha
    exact contains_iff_mem.mpr (hl a ha)
  rwa [hall] at hperm

end Keys

end List
