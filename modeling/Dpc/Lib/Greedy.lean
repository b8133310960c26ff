import Mathlib.Data.List.Infix

/-! Cutting a word into pieces, each as short as it may be. -/

namespace Greedy

variable {α : Type} {cut : List α → Prop} {data rest e u v w : List α} {us vs ws : List (List α)}

/-- Nothing may be cut off from the front. -/
def Whole (cut : List α → Prop) (w : List α) : Prop := ∀ v, v <+: w → v ≠ [] → ¬cut v

/-- A word that may be cut off, and no shorter one at its front may. -/
structure Closes (cut : List α → Prop) (w : List α) : Prop where
  ne : w ≠ []
  here : cut w
  first : ∀ v, v <+: w → v ≠ [] → cut v → v = w

/-- The pieces of a word: each is closed, but the last need not be. -/
inductive Cuts (cut : List α → Prop) : List α → List (List α) → Prop where
  | nil : Cuts cut [] []
  | tail {w : List α} (ne : w ≠ []) (h : Whole cut w) : Cuts cut w [w]
  | cons {w rest : List α} {ws : List (List α)} (h : Closes cut w) (hr : Cuts cut rest ws) :
      Cuts cut (w ++ rest) (w :: ws)

theorem Whole.closes_snoc {x : α} (h : Whole cut w) (hx : cut (w ++ [x])) : Closes cut (w ++ [x]) where
  ne := by simp
  here := hx
  first v hv hne hc := by
    rcases List.prefix_concat_iff.mp hv with he | hv
    · exact he
    · exact absurd hc (h v hv hne)

theorem Whole.snoc {x : α} (h : Whole cut w) (hx : ¬cut (w ++ [x])) : Whole cut (w ++ [x]) := by
  intro v hv hne hc
  rcases List.prefix_concat_iff.mp hv with he | hv
  · exact hx (he ▸ hc)
  · exact h v hv hne hc

/-- Of two closed words at the front of a third one, neither is shorter. -/
theorem Closes.unique (hu : Closes cut u) (hv : Closes cut v) (h : u ++ e = v ++ rest) : u = v := by
  rcases List.prefix_or_prefix_of_prefix (List.prefix_append u e) (h ▸ List.prefix_append v rest) with
    hp | hp
  · exact hv.first u hp hu.ne hu.here
  · exact (hu.first v hp hv.ne hv.here).symm

/-- A closed word at the front is the first piece. -/
theorem Cuts.of_closes (hw : Closes cut w) (h : Cuts cut data vs) (he : data = w ++ rest) :
    ∃ us, vs = w :: us ∧ Cuts cut rest us := by
  cases h with
  | nil => exact absurd (List.append_eq_nil_iff.mp he.symm).1 hw.ne
  | tail ne hwhole =>
    subst he
    exact absurd hw.here (hwhole w (List.prefix_append w rest) hw.ne)
  | cons hv hr =>
    have hvw := hv.unique hw he
    subst hvw
    cases List.append_cancel_left he
    exact ⟨_, rfl, hr⟩

theorem Cuts.flatten_eq (h : Cuts cut data ws) : ws.flatten = data := by
  induction h with
  | nil => rfl
  | tail => simp
  | cons _ _ ih => rw [List.flatten_cons, ih]

theorem Cuts.ne_nil (h : Cuts cut data ws) : ∀ w ∈ ws, w ≠ [] := by
  induction h with
  | nil => simp
  | tail ne => simpa using ne
  | cons hw _ ih =>
    intro v hv
    rcases List.mem_cons.mp hv with rfl | hv
    · exact hw.ne
    · exact ih v hv

/-- There is one way to cut a word. -/
theorem Cuts.unique (h : Cuts cut data ws) (h' : Cuts cut data vs) : ws = vs := by
  induction h generalizing vs with
  | nil =>
    have hflat := h'.flatten_eq
    cases vs with
    | nil => rfl
    | cons v vs => exact absurd (List.append_eq_nil_iff.mp hflat).1 (h'.ne_nil v List.mem_cons_self)
  | tail ne hw =>
    cases h' with
    | nil => contradiction
    | tail => rfl
    | cons hv hr => exact absurd hv.here (hw _ (List.prefix_append _ _) hv.ne)
  | cons hw _ ih =>
    obtain ⟨us, rfl, hus⟩ := h'.of_closes hw rfl
    rw [ih hus]

/-- Every piece but the last is closed. -/
theorem Cuts.closes (h : Cuts cut data ws) : ∀ w ∈ ws.dropLast, Closes cut w := by
  induction h with
  | nil => simp
  | tail => simp
  | @cons w rest ws hw hr ih =>
    cases ws with
    | nil => simp
    | cons v vs =>
      intro u hu
      rcases List.mem_cons.mp hu with rfl | hu
      · exact hw
      · exact ih u hu

/-- The last piece is closed, or nothing could be cut off from it. -/
theorem Cuts.last (h : Cuts cut data ws) : ∀ w ∈ ws.getLast?, Closes cut w ∨ Whole cut w := by
  induction h with
  | nil => simp
  | tail _ hw =>
    intro v hv
    cases hv
    exact .inr hw
  | @cons w rest ws hw hr ih =>
    cases ws with
    | nil =>
      intro v hv
      cases hv
      exact .inl hw
    | cons v vs =>
      intro u hu
      rw [List.getLast?_cons_cons] at hu
      exact ih u hu

/-- What follows some pieces is cut as if it stood alone. -/
theorem Cuts.suffix (h : Cuts cut data (us ++ vs)) : Cuts cut vs.flatten vs := by
  induction us generalizing data with
  | nil => exact h.flatten_eq ▸ h
  | cons u us ih =>
    generalize hall : u :: us ++ vs = ws at h
    cases h with
    | nil => contradiction
    | tail =>
      obtain ⟨_, hnil⟩ := List.cons.inj hall
      rw [(List.append_eq_nil_iff.mp hnil).2]
      exact .nil
    | cons _ hr =>
      obtain ⟨_, he⟩ := List.cons.inj hall
      subst he
      exact ih hr

theorem Cuts.strip (hus : ∀ u ∈ us, Closes cut u) (h : Cuts cut (us.flatten ++ e) vs) : us <+: vs := by
  induction us generalizing vs with
  | nil => exact List.nil_prefix
  | cons u us ih =>
    rw [List.flatten_cons, List.append_assoc] at h
    obtain ⟨vs, rfl, hr⟩ := h.of_closes (hus u List.mem_cons_self) rfl
    exact List.cons_prefix_cons.mpr ⟨rfl, ih (fun w hw => hus w (List.mem_cons_of_mem _ hw)) hr⟩

/-- More data leaves all pieces as they are, but the last. -/
theorem Cuts.append (h : Cuts cut data ws) (h' : Cuts cut (data ++ e) vs) : ws.dropLast <+: vs := by
  rcases List.eq_nil_or_concat ws with rfl | ⟨us, w, rfl⟩
  · exact List.nil_prefix
  · have hclosed := h.closes
    rw [List.concat_eq_append, List.dropLast_concat] at hclosed ⊢
    have hflat := h.flatten_eq
    rw [List.concat_eq_append, List.flatten_append, List.flatten_singleton] at hflat
    rw [← hflat, List.append_assoc] at h'
    exact h'.strip hclosed

theorem Cuts.closes_or_whole (h : Cuts cut data ws) : ∀ w ∈ ws, Closes cut w ∨ Whole cut w := by
  induction h with
  | nil => simp
  | tail _ hw =>
    intro v hv
    rw [List.mem_singleton.mp hv]
    exact .inr hw
  | cons hw _ ih =>
    intro v hv
    rcases List.mem_cons.mp hv with rfl | hv
    · exact .inl hw
    · exact ih v hv

/-- Where every closed word has a length, a word has no more pieces than fit into it. -/
theorem Cuts.count_le {least : Nat} (hleast : ∀ w, Closes cut w → least ≤ w.length)
    (h : Cuts cut data ws) : least * (ws.length - 1) ≤ data.length := by
  induction h with
  | nil => exact Nat.zero_le _
  | tail _ _ => exact Nat.zero_le _
  | @cons w rest ws hw _ ih =>
    have hlen := hleast w hw
    cases ws with
    | nil => exact Nat.zero_le _
    | cons v vs =>
      simp only [List.length_cons, Nat.add_sub_cancel, List.length_append, Nat.mul_succ] at ih ⊢
      omega

/-- What is appended goes with the last piece into new ones. -/
theorem Cuts.grown {least most : Nat} (hleast : ∀ w, Closes cut w → least ≤ w.length)
    (hmost : ∀ w ∈ ws, w.length ≤ most) (h : Cuts cut data ws) (h' : Cuts cut (data ++ e) vs) :
    ∃ us, vs = ws.dropLast ++ us ∧ least * (us.length - 1) ≤ most + e.length := by
  obtain ⟨us, rfl⟩ := h.append h'
  refine ⟨us, rfl, (h'.suffix.count_le hleast).trans ?_⟩
  have hflat := h'.flatten_eq
  rcases List.eq_nil_or_concat ws with rfl | ⟨front, w, rfl⟩
  · have hdata := h.flatten_eq
    rw [List.dropLast_nil, List.nil_append, ← hdata, List.flatten_nil, List.nil_append] at hflat
    rw [hflat]
    exact Nat.le_add_left _ _
  · have hlast := hmost w (by simp)
    have hdata := h.flatten_eq
    rw [List.concat_eq_append, List.flatten_append, List.flatten_singleton] at hdata
    rw [List.concat_eq_append, List.dropLast_concat, List.flatten_append, ← hdata,
      List.append_assoc, List.append_cancel_left_eq] at hflat
    rw [hflat, List.length_append]
    exact Nat.add_le_add_right hlast _

end Greedy
