import Dpc.Lib.Text

namespace LexPath
open Text

def slash : UInt8 := 47
def dot : Bytes := [46]
def dotdot : Bytes := [46, 46]

/-- What stands between the slashes. -/
def pieces : Bytes → List Bytes
  | [] => [[]]
  | b :: bs =>
    if b = slash then [] :: pieces bs
    else match pieces bs with
      | [] => [[b]]
      | p :: ps => (b :: p) :: ps

def isAbsolute (s : Bytes) : Bool := s.head? == some slash

/-- The elements of a path after its root: repeated slashes count once, and a
slash at the end leaves an empty last element. -/
def elements (s : Bytes) : List Bytes :=
  let names := (pieces s).filter (· ≠ [])
  if names ≠ [] ∧ s.getLast? = some slash then names ++ [[]] else names

/-- One element of the normal form: the names kept, newest first, and whether
what was read last leaves a slash at the end. -/
def normalStep (rooted : Bool) (st : List Bytes × Bool) (c : Bytes) : List Bytes × Bool :=
  if c = [] ∨ c = dot then (st.1, true)
  else if c = dotdot then
    match st.1 with
    | [] => if rooted then ([], true) else ([dotdot], false)
    | top :: rest => if top = dotdot then (dotdot :: st.1, false) else (rest, true)
  else (c :: st.1, false)

/-- `lexically_normal`, on elements. -/
def lexicallyNormal (rooted : Bool) (es : List Bytes) : List Bytes :=
  let st := es.foldl (normalStep rooted) ([], false)
  match st.1 with
  | [] => if rooted then [] else [dot]
  | top :: rest =>
    if st.2 && top != dotdot then (top :: rest).reverse ++ [[]] else (top :: rest).reverse

/-- `lexically_relative`, on the elements of two absolute paths in canonical form. -/
def lexicallyRelative : List Bytes → List Bytes → List Bytes
  | [], [] => [dot]
  | p, [] => p
  | [], base => base.map fun _ => dotdot
  | a :: p, b :: base =>
    if a = b then lexicallyRelative p base
    else (b :: base).map (fun _ => dotdot) ++ a :: p

/-- A name that a directory entry can have. -/
structure IsName (n : Bytes) : Prop where
  ne_nil : n ≠ []
  noslash : slash ∉ n
  nonul : 0 ∉ n
  ne_dot : n ≠ dot
  ne_dotdot : n ≠ dotdot

instance (n : Bytes) : Decidable (IsName n) :=
  decidable_of_iff (n ≠ [] ∧ slash ∉ n ∧ 0 ∉ n ∧ n ≠ dot ∧ n ≠ dotdot)
    ⟨fun ⟨h1, h2, h3, h4, h5⟩ => ⟨h1, h2, h3, h4, h5⟩,
      fun h => ⟨h.ne_nil, h.noslash, h.nonul, h.ne_dot, h.ne_dotdot⟩⟩

theorem pieces_noslash {n : Bytes} (h : slash ∉ n) : pieces n = [n] := by
  induction n with
  | nil => rfl
  | cons b n ih =>
    simp only [List.mem_cons, not_or] at h
    simp [pieces, Ne.symm h.1, ih h.2]

theorem pieces_append {n rest : Bytes} (h : slash ∉ n) :
    pieces (n ++ slash :: rest) = n :: pieces rest := by
  induction n with
  | nil => simp [pieces]
  | cons b n ih =>
    simp only [List.mem_cons, not_or] at h
    simp [pieces, Ne.symm h.1, ih h.2]

theorem pieces_joinWith {ns : List Bytes} (hn : ns ≠ []) (h : ∀ n ∈ ns, slash ∉ n) :
    pieces (joinWith slash ns) = ns := by
  induction ns with
  | nil => contradiction
  | cons n ns ih =>
    cases ns with
    | nil => exact pieces_noslash (h n (by simp))
    | cons m ns =>
      rw [joinWith_cons_cons, pieces_append (h n (by simp)), ih (by simp)
        fun k hk => h k (by simp [hk])]

theorem joinWith_slash_injective {ns ms : List Bytes} (hn : ns ≠ []) (hm : ms ≠ [])
    (h : ∀ n ∈ ns, slash ∉ n) (h' : ∀ n ∈ ms, slash ∉ n)
    (he : joinWith slash ns = joinWith slash ms) : ns = ms := by
  rw [← pieces_joinWith hn h, he, pieces_joinWith hm h']

theorem getLast?_joinWith {ns : List Bytes} (hn : ns ≠ []) (h : ∀ n ∈ ns, n ≠ []) :
    (joinWith slash ns).getLast? = (ns.getLast hn).getLast? := by
  induction ns with
  | nil => contradiction
  | cons n ns ih =>
    cases ns with
    | nil => rfl
    | cons m ns =>
      have hm : joinWith slash (m :: ns) ≠ [] := by
        cases ns with
        | nil => exact h m (by simp)
        | cons k ns => simp [joinWith_cons_cons]
      have := ih (by simp) fun k hk => h k (by simp [hk])
      rw [joinWith_cons_cons, List.getLast?_append_of_ne_nil _ (by simp), List.getLast?_cons,
        List.getLast_cons (by simp), this]
      cases he : (joinWith slash (m :: ns)).getLast? with
      | none => exact absurd (List.getLast?_eq_none_iff.mp he) hm
      | some b => rw [he] at this; rw [← this]; rfl

theorem elements_joinWith {ns : List Bytes} (hn : ns ≠ []) (h : ∀ n ∈ ns, IsName n) :
    elements (joinWith slash ns) = ns := by
  have hp := pieces_joinWith hn fun n hm => (h n hm).noslash
  have hf : ns.filter (· ≠ []) = ns :=
    List.filter_eq_self.mpr fun n hm => by simp [(h n hm).ne_nil]
  have hl : (joinWith slash ns).getLast? ≠ some slash := by
    rw [getLast?_joinWith hn fun n hm => (h n hm).ne_nil]
    intro he
    exact (h _ (List.getLast_mem hn)).noslash (List.mem_of_getLast? he)
  simp only [elements, hp, hf, hl, and_false, if_false]

theorem isAbsolute_joinWith {ns : List Bytes} (hn : ns ≠ []) (h : ∀ n ∈ ns, IsName n) :
    isAbsolute (joinWith slash ns) = false := by
  obtain ⟨n, ms, rfl⟩ := List.exists_cons_of_ne_nil hn
  have hname := h n (by simp)
  obtain ⟨b, bs, rfl⟩ := List.exists_cons_of_ne_nil hname.ne_nil
  have hb : b ≠ slash := by
    rintro rfl
    exact hname.noslash (by simp)
  cases ms <;> simp [isAbsolute, joinWith, hb]

theorem foldl_normalStep {ns : List Bytes} (acc : List Bytes) (t : Bool) (h : ∀ n ∈ ns, IsName n) :
    (ns.foldl (normalStep false) (acc, t)).1 = ns.reverse ++ acc ∧
      (ns ≠ [] → (ns.foldl (normalStep false) (acc, t)).2 = false) := by
  induction ns generalizing acc t with
  | nil => simp
  | cons n ns ih =>
    have hn := h n (by simp)
    have hs : normalStep false (acc, t) n = (n :: acc, false) := by
      simp [normalStep, hn.ne_nil, hn.ne_dot, hn.ne_dotdot]
    obtain ⟨h1, h2⟩ := ih (n :: acc) false fun m hm => h m (by simp [hm])
    simp only [List.foldl_cons, hs]
    refine ⟨by rw [h1]; simp, fun _ => ?_⟩
    cases ns with
    | nil => rfl
    | cons m ns => exact h2 (by simp)

/-- A path of proper names is its own normal form. -/
theorem lexicallyNormal_names {ns : List Bytes} (hn : ns ≠ []) (h : ∀ n ∈ ns, IsName n) :
    lexicallyNormal false ns = ns := by
  obtain ⟨h1, h2⟩ := foldl_normalStep [] false h
  simp only [List.append_nil] at h1
  unfold lexicallyNormal
  simp only [h1, h2 hn, Bool.false_and, Bool.false_eq_true, if_false]
  split
  · rename_i he
    exact absurd (List.reverse_eq_nil_iff.mp he) hn
  · rename_i top rest he
    rw [← he, List.reverse_reverse]

theorem mem_pieces {n s : Bytes} (h : n ∈ pieces s) : slash ∉ n ∧ ∀ b ∈ n, b ∈ s := by
  induction s generalizing n with
  | nil =>
    rw [pieces, List.mem_singleton] at h
    simp [h]
  | cons b bs ih =>
    have htail : ∀ m ∈ pieces bs, slash ∉ m ∧ ∀ c ∈ m, c ∈ b :: bs :=
      fun m hm => ⟨(ih hm).1, fun c hc => List.mem_cons_of_mem _ ((ih hm).2 c hc)⟩
    rw [pieces] at h
    split at h
    · rcases List.mem_cons.mp h with rfl | h
      · simp
      · exact htail n h
    · rename_i hb
      split at h
      · rw [List.mem_singleton] at h
        simp [h, Ne.symm hb]
      · rename_i p ps hp
        rw [hp] at htail
        rcases List.mem_cons.mp h with rfl | h
        · obtain ⟨h1, h2⟩ := htail p List.mem_cons_self
          refine ⟨fun hm => ?_, fun c hc => ?_⟩
          · rcases List.mem_cons.mp hm with he | hm
            · exact hb he.symm
            · exact h1 hm
          · rcases List.mem_cons.mp hc with rfl | hc
            · exact List.mem_cons_self
            · exact h2 c hc
        · exact htail n (List.mem_cons_of_mem _ h)

theorem mem_elements {n s : Bytes} (h : n ∈ elements s) : slash ∉ n ∧ ∀ b ∈ n, b ∈ s := by
  have hnames : ∀ m ∈ (pieces s).filter (· ≠ []), slash ∉ m ∧ ∀ b ∈ m, b ∈ s :=
    fun m hm => mem_pieces (List.mem_of_mem_filter hm)
  unfold elements at h
  dsimp only at h
  split at h
  · rcases List.mem_append.mp h with h | h
    · exact hnames n h
    · rw [List.mem_singleton] at h
      simp [h]
  · exact hnames n h

theorem mem_normalStep {rooted : Bool} {st : List Bytes × Bool} {c n : Bytes}
    (h : n ∈ (normalStep rooted st c).1) : n ∈ st.1 ∨ n = c ∨ n = dotdot := by
  unfold normalStep at h
  split at h
  · exact .inl h
  split at h
  · split at h
    · split at h
      · contradiction
      · exact .inr (.inr (List.mem_singleton.mp h))
    · rename_i top rest hst
      split at h
      · rcases List.mem_cons.mp h with h | h
        · exact .inr (.inr h)
        · exact .inl h
      · exact .inl (hst ▸ List.mem_cons_of_mem _ h)
  · rcases List.mem_cons.mp h with h | h
    · exact .inr (.inl h)
    · exact .inl h

theorem mem_foldl_normalStep {rooted : Bool} {es : List Bytes} {st : List Bytes × Bool} {n : Bytes}
    (h : n ∈ (es.foldl (normalStep rooted) st).1) : n ∈ st.1 ∨ n ∈ es ∨ n = dotdot := by
  induction es generalizing st with
  | nil => exact .inl h
  | cons c es ih =>
    rw [List.foldl_cons] at h
    rcases ih h with h | h | h
    · rcases mem_normalStep h with h | h | h
      · exact .inl h
      · exact .inr (.inl (h ▸ List.mem_cons_self))
      · exact .inr (.inr h)
    · exact .inr (.inl (List.mem_cons_of_mem _ h))
    · exact .inr (.inr h)

/-- The normal form makes up no names. -/
theorem mem_lexicallyNormal {rooted : Bool} {es : List Bytes} {n : Bytes}
    (h : n ∈ lexicallyNormal rooted es) : n ∈ es ∨ n = [] ∨ n = dot ∨ n = dotdot := by
  have hst : ∀ m ∈ (es.foldl (normalStep rooted) ([], false)).1, m ∈ es ∨ m = dotdot := by
    intro m hm
    rcases mem_foldl_normalStep hm with hm | hm
    · contradiction
    · exact hm
  unfold lexicallyNormal at h
  dsimp only at h
  split at h
  · split at h
    · contradiction
    · exact .inr (.inr (.inl (List.mem_singleton.mp h)))
  · rename_i top rest he
    rw [he] at hst
    have hrev : ∀ m ∈ (top :: rest).reverse, m ∈ es ∨ m = dotdot :=
      fun m hm => hst m (List.mem_reverse.mp hm)
    have hmem : n ∈ (top :: rest).reverse ∨ n = [] := by
      split at h
      · rcases List.mem_append.mp h with h | h
        · exact .inl h
        · exact .inr (List.mem_singleton.mp h)
      · exact .inl h
    rcases hmem with h | h
    · rcases hrev n h with h | h
      · exact .inl h
      · exact .inr (.inr (.inr h))
    · exact .inr (.inl h)

theorem elements_up (ups : List Bytes) :
    ∃ ns, elements (joinWith slash (dotdot :: ups)) = dotdot :: ns := by
  have hup : slash ∉ dotdot := by decide
  have hp : ∃ ns, pieces (joinWith slash (dotdot :: ups)) = dotdot :: ns := by
    cases ups with
    | nil => exact ⟨[], pieces_noslash hup⟩
    | cons n ns => exact ⟨_, by rw [joinWith_cons_cons, pieces_append hup]⟩
  obtain ⟨ns, hp⟩ := hp
  have hne : dotdot ≠ [] := by decide
  simp only [elements, hp, List.filter_cons, hne, ne_eq, not_false_eq_true, decide_true, if_true]
  split
  · exact ⟨_, rfl⟩
  · exact ⟨_, rfl⟩

/-- Once a path has gone up, nothing takes that back. -/
theorem normalStep_up {acc : List Bytes} {b : Bool} (c : Bytes) :
    ∃ acc', (normalStep false (acc ++ [dotdot], b) c).1 = acc' ++ [dotdot] := by
  unfold normalStep
  split
  · exact ⟨acc, rfl⟩
  split
  · cases acc with
    | nil => exact ⟨[dotdot], rfl⟩
    | cons top acc =>
      simp only [List.cons_append]
      split
      · exact ⟨dotdot :: top :: acc, rfl⟩
      · exact ⟨acc, rfl⟩
  · exact ⟨c :: acc, rfl⟩

theorem foldl_normalStep_up {acc : List Bytes} {b : Bool} (cs : List Bytes) :
    ∃ acc', (cs.foldl (normalStep false) (acc ++ [dotdot], b)).1 = acc' ++ [dotdot] := by
  induction cs generalizing acc b with
  | nil => exact ⟨acc, rfl⟩
  | cons c cs ih =>
    rw [List.foldl_cons]
    obtain ⟨acc', h⟩ : ∃ acc', (normalStep false (acc ++ [dotdot], b) c).1 = acc' ++ [dotdot] :=
      normalStep_up c
    generalize normalStep false (acc ++ [dotdot], b) c = st at h
    obtain ⟨top, b'⟩ := st
    cases h
    exact ih

/-- A path that begins by going up still does so in its normal form. -/
theorem dotdot_mem_lexicallyNormal (ns : List Bytes) :
    dotdot ∈ lexicallyNormal false (dotdot :: ns) := by
  have hfirst : normalStep false ([], false) dotdot = ([] ++ [dotdot], false) := by decide
  obtain ⟨acc, h⟩ : ∃ acc, (ns.foldl (normalStep false) ([] ++ [dotdot], false)).1 =
      acc ++ [dotdot] := foldl_normalStep_up ns
  unfold lexicallyNormal
  rw [List.foldl_cons, hfirst]
  dsimp only
  rw [h]
  cases acc with
  | nil => simp [dotdot]
  | cons top acc =>
    simp only [List.cons_append]
    split
    · simp
    · simp

/-- Below the base, the relative path is what follows the base. -/
theorem lexicallyRelative_below {base rest : List Bytes} (hr : rest ≠ []) :
    lexicallyRelative (base ++ rest) base = rest := by
  induction base with
  | nil =>
    obtain ⟨a, p, rfl⟩ := List.exists_cons_of_ne_nil hr
    rfl
  | cons b base ih => simp [lexicallyRelative, ih]

/-- Outside the base, the relative path starts by leaving it. -/
theorem lexicallyRelative_outside {p base : List Bytes} (h : ¬base <+: p) :
    ∃ rest, lexicallyRelative p base = dotdot :: rest := by
  induction base generalizing p with
  | nil => simp at h
  | cons b base ih =>
    cases p with
    | nil => exact ⟨_, rfl⟩
    | cons a p =>
      by_cases he : a = b
      · subst he
        simp only [lexicallyRelative, if_true]
        exact ih fun hp => h (List.cons_prefix_cons.mpr ⟨rfl, hp⟩)
      · exact ⟨base.map (fun _ => dotdot) ++ a :: p, by simp [lexicallyRelative, he]⟩

end LexPath
