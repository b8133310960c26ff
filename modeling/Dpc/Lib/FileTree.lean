import Mathlib.Algebra.Group.Nat.Defs
import Mathlib.Data.List.AList
import Mathlib.Data.List.Induction

namespace FileTree

abbrev Name := List UInt8
abbrev Path := List Name

inductive Node (κ : Type) where
  | dir
  | leaf (x : κ)
  deriving DecidableEq, Repr

instance {κ : Type} (o : Option (Node κ)) : Decidable (o = some .dir) :=
  match o with
  | some .dir => isTrue rfl
  | some (.leaf _) => isFalse nofun
  | none => isFalse nofun

inductive Fault where
  | notFound
  | isDirectory
  | nameTooLong
  deriving DecidableEq, Repr

def rawGet {κ : Type} (nodes : AList (fun _ : Path => Node κ)) (p : Path) : Option (Node κ) :=
  if p = [] then some .dir else nodes.lookup p

/-- The names that a file system takes, none longer than its limit if it has one. The name of a
temporary file is the name of its file and so many characters more. -/
structure NameMax where
  limit : Option Nat
  temp : Nat
  deriving DecidableEq, Repr

/-- A name the file system refuses. -/
def badName (nameMax : NameMax) (n : Name) : Bool :=
  n.isEmpty || nameMax.limit.any (· < n.length)

/-- A name that leaves no room for the name of a temporary file. -/
def crowded (nameMax : NameMax) (n : Name) : Bool := nameMax.limit.any (· < n.length + nameMax.temp)

/-- A name that leaves room is taken. -/
theorem badName_of_room {nameMax : NameMax} {n : Name} (h : crowded nameMax n = false) (hn : n ≠ []) :
    badName nameMax n = false := by
  simp only [crowded, badName, Bool.or_eq_false_iff, List.isEmpty_eq_false_iff,
    Option.any_eq_false] at h ⊢
  refine ⟨hn, fun k hk => ?_⟩
  have := h k hk
  simp at this ⊢
  omega

/-- The names on the way to a file are taken, and its own leaves room. -/
def Roomy (nameMax : NameMax) (p : Path) : Prop :=
  (∀ n ∈ p.dropLast, badName nameMax n = false) ∧ crowded nameMax (p.getLast?.getD []) = false

/-- Where a name is taken, so is every shorter one that is not empty. -/
theorem badName_of_shorter {nameMax : NameMax} {a b : Name} (h : badName nameMax a = false)
    (hb : b ≠ []) (hlen : b.length ≤ a.length) : badName nameMax b = false := by
  simp only [badName, Bool.or_eq_false_iff, List.isEmpty_eq_false_iff, Option.any_eq_false] at h ⊢
  refine ⟨hb, fun n hn => ?_⟩
  have := h.2 n hn
  simp at this ⊢
  omega

/-- A directory tree seen from its root, which always exists. Whatever exists
lies in a directory, under a name the file system takes. -/
structure Tree (κ : Type) where
  nameMax : NameMax
  nodes : AList (fun _ : Path => Node κ)
  closed : ∀ p, p ≠ [] → nodes.lookup p ≠ none → rawGet nodes p.dropLast = some .dir
  fits : ∀ p, nodes.lookup p ≠ none → ∀ n ∈ p.getLast?, badName nameMax n = false

namespace Tree

variable {κ : Type}

def empty (nameMax : NameMax) : Tree κ where
  nameMax := nameMax
  nodes := ∅
  closed := by simp
  fits := by simp

/-- The tree of some nodes, each of which finds its directory among them. -/
def ofNodes (nameMax : NameMax) (nodes : AList (fun _ : Path => Node κ))
    (h : ∀ p ∈ nodes.keys, p ≠ [] ∧ rawGet nodes p.dropLast = some .dir ∧
      ∀ n ∈ p.getLast?, badName nameMax n = false) : Tree κ where
  nameMax := nameMax
  nodes := nodes
  closed p _ hp := (h p (AList.mem_keys.mp (AList.lookup_isSome.mp
    (Option.isSome_iff_ne_none.mpr hp)))).2.1
  fits p hp := (h p (AList.mem_keys.mp (AList.lookup_isSome.mp
    (Option.isSome_iff_ne_none.mpr hp)))).2.2

def get? (t : Tree κ) (p : Path) : Option (Node κ) := rawGet t.nodes p

def leaf? (t : Tree κ) (p : Path) : Option κ :=
  match t.get? p with
  | some (.leaf x) => some x
  | _ => none

@[simp] theorem get?_root (t : Tree κ) : t.get? [] = some .dir := rfl

theorem leaf?_eq_some {t : Tree κ} {p : Path} {x : κ} :
    t.leaf? p = some x ↔ t.get? p = some (.leaf x) := by
  unfold leaf?
  split <;> simp_all

theorem leaf?_eq_none_of_dir {t : Tree κ} {p : Path} (h : t.get? p = some .dir) :
    t.leaf? p = none := by
  simp [leaf?, h]

theorem leaf?_eq_none_of_none {t : Tree κ} {p : Path} (h : t.get? p = none) :
    t.leaf? p = none := by
  simp [leaf?, h]

theorem lookup_of_get? {t : Tree κ} {p : Path} (hp : p ≠ []) : t.nodes.lookup p = t.get? p := by
  simp [get?, rawGet, hp]

theorem parent_dir (t : Tree κ) {p : Path} (hp : p ≠ []) (h : t.get? p ≠ none) :
    t.get? p.dropLast = some .dir :=
  t.closed p hp (by rwa [lookup_of_get? hp])

theorem name_fits (t : Tree κ) {p : Path} {n : Name} (h : t.get? (p ++ [n]) ≠ none) :
    badName t.nameMax n = false :=
  t.fits (p ++ [n]) (by rwa [lookup_of_get? (by simp)]) n (by simp)

/-- Put a node at a path: its parent must be a directory, and no directory is replaced. -/
def place (t : Tree κ) (p : Path) (x : Node κ) : Except Fault (Tree κ) :=
  if hp : p = [] then .error .isDirectory
  else if hd : rawGet t.nodes p.dropLast ≠ some .dir then .error .notFound
  else if hn : badName t.nameMax (p.getLast hp) = true then .error .nameTooLong
  else if hx : t.nodes.lookup p = some .dir then .error .isDirectory
  else .ok {
    nameMax := t.nameMax
    nodes := t.nodes.insert p x
    closed := by
      intro q hq hl
      have hlen : ∀ r : Path, r ≠ [] → r.dropLast ≠ r := by
        intro r hr he
        have := congrArg List.length he
        have := List.length_pos_iff.mpr hr
        simp at *
        omega
      have hold : rawGet t.nodes q.dropLast = some .dir := by
        by_cases he : q = p
        · subst he; exact not_not.mp hd
        · rw [AList.lookup_insert_ne he] at hl
          exact t.closed q hq hl
      by_cases hpar : q.dropLast = p
      · rw [hpar] at hold
        simp only [rawGet, hp, if_false] at hold
        exact absurd hold hx
      · unfold rawGet at hold ⊢
        rwa [AList.lookup_insert_ne hpar]
    fits := by
      intro q hl n hm
      by_cases he : q = p
      · subst he
        rw [List.getLast?_eq_some_getLast hp, Option.mem_some_iff] at hm
        subst hm
        simpa using hn
      · rw [AList.lookup_insert_ne he] at hl
        exact t.fits q hl n hm }

/-- All that a successful `place` does, and all that it needs. -/
theorem place_ok {t t' : Tree κ} {p : Path} {x : Node κ} (h : t.place p x = .ok t') :
    p ≠ [] ∧ t.get? p.dropLast = some .dir ∧ t.get? p ≠ some .dir ∧ t'.nameMax = t.nameMax ∧
      ∀ q, t'.get? q = if q = p then some x else t.get? q := by
  unfold place at h
  split at h
  · contradiction
  rename_i hp
  split at h
  · contradiction
  rename_i hd
  split at h
  · contradiction
  split at h
  · contradiction
  rename_i hx
  cases h
  refine ⟨hp, not_not.mp hd, by rwa [← lookup_of_get? hp], rfl, fun q => ?_⟩
  by_cases he : q = p
  · subst he
    simp [get?, rawGet, hp]
  · simp only [get?, rawGet, he, if_false]
    rw [AList.lookup_insert_ne he]

theorem place_succeeds {t : Tree κ} {p : Path} {n : Name} (x : Node κ)
    (hd : t.get? p = some .dir) (hn : badName t.nameMax n = false)
    (hx : t.get? (p ++ [n]) ≠ some .dir) : ∃ t', t.place (p ++ [n]) x = .ok t' := by
  have h1 : rawGet t.nodes p = some .dir := hd
  have h2 : t.nodes.lookup (p ++ [n]) ≠ some .dir := by rwa [lookup_of_get? (by simp)]
  simp [place, h1, hn, h2]

def mkdir (t : Tree κ) (p : Path) : Except Fault (Tree κ) :=
  match t.get? p with
  | some .dir => .ok t
  | some (.leaf _) => .error .notFound
  | none => t.place p .dir

/-- What making directories may change: nothing but absent paths, which become directories. -/
structure Grown (t t' : Tree κ) : Prop where
  nameMax : t'.nameMax = t.nameMax
  get? : ∀ q, t'.get? q = t.get? q ∨ t.get? q = none ∧ t'.get? q = some .dir

theorem Grown.refl (t : Tree κ) : Grown t t := ⟨rfl, fun _ => .inl rfl⟩

theorem Grown.trans {t u v : Tree κ} (h : Grown t u) (h' : Grown u v) : Grown t v := by
  refine ⟨h'.nameMax.trans h.nameMax, fun q => ?_⟩
  rcases h.get? q with he | ⟨hn, hd⟩
  · rw [← he]; exact h'.get? q
  · rcases h'.get? q with he' | ⟨hn', _⟩
    · exact .inr ⟨hn, he'.trans hd⟩
    · rw [hd] at hn'; contradiction

theorem Grown.leaf? {t t' : Tree κ} (h : Grown t t') (q : Path) : t'.leaf? q = t.leaf? q := by
  rcases h.get? q with he | ⟨hn, hd⟩
  · simp [Tree.leaf?, he]
  · rw [leaf?_eq_none_of_dir hd, leaf?_eq_none_of_none hn]

theorem Grown.dir {t t' : Tree κ} (h : Grown t t') {q : Path} (hq : t.get? q = some .dir) :
    t'.get? q = some .dir := by
  rcases h.get? q with he | ⟨hn, hd⟩
  · rw [he, hq]
  · exact hd

theorem mkdir_ok {t t' : Tree κ} {p : Path} (h : t.mkdir p = .ok t') :
    Grown t t' ∧ t'.get? p = some .dir := by
  unfold mkdir at h
  split at h
  · rename_i hd
    cases h
    exact ⟨.refl t, hd⟩
  · contradiction
  · rename_i hn
    obtain ⟨_, _, _, hm, hg⟩ := place_ok h
    refine ⟨⟨hm, fun q => ?_⟩, by simp [hg]⟩
    by_cases he : q = p
    · subst he; exact .inr ⟨hn, by simp [hg]⟩
    · exact .inl (by simp [hg, he])

def mkdirsFrom : Tree κ → Path → List Name → Except Fault (Tree κ)
  | t, _, [] => .ok t
  | t, p, n :: rest => do
    let t' ← t.mkdir (p ++ [n])
    mkdirsFrom t' (p ++ [n]) rest

/-- `create_directories`: every missing directory on the way to the path. -/
def mkdirs (t : Tree κ) (p : Path) : Except Fault (Tree κ) := mkdirsFrom t [] p

theorem mkdirsFrom_ok {t t' : Tree κ} {p : Path} {rest : List Name}
    (hp : t.get? p = some .dir) (h : mkdirsFrom t p rest = .ok t') :
    Grown t t' ∧ t'.get? (p ++ rest) = some .dir := by
  induction rest generalizing t p with
  | nil =>
    cases h
    exact ⟨.refl _, by simpa using hp⟩
  | cons n rest ih =>
    simp only [mkdirsFrom, bind, Except.bind] at h
    split at h
    · contradiction
    · rename_i u hu
      obtain ⟨hg, hd⟩ := mkdir_ok hu
      obtain ⟨hg', hd'⟩ := ih hd h
      exact ⟨hg.trans hg', by simpa using hd'⟩

theorem mkdirs_ok {t t' : Tree κ} {p : Path} (h : t.mkdirs p = .ok t') :
    Grown t t' ∧ t'.get? p = some .dir := by
  simpa using mkdirsFrom_ok (get?_root t) h

/-- Whatever exists lies below directories only. -/
theorem dir_of_prefix (t : Tree κ) {p : Path} {rest : List Name} (hr : rest ≠ [])
    (h : t.get? (p ++ rest) ≠ none) : t.get? p = some .dir := by
  induction rest using List.reverseRecOn with
  | nil => contradiction
  | append_singleton xs x ih =>
    have hd := t.parent_dir (by simp) h
    rw [← List.append_assoc, List.dropLast_concat] at hd
    by_cases hx : xs = []
    · simpa [hx] using hd
    · exact ih hx (by simp [hd])

theorem mkdirs_of_dir {t : Tree κ} {p : Path} (h : t.get? p = some .dir) : t.mkdirs p = .ok t := by
  suffices ∀ (q : Path) (rest : List Name), t.get? (q ++ rest) = some .dir →
      mkdirsFrom t q rest = .ok t from this [] p h
  intro q rest
  induction rest generalizing q with
  | nil => intro _; rfl
  | cons n rest ih =>
    intro hd
    have hd' : t.get? ((q ++ [n]) ++ rest) = some .dir := by simpa using hd
    have hstep : t.get? (q ++ [n]) = some .dir := by
      by_cases hr : rest = []
      · simpa [hr] using hd'
      · exact t.dir_of_prefix hr (by rw [hd']; simp)
    simp only [mkdirsFrom, mkdir, hstep, bind, Except.bind]
    exact ih (q ++ [n]) hd'

/-- Making directories makes exactly the ones on the way. -/
theorem mkdirsFrom_get? {t t' : Tree κ} {p : Path} {rest : List Name}
    (h : mkdirsFrom t p rest = .ok t') (q : Path) :
    t'.get? q = if p <+: q ∧ q ≠ p ∧ q <+: p ++ rest then some .dir else t.get? q := by
  induction rest generalizing t p with
  | nil =>
    cases h
    rw [if_neg]
    rintro ⟨h1, h2, h3⟩
    rw [List.append_nil] at h3
    exact h2 (h3.eq_of_length_le h1.length_le)
  | cons n rest ih =>
    simp only [mkdirsFrom, bind, Except.bind] at h
    split at h
    · contradiction
    · rename_i u hu
      rw [ih h]
      have hmk : u.get? q = if q = p ++ [n] then some .dir else t.get? q := by
        have hd := (mkdir_ok hu).2
        by_cases he : q = p ++ [n]
        · rw [he, hd, if_pos rfl]
        · rw [if_neg he]
          unfold mkdir at hu
          split at hu
          · cases hu
            rfl
          · contradiction
          · rw [(place_ok hu).2.2.2.2, if_neg he]
      rw [hmk]
      by_cases he : q = p ++ [n]
      · subst he
        simp
      · rw [if_neg he]
        have happ : p ++ n :: rest = p ++ [n] ++ rest := by simp
        rw [happ]
        by_cases hc : p ++ [n] <+: q ∧ q ≠ p ++ [n] ∧ q <+: p ++ [n] ++ rest
        · have hpq : p <+: q := (List.prefix_append p [n]).trans hc.1
          have hne : q ≠ p := by
            intro h
            have := hc.1.length_le
            rw [h, List.length_append, List.length_singleton] at this
            omega
          rw [if_pos hc, if_pos ⟨hpq, hne, hc.2.2⟩]
        · rw [if_neg hc, if_neg]
          rintro ⟨h1, h2, h3⟩
          refine hc ⟨?_, he, h3⟩
          refine List.prefix_of_prefix_length_le (List.prefix_append _ rest) h3 ?_
          have hlen := h1.length_le
          have : q.length ≠ p.length := fun hl => h2 (h1.eq_of_length hl.symm).symm
          simp
          omega

theorem mkdirs_get? {t t' : Tree κ} {p : Path} (h : t.mkdirs p = .ok t') (q : Path) :
    t'.get? q = if q <+: p then some .dir else t.get? q := by
  rw [mkdirsFrom_get? h, List.nil_append]
  by_cases hq : q = []
  · subst hq
    simp
  · simp [hq]

theorem mkdirsFrom_append {t : Tree κ} {p : Path} {rest : List Name} {n : Name} :
    mkdirsFrom t p (rest ++ [n]) =
      (mkdirsFrom t p rest).bind fun u => u.mkdir (p ++ rest ++ [n]) := by
  induction rest generalizing t p with
  | nil =>
    simp only [List.nil_append, mkdirsFrom, bind, Except.bind, List.append_nil]
    cases t.mkdir (p ++ [n]) <;> rfl
  | cons m rest ih =>
    simp only [List.cons_append, mkdirsFrom, bind]
    cases t.mkdir (p ++ [m]) with
    | error e => rfl
    | ok u =>
      have happ : p ++ [m] ++ rest ++ [n] = p ++ m :: rest ++ [n] := by simp
      simp only [Except.bind]
      rw [ih, happ]
      rfl

/-- Directories made in two steps. -/
theorem mkdirs_concat {t u : Tree κ} {p : Path} {n : Name} (h : t.mkdirs p = .ok u) :
    u.mkdirs (p ++ [n]) = t.mkdirs (p ++ [n]) := by
  have hu := mkdirs_of_dir (mkdirs_ok h).2
  unfold mkdirs at h hu ⊢
  rw [mkdirsFrom_append, mkdirsFrom_append, h, hu]

theorem mkdirsFrom_succeeds {t : Tree κ} {p : Path} {rest : List Name}
    (hp : t.get? p = some .dir) (hn : ∀ n ∈ rest, badName t.nameMax n = false)
    (hfree : ∀ q x, q <+: p ++ rest → t.get? q ≠ some (.leaf x)) :
    ∃ t', mkdirsFrom t p rest = .ok t' := by
  induction rest generalizing t p with
  | nil => exact ⟨t, rfl⟩
  | cons n rest ih =>
    have happ : p ++ n :: rest = p ++ [n] ++ rest := by simp
    rw [happ] at hfree
    have hmk : ∃ u, t.mkdir (p ++ [n]) = .ok u := by
      unfold mkdir
      cases hg : t.get? (p ++ [n]) with
      | none => exact place_succeeds .dir hp (hn n (by simp)) (by simp [hg])
      | some x =>
        cases x with
        | dir => exact ⟨t, rfl⟩
        | leaf x => exact absurd hg (hfree _ x (List.prefix_append _ _))
    obtain ⟨u, hu⟩ := hmk
    obtain ⟨hgrown, hd⟩ := mkdir_ok hu
    have hrest : ∀ m ∈ rest, badName u.nameMax m = false := by
      intro m hm
      rw [hgrown.nameMax]
      exact hn m (by simp [hm])
    have hfree' : ∀ q x, q <+: p ++ [n] ++ rest → u.get? q ≠ some (.leaf x) := by
      intro q x hq hg
      rcases hgrown.get? q with he | ⟨_, hdir⟩
      · exact hfree q x hq (he ▸ hg)
      · rw [hdir] at hg
        simp at hg
    obtain ⟨t', ht'⟩ := ih hd hrest hfree'
    exact ⟨t', by simp [mkdirsFrom, bind, Except.bind, hu, ht']⟩

theorem mkdirs_succeeds {t : Tree κ} {p : Path} (hn : ∀ n ∈ p, badName t.nameMax n = false)
    (hfree : ∀ q x, q <+: p → t.get? q ≠ some (.leaf x)) : ∃ t', t.mkdirs p = .ok t' :=
  mkdirsFrom_succeeds (get?_root t) hn hfree

/-- The directory can be made: no leaf is in the way, and the file system takes the names. -/
def Makeable (t : Tree κ) (p : Path) : Prop :=
  (∀ q, q <+: p → t.leaf? q = none) ∧ ∀ n ∈ p, badName t.nameMax n = false

theorem mkdirs_iff {t : Tree κ} {p : Path} : (∃ t', t.mkdirs p = .ok t') ↔ t.Makeable p := by
  constructor
  · intro ⟨t', h⟩
    obtain ⟨hgrown, hdir⟩ := mkdirs_ok h
    have hdirs : ∀ q, q <+: p → t'.get? q = some .dir := by
      intro q ⟨rest, hq⟩
      by_cases hr : rest = []
      · rw [hr, List.append_nil] at hq
        rw [hq, hdir]
      · refine t'.dir_of_prefix hr ?_
        rw [hq, hdir]
        simp
    refine ⟨fun q hq => ?_, fun n hn => ?_⟩
    · rw [← hgrown.leaf?, leaf?_eq_none_of_dir (hdirs q hq)]
    · obtain ⟨as, bs, rfl⟩ := List.append_of_mem hn
      have hd := hdirs (as ++ [n]) ⟨bs, by simp⟩
      rw [← hgrown.nameMax]
      exact t'.name_fits (p := as) (by simp [hd])
  · intro ⟨hfree, hn⟩
    refine mkdirs_succeeds hn fun q x hq hg => ?_
    have := hfree q hq
    rw [leaf?_eq_some.mpr hg] at this
    contradiction

theorem Grown.makeable {t t' : Tree κ} (h : Grown t t') {p : Path} :
    t'.Makeable p ↔ t.Makeable p := by
  simp only [Makeable, h.leaf?, h.nameMax]

theorem place_iff {t : Tree κ} {p : Path} {n : Name} {x : Node κ} :
    (∃ t', t.place (p ++ [n]) x = .ok t') ↔
      t.get? p = some .dir ∧ badName t.nameMax n = false ∧ t.get? (p ++ [n]) ≠ some .dir := by
  constructor
  · intro ⟨t', h⟩
    obtain ⟨_, hd, hx, hm, hg⟩ := place_ok h
    rw [List.dropLast_concat] at hd
    refine ⟨hd, ?_, hx⟩
    rw [← hm]
    exact t'.name_fits (p := p) (by simp [hg])
  · intro ⟨hd, hn, hx⟩
    exact place_succeeds x hd hn hx

/-- A leaf can be put there once its directory has been made. -/
def Writable (t : Tree κ) (p : Path) (n : Name) : Prop :=
  t.Makeable p ∧ badName t.nameMax n = false ∧ t.get? (p ++ [n]) ≠ some .dir

/-- And so it can through a temporary one. -/
def Replaceable (t : Tree κ) (p : Path) (n : Name) : Prop :=
  t.Writable p n ∧ crowded t.nameMax n = false

/-- One leaf set, everything else as it was. -/
structure Put (t t' : Tree κ) (p : Path) (x : κ) : Prop where
  nameMax : t'.nameMax = t.nameMax
  notDir : t.get? p ≠ some .dir
  get? : ∀ q, t'.get? q = if q = p then some (.leaf x) else t.get? q

theorem Put.leaf? {t t' : Tree κ} {p : Path} {x : κ} (h : Put t t' p x) (q : Path) :
    t'.leaf? q = if q = p then some x else t.leaf? q := by
  by_cases he : q = p <;> simp [Tree.leaf?, h.get?, he]

theorem Put.dir {t t' : Tree κ} {p : Path} {x : κ} (h : Put t t' p x) {q : Path}
    (hq : t.get? q = some .dir) : t'.get? q = some .dir := by
  have hne : q ≠ p := by rintro rfl; exact h.notDir hq
  simp [h.get?, hne, hq]

theorem Put.of_place {t t' : Tree κ} {p : Path} {x : κ} (h : t.place p (.leaf x) = .ok t') :
    Put t t' p x := by
  obtain ⟨_, _, hn, hm, hg⟩ := place_ok h
  exact ⟨hm, hn, hg⟩

/-- Replace the leaf at a path, whatever it held. -/
def putLeaf (t : Tree κ) (p : Path) (x : κ) : Except Fault (Tree κ) := t.place p (.leaf x)

/-- Replace the leaf at a path through a temporary one beside it. -/
def replaceLeaf (t : Tree κ) (p : Path) (x : κ) : Except Fault (Tree κ) :=
  if crowded t.nameMax (p.getLast?.getD []) then .error .nameTooLong else t.putLeaf p x

theorem replaceLeaf_iff {t t' : Tree κ} {p : Path} {x : κ} :
    t.replaceLeaf p x = .ok t' ↔
      crowded t.nameMax (p.getLast?.getD []) = false ∧ t.putLeaf p x = .ok t' := by
  unfold replaceLeaf
  split
  · rename_i h
    simp [h]
  · rename_i h
    simp [h]

/-- Open for appending: create the leaf, or change the one that is there. -/
def upsertLeaf (t : Tree κ) (p : Path) (f : Option κ → κ) : Except Fault (Tree κ) :=
  t.place p (.leaf (f (t.leaf? p)))

def modifyLeaf (t : Tree κ) (p : Path) (f : κ → κ) : Except Fault (Tree κ) :=
  match t.leaf? p with
  | some x => t.place p (.leaf (f x))
  | none => .error .notFound

theorem modifyLeaf_ok {t t' : Tree κ} {p : Path} {f : κ → κ} (h : t.modifyLeaf p f = .ok t') :
    ∃ x, t.leaf? p = some x ∧ Put t t' p (f x) := by
  unfold modifyLeaf at h
  split at h
  · exact ⟨_, ‹_›, .of_place h⟩
  · contradiction

/-- A leaf that is there can be changed. -/
theorem modifyLeaf_succeeds {t : Tree κ} {p : Path} {x : κ} (f : κ → κ) (h : t.leaf? p = some x) :
    ∃ t', t.modifyLeaf p f = .ok t' := by
  have hget := leaf?_eq_some.mp h
  have hp : p ≠ [] := by
    rintro rfl
    simp at hget
  obtain ⟨d, n, hdn⟩ := (List.eq_nil_or_concat p).resolve_left hp
  rw [List.concat_eq_append] at hdn
  subst hdn
  have hthere : t.get? (d ++ [n]) ≠ none := by simp [hget]
  have hdir := t.parent_dir hp hthere
  rw [List.dropLast_concat] at hdir
  simp only [modifyLeaf, h]
  exact place_succeeds _ hdir (t.name_fits hthere) (by simp [hget])

/-- Erase a leaf; directories stay. -/
def removeLeaf (t : Tree κ) (p : Path) : Except Fault (Tree κ) :=
  match hl : t.get? p with
  | some (.leaf x) => .ok {
      nameMax := t.nameMax
      nodes := t.nodes.erase p
      closed := by
        intro q hq hn
        have hne : q ≠ p := by rintro rfl; simp at hn
        rw [AList.lookup_erase_ne hne] at hn
        have hold := t.closed q hq hn
        by_cases hpar : q.dropLast = p
        · rw [hpar] at hold
          have := hold.symm.trans hl
          simp at this
        · unfold rawGet at hold ⊢
          rwa [AList.lookup_erase_ne hpar]
      fits := by
        intro q hn n hm
        have hne : q ≠ p := by rintro rfl; simp at hn
        rw [AList.lookup_erase_ne hne] at hn
        exact t.fits q hn n hm }
  | some .dir => .error .isDirectory
  | none => .error .notFound

theorem removeLeaf_ok {t t' : Tree κ} {p : Path} (h : t.removeLeaf p = .ok t') :
    (∃ x, t.get? p = some (.leaf x)) ∧ t'.nameMax = t.nameMax ∧
      ∀ q, t'.get? q = if q = p then none else t.get? q := by
  unfold removeLeaf at h
  split at h
  · rename_i x hl
    cases h
    have hp : p ≠ [] := by rintro rfl; simp at hl
    refine ⟨⟨x, hl⟩, rfl, fun q => ?_⟩
    by_cases he : q = p
    · subst he
      simp [get?, rawGet, hp]
    · simp only [get?, rawGet, he, if_false]
      rw [AList.lookup_erase_ne he]
  · contradiction
  · contradiction

/-- Move a leaf over whatever leaf the destination holds. -/
def renameLeaf (t : Tree κ) (src dst : Path) : Except Fault (Tree κ) :=
  match t.get? src with
  | some (.leaf x) =>
    if src = dst then .ok t
    else do
      let t' ← t.place dst (.leaf x)
      t'.removeLeaf src
  | some .dir => .error .isDirectory
  | none => .error .notFound

theorem renameLeaf_ok {t t' : Tree κ} {src dst : Path} (hne : src ≠ dst)
    (h : t.renameLeaf src dst = .ok t') :
    ∃ x, t.leaf? src = some x ∧ t'.nameMax = t.nameMax ∧ t.get? dst ≠ some .dir ∧
      ∀ q, t'.get? q = if q = src then none else if q = dst then some (.leaf x) else t.get? q := by
  unfold renameLeaf at h
  split at h
  · rename_i x hx
    simp only [hne, if_false, bind, Except.bind] at h
    split at h
    · contradiction
    · rename_i u hu
      obtain ⟨hm, hn, hg⟩ := Put.of_place hu
      obtain ⟨_, hm', hg'⟩ := removeLeaf_ok h
      exact ⟨x, leaf?_eq_some.mpr hx, hm'.trans hm, hn, fun q => by rw [hg', hg]⟩
  · contradiction
  · contradiction

/-- The last leaf put at a path is what counts. -/
theorem place_place {t u : Tree κ} {p : Path} {x : κ} {y : Node κ}
    (h : t.place p (.leaf x) = .ok u) : u.place p y = t.place p y := by
  unfold place at h
  split at h
  · contradiction
  rename_i hp
  split at h
  · contradiction
  rename_i hd
  split at h
  · contradiction
  rename_i hn
  split at h
  · contradiction
  rename_i hx
  cases h
  have hne : p.dropLast ≠ p := by
    intro he
    have hlen := congrArg List.length he
    have hpos := List.length_pos_iff.mpr hp
    simp only [List.length_dropLast] at hlen
    omega
  have hget : rawGet (t.nodes.insert p (.leaf x)) p.dropLast = rawGet t.nodes p.dropLast := by
    unfold rawGet
    rw [AList.lookup_insert_ne hne]
  unfold place
  simp [hp, hget, hd, hn, hx, AList.insert_insert]

theorem nodes_place {t u : Tree κ} {p : Path} {x : Node κ} (h : t.place p x = .ok u) :
    u.nodes = t.nodes.insert p x := by
  unfold place at h
  split at h
  · contradiction
  split at h
  · contradiction
  split at h
  · contradiction
  split at h
  · contradiction
  cases h
  rfl

theorem nodes_removeLeaf {t u : Tree κ} {p : Path} (h : t.removeLeaf p = .ok u) :
    u.nodes = t.nodes.erase p := by
  unfold removeLeaf at h
  split at h
  · cases h
    rfl
  · contradiction
  · contradiction

theorem entries_erase {nodes : AList (fun _ : Path => Node κ)} {p : Path} :
    (nodes.erase p).entries = nodes.entries.kerase p := rfl

theorem ext_nodes {t u : Tree κ} (hm : t.nameMax = u.nameMax) (hn : t.nodes = u.nodes) : t = u := by
  cases t
  cases u
  cases hm
  cases hn
  rfl

/-- A leaf that was not there is removed without a trace. -/
theorem removeLeaf_place {t u v : Tree κ} {p : Path} {x : κ} (hnew : t.get? p = none)
    (h : t.place p (.leaf x) = .ok u) (hr : u.removeLeaf p = .ok v) : v = t := by
  obtain ⟨hp, _, _, _, _⟩ := place_ok h
  have hkeys : p ∉ t.nodes.entries.keys := by
    rw [← lookup_of_get? hp] at hnew
    exact AList.lookup_eq_none.mp hnew
  have hnodes : v.nodes = t.nodes := by
    rw [nodes_removeLeaf hr, nodes_place h]
    apply AList.ext
    simp [entries_erase, List.kerase_of_notMem_keys hkeys]
  exact ext_nodes ((removeLeaf_ok hr).2.1.trans (Put.of_place h).nameMax) hnodes

/-- A leaf that was put under a new name and moved is as if it was put where it is now. -/
theorem renameLeaf_place {t u v : Tree κ} {src dst : Path} {x : κ} (hne : src ≠ dst)
    (hnew : t.get? src = none) (h : t.place src (.leaf x) = .ok u)
    (hr : u.renameLeaf src dst = .ok v) : t.place dst (.leaf x) = .ok v := by
  obtain ⟨hsrc, _, _, _, _⟩ := place_ok h
  have hput := Put.of_place h
  have hx : u.get? src = some (.leaf x) := by rw [hput.get?, if_pos rfl]
  unfold renameLeaf at hr
  rw [hx] at hr
  simp only [hne, if_false, bind, Except.bind] at hr
  split at hr
  · contradiction
  rename_i w hw
  obtain ⟨d, n, hdst⟩ := (List.eq_nil_or_concat dst).resolve_left (place_ok hw).1
  rw [List.concat_eq_append] at hdst
  subst hdst
  obtain ⟨hdir, hfits, hfree⟩ := place_iff.mp ⟨w, hw⟩
  have hd : d ≠ src := by
    rintro rfl
    rw [hx] at hdir
    cases hdir
  rw [hput.get?, if_neg hd] at hdir
  rw [hput.nameMax] at hfits
  rw [hput.get?, if_neg hne.symm] at hfree
  obtain ⟨t', ht'⟩ := place_iff.mpr ⟨hdir, hfits, hfree⟩
  rw [ht', Except.ok.injEq]
  have hkeys : src ∉ t.nodes.entries.keys := by
    rw [← lookup_of_get? hsrc] at hnew
    exact AList.lookup_eq_none.mp hnew
  refine ext_nodes ?_ ?_
  · rw [(removeLeaf_ok hr).2.1, (Put.of_place hw).nameMax, hput.nameMax, (Put.of_place ht').nameMax]
  · rw [nodes_removeLeaf hr, nodes_place hw, nodes_place h, nodes_place ht']
    apply AList.ext
    simp [entries_erase, hne, hne.symm, List.kerase_of_notMem_keys hkeys]

/-- The names of the leaves directly in a directory. -/
def leafNames (t : Tree κ) (d : Path) : List Name :=
  t.nodes.keys.filterMap fun p =>
    if p.dropLast = d ∧ (t.leaf? p).isSome then p.getLast? else none

theorem mem_leafNames {t : Tree κ} {d : Path} {n : Name} :
    n ∈ t.leafNames d ↔ ∃ x, t.leaf? (d ++ [n]) = some x := by
  simp only [leafNames, List.mem_filterMap]
  constructor
  · rintro ⟨p, -, hp⟩
    split at hp
    · rename_i hc
      obtain ⟨rfl, hx⟩ := hc
      have he : p.dropLast ++ [n] = p := List.dropLast_append_getLast? n hp
      rw [he]
      exact Option.isSome_iff_exists.mp hx
    · contradiction
  · rintro ⟨x, hx⟩
    refine ⟨d ++ [n], ?_, by simp [hx]⟩
    have hg := leaf?_eq_some.mp hx
    rw [← lookup_of_get? (by simp)] at hg
    exact AList.mem_keys.mp (AList.lookup_isSome.mp (by simp [hg]))

theorem nodup_leafNames (t : Tree κ) (d : Path) : (t.leafNames d).Nodup := by
  refine List.Nodup.filterMap ?_ t.nodes.nodupKeys
  intro p q n hp hq
  simp only [Option.mem_def, Option.ite_none_right_eq_some] at hp hq
  have hp' := List.dropLast_append_getLast? n hp.2
  have hq' := List.dropLast_append_getLast? n hq.2
  rw [← hp', ← hq', hp.1.1, hq.1.1]

/-- The leaves below a directory, at any depth. -/
def leavesBelow (t : Tree κ) (d : Path) : List Path :=
  t.nodes.keys.filter fun p => d.isPrefixOf p && (t.leaf? p).isSome

theorem mem_leavesBelow {t : Tree κ} {d p : Path} :
    p ∈ t.leavesBelow d ↔ d <+: p ∧ (t.leaf? p).isSome := by
  rw [leavesBelow, List.mem_filter, Bool.and_eq_true, List.isPrefixOf_iff_prefix]
  refine and_iff_right_of_imp fun ⟨_, hx⟩ => ?_
  obtain ⟨x, hx⟩ := Option.isSome_iff_exists.mp hx
  have hg := leaf?_eq_some.mp hx
  have hp : p ≠ [] := by
    rintro rfl
    simp at hg
  rw [← lookup_of_get? hp] at hg
  exact AList.mem_keys.mp (AList.lookup_isSome.mp (by simp [hg]))

theorem nodup_leavesBelow (t : Tree κ) (d : Path) : (t.leavesBelow d).Nodup :=
  t.nodes.nodupKeys.filter _

/-- Where the same leaves are below a directory, they are listed in some order. -/
theorem leavesBelow_perm {t u : Tree κ} {d : Path}
    (h : ∀ p, d <+: p → (u.leaf? p).isSome = (t.leaf? p).isSome) :
    (u.leavesBelow d).Perm (t.leavesBelow d) := by
  refine (List.perm_ext_iff_of_nodup (u.nodup_leavesBelow d) (t.nodup_leavesBelow d)).mpr fun p => ?_
  rw [mem_leavesBelow, mem_leavesBelow]
  refine and_congr_right fun hp => ?_
  rw [h p hp]

/-- One leaf more. -/
theorem leavesBelow_cons {t u : Tree κ} {d p : Path} (hp : d <+: p) (ht : t.leaf? p = none)
    (hu : (u.leaf? p).isSome) (h : ∀ q, q ≠ p → d <+: q → (u.leaf? q).isSome = (t.leaf? q).isSome) :
    (u.leavesBelow d).Perm (p :: t.leavesBelow d) := by
  have hnot : p ∉ t.leavesBelow d := by
    intro hm
    have hsome := (mem_leavesBelow.mp hm).2
    rw [ht] at hsome
    contradiction
  refine (List.perm_ext_iff_of_nodup (u.nodup_leavesBelow d)
    (List.nodup_cons.mpr ⟨hnot, t.nodup_leavesBelow d⟩)).mpr fun q => ?_
  rw [List.mem_cons, mem_leavesBelow, mem_leavesBelow]
  by_cases hq : q = p
  · subst hq
    exact iff_of_true ⟨hp, hu⟩ (.inl rfl)
  · rw [or_iff_right hq]
    refine and_congr_right fun hd => ?_
    rw [h q hq hd]

/-- A lookup on the way to the path meets a name that the file system refuses. -/
def blocked (t : Tree κ) (p : Path) : Bool :=
  p.inits.any fun q =>
    match q.getLast? with
    | some n => t.get? q.dropLast = some .dir && badName t.nameMax n
    | none => false

theorem blocked_one {t : Tree κ} {a : Name} : t.blocked [a] = badName t.nameMax a := by
  simp [blocked]

theorem blocked_three {t : Tree κ} {a b c : Name} :
    t.blocked [a, b, c] = true ↔ badName t.nameMax a = true ∨
      t.get? [a] = some .dir ∧ badName t.nameMax b = true ∨
      t.get? [a, b] = some .dir ∧ badName t.nameMax c = true := by
  simp [blocked]

/-- `status`: what is at a path, or no answer. -/
def status (t : Tree κ) (p : Path) : Except Fault (Option (Node κ)) :=
  if t.blocked p then .error .nameTooLong else .ok (t.get? p)

end Tree

end FileTree
