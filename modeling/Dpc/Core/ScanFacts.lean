import Dpc.Core.FileScanner
import Dpc.Lib.Lists

namespace Dpc
open Text FileTree Effects

namespace World

/-- A directory or a file, and no link. -/
def Solid (w : World) (p : Path) : Prop :=
  w.tree.get? p = some .dir ∨ ∃ f, w.tree.get? p = some (.leaf (.file f))

theorem walk_self {w : World} {follow : Path → List Bytes → Except LinkFault Path}
    {cur rest : Path} (h : w.Solid (cur ++ rest)) : w.walk follow cur rest = .ok (cur ++ rest) := by
  induction rest generalizing cur with
  | nil => simp [walk]
  | cons n rest ih =>
    have hne : w.tree.get? (cur ++ n :: rest) ≠ none := by
      rcases h with h | ⟨f, h⟩ <;> simp [h]
    have hname := w.names _ hne n (by simp)
    have happ : cur ++ n :: rest = cur ++ [n] ++ rest := by simp
    rw [happ] at h hne ⊢
    simp only [walk, hname.ne_nil, hname.ne_dot, or_self, if_false, hname.ne_dotdot]
    by_cases hr : rest = []
    · subst hr
      rw [List.append_nil] at h ⊢
      rcases h with h | ⟨f, h⟩
      · simp [h, walk]
      · simp [h]
    · have hd := w.tree.dir_of_prefix hr hne
      rw [hd]
      exact ih h

/-- What is no link is its own canonical path. -/
theorem canonical_self {w : World} {p : Path} (h : w.Solid p) : w.canonical p = .ok p := by
  have hself : ∀ follow, w.walk follow [] p = .ok ([] ++ p) := fun follow => walk_self h
  exact hself _

/-- The file at a path, links followed, with its own canonical path. -/
def regular (w : World) (p : Path) : Option (Path × File) :=
  match w.canonical p with
  | .ok q =>
    match w.tree.get? q with
    | some (.leaf (.file f)) => some (q, f)
    | _ => none
  | .error _ => none

theorem regular_eq_some {w : World} {p q : Path} {f : File} :
    w.regular p = some (q, f) ↔
      w.canonical p = .ok q ∧ w.tree.get? q = some (.leaf (.file f)) := by
  unfold regular
  split
  · rename_i q' hq
    split
    · rename_i f' hf
      simp only [Option.some.injEq, Prod.mk.injEq, hq, Except.ok.injEq]
      constructor
      · rintro ⟨rfl, rfl⟩
        exact ⟨rfl, hf⟩
      · rintro ⟨rfl, hg⟩
        rw [hf] at hg
        cases hg
        exact ⟨rfl, rfl⟩
    · rename_i hno
      simp only [hq, Except.ok.injEq, false_iff, not_and, reduceCtorEq]
      rintro rfl hg
      exact hno _ hg
  · rename_i e he
    simp [he]

end World

namespace FileScanner

theorem mem_entries {w : World} {base p : Path} :
    p ∈ entries w base ↔ ∃ rest, rest ≠ [] ∧ p = base ++ rest ∧ w.tree.get? p ≠ none := by
  simp only [entries, List.mem_filter, Bool.and_eq_true, List.isPrefixOf_iff_prefix, bne_iff_ne,
    ne_eq]
  have hkey : ∀ {p : Path}, p ≠ [] → (p ∈ w.tree.nodes.keys ↔ w.tree.get? p ≠ none) := by
    intro p hp
    rw [← AList.mem_keys, ← AList.lookup_isSome, Tree.lookup_of_get? hp, Option.isSome_iff_ne_none]
  constructor
  · rintro ⟨hk, ⟨rest, rfl⟩, hne⟩
    have hr : rest ≠ [] := by
      rintro rfl
      simp at hne
    exact ⟨rest, hr, rfl, (hkey (by simp [hr])).mp hk⟩
  · rintro ⟨rest, hr, rfl, hg⟩
    exact ⟨(hkey (by simp [hr])).mpr hg, ⟨rest, rfl⟩, by simp [hr]⟩

theorem nodup_entries (w : World) (base : Path) : (entries w base).Nodup :=
  List.Nodup.filter _ w.tree.nodes.nodupKeys

/-- The entries that the scanner takes for regular files. -/
def accepted (w : World) (base : Path) : List Path :=
  (entries w base).filter fun p => (w.regular p).isSome

theorem mem_accepted {w : World} {base p : Path} :
    p ∈ accepted w base ↔ p ∈ entries w base ∧ ∃ q f, w.regular p = some (q, f) := by
  simp [accepted, Option.isSome_iff_exists]

theorem joinWith_ne_nil {n : Bytes} {ns : List Bytes} (h : n ≠ []) :
    joinWith LexPath.slash (n :: ns) ≠ [] := by
  cases ns with
  | nil => exact h
  | cons m ns => simp [joinWith]

/-- Below the base the relative path is what is left; elsewhere it begins by going up. -/
theorem relativePath_cases {w : World} {base q : Path} {f : File}
    (hb : w.tree.get? base = some .dir) (hq : w.tree.get? q = some (.leaf (.file f))) :
    (∃ rest, rest ≠ [] ∧ q = base ++ rest ∧ (∀ n ∈ rest, LexPath.IsName n) ∧
        relativePath base q = joinWith LexPath.slash rest) ∨
      (¬base <+: q ∧ ∃ ups, relativePath base q = joinWith LexPath.slash (LexPath.dotdot :: ups)) := by
  by_cases hp : base <+: q
  · obtain ⟨rest, rfl⟩ := hp
    have hr : rest ≠ [] := by
      rintro rfl
      rw [List.append_nil, hb] at hq
      simp at hq
    refine .inl ⟨rest, hr, rfl, fun n hn => ?_, ?_⟩
    · exact w.names _ (by rw [hq]; simp) n (by simp [hn])
    · rw [relativePath, LexPath.lexicallyRelative_below hr]
  · obtain ⟨ups, hu⟩ := LexPath.lexicallyRelative_outside hp
    exact .inr ⟨hp, ups, by rw [relativePath, hu]⟩

theorem relativePath_ne_nil {w : World} {base q : Path} {f : File}
    (hb : w.tree.get? base = some .dir) (hq : w.tree.get? q = some (.leaf (.file f))) :
    relativePath base q ≠ [] := by
  rcases relativePath_cases hb hq with ⟨rest, hr, _, hn, he⟩ | ⟨_, ups, he⟩
  · obtain ⟨n, ns, rfl⟩ := List.exists_cons_of_ne_nil hr
    rw [he]
    exact joinWith_ne_nil (hn n (by simp)).ne_nil
  · rw [he]
    exact joinWith_ne_nil (by decide)

/-- What the scan says of an entry, with the file that it leads to. -/
structure ScannedFrom (w : World) (base p : Path) (file : ScannedFile) (q : Path) (f : File) :
    Prop where
  regular : w.regular p = some (q, f)
  path : file.relativePath = relativePath base q
  size : file.fileSize = .ok (size f.data)
  mode : file.fileMode = .ok (f.mode &&& 0o777)
  read : file.readFile = .ok f.data

theorem scanEntry_regular {w : World} {base p q : Path} {f : File}
    (hb : w.tree.get? base = some .dir) (h : w.regular p = some (q, f)) :
    ∃ file, scanEntry w base p = .ok (some file) ∧ ScannedFrom w base p file q f := by
  obtain ⟨hc, hg⟩ := World.regular_eq_some.mp h
  have hne := relativePath_ne_nil hb hg
  refine ⟨⟨relativePath base q, hne, .ok (size f.data), .ok (f.mode &&& 0o777), .ok f.data⟩, ?_, ?_⟩
  · simp only [scanEntry, hc, hg, scanned, hne, ne_eq, not_false_eq_true, dif_pos]
  · exact ⟨h, rfl, rfl, rfl, rfl⟩

theorem scanEntry_other {w : World} {base p : Path} {first : Option ScannedFile}
    (h : w.regular p = none) (hs : scanEntry w base p = .ok first) : first = none := by
  unfold scanEntry at hs
  split at hs
  · rename_i q hq
    split at hs
    · rename_i f hf
      rw [World.regular_eq_some.mpr ⟨hq, hf⟩] at h
      contradiction
    · exact (Except.ok.inj hs).symm
  · exact (Except.ok.inj hs).symm
  · contradiction

theorem scanEntries_ok {w : World} {base : Path} {ps : List Path} {files : List ScannedFile}
    (hb : w.tree.get? base = some .dir) (h : scanEntries w base ps = .ok files) :
    List.Forall₂ (fun p file => ∃ q f, ScannedFrom w base p file q f)
      (ps.filter fun p => (w.regular p).isSome) files := by
  induction ps generalizing files with
  | nil =>
    cases h
    exact .nil
  | cons p ps ih =>
    simp only [scanEntries, bind, Except.bind, pure, Except.pure] at h
    split at h
    · contradiction
    rename_i first hfirst
    split at h
    · contradiction
    rename_i rest hrest
    cases h
    have ih := ih hrest
    cases hr : w.regular p with
    | none =>
      rw [scanEntry_other hr hfirst]
      simpa [hr] using ih
    | some qf =>
      obtain ⟨q, f⟩ := qf
      obtain ⟨file, hf, hfrom⟩ := scanEntry_regular hb hr
      rw [hf] at hfirst
      cases hfirst
      simpa [hr] using ⟨⟨q, f, hfrom⟩, ih⟩

/-- A scan that succeeds reports each accepted entry once, in some order. -/
theorem scanRegularFiles_ok {w : World} {root : Path} {files : List ScannedFile}
    (h : scanRegularFiles w root = .ok files) :
    ∃ base found, w.canonical root = .ok base ∧ w.tree.get? base = some .dir ∧
      files.Perm found ∧
      List.Forall₂ (fun p file => ∃ q f, ScannedFrom w base p file q f) (accepted w base) found := by
  unfold scanRegularFiles at h
  split at h
  · rename_i base hbase
    split at h
    · rename_i hdir
      simp only [bind, Except.bind, pure, Except.pure] at h
      split at h
      · contradiction
      rename_i found hfound
      cases h
      exact ⟨base, found, hbase, hdir, List.perm_insertionSort _ _, scanEntries_ok hdir hfound⟩
    · contradiction
  · contradiction

end FileScanner

end Dpc
