import Dpc.Common.FileUtils
import Mathlib.Data.List.Infix

namespace Dpc
open Text FileTree Effects

theorem orThrow_ok {α : Type} {e : Exn} {x : Except Fault α} {a : α} (h : orThrow e x = .ok a) :
    x = .ok a := by
  cases x with
  | ok b => simpa [orThrow] using h
  | error f => simp [orThrow] at h

namespace FsEffect

/-- The only paths whose file an effect may change. -/
def touches : FsEffect → List Path
  | .ensureDirectory _ => []
  | .replace p _ _ => [p]
  | .rename src dst => [src, dst]
  | .append p _ _ _ => [p]
  | .remove p => [p]
  | .chmod p _ => [p]

variable {s t : Fs}

theorem ensureDirectory_ok {p : Path} (h : Effect.apply (FsEffect.ensureDirectory p) s = .ok t) :
    Tree.Grown s t ∧ t.get? p = some .dir :=
  Tree.mkdirs_ok (orThrow_ok h)

theorem replace_ok {p : Path} {data : Bytes} {mode : UInt32}
    (h : Effect.apply (FsEffect.replace p data mode) s = .ok t) : Tree.Put s t p ⟨data, mode⟩ :=
  .of_place (Tree.replaceLeaf_iff.mp (orThrow_ok h)).2

theorem replace_room {p : Path} {data : Bytes} {mode : UInt32}
    (h : Effect.apply (FsEffect.replace p data mode) s = .ok t) :
    crowded s.nameMax (p.getLast?.getD []) = false :=
  (Tree.replaceLeaf_iff.mp (orThrow_ok h)).1

theorem append_ok {p : Path} {data : Bytes} {mode : UInt32} {failure : Exn}
    (h : Effect.apply (FsEffect.append p data mode failure) s = .ok t) :
    Tree.Put s t p (appended data mode (s.leaf? p)) :=
  .of_place (orThrow_ok h)

theorem chmod_ok {p : Path} {mode : UInt32}
    (h : Effect.apply (FsEffect.chmod p mode) s = .ok t) :
    ∃ f, s.leaf? p = some f ∧ Tree.Put s t p { f with mode := mode } :=
  Tree.modifyLeaf_ok (orThrow_ok h)

theorem rename_ok {src dst : Path} (hne : src ≠ dst)
    (h : Effect.apply (FsEffect.rename src dst) s = .ok t) :
    ∃ f, s.leaf? src = some f ∧ t.nameMax = s.nameMax ∧ s.get? dst ≠ some .dir ∧
      ∀ q, t.get? q = if q = src then none else if q = dst then some (.leaf f) else s.get? q :=
  Tree.renameLeaf_ok hne (orThrow_ok h)

theorem remove_ok {p : Path} (h : Effect.apply (FsEffect.remove p) s = .ok t) :
    t.nameMax = s.nameMax ∧ s.get? p ≠ some .dir ∧
      ∀ q, t.get? q = if q = p then none else s.get? q := by
  simp only [Effect.apply, FsEffect.apply] at h
  split at h
  · rename_i hn
    cases h
    refine ⟨rfl, by simp [hn], fun q => ?_⟩
    by_cases he : q = p
    · rw [he, hn]; simp
    · simp [he]
  · obtain ⟨⟨x, hx⟩, hm, hg⟩ := Tree.removeLeaf_ok (orThrow_ok h)
    exact ⟨hm, by simp [hx], hg⟩

theorem leaf?_of_get? {q : Path} (h : t.get? q = s.get? q) : t.leaf? q = s.leaf? q := by
  simp [Tree.leaf?, h]

theorem rename_self {p : Path} (h : Effect.apply (FsEffect.rename p p) s = .ok t) : t = s := by
  have h := orThrow_ok h
  unfold Tree.renameLeaf at h
  split at h
  · simp at h
    exact h.symm
  · contradiction
  · contradiction

/-- What an effect does not touch it leaves as it is. -/
theorem apply_frame {i : FsEffect} {q : Path} (h : Effect.apply i s = .ok t)
    (hq : q ∉ i.touches) : t.leaf? q = s.leaf? q := by
  cases i with
  | ensureDirectory p => exact (ensureDirectory_ok h).1.leaf? q
  | replace p data mode =>
    simp only [touches, List.mem_singleton] at hq
    rw [(replace_ok h).leaf?, if_neg hq]
  | append p data mode failure =>
    simp only [touches, List.mem_singleton] at hq
    rw [(append_ok h).leaf?, if_neg hq]
  | chmod p mode =>
    simp only [touches, List.mem_singleton] at hq
    obtain ⟨f, _, hp⟩ := chmod_ok h
    rw [hp.leaf?, if_neg hq]
  | rename src dst =>
    simp only [touches, List.mem_cons, List.not_mem_nil, or_false, not_or] at hq
    by_cases hne : src = dst
    · subst hne
      rw [rename_self h]
    · obtain ⟨f, _, _, _, hg⟩ := rename_ok hne h
      exact leaf?_of_get? (by rw [hg, if_neg hq.1, if_neg hq.2])
  | remove p =>
    simp only [touches, List.mem_singleton] at hq
    obtain ⟨_, _, hg⟩ := remove_ok h
    exact leaf?_of_get? (by rw [hg, if_neg hq])

/-- No effect takes a directory away. -/
theorem apply_dir {i : FsEffect} {q : Path} (h : Effect.apply i s = .ok t)
    (hq : s.get? q = some .dir) : t.get? q = some .dir := by
  cases i with
  | ensureDirectory p => exact (ensureDirectory_ok h).1.dir hq
  | replace p data mode => exact (replace_ok h).dir hq
  | append p data mode failure => exact (append_ok h).dir hq
  | chmod p mode =>
    obtain ⟨f, _, hp⟩ := chmod_ok h
    exact hp.dir hq
  | rename src dst =>
    by_cases hne : src = dst
    · subst hne
      rwa [rename_self h]
    · obtain ⟨f, hf, _, hn, hg⟩ := rename_ok hne h
      have h1 : q ≠ src := by
        intro he
        rw [he] at hq
        rw [Tree.leaf?_eq_none_of_dir hq] at hf
        contradiction
      have h2 : q ≠ dst := by
        intro he
        rw [he] at hq
        exact hn hq
      rw [hg, if_neg h1, if_neg h2, hq]
  | remove p =>
    obtain ⟨_, hn, hg⟩ := remove_ok h
    have h1 : q ≠ p := by
      intro he
      rw [he] at hq
      exact hn hq
    rw [hg, if_neg h1, hq]

theorem apply_nameMax {i : FsEffect} (h : Effect.apply i s = .ok t) : t.nameMax = s.nameMax := by
  cases i with
  | ensureDirectory p => exact (ensureDirectory_ok h).1.nameMax
  | replace p data mode => exact (replace_ok h).nameMax
  | append p data mode failure => exact (append_ok h).nameMax
  | chmod p mode =>
    obtain ⟨f, _, hp⟩ := chmod_ok h
    exact hp.nameMax
  | rename src dst =>
    by_cases hne : src = dst
    · subst hne
      rw [rename_self h]
    · obtain ⟨f, _, hm, _, _⟩ := rename_ok hne h
      exact hm
  | remove p => exact (remove_ok h).1

end FsEffect

/-- Only files that satisfy `P` may differ. -/
def Frame (P : Path → Prop) (s t : Fs) : Prop := ∀ q, ¬P q → t.leaf? q = s.leaf? q

theorem Frame.refl (P : Path → Prop) (s : Fs) : Frame P s s := fun _ _ => rfl

theorem Frame.trans {P : Path → Prop} {s t u : Fs} (h : Frame P s t) (h' : Frame P t u) :
    Frame P s u := fun q hq => (h' q hq).trans (h q hq)

theorem Frame.mono {P P' : Path → Prop} {s t : Fs} (h : Frame P s t) (hp : ∀ q, P q → P' q) :
    Frame P' s t := fun q hq => h q fun hq' => hq (hp q hq')

theorem Frame.of_apply {P : Path → Prop} {s t : Fs} {i : FsEffect} (h : Effect.apply i s = .ok t)
    (hp : ∀ q ∈ i.touches, P q) : Frame P s t :=
  fun q hq => FsEffect.apply_frame h fun hm => hq (hp q hm)

/-- However a program ends, it has changed no more than its effects may touch. -/
theorem Frame.of_keeps {α : Type} {P : Path → Prop} {Q : α → Fs → Prop} {p : Op α} {s : Fs}
    (h : Keeps (fun i _ _ => ∀ q ∈ FsEffect.touches i, P q) Q p s) : Frame P s (p.exec s).2 := by
  obtain ⟨is, hcut⟩ := Prog.cut_exec p s
  refine SafeAlone.cut (I := fun _ a b => Frame P a b) h hcut (fun a => Frame.refl P a) ?_
  intro i is a m b ha hg hf
  exact (Frame.of_apply ha hg).trans hf

namespace FileUtils

variable {s t : Fs}

theorem status_of_get? {p : Path} (h : s.get? p ≠ none) : s.status p = .ok (s.get? p) := by
  have hb : s.blocked p = false := by
    simp only [Tree.blocked, List.any_eq_false, List.mem_inits]
    intro q hq
    obtain ⟨rest, rfl⟩ := hq
    cases hl : q.getLast? with
    | none => simp
    | some n =>
      have he := List.dropLast_append_getLast? n hl
      have hne : s.get? (q.dropLast ++ [n]) ≠ none := by
        rw [he]
        by_cases hr : rest = []
        · simpa [hr] using h
        · rw [s.dir_of_prefix hr h]
          simp
      simp [s.name_fits hne]
  simp [Tree.status, hb]

/-- Names that the file system takes are looked up. -/
theorem status_of_fits {p : Path} (h : ∀ n ∈ p, badName s.nameMax n = false) :
    s.status p = .ok (s.get? p) := by
  have hb : s.blocked p = false := by
    rw [Tree.blocked, List.any_eq_false]
    intro q hq
    cases hl : q.getLast? with
    | none => simp
    | some n =>
      have hn := h n (((List.mem_inits _ _).mp hq).subset (List.mem_of_getLast? hl))
      simp [hn]
  rw [Tree.status, if_neg (by simp [hb])]

theorem exec_pathExists_some {p : Path} {f : File} (h : s.leaf? p = some f) :
    (pathExists p).exec s = (.ok true, s) := by
  have hg := Tree.leaf?_eq_some.mp h
  have hs := status_of_get? (s := s) (p := p) (by simp [hg])
  simp [pathExists, hs, hg]

theorem exec_pathExists_dir {p : Path} (h : s.get? p = some .dir) :
    (pathExists p).exec s = (.ok true, s) := by
  have hs := status_of_get? (s := s) (p := p) (by simp [h])
  simp [pathExists, hs, h]

/-- Where `exists` answers, it tells whether something is there. -/
theorem exec_pathExists_ok {p : Path} {b : Bool} (h : (pathExists p).exec s = (.ok b, t)) :
    t = s ∧ b = (s.get? p).isSome := by
  simp only [pathExists, Prog.exec_query, Prod.mk.injEq] at h
  obtain ⟨h, rfl⟩ := h
  refine ⟨rfl, ?_⟩
  unfold Tree.status at h
  split at h
  · rename_i hs
    split at hs
    · contradiction
    · cases hs
      exact (Except.ok.inj h).symm
  · contradiction

theorem exec_readFile_some {p : Path} {f : File} (h : s.leaf? p = some f) :
    (readFile p).exec s = (.ok f.data, s) := by
  have hg := Tree.leaf?_eq_some.mp h
  simp [readFile, hg]

theorem exec_readFile_ok {p : Path} {data : Bytes} (h : (readFile p).exec s = (.ok data, t)) :
    t = s ∧ ∃ f, s.leaf? p = some f ∧ f.data = data := by
  simp only [readFile, Prog.exec_query, Prod.mk.injEq] at h
  obtain ⟨h, rfl⟩ := h
  refine ⟨rfl, ?_⟩
  split at h
  · rename_i f hf
    exact ⟨f, Tree.leaf?_eq_some.mpr hf, Except.ok.inj h⟩
  · contradiction
  · contradiction

variable {G : FsEffect → Fs → Fs → Prop}

theorem pathExists_keeps (p : Path) :
    Keeps G (fun b t => t = s ∧ b = (s.get? p).isSome) (pathExists p) s := by
  refine Keeps.query fun b hb => ?_
  have hx : (pathExists p).exec s = (.ok b, s) := by
    simp only [pathExists, Prog.exec_query, hb]
  exact exec_pathExists_ok hx

theorem writeFileAtomic_keeps {umask : UInt32} (p : Path) (data : Bytes) (mode : UInt32)
    (hdir : ∀ p a b, G (.ensureDirectory p) a b)
    (hput : ∀ m a b, (∀ q, a.leaf? q = s.leaf? q) → G (.replace p data m) a b) :
    Keeps G (fun _ t => Frame (· = p) s t ∧ ∃ f, t.leaf? p = some f ∧ f.data = data)
      (writeFileAtomic umask p data mode) s := by
  simp only [writeFileAtomic, ensureDirectory, Prog.bind_eq]
  have hd : Keeps G (fun _ t => ∀ q, t.leaf? q = s.leaf? q)
      (Prog.perform (.ensureDirectory p.dropLast)) s :=
    Keeps.perform fun t ht => ⟨hdir _ s t, (FsEffect.ensureDirectory_ok ht).1.leaf?⟩
  refine Keeps.bind hd fun _ a ha => ?_
  refine Keeps.perform fun t ht => ⟨hput _ a t ha, fun q hq => ?_, ?_⟩
  · rw [(FsEffect.replace_ok ht).leaf?, if_neg hq, ha]
  · exact ⟨_, by rw [(FsEffect.replace_ok ht).leaf?, if_pos rfl], rfl⟩

end FileUtils

end Dpc
