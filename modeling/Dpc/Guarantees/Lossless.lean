import Dpc.Core.FailureFacts
import Dpc.Core.RestoreFacts
import Dpc.Guarantees.Sources
import Dpc.Guarantees.Verified

namespace Dpc
open Text FileTree Effects ManifestStore BackupEngine FileScanner

variable {env : Env} {repo s t : Fs} {target u : Fs}

namespace RestoreEngine

/-- Files with names of their own, none of them below another. -/
structure Apart (es : List (Path × File)) : Prop where
  ne : ∀ e ∈ es, e.1 ≠ []
  names : ∀ e ∈ es, ∀ n ∈ e.1, LexPath.IsName n
  free : ∀ e ∈ es, ∀ e' ∈ es, e.1 <+: e'.1 → e = e'

/-- The files of a tree, and no directory but those above them. -/
structure Restored (nameMax : NameMax) (t : Fs) (done : List (Path × File)) : Prop where
  nameMax : t.nameMax = nameMax
  leaf : ∀ q f, t.leaf? q = some f ↔ (q, f) ∈ done
  dirs : ∀ q, q ≠ [] → t.get? q = some .dir → ∃ e ∈ done, q <+: e.1 ∧ q ≠ e.1

/-- An entry of a manifest from which a file is read. -/
structure Restorable (env : Env) (repo : Fs) (e : Path × File) (file : FileManifest) : Prop where
  path : FileUtils.safeRelativePath file.relativePath "manifest relative_path" = .ok e.1
  read : ((readFile env file).exec repo).1 = .ok e.2.data
  mode : file.fileMode &&& 0o7777 = e.2.mode

theorem Restored.empty (nameMax : NameMax) : Restored nameMax (Tree.empty nameMax) [] where
  nameMax := rfl
  leaf q f := by
    have hnone : (Tree.empty nameMax : Fs).leaf? q = none := by
      by_cases hq : q = []
      · rw [hq]
        exact Tree.leaf?_eq_none_of_dir rfl
      · refine Tree.leaf?_eq_none_of_none ?_
        rw [← Tree.lookup_of_get? hq]
        rfl
    simp [hnone]
  dirs q hq hd := by
    rw [← Tree.lookup_of_get? hq] at hd
    cases hd

variable {done es : List (Path × File)} {e : Path × File} {file : FileManifest} {nameMax : NameMax}

theorem prefix_ne {p q : Path} (hp : p ≠ []) (h : q <+: p.dropLast) : q <+: p ∧ q ≠ p := by
  refine ⟨h.trans (List.dropLast_prefix p), ?_⟩
  rintro rfl
  have hlen := h.length_le
  have hpos := List.length_pos_iff.mpr hp
  rw [List.length_dropLast] at hlen
  omega

theorem Apart.mono {es' : List (Path × File)} (h : Apart es) (hs : es' ⊆ es) : Apart es' where
  ne e he := h.ne e (hs he)
  names e he := h.names e (hs he)
  free e he e' he' := h.free e (hs he) e' (hs he')

/-- The directory above the next file can be made. -/
theorem Restored.makeable (h : Restored nameMax t done) (ha : Apart (done ++ [e]))
    (hroom : Roomy nameMax e.1) : t.Makeable e.1.dropLast := by
  have he : e ∈ done ++ [e] := List.mem_concat_self
  refine ⟨fun q hq => ?_, fun n hn => ?_⟩
  · obtain ⟨hp, hne⟩ := prefix_ne (ha.ne e he) hq
    cases hleaf : t.leaf? q with
    | none => rfl
    | some f =>
      have hmem := List.mem_append_left [e] ((h.leaf q f).mp hleaf)
      exact absurd (congrArg Prod.fst (ha.free _ hmem e he hp)) hne
  · rw [h.nameMax]
    exact hroom.1 n hn

/-- No directory has the name of the next file. -/
theorem Restored.not_dir (h : Restored nameMax t done) (ha : Apart (done ++ [e])) : t.get? e.1 ≠ some .dir := by
  intro hd
  have he : e ∈ done ++ [e] := List.mem_concat_self
  obtain ⟨e', he', hp, hne⟩ := h.dirs e.1 (ha.ne e he) hd
  exact hne (congrArg Prod.fst (ha.free e he e' (List.mem_append_left _ he') hp))

theorem exec_setFileMode {p : Path} {f : File} (mode : UInt32) (h : t.leaf? p = some f) :
    ∃ t', (FileUtils.setFileMode p mode).exec t = (.ok (), t') ∧
      Tree.Put t t' p { f with mode := mode &&& 0o7777 } := by
  obtain ⟨t', ht'⟩ := Tree.modifyLeaf_succeeds (fun f : File => { f with mode := mode &&& 0o7777 }) h
  obtain ⟨f', hf', hput⟩ := Tree.modifyLeaf_ok ht'
  rw [h] at hf'
  cases hf'
  refine ⟨t', ?_, hput⟩
  rw [FileUtils.setFileMode, Prog.exec_perform]
  simp only [Effect.apply, FsEffect.apply, ht', orThrow]

/-- The file is written with its directories. -/
theorem Restored.write (h : Restored nameMax t done) (ha : Apart (done ++ [e]))
    (hroom : Roomy nameMax e.1) (umask mode : UInt32) (data : Bytes) :
    ∃ u v m, (FileUtils.writeFileAtomic umask e.1 data mode).exec t = (.ok (), v) ∧
      t.mkdirs e.1.dropLast = .ok u ∧ Tree.Put u v e.1 ⟨data, m⟩ := by
  have he : e ∈ done ++ [e] := List.mem_concat_self
  obtain ⟨d, n, hdn⟩ := (List.eq_nil_or_concat e.1).resolve_left (ha.ne _ he)
  rw [List.concat_eq_append] at hdn
  have hmake := h.makeable ha hroom
  have hdir := h.not_dir ha
  have hname := (ha.names e he n (by simp [hdn])).ne_nil
  rw [Roomy, hdn, List.getLast?_concat, Option.getD_some] at hroom
  rw [hdn, List.dropLast_concat] at hmake
  rw [hdn] at hdir
  have hput : t.Replaceable d n :=
    ⟨⟨hmake, h.nameMax ▸ badName_of_room hroom.2 hname, hdir⟩, h.nameMax ▸ hroom.2⟩
  have hwrite : ∃ x v, (FileUtils.writeFileAtomic umask (d ++ [n]) data mode).exec t = (.ok x, v) :=
    FileUtils.writeFileAtomic_iff.mpr hput
  obtain ⟨_, v, hv⟩ := hwrite
  rw [← hdn] at hv
  have hparts := hv
  simp only [FileUtils.writeFileAtomic, Prog.bind_eq] at hparts
  obtain ⟨_, u, hu, hx⟩ := Prog.exec_bind_ok hparts
  exact ⟨u, v, _, hv, FileUtils.ensureDirectory_iff.mp hu, FsEffect.replace_ok (Prog.exec_perform_ok hx)⟩

/-- The step lemma: one more file. -/
theorem Restored.restoreFile (h : Restored nameMax t done) (ha : Apart (done ++ [e]))
    (hroom : Roomy nameMax e.1) (hr : Restorable env repo e file) :
    ∃ t', (restoreFile env repo file).exec t = (.ok (), t') ∧ Restored nameMax t' (done ++ [e]) := by
  have he : e ∈ done ++ [e] := List.mem_concat_self
  obtain ⟨u, v, m, hwrite, hu, hv⟩ := h.write ha hroom env.umask file.fileMode e.2.data
  have hleaf : v.leaf? e.1 = some ⟨e.2.data, m⟩ := by rw [hv.leaf?, if_pos rfl]
  obtain ⟨t', hmode, ht'⟩ := exec_setFileMode file.fileMode hleaf
  have hgrown := (Tree.mkdirs_ok hu).1
  refine ⟨t', ?_, ?_, ?_, ?_⟩
  · have hread : (fromRepo repo (readFile env file)).exec t = (.ok e.2.data, t) := by
      rw [exec_fromRepo, hr.read]
    have hpath : (Prog.ofExcept (FileUtils.safeRelativePath file.relativePath
        "manifest relative_path") : Op _).exec t = (.ok e.1, t) := by
      rw [Prog.exec_ofExcept, hr.path]
    simp only [RestoreEngine.restoreFile, Prog.bind_eq]
    rw [Prog.exec_bind_of_ok hread, Prog.exec_bind_of_ok hpath, Prog.exec_bind_of_ok hwrite, hmode]
  · rw [ht'.nameMax, hv.nameMax, hgrown.nameMax, h.nameMax]
  · intro q f
    rw [ht'.leaf?, hv.leaf?, hgrown.leaf?, hr.mode, List.mem_append, List.mem_singleton]
    by_cases hq : q = e.1
    · rw [if_pos hq, Option.some.injEq]
      constructor
      · intro hf
        exact .inr (Prod.ext hq hf.symm)
      · rintro (hmem | rfl)
        · have hsame := ha.free _ (List.mem_append_left _ hmem) e he (hq ▸ List.prefix_rfl)
          rw [← hsame]
        · rfl
    · rw [if_neg hq, if_neg hq, h.leaf]
      refine ⟨.inl, fun hor => hor.resolve_right ?_⟩
      rintro rfl
      exact hq rfl
  · intro q hq hd
    rw [ht'.get?, hv.get?] at hd
    split at hd
    · cases hd
    rename_i hne
    rw [Tree.mkdirs_get? hu] at hd
    split at hd
    · rename_i hp
      exact ⟨e, he, (prefix_ne (ha.ne e he) hp).1, hne⟩
    · obtain ⟨e', he', hp⟩ := h.dirs q hq hd
      exact ⟨e', List.mem_append_left _ he', hp⟩

/-- The run lemma. -/
theorem Restored.restoreFiles {files : List FileManifest} (h : Restored nameMax t done)
    (ha : Apart (done ++ es)) (hroom : ∀ e ∈ es, Roomy nameMax e.1)
    (hr : List.Forall₂ (Restorable env repo) es files) :
    ∃ t', (restoreFiles env repo files).exec t = (.ok (), t') ∧ Restored nameMax t' (done ++ es) := by
  induction hr generalizing t done with
  | nil => exact ⟨t, rfl, by rwa [List.append_nil]⟩
  | @cons e file es files hfile _ ih =>
    have happ : done ++ e :: es = done ++ [e] ++ es := by simp
    rw [happ] at ha ⊢
    rw [List.forall_mem_cons] at hroom
    obtain ⟨u, hexec, hu⟩ := h.restoreFile (ha.mono (List.subset_append_left _ _)) hroom.1 hfile
    obtain ⟨t', hrest, ht'⟩ := ih hu ha hroom.2
    refine ⟨t', ?_, ht'⟩
    rw [RestoreEngine.restoreFiles, Prog.bind_eq, Prog.exec_bind_of_ok hexec, hrest]

end RestoreEngine

variable {now : UInt64} {fault : FaultStage} {w : World} {root base : Path} {mode : ChunkingMode}
  {r : BackupResult} {m : Manifest}

/-- A file of the source, its names below the base, and its entry in the manifest. -/
structure BackedEntry (env : Env) (t : Fs) (w : World) (base : Path) (e : Path × File)
    (file : FileManifest) : Prop where
  ne : e.1 ≠ []
  names : ∀ n ∈ e.1, LexPath.IsName n
  there : w.tree.get? (base ++ e.1) = some (.leaf (.file e.2))
  path : file.relativePath = joinWith LexPath.slash e.1
  mode : file.fileMode = e.2.mode &&& 0o777
  read : ((RestoreEngine.readFile env file).exec t).1 = .ok e.2.data

theorem BackedEntry.unique {e e' : Path × File} {file : FileManifest}
    (h : BackedEntry env t w base e file) (h' : BackedEntry env t w base e' file) : e = e' := by
  have hpath := LexPath.joinWith_slash_injective h.ne h'.ne (fun n hn => (h.names n hn).noslash)
    (fun n hn => (h'.names n hn).noslash) (h.path.symm.trans h'.path)
  have hthere := h.there
  rw [hpath, h'.there, Option.some.injEq, Node.leaf.injEq, Entry.file.injEq] at hthere
  exact Prod.ext hpath hthere.symm

/-- The bytes of a file that was backed up are read from the repository. -/
theorem BackupEngine.BackedUp.exec_readFile {data : Bytes} {scanned : ScannedFile}
    {file : FileManifest} (hevp : env.evp.Incremental) (h : BackedUp env t mode data scanned file)
    (hsize : scanned.fileSize = .ok (size data)) :
    ((RestoreEngine.readFile env file).exec t).1 = .ok data := by
  have hfile : file.fileSize = size data := by
    have hs := h.described.size_eq
    rw [hsize] at hs
    exact (Except.ok.inj hs).symm
  have hlen := (Compressor.allocate_ok.mp h.described.fits).1
  refine (RestoreEngine.readFile_iff hevp).mpr ⟨?_, _, h.holds, ?_, h.flat.symm⟩
  · rw [hfile, toNat_size (by omega)]
    exact h.described.fits
  · rw [h.flat, hfile]

/-- Every file below the base has an entry, and every entry has a file. -/
structure BackedFiles (env : Env) (t : Fs) (w : World) (base : Path) (files : List FileManifest) : Prop where
  all : ∀ file ∈ files, ∃ e, BackedEntry env t w base e file
  there : ∀ rest f, w.tree.get? (base ++ rest) = some (.leaf (.file f)) →
    ∃ file ∈ files, BackedEntry env t w base (rest, f) file

theorem BackupEngine.Described.entered {D : Bytes → Prop} {files : List ScannedFile}
    {entered : List FileManifest} (hz : env.zstd.Lawful) (hevp : env.evp.Incremental)
    (hcol : env.evp.NoCollision fun raw => D raw ∨ Unpacked env s raw)
    (hD : ∀ raw, D raw → raw.length < 2 ^ 63) (hscan : scanRegularFiles w root = .ok files)
    (hbase : w.canonical root = .ok base) (hlinks : ∀ p ∈ accepted w base, ¬IsLink w p)
    (h : Described env mode D s t files entered) : BackedFiles env t w base entered := by
  have hfiles := h.backedUp hz hcol hD
  obtain ⟨base', found, hbase', hdir, hperm, hfound⟩ := scanRegularFiles_ok hscan
  rw [hbase] at hbase'
  cases hbase'
  have hentered : ∀ scanned file p q f data, p ∈ accepted w base →
      ScannedFrom w base p scanned q f → BackedUp env t mode data scanned file →
      ∃ rest, p = base ++ rest ∧ BackedEntry env t w base (rest, f) file := by
    intro scanned file p q f data hp hfrom hb
    obtain ⟨rest, hr, he, hsome⟩ := mem_entries.mp (mem_accepted.mp hp).1
    obtain ⟨rfl, hg⟩ := regular_of_not_link hfrom.regular hsome (hlinks p hp)
    have hdata : data = f.data := by
      have hread := hb.described.read_eq
      rw [hfrom.read] at hread
      exact (Except.ok.inj hread).symm
    subst hdata
    refine ⟨rest, he, hr, fun n hn => w.names _ hsome n (by simp [he, hn]), he ▸ hg, ?_, ?_, ?_⟩
    · rw [hb.described.path_eq, hfrom.path, relativePath, he, LexPath.lexicallyRelative_below hr]
    · have hmode := hb.described.mode_eq
      rw [hfrom.mode] at hmode
      exact (Except.ok.inj hmode).symm
    · exact hb.exec_readFile hevp hfrom.size
  refine ⟨fun file hf => ?_, fun rest f hg => ?_⟩
  · obtain ⟨scanned, hs, data, hb⟩ := hfiles.exists_left hf
    obtain ⟨p, hp, q, f, hfrom⟩ := hfound.exists_left (hperm.mem_iff.mp hs)
    obtain ⟨rest, _, he⟩ := hentered scanned file p q f data hp hfrom hb
    exact ⟨_, he⟩
  · have hr : rest ≠ [] := by
      rintro rfl
      rw [List.append_nil, hdir] at hg
      cases hg
    obtain ⟨hp, _⟩ := mem_accepted_of_file hr rfl hg
    obtain ⟨scanned, hs, q, f', hfrom⟩ := hfound.exists_right hp
    obtain ⟨file, hf, data, hb⟩ := hfiles.exists_right (hperm.mem_iff.mpr hs)
    obtain ⟨rest', he, hent⟩ := hentered scanned file _ q f' data hp hfrom hb
    rw [List.append_cancel_left_eq] at he
    subst he
    refine ⟨file, hf, ?_⟩
    have hthere := hent.there
    rw [hg] at hthere
    cases hthere
    exact hent

theorem BackupEngine.Created.entered (hz : env.zstd.Lawful) (hevp : env.evp.Incremental)
    (hcol : env.evp.NoCollision (Involved env s mode (.ofWorld w root)))
    (hbase : w.canonical root = .ok base) (hlinks : ∀ p ∈ accepted w base, ¬IsLink w p)
    (h : Created env now (.ofWorld w root) mode s t m) : BackedFiles env t w base m.files := by
  obtain ⟨files, hscan, hd⟩ := h.described
  have hcol' : env.evp.NoCollision fun raw => ChunkOf mode files raw ∨ Unpacked env s raw :=
    fun a b ha hb => hcol a b (.of_chunkOf hscan ha) (.of_chunkOf hscan hb)
  exact hd.entered hz hevp hcol' (fun _ => length_lt_of_chunkOf hd.files) hscan hbase hlinks

/-- The entries of a backup are apart from each other. -/
theorem BackedEntry.apart {es : List (Path × File)} {files : List FileManifest}
    (h : List.Forall₂ (BackedEntry env t w base) es files) : RestoreEngine.Apart es where
  ne e he := by
    obtain ⟨file, _, hent⟩ := h.exists_right he
    exact hent.ne
  names e he := by
    obtain ⟨file, _, hent⟩ := h.exists_right he
    exact hent.names
  free e he e' he' hp := by
    obtain ⟨file, _, hent⟩ := h.exists_right he
    obtain ⟨file', _, hent'⟩ := h.exists_right he'
    obtain ⟨rest, hrest⟩ := hp
    have hthere' := hent'.there
    rw [← hrest, ← List.append_assoc] at hthere'
    by_cases hr : rest = []
    · subst hr
      rw [List.append_nil] at hrest hthere'
      rw [hent.there, Option.some.injEq, Node.leaf.injEq, Entry.file.injEq] at hthere'
      exact Prod.ext hrest hthere'
    · have hdir := w.tree.dir_of_prefix hr (by rw [hthere']; simp)
      rw [hent.there] at hdir
      cases hdir

namespace BackedFiles

variable {files : List FileManifest} {version : UInt64}

/-- An entry of a file is well formed once its path is the one that was printed. -/
theorem safePath (h : BackedFiles env t w base files) (hf : file ∈ files) :
    FileUtils.SafePath file.relativePath := by
  obtain ⟨e, he⟩ := h.all file hf
  rw [he.path]
  exact safePath_below he.ne he.names

end BackedFiles

theorem base_plain : plainWorld.canonical [ascii "data"] = .ok [ascii "data"] := by decide +kernel

theorem accepted_plain : accepted plainWorld [ascii "data"] = [[ascii "data", ascii "a.txt"]] := by
  decide +kernel

theorem file_plain : plainWorld.tree.get? [ascii "data", ascii "a.txt"] =
    some (.leaf (.file ⟨ascii "a", 0o644⟩)) := by decide +kernel

theorem links_plain : ∀ p ∈ accepted plainWorld [ascii "data"], ¬IsLink plainWorld p := by
  intro p hp
  rw [accepted_plain, List.mem_singleton] at hp
  rintro ⟨absolute, target, hl⟩
  rw [hp, file_plain] at hl
  cases hl

/-- Where the source is one file of one letter, only one byte string is hashed. -/
theorem letter_noCollision {p : Path} (hroot : w.canonical root = .ok base)
    (haccepted : accepted w base = [p]) (hfile : w.regular p = some (p, ⟨ascii "a", 0o644⟩)) :
    letterEnv.evp.NoCollision (Involved letterEnv emptyRepo .fixed (.ofWorld w root)) := by
  refine @Evp.noCollision_of_eq _ _ (ascii "a") fun raw hr => ?_
  rcases hr with ⟨files, hscan, scanned, hs, data, hread, hraw⟩ | hold
  · have hscan' : scanRegularFiles w root = .ok files := hscan
    obtain ⟨base', found, hbase, _, hperm, hfound⟩ := scanRegularFiles_ok hscan'
    rw [hroot] at hbase
    cases hbase
    obtain ⟨p', hp, q, f, hfrom⟩ := hfound.exists_left (hperm.mem_iff.mp hs)
    rw [haccepted, List.mem_singleton] at hp
    have hreg := hfrom.regular
    rw [hp, hfile, Option.some.injEq, Prod.mk.injEq] at hreg
    have hdata : data = ascii "a" := by
      have hr := hfrom.read
      rw [hread, ← hreg.2] at hr
      exact Except.ok.inj hr
    have hpieces : (chunkFile .fixed (ascii "a")).map Chunk.data = [ascii "a"] := by
      decide +kernel
    rw [hdata, hpieces, List.mem_singleton] at hraw
    exact hraw
  · exact absurd hold not_unpacked_emptyRepo

theorem plain_noCollision : letterEnv.evp.NoCollision
    (Involved letterEnv emptyRepo .fixed (.ofWorld plainWorld [ascii "data"])) :=
  letter_noCollision base_plain accepted_plain (by decide +kernel)

end Dpc
