import Dpc.Core.ManifestRoundTrip
import Dpc.Lib.Lists
import Dpc.Network.SessionFacts
import Mathlib.Data.List.Perm.Basic

namespace Dpc.SessionIndex
open Text FileTree Effects ManifestStore

theorem byGlobal_concat (rs : List ReceivedChunkRecord) (r : ReceivedChunkRecord) :
    byGlobal (rs ++ [r]) = (byGlobal rs).insert r.globalIndex r := by
  simp [byGlobal]

theorem getElem?_byGlobal_concat (rs : List ReceivedChunkRecord) (r : ReceivedChunkRecord)
    (i : UInt64) :
    (byGlobal (rs ++ [r]))[i]? = if r.globalIndex = i then some r else (byGlobal rs)[i]? := by
  rw [byGlobal_concat, Std.TreeMap.getElem?_insert]
  simp only [Std.compare_eq_iff_eq]

theorem mem_of_byGlobal {rs : List ReceivedChunkRecord} {i : UInt64} {r : ReceivedChunkRecord}
    (h : (byGlobal rs)[i]? = some r) : r ∈ rs ∧ r.globalIndex = i := by
  induction rs using List.reverseRecOn with
  | nil => simp [byGlobal] at h
  | append_singleton rs x ih =>
    rw [getElem?_byGlobal_concat] at h
    split at h
    · rename_i hi
      cases h
      exact ⟨by simp, hi⟩
    · obtain ⟨hm, hi⟩ := ih h
      exact ⟨by simp [hm], hi⟩

/-- The records that count, in the order of their indices. -/
def ordered (rs : List ReceivedChunkRecord) : List ReceivedChunkRecord :=
  (byGlobal rs).toList.map (·.2)

theorem mem_ordered {rs : List ReceivedChunkRecord} {r : ReceivedChunkRecord} :
    r ∈ ordered rs ↔ (byGlobal rs)[r.globalIndex]? = some r := by
  simp only [ordered, List.mem_map]
  constructor
  · intro ⟨e, he, hr⟩
    obtain ⟨i, x⟩ := e
    cases hr
    have hx := Std.TreeMap.mem_toList_iff_getElem?_eq_some.mp he
    rw [(mem_of_byGlobal hx).2, hx]
  · intro h
    exact ⟨_, Std.TreeMap.mem_toList_iff_getElem?_eq_some.mpr h, rfl⟩

theorem mem_of_mem_ordered {rs : List ReceivedChunkRecord} {r : ReceivedChunkRecord}
    (h : r ∈ ordered rs) : r ∈ rs := (mem_of_byGlobal (mem_ordered.mp h)).1

/-- What a record makes of the entry of its file. -/
def addTo (entry : Option FileManifest) (r : ReceivedChunkRecord) : FileManifest :=
  let file := entry.getD emptyFile
  let file :=
    if file.relativePath = [] then
      { file with
        relativePath := r.relativePath, fileSize := r.fileSize, fileMode := r.fileMode
        fileSha256 := r.fileSha256 }
    else file
  { file with chunks := file.chunks ++ [refOf r] }

theorem getElem?_group (g : Grouped) (r : ReceivedChunkRecord) (p : Bytes) :
    (group g r).files[p]? =
      if r.relativePath = p then some (addTo g.files[p]? r) else g.files[p]? := by
  have hfiles : (group g r).files =
      g.files.insert r.relativePath (addTo g.files[r.relativePath]? r) := by
    simp only [group, addTo, Std.TreeMap.getD_eq_getD_getElem?]
  rw [hfiles, Std.TreeMap.getElem?_insert]
  simp only [Std.compare_eq_iff_eq]
  split
  · rename_i he
    rw [he]
  · rfl

/-- The entry of a file depends on the records with its path only. -/
theorem getElem?_groups (rs : List ReceivedChunkRecord) (g : Grouped) (p : Bytes) :
    (rs.foldl group g).files[p]? =
      (rs.filter (·.relativePath == p)).foldl (fun entry r => some (addTo entry r))
        g.files[p]? := by
  induction rs generalizing g with
  | nil => rfl
  | cons r rs ih =>
    rw [List.foldl_cons, ih, getElem?_group]
    by_cases hp : r.relativePath = p
    · simp [hp]
    · simp [hp]

/-- The chunks of the entry that some records make. -/
theorem chunks_foldl {rs : List ReceivedChunkRecord} {entry : Option FileManifest}
    {file : FileManifest} (h : rs.foldl (fun entry r => some (addTo entry r)) entry = some file) :
    file.chunks = (entry.getD emptyFile).chunks ++ rs.map refOf := by
  induction rs generalizing entry with
  | nil =>
    rw [List.foldl_nil] at h
    simp [h]
  | cons r rs ih =>
    have hadd : (addTo entry r).chunks = (entry.getD emptyFile).chunks ++ [refOf r] := by
      unfold addTo
      dsimp only
      split
      · rfl
      · rfl
    rw [ih h, Option.getD_some, hadd]
    simp

/-- The path of the entry that the records of one path make. -/
theorem path_foldl {p : Bytes} {rs : List ReceivedChunkRecord} {entry : Option FileManifest}
    {file : FileManifest} (h : rs.foldl (fun entry r => some (addTo entry r)) entry = some file)
    (hp : ∀ r ∈ rs, r.relativePath = p) (he : ∀ f ∈ entry, f.relativePath = p) :
    file.relativePath = p := by
  induction rs generalizing entry with
  | nil => exact he file h
  | cons r rs ih =>
    refine ih h (fun x hx => hp x (List.mem_cons_of_mem r hx)) ?_
    intro f hf
    cases hf
    have hr := hp r List.mem_cons_self
    cases entry with
    | none => simpa [addTo, emptyFile] using hr
    | some f =>
      have hf := he f rfl
      simp only [addTo, Option.getD_some]
      split
      · exact hr
      · exact hf

/-- The entry that records of one file make: the first tells about the file, and each
has its chunk. -/
def entryOf (first : ReceivedChunkRecord) (rs : List ReceivedChunkRecord) : FileManifest :=
  ⟨first.relativePath, first.fileSize, first.fileMode, first.fileSha256, rs.map refOf⟩

theorem foldl_addTo_some {file : FileManifest} (hp : file.relativePath ≠ [])
    (rs : List ReceivedChunkRecord) :
    rs.foldl (fun entry r => some (addTo entry r)) (some file) =
      some { file with chunks := file.chunks ++ rs.map refOf } := by
  induction rs generalizing file with
  | nil => simp
  | cons r rs ih =>
    have hadd : addTo (some file) r = { file with chunks := file.chunks ++ [refOf r] } := by
      simp [addTo, hp]
    have hrest : rs.foldl (fun entry r => some (addTo entry r))
        (some { file with chunks := file.chunks ++ [refOf r] }) = _ := ih hp
    rw [List.foldl_cons, hadd, hrest]
    simp

theorem foldl_addTo_none {r : ReceivedChunkRecord} (hp : r.relativePath ≠ [])
    (rs : List ReceivedChunkRecord) :
    (r :: rs).foldl (fun entry r => some (addTo entry r)) none = some (entryOf r (r :: rs)) := by
  have hadd : addTo none r = entryOf r [r] := by
    simp [addTo, emptyFile, entryOf]
  rw [List.foldl_cons, hadd, foldl_addTo_some (by exact hp)]
  simp [entryOf]

variable {env : Env} {sessionId : Bytes} {version now : UInt64} {rs : List ReceivedChunkRecord}
  {file : FileManifest}

theorem mem_files (h : file ∈ (manifestOf env sessionId version now rs).files) :
    ∃ p entry, ((ordered rs).filter (·.relativePath == p)).foldl
      (fun entry r => some (addTo entry r)) none = some entry ∧ file = sortChunks env entry := by
  simp only [manifestOf, List.mem_map] at h
  obtain ⟨e, he, rfl⟩ := h
  obtain ⟨p, entry⟩ := e
  have hget := Std.TreeMap.mem_toList_iff_getElem?_eq_some.mp he
  have hfold := getElem?_groups (ordered rs) ⟨∅, [], 0, 0⟩ p
  rw [ordered, hget] at hfold
  have hempty : (∅ : Std.TreeMap Bytes FileManifest)[p]? = none := by simp
  rw [hempty] at hfold
  exact ⟨p, entry, hfold.symm, rfl⟩

theorem perm_sortChunks : (sortChunks env file).chunks.Perm file.chunks := env.chunkOrder.perm _

theorem mem_sortChunks {ref : ChunkRef} : ref ∈ (sortChunks env file).chunks ↔ ref ∈ file.chunks :=
  perm_sortChunks.mem_iff

/-- Every chunk of the manifest was recorded. -/
theorem recorded_of_mem_chunks {ref : ChunkRef}
    (h : file ∈ (manifestOf env sessionId version now rs).files) (hr : ref ∈ file.chunks) :
    ∃ r ∈ rs, ref = refOf r := by
  obtain ⟨p, entry, hfold, rfl⟩ := mem_files h
  rw [mem_sortChunks, chunks_foldl hfold, Option.getD_none, emptyFile, List.nil_append] at hr
  obtain ⟨r, hm, he⟩ := List.mem_map.mp hr
  exact ⟨r, mem_of_mem_ordered (List.mem_filter.mp hm).1, he.symm⟩

/-- The first of the records of a file. -/
def IsFirst (rs : List ReceivedChunkRecord) (r : ReceivedChunkRecord) : Prop :=
  rs.find? (·.relativePath == r.relativePath) = some r

/-- All records of the file of a record. -/
def sameFile (rs : List ReceivedChunkRecord) (r : ReceivedChunkRecord) :
    List ReceivedChunkRecord := rs.filter (·.relativePath == r.relativePath)

theorem IsFirst.mem {r : ReceivedChunkRecord} (h : IsFirst rs r) : r ∈ rs :=
  List.mem_of_find?_eq_some h

theorem sameFile_cons {r : ReceivedChunkRecord} (h : IsFirst rs r) :
    ∃ tail, sameFile rs r = r :: tail := by
  have hhead : (sameFile rs r).head? = some r := by
    rw [sameFile, List.head?_filter]
    exact h
  exact List.head?_eq_some_iff.mp hhead

theorem exists_first {r : ReceivedChunkRecord} (h : r ∈ rs) :
    ∃ first, IsFirst rs first ∧ first.relativePath = r.relativePath := by
  cases hf : rs.find? (·.relativePath == r.relativePath) with
  | none =>
    have := List.find?_eq_none.mp hf r h
    simp at this
  | some first =>
    have hp := List.find?_some hf
    rw [beq_iff_eq] at hp
    exact ⟨first, by rw [IsFirst, hp, hf], hp⟩

/-- The files of a manifest are those of the records that come first. -/
theorem mem_files_iff (hp : ∀ r ∈ rs, r.relativePath ≠ []) :
    file ∈ (manifestOf env sessionId version now rs).files ↔
      ∃ first, IsFirst (ordered rs) first ∧
        file = sortChunks env (entryOf first (sameFile (ordered rs) first)) := by
  have hfold : ∀ first, IsFirst (ordered rs) first →
      (sameFile (ordered rs) first).foldl (fun entry r => some (addTo entry r)) none =
        some (entryOf first (sameFile (ordered rs) first)) := by
    intro first hfirst
    obtain ⟨tail, htail⟩ := sameFile_cons hfirst
    rw [htail]
    exact foldl_addTo_none (hp first (mem_of_mem_ordered hfirst.mem)) tail
  constructor
  · intro h
    obtain ⟨p, entry, he, rfl⟩ := mem_files h
    cases hfilter : (ordered rs).filter (·.relativePath == p) with
    | nil =>
      rw [hfilter] at he
      contradiction
    | cons first tail =>
      have hfirst : (ordered rs).find? (·.relativePath == p) = some first := by
        rw [← List.head?_filter, hfilter, List.head?_cons]
      have hpath := List.find?_some hfirst
      rw [beq_iff_eq] at hpath
      subst hpath
      have hentry := hfold first hfirst
      rw [sameFile, he] at hentry
      exact ⟨first, hfirst, by rw [Option.some.inj hentry, sameFile]⟩
  · intro ⟨first, hfirst, he⟩
    have hget : ((ordered rs).foldl group ⟨∅, [], 0, 0⟩).files[first.relativePath]? =
        some (entryOf first (sameFile (ordered rs) first)) := by
      rw [getElem?_groups, ← hfold first hfirst]
      simp [sameFile]
    rw [he]
    simp only [manifestOf, List.mem_map]
    exact ⟨_, Std.TreeMap.mem_toList_iff_getElem?_eq_some.mpr hget, rfl⟩

theorem length_ordered_le (rs : List ReceivedChunkRecord) : (ordered rs).length ≤ rs.length := by
  rw [ordered, List.length_map, Std.TreeMap.length_toList]
  induction rs using List.reverseRecOn with
  | nil => simp [byGlobal]
  | append_singleton rs r ih =>
    have hle : ((byGlobal rs).insert r.globalIndex r).size ≤ (byGlobal rs).size + 1 :=
      Std.TreeMap.size_insert_le
    rw [byGlobal_concat, List.length_append, List.length_singleton]
    omega

theorem length_files_le : (manifestOf env sessionId version now rs).files.length ≤ rs.length := by
  have hsize : ∀ (rs : List ReceivedChunkRecord) (g : Grouped),
      (rs.foldl group g).files.size ≤ g.files.size + rs.length := by
    intro rs
    induction rs with
    | nil => simp
    | cons r rs ih =>
      intro g
      have hle : (group g r).files.size ≤ g.files.size + 1 := Std.TreeMap.size_insert_le
      have := ih (group g r)
      rw [List.foldl_cons, List.length_cons]
      omega
  have hall := hsize (ordered rs) ⟨∅, [], 0, 0⟩
  have hle := length_ordered_le rs
  have hempty : (∅ : Std.TreeMap Bytes FileManifest).size = 0 := by simp
  rw [hempty] at hall
  simp only [manifestOf, List.length_map, Std.TreeMap.length_toList]
  rw [ordered] at hall hle
  omega

theorem length_of_parseRecords {fuel : Nat} {bs : Bytes} (h : parseRecords fuel bs = .ok rs) :
    rs.length ≤ fuel := by
  induction fuel generalizing bs rs with
  | zero =>
    cases h
    simp
  | succ fuel ih =>
    unfold parseRecords at h
    split at h
    · cases h
      simp
    split at h
    · split at h
      · contradiction
      · simp only [bind, Except.bind, pure, Except.pure] at h
        split at h
        · contradiction
        split at h
        · contradiction
        split at h
        · contradiction
        · rename_i records hrecords
          cases h
          have := ih hrecords
          simp only [List.length_cons]
          omega
    · split at h
      · have := ih h
        omega
      · contradiction

theorem length_sortChunks : (sortChunks env file).chunks.length = file.chunks.length :=
  perm_sortChunks.length_eq

theorem mem_chunks_entryOf {first : ReceivedChunkRecord} {ref : ChunkRef} :
    ref ∈ (sortChunks env (entryOf first (sameFile rs first))).chunks ↔
      ∃ r ∈ rs, r.relativePath = first.relativePath ∧ ref = refOf r := by
  rw [mem_sortChunks]
  simp only [entryOf, sameFile, List.mem_map, List.mem_filter, beq_iff_eq]
  constructor
  · intro ⟨r, ⟨hm, hp⟩, he⟩
    exact ⟨r, hm, hp, he.symm⟩
  · intro ⟨r, hm, hp, he⟩
    exact ⟨r, ⟨hm, hp⟩, he.symm⟩

theorem manifestOf_printable (hw : ∀ r ∈ rs, Writable r) (hlen : rs.length < 2 ^ 64) :
    Printable (manifestOf env sessionId version now rs) := by
  have hroot : (manifestOf env sessionId version now rs).sourceRoot ≠ [] := by
    have hne : ascii "network-session:" ≠ [] := by decide
    exact List.append_ne_nil_of_left_ne_nil hne sessionId
  refine ⟨hroot, fun file hf => ?_, Nat.lt_of_le_of_lt length_files_le hlen⟩
  obtain ⟨first, hfirst, rfl⟩ := (mem_files_iff fun r hr => (hw r hr).path).mp hf
  have hwf := hw first (mem_of_mem_ordered hfirst.mem)
  refine ⟨hwf.path, hwf.fileSha, fun ref hr => ?_, ?_⟩
  · obtain ⟨r, hm, _, rfl⟩ := mem_chunks_entryOf.mp hr
    have hr := hw r (mem_of_mem_ordered hm)
    exact ⟨hr.sha, hr.object⟩
  · have hle := length_ordered_le rs
    have hsub : (sameFile (ordered rs) first).length ≤ (ordered rs).length := List.length_filter_le _ _
    rw [length_sortChunks]
    simp only [entryOf, List.length_map]
    omega

/-- The reader takes the paths that were recorded, and the hash of each file that came first. -/
def Readable (rs : List ReceivedChunkRecord) : Prop :=
  ∀ r ∈ rs, FileUtils.SafePath r.relativePath ∧
    (IsFirst rs r → Hash.isSha256Hex r.fileSha256 = true)

theorem wellFormed_iff (hp : ∀ r ∈ rs, r.relativePath ≠ [])
    (hc : ∀ r ∈ rs, WellFormedChunk (refOf r)) :
    (∀ file ∈ (manifestOf env sessionId version now rs).files, WellFormedFile file) ↔
      Readable (ordered rs) := by
  constructor
  · intro hall r hr
    obtain ⟨first, hfirst, hpath⟩ := exists_first hr
    have hfile : ∀ x, IsFirst (ordered rs) x →
        WellFormedFile (sortChunks env (entryOf x (sameFile (ordered rs) x))) := fun x hx =>
      hall _ ((mem_files_iff hp).mpr ⟨x, hx, rfl⟩)
    refine ⟨?_, fun hself => (hfile r hself).sha⟩
    rw [← hpath]
    exact (hfile first hfirst).path
  · intro hread file hf
    obtain ⟨first, hfirst, rfl⟩ := (mem_files_iff hp).mp hf
    obtain ⟨hsafe, hsha⟩ := hread first hfirst.mem
    refine ⟨hsafe, hsha hfirst, fun ref hr => ?_⟩
    obtain ⟨r, hm, _, rfl⟩ := mem_chunks_entryOf.mp hr
    exact hc r (mem_of_mem_ordered hm)

theorem index_ordered : (ordered rs).map (·.globalIndex) = (byGlobal rs).keys := by
  rw [ordered, List.map_map, ← Std.TreeMap.map_fst_toList_eq_keys]
  apply List.map_congr_left
  intro e he
  exact (mem_of_byGlobal (Std.TreeMap.mem_toList_iff_getElem?_eq_some.mp he)).2

theorem path_of_mem_files (h : file ∈ (manifestOf env sessionId version now rs).files) :
    file.chunks.Perm (((ordered rs).filter (·.relativePath == file.relativePath)).map refOf) := by
  obtain ⟨p, entry, hfold, rfl⟩ := mem_files h
  have hpath : entry.relativePath = p := by
    apply path_foldl hfold
    · intro r hr
      simpa using (List.mem_filter.mp hr).2
    · intro f hf
      contradiction
  have hchunks := chunks_foldl hfold
  rw [Option.getD_none, emptyFile, List.nil_append] at hchunks
  have hperm : (sortChunks env entry).chunks.Perm entry.chunks := perm_sortChunks
  rw [hchunks, ← hpath] at hperm
  exact hperm

theorem sorted_chunks (h : file ∈ (manifestOf env sessionId version now rs).files) :
    file.chunks.Pairwise fun a b => a.chunkIndex ≤ b.chunkIndex := by
  obtain ⟨p, entry, _, rfl⟩ := mem_files h
  exact env.chunkOrder.sorted _

/-- The entries of the files, by path. -/
theorem paths_files : (manifestOf env sessionId version now rs).files.map (·.relativePath) =
    ((ordered rs).foldl group ⟨∅, [], 0, 0⟩).files.keys := by
  rw [← Std.TreeMap.map_fst_toList_eq_keys]
  simp only [manifestOf, List.map_map]
  apply List.map_congr_left
  intro e he
  have hget := Std.TreeMap.mem_toList_iff_getElem?_eq_some.mp he
  rw [getElem?_groups] at hget
  have hnone : (∅ : Std.TreeMap Bytes FileManifest)[e.1]? = none := by simp
  rw [hnone] at hget
  apply path_foldl hget
  · intro r hr
    simpa using (List.mem_filter.mp hr).2
  · intro f hf
    contradiction

theorem nodup_paths : ((manifestOf env sessionId version now rs).files.map (·.relativePath)).Nodup := by
  rw [paths_files]
  exact Std.TreeMap.nodup_keys

theorem path_mem_paths {r : ReceivedChunkRecord} (h : r ∈ ordered rs) :
    r.relativePath ∈ (manifestOf env sessionId version now rs).files.map (·.relativePath) := by
  rw [paths_files, Std.TreeMap.mem_keys, Std.TreeMap.mem_iff_isSome_getElem?, getElem?_groups]
  have hmem : r ∈ (ordered rs).filter (·.relativePath == r.relativePath) :=
    List.mem_filter.mpr ⟨h, by simp⟩
  obtain ⟨front, last, he⟩ := (List.eq_nil_or_concat' _).resolve_left (List.ne_nil_of_mem hmem)
  rw [he, List.foldl_append]
  rfl

/-- The chunks of a manifest with their paths, over all files, are those of the records that
count. -/
theorem told_manifestOf {β : Type} (f : Bytes → ChunkRef → β) :
    ((manifestOf env sessionId version now rs).files.flatMap fun file =>
      file.chunks.map (f file.relativePath)).Perm
        ((ordered rs).map fun r => f r.relativePath (refOf r)) := by
  have hfiles : ((manifestOf env sessionId version now rs).files.flatMap fun file =>
      file.chunks.map (f file.relativePath)).Perm
      ((manifestOf env sessionId version now rs).files.flatMap fun file =>
        ((ordered rs).filter (·.relativePath == file.relativePath)).map fun r =>
          f r.relativePath (refOf r)) := by
    refine List.Perm.flatMap_left _ fun file hf => ?_
    have hchunks := (path_of_mem_files hf).map (f file.relativePath)
    rw [List.map_map] at hchunks
    refine hchunks.trans (List.Perm.of_eq (List.map_congr_left fun r hr => ?_))
    rw [Function.comp_apply, eq_of_beq (List.mem_filter.mp hr).2]
  have hpaths : ∀ r ∈ ordered rs, r.relativePath ∈
      (manifestOf env sessionId version now rs).files.map (·.relativePath) := fun r hr => path_mem_paths hr
  have hkeys := List.flatMap_filter_perm_self ReceivedChunkRecord.relativePath nodup_paths hpaths
  rw [List.flatMap_map] at hkeys
  rw [← List.map_flatMap] at hfiles
  exact hfiles.trans (hkeys.map fun r => f r.relativePath (refOf r))

/-- The chunks of a manifest, over all files, are those of the records that count. -/
theorem refs_manifestOf : ((manifestOf env sessionId version now rs).files.flatMap (·.chunks)).Perm
    ((ordered rs).map refOf) := by
  have htold : ((manifestOf env sessionId version now rs).files.flatMap fun file =>
      file.chunks.map id).Perm ((ordered rs).map refOf) := told_manifestOf fun _ => id
  simpa using htold

end Dpc.SessionIndex
