import Dpc.Core.BackupFacts
import Dpc.Lib.Groups
import Dpc.Network.GroupFacts

/-! Records that come file by file, as a client sends them, are grouped into these files again. -/

namespace Dpc.SessionIndex
open Text FileTree Effects ManifestStore

variable {env : Env} {sessionId : Bytes} {version now : UInt64} {rs : List ReceivedChunkRecord}
  {groups : List (List ReceivedChunkRecord)} {file : FileManifest}

theorem byGlobal_of_increasing (h : rs.Pairwise (·.globalIndex < ·.globalIndex)) :
    ∀ r ∈ rs, (byGlobal rs)[r.globalIndex]? = some r := by
  induction rs using List.reverseRecOn with
  | nil => simp
  | append_singleton rs x ih =>
    obtain ⟨hfront, _, hlast⟩ := List.pairwise_append.mp h
    intro r hr
    rw [getElem?_byGlobal_concat]
    rcases List.mem_append.mp hr with hr | hr
    · have hlt := hlast r hr x List.mem_cons_self
      rw [if_neg fun he => UInt64.lt_irrefl _ (he ▸ hlt)]
      exact ih hfront r hr
    · rw [List.mem_singleton.mp hr, if_pos rfl]

/-- Records with growing indices all count, in their order. -/
theorem ordered_of_increasing (h : rs.Pairwise (·.globalIndex < ·.globalIndex)) : ordered rs = rs := by
  have hsorted : (ordered rs).Pairwise (·.globalIndex < ·.globalIndex) := by
    have hkeys := Std.TreeMap.ordered_keys (t := byGlobal rs)
    rw [← index_ordered, List.pairwise_map] at hkeys
    exact hkeys.imp fun h => Std.compare_eq_lt.mp h
  have hirrefl : Std.Irrefl fun a b : ReceivedChunkRecord => a.globalIndex < b.globalIndex :=
    ⟨fun a => UInt64.lt_irrefl a.globalIndex⟩
  refine hsorted.eq_of_mem_iff h fun r => ?_
  rw [mem_ordered]
  exact ⟨fun hr => (mem_of_byGlobal hr).1, byGlobal_of_increasing h r⟩

/-- The entry of a file whose records these are. -/
def fileOf : List ReceivedChunkRecord → FileManifest
  | [] => emptyFile
  | r :: rs => entryOf r (r :: rs)

theorem path_ne_of_lt {p q : Bytes} (h : compare p q = .lt) : p ≠ q := by
  intro he
  have hself : compare q q = .eq := Std.ReflCmp.compare_self
  rw [he, hself] at h
  contradiction

/-- Records that come file by file, with the chunks of each in order, and the files by path. -/
structure Filed (groups : List (List ReceivedChunkRecord)) : Prop where
  ne : ∀ g ∈ groups, g ≠ []
  indices : groups.flatten.Pairwise (·.globalIndex < ·.globalIndex)
  path_ne : ∀ r ∈ groups.flatten, r.relativePath ≠ []
  path : ∀ g ∈ groups, ∀ a ∈ g, ∀ b ∈ g, a.relativePath = b.relativePath
  sorted : ∀ g ∈ groups, g.Pairwise fun a b => a.chunkIndex < b.chunkIndex
  paths : groups.Pairwise fun g h => ∀ a ∈ g, ∀ b ∈ h,
    compare a.relativePath b.relativePath = .lt

theorem Filed.sameFile {r : ReceivedChunkRecord} {g : List ReceivedChunkRecord} (h : Filed groups)
    (hg : g ∈ groups) (hr : r ∈ g) : sameFile (ordered groups.flatten) r = g := by
  rw [ordered_of_increasing h.indices]
  refine List.filter_flatten_key hg (fun a ha => h.path g hg a ha r hr) (h.ne g hg) h.path ?_
  refine h.paths.imp fun hlt a ha b hb he => ?_
  exact path_ne_of_lt (hlt a ha b hb) he

/-- Chunks with growing indices stay as they are, whatever the sort does with equal ones. -/
theorem sortChunks_of_sorted (h : file.chunks.Pairwise fun a b => a.chunkIndex < b.chunkIndex) :
    sortChunks env file = file := by
  have hperm : (env.chunkOrder.sort file.chunks).Perm file.chunks := env.chunkOrder.perm _
  have hnodup : (file.chunks.map ChunkRef.chunkIndex).Nodup :=
    List.pairwise_map.mpr (h.imp UInt64.ne_of_lt)
  have hnodup' := List.pairwise_map.mp ((hperm.map ChunkRef.chunkIndex).nodup_iff.mpr hnodup)
  have hincreasing : (env.chunkOrder.sort file.chunks).Pairwise fun a b => a.chunkIndex < b.chunkIndex :=
    (List.pairwise_and_iff.mpr ⟨env.chunkOrder.sorted file.chunks, hnodup'⟩).imp fun hle =>
      UInt64.lt_of_le_of_ne hle.1 hle.2
  have hirrefl : Std.Irrefl fun a b : ChunkRef => a.chunkIndex < b.chunkIndex :=
    ⟨fun a => UInt64.lt_irrefl a.chunkIndex⟩
  have hsort := hincreasing.eq_of_mem_iff h fun _ => hperm.mem_iff
  rw [sortChunks, hsort]

/-- The files of the manifest are those that the records came from. -/
theorem Filed.files (h : Filed groups) :
    (manifestOf env sessionId version now groups.flatten).files = groups.map fileOf := by
  have hpath_ne : ∀ r ∈ groups.flatten, r.relativePath ≠ [] := h.path_ne
  have hpaths : ((manifestOf env sessionId version now groups.flatten).files).Pairwise fun a b =>
      compare a.relativePath b.relativePath = .lt := by
    have hkeys := Std.TreeMap.ordered_keys
      (t := ((ordered groups.flatten).foldl group ⟨∅, [], 0, 0⟩).files)
    rw [← paths_files, List.pairwise_map] at hkeys
    exact hkeys
  have hcons : ∀ g ∈ groups, ∃ r tail, g = r :: tail := fun g hg =>
    List.exists_cons_of_ne_nil (h.ne g hg)
  have hexpected : (groups.map fileOf).Pairwise fun a b =>
      compare a.relativePath b.relativePath = .lt := by
    refine List.pairwise_map.mpr (h.paths.imp_of_mem fun {g} {g'} hg hg' hlt => ?_)
    obtain ⟨r, tail, rfl⟩ := hcons g hg
    obtain ⟨r', tail', rfl⟩ := hcons g' hg'
    exact hlt r List.mem_cons_self r' List.mem_cons_self
  have hirrefl : Std.Irrefl fun a b : FileManifest =>
      compare a.relativePath b.relativePath = .lt := ⟨fun a ha => path_ne_of_lt ha rfl⟩
  have hantisymm : Std.Antisymm fun a b : FileManifest =>
      compare a.relativePath b.relativePath = .lt :=
    ⟨fun a b hab hba => absurd rfl (path_ne_of_lt (Std.TransCmp.lt_trans hab hba))⟩
  have hentry : ∀ r tail, r :: tail ∈ groups →
      sortChunks env (entryOf r (SessionIndex.sameFile (ordered groups.flatten) r)) = fileOf (r :: tail) := by
    intro r tail hg
    rw [h.sameFile hg List.mem_cons_self]
    refine sortChunks_of_sorted (List.pairwise_map.mpr ?_)
    exact h.sorted _ hg
  refine hpaths.eq_of_mem_iff hexpected fun file => ?_
  rw [mem_files_iff hpath_ne, List.mem_map]
  constructor
  · intro hfile
    obtain ⟨first, hfirst, rfl⟩ := hfile
    have hmem := hfirst.mem
    rw [ordered_of_increasing h.indices] at hmem
    obtain ⟨g, hg, hin⟩ := List.mem_flatten.mp hmem
    obtain ⟨tail, htail⟩ := sameFile_cons hfirst
    rw [h.sameFile hg hin] at htail
    subst htail
    exact ⟨_, hg, (hentry first tail hg).symm⟩
  · intro hfile
    obtain ⟨g, hg, rfl⟩ := hfile
    obtain ⟨r, tail, rfl⟩ := hcons g hg
    refine ⟨r, ?_, (hentry r tail hg).symm⟩
    have hfilter : (ordered groups.flatten).filter (·.relativePath == r.relativePath) = r :: tail :=
      h.sameFile hg List.mem_cons_self
    rw [IsFirst, ← List.head?_filter, hfilter]
    rfl

/-- A file counts once, with its first record. -/
theorem totalInput_file {r : ReceivedChunkRecord} {tail : List ReceivedChunkRecord} {g : Grouped}
    (hpath : r.relativePath ≠ []) (hsame : ∀ b ∈ tail, b.relativePath = r.relativePath)
    (hnew : g.files[r.relativePath]? = none) :
    ((r :: tail).foldl group g).totalInputBytes = g.totalInputBytes + r.fileSize := by
  have hold : ∀ (g : Grouped) (file : FileManifest), g.files[r.relativePath]? = some file →
      file.relativePath ≠ [] → (tail.foldl group g).totalInputBytes = g.totalInputBytes := by
    induction tail with
    | nil => exact fun _ _ _ _ => rfl
    | cons b tail ih =>
      intro g file hfile hne
      have hb := hsame b List.mem_cons_self
      have hget : (group g b).files[r.relativePath]? = some (addTo (some file) b) := by
        rw [getElem?_group, if_pos hb, hfile]
      have hadd : (addTo (some file) b).relativePath ≠ [] := by
        simp [addTo, hne]
      have htotal : (group g b).totalInputBytes = g.totalInputBytes := by
        simp [group, hb, Std.TreeMap.getD_eq_getD_getElem?, hfile, hne]
      rw [List.foldl_cons, ih (fun b hb => hsame b (List.mem_cons_of_mem _ hb)) _ _ hget hadd, htotal]
  have hget : (group g r).files[r.relativePath]? = some (addTo none r) := by
    rw [getElem?_group, if_pos rfl, hnew]
  have hadd : (addTo none r).relativePath ≠ [] := by simpa [addTo, emptyFile] using hpath
  rw [List.foldl_cons, hold _ _ hget hadd]
  simp [group, Std.TreeMap.getD_eq_getD_getElem?, hnew, emptyFile]

theorem totalInput_files {g : Grouped} (h : Filed groups)
    (hnew : ∀ r ∈ groups.flatten, g.files[r.relativePath]? = none) :
    (groups.flatten.foldl group g).totalInputBytes =
      BackupEngine.inputBytes g.totalInputBytes (groups.map fileOf) := by
  induction groups generalizing g with
  | nil => rfl
  | cons rs groups ih =>
    obtain ⟨r, tail, rfl⟩ := List.exists_cons_of_ne_nil (h.ne rs List.mem_cons_self)
    obtain ⟨hfirst, hpaths⟩ := List.pairwise_cons.mp h.paths
    have hrest : Filed groups := by
      refine ⟨fun g hg => h.ne g (List.mem_cons_of_mem _ hg), ?_, fun r hr => h.path_ne r ?_,
        fun g hg => h.path g (List.mem_cons_of_mem _ hg),
        fun g hg => h.sorted g (List.mem_cons_of_mem _ hg), hpaths⟩
      · have := h.indices
        rw [List.flatten_cons] at this
        exact (List.pairwise_append.mp this).2.1
      · rw [List.flatten_cons]
        exact List.mem_append_right _ hr
    have hr : r ∈ ((r :: tail) :: groups).flatten := by simp
    have hsame : ∀ b ∈ tail, b.relativePath = r.relativePath := fun b hb =>
      h.path _ List.mem_cons_self b (List.mem_cons_of_mem _ hb) r List.mem_cons_self
    have hstep := totalInput_file (h.path_ne r hr) hsame (hnew r hr)
    rw [List.flatten_cons, List.foldl_append, ih hrest, hstep]
    · rfl
    · intro b hb
      have hfilter : (r :: tail).filter (·.relativePath == b.relativePath) = [] := by
        refine List.filter_eq_nil_iff.mpr fun a ha he => ?_
        obtain ⟨g, hg, hb⟩ := List.mem_flatten.mp hb
        exact path_ne_of_lt (hfirst g hg a ha b hb) (eq_of_beq he)
      rw [getElem?_groups, hfilter]
      exact hnew b (List.mem_append_right (r :: tail) hb)

theorem Filed.totalInputBytes (h : Filed groups) :
    (manifestOf env sessionId version now groups.flatten).totalInputBytes =
      BackupEngine.inputBytes 0 (groups.map fileOf) := by
  have htotal := totalInput_files (g := ⟨∅, [], 0, 0⟩) h (by simp)
  have hordered := ordered_of_increasing h.indices
  rw [ordered] at hordered
  rw [manifestOf, hordered]
  exact htotal

end Dpc.SessionIndex
