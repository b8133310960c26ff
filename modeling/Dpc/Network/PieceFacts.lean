import Dpc.Network.PreparedFacts
import Dpc.Network.RegroupFacts
import Mathlib.Data.List.SplitBy

/-! What a client tells of each chunk, and what a manifest keeps of it. -/

namespace Dpc
open Text FileTree Effects ManifestStore

/-- What is told of a file. -/
structure FileFacts where
  relativePath : Bytes
  fileSize : UInt64
  fileMode : UInt32
  fileSha256 : Bytes
  deriving DecidableEq, Repr

/-- A chunk, with what is told of its file. -/
structure Piece where
  file : FileFacts
  chunkIndex : UInt64
  rawSize : UInt64
  sha256 : Bytes
  deriving DecidableEq, Repr

def PreparedChunk.piece (c : PreparedChunk) : Piece :=
  ⟨⟨c.relativePath, c.fileSize, c.fileMode, c.fileSha256⟩, c.chunkIndex, size c.raw, c.chunkSha256⟩

def ReceivedChunkRecord.piece (r : ReceivedChunkRecord) : Piece :=
  ⟨⟨r.relativePath, r.fileSize, r.fileMode, r.fileSha256⟩, r.chunkIndex, r.rawSize, r.sha256⟩

def FileManifest.pieces (file : FileManifest) : List Piece :=
  file.chunks.map fun ref =>
    ⟨⟨file.relativePath, file.fileSize, file.fileMode, file.fileSha256⟩, ref.chunkIndex, ref.rawSize,
      ref.sha256⟩

namespace Piece

variable {p q r : Piece} {ps qs : List Piece} {groups : List (List Piece)} {g : List Piece}

/-- The pieces of each file: one begins with a chunk zero. -/
def byFile (ps : List Piece) : List (List Piece) := ps.splitBy fun _ p => p.chunkIndex != 0

/-- The place of a chunk: the path of its file, and its number there. -/
def place (p : Piece) : Bytes × UInt64 := (p.file.relativePath, p.chunkIndex)

/-- A piece begins a file that is not before the last, or goes on with it. -/
def Follows (p q : Piece) : Prop :=
  (compare p.file.relativePath q.file.relativePath).isLE ∧ q.chunkIndex = 0 ∨
    p.file = q.file ∧ p.chunkIndex < q.chunkIndex

/-- Pieces file by file. -/
structure InOrder (ps : List Piece) : Prop where
  first : ∀ p ∈ ps.head?, p.chunkIndex = 0
  chain : ps.IsChain Follows

/-- A piece of an earlier file, or an earlier one of the same file. -/
def Before (p q : Piece) : Prop :=
  compare p.file.relativePath q.file.relativePath = .lt ∨ p.file = q.file ∧ p.chunkIndex < q.chunkIndex

/-- The order of the places. -/
def PlaceLt (a b : Bytes × UInt64) : Prop := compare a.1 b.1 = .lt ∨ a.1 = b.1 ∧ a.2 < b.2

theorem Before.places (h : Before p q) : PlaceLt p.place q.place :=
  h.imp_right fun h => ⟨congrArg FileFacts.relativePath h.1, h.2⟩

theorem placeLt_irrefl : Std.Irrefl PlaceLt := by
  refine ⟨fun a h => ?_⟩
  rcases h with hlt | ⟨_, hlt⟩
  · exact SessionIndex.path_ne_of_lt hlt rfl
  · exact UInt64.lt_irrefl _ hlt

theorem placeLt_antisymm : Std.Antisymm PlaceLt := by
  refine ⟨fun a b h h' => ?_⟩
  rcases h with hlt | ⟨he, hlt⟩
  · rcases h' with hlt' | ⟨he', _⟩
    · exact absurd rfl (SessionIndex.path_ne_of_lt (Std.TransCmp.lt_trans hlt hlt'))
    · exact absurd he'.symm (SessionIndex.path_ne_of_lt hlt)
  · rcases h' with hlt' | ⟨_, hlt'⟩
    · exact absurd he.symm (SessionIndex.path_ne_of_lt hlt')
    · exact absurd (UInt64.lt_trans hlt hlt') (UInt64.lt_irrefl _)

theorem Before.trans (h : Before p q) (h' : Before q r) : Before p r := by
  rcases h with hlt | ⟨he, hlt⟩
  · rcases h' with hlt' | ⟨he', _⟩
    · exact .inl (Std.TransCmp.lt_trans hlt hlt')
    · exact .inl (he' ▸ hlt)
  · rcases h' with hlt' | ⟨he', hlt'⟩
    · exact .inl (he ▸ hlt')
    · exact .inr ⟨he.trans he', UInt64.lt_trans hlt hlt'⟩

/-- A piece that follows is behind all that are not behind the last, if it does not begin a file that
one of them is of. -/
theorem Follows.before {z : Piece} (hf : Follows p z) (hq : q = p ∨ Before q p)
    (hnew : q.file.relativePath = z.file.relativePath → z.chunkIndex ≠ 0) : Before q z := by
  rcases hf with ⟨hle, hz⟩ | hnext
  · have hle' : (compare q.file.relativePath z.file.relativePath).isLE := by
      rcases hq with rfl | hlt | ⟨hfile, _⟩
      · exact hle
      · exact Std.TransCmp.isLE_trans (by simp [hlt]) hle
      · exact hfile ▸ hle
    rcases hc : compare q.file.relativePath z.file.relativePath with _ | _ | _
    · exact .inl hc
    · exact absurd hz (hnew (Std.LawfulEqCmp.eq_of_compare hc))
    · rw [hc] at hle'
      contradiction
  · rcases hq with rfl | hlt
    · exact .inr hnext
    · exact hlt.trans (.inr hnext)

namespace InOrder

theorem initial (h : InOrder ps) (hp : qs <+: ps) : InOrder qs := by
  refine ⟨fun p hq => h.first p ?_, h.chain.prefix hp⟩
  obtain ⟨rest, rfl⟩ := hp
  cases qs with
  | nil => contradiction
  | cons q qs => exact hq

/-- The last piece begins its file, or goes on with that of the one before. -/
theorem last {z : Piece} (h : InOrder (ps ++ [z])) :
    z.chunkIndex = 0 ∨ ∃ x ∈ ps, x.file = z.file := by
  cases ps using List.reverseRecOn with
  | nil => exact .inl (h.first z rfl)
  | append_singleton ps x =>
    obtain ⟨_, _, hfollows⟩ := List.isChain_append.mp h.chain
    rcases hfollows x (by simp) z rfl with ⟨_, hz⟩ | ⟨hfile, _⟩
    · exact .inl hz
    · exact .inr ⟨x, List.mem_concat_self, hfile⟩

/-- Every file has been begun. -/
theorem begun (h : InOrder ps) : ∀ p ∈ ps, (p.file.relativePath, (0 : UInt64)) ∈ ps.map place := by
  induction ps using List.reverseRecOn with
  | nil => simp
  | append_singleton ps z ih =>
    have hold := ih (h.initial (List.prefix_append ps [z]))
    intro p hp
    rw [List.map_append, List.mem_append]
    rcases List.mem_append.mp hp with hp | hp
    · exact .inl (hold p hp)
    rw [List.mem_singleton.mp hp]
    rcases h.last with hz | ⟨x, hx, hfile⟩
    · exact .inr (by simp [place, hz])
    · exact .inl (hfile ▸ hold x hx)

/-- Where no place comes twice, each piece is before the later ones. -/
theorem before (h : InOrder ps) (hnodup : (ps.map place).Nodup) : ps.Pairwise Before := by
  induction ps using List.reverseRecOn with
  | nil => exact .nil
  | append_singleton ps z ih =>
    have horder := h.initial (List.prefix_append ps [z])
    rw [List.map_append, List.nodup_append] at hnodup
    obtain ⟨hfront, _, hnew⟩ := hnodup
    have hpairs := ih horder hfront
    refine List.pairwise_append.mpr ⟨hpairs, List.pairwise_singleton _ _, fun a ha b hb => ?_⟩
    rw [List.mem_singleton.mp hb]
    cases ps using List.reverseRecOn with
    | nil => contradiction
    | append_singleton front x =>
      obtain ⟨_, _, hfollows⟩ := List.isChain_append.mp h.chain
      have hlast : a = x ∨ Before a x := by
        rcases List.mem_append.mp ha with ha | ha
        · exact .inr ((List.pairwise_append.mp hpairs).2.2 a ha x List.mem_cons_self)
        · exact .inl (List.mem_singleton.mp ha)
      refine (hfollows x (by simp) z rfl).before hlast fun hpath hz => ?_
      -- a file that was begun is not begun again
      refine hnew _ (horder.begun a ha) z.place (by simp) ?_
      rw [place, hz, hpath]

end InOrder

/-- Where no place comes twice, what is told of a path is the same each time. -/
theorem InOrder.file_eq (h : InOrder ps) (hnodup : (ps.map place).Nodup) :
    ∀ p ∈ ps, ∀ q ∈ ps, p.file.relativePath = q.file.relativePath → p.file = q.file := by
  have hsymm : Std.Symm fun p q : Piece =>
      p.file.relativePath = q.file.relativePath → p.file = q.file :=
    ⟨fun _ _ h he => (h he.symm).symm⟩
  have hpairs : ps.Pairwise fun p q => p.file.relativePath = q.file.relativePath → p.file = q.file := by
    refine (h.before hnodup).imp fun hpq he => ?_
    rcases hpq with hlt | ⟨hfile, _⟩
    · exact absurd he (SessionIndex.path_ne_of_lt hlt)
    · exact hfile
  exact fun p hp q hq => List.Pairwise.forall_of_forall
    (R := fun p q => p.file.relativePath = q.file.relativePath → p.file = q.file) (fun _ _ _ => rfl)
    hpairs hp hq

/-- Two rows with the same end whose places are the same have the same places in the same order. -/
theorem places_eq {told sent : List Piece} (horder : InOrder told) (hsent : InOrder sent)
    (hnodup : (sent.map place).Nodup)
    (hperm : (sent.map place).Perm ((told ++ sent.drop told.length).map place)) :
    told.map place = (sent.take told.length).map place := by
  have hfirst : ((sent.take told.length).map place).Perm (told.map place) := by
    have hsplit : sent.map place =
        (sent.take told.length).map place ++ (sent.drop told.length).map place := by
      rw [← List.map_append, List.take_append_drop]
    rw [hsplit, List.map_append] at hperm
    exact (List.perm_append_right_iff _).mp hperm
  have hnodupFirst : ((sent.take told.length).map place).Nodup :=
    hnodup.sublist ((List.take_sublist _ _).map _)
  have hbefore := (hsent.initial (List.take_prefix told.length sent)).before hnodupFirst
  have hbefore' := horder.before (hfirst.nodup_iff.mp hnodupFirst)
  have := placeLt_irrefl
  have := placeLt_antisymm
  refine List.Pairwise.eq_of_mem_iff (r := PlaceLt) ?_ ?_ fun a => hfirst.symm.mem_iff
  · exact List.pairwise_map.mpr (hbefore'.imp Before.places)
  · exact List.pairwise_map.mpr (hbefore.imp Before.places)

/-- The pieces of one file, from its chunk zero on. -/
structure OneFile (g : List Piece) : Prop where
  first : ∃ p tail, g = p :: tail ∧ p.chunkIndex = 0
  pairs : g.Pairwise fun p q => p.file = q.file ∧ p.chunkIndex < q.chunkIndex

theorem OneFile.ne (h : OneFile g) : g ≠ [] := by
  obtain ⟨p, tail, rfl, _⟩ := h.first
  exact List.cons_ne_nil p tail

theorem OneFile.file_eq (h : OneFile g) : ∀ p ∈ g, ∀ q ∈ g, p.file = q.file := by
  have hsymm : Std.Symm fun p q : Piece => p.file = q.file := ⟨fun _ _ => Eq.symm⟩
  have hpairs : g.Pairwise fun p q => p.file = q.file := h.pairs.imp fun h => h.1
  exact fun p hp q hq =>
    List.Pairwise.forall_of_forall (R := fun p q => p.file = q.file) (fun _ _ => rfl) hpairs hp hq

theorem byFile_of_groups (h : ∀ g ∈ groups, OneFile g) : byFile groups.flatten = groups := by
  refine List.splitBy_eq_iff.mpr ⟨rfl, fun hnil => (h [] hnil).ne rfl, fun g hg => ?_, ?_⟩
  · refine ((h g hg).pairs.imp fun {p q} hpq => ?_).isChain
    rw [bne_iff_ne]
    exact fun hz => UInt64.not_lt_zero (hz ▸ hpq.2)
  · refine (List.pairwise_of_forall_mem_list fun g hg g' hg' => ?_).isChain
    obtain ⟨p, tail, rfl, hp⟩ := (h g' hg').first
    exact ⟨(h g hg).ne, List.cons_ne_nil p tail, by simp [hp]⟩

theorem inOrder_of_groups (h : ∀ g ∈ groups, OneFile g)
    (hpaths : groups.Pairwise fun g g' => ∀ p ∈ g, ∀ q ∈ g',
      (compare p.file.relativePath q.file.relativePath).isLE) : InOrder groups.flatten := by
  refine ⟨fun p hp => ?_, ?_⟩
  · cases groups with
    | nil => contradiction
    | cons g groups =>
      obtain ⟨q, tail, rfl, hq⟩ := (h g List.mem_cons_self).first
      rw [List.flatten_cons, List.cons_append, List.head?_cons, Option.mem_some_iff] at hp
      exact hp ▸ hq
  · refine (List.isChain_flatten fun hnil => (h [] hnil).ne rfl).mpr ⟨fun g hg => ?_, ?_⟩
    · exact ((h g hg).pairs.imp fun hpq => .inr hpq).isChain
    · refine (hpaths.imp_of_mem fun {g g'} _ hg' hle p hp q hq => .inl ⟨?_, ?_⟩).isChain
      · exact hle p (List.mem_of_mem_getLast? hp) q (List.mem_of_mem_head? hq)
      · obtain ⟨q', tail, rfl, hq'⟩ := (h g' hg').first
        rw [List.head?_cons, Option.mem_some_iff] at hq
        exact hq ▸ hq'

/-- Where no place comes twice, no path is that of two files. -/
theorem paths_of_nodup (h : ∀ g ∈ groups, OneFile g) (horder : InOrder groups.flatten)
    (hnodup : (groups.flatten.map place).Nodup) :
    groups.Pairwise fun g g' => ∀ p ∈ g, ∀ q ∈ g',
      compare p.file.relativePath q.file.relativePath = .lt := by
  obtain ⟨_, hpairs⟩ := List.pairwise_flatten.mp (horder.before hnodup)
  refine hpairs.imp_of_mem fun {g g'} _ hg' hlt p hp q hq => ?_
  obtain ⟨z, tail, rfl, hz⟩ := (h g' hg').first
  rw [(h _ hg').file_eq q hq z List.mem_cons_self]
  rcases hlt p hp z List.mem_cons_self with hlt | ⟨_, hlt⟩
  · exact hlt
  · exact absurd (hz ▸ hlt) UInt64.not_lt_zero

end Piece

namespace SessionIndex

variable {env : Env} {sessionId : Bytes} {version now : UInt64} {rs : List ReceivedChunkRecord}
  {file : FileManifest} {groups : List (List Piece)} {told sent : List Piece} {p : Piece}

theorem places_manifestOf :
    (((manifestOf env sessionId version now rs).files.flatMap FileManifest.pieces).map Piece.place).Perm
      ((ordered rs).map fun r => r.piece.place) := by
  rw [List.map_flatMap]
  have hfun : (fun file : FileManifest => file.pieces.map Piece.place) = fun file =>
      file.chunks.map fun ref => (file.relativePath, ref.chunkIndex) := by
    funext file
    rw [FileManifest.pieces, List.map_map]
    rfl
  rw [hfun]
  exact told_manifestOf fun path ref => (path, ref.chunkIndex)

/-- A piece of a manifest is that of a record, with what the first record of its file tells of the
file. -/
theorem piece_of_mem (hp : ∀ r ∈ rs, r.relativePath ≠ [])
    (h : p ∈ (manifestOf env sessionId version now rs).files.flatMap FileManifest.pieces) :
    ∃ first r, IsFirst (ordered rs) first ∧ r ∈ ordered rs ∧ r.relativePath = first.relativePath ∧
      p = { r.piece with file := first.piece.file } := by
  obtain ⟨file, hf, hpiece⟩ := List.mem_flatMap.mp h
  obtain ⟨first, hfirst, rfl⟩ := (mem_files_iff hp).mp hf
  obtain ⟨ref, href, rfl⟩ := List.mem_map.mp hpiece
  obtain ⟨r, hr, hpath, rfl⟩ := mem_chunks_entryOf.mp href
  exact ⟨first, r, hfirst, hr, hpath, rfl⟩

/-- The files of a manifest are apart. -/
theorem places_nodup (h : (manifestOf env sessionId version now rs).files.map FileManifest.pieces = groups)
    (hone : ∀ g ∈ groups, Piece.OneFile g) : (groups.flatten.map Piece.place).Nodup := by
  refine List.pairwise_map.mpr (List.pairwise_flatten.mpr ⟨fun g hg => ?_, ?_⟩)
  · refine (hone g hg).pairs.imp fun hlt he => ?_
    have hindex := congrArg Prod.snd he
    exact UInt64.ne_of_lt hlt.2 hindex
  · rw [← h, List.pairwise_map]
    have hpath : ∀ (file : FileManifest), ∀ p ∈ file.pieces, p.file.relativePath = file.relativePath := by
      intro file p hp
      obtain ⟨ref, _, rfl⟩ := List.mem_map.mp hp
      rfl
    refine (List.pairwise_map.mp nodup_paths).imp fun {a b} hne p hp q hq he => hne ?_
    rw [← hpath a p hp, ← hpath b q hq]
    exact congrArg Prod.fst he

/-- Records of one file among the first: the first of all records of this file is one of these. -/
theorem IsFirst.mem_take {first r : ReceivedChunkRecord} {n : Nat} (h : IsFirst rs first)
    (hr : r ∈ rs.take n) (hpath : r.relativePath = first.relativePath) : first ∈ rs.take n := by
  rw [← List.take_append_drop n rs, IsFirst, List.find?_append] at h
  cases hfind : (rs.take n).find? (·.relativePath == first.relativePath) with
  | none =>
    have hne := List.find?_eq_none.mp hfind r hr
    simp [hpath] at hne
  | some x =>
    rw [hfind, Option.some_or, Option.some.injEq] at h
    exact h ▸ List.mem_of_find?_eq_some hfind

theorem IsFirst.piece_mem {first : ReceivedChunkRecord} {rest : List Piece} (h : IsFirst rs first)
    (htold : rs.map ReceivedChunkRecord.piece = told ++ rest) (hp : p ∈ told)
    (hpath : p.file.relativePath = first.relativePath) : first.piece ∈ told := by
  have htake : (rs.take told.length).map ReceivedChunkRecord.piece = told := by
    rw [List.map_take, htold, List.take_left]
  obtain ⟨r, hr, rfl⟩ := List.mem_map.mp (htake.symm ▸ hp)
  exact htake ▸ List.mem_map_of_mem (h.mem_take hr hpath)

/-- A piece of the manifest in the place of one of the first records is that of the record. -/
theorem piece_eq_of_place {x : Piece} {rest : List Piece} (hp : ∀ r ∈ rs, r.relativePath ≠ [])
    (hordered : ordered rs = rs) (htold : rs.map ReceivedChunkRecord.piece = told ++ rest)
    (horder : Piece.InOrder told) (hnodup : ((told ++ rest).map Piece.place).Nodup) (hx : x ∈ told)
    (hmem : p ∈ (manifestOf env sessionId version now rs).files.flatMap FileManifest.pieces)
    (hplace : x.place = p.place) : x = p := by
  obtain ⟨first, r, hisfirst, hr, hpath, rfl⟩ := piece_of_mem hp hmem
  rw [hordered] at hisfirst hr
  have hrplace : r.piece.place = x.place := by
    rw [hplace]
    exact Prod.ext hpath rfl
  have hrx : r.piece = x := by
    have hrin : r.piece ∈ told ++ rest := htold ▸ List.mem_map_of_mem hr
    exact List.inj_on_of_nodup_map hnodup hrin (List.mem_append_left _ hx) hrplace
  subst hrx
  -- the first record of the file is one of `told`, and tells the same of it
  have hfirst : first.piece ∈ told := hisfirst.piece_mem htold hx hpath
  have hnodup' : (told.map Piece.place).Nodup := by
    rw [List.map_append] at hnodup
    exact (List.nodup_append.mp hnodup).1
  have hfile : first.piece.file = r.piece.file := horder.file_eq hnodup' _ hfirst _ hx hpath.symm
  rw [hfile]

/-- Where the session has records of `told`, and of what was sent behind these, and the manifest has
the files that were sent, each record tells what was sent in its place. -/
theorem told_of_files (hp : ∀ r ∈ rs, r.relativePath ≠ [])
    (hincreasing : rs.Pairwise (·.globalIndex < ·.globalIndex))
    (htold : rs.map ReceivedChunkRecord.piece = told ++ sent.drop told.length)
    (horder : Piece.InOrder told) (hsent : Piece.InOrder sent)
    (hone : ∀ g ∈ Piece.byFile sent, Piece.OneFile g)
    (h : (manifestOf env sessionId version now rs).files.map FileManifest.pieces = Piece.byFile sent) :
    told <+: sent ∧ (sent.map Piece.place).Nodup := by
  have hordered := ordered_of_increasing hincreasing
  have hflat : (manifestOf env sessionId version now rs).files.flatMap FileManifest.pieces = sent := by
    rw [List.flatMap_def, h, Piece.byFile, List.flatten_splitBy]
  have hnodup : (sent.map Piece.place).Nodup := by
    have hnodup := places_nodup h hone
    rwa [Piece.byFile, List.flatten_splitBy] at hnodup
  refine ⟨?_, hnodup⟩
  have hperm : (sent.map Piece.place).Perm ((told ++ sent.drop told.length).map Piece.place) := by
    have hplaces : (((manifestOf env sessionId version now rs).files.flatMap
        FileManifest.pieces).map Piece.place).Perm ((ordered rs).map fun r => r.piece.place) :=
      places_manifestOf
    rw [hflat, hordered] at hplaces
    rwa [← htold, List.map_map]
  have hsame := Piece.places_eq horder hsent hnodup hperm
  have hlen : told.length = (sent.take told.length).length := by
    have hlen := congrArg List.length hsame
    rwa [List.length_map, List.length_map] at hlen
  suffices hall : told = sent.take told.length by
    rw [hall]
    exact List.take_prefix _ _
  refine List.ext_getElem hlen fun k hk hk' => ?_
  have hmem : (sent.take told.length)[k] ∈
      (manifestOf env sessionId version now rs).files.flatMap FileManifest.pieces := by
    rw [hflat]
    exact List.mem_of_mem_take (List.getElem_mem hk')
  have hplace : told[k].place = (sent.take told.length)[k].place := by
    have hget : (told.map Piece.place)[k]? = ((sent.take told.length).map Piece.place)[k]? := by
      rw [hsame]
    rwa [List.getElem?_map, List.getElem?_map, List.getElem?_eq_getElem hk,
      List.getElem?_eq_getElem hk', Option.map_some, Option.map_some, Option.some.injEq] at hget
  exact piece_eq_of_place hp hordered htold horder (hperm.nodup_iff.mp hnodup) (List.getElem_mem hk) hmem
    hplace

theorem pieces_fileOf {g : List ReceivedChunkRecord} (h : Piece.OneFile (g.map ReceivedChunkRecord.piece)) :
    (fileOf g).pieces = g.map ReceivedChunkRecord.piece := by
  cases g with
  | nil => exact absurd rfl h.ne
  | cons r tail =>
    have hpieces : (fileOf (r :: tail)).pieces =
        (r :: tail).map fun x => { x.piece with file := r.piece.file } := by
      rw [fileOf, FileManifest.pieces, entryOf, List.map_map]
      rfl
    rw [hpieces]
    refine List.map_congr_left fun x hx => ?_
    rw [h.file_eq r.piece (by simp) x.piece (List.mem_map_of_mem hx)]

/-- Where each record tells what was sent in its place, and no place comes twice, the manifest has
the files that were sent. -/
theorem files_of_told (hp : ∀ r ∈ rs, r.relativePath ≠ [])
    (hincreasing : rs.Pairwise (·.globalIndex < ·.globalIndex))
    (htold : rs.map ReceivedChunkRecord.piece = sent) (horder : Piece.InOrder sent)
    (hone : ∀ g ∈ Piece.byFile sent, Piece.OneFile g) (hnodup : (sent.map Piece.place).Nodup) :
    (manifestOf env sessionId version now rs).files.map FileManifest.pieces = Piece.byFile sent := by
  have hflat : (Piece.byFile sent).flatten = sent := List.flatten_splitBy _ _
  have hpairs : List.Forall₂ (fun p (r : ReceivedChunkRecord) => r.piece = p) sent rs := by
    rw [← htold, List.forall₂_map_left_iff]
    exact List.forall₂_same.mpr fun r _ => rfl
  rw [← hflat] at hpairs horder hnodup
  obtain ⟨groups, rfl, hgroups⟩ := hpairs.of_flatten
  have hbyFile : Piece.byFile sent = groups.map (List.map ReceivedChunkRecord.piece) := by
    rw [← List.forall₂_eq_eq_eq, List.forall₂_map_right_iff]
    refine hgroups.imp fun g rs hg => ?_
    rw [← List.forall₂_eq_eq_eq, List.forall₂_map_right_iff]
    exact hg.imp fun p r he => he.symm
  have hfiles : ∀ g ∈ groups, Piece.OneFile (g.map ReceivedChunkRecord.piece) := fun g hg =>
    hone _ (hbyFile ▸ List.mem_map_of_mem hg)
  have hpaths := Piece.paths_of_nodup hone horder hnodup
  rw [hbyFile, List.pairwise_map] at hpaths
  have hfiled : Filed groups := by
    refine ⟨fun g hg hnil => (hfiles g hg).ne (by rw [hnil]; rfl), hincreasing, hp, ?_, ?_, ?_⟩
    · intro g hg a ha b hb
      have hfile := (hfiles g hg).file_eq a.piece (List.mem_map_of_mem ha) b.piece (List.mem_map_of_mem hb)
      exact congrArg FileFacts.relativePath hfile
    · intro g hg
      exact (List.pairwise_map.mp (hfiles g hg).pairs).imp fun h => h.2
    · refine hpaths.imp fun {g g'} hlt => ?_
      intro a ha b hb
      exact hlt a.piece (List.mem_map_of_mem ha) b.piece (List.mem_map_of_mem hb)
  rw [hfiled.files, List.map_map, hbyFile]
  exact List.map_congr_left fun g hg => pieces_fileOf (hfiles g hg)

end SessionIndex

end Dpc
