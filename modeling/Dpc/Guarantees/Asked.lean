import Dpc.Guarantees.Torn

namespace Dpc
open Text FileTree Effects SessionIndex

variable {env : Env} {s t : Fs} {sessionId : Bytes} {version n now : UInt64}
  {rs chosen : List ReceivedChunkRecord} {m : Manifest}

/-- Every index below `n` has a record. -/
def HasAll (rs : List ReceivedChunkRecord) (n : UInt64) : Prop :=
  ∀ i < n, ∃ r ∈ rs, r.globalIndex = i

/-- One record for each index below `n`. -/
structure Asked (rs : List ReceivedChunkRecord) (n : UInt64) (chosen : List ReceivedChunkRecord) :
    Prop where
  recorded : ∀ r ∈ chosen, r ∈ rs
  indices : (chosen.map (·.globalIndex.toNat)).Perm (List.range n.toNat)

/-- The chunks of a manifest, over all files, are those of some records, each with the
others of its path, by chunk index. -/
structure MadeOf (m : Manifest) (chosen : List ReceivedChunkRecord) : Prop where
  refs : (m.files.flatMap (·.chunks)).Perm (chosen.map refOf)
  paths : (m.files.map (·.relativePath)).Nodup
  grouped : ∀ file ∈ m.files,
    file.chunks.Perm ((chosen.filter (·.relativePath == file.relativePath)).map refOf)
  sorted : ∀ file ∈ m.files, file.chunks.Pairwise fun a b => a.chunkIndex ≤ b.chunkIndex

/-- A commit of `n` chunks succeeds if none of them is missing, and then it has these
chunks and no others. -/
def CommitsAsked (env : Env) (s : Fs) (sessionId : Bytes) (version n now : UInt64)
    (rs : List ReceivedChunkRecord) : Prop :=
  ((∃ m t, (buildManifest env sessionId version n now).exec s = (.ok m, t)) ↔ HasAll rs n) ∧
    ∀ m t, (buildManifest env sessionId version n now).exec s = (.ok m, t) →
      ∃ chosen, Asked rs n chosen ∧ MadeOf m chosen

theorem madeOf_ordered : MadeOf (manifestOf env sessionId version now rs) (ordered rs) where
  refs := refs_manifestOf
  paths := nodup_paths
  grouped _ h := path_of_mem_files h
  sorted _ h := sorted_chunks h

theorem firstMissing_eq_none {present : UInt64 → Bool} {k : Nat} {i : UInt64} :
    firstMissing present k i = none ↔ ∀ j < k, present (i + UInt64.ofNat j) = true := by
  induction k generalizing i with
  | zero => simp [firstMissing]
  | succ k ih =>
    rw [firstMissing]
    by_cases hi : present i = true
    · rw [if_pos hi, ih]
      constructor
      · intro h j hj
        cases j with
        | zero => simpa using hi
        | succ j =>
          have hstep : i + UInt64.ofNat (j + 1) = i + 1 + UInt64.ofNat j := by
            rw [UInt64.ofNat_add, UInt64.add_assoc]
            exact congrArg (i + ·) (UInt64.add_comm _ _)
          rw [hstep]
          exact h j (by omega)
      · intro h j hj
        have hstep : i + 1 + UInt64.ofNat j = i + UInt64.ofNat (j + 1) := by
          rw [UInt64.ofNat_add, UInt64.add_assoc]
          exact congrArg (i + ·) (UInt64.add_comm _ _)
        rw [hstep]
        exact h (j + 1) (by omega)
    · rw [if_neg hi]
      constructor
      · intro h
        contradiction
      · intro h
        exact absurd (by simpa using h 0 (Nat.succ_pos k)) hi

theorem contains_byGlobal {i : UInt64} :
    (byGlobal rs).contains i = true ↔ ∃ r ∈ rs, r.globalIndex = i := by
  rw [Std.TreeMap.contains_iff_mem, Std.TreeMap.mem_iff_isSome_getElem?, Option.isSome_iff_ne_none, Ne,
    getElem?_byGlobal_none]
  simp

theorem firstMissing_iff : firstMissing (byGlobal rs).contains n.toNat 0 = none ↔ HasAll rs n := by
  rw [firstMissing_eq_none]
  constructor
  · intro h i hi
    have hpresent := h i.toNat (UInt64.lt_iff_toNat_lt.mp hi)
    rw [UInt64.zero_add, UInt64.ofNat_toNat] at hpresent
    exact contains_byGlobal.mp hpresent
  · intro h j hj
    rw [UInt64.zero_add]
    apply contains_byGlobal.mpr
    apply h
    rw [UInt64.lt_iff_toNat_lt, UInt64.toNat_ofNat_of_lt' (Nat.lt_trans hj n.toNat_lt)]
    exact hj

/-- A commit has all records that count, whatever number of chunks it asks for. -/
theorem exec_buildManifest (hx : (records sessionId).exec s = (.ok rs, s)) :
    (buildManifest env sessionId version n now).exec s = (.ok m, t) ↔
      HasAll rs n ∧ m = manifestOf env sessionId version now rs ∧ t = s := by
  simp only [buildManifest, Prog.bind_eq]
  rw [Prog.exec_bind_of_ok hx]
  cases hmissing : firstMissing (byGlobal rs).contains n.toNat 0 with
  | none =>
    simp only [Prog.pure_eq, Prog.exec_pure, Prod.mk.injEq, Except.ok.injEq]
    constructor
    · intro h
      exact ⟨firstMissing_iff.mp hmissing, h.1.symm, h.2.symm⟩
    · intro h
      exact ⟨h.2.1.symm, h.2.2.symm⟩
  | some i =>
    simp only [Prog.exec_throw, Prod.mk.injEq, reduceCtorEq, false_and, false_iff]
    intro h
    rw [firstMissing_iff.mpr h.1] at hmissing
    contradiction

theorem mem_index_ordered {i : UInt64} :
    i ∈ (ordered rs).map (·.globalIndex) ↔ ∃ r ∈ rs, r.globalIndex = i := by
  rw [index_ordered, Std.TreeMap.mem_keys, ← Std.TreeMap.contains_iff_mem, contains_byGlobal]

/-- Where no index is `n` or above, the records that count are those asked for. -/
theorem asked_ordered (hall : HasAll rs n) (hbelow : ∀ r ∈ rs, r.globalIndex < n) :
    Asked rs n (ordered rs) where
  recorded _ h := mem_of_mem_ordered h
  indices := by
    have hnodup : ((ordered rs).map (·.globalIndex.toNat)).Nodup := by
      have hkeys : ((ordered rs).map (·.globalIndex)).Nodup := by
        rw [index_ordered]
        exact Std.TreeMap.nodup_keys
      rw [← Function.comp_def, ← List.map_map]
      exact hkeys.map fun i j hij => UInt64.toNat_inj.mp hij
    apply (List.perm_ext_iff_of_nodup hnodup List.nodup_range).mpr
    intro k
    rw [List.mem_range, List.mem_map]
    constructor
    · intro h
      obtain ⟨r, hr, rfl⟩ := h
      exact UInt64.lt_iff_toNat_lt.mp (hbelow r (mem_of_mem_ordered hr))
    · intro hk
      have hlt : (UInt64.ofNat k).toNat = k :=
        UInt64.toNat_ofNat_of_lt' (Nat.lt_trans hk n.toNat_lt)
      have hi : UInt64.ofNat k < n := by
        rw [UInt64.lt_iff_toNat_lt, hlt]
        exact hk
      obtain ⟨r, hr, he⟩ := List.mem_map.mp (mem_index_ordered.mpr (hall _ hi))
      exact ⟨r, hr, by rw [he, hlt]⟩

/-- A record at `n` or above makes one chunk too many. -/
theorem below_of_madeOf (hall : HasAll rs n) (h : Asked rs n chosen)
    (hm : MadeOf (manifestOf env sessionId version now rs) chosen) : ∀ r ∈ rs, r.globalIndex < n := by
  intro r hr
  by_contra hge
  have hcount : (ordered rs).length = n.toNat := by
    have hrefs : ((ordered rs).map refOf).Perm (chosen.map refOf) := refs_manifestOf.symm.trans hm.refs
    have hlen := hrefs.length_eq
    have hindices := h.indices.length_eq
    rw [List.length_map, List.length_map] at hlen
    rw [List.length_map, List.length_range] at hindices
    rw [hlen, hindices]
  have hle : n.toNat ≤ r.globalIndex.toNat := by
    rw [UInt64.lt_iff_toNat_lt] at hge
    omega
  have hnodup : (r.globalIndex.toNat :: List.range n.toNat).Nodup := by
    rw [List.nodup_cons, List.mem_range]
    exact ⟨Nat.not_lt.mpr hle, List.nodup_range⟩
  have hsub : r.globalIndex.toNat :: List.range n.toNat ⊆ (ordered rs).map (·.globalIndex.toNat) := by
    intro k hk
    rw [← Function.comp_def, ← List.map_map, List.mem_map]
    rcases List.mem_cons.mp hk with rfl | hk
    · exact ⟨_, mem_index_ordered.mpr ⟨r, hr, rfl⟩, rfl⟩
    · rw [List.mem_range] at hk
      have hlt : (UInt64.ofNat k).toNat = k :=
        UInt64.toNat_ofNat_of_lt' (Nat.lt_trans hk n.toNat_lt)
      refine ⟨UInt64.ofNat k, mem_index_ordered.mpr (hall _ ?_), hlt⟩
      rw [UInt64.lt_iff_toNat_lt, hlt]
      exact hk
  have hlen := (List.subperm_of_subset hnodup hsub).length_le
  rw [List.length_cons, List.length_range, List.length_map, hcount] at hlen
  omega

/-- A commit that succeeds has exactly the chunks that were asked for if and only if the
session has no record at the number of chunks or above. -/
theorem commit_takes_asked_iff (hx : (records sessionId).exec s = (.ok rs, s)) :
    CommitsAsked env s sessionId version n now rs ↔ (HasAll rs n → ∀ r ∈ rs, r.globalIndex < n) := by
  have hbuild : ∀ {m t}, (buildManifest env sessionId version n now).exec s = (.ok m, t) ↔
      HasAll rs n ∧ m = manifestOf env sessionId version now rs ∧ t = s := exec_buildManifest hx
  constructor
  · intro h hall
    obtain ⟨chosen, hasked, hmade⟩ := h.2 _ _ (hbuild.mpr ⟨hall, rfl, rfl⟩)
    exact below_of_madeOf hall hasked hmade
  · intro hbelow
    refine ⟨?_, ?_⟩
    · constructor
      · intro h
        obtain ⟨m, t, hm⟩ := h
        exact (hbuild.mp hm).1
      · intro hall
        exact ⟨_, _, hbuild.mpr ⟨hall, rfl, rfl⟩⟩
    · intro m t hm
      obtain ⟨hall, rfl, _⟩ := hbuild.mp hm
      exact ⟨ordered rs, asked_ordered hall (hbelow hall), madeOf_ordered⟩

/-- The same chunk as the second one, of another file. -/
def otherRecord : ReceivedChunkRecord :=
  { plainRecord with globalIndex := 1, relativePath := ascii "b.txt" }

def pairSession : Fs :=
  ((appendChunks letterEnv (ascii "s") [plainRecord, otherRecord]).exec emptyRepo).2

theorem records_pairSession :
    (records (ascii "s")).exec pairSession = (.ok [plainRecord, otherRecord], pairSession) := by
  have hfst : ((records (ascii "s")).exec pairSession).1 = .ok [plainRecord, otherRecord] := by
    decide +kernel
  have hx := Prog.exec_of_fst hfst
  rw [(records_ok hx).1] at hx
  exact hx

theorem pair_commit_takes_asked :
    (records (ascii "s")).exec pairSession = (.ok [plainRecord, otherRecord], pairSession) ∧
      CommitsAsked letterEnv pairSession (ascii "s") 1 2 1700000000 [plainRecord, otherRecord] := by
  refine ⟨records_pairSession, (commit_takes_asked_iff records_pairSession).mpr fun _ r hr => ?_⟩
  rcases List.mem_cons.mp hr with rfl | hr
  · decide
  · rw [List.mem_singleton.mp hr]
    decide

/-- The commit of one chunk takes the second one, too. -/
theorem smaller_commit_takes_more :
    (records (ascii "s")).exec pairSession = (.ok [plainRecord, otherRecord], pairSession) ∧
      ¬CommitsAsked letterEnv pairSession (ascii "s") 1 1 1700000000 [plainRecord, otherRecord] := by
  refine ⟨records_pairSession, fun h => ?_⟩
  have hall : HasAll [plainRecord, otherRecord] 1 := by
    intro i hi
    refine ⟨plainRecord, List.mem_cons_self, ?_⟩
    have hzero : i.toNat = 0 := Nat.lt_one_iff.mp (UInt64.lt_iff_toNat_lt.mp hi)
    exact (UInt64.toNat_inj.mp hzero).symm
  obtain ⟨chosen, hasked, hmade⟩ :=
    h.2 _ _ ((exec_buildManifest records_pairSession).mpr ⟨hall, rfl, rfl⟩)
  have hbelow := below_of_madeOf hall hasked hmade otherRecord (by simp)
  exact absurd hbelow (by decide)

end Dpc
