import Dpc.Core.FailureFacts
import Dpc.Core.ManifestFormat
import Dpc.Lib.Lists
import Dpc.Network.GroupFacts

namespace Dpc.SessionIndex
open Text FileTree Effects ManifestStore

theorem getU64_append {bs rest : Bytes} {n : UInt64} (h : getU64 bs = some (n, rest))
    (hr : rest ≠ []) (more : Bytes) : getU64 (bs ++ more) = some (n, rest ++ more) := by
  unfold getU64 at h ⊢
  obtain ⟨⟨m, rest'⟩, hm, he⟩ := Option.map_eq_some_iff.mp h
  cases he
  rw [getNumber_append hm hr]
  rfl

theorem getU32_append {bs rest : Bytes} {n : UInt32} (h : getU32 bs = some (n, rest))
    (hr : rest ≠ []) (more : Bytes) : getU32 (bs ++ more) = some (n, rest ++ more) := by
  unfold getU32 at h ⊢
  obtain ⟨⟨m, rest'⟩, hm, he⟩ := Option.map_eq_some_iff.mp h
  cases he
  rw [getNumber_append hm hr]
  rfl

theorem ne_nil_of_getU64 {bs : Bytes} {x : UInt64 × Bytes} (h : getU64 bs = some x) : bs ≠ [] := by
  rintro rfl
  contradiction

theorem ne_nil_of_getU32 {bs : Bytes} {x : UInt32 × Bytes} (h : getU32 bs = some x) : bs ≠ [] := by
  rintro rfl
  contradiction

theorem ne_nil_of_getWord {bs : Bytes} {x : Bytes × Bytes} (h : getWord bs = some x) : bs ≠ [] := by
  rintro rfl
  contradiction

/-- Only the last field of a record can go on with what follows. -/
theorem getRecord_split {bs rest : Bytes} {r : ReceivedChunkRecord}
    (h : getRecord bs = some (r, rest)) :
    ∃ last, getWord last = some (r.objectPath, rest) ∧ ∀ more : Bytes,
      getRecord (bs ++ more) = (getWord (last ++ more)).map fun (objHex, rest) =>
        ({ r with objectPath := objHex }, rest) := by
  simp only [getRecord, Option.bind_eq_bind, Option.bind_eq_some_iff, Option.pure_def] at h
  obtain ⟨⟨globalIndex, b1⟩, h1, ⟨sha, b2⟩, h2, ⟨relHex, b3⟩, h3, ⟨fileSize, b4⟩, h4,
    ⟨fileMode, b5⟩, h5, ⟨fileSha, b6⟩, h6, ⟨chunkIndex, b7⟩, h7, ⟨rawSize, b8⟩, h8,
    ⟨compressedSize, b9⟩, h9, ⟨objHex, b10⟩, h10, he⟩ := h
  cases he
  refine ⟨b9, h10, fun more => ?_⟩
  simp only [getRecord, getU64_append h1 (ne_nil_of_getWord h2),
    getWord_append h2 (ne_nil_of_getWord h3), getWord_append h3 (ne_nil_of_getU64 h4),
    getU64_append h4 (ne_nil_of_getU32 h5), getU32_append h5 (ne_nil_of_getWord h6),
    getWord_append h6 (ne_nil_of_getU64 h7), getU64_append h7 (ne_nil_of_getU64 h8),
    getU64_append h8 (ne_nil_of_getU64 h9), getU64_append h9 (ne_nil_of_getWord h10),
    Option.bind_eq_bind, Option.bind_some, Option.pure_def]
  cases getWord (b9 ++ more) with
  | none => rfl
  | some x => rfl

theorem getRecord_append {bs rest : Bytes} {r : ReceivedChunkRecord}
    (h : getRecord bs = some (r, rest)) (hr : rest ≠ []) (more : Bytes) :
    getRecord (bs ++ more) = some (r, rest ++ more) := by
  obtain ⟨last, hlast, hmore⟩ := getRecord_split h
  rw [hmore, getWord_append hlast hr]
  rfl

theorem getRecord_append_end {bs : Bytes} {r : ReceivedChunkRecord}
    (h : getRecord bs = some (r, [])) (more : Bytes) :
    getRecord (bs ++ more) =
      some ({ r with objectPath := r.objectPath ++ more.takeWhile fun b => !isSpace b },
        more.dropWhile fun b => !isSpace b) := by
  obtain ⟨last, hlast, hmore⟩ := getRecord_split h
  rw [hmore, getWord_append_end hlast]
  rfl

theorem length_hexDecode {value bytes : Bytes} (h : hexDecode value = some bytes) :
    value.length = 2 * bytes.length := by
  induction value using hexDecode.induct generalizing bytes with
  | case1 =>
    cases h
    rfl
  | case2 b => contradiction
  | case3 a b rest ih =>
    simp only [hexDecode, Option.bind_eq_bind, Option.bind_eq_some_iff, Option.pure_def,
      Option.some.injEq] at h
    obtain ⟨hi, _, lo, _, bs, hbs, rfl⟩ := h
    have := ih hbs
    simp only [List.length_cons]
    omega

theorem recordLine_eq (r : ReceivedChunkRecord) :
    recordLine r = ascii "CHUNK" ++ space :: (joinWith space (recordWords r).tail ++ [newline]) := by
  simp [recordLine, recordWords, joinWith_cons_cons]

theorem parseRecords_nil (fuel : Nat) : parseRecords fuel [] = .ok [] := by
  cases fuel with
  | zero => rfl
  | succ fuel => rfl

/-- What a proper beginning of a line is read as, if it is read: the record, where only the
end of the line is missing, or else a record with a shorter path. -/
theorem parseRecords_cut {r : ReceivedChunkRecord} (h : Writable r) {cut more : Bytes}
    (hline : cut ++ more = recordLine r) (hcut : cut ≠ []) (hmore : more ≠ []) {fuel : Nat}
    {rs : List ReceivedChunkRecord} (hrs : parseRecords (fuel + 1) cut = .ok rs) :
    ∃ r', rs = [r'] ∧
      (more = [newline] ∧ r' = r ∨ r'.objectPath.length < r.objectPath.length) := by
  have htag : getWord (cut ++ more) = some (ascii "CHUNK",
      space :: (joinWith space (recordWords r).tail ++ [newline])) := by
    rw [hline, recordLine_eq, getWord_word (.of_test (by decide)) (head?_space space _ (by decide))]
  have hfull : getRecord (space :: (joinWith space (recordWords r).tail ++ [newline])) = some ({ r with
      relativePath := hexEncodeString r.relativePath
      objectPath := hexEncodeString r.objectPath }, [newline]) :=
    getRecord_line h (head?_space newline [] (by decide))
  unfold parseRecords at hrs
  cases hw : getWord cut with
  | none =>
    obtain ⟨b, bs, rfl⟩ := List.exists_cons_of_ne_nil hcut
    have hb : b = 67 := by
      rw [recordLine_eq] at hline
      exact (List.cons.inj hline).1
    have hns : isSpace 67 = false := by decide
    simp [getWord, hb, hns] at hw
  | some x =>
    obtain ⟨tag, rest⟩ := x
    rw [hw] at hrs
    dsimp only at hrs
    by_cases hrest : rest = []
    · -- the cut lies within the tag
      rw [hrest] at hw hrs
      rw [getWord_append_end hw, Option.some.injEq, Prod.mk.injEq] at htag
      have hlen := congrArg List.length htag.1
      rw [List.length_append] at hlen
      have hfive : (ascii "CHUNK").length = 5 := by decide
      split at hrs
      · have hnone : getRecord [] = none := by decide
        rw [hnone] at hrs
        contradiction
      split at hrs
      · rename_i hcommitted
        have hnine : (ascii "COMMITTED").length = 9 := by decide
        rw [hcommitted] at hlen
        omega
      · contradiction
    · rw [getWord_append hw hrest, Option.some.injEq, Prod.mk.injEq] at htag
      obtain ⟨rfl, htail⟩ := htag
      rw [if_pos rfl] at hrs
      rw [← htail] at hfull
      cases hr' : getRecord rest with
      | none =>
        rw [hr'] at hrs
        contradiction
      | some x =>
        obtain ⟨r', rest'⟩ := x
        rw [hr'] at hrs
        dsimp only at hrs
        by_cases hrest' : rest' = []
        · -- the cut lies within the last field, or at its end
          rw [hrest'] at hr' hrs
          rw [getRecord_append_end hr', Option.some.injEq, Prod.mk.injEq,
            ReceivedChunkRecord.mk.injEq] at hfull
          obtain ⟨⟨e1, e2, e3, e4, e5, e6, e7, e8, e9, e10⟩, hend⟩ := hfull
          rw [parseRecords_nil] at hrs
          obtain ⟨rel, hrel, hrs⟩ := bind_eq_ok.mp hrs
          obtain ⟨obj, hobj, hrs⟩ := bind_eq_ok.mp hrs
          cases hrs
          rw [e3, hexDecodeString_hexEncodeString] at hrel
          cases hrel
          have hmore' := List.takeWhile_append_dropWhile (p := fun b => !isSpace b) (l := more)
          rw [hend] at hmore'
          have hobjlen := length_hexDecode (hexDecodeString_ok hobj)
          have hlen := congrArg List.length e10
          rw [List.length_append, hexEncodeString, length_hexEncode] at hlen
          refine ⟨_, rfl, ?_⟩
          by_cases hu : (more.takeWhile fun b => !isSpace b) = []
          · left
            rw [hu, List.append_nil] at e10
            rw [hu, List.nil_append] at hmore'
            rw [e10, hexDecodeString_hexEncodeString] at hobj
            cases hobj
            refine ⟨hmore'.symm, ?_⟩
            rw [e1, e2, e4, e5, e6, e7, e8, e9]
          · right
            have := List.length_pos_iff.mpr hu
            dsimp only
            omega
        · -- nothing is missing
          rw [getRecord_append hr' hrest', Option.some.injEq, Prod.mk.injEq] at hfull
          have hlen := congrArg List.length hfull.2
          have h1 := List.length_pos_iff.mpr hrest'
          have h2 := List.length_pos_iff.mpr hmore
          rw [List.length_append, List.length_singleton] at hlen
          omega

theorem parseRecords_lines_append {rs : List ReceivedChunkRecord} (h : ∀ r ∈ rs, Writable r)
    (fuel : Nat) (rest : Bytes) :
    parseRecords (rs.length + fuel) (rs.flatMap recordLine ++ rest) =
      (parseRecords fuel rest).map (rs ++ ·) := by
  induction rs with
  | nil =>
    simp only [List.length_nil, Nat.zero_add, List.flatMap_nil, List.nil_append]
    cases parseRecords fuel rest with
    | error e => rfl
    | ok out => rfl
  | cons r rs ih =>
    have ih := ih fun q hq => h q (List.mem_cons_of_mem _ hq)
    have hfuel : (r :: rs).length + fuel = rs.length + fuel + 1 := by
      rw [List.length_cons]
      omega
    rw [List.flatMap_cons, List.append_assoc, hfuel, parseRecords_chunk (h r List.mem_cons_self), ih]
    cases parseRecords fuel rest with
    | error e => rfl
    | ok out => rfl

theorem length_le_lines (rs : List ReceivedChunkRecord) :
    rs.length ≤ (rs.flatMap recordLine).length := by
  induction rs with
  | nil => simp
  | cons r rs ih =>
    have hline : 1 ≤ (recordLine r).length := by simp [recordLine]
    rw [List.flatMap_cons, List.length_append, List.length_cons]
    omega

/-- A file that was cut is read as the records before the cut, if the cut is at the end of a
line or takes a newline only. Otherwise it is not read, or the last record is wrong. -/
theorem parseRecords_prefix {rs : List ReceivedChunkRecord} (h : ∀ r ∈ rs, Writable r)
    {cut : Bytes} (hcut : cut <+: rs.flatMap recordLine) {out : List ReceivedChunkRecord}
    (hout : parseRecords cut.length cut = .ok out) :
    (∃ k, cut = (rs.take k).flatMap recordLine ∧ out = rs.take k) ∨
      ∃ xs r ys r', rs = xs ++ r :: ys ∧ out = xs ++ [r'] ∧
        (cut ++ [newline] = (xs ++ [r]).flatMap recordLine ∧ r' = r ∨
          r'.objectPath.length < r.objectPath.length) := by
  rcases List.prefix_flatMap hcut with ⟨k, hk⟩ | ⟨xs, r, ys, q, more, hrs, hline, hq, hmore, hxs⟩
  · left
    have hwrite : ∀ r ∈ rs.take k, Writable r := fun r hr => h r (List.mem_of_mem_take hr)
    have hparse := parseRecords_lines_append hwrite (cut.length - (rs.take k).length) []
    have hlen := length_le_lines (rs.take k)
    rw [← hk] at hlen
    rw [List.append_nil, ← hk, Nat.add_sub_cancel' hlen, parseRecords_nil, hout] at hparse
    refine ⟨k, hk, ?_⟩
    simpa using Except.ok.inj hparse
  · right
    subst hrs
    have hwrite : ∀ r ∈ xs, Writable r := fun x hx => h x (List.mem_append_left _ hx)
    have hr : Writable r := h r (by simp)
    have hlen := length_le_lines xs
    have hpos := List.length_pos_iff.mpr hq
    obtain ⟨fuel, hfuel⟩ : ∃ fuel, cut.length = xs.length + (fuel + 1) := by
      refine ⟨cut.length - xs.length - 1, ?_⟩
      rw [hxs, List.length_append] at *
      omega
    rw [hfuel, hxs, parseRecords_lines_append hwrite] at hout
    cases hparse : parseRecords (fuel + 1) q with
    | error e =>
      rw [hparse] at hout
      contradiction
    | ok out' =>
      rw [hparse] at hout
      obtain ⟨r', rfl, hr'⟩ := parseRecords_cut hr hline hq hmore hparse
      refine ⟨xs, r, ys, r', rfl, (Except.ok.inj hout).symm, ?_⟩
      rcases hr' with ⟨hnl, he⟩ | hshort
      · left
        refine ⟨?_, he⟩
        rw [hxs, List.append_assoc, ← hnl, hline, List.flatMap_append, List.flatMap_singleton]
      · exact .inr hshort

/-- Behind a line without its end the next line makes the file unreadable. -/
theorem parseRecords_joined {r q : ReceivedChunkRecord} (h : Writable r) {cut : Bytes}
    (hcut : cut ++ [newline] = recordLine r) (fuel : Nat) :
    ∃ e, parseRecords (fuel + 1) (cut ++ recordLine q) = .error e := by
  have hcut : cut = ascii "CHUNK" ++ space :: joinWith space (recordWords r).tail := by
    rw [recordLine_eq, ← List.cons_append, ← List.append_assoc] at hcut
    exact List.append_cancel_right hcut
  have htag : getWord (cut ++ recordLine q) = some (ascii "CHUNK",
      space :: (joinWith space (recordWords r).tail ++ recordLine q)) := by
    rw [hcut, List.append_assoc, List.cons_append,
      getWord_word (.of_test (by decide)) (head?_space space _ (by decide))]
  have hfull := @getRecord_line r h [] (by simp)
  have hnext : (recordLine q).takeWhile (fun b => !isSpace b) = ascii "CHUNK" := by
    have htest : (ascii "CHUNK").all (fun b => !isSpace b) = true := by decide
    rw [recordLine_eq]
    exact (takeWhile_append_stop (List.all_eq_true.mp htest) (by simp [isSpace, space])).1
  rw [List.append_nil] at hfull
  have hmore := getRecord_append_end hfull (recordLine q)
  rw [hnext, List.cons_append] at hmore
  have hodd : hexDecodeString (hexEncodeString r.objectPath ++ ascii "CHUNK") =
      .error (dpcError "invalid hex string length in manifest") := by
    have hfive : (ascii "CHUNK").length = 5 := by decide
    rw [hexDecodeString, if_pos]
    rw [List.length_append, hexEncodeString, length_hexEncode, hfive]
    omega
  refine ⟨dpcError "invalid hex string length in manifest", ?_⟩
  rw [parseRecords, htag]
  simp only [if_true, hmore, hexDecodeString_hexEncodeString, hodd, bind, Except.bind]

/-- Of some records, in order, those with an index that is not there yet. -/
def news : List ReceivedChunkRecord → List ReceivedChunkRecord → List ReceivedChunkRecord
  | _, [] => []
  | old, r :: rs =>
    if old.any (·.globalIndex == r.globalIndex) then news old rs else r :: news (old ++ [r]) rs

def appendChunks (env : Env) (sessionId : Bytes) : List ReceivedChunkRecord → Op Unit
  | [] => return ()
  | r :: rs => do
    appendChunk env sessionId r
    appendChunks env sessionId rs

variable {env : Env} {s t : Fs} {sessionId : Bytes} {rs old : List ReceivedChunkRecord}

theorem mem_news {r : ReceivedChunkRecord} (h : r ∈ news old rs) : r ∈ rs := by
  induction rs generalizing old with
  | nil => contradiction
  | cons q rs ih =>
    rw [news] at h
    split at h
    · exact List.mem_cons_of_mem _ (ih h)
    · rcases List.mem_cons.mp h with rfl | h
      · exact List.mem_cons_self
      · exact List.mem_cons_of_mem _ (ih h)

theorem getElem?_byGlobal_none {i : UInt64} :
    (byGlobal rs)[i]? = none ↔ ∀ r ∈ rs, r.globalIndex ≠ i := by
  induction rs using List.reverseRecOn with
  | nil => simp [byGlobal]
  | append_singleton rs x ih =>
    rw [getElem?_byGlobal_concat]
    by_cases hx : x.globalIndex = i
    · simp [hx]
    · simp [hx, ih, or_imp, forall_and]

theorem any_index {i : UInt64} :
    rs.any (·.globalIndex == i) = true ↔ (byGlobal rs)[i]? ≠ none := by
  rw [Ne, getElem?_byGlobal_none]
  simp

theorem leaf_of_textOf (h : textOf s sessionId ≠ []) : ∃ f, s.leaf? (path sessionId) = some f := by
  cases hf : s.leaf? (path sessionId) with
  | none => simp [textOf, hf] at h
  | some f => exact ⟨f, rfl⟩

theorem recorded_lines (h : ∀ r ∈ rs, Writable r) (ht : textOf s sessionId = rs.flatMap recordLine) :
    Recorded s sessionId rs := by
  have hlen := length_le_lines rs
  have hparse := parseRecords_lines_append h ((rs.flatMap recordLine).length - rs.length) []
  rw [List.append_nil, Nat.add_sub_cancel' hlen, parseRecords_nil] at hparse
  rw [Recorded, ht, hparse]
  simp [Except.map]

/-- A call writes its record behind the others, if its index is new. -/
theorem appendChunk_ok {r : ReceivedChunkRecord} (h : ∀ r ∈ old, Writable r)
    (ht : textOf s sessionId = old.flatMap recordLine) {u : Unit}
    (hx : (appendChunk env sessionId r).exec s = (.ok u, t)) :
    textOf t sessionId = (old ++ news old [r]).flatMap recordLine ∧ textOf t sessionId ≠ [] := by
  have hk : Keeps (fun _ _ _ => True) _ (appendChunk env sessionId r) s :=
    appendChunk_keeps (fun _ _ _ => trivial) fun _ _ _ _ _ => trivial
  obtain ⟨_, rs, hrs, hmatch⟩ := Keeps.ok hk hx
  cases hrs.unique (recorded_lines h ht)
  have hline : recordLine r ≠ [] := by simp [recordLine]
  rw [news, news, news]
  split at hmatch
  · rename_i found hfound
    have hany : old.any (·.globalIndex == r.globalIndex) = true := any_index.mpr (by simp [hfound])
    rw [if_pos hany, List.append_nil, ← ht]
    refine ⟨hmatch.2, ?_⟩
    rw [hmatch.2, ht]
    obtain ⟨hmem, _⟩ := mem_of_byGlobal hfound
    intro hnil
    have := List.flatMap_eq_nil_iff.mp hnil found hmem
    simp [recordLine] at this
  · rename_i hnone
    have hany : ¬old.any (·.globalIndex == r.globalIndex) = true := fun ha => any_index.mp ha hnone
    rw [if_neg hany, List.flatMap_append, List.flatMap_singleton, ← ht]
    exact ⟨hmatch, by rw [hmatch]; simp [hline]⟩

theorem news_cons (r : ReceivedChunkRecord) (rs : List ReceivedChunkRecord) :
    old ++ news old (r :: rs) = (old ++ news old [r]) ++ news (old ++ news old [r]) rs := by
  by_cases hany : old.any (·.globalIndex == r.globalIndex) = true
  · simp only [news, if_pos hany, List.append_nil]
  · simp only [news, if_neg hany, List.append_assoc, List.singleton_append]

theorem appendChunks_ok (hold : ∀ r ∈ old, Writable r) (hrs : ∀ r ∈ rs, Writable r)
    (ht : textOf s sessionId = old.flatMap recordLine) {u : Unit}
    (hx : (appendChunks env sessionId rs).exec s = (.ok u, t)) :
    textOf t sessionId = (old ++ news old rs).flatMap recordLine ∧
      (rs ≠ [] → textOf t sessionId ≠ []) := by
  induction rs generalizing s old with
  | nil =>
    cases hx
    exact ⟨by rw [news, List.append_nil, ht], fun h => absurd rfl h⟩
  | cons r rs ih =>
    simp only [appendChunks, Prog.bind_eq] at hx
    obtain ⟨_, m, hone, hrest⟩ := Prog.exec_bind_ok hx
    obtain ⟨hm, hne⟩ := appendChunk_ok hold ht hone
    have hall : ∀ q ∈ old ++ news old [r], Writable q := by
      intro q hq
      rcases List.mem_append.mp hq with hq | hq
      · exact hold q hq
      · exact hrs q (List.mem_cons.mpr (.inl (List.mem_singleton.mp (mem_news hq))))
    obtain ⟨htext, hlast⟩ := ih hall (fun q hq => hrs q (List.mem_cons_of_mem _ hq)) hm hrest
    rw [news_cons]
    refine ⟨htext, fun _ => ?_⟩
    by_cases he : rs = []
    · subst he
      cases hrest
      exact hne
    · exact hlast he

theorem records_ok (hx : (records sessionId).exec s = (.ok rs, t)) : t = s ∧ Recorded s sessionId rs := by
  have hk : Keeps (fun _ _ _ => True) _ (records sessionId) s := records_keeps
  have hq := Keeps.ok hk hx
  exact hq

theorem exec_records {f : File} (hf : s.leaf? (path sessionId) = some f)
    (h : Recorded s sessionId rs) : (records sessionId).exec s = (.ok rs, s) := by
  have htext : textOf s sessionId = f.data := by
    rw [textOf, hf]
    rfl
  rw [Recorded, htext] at h
  simp only [records, FileUtils.readTextFile, Prog.bind_eq]
  rw [Prog.exec_bind_of_ok (FileUtils.exec_pathExists_some hf), if_pos rfl,
    Prog.exec_bind_of_ok (FileUtils.exec_readFile_some hf), h, Prog.exec_ofExcept]

/-- What a session with these records has received. -/
def receivedOf (rs : List ReceivedChunkRecord) : List (UInt64 × Bytes) :=
  (byGlobal rs).toList.map fun e => (e.1, e.2.sha256)

theorem exec_received {f : File} (hf : s.leaf? (path sessionId) = some f)
    (h : Recorded s sessionId rs) :
    (received sessionId).exec s = (.ok (receivedOf rs), s) := by
  simp only [received, Prog.bind_eq]
  rw [Prog.exec_bind_of_ok (exec_records hf h)]
  rfl

/-- Where there is a session file that is read, a record with a new index can be appended. -/
theorem appendChunk_new {r : ReceivedChunkRecord} {f : File}
    (hf : s.leaf? (path sessionId) = some f) (h : Recorded s sessionId rs)
    (hnew : ∀ q ∈ rs, q.globalIndex ≠ r.globalIndex) :
    ∃ t, (appendChunk env sessionId r).exec s = (.ok (), t) ∧
      textOf t sessionId = textOf s sessionId ++ recordLine r := by
  have hnone := getElem?_byGlobal_none.mpr hnew
  have hget := Tree.leaf?_eq_some.mp hf
  have hdir : s.get? sessionsDir = some .dir :=
    s.dir_of_prefix (p := sessionsDir) (List.cons_ne_nil _ []) (by rw [← path, hget]; simp)
  have hname : badName s.nameMax (hexEncodeString sessionId ++ ascii ".session") = false :=
    s.name_fits (p := sessionsDir) (by rw [← path, hget]; simp)
  obtain ⟨t, ht⟩ := Tree.place_succeeds
    (Node.leaf (appended (recordLine r) (0o666 &&& ~~~env.umask) (s.leaf? (path sessionId))))
    hdir hname (by rw [← path, hget]; simp)
  have happend : Effect.apply (FsEffect.append (path sessionId) (recordLine r)
      (0o666 &&& ~~~env.umask) (dpcError "open session index failed: ")) s = .ok t := by
    simp only [Effect.apply, FsEffect.apply, Tree.upsertLeaf]
    rw [path] at ht ⊢
    rw [ht]
    rfl
  have hmkdir : (FileUtils.ensureDirectory sessionsDir).exec s = (.ok (), s) :=
    FileUtils.ensureDirectory_iff.mpr (Tree.mkdirs_of_dir hdir)
  refine ⟨t, ?_, textOf_append happend⟩
  simp only [appendChunk, Prog.bind_eq]
  rw [Prog.exec_bind_of_ok (exec_received hf h), receivedOf, find?_received, hnone]
  simp only [Option.map_none, appendLine, Prog.bind_eq]
  rw [Prog.exec_bind_of_ok hmkdir, Prog.exec_perform, happend]

/-- Where every index is there, nothing is written. -/
theorem appendChunks_full {more : List ReceivedChunkRecord} (h : Recorded s sessionId rs)
    (hall : ∀ i, ∃ r ∈ rs, r.globalIndex = i) {u : Unit}
    (hx : (appendChunks env sessionId more).exec s = (.ok u, t)) : t = s := by
  induction more generalizing s with
  | nil =>
    cases hx
    rfl
  | cons r more ih =>
    simp only [appendChunks, appendChunk, Prog.bind_eq] at hx
    obtain ⟨_, m, hone, hrest⟩ := Prog.exec_bind_ok hx
    obtain ⟨list, m', hlist, hone⟩ := Prog.exec_bind_ok hone
    have hk : Keeps (fun _ _ _ => True) _ (received sessionId) s := received_keeps
    obtain ⟨rfl, rs', hrs', rfl⟩ := Keeps.ok hk hlist
    cases h.unique hrs'
    rw [find?_received] at hone
    cases hfound : (byGlobal rs)[r.globalIndex]? with
    | none =>
      obtain ⟨q, hq, hi⟩ := hall r.globalIndex
      exact absurd hi (getElem?_byGlobal_none.mp hfound q hq)
    | some found =>
      rw [hfound] at hone
      simp only [Option.map_some] at hone
      split at hone
      · simp at hone
      · cases hone
        exact ih h hrest

theorem news_full {more : List ReceivedChunkRecord} (hall : ∀ i, ∃ r ∈ rs, r.globalIndex = i) :
    news rs more = [] := by
  induction more with
  | nil => rfl
  | cons r more ih =>
    obtain ⟨q, hq, hi⟩ := hall r.globalIndex
    rw [news, if_pos (List.any_eq_true.mpr ⟨q, hq, by simp [hi]⟩), ih]

/-- A line is read without its end too. -/
theorem parseRecords_unended {r : ReceivedChunkRecord} (h : Writable r) {cut : Bytes}
    (hcut : cut ++ [newline] = recordLine r) (fuel : Nat) :
    parseRecords (fuel + 1) cut = .ok [r] := by
  have hcut : cut = ascii "CHUNK" ++ space :: (joinWith space (recordWords r).tail ++ []) := by
    rw [recordLine_eq, ← List.cons_append, ← List.append_assoc] at hcut
    rw [List.append_nil]
    exact List.append_cancel_right hcut
  rw [parseRecords, hcut, getWord_word (.of_test (by decide)) (head?_space space _ (by decide))]
  simp only [if_true, @getRecord_line r h [] (by simp), hexDecodeString_hexEncodeString,
    parseRecords_nil, bind, Except.bind, pure, Except.pure]

end Dpc.SessionIndex
