import Dpc.Core.ManifestFormat

namespace Dpc.ManifestStore
open Text Effects

variable {manifest m : Manifest} {files : List FileManifest} {lines rest done : List Bytes} {n : Nat}

theorem suffix_of_consume {key : String} {value : Bytes} (h : consume key lines = .ok (value, rest)) :
    rest <:+ lines := by
  obtain ⟨_, line, rfl⟩ := consume_ok h
  exact List.suffix_cons line rest

theorem suffix_of_parseChunks {chunks : List ChunkRef} (h : parseChunks n lines = .ok (chunks, rest)) :
    rest <:+ lines := by
  induction n generalizing lines chunks with
  | zero =>
    cases h
    exact List.suffix_refl _
  | succ n ih =>
    cases lines with
    | nil => contradiction
    | cons line lines =>
      rw [parseChunks] at h
      obtain ⟨chunk, _, h⟩ := bind_eq_ok.mp h
      obtain ⟨parsed, hrest, h⟩ := bind_eq_ok.mp h
      obtain ⟨more, after⟩ := parsed
      cases h
      exact (ih hrest).trans (List.suffix_cons line lines)

theorem suffix_of_parseFiles (h : parseFiles n lines = .ok (files, rest)) : rest <:+ lines := by
  induction n generalizing lines files with
  | zero =>
    cases h
    exact List.suffix_refl _
  | succ n ih =>
    cases lines with
    | nil =>
      cases h
      exact List.suffix_refl _
    | cons line lines =>
      rw [parseFiles] at h
      split at h
      · cases h
        exact List.suffix_refl _
      obtain ⟨opened, _, h⟩ := bind_eq_ok.mp h
      obtain ⟨taken, hchunks, h⟩ := bind_eq_ok.mp h
      obtain ⟨chunks, after⟩ := taken
      have hafter := (suffix_of_parseChunks hchunks).trans (List.suffix_cons line lines)
      dsimp only at h
      split at h
      · rename_i tag after
        split at h
        · contradiction
        · obtain ⟨parsed, hrest, h⟩ := bind_eq_ok.mp h
          obtain ⟨more, last⟩ := parsed
          cases h
          exact (ih hrest).trans ((List.suffix_cons tag after).trans hafter)
      · contradiction

theorem suffix_of_parseHeader {count : UInt64} (h : parseHeader lines = .ok (manifest, count, rest)) :
    rest <:+ lines := by
  unfold parseHeader at h
  obtain ⟨c1, h1, h⟩ := bind_eq_ok.mp h
  obtain ⟨_, _, h⟩ := bind_eq_ok.mp h
  obtain ⟨c2, h2, h⟩ := bind_eq_ok.mp h
  obtain ⟨_, _, h⟩ := bind_eq_ok.mp h
  obtain ⟨c3, h3, h⟩ := bind_eq_ok.mp h
  obtain ⟨_, _, h⟩ := bind_eq_ok.mp h
  obtain ⟨c4, h4, h⟩ := bind_eq_ok.mp h
  obtain ⟨_, _, h⟩ := bind_eq_ok.mp h
  obtain ⟨c5, h5, h⟩ := bind_eq_ok.mp h
  obtain ⟨_, _, h⟩ := bind_eq_ok.mp h
  obtain ⟨c6, h6, h⟩ := bind_eq_ok.mp h
  obtain ⟨_, _, h⟩ := bind_eq_ok.mp h
  obtain ⟨c7, h7, h⟩ := bind_eq_ok.mp h
  obtain ⟨_, _, h⟩ := bind_eq_ok.mp h
  cases h
  exact (suffix_of_consume h7).trans ((suffix_of_consume h6).trans ((suffix_of_consume h5).trans
    ((suffix_of_consume h4).trans ((suffix_of_consume h3).trans ((suffix_of_consume h2).trans
      (suffix_of_consume h1))))))

/-- The last line of a manifest that is read is `END`. -/
theorem last_of_parse {text : Bytes} (h : parse text = .ok manifest) :
    ∃ front, splitLines text = front ++ [ascii "END"] := by
  unfold parse at h
  split at h
  · contradiction
  rename_i first lines hlines
  split at h
  · contradiction
  obtain ⟨⟨header, expected, after⟩, hheader, h⟩ := bind_eq_ok.mp h
  obtain ⟨⟨files, rest⟩, hfiles, h⟩ := bind_eq_ok.mp h
  have hsuffix := (suffix_of_parseFiles hfiles).trans (suffix_of_parseHeader hheader)
  dsimp only at h
  split at h
  · contradiction
  rename_i tag rest
  split at h
  · contradiction
  rename_i htag
  split at h
  · contradiction
  split at h
  · contradiction
  rename_i hrest
  rw [not_not] at htag hrest
  subst htag hrest
  obtain ⟨front, hfront⟩ := hsuffix
  exact ⟨first :: front, by rw [hlines, ← hfront, List.cons_append]⟩

theorem split_absent {α : Type} {x : α} {a b c d : List α} (hx : x ∉ a)
    (h : a ++ b = c ++ x :: d) : ∃ more, c = a ++ more ∧ b = more ++ x :: d := by
  rcases List.append_eq_append_iff.mp h with ⟨more, hc, hb⟩ | ⟨more, ha, hd⟩
  · exact ⟨more, hc, hb⟩
  · cases more with
    | nil => exact ⟨[], by simpa using ha.symm, by simpa using hd.symm⟩
    | cons y more =>
      cases hd
      exact absurd (ha ▸ List.mem_append_right c List.mem_cons_self) hx

/-- The lines of a file before its last one. -/
def openLines (file : FileManifest) : List Bytes :=
  joinWith space (fileWords file) :: file.chunks.map fun chunk => joinWith space (chunkWords chunk)

theorem fileLines_eq (file : FileManifest) : fileLines file = openLines file ++ [ascii "END_FILE"] :=
  rfl

/-- A line that begins like `END` is one of the two tags. -/
theorem not_end_openLines {file : FileManifest} {l : Bytes} (hl : l ∈ openLines file) :
    ¬ascii "END" <+: l := by
  intro hp
  obtain ⟨more, rfl⟩ := hp
  rcases List.mem_cons.mp hl with hl | hl
  · have hhead := congrArg List.head? hl
    simp [fileWords, joinWith, ascii] at hhead
  · obtain ⟨chunk, _, hchunk⟩ := List.mem_map.mp hl
    have hhead := congrArg List.head? hchunk
    simp [chunkWords, joinWith, ascii] at hhead

theorem not_end_headerLines {l : Bytes} (hl : l ∈ headerLines manifest) : ¬ascii "END" <+: l := by
  intro hp
  obtain ⟨more, rfl⟩ := hp
  simp only [headerLines, List.mem_cons, List.not_mem_nil, or_false] at hl
  rcases hl with hl | hl | hl | hl | hl | hl | hl | hl
  all_goals
    have hhead := congrArg List.head? hl
    simp [joinWith, ascii] at hhead

theorem end_prefix {l : Bytes} (hl : l ∈ manifestLines manifest) (hp : ascii "END" <+: l) :
    l = ascii "END" ∨ l = ascii "END_FILE" := by
  rw [manifestLines, List.mem_append, List.mem_append, List.mem_singleton, List.mem_flatMap] at hl
  rcases hl with (hl | ⟨file, _, hl⟩) | hl
  · exact absurd hp (not_end_headerLines hl)
  · rw [fileLines_eq, List.mem_append, List.mem_singleton] at hl
    rcases hl with hl | hl
    · exact absurd hp (not_end_openLines hl)
    · exact .inr hl
  · exact .inl hl

/-- `END` is the last line, and no line before it. -/
theorem end_not_mem : ascii "END" ∉ headerLines manifest ++ manifest.files.flatMap fileLines := by
  intro hmem
  rw [List.mem_append, List.mem_flatMap] at hmem
  rcases hmem with hl | ⟨file, _, hl⟩
  · exact not_end_headerLines hl (List.prefix_refl _)
  · rw [fileLines_eq, List.mem_append, List.mem_singleton] at hl
    rcases hl with hl | hl
    · exact not_end_openLines hl (List.prefix_refl _)
    · exact absurd hl (by decide)

theorem parseFiles_open {file : FileManifest} (h : PrintableFile file) (hw : WellFormedFile file)
    (more : List Bytes) : parseFiles (n + 1) (openLines file ++ more) =
      match more with
      | tag :: rest =>
        if tag ≠ ascii "END_FILE" then .error (dpcError "manifest missing END_FILE")
        else (parseFiles n rest).map fun parsed => (file :: parsed.1, parsed.2)
      | [] => .error (dpcError "manifest missing END_FILE") := by
  obtain ⟨p, hp⟩ := (FileUtils.safePath_iff "manifest relative_path").mp hw.path
  have hsha : Hash.requireSha256Hex file.fileSha256 "manifest file_sha256" = .ok () :=
    Hash.requireSha256Hex_of hw.sha
  have hline : parseFileLine (joinWith space (fileWords file)) =
      .ok ({ file with chunks := [] }, UInt64.ofNat file.chunks.length) := by
    rw [parseFileLine_line h, hp, hsha]
    rfl
  have hcount : (UInt64.ofNat file.chunks.length).toNat = file.chunks.length := by
    rw [UInt64.toNat_ofNat_of_lt' h.count]
  have hchunks : parseChunks file.chunks.length
      ((file.chunks.map fun chunk => joinWith space (chunkWords chunk)) ++ more) =
        .ok (file.chunks, more) := by
    rw [parseChunks_lines h.chunks, checkChunks_ok.mpr hw.chunks]
    rfl
  rw [openLines, List.cons_append, parseFiles, if_neg (fileLine_ne_end file), hline]
  simp only [bind, Except.bind, hcount, hchunks]
  cases more with
  | nil => rfl
  | cons tag rest =>
    dsimp only
    split
    · rfl
    · cases parseFiles n rest with
      | error e => rfl
      | ok parsed => rfl

/-- Where the last line is a tag of a file cut short, the file is not taken. -/
theorem parseFiles_cut (hf : ∀ file ∈ files, PrintableFile file)
    (hw : ∀ file ∈ files, WellFormedFile file)
    (h : files.flatMap fileLines ++ [ascii "END"] = done ++ ascii "END_FILE" :: rest)
    (hn : done.length < n) : ∃ e, parseFiles n (done ++ [ascii "END"]) = .error e := by
  induction files generalizing n done with
  | nil =>
    rw [List.flatMap_nil, List.nil_append] at h
    have hmem : ascii "END_FILE" ∈ [ascii "END"] := h ▸ List.mem_append_right done List.mem_cons_self
    exact absurd hmem (by decide)
  | cons file files ih =>
    have hfile := hf file List.mem_cons_self
    have hwf := hw file List.mem_cons_self
    obtain ⟨n, rfl⟩ := Nat.exists_eq_succ_of_ne_zero (Nat.ne_zero_of_lt hn)
    rw [List.flatMap_cons, fileLines_eq, List.append_assoc, List.append_assoc] at h
    have habsent : ascii "END_FILE" ∉ openLines file := fun hl =>
      not_end_openLines hl ⟨ascii "_FILE", by decide⟩
    obtain ⟨more, rfl, hmore⟩ := split_absent habsent h
    rw [List.append_assoc, parseFiles_open hfile hwf]
    cases more with
    | nil => exact ⟨_, rfl⟩
    | cons tag more =>
      obtain ⟨rfl, hnext⟩ := List.cons.inj hmore
      have hlen : more.length < n := by
        rw [List.length_append, List.length_cons] at hn
        omega
      obtain ⟨e, he⟩ := ih (fun f hm => hf f (List.mem_cons_of_mem _ hm))
        (fun f hm => hw f (List.mem_cons_of_mem _ hm)) hnext hlen
      refine ⟨e, ?_⟩
      simp [he, Except.map]

theorem parse_congr {t u : Bytes} (h : splitLines t = splitLines u) : parse t = parse u := by
  rw [parse, parse, h]

/-- A manifest that ends in a tag of a file cut short is not read. -/
theorem parse_cut {t : Bytes} (h : WellFormed manifest)
    (hlines : splitLines t = done ++ [ascii "END"])
    (hcut : manifestLines manifest = done ++ ascii "END_FILE" :: rest) : ∃ e, parse t = .error e := by
  have hprint := h.printable
  have habsent : ascii "END_FILE" ∉ headerLines manifest := fun hl =>
    not_end_headerLines hl ⟨ascii "_FILE", by decide⟩
  rw [manifestLines, List.append_assoc] at hcut
  obtain ⟨more, rfl, hmore⟩ := split_absent habsent hcut
  have hall : splitLines t = ascii "DPC_MANIFEST_V1" ::
      ((headerLines manifest).tail ++ (more ++ [ascii "END"])) := by
    rw [hlines, List.append_assoc]
    rfl
  obtain ⟨e, he⟩ := @parseFiles_cut manifest.files rest more (more ++ [ascii "END"]).length
    hprint.files (fun file hf => (h.files file hf).1) hmore (by simp)
  refine ⟨e, ?_⟩
  simp only [parse, hall, ne_eq, not_true_eq_false, if_false, parseHeader_lines h.root, bind,
    Except.bind, he]

theorem splitLines_partial {ls : List Bytes} {p : Bytes} (h : ∀ l ∈ ls, PlainLine l)
    (hp : PlainLine p) :
    splitLines (ls.flatMap (· ++ [newline]) ++ p) = ls ++ if p = [] then [] else [p] := by
  have hall : ∀ l ∈ ls ++ (if p = [] then [] else [p]), PlainLine l := by
    intro l hl
    rcases List.mem_append.mp hl with hl | hl
    · exact h l hl
    · by_cases hnil : p = []
      · simp [hnil] at hl
      · simp only [hnil, if_false, List.mem_singleton] at hl
        exact hl ▸ hp
  rw [splitLines, getlines_partial (fun l hl => (h l hl).noNewline) hp.noNewline,
    List.map_congr_left fun l hl => stripCr_plain (hall l hl), List.map_id']

/-- The last line needs no newline. -/
theorem parse_without_newline {t : Bytes} (h : WellFormed manifest)
    (ht : t ++ [newline] = serialize manifest) : parse t = .ok manifest := by
  have hplain := plain_manifestLines h.printable
  rw [manifestLines] at hplain
  have htext : t = (headerLines manifest ++ manifest.files.flatMap fileLines).flatMap
      (· ++ [newline]) ++ ascii "END" := by
    refine List.append_cancel_right (?_ : t ++ [newline] = _ ++ [newline])
    rw [ht, serialize, manifestLines, List.flatMap_append, List.flatMap_singleton, List.append_assoc]
  rw [← parse_of_wellFormed h]
  apply parse_congr
  have hend : ascii "END" ≠ [] := by decide
  rw [serialize, splitLines_plain (plain_manifestLines h.printable), htext,
    splitLines_partial (fun l hl => hplain l (List.mem_append_left _ hl))
      (hplain _ (List.mem_append_right _ List.mem_cons_self)), if_neg hend, manifestLines]

/-- Lines that end in `END` are all of the lines. -/
theorem end_is_last {front : List Bytes} (h : front ++ [ascii "END"] <+: manifestLines manifest) :
    front ++ [ascii "END"] = manifestLines manifest := by
  rw [manifestLines] at h ⊢
  rcases List.prefix_concat_iff.mp h with he | hp
  · exact he
  · exact absurd (hp.subset (List.mem_append_right front List.mem_cons_self)) end_not_mem

/-- A proper prefix of a manifest that was written is no manifest, but for the one that lacks
the last newline only, which is the same. -/
theorem truncated_manifest_fails {t : Bytes} (h : WellFormed manifest) (hp : t <+: serialize manifest)
    (hne : t ≠ serialize manifest) :
    (t ++ [newline] = serialize manifest ∧ parse t = .ok manifest) ∨
      t ++ [newline] ≠ serialize manifest ∧ ∃ e, parse t = .error e := by
  by_cases hall : t ++ [newline] = serialize manifest
  · exact .inl ⟨hall, parse_without_newline h hall⟩
  refine .inr ⟨hall, ?_⟩
  cases hparse : parse t with
  | error e => exact ⟨e, rfl⟩
  | ok m =>
    have hplain := plain_manifestLines h.printable
    rcases prefix_unlines hp with he | ⟨done, l, rest, p, hlines, hpl, rfl⟩
    · exact absurd he hne
    have hmem : l ∈ manifestLines manifest := hlines ▸ List.mem_append_right done List.mem_cons_self
    have hdone : ∀ k ∈ done, PlainLine k := fun k hk => hplain k (hlines ▸ List.mem_append_left _ hk)
    have hpart : PlainLine p :=
      ⟨fun hb => (hplain l hmem).noNewline (hpl.subset hb), fun hb => (hplain l hmem).noCr (hpl.subset hb)⟩
    have hsplit := splitLines_partial hdone hpart
    obtain ⟨front, hfront⟩ := last_of_parse hparse
    rw [hfront] at hsplit
    by_cases hnil : p = []
    -- the text ends with a line
    · rw [if_pos hnil, List.append_nil] at hsplit
      have hwhole := end_is_last (hsplit ▸ hlines ▸ List.prefix_append done (l :: rest))
      rw [hsplit, hlines] at hwhole
      simp at hwhole
    -- the text ends in a line that reads `END`
    rw [if_neg hnil] at hsplit
    obtain ⟨rfl, hend⟩ := List.append_inj' hsplit rfl
    obtain rfl : p = ascii "END" := (List.singleton_inj.mp hend).symm
    rcases end_prefix hmem hpl with rfl | rfl
    · have hprefix : front ++ [ascii "END"] <+: manifestLines manifest := by
        rw [hlines]
        exact ⟨rest, List.append_assoc front [ascii "END"] rest⟩
      have hwhole := end_is_last hprefix
      refine absurd ?_ hall
      rw [serialize, ← hwhole, List.flatMap_append, List.flatMap_singleton, List.append_assoc]
    · obtain ⟨e, he⟩ := parse_cut h hfront hlines
      rw [hparse] at he
      contradiction

/-- The cut of `END_FILE` that looks like the end of a manifest. -/
theorem cut_end_file_fails : ∃ e, parse ((serialize chunkedManifest).take
    ((serialize chunkedManifest).length - 10)) = .error e := by
  have hcut := truncated_manifest_fails (t := (serialize chunkedManifest).take
    ((serialize chunkedManifest).length - 10)) wellFormed_chunked (List.take_prefix _ _)
    (by decide +kernel)
  rcases hcut with ⟨hall, _⟩ | ⟨_, herror⟩
  · exact absurd hall (by decide +kernel)
  · exact herror

end Dpc.ManifestStore
