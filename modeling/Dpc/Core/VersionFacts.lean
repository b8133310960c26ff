import Dpc.Common.EffectFacts
import Dpc.Core.ManifestStore
import Mathlib.Data.List.Sort

namespace Dpc.ManifestStore
open Text FileTree Effects

theorem isDigit_zeroPadVersion (v : UInt64) : ∀ b ∈ zeroPadVersion v, isDigit b = true := by
  intro b hb
  simp only [zeroPadVersion, List.leftpad, List.mem_append, List.mem_replicate] at hb
  rcases hb with ⟨_, rfl⟩ | hb
  · decide
  · exact isDigit_of_mem_decimal hb

@[simp] theorem digitsValue_zeroPadVersion (v : UInt64) :
    digitsValue (zeroPadVersion v) = v.toNat := by
  simp [zeroPadVersion, List.leftpad, digitsValue_zeros, number]

theorem zeroPadVersion_injective {v w : UInt64} (h : zeroPadVersion v = zeroPadVersion w) :
    v = w := by
  have := congrArg digitsValue h
  rw [digitsValue_zeroPadVersion, digitsValue_zeroPadVersion] at this
  exact UInt64.toNat_inj.mp this

/-- Below a million the number takes six digits, from there on more. -/
theorem length_zeroPadVersion (v : UInt64) :
    (zeroPadVersion v).length = 6 ↔ v.toNat < 10 ^ 6 := by
  have hle : (number v).length ≤ 6 ↔ v.toNat < 10 ^ 6 := length_decimal_le (by decide)
  rw [← hle]
  simp only [zeroPadVersion, List.leftpad, List.length_append, List.length_replicate]
  omega

theorem versionFileName_injective {v w : UInt64} {suffix : String}
    (h : versionFileName v suffix = versionFileName w suffix) : v = w := by
  simp only [versionFileName, List.append_cancel_left_eq, List.append_cancel_right_eq,
    List.append_assoc] at h
  exact zeroPadVersion_injective h

theorem versionFileName_eq_iff {v w : UInt64} {suffix : String} :
    versionFileName v suffix = versionFileName w suffix ↔ v = w :=
  ⟨versionFileName_injective, fun h => by rw [h]⟩

theorem commitPath_injective {v w : UInt64} (h : commitPath v = commitPath w) : v = w := by
  simp only [commitPath, List.append_cancel_left_eq, List.cons.injEq, and_true] at h
  exact versionFileName_injective h

theorem manifestPath_injective {v w : UInt64} (h : manifestPath v = manifestPath w) : v = w := by
  simp only [manifestPath, List.append_cancel_left_eq, List.cons.injEq, and_true] at h
  exact versionFileName_injective h

theorem last_two {xs suffix : Bytes} (h : 2 ≤ suffix.length) :
    (xs ++ suffix).reverse.take 2 = suffix.reverse.take 2 := by
  rw [List.reverse_append, List.take_append_of_le_length (by simpa using h)]

/-- The two kinds of names end in different letters. -/
theorem manifestPath_ne_commitPath (v w : UInt64) : manifestPath v ≠ commitPath w := by
  intro h
  simp only [manifestPath, commitPath, List.append_cancel_left_eq, List.cons.injEq,
    and_true] at h
  have hl := congrArg (fun n => n.reverse.take 2) h
  simp only [versionFileName] at hl
  rw [last_two (by decide), last_two (by decide)] at hl
  revert hl
  decide

/-- A version's marker counts as one exactly while its number has six digits. -/
theorem isMarkerName_versionFileName (v : UInt64) :
    isMarkerName (versionFileName v ".commit") = true ↔ v.toNat < 10 ^ 6 := by
  rw [← length_zeroPadVersion]
  have h8 : (ascii "version-").length = 8 := by decide
  have h7 : (ascii ".commit").length = 7 := by decide
  constructor
  · intro h
    simp only [isMarkerName, Bool.and_eq_true, beq_iff_eq] at h
    have hl := h.1.2
    simp only [versionFileName, List.length_append, h8, h7] at hl
    omega
  · intro h
    have hp : (ascii "version-").isPrefixOf (versionFileName v ".commit") = true := by
      rw [List.isPrefixOf_iff_prefix, versionFileName, List.append_assoc]
      exact List.prefix_append _ _
    have hd : (versionFileName v ".commit").drop 14 = ascii ".commit" := by
      rw [versionFileName]
      exact List.drop_left' (by simp [h8, h])
    have hl : (versionFileName v ".commit").length = 21 := by
      simp [versionFileName, h8, h7, h]
    simp [isMarkerName, hp, hd, hl]

theorem not_marker_manifest (v : UInt64) : isMarkerName (versionFileName v ".manifest") = false := by
  have hlen : (versionFileName v ".manifest").length ≠ 21 := by
    have h9 : (ascii ".manifest").length = 9 := by decide
    have h8 : (ascii "version-").length = 8 := by decide
    have h6 : 6 ≤ (zeroPadVersion v).length := by
      simp only [zeroPadVersion, List.leftpad, List.length_append, List.length_replicate]
      omega
    simp only [versionFileName, List.length_append, h8, h9]
    omega
  simp [isMarkerName, hlen]

theorem markerNumber_versionFileName {v : UInt64} (h : v.toNat < 10 ^ 6) :
    markerNumber (versionFileName v ".commit") = .ok v := by
  have hlen := (length_zeroPadVersion v).mpr h
  have hmid : ((versionFileName v ".commit").drop 8).take 6 = zeroPadVersion v := by
    rw [versionFileName, List.append_assoc, List.drop_left' (by decide), List.take_left' hlen]
  have hne : zeroPadVersion v ≠ [] := by
    intro he
    rw [he] at hlen
    contradiction
  have hall : (zeroPadVersion v).all isDigit = true :=
    List.all_eq_true.mpr (isDigit_zeroPadVersion v)
  have hlt : ¬2 ^ 64 ≤ v.toNat := Nat.not_le.mpr v.toNat_lt
  have hnumber : parseNumber (2 ^ 64) (zeroPadVersion v) "version" = .ok v.toNat := by
    rw [parseNumber, if_neg (by simp [hne, hall]), digitsValue_zeroPadVersion, if_neg hlt]
  rw [markerNumber, hmid, parseU64, hnumber]
  simp [Except.map]

/-- Only a version's own marker is read as that version. -/
theorem eq_of_markerNumber {name : Name} {v : UInt64} (hm : isMarkerName name = true)
    (h : markerNumber name = .ok v) : name = versionFileName v ".commit" ∧ v.toNat < 10 ^ 6 := by
  simp only [isMarkerName, Bool.and_eq_true, beq_iff_eq, List.isPrefixOf_iff_prefix] at hm
  obtain ⟨⟨⟨rest, rfl⟩, hlen⟩, hdrop⟩ := hm
  have h8 : (ascii "version-").length = 8 := by decide
  rw [List.length_append, h8] at hlen
  have hrest : (ascii "version-" ++ rest).drop 8 = rest := List.drop_left' h8
  have hend : rest.drop 6 = ascii ".commit" := by
    rw [← hdrop, show 14 = 8 + 6 from rfl, ← List.drop_drop, hrest]
  simp only [markerNumber, hrest, parseU64, parseNumber, Except.map] at h
  split at h
  · contradiction
  rename_i e n hn
  cases h
  split at hn
  · contradiction
  rename_i hdig
  split at hn
  · contradiction
  cases hn
  simp only [not_or, not_not] at hdig
  have hsix : (rest.take 6).length = 6 := by
    rw [List.length_take]
    omega
  have hlt := digitsValue_lt (List.all_eq_true.mp hdig.2)
  rw [hsix] at hlt
  have hval : (UInt64.ofNat (digitsValue (rest.take 6))).toNat = digitsValue (rest.take 6) := by
    rw [UInt64.toNat_ofNat']
    exact Nat.mod_eq_of_lt (by omega)
  have hlt' : (UInt64.ofNat (digitsValue (rest.take 6))).toNat < 10 ^ 6 := by rwa [hval]
  have hpad : zeroPadVersion (UInt64.ofNat (digitsValue (rest.take 6))) = rest.take 6 := by
    refine digitsValue_inj ?_ (isDigit_zeroPadVersion _) (List.all_eq_true.mp hdig.2) ?_
    · rw [(length_zeroPadVersion _).mpr hlt', hsix]
    · rw [digitsValue_zeroPadVersion, hval]
  refine ⟨?_, hlt'⟩
  rw [versionFileName, hpad, ← hend, List.append_assoc, List.take_append_drop]

/-- A version is listed: its marker is there, and its number has six digits. -/
def Listed (t : Fs) (v : UInt64) : Prop := v.toNat < 10 ^ 6 ∧ (t.leaf? (commitPath v)).isSome

instance (t : Fs) (v : UInt64) : Decidable (Listed t v) :=
  inferInstanceAs (Decidable (_ ∧ _))

theorem mem_markerNumbers {names : List Name} {vs : List UInt64} {v : UInt64}
    (h : markerNumbers names = .ok vs) :
    v ∈ vs ↔ v.toNat < 10 ^ 6 ∧ versionFileName v ".commit" ∈ names := by
  induction names generalizing vs with
  | nil =>
    cases h
    simp
  | cons name names ih =>
    simp only [markerNumbers] at h
    split at h
    · rename_i hm
      simp only [bind, Except.bind, pure, Except.pure] at h
      split at h
      · contradiction
      rename_i w hw
      split at h
      · contradiction
      rename_i ws hws
      cases h
      obtain ⟨hname, hlt⟩ := eq_of_markerNumber hm hw
      rw [List.mem_cons, ih hws, List.mem_cons, hname, versionFileName_eq_iff]
      constructor
      · rintro (rfl | ⟨h1, h2⟩)
        · exact ⟨hlt, .inl rfl⟩
        · exact ⟨h1, .inr h2⟩
      · rintro ⟨h1, h2 | h2⟩
        · exact .inl h2
        · exact .inr ⟨h1, h2⟩
    · rename_i hm
      rw [ih h, List.mem_cons]
      constructor
      · rintro ⟨h1, h2⟩
        exact ⟨h1, .inr h2⟩
      · rintro ⟨h1, h2 | h2⟩
        · rw [← h2] at hm
          exact absurd ((isMarkerName_versionFileName v).mpr h1) hm
        · exact ⟨h1, h2⟩

theorem nodup_markerNumbers {names : List Name} {vs : List UInt64} (hn : names.Nodup)
    (h : markerNumbers names = .ok vs) : vs.Nodup := by
  induction names generalizing vs with
  | nil =>
    cases h
    exact .nil
  | cons name names ih =>
    obtain ⟨hnew, hn⟩ := List.nodup_cons.mp hn
    simp only [markerNumbers] at h
    split at h
    · rename_i hm
      simp only [bind, Except.bind, pure, Except.pure] at h
      split at h
      · contradiction
      rename_i w hw
      split at h
      · contradiction
      rename_i ws hws
      cases h
      refine List.nodup_cons.mpr ⟨?_, ih hn hws⟩
      intro hmem
      obtain ⟨hname, _⟩ := eq_of_markerNumber hm hw
      exact hnew (hname ▸ ((mem_markerNumbers hws).mp hmem).2)
    · exact ih hn h

theorem markerNumbers_parses {names : List Name} {vs : List UInt64}
    (h : markerNumbers names = .ok vs) :
    ∀ name ∈ names, isMarkerName name = true → ∃ v, markerNumber name = .ok v := by
  induction names generalizing vs with
  | nil => simp
  | cons name names ih =>
    intro n hn hm
    simp only [markerNumbers] at h
    split at h
    · simp only [bind, Except.bind, pure, Except.pure] at h
      split at h
      · contradiction
      rename_i w hw
      split at h
      · contradiction
      rename_i ws hws
      rcases List.mem_cons.mp hn with rfl | hn
      · exact ⟨w, hw⟩
      · exact ih hws n hn hm
    · rename_i hno
      rcases List.mem_cons.mp hn with rfl | hn
      · exact absurd hm hno
      · exact ih h n hn hm

/-- The names read as versions are all that can make the list fail. -/
theorem markerNumbers_succeeds {names : List Name}
    (h : ∀ name ∈ names, isMarkerName name = true → ∃ v, markerNumber name = .ok v) :
    ∃ vs, markerNumbers names = .ok vs := by
  induction names with
  | nil => exact ⟨[], rfl⟩
  | cons name names ih =>
    obtain ⟨vs, hvs⟩ := ih fun n hn => h n (by simp [hn])
    by_cases hm : isMarkerName name = true
    · obtain ⟨v, hv⟩ := h name (by simp) hm
      exact ⟨v :: vs, by simp [markerNumbers, hm, hv, hvs, bind, Except.bind, pure, Except.pure]⟩
    · exact ⟨vs, by simp [markerNumbers, hm, hvs]⟩

variable {s t : Fs}

theorem exec_listCommittedVersions_snd (s : Fs) : (listCommittedVersions.exec s).2 = s := by
  simp only [listCommittedVersions, Prog.bind_eq, Prog.exec_bind, FileUtils.pathExists,
    Prog.exec_query]
  split
  · rename_i h
    obtain ⟨_, rfl⟩ := Prod.mk.inj h
    split
    · simp only [FileUtils.regularFiles, Prog.exec_bind, Prog.exec_query]
      split
      · rename_i h
        obtain ⟨_, rfl⟩ := Prod.mk.inj h
        simp only [Prog.exec_ofExcept]
        split
        · rename_i h
          exact (Prod.mk.inj h).2.symm
        · rename_i h
          exact (Prod.mk.inj h).2.symm
      · rename_i h
        exact (Prod.mk.inj h).2.symm
    · rfl
  · rename_i h
    exact (Prod.mk.inj h).2.symm

/-- Every name that looks like a marker's has a number in it. -/
def Parses (s : Fs) : Prop :=
  ∀ name, (s.leaf? (manifestsDir ++ [name])).isSome → isMarkerName name = true →
    ∃ v, markerNumber name = .ok v

/-- What the list holds where it is made: the listed versions, in order. -/
theorem listCommittedVersions_ok {vs : List UInt64}
    (h : listCommittedVersions.exec s = (.ok vs, t)) :
    t = s ∧ (∀ v, v ∈ vs ↔ Listed s v) ∧ vs.Pairwise (· ≤ ·) ∧ vs.Nodup ∧ Parses s := by
  have hs := exec_listCommittedVersions_snd s
  rw [h] at hs
  simp only at hs
  subst hs
  refine ⟨rfl, ?_⟩
  simp only [listCommittedVersions, Prog.bind_eq] at h
  obtain ⟨b, m, hb, h⟩ := Prog.exec_bind_ok h
  obtain ⟨rfl, rfl⟩ := FileUtils.exec_pathExists_ok hb
  split at h
  · obtain ⟨names, m, hn, h⟩ := Prog.exec_bind_ok h
    simp only [FileUtils.regularFiles, Prog.exec_query, Prod.mk.injEq] at hn
    obtain ⟨hn, rfl⟩ := hn
    split at hn
    · cases hn
      obtain ⟨ws, m, hw, h⟩ := Prog.exec_bind_ok h
      simp only [Prog.exec_ofExcept, Prod.mk.injEq] at hw
      obtain ⟨hw, rfl⟩ := hw
      simp only [Prog.pure_eq, Prog.exec_pure, Prod.mk.injEq, Except.ok.injEq, and_true] at h
      subst h
      refine ⟨fun v => ?_, ?_, ?_, fun name hname => ?_⟩
      · rw [List.mem_insertionSort, mem_markerNumbers hw, Tree.mem_leafNames, Listed, commitPath,
          Option.isSome_iff_exists]
      · exact List.pairwise_insertionSort _ _
      · rw [(List.perm_insertionSort _ _).nodup_iff]
        exact nodup_markerNumbers (Tree.nodup_leafNames _ _) hw
      · exact markerNumbers_parses hw name (Tree.mem_leafNames.mpr (Option.isSome_iff_exists.mp hname))
    · contradiction
  · rename_i hb
    simp only [Prog.pure_eq, Prog.exec_pure, Prod.mk.injEq, Except.ok.injEq, and_true] at h
    subst h
    have hnone : ∀ name, ¬(m.leaf? (manifestsDir ++ [name])).isSome := by
      intro name hl
      obtain ⟨f, hf⟩ := Option.isSome_iff_exists.mp hl
      have hne : m.get? (manifestsDir ++ [name]) ≠ none := by
        rw [Tree.leaf?_eq_some.mp hf]
        simp
      simp [m.dir_of_prefix (by simp) hne] at hb
    refine ⟨fun v => ?_, .nil, .nil, fun name hname => absurd hname (hnone name)⟩
    simp only [List.not_mem_nil, false_iff, Listed, not_and]
    intro _ hl
    exact hnone _ hl

theorem listCommittedVersions_succeeds (hd : s.get? manifestsDir = some .dir) (h : Parses s) :
    ∃ vs, listCommittedVersions.exec s = (.ok vs, s) := by
  have hnames : ∀ name ∈ s.leafNames manifestsDir, isMarkerName name = true →
      ∃ v, markerNumber name = .ok v := fun name hname =>
    h name (Option.isSome_iff_exists.mpr (Tree.mem_leafNames.mp hname))
  obtain ⟨vs, hvs⟩ := markerNumbers_succeeds hnames
  refine ⟨vs.insertionSort (· ≤ ·), ?_⟩
  have hnames : (FileUtils.regularFiles manifestsDir).exec s = (.ok (s.leafNames manifestsDir), s) := by
    simp [FileUtils.regularFiles, hd]
  simp only [listCommittedVersions, Prog.bind_eq]
  rw [Prog.exec_bind_of_ok (FileUtils.exec_pathExists_dir hd)]
  simp only [if_true]
  rw [Prog.exec_bind_of_ok hnames, hvs]
  rfl

theorem Listed.dir {v : UInt64} (h : Listed t v) : t.get? manifestsDir = some .dir := by
  obtain ⟨f, hf⟩ := Option.isSome_iff_exists.mp h.2
  have hne : t.get? (manifestsDir ++ [versionFileName v ".commit"]) ≠ none := by
    rw [← commitPath, Tree.leaf?_eq_some.mp hf]
    simp
  exact t.dir_of_prefix (by simp) hne

/-- The list of versions is made, and the version is on it. -/
def InList (t : Fs) (v : UInt64) : Prop :=
  ∃ listed, listCommittedVersions.exec t = (.ok listed, t) ∧ v ∈ listed

theorem InList.listed {v : UInt64} (h : InList t v) : Listed t v := by
  obtain ⟨listed, hx, hv⟩ := h
  exact ((listCommittedVersions_ok hx).2.1 v).mp hv

theorem InList.of_listed {v : UInt64} (hp : Parses t) (h : Listed t v) : InList t v := by
  obtain ⟨listed, hx⟩ := listCommittedVersions_succeeds h.dir hp
  exact ⟨listed, hx, ((listCommittedVersions_ok hx).2.1 v).mpr h⟩

theorem toNat_next {last : UInt64} (h : last.toNat < 10 ^ 6) :
    (last + 1).toNat = last.toNat + 1 := by
  rw [UInt64.toNat_add]
  exact Nat.mod_eq_of_lt (by simp; omega)

/-- One more than the last of a list in order lies above all of it. -/
theorem lt_next {vs : List UInt64} {last w : UInt64} (hsort : vs.Pairwise (· ≤ ·))
    (hlast : vs.getLast? = some last) (h : last.toNat < 10 ^ 6) (hw : w ∈ vs) : w < last + 1 := by
  have hle : w ≤ last := by
    obtain ⟨ys, hys⟩ := List.getLast?_eq_some_iff.mp hlast
    rw [hys] at hsort hw
    rcases List.mem_append.mp hw with hw | hw
    · exact (List.pairwise_append.mp hsort).2.2 w hw last (by simp)
    · rw [List.mem_singleton.mp hw]
      exact UInt64.le_refl last
  rw [UInt64.lt_iff_toNat_lt, toNat_next h]
  exact Nat.lt_succ_of_le (UInt64.le_iff_toNat_le.mp hle)

/-- The next version lies above all that are listed, and is not listed itself. -/
theorem nextVersion_ok {v : UInt64} (h : nextVersion.exec s = (.ok v, t)) :
    t = s ∧ (∀ w, Listed s w → w < v) ∧
      (v = 1 ∧ (∀ w, ¬Listed s w) ∨ ∃ w, Listed s w ∧ v.toNat = w.toNat + 1) ∧ Parses s := by
  simp only [nextVersion, Prog.bind_eq] at h
  obtain ⟨vs, m, hvs, hr⟩ := Prog.exec_bind_ok h
  obtain ⟨rfl, hmem, hsort, _, hparses⟩ := listCommittedVersions_ok hvs
  split at hr
  · rename_i hnone
    simp only [Prog.pure_eq, Prog.exec_pure, Prod.mk.injEq, Except.ok.injEq] at hr
    obtain ⟨rfl, rfl⟩ := hr
    have hno : ∀ w, ¬Listed m w := by
      intro w hw
      have := (hmem w).mpr hw
      rw [List.getLast?_eq_none_iff.mp hnone] at this
      contradiction
    exact ⟨rfl, fun w hw => absurd hw (hno w), .inl ⟨rfl, hno⟩, hparses⟩
  · rename_i last hlast
    simp only [Prog.pure_eq, Prog.exec_pure, Prod.mk.injEq, Except.ok.injEq] at hr
    obtain ⟨rfl, rfl⟩ := hr
    have hl : Listed m last := (hmem last).mp (List.mem_of_getLast? hlast)
    exact ⟨rfl, fun w hw => lt_next hsort hlast hl.1 ((hmem w).mpr hw), .inr ⟨last, hl, toNat_next hl.1⟩,
      hparses⟩

/-- A version with its marker and its manifest file is read as that file says. -/
theorem exec_load {v : UInt64} {marker file : File} (hc : s.leaf? (commitPath v) = some marker)
    (hf : s.leaf? (manifestPath v) = some file) : (load v).exec s = (parse file.data, s) := by
  simp only [load, isCommitted, FileUtils.readTextFile, Prog.bind_eq]
  rw [Prog.exec_bind_of_ok (FileUtils.exec_pathExists_some hc)]
  simp only [if_true]
  rw [Prog.exec_bind_of_ok (FileUtils.exec_readFile_some hf), Prog.exec_ofExcept]

theorem load_of {v : UInt64} {marker file : File} {m : Manifest}
    (hc : s.leaf? (commitPath v) = some marker) (hf : s.leaf? (manifestPath v) = some file)
    (hp : parse file.data = .ok m) : (load v).exec s = (.ok m, s) := by
  rw [exec_load hc hf, hp]

/-- What a load returns stands in the manifest file. -/
theorem load_ok {v : UInt64} {m : Manifest} (h : (load v).exec s = (.ok m, t)) :
    t = s ∧ s.get? (commitPath v) ≠ none ∧
      ∃ file, s.leaf? (manifestPath v) = some file ∧ parse file.data = .ok m := by
  simp only [load, isCommitted, Prog.bind_eq] at h
  obtain ⟨b, u, hb, h⟩ := Prog.exec_bind_ok h
  obtain ⟨rfl, rfl⟩ := FileUtils.exec_pathExists_ok hb
  split at h
  · rename_i hc
    obtain ⟨text, u, ht, h⟩ := Prog.exec_bind_ok h
    obtain ⟨rfl, file, hf, rfl⟩ := FileUtils.exec_readFile_ok ht
    simp only [Prog.exec_ofExcept, Prod.mk.injEq] at h
    obtain ⟨hp, rfl⟩ := h
    refine ⟨rfl, ?_, file, hf, hp⟩
    intro hn
    simp [hn] at hc
  · simp at h

end Dpc.ManifestStore
