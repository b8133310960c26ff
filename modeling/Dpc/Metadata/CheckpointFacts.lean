import Dpc.Common.EffectFacts
import Dpc.Core.VersionFacts
import Dpc.Metadata.Checkpoint

namespace Dpc.Checkpoint
open Text FileTree Effects ManifestStore

variable {s : Fs} {data : CheckpointData} {vs : List UInt64}

theorem space_stops (rest : Bytes) : ∀ b ∈ (space :: rest).head?, isDigit b = false := by
  intro b hb
  rw [List.head?_cons, Option.mem_some_iff] at hb
  subst hb
  decide

/-- The numbers that were written are read back, up to the end of the line. -/
theorem parseVersions_numbers {fuel : Nat} (h : vs.length ≤ fuel) :
    parseVersions fuel (vs.flatMap (fun version => space :: number version) ++ [newline]) = vs := by
  induction vs generalizing fuel with
  | nil =>
    cases fuel with
    | zero => rfl
    | succ fuel => rfl
  | cons v vs ih =>
    cases fuel with
    | zero => exact absurd h (by simp)
    | succ fuel =>
      have hstop : ∀ b ∈ (vs.flatMap (fun version => space :: number version) ++ [newline]).head?,
          isDigit b = false := by
        cases vs with
        | nil =>
          intro b hb
          cases hb
          decide
        | cons w ws => exact space_stops _
      have hnumber : getNumber (2 ^ 64) (space :: (number v ++
          (vs.flatMap (fun version => space :: number version) ++ [newline]))) =
            some (v.toNat, vs.flatMap (fun version => space :: number version) ++ [newline]) := by
        rw [getNumber_space (by decide), number, getNumber_decimal v.toNat_lt hstop]
      rw [List.flatMap_cons, List.cons_append, List.cons_append, List.append_assoc, parseVersions,
        hnumber]
      dsimp only
      rw [ih (by simpa using h), UInt64.ofNat_toNat]

theorem length_numbers_le :
    vs.length ≤ (vs.flatMap (fun version => space :: number version) ++ [newline]).length := by
  induction vs with
  | nil => simp
  | cons v vs ih =>
    simp only [List.flatMap_cons, List.length_append, List.length_cons] at ih ⊢
    omega

/-- A checkpoint that was written is read as what was written, whatever it says. -/
theorem parse_text : parse (text data) = .ok data := by
  have hspace : ∀ (b : UInt8) (rest : Bytes), isSpace b = true →
      ∀ c ∈ (b :: rest).head?, isSpace c = true := by
    intro b rest hb c hc
    rw [List.head?_cons, Option.mem_some_iff] at hc
    rwa [← hc]
  have hheader : IsWord (ascii "DPC_CHECKPOINT_V1") := .of_test (by decide)
  have hlatest : IsWord (ascii "latest_committed_version") := .of_test (by decide)
  have hversions : IsWord (ascii "committed_versions") := .of_test (by decide)
  have htail : ∀ b ∈ (data.committedVersions.flatMap (fun version => space :: number version) ++
      [newline]).head?, isSpace b = true := by
    cases data.committedVersions with
    | nil => exact hspace newline [] (by decide)
    | cons v vs => exact hspace space _ (by decide)
  have hkey : ascii "latest_committed_version " = ascii "latest_committed_version" ++ [space] := by
    decide
  have htext : text data = ascii "DPC_CHECKPOINT_V1" ++ newline ::
      (ascii "latest_committed_version" ++ space :: (number data.latestCommittedVersion ++ newline ::
        (ascii "committed_versions" ++
          (data.committedVersions.flatMap (fun version => space :: number version) ++ [newline])))) := by
    rw [text, hkey]
    simp only [List.append_assoc, List.cons_append, List.nil_append]
  have hnl : ∀ rest : Bytes, ∀ b ∈ (newline :: rest).head?, isDigit b = false := by
    intro rest b hb
    rw [List.head?_cons, Option.mem_some_iff] at hb
    rw [← hb]
    decide
  rw [htext, parse, getWord_word hheader (hspace newline _ (by decide))]
  simp only [Option.getD_some, ne_eq, not_true_eq_false, if_false]
  rw [getWord_space (by decide), getWord_word hlatest (hspace space _ (by decide))]
  simp only [Option.getD_some, not_true_eq_false, if_false]
  rw [getNumber_space (by decide), number, getNumber_decimal data.latestCommittedVersion.toNat_lt (hnl _)]
  simp only
  rw [getWord_space (by decide), getWord_word hversions htail]
  simp only [Option.getD_some, not_true_eq_false, if_false, parseVersions_numbers length_numbers_le,
    UInt64.ofNat_toNat]
  rfl

theorem exec_load {f : File} (hf : s.leaf? path = some f) (h : f.data = text data) :
    load.exec s = (.ok data, s) := by
  simp only [load, FileUtils.readTextFile, Prog.bind_eq]
  rw [Prog.exec_bind_of_ok (FileUtils.exec_pathExists_some hf), if_pos rfl,
    Prog.exec_bind_of_ok (FileUtils.exec_readFile_some hf), h, parse_text, Prog.exec_ofExcept]

end Dpc.Checkpoint
