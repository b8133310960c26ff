import Dpc.Network.BackupClient
import Dpc.Network.ServerFacts

namespace Dpc.BackupServer
open Text ManifestStore BackupClient

variable {fields : Fields} {ls : List Bytes} {l body rest : Bytes}

theorem splitBlankLine_word (h : newline ∉ l) :
    splitBlankLine (l ++ rest) = (splitBlankLine rest).map fun p => (l ++ p.1, p.2) := by
  induction l with
  | nil => simp
  | cons a l ih =>
    rw [List.mem_cons, not_or] at h
    have ha : ¬a = newline := fun he => h.1 he.symm
    cases hrest : l ++ rest with
    | nil =>
      obtain ⟨rfl, rfl⟩ := List.append_eq_nil_iff.mp hrest
      rfl
    | cons b more =>
      rw [List.cons_append, hrest, splitBlankLine, if_neg (fun hab => ha hab.1), ← hrest, ih h.2,
        Option.map_map]
      rfl

theorem splitBlankLine_newline {b : UInt8} (hb : b ≠ newline) :
    splitBlankLine (newline :: b :: rest) =
      (splitBlankLine (b :: rest)).map fun p => (newline :: p.1, p.2) := by
  rw [splitBlankLine, if_neg fun h => hb h.2]

/-- Lines that are not blank stay together. -/
theorem splitBlankLine_lines (hne : ls ≠ []) (h : ∀ l ∈ ls, l ≠ [] ∧ newline ∉ l) :
    splitBlankLine (joinWith newline ls ++ newline :: newline :: body) =
      some (joinWith newline ls, body) := by
  induction ls with
  | nil => contradiction
  | cons l ls ih =>
    have hl := (h l List.mem_cons_self).2
    cases ls with
    | nil =>
      rw [joinWith, splitBlankLine_word hl, splitBlankLine, if_pos ⟨rfl, rfl⟩]
      simp
    | cons m ls =>
      have hrest := ih (by simp) fun v hv => h v (List.mem_cons_of_mem _ hv)
      obtain ⟨hm, hnl⟩ := h m (List.mem_cons_of_mem _ List.mem_cons_self)
      obtain ⟨b, m, rfl⟩ := List.exists_cons_of_ne_nil hm
      have hb : b ≠ newline := fun he => hnl (he ▸ List.mem_cons_self)
      obtain ⟨more, hmore⟩ : ∃ more, joinWith newline ((b :: m) :: ls) = b :: more := by
        cases ls with
        | nil => exact ⟨m, rfl⟩
        | cons v ls => exact ⟨_, rfl⟩
      rw [joinWith_cons_cons, List.append_assoc, splitBlankLine_word hl, List.cons_append]
      rw [hmore] at hrest ⊢
      rw [List.cons_append, splitBlankLine_newline hb, ← List.cons_append, hrest]
      rfl

def fieldLine (f : Bytes × Bytes) : Bytes := f.1 ++ space :: f.2

theorem textFields_lines (header : String) (fs : List (Bytes × Bytes)) :
    textFields header fs = joinWith newline (ascii header :: fs.map fieldLine) ++ [newline] := by
  rw [textFields]
  generalize ascii header = first
  induction fs generalizing first with
  | nil => simp [joinWith]
  | cons f fs ih =>
    have hrest := ih (fieldLine f)
    have hlines : joinWith newline (first :: (f :: fs).map fieldLine) ++ [newline] =
        first ++ newline :: (joinWith newline (fieldLine f :: fs.map fieldLine) ++ [newline]) := by
      rw [List.map_cons, joinWith_cons_cons, List.append_assoc, List.cons_append]
    rw [hlines, ← hrest]
    simp [fieldLine]

theorem pairUp_words {fs : List (Bytes × Bytes)} (h : ∀ f ∈ fs, IsWord f.1 ∧ IsWord f.2) :
    pairUp ((fs.map fieldLine).flatMap words) = fs := by
  induction fs with
  | nil => rfl
  | cons f fs ih =>
    obtain ⟨hkey, hvalue⟩ := h f List.mem_cons_self
    have hline : words (fieldLine f) = [f.1, f.2] := by
      rw [fieldLine, words_cons hkey (by decide), words_word hvalue]
    rw [List.map_cons, List.flatMap_cons, hline]
    change (f.1, f.2) :: pairUp ((fs.map fieldLine).flatMap words) = f :: fs
    rw [ih fun g hg => h g (List.mem_cons_of_mem _ hg)]

theorem parseTextFields_lines {header : String} {fs : List (Bytes × Bytes)}
    (hheader : IsWord (ascii header)) (h : ∀ f ∈ fs, IsWord f.1 ∧ IsWord f.2) :
    parseTextFields (joinWith newline (ascii header :: fs.map fieldLine)) header = .ok fs := by
  have hwords : words (joinWith newline (ascii header :: fs.map fieldLine)) =
      ascii header :: (fs.map fieldLine).flatMap words := by
    rw [words_lines, List.flatMap_cons, words_word hheader]
    rfl
  rw [parseTextFields, hwords]
  simp only [List.head?_cons, Option.getD_some, ne_eq, not_true_eq_false, if_false, List.tail_cons,
    pairUp_words h]

/-- Where no key is twice, a field is found by its key. -/
theorem field_of_mem {key : String} {value : Bytes} (hkeys : (fields.map Prod.fst).Nodup)
    (h : (ascii key, value) ∈ fields) : field fields key = .ok value := by
  have hfind : fields.reverse.find? (·.1 == ascii key) = some (ascii key, value) := by
    cases hf : fields.reverse.find? (·.1 == ascii key) with
    | none =>
      have hnone := List.find?_eq_none.mp hf _ (List.mem_reverse.mpr h)
      simp at hnone
    | some f =>
      have hmem := List.mem_reverse.mp (List.mem_of_find?_eq_some hf)
      have hkey := List.find?_some hf
      simp only [beq_iff_eq] at hkey
      have hsame := List.inj_on_of_nodup_map hkeys hmem h hkey
      rw [hsame]
  rw [field, hfind]

theorem stoull_number (n : UInt64) : stoull (number n) = .ok n := by
  have hnil : ∀ b ∈ ([] : Bytes).head?, isDigit b = false := by simp
  have hscan := scanNumber_digits (decimal_ne_nil n.toNat)
    (fun _ hb => isDigit_of_mem_decimal hb) hnil
  rw [List.append_nil] at hscan
  have hlt : ¬2 ^ 64 ≤ n.toNat := Nat.not_le.mpr n.toNat_lt
  simp only [stoull, number, hscan, decimal_ne_nil, if_false, digitsValue_decimal, hlt, signed,
    Bool.false_eq_true, UInt64.ofNat_toNat]

theorem parseU64_of_mem {key : String} {n : UInt64} (hkeys : (fields.map Prod.fst).Nodup)
    (h : (ascii key, number n) ∈ fields) : parseU64 fields key = .ok n := by
  rw [parseU64, field_of_mem hkeys h]
  exact stoull_number n

end Dpc.BackupServer
