import Dpc.Lib.Text
import Mathlib.Data.List.TakeWhile

namespace Text

/-- `>>` into a string: a word, and the stream after it. -/
def getWord (bs : Bytes) : Option (Bytes × Bytes) :=
  let bs := bs.dropWhile isSpace
  if bs = [] then none
  else some (bs.takeWhile fun b => !isSpace b, bs.dropWhile fun b => !isSpace b)

/-- A sign if there is one, the digits after it, and what follows them. -/
def scanNumber (bs : Bytes) : Bool × Bytes × Bytes :=
  let bs := bs.dropWhile isSpace
  let negative := bs.head? == some 45
  let bs := if negative || bs.head? == some 43 then bs.tail else bs
  (negative, bs.takeWhile isDigit, bs.dropWhile isDigit)

/-- The value of a number of a type with `bound` values: a minus sign counts down from
the bound. -/
def signed (bound : Nat) (negative : Bool) (n : Nat) : Nat :=
  if negative then (bound - n) % bound else n

/-- `>>` into an unsigned number below `bound`. -/
def getNumber (bound : Nat) (bs : Bytes) : Option (Nat × Bytes) :=
  let (negative, digits, rest) := scanNumber bs
  if digits = [] ∨ bound ≤ digitsValue digits then none
  else some (signed bound negative (digitsValue digits), rest)

/-- `getline`: what is left of the line, gone. -/
def skipLine (bs : Bytes) : Bytes := (bs.dropWhile fun b => b != newline).tail

theorem takeWhile_append_stop {p : UInt8 → Bool} {w rest : Bytes} (hw : ∀ b ∈ w, p b = true)
    (hr : ∀ b ∈ rest.head?, p b = false) :
    (w ++ rest).takeWhile p = w ∧ (w ++ rest).dropWhile p = rest := by
  induction w with
  | nil =>
    cases rest with
    | nil => simp
    | cons b rest =>
      have hb := hr b (by simp)
      simp [hb]
  | cons b w ih =>
    obtain ⟨h1, h2⟩ := ih fun c hc => hw c (by simp [hc])
    have hb := hw b (by simp)
    simp [hb, h1, h2]

theorem getWord_word {w rest : Bytes} (h : IsWord w) (hr : ∀ b ∈ rest.head?, isSpace b = true) :
    getWord (w ++ rest) = some (w, rest) := by
  obtain ⟨b, cs, rfl⟩ := List.exists_cons_of_ne_nil h.ne_nil
  have hb := h.nospace b (by simp)
  have hd : (b :: cs ++ rest).dropWhile isSpace = b :: cs ++ rest := by
    simp [hb]
  have hstop : ∀ b ∈ rest.head?, (!isSpace b) = false := by
    intro b hb
    simp [hr b hb]
  have hall : ∀ c ∈ b :: cs, (!isSpace c) = true := by
    intro c hc
    simp [h.nospace c hc]
  obtain ⟨h1, h2⟩ := takeWhile_append_stop hall hstop
  simp only [getWord, hd, h1, h2]
  simp

/-- A space in front of a word is skipped. -/
theorem getWord_space {b : UInt8} (hb : isSpace b = true) (bs : Bytes) :
    getWord (b :: bs) = getWord bs := by
  simp [getWord, hb]

theorem getNumber_space {bound : Nat} {b : UInt8} (hb : isSpace b = true) (bs : Bytes) :
    getNumber bound (b :: bs) = getNumber bound bs := by
  simp [getNumber, scanNumber, hb]

theorem isDigit_bounds {b : UInt8} (h : isDigit b = true) :
    isSpace b = false ∧ b ≠ 45 ∧ b ≠ 43 := by
  refine ⟨isSpace_of_isXdigit (isXdigit_of_isDigit h), ?_, ?_⟩
  · rintro rfl
    simp [isDigit] at h
  · rintro rfl
    simp [isDigit] at h

theorem scanNumber_digits {w rest : Bytes} (hne : w ≠ []) (hw : ∀ b ∈ w, isDigit b = true)
    (hr : ∀ b ∈ rest.head?, isDigit b = false) : scanNumber (w ++ rest) = (false, w, rest) := by
  obtain ⟨b, cs, rfl⟩ := List.exists_cons_of_ne_nil hne
  obtain ⟨hs, hm, hp⟩ := isDigit_bounds (hw b (by simp))
  obtain ⟨h1, h2⟩ := takeWhile_append_stop hw hr
  simp only [List.cons_append] at h1 h2
  simp [scanNumber, hs, hm, hp, h1, h2]

theorem getNumber_decimal {bound n : Nat} {rest : Bytes} (hn : n < bound)
    (hr : ∀ b ∈ rest.head?, isDigit b = false) :
    getNumber bound (decimal n ++ rest) = some (n, rest) := by
  have hb : ¬bound ≤ n := Nat.not_le.mpr hn
  simp [getNumber, scanNumber_digits (decimal_ne_nil n) (fun _ hb => isDigit_of_mem_decimal hb) hr,
    decimal_ne_nil, hb, signed]

theorem not_isDigit_of_isSpace {b : UInt8} (h : isSpace b = true) : isDigit b = false := by
  cases hd : isDigit b with
  | false => rfl
  | true =>
    have := (isDigit_bounds hd).1
    rw [h] at this
    contradiction

theorem skipLine_line {l rest : Bytes} (h : newline ∉ l) : skipLine (l ++ newline :: rest) = rest := by
  have hl : ∀ b ∈ l, (b != newline) = true := by
    intro b hb
    have : b ≠ newline := fun he => h (he ▸ hb)
    simpa using this
  have hr : ∀ b ∈ (newline :: rest).head?, (b != newline) = false := by simp
  simp [skipLine, (takeWhile_append_stop hl hr).2]

theorem dropWhile_append_of_ne_nil {p : UInt8 → Bool} {bs more : Bytes} (h : bs.dropWhile p ≠ []) :
    (bs ++ more).dropWhile p = bs.dropWhile p ++ more := by
  rw [List.dropWhile_append]
  simp [h]

theorem takeWhile_append_of_ne_nil {p : UInt8 → Bool} {bs more : Bytes} (h : bs.dropWhile p ≠ []) :
    (bs ++ more).takeWhile p = bs.takeWhile p := by
  rw [List.takeWhile_append, if_neg]
  intro hlen
  have hsum := congrArg List.length (List.takeWhile_append_dropWhile (p := p) (l := bs))
  rw [List.length_append] at hsum
  exact h (List.eq_nil_of_length_eq_zero (by omega))

/-- A word that does not end with the stream does not depend on what follows. -/
theorem getWord_append {bs w rest : Bytes} (h : getWord bs = some (w, rest)) (hr : rest ≠ [])
    (more : Bytes) : getWord (bs ++ more) = some (w, rest ++ more) := by
  unfold getWord at h ⊢
  dsimp only at h ⊢
  split at h
  · contradiction
  rename_i hne
  cases h
  rw [dropWhile_append_of_ne_nil hne, if_neg (by simp [hne]), takeWhile_append_of_ne_nil hr,
    dropWhile_append_of_ne_nil hr]

theorem takeWhile_of_dropWhile_nil {p : UInt8 → Bool} {bs : Bytes} (h : bs.dropWhile p = []) :
    bs.takeWhile p = bs := by
  have := List.takeWhile_append_dropWhile (p := p) (l := bs)
  rwa [h, List.append_nil] at this

/-- A word that ends with the stream goes on with what follows. -/
theorem getWord_append_end {bs w : Bytes} (h : getWord bs = some (w, [])) (more : Bytes) :
    getWord (bs ++ more) =
      some (w ++ more.takeWhile fun b => !isSpace b, more.dropWhile fun b => !isSpace b) := by
  unfold getWord at h ⊢
  dsimp only at h ⊢
  split at h
  · contradiction
  rename_i hne
  simp only [Option.some.injEq, Prod.mk.injEq] at h
  obtain ⟨hw, hend⟩ := h
  have hall := takeWhile_of_dropWhile_nil hend
  have hnospace : ∀ b ∈ bs.dropWhile isSpace, (!isSpace b) = true := List.dropWhile_eq_nil_iff.mp hend
  rw [dropWhile_append_of_ne_nil hne, if_neg (by simp [hne]),
    List.takeWhile_append_of_pos hnospace, List.dropWhile_append_of_pos hnospace, ← hw, hall]

theorem scanNumber_append {bs digits rest : Bytes} {negative : Bool}
    (h : scanNumber bs = (negative, digits, rest)) (hr : rest ≠ []) (more : Bytes) :
    scanNumber (bs ++ more) = (negative, digits, rest ++ more) := by
  unfold scanNumber at h ⊢
  dsimp only at h ⊢
  have hne : bs.dropWhile isSpace ≠ [] := by
    intro hnil
    rw [hnil] at h
    cases h
    exact hr rfl
  rw [dropWhile_append_of_ne_nil hne]
  obtain ⟨b, x, hx⟩ := List.exists_cons_of_ne_nil hne
  rw [hx] at h ⊢
  by_cases hsign : ((b :: x).head? == some 45 || (b :: x).head? == some 43) = true
  · have hsign' : ((b :: x ++ more).head? == some 45 || (b :: x ++ more).head? == some 43) = true :=
      hsign
    rw [if_pos hsign] at h
    rw [if_pos hsign']
    cases h
    rw [List.tail_cons] at hr
    rw [List.cons_append, List.tail_cons, List.tail_cons, takeWhile_append_of_ne_nil hr,
      dropWhile_append_of_ne_nil hr]
    rfl
  · have hsign' : ¬((b :: x ++ more).head? == some 45 || (b :: x ++ more).head? == some 43) = true :=
      hsign
    rw [if_neg hsign] at h
    rw [if_neg hsign']
    cases h
    rw [takeWhile_append_of_ne_nil hr, dropWhile_append_of_ne_nil hr]
    rfl

/-- A number that does not end with the stream does not depend on what follows. -/
theorem getNumber_append {bound n : Nat} {bs rest : Bytes} (h : getNumber bound bs = some (n, rest))
    (hr : rest ≠ []) (more : Bytes) : getNumber bound (bs ++ more) = some (n, rest ++ more) := by
  unfold getNumber at h ⊢
  dsimp only at h ⊢
  split at h
  · contradiction
  rename_i hdigits
  simp only [Option.some.injEq, Prod.mk.injEq] at h
  obtain ⟨hn, hrest⟩ := h
  have hscan : scanNumber bs = ((scanNumber bs).1, (scanNumber bs).2.1, rest) := by rw [← hrest]
  rw [scanNumber_append hscan hr]
  dsimp only
  rw [if_neg hdigits, hn]

end Text
