import Mathlib.Algebra.Group.Nat.Defs
import Mathlib.Data.List.Basic
import Mathlib.Data.List.Induction
import Mathlib.Data.UInt
import Mathlib.Tactic.Common

namespace Text

abbrev Bytes := List UInt8

instance : LawfulBEq Bytes := inferInstance

/-- The bytes of an ASCII literal. -/
def ascii (s : String) : Bytes := s.toList.map fun c => UInt8.ofNat c.toNat

def newline : UInt8 := 10
def space : UInt8 := 32

/-- `isspace` of the C locale. -/
def isSpace (b : UInt8) : Bool := b == 32 || (9 ≤ b && b ≤ 13)

def isDigit (b : UInt8) : Bool := 48 ≤ b && b ≤ 57

def isXdigit (b : UInt8) : Bool := isDigit b || (97 ≤ b && b ≤ 102) || (65 ≤ b && b ≤ 70)

theorem isSpace_of_isXdigit {b : UInt8} (h : isXdigit b = true) : isSpace b = false := by
  simp only [isXdigit, isDigit, isSpace, Bool.or_eq_true, Bool.and_eq_true, decide_eq_true_eq,
    UInt8.le_iff_toNat_le, Bool.or_eq_false_iff, beq_eq_false_iff_ne, ne_eq, ← UInt8.toNat_inj,
    Bool.and_eq_false_iff, decide_eq_false_iff_not, UInt8.reduceToNat] at h ⊢
  omega

theorem isXdigit_of_isDigit {b : UInt8} (h : isDigit b = true) : isXdigit b = true := by
  simp [isXdigit, h]

def decimal (n : Nat) : Bytes := (Nat.toDigits 10 n).map fun c => UInt8.ofNat c.toNat

def digitsValue (bs : Bytes) : Nat := bs.foldl (fun v b => 10 * v + (b.toNat - 48)) 0

theorem char_digit {c : Char} (h : c.isDigit = true) :
    isDigit (UInt8.ofNat c.toNat) = true ∧ (UInt8.ofNat c.toNat).toNat = c.toNat := by
  simp only [Char.isDigit, Bool.and_eq_true, decide_eq_true_eq] at h
  have h1 : 48 ≤ c.toNat := by simpa using UInt32.le_iff_toNat_le.mp h.1
  have h2 : c.toNat ≤ 57 := by simpa using UInt32.le_iff_toNat_le.mp h.2
  have he : (UInt8.ofNat c.toNat).toNat = c.toNat := by
    simp only [UInt8.toNat_ofNat']
    omega
  refine ⟨?_, he⟩
  simp only [isDigit, Bool.and_eq_true, decide_eq_true_eq, UInt8.le_iff_toNat_le, he]
  exact ⟨h1, h2⟩

theorem decimal_ne_nil (n : Nat) : decimal n ≠ [] := by
  simp [decimal]

theorem isDigit_of_mem_decimal {n : Nat} {b : UInt8} (h : b ∈ decimal n) : isDigit b = true := by
  obtain ⟨c, hc, rfl⟩ := List.mem_map.mp h
  exact (char_digit (Nat.isDigit_of_mem_toDigits (by decide) (by decide) hc)).1

theorem digitsValue_map (cs : List Char) (h : ∀ c ∈ cs, c.isDigit = true) (v : Nat) :
    (cs.map fun c => UInt8.ofNat c.toNat).foldl (fun v b => 10 * v + (b.toNat - 48)) v =
      Nat.ofDigitChars 10 cs v := by
  induction cs generalizing v with
  | nil => simp
  | cons c cs ih =>
    have hc := (char_digit (h c (by simp))).2
    simp only [List.map_cons, List.foldl_cons, Nat.ofDigitChars_cons, hc]
    exact ih (fun d hd => h d (by simp [hd])) _

@[simp] theorem digitsValue_decimal (n : Nat) : digitsValue (decimal n) = n := by
  rw [digitsValue, decimal, digitsValue_map _
    (fun c hc => Nat.isDigit_of_mem_toDigits (by decide) (by decide) hc)]
  exact Nat.ofDigitChars_ten_toDigits

theorem decimal_injective {m n : Nat} (h : decimal m = decimal n) : m = n := by
  rw [← digitsValue_decimal m, h, digitsValue_decimal]

theorem length_decimal_le {n k : Nat} (hk : 0 < k) : (decimal n).length ≤ k ↔ n < 10 ^ k := by
  rw [decimal, List.length_map]
  exact Nat.length_toDigits_le_iff (by decide) hk

theorem digitsValue_concat (bs : Bytes) (b : UInt8) :
    digitsValue (bs ++ [b]) = 10 * digitsValue bs + (b.toNat - 48) := by
  simp [digitsValue]

theorem digit_bounds {b : UInt8} (h : isDigit b = true) : 48 ≤ b.toNat ∧ b.toNat ≤ 57 := by
  simpa [isDigit, UInt8.le_iff_toNat_le] using h

theorem digitsValue_lt {bs : Bytes} (h : ∀ b ∈ bs, isDigit b = true) :
    digitsValue bs < 10 ^ bs.length := by
  induction bs using List.reverseRecOn with
  | nil => simp [digitsValue]
  | append_singleton bs b ih =>
    have ih := ih fun c hc => h c (by simp [hc])
    have hb := digit_bounds (h b (by simp))
    rw [digitsValue_concat, List.length_append, List.length_singleton, Nat.pow_succ]
    omega

/-- As many digits with the same value are the same digits. -/
theorem digitsValue_inj {as bs : Bytes} (hlen : as.length = bs.length)
    (ha : ∀ b ∈ as, isDigit b = true) (hb : ∀ b ∈ bs, isDigit b = true)
    (h : digitsValue as = digitsValue bs) : as = bs := by
  induction as using List.reverseRecOn generalizing bs with
  | nil => exact (List.length_eq_zero_iff.mp hlen.symm).symm
  | append_singleton as a ih =>
    induction bs using List.reverseRecOn with
    | nil => simp at hlen
    | append_singleton bs b _ =>
      have h1 := digit_bounds (ha a (by simp))
      have h2 := digit_bounds (hb b (by simp))
      rw [digitsValue_concat, digitsValue_concat] at h
      have hrest : as = bs := ih (by simpa using hlen) (fun c hc => ha c (by simp [hc]))
        (fun c hc => hb c (by simp [hc])) (by omega)
      have hlast : a = b := UInt8.toNat_inj.mp (by omega)
      rw [hrest, hlast]

theorem digitsValue_zeros (n : Nat) (bs : Bytes) :
    digitsValue (List.replicate n 48 ++ bs) = digitsValue bs := by
  induction n with
  | zero => simp
  | succ n ih => simpa [digitsValue, List.replicate_succ] using ih

structure IsWord (w : Bytes) : Prop where
  ne_nil : w ≠ []
  nospace : ∀ b ∈ w, isSpace b = false

/-- The same as a test. -/
def wordTest (w : Bytes) : Bool := !w.isEmpty && w.all fun b => !isSpace b

theorem IsWord.of_test {w : Bytes} (h : wordTest w = true) : IsWord w := by
  simp only [wordTest, Bool.and_eq_true, Bool.not_eq_true', List.isEmpty_eq_false_iff,
    List.all_eq_true] at h
  exact ⟨h.1, h.2⟩

theorem IsWord.of_hex {w : Bytes} (hn : w ≠ []) (h : ∀ b ∈ w, isXdigit b = true) : IsWord w :=
  ⟨hn, fun b hb => isSpace_of_isXdigit (h b hb)⟩

theorem isWord_decimal (n : Nat) : IsWord (decimal n) :=
  .of_hex (decimal_ne_nil n) fun _ hb => isXdigit_of_isDigit (isDigit_of_mem_decimal hb)

def wordsFrom (cur : Bytes) : Bytes → List Bytes
  | [] => if cur = [] then [] else [cur]
  | b :: bs =>
    if isSpace b then
      if cur = [] then wordsFrom [] bs else cur :: wordsFrom [] bs
    else wordsFrom (cur ++ [b]) bs

/-- All the words of a text. -/
def words (bs : Bytes) : List Bytes := wordsFrom [] bs

theorem wordsFrom_word {w cur rest : Bytes} (h : ∀ b ∈ w, isSpace b = false) :
    wordsFrom cur (w ++ rest) = wordsFrom (cur ++ w) rest := by
  induction w generalizing cur with
  | nil => simp
  | cons b w ih =>
    have hb := h b (by simp)
    simp only [List.cons_append, wordsFrom, hb, Bool.false_eq_true, if_false]
    rw [ih fun c hc => h c (by simp [hc])]
    simp

@[simp] theorem words_nil : words [] = [] := rfl

theorem words_word {w : Bytes} (h : IsWord w) : words w = [w] := by
  have : wordsFrom [] (w ++ []) = wordsFrom ([] ++ w) [] := wordsFrom_word h.nospace
  simp only [List.append_nil, List.nil_append] at this
  simp [words, this, wordsFrom, h.ne_nil]

theorem words_cons {w rest : Bytes} {b : UInt8} (h : IsWord w) (hb : isSpace b = true) :
    words (w ++ b :: rest) = w :: words rest := by
  simp [words, wordsFrom_word h.nospace, wordsFrom, hb, h.ne_nil]

/-- Pieces with one separator between each two. -/
def joinWith (sep : UInt8) : List Bytes → Bytes
  | [] => []
  | [w] => w
  | w :: ws => w ++ sep :: joinWith sep ws

theorem joinWith_cons_cons (sep : UInt8) (w v : Bytes) (ws : List Bytes) :
    joinWith sep (w :: v :: ws) = w ++ sep :: joinWith sep (v :: ws) := rfl

theorem mem_joinWith {sep : UInt8} {ws : List Bytes} {b : UInt8} (h : b ∈ joinWith sep ws) :
    b = sep ∨ ∃ w ∈ ws, b ∈ w := by
  induction ws with
  | nil => simp [joinWith] at h
  | cons w ws ih =>
    cases ws with
    | nil => exact .inr ⟨w, by simp, h⟩
    | cons v ws =>
      rw [joinWith_cons_cons, List.mem_append, List.mem_cons] at h
      rcases h with h | h | h
      · exact .inr ⟨w, by simp, h⟩
      · exact .inl h
      · rcases ih h with h | ⟨u, hu, hb⟩
        · exact .inl h
        · exact .inr ⟨u, by simp [hu], hb⟩

theorem words_joinWith {ws : List Bytes} (h : ∀ w ∈ ws, IsWord w) :
    words (joinWith space ws) = ws := by
  induction ws with
  | nil => rfl
  | cons w ws ih =>
    have hw := h w (by simp)
    cases ws with
    | nil => exact words_word hw
    | cons v ws =>
      rw [joinWith_cons_cons, words_cons hw (by decide), ih fun u hu => h u (by simp [hu])]

theorem wordsFrom_append_space {a c cur : Bytes} {b : UInt8} (hb : isSpace b = true) :
    wordsFrom cur (a ++ b :: c) = wordsFrom cur a ++ words c := by
  induction a generalizing cur with
  | nil =>
    simp only [List.nil_append, wordsFrom, hb, if_true, words]
    split
    · rfl
    · rfl
  | cons u a ih =>
    simp only [List.cons_append, wordsFrom]
    split
    · split
      · exact ih
      · rw [ih, List.cons_append]
    · exact ih

/-- No word goes over a space. -/
theorem words_append_space {a c : Bytes} {b : UInt8} (hb : isSpace b = true) :
    words (a ++ b :: c) = words a ++ words c := wordsFrom_append_space hb

theorem words_lines (ls : List Bytes) : words (joinWith newline ls) = ls.flatMap words := by
  induction ls with
  | nil => rfl
  | cons l ls ih =>
    cases ls with
    | nil => simp [joinWith]
    | cons m ls =>
      rw [joinWith_cons_cons, words_append_space (by decide), ih]
      rfl

theorem isWord_of_mem_wordsFrom {cur bs w : Bytes} (hc : ∀ b ∈ cur, isSpace b = false)
    (h : w ∈ wordsFrom cur bs) : IsWord w := by
  induction bs generalizing cur with
  | nil =>
    simp only [wordsFrom] at h
    split at h
    · contradiction
    · rename_i hn
      rw [List.mem_singleton] at h
      subst h
      exact ⟨hn, hc⟩
  | cons b bs ih =>
    simp only [wordsFrom] at h
    split at h
    · split at h
      · exact ih (by simp) h
      · rename_i hn
        rcases List.mem_cons.mp h with rfl | h
        · exact ⟨hn, hc⟩
        · exact ih (by simp) h
    · rename_i hb
      refine ih (fun c hm => ?_) h
      rcases List.mem_append.mp hm with hm | hm
      · exact hc c hm
      · rw [List.mem_singleton.mp hm]
        simpa using hb

theorem isWord_of_mem_words {bs w : Bytes} (h : w ∈ words bs) : IsWord w :=
  isWord_of_mem_wordsFrom (by simp) h

def getlines : Bytes → List Bytes
  | [] => []
  | b :: bs =>
    if b = newline then [] :: getlines bs
    else match getlines bs with
      | [] => [[b]]
      | l :: ls => (b :: l) :: ls

theorem getlines_line {l rest : Bytes} (h : newline ∉ l) :
    getlines (l ++ newline :: rest) = l :: getlines rest := by
  induction l with
  | nil => simp [getlines]
  | cons b l ih =>
    simp only [List.mem_cons, not_or] at h
    simp only [List.cons_append, getlines, Ne.symm h.1, if_false, ih h.2]

theorem getlines_unlines {ls : List Bytes} (h : ∀ l ∈ ls, newline ∉ l) :
    getlines (ls.flatMap (· ++ [newline])) = ls := by
  induction ls with
  | nil => rfl
  | cons l ls ih =>
    simp only [List.flatMap_cons, List.append_assoc, List.singleton_append]
    rw [getlines_line (h l (by simp)), ih fun m hm => h m (by simp [hm])]

/-- A prefix of some lines ends inside one of them, or is all of them. -/
theorem prefix_unlines {ls : List Bytes} {t : Bytes} (h : t <+: ls.flatMap (· ++ [newline])) :
    t = ls.flatMap (· ++ [newline]) ∨
      ∃ done l rest p, ls = done ++ l :: rest ∧ p <+: l ∧ t = done.flatMap (· ++ [newline]) ++ p := by
  induction ls generalizing t with
  | nil => exact .inl (List.prefix_nil.mp h)
  | cons l ls ih =>
    rw [List.flatMap_cons, List.append_assoc] at h
    rcases List.prefix_or_prefix_of_prefix h (List.prefix_append l _) with hp | ⟨more, rfl⟩
    · exact .inr ⟨[], l, ls, t, rfl, hp, rfl⟩
    rcases List.prefix_cons_iff.mp ((List.prefix_append_right_inj l).mp h) with rfl | ⟨t, rfl, ht⟩
    · exact .inr ⟨[], l, ls, l, rfl, List.prefix_refl l, by simp⟩
    rcases ih ht with rfl | ⟨done, m, rest, p, rfl, hp, rfl⟩
    · exact .inl (by simp)
    · exact .inr ⟨l :: done, m, rest, p, rfl, hp, by simp⟩

theorem getlines_partial {ls : List Bytes} {p : Bytes} (h : ∀ l ∈ ls, newline ∉ l)
    (hp : newline ∉ p) :
    getlines (ls.flatMap (· ++ [newline]) ++ p) = ls ++ if p = [] then [] else [p] := by
  induction ls with
  | nil =>
    induction p with
    | nil => rfl
    | cons b p ih =>
      rw [List.mem_cons, not_or] at hp
      have hrest := ih hp.2
      rw [List.flatMap_nil, List.nil_append] at hrest ⊢
      rw [getlines, if_neg (Ne.symm hp.1), hrest]
      by_cases hnil : p = []
      · simp [hnil]
      · simp [hnil]
  | cons l ls ih =>
    have hl := h l List.mem_cons_self
    rw [List.flatMap_cons, List.append_assoc, List.append_assoc, List.singleton_append,
      getlines_line hl, ih fun m hm => h m (List.mem_cons_of_mem _ hm)]
    rfl

def hexDigit (n : Nat) : UInt8 := if n < 10 then UInt8.ofNat (48 + n) else UInt8.ofNat (87 + n)

def nibble (b : UInt8) : Option Nat :=
  if 48 ≤ b ∧ b ≤ 57 then some (b.toNat - 48)
  else if 97 ≤ b ∧ b ≤ 102 then some (b.toNat - 87)
  else if 65 ≤ b ∧ b ≤ 70 then some (b.toNat - 55)
  else none

def hexEncode (bs : Bytes) : Bytes :=
  bs.flatMap fun b => [hexDigit (b.toNat / 16), hexDigit (b.toNat % 16)]

/-- Decode pairs of hex digits; `none` at a digit out of range or without a partner. -/
def hexDecode : Bytes → Option Bytes
  | [] => some []
  | [_] => none
  | a :: b :: rest => do
    let hi ← nibble a
    let lo ← nibble b
    let bs ← hexDecode rest
    return UInt8.ofNat (16 * hi + lo) :: bs

theorem nibble_hexDigit (b : UInt8) :
    nibble (hexDigit (b.toNat / 16)) = some (b.toNat / 16) ∧
      nibble (hexDigit (b.toNat % 16)) = some (b.toNat % 16) ∧
      isXdigit (hexDigit (b.toNat / 16)) = true ∧ isXdigit (hexDigit (b.toNat % 16)) = true := by
  have h : ∀ n < 16, nibble (hexDigit n) = some n ∧ isXdigit (hexDigit n) = true := by decide
  have hb : b.toNat < 256 := b.toNat_lt
  exact ⟨(h _ (by omega)).1, (h _ (by omega)).1, (h _ (by omega)).2, (h _ (by omega)).2⟩

@[simp] theorem hexDecode_hexEncode (bs : Bytes) : hexDecode (hexEncode bs) = some bs := by
  induction bs with
  | nil => rfl
  | cons b bs ih =>
    obtain ⟨h1, h2, _, _⟩ := nibble_hexDigit b
    have he : 16 * (b.toNat / 16) + b.toNat % 16 = b.toNat := by omega
    simp only [hexEncode, List.flatMap_cons, List.cons_append, List.nil_append] at ih ⊢
    simp only [hexDecode, h1, h2, ih, he, UInt8.ofNat_toNat, Option.bind_eq_bind,
      Option.bind_some, Option.pure_def]

theorem hexEncode_injective {a b : Bytes} (h : hexEncode a = hexEncode b) : a = b := by
  have := congrArg hexDecode h
  simpa using this

@[simp] theorem length_hexEncode (bs : Bytes) : (hexEncode bs).length = 2 * bs.length := by
  simp [hexEncode, List.length_flatMap, Nat.mul_comm]

theorem isXdigit_of_mem_hexEncode {bs : Bytes} {b : UInt8} (h : b ∈ hexEncode bs) :
    isXdigit b = true := by
  obtain ⟨c, _, hc⟩ := List.mem_flatMap.mp h
  obtain ⟨_, _, h1, h2⟩ := nibble_hexDigit c
  simp only [List.mem_cons, List.not_mem_nil, or_false] at hc
  rcases hc with rfl | rfl
  · exact h1
  · exact h2

theorem isWord_hexEncode {bs : Bytes} (h : bs ≠ []) : IsWord (hexEncode bs) := by
  refine .of_hex ?_ fun _ hb => isXdigit_of_mem_hexEncode hb
  intro he
  have hlen := congrArg List.length he
  rw [length_hexEncode, List.length_nil] at hlen
  exact h (List.length_eq_zero_iff.mp (by omega))

end Text
