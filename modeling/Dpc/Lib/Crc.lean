import Dpc.Lib.Endian

/-! A cyclic redundancy check in a register of 32 bits, the lowest bit first. -/

namespace Crc
open Text Endian

/-- One bit leaves the register. -/
def bit (poly crc : UInt32) : UInt32 := (crc >>> 1) ^^^ (poly &&& (0 - (crc &&& 1)))

def bits (poly : UInt32) : Nat → UInt32 → UInt32
  | 0, crc => crc
  | n + 1, crc => bits poly n (bit poly crc)

def byte (poly crc : UInt32) (b : UInt8) : UInt32 := bits poly 8 (crc ^^^ b.toUInt32)

/-- The register after the bytes. -/
def register (poly crc : UInt32) (data : Bytes) : UInt32 := data.foldl (byte poly) crc

/-- Another word of the same length, the same outside some positions. -/
structure ChangedWithin (first last : Nat) (data data' : Bytes) : Prop where
  length : data'.length = data.length
  ne : data' ≠ data
  outside : ∀ k, k < first ∨ last ≤ k → data'[k]? = data[k]?

variable {poly x y : UInt32} {a b c data data' : Bytes} {first n : Nat}

theorem toNat_lowest (x : UInt32) : (x &&& 1).toNat = x.toNat % 2 := by
  rw [UInt32.toNat_and]
  exact Nat.and_one_is_mod _

theorem lowest (x : UInt32) : x &&& 1 = 0 ∨ x &&& 1 = 1 := by
  rcases Nat.mod_two_eq_zero_or_one x.toNat with h | h
  · exact .inl (UInt32.toNat_inj.mp ((toNat_lowest x).trans h))
  · exact .inr (UInt32.toNat_inj.mp ((toNat_lowest x).trans h))

theorem bit_even (poly : UInt32) (h : x &&& 1 = 0) : bit poly x = x >>> 1 := by
  rw [bit, h]
  simp

theorem bit_odd (poly : UInt32) (h : x &&& 1 = 1) : bit poly x = (x >>> 1) ^^^ poly := by
  have hmask : (0 - 1 : UInt32) = -1 := by decide
  rw [bit, h, hmask]
  simp

theorem lowest_xor (x y : UInt32) : (x ^^^ y) &&& 1 = (x &&& 1) ^^^ (y &&& 1) := by
  apply UInt32.toNat_inj.mp
  rw [toNat_lowest, UInt32.toNat_xor, UInt32.toNat_xor, toNat_lowest, toNat_lowest]
  exact @Nat.xor_mod_two_pow x.toNat y.toNat 1

theorem bit_xor (poly x y : UInt32) : bit poly (x ^^^ y) = bit poly x ^^^ bit poly y := by
  have hxy := lowest_xor x y
  rcases lowest x with hx | hx
  all_goals rcases lowest y with hy | hy
  all_goals rw [hx, hy] at hxy
  · rw [bit_even poly hx, bit_even poly hy, bit_even poly hxy, UInt32.shiftRight_xor]
  · rw [bit_even poly hx, bit_odd poly hy, bit_odd poly hxy, UInt32.shiftRight_xor,
      UInt32.xor_assoc]
  · rw [bit_odd poly hx, bit_even poly hy, bit_odd poly hxy, UInt32.shiftRight_xor,
      UInt32.xor_assoc, UInt32.xor_assoc, UInt32.xor_comm poly]
  -- both polynomials cancel
  · rw [bit_odd poly hx, bit_odd poly hy, bit_even poly hxy, UInt32.shiftRight_xor,
      UInt32.xor_comm (y >>> 1) poly, UInt32.xor_assoc, ← UInt32.xor_assoc poly poly,
      UInt32.xor_self, UInt32.zero_xor]

/-- The top bit of the polynomial marks that a bit was shifted out: without the mark the
register was only halved. -/
theorem bit_small (hp : 2 ^ 31 ≤ poly.toNat) (h : (bit poly x).toNat < 2 ^ 31) :
    x.toNat = 2 * (bit poly x).toNat := by
  have hhalf : (x >>> 1).toNat = x.toNat / 2 := by
    rw [UInt32.toNat_shiftRight]
    exact Nat.shiftRight_eq_div_pow _ _
  have hlt := x.toNat_lt
  rcases lowest x with hx | hx
  · have heven : x.toNat % 2 = 0 := by rw [← toNat_lowest, hx]; rfl
    rw [bit_even poly hx, hhalf]
    omega
  · have htop : (bit poly x).toNat / 2 ^ 31 = poly.toNat / 2 ^ 31 := by
      have hzero : x.toNat / 2 / 2 ^ 31 = 0 := Nat.div_eq_of_lt (by omega)
      rw [bit_odd poly hx, UInt32.toNat_xor, Nat.xor_div_two_pow, hhalf, hzero, Nat.zero_xor]
    have hpos : 0 < poly.toNat / 2 ^ 31 := Nat.div_pos hp (by decide)
    rw [Nat.div_eq_of_lt h] at htop
    omega

theorem bits_xor (poly : UInt32) (n : Nat) (x y : UInt32) :
    bits poly n (x ^^^ y) = bits poly n x ^^^ bits poly n y := by
  induction n generalizing x y with
  | zero => rfl
  | succ n ih => rw [bits, bit_xor, ih, bits, bits]

theorem bits_small (hp : 2 ^ 31 ≤ poly.toNat) (hn : n ≤ 32)
    (h : (bits poly n x).toNat < 2 ^ (32 - n)) :
    x.toNat = 2 ^ n * (bits poly n x).toNat := by
  induction n generalizing x with
  | zero => simp [bits]
  | succ n ih =>
    rw [bits] at h ⊢
    have hle : 2 ^ (32 - (n + 1)) ≤ 2 ^ (32 - n) := Nat.pow_le_pow_right (by decide) (by omega)
    have hnext := ih (by omega) (Nat.lt_of_lt_of_le h hle)
    have hhalf : (bit poly x).toNat < 2 ^ 31 := by
      rw [hnext]
      calc 2 ^ n * (bits poly n (bit poly x)).toNat < 2 ^ n * 2 ^ (32 - (n + 1)) :=
            Nat.mul_lt_mul_of_pos_left h (Nat.two_pow_pos n)
        _ = 2 ^ 31 := by
            rw [← Nat.pow_add]
            congr 1
            omega
    rw [bit_small hp hhalf, hnext, Nat.pow_succ']
    exact (Nat.mul_assoc _ _ _).symm

theorem bits_inj (hp : 2 ^ 31 ≤ poly.toNat) (hn : n ≤ 32) (h : bits poly n x = bits poly n y) :
    x = y := by
  have hzero : bits poly n (x ^^^ y) = 0 := by rw [bits_xor, h, UInt32.xor_self]
  have hsmall : (bits poly n (x ^^^ y)).toNat < 2 ^ (32 - n) := by
    rw [hzero]
    exact Nat.two_pow_pos _
  have hxor := bits_small hp hn hsmall
  rw [hzero] at hxor
  exact UInt32.xor_eq_zero_iff.mp (UInt32.toNat_inj.mp hxor)

theorem register_append (poly crc : UInt32) (a b : Bytes) :
    register poly crc (a ++ b) = register poly (register poly crc a) b := List.foldl_append

/-- What two registers differ in, the bytes that they read differing too. -/
theorem register_xor (poly x y : UInt32) (h : a.length = b.length) :
    register poly (x ^^^ y) (List.zipWith (· ^^^ ·) a b) = register poly x a ^^^ register poly y b := by
  induction a generalizing b x y with
  | nil =>
    rw [List.length_nil, eq_comm, List.length_eq_zero_iff] at h
    subst h
    rfl
  | cons u a ih =>
    cases b with
    | nil => contradiction
    | cons v b =>
      have hbyte : byte poly (x ^^^ y) (u ^^^ v) = byte poly x u ^^^ byte poly y v := by
        rw [byte, byte, byte, ← bits_xor, UInt8.toUInt32_xor]
        congr 1
        rw [UInt32.xor_assoc, UInt32.xor_assoc, ← UInt32.xor_assoc y, UInt32.xor_comm y,
          UInt32.xor_assoc]
      rw [List.length_cons, List.length_cons, Nat.add_right_cancel_iff] at h
      have hrest := ih (byte poly x u) (byte poly y v) h
      rwa [← hbyte] at hrest

theorem register_inj (hp : 2 ^ 31 ≤ poly.toNat) (h : register poly x c = register poly y c) :
    x = y := by
  induction c generalizing x y with
  | nil => exact h
  | cons b c ih => exact (UInt32.xor_left_inj _).mp (bits_inj hp (by decide) (ih h))

/-- A byte that was added to a multiple of 256. -/
theorem eq_of_xor_byte {v : Nat} {u : UInt8} (h : (x ^^^ u.toUInt32).toNat = 256 * v) :
    x.toNat = u.toNat + 256 * v := by
  have hu : u.toNat < 2 ^ 8 := u.toNat_lt
  rw [UInt32.toNat_xor, UInt8.toNat_toUInt32] at h
  have hdiv : x.toNat / 2 ^ 8 = v := by
    have hxor := @Nat.xor_div_two_pow x.toNat u.toNat 8
    rw [h, Nat.div_eq_of_lt hu, Nat.xor_zero] at hxor
    omega
  have hmod : x.toNat % 2 ^ 8 = u.toNat := by
    have hxor := @Nat.xor_mod_two_pow x.toNat u.toNat 8
    rw [h, Nat.mod_eq_of_lt hu] at hxor
    have hzero : x.toNat % 2 ^ 8 ^^^ u.toNat = 0 := by omega
    have hback : x.toNat % 2 ^ 8 ^^^ u.toNat ^^^ u.toNat = u.toNat := by rw [hzero, Nat.zero_xor]
    rwa [Nat.xor_assoc, Nat.xor_self, Nat.xor_zero] at hback
  omega

/-- A register that is small enough after at most four bytes held these bytes. -/
theorem register_small (hp : 2 ^ 31 ≤ poly.toNat) (hlen : c.length ≤ 4)
    (h : (register poly x c).toNat < 256 ^ (4 - c.length)) :
    x.toNat = leValue c + 256 ^ c.length * (register poly x c).toNat := by
  induction c generalizing x with
  | nil => simp [register, leValue]
  | cons u c ih =>
    rw [List.length_cons] at hlen h ⊢
    have hsame : register poly x (u :: c) = register poly (byte poly x u) c := rfl
    rw [hsame] at h ⊢
    have hrest := ih (by omega) (Nat.lt_of_lt_of_le h
      (Nat.pow_le_pow_right (by decide) (by omega)))
    generalize (register poly (byte poly x u) c).toNat = r at h hrest ⊢
    have hword : leValue c + 256 ^ c.length * r < 2 ^ 24 := by
      have hle : 256 ^ c.length * (r + 1) ≤ 256 ^ c.length * 256 ^ (4 - (c.length + 1)) :=
        Nat.mul_le_mul_left _ h
      have hpow : 256 ^ c.length * 256 ^ (4 - (c.length + 1)) = 2 ^ 24 := by
        have hsum : c.length + (4 - (c.length + 1)) = 3 := by omega
        rw [← Nat.pow_add, hsum]
        rfl
      have hval := leValue_lt c
      rw [Nat.mul_add, Nat.mul_one] at hle
      omega
    have hbyte := bits_small hp (by decide) (hrest ▸ hword)
    rw [byte] at hrest
    rw [hrest] at hbyte
    rw [eq_of_xor_byte hbyte, leValue, Nat.pow_succ, Nat.mul_add, Nat.mul_comm (256 ^ c.length) 256,
      Nat.mul_assoc, Nat.add_assoc]

theorem all_zero (h : leValue c = 0) : ∀ b ∈ c, b = 0 := by
  induction c with
  | nil => simp
  | cons u c ih =>
    rw [leValue] at h
    intro b hb
    rcases List.mem_cons.mp hb with rfl | hb
    · exact UInt8.toNat_inj.mp (Nat.eq_zero_of_add_eq_zero_right h)
    · exact ih (by omega) b hb

theorem eq_of_all_zero (hlen : a.length = b.length)
    (h : ∀ u ∈ List.zipWith (· ^^^ ·) a b, u = (0 : UInt8)) : a = b := by
  induction a generalizing b with
  | nil => exact (List.length_eq_zero_iff.mp hlen.symm).symm
  | cons u a ih =>
    cases b with
    | nil => contradiction
    | cons v b =>
      rw [List.zipWith_cons_cons] at h
      have huv := UInt8.xor_eq_zero_iff.mp (h (u ^^^ v) List.mem_cons_self)
      have hrest := ih (Nat.succ.inj hlen) fun w hw => h w (List.mem_cons_of_mem _ hw)
      rw [huv, hrest]

/-- At most four bytes are told apart by the register, from where it stood. -/
theorem register_short (hp : 2 ^ 31 ≤ poly.toNat) (hlen : a.length = b.length) (hb : b.length ≤ 4)
    (h : register poly x a = register poly x b) : a = b := by
  have hxor := register_xor poly x x hlen
  rw [h, UInt32.xor_self, UInt32.xor_self] at hxor
  have hshort : (List.zipWith (· ^^^ ·) a b).length ≤ 4 := by
    rw [List.length_zipWith]
    omega
  have hval := @register_small poly 0 _ hp hshort (by
    rw [hxor]
    exact Nat.pow_pos (by decide))
  rw [hxor] at hval
  have hzero : leValue (List.zipWith (· ^^^ ·) a b) = 0 := by
    have hnull : (0 : UInt32).toNat = 0 := rfl
    rw [hnull] at hval
    omega
  exact eq_of_all_zero hlen (all_zero hzero)

theorem ChangedWithin.set {k last : Nat} {b : UInt8} (hk : first ≤ k ∧ k < last)
    (hlt : k < data.length) (hb : data[k]? ≠ some b) : ChangedWithin first last data (data.set k b) where
  length := List.length_set
  ne h := hb (h ▸ List.getElem?_set_self hlt)
  outside j hj := List.getElem?_set_ne (by omega)

/-- The bytes around a change, and the bytes that it may touch. -/
theorem ChangedWithin.split (h : ChangedWithin first (first + n) data data') :
    ∃ a b b' c, data = a ++ b ++ c ∧ data' = a ++ b' ++ c ∧ b'.length = b.length ∧
      b.length ≤ n ∧ b' ≠ b := by
  have hfront : data'.take first = data.take first := by
    apply List.ext_getElem?
    intro k
    rw [List.getElem?_take, List.getElem?_take]
    split
    · exact h.outside k (.inl ‹_›)
    · rfl
  have hback : data'.drop (first + n) = data.drop (first + n) := by
    apply List.ext_getElem?
    intro k
    rw [List.getElem?_drop, List.getElem?_drop]
    exact h.outside _ (.inr (Nat.le_add_right _ _))
  have hall : ∀ d : Bytes, d = d.take first ++ (d.drop first).take n ++ d.drop (first + n) := by
    intro d
    rw [List.append_assoc, ← List.drop_drop, List.take_append_drop, List.take_append_drop]
  refine ⟨data.take first, (data.drop first).take n, (data'.drop first).take n,
    data.drop (first + n), hall data, ?_, ?_, ?_, ?_⟩
  · rw [← hfront, ← hback]
    exact hall data'
  · simp only [List.length_take, List.length_drop, h.length]
  · exact List.length_take_le _ _
  · intro hsame
    apply h.ne
    rw [hall data', hall data, hfront, hback, hsame]

/-- A burst of four bytes changes the register. -/
theorem register_burst (hp : 2 ^ 31 ≤ poly.toNat)
    (h : ChangedWithin first (first + 4) data data') :
    register poly x data' ≠ register poly x data := by
  obtain ⟨a, b, b', c, rfl, rfl, hlen, hshort, hne⟩ := h.split
  intro hsame
  rw [register_append, register_append, register_append, register_append] at hsame
  exact hne (register_short hp hlen hshort (register_inj hp hsame))

end Crc
