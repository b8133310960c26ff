import Dpc.Lib.Text

namespace Endian
open Text

/-- The lowest `n` bytes of a number, least significant first. -/
def leBytes : Nat → Nat → Bytes
  | 0, _ => []
  | n + 1, v => UInt8.ofNat (v % 256) :: leBytes n (v / 256)

def leValue : Bytes → Nat
  | [] => 0
  | b :: bs => b.toNat + 256 * leValue bs

def beBytes (n v : Nat) : Bytes := (leBytes n v).reverse

def beValue (bs : Bytes) : Nat := leValue bs.reverse

@[simp] theorem length_leBytes (n v : Nat) : (leBytes n v).length = n := by
  induction n generalizing v with
  | zero => rfl
  | succ n ih => simp [leBytes, ih]

@[simp] theorem length_beBytes (n v : Nat) : (beBytes n v).length = n := by
  simp [beBytes]

theorem leValue_leBytes {n v : Nat} (h : v < 256 ^ n) : leValue (leBytes n v) = v := by
  induction n generalizing v with
  | zero => simp at h; simp [leBytes, leValue, h]
  | succ n ih =>
    have hdiv : v / 256 < 256 ^ n := by
      rw [Nat.div_lt_iff_lt_mul (by decide)]
      rwa [Nat.pow_succ] at h
    simp only [leBytes, leValue, ih hdiv, UInt8.toNat_ofNat']
    omega

/-- As many bytes as were read are the bytes of their value. -/
theorem leBytes_leValue {n : Nat} {bs : Bytes} (h : bs.length = n) :
    leBytes n (leValue bs) = bs := by
  induction bs generalizing n with
  | nil =>
    subst h
    rfl
  | cons b bs ih =>
    cases n with
    | zero => contradiction
    | succ n =>
      have hb : b.toNat < 256 := b.toNat_lt
      have hmod : (b.toNat + 256 * leValue bs) % 256 = b.toNat := by omega
      have hdiv : (b.toNat + 256 * leValue bs) / 256 = leValue bs := by omega
      rw [leValue, leBytes, hmod, hdiv, ih (by simpa using h), UInt8.ofNat_toNat]

theorem leValue_lt (bs : Bytes) : leValue bs < 256 ^ bs.length := by
  induction bs with
  | nil => decide
  | cons b bs ih =>
    have hb : b.toNat < 256 := b.toNat_lt
    rw [leValue, List.length_cons, Nat.pow_succ]
    omega

theorem beBytes_beValue {n : Nat} {bs : Bytes} (h : bs.length = n) :
    beBytes n (beValue bs) = bs := by
  rw [beBytes, beValue, leBytes_leValue (by simpa using h), List.reverse_reverse]

theorem beValue_lt (bs : Bytes) : beValue bs < 256 ^ bs.length := by
  have h := leValue_lt bs.reverse
  rwa [List.length_reverse] at h

theorem beValue_beBytes {n v : Nat} (h : v < 256 ^ n) : beValue (beBytes n v) = v := by
  simp [beValue, beBytes, leValue_leBytes h]

theorem drop_leBytes {m v off : Nat} {rest : Bytes} (h : m ≤ off) :
    (leBytes m v ++ rest).drop off = rest.drop (off - m) := by
  have hd : (leBytes m v).drop off = [] := List.drop_eq_nil_of_le (by simpa using h)
  simp [List.drop_append, hd]

theorem take_leBytes {n v : Nat} {rest : Bytes} : (leBytes n v ++ rest).take n = leBytes n v :=
  List.take_left' (length_leBytes n v)

/-- A field that was read, and what follows it. -/
theorem drop_field {n v off : Nat} {bs : Bytes} (hlen : off + n ≤ bs.length)
    (hv : leValue ((bs.drop off).take n) = v) :
    bs.drop off = leBytes n v ++ bs.drop (off + n) := by
  have hfield : ((bs.drop off).take n).length = n := by
    rw [List.length_take, List.length_drop]
    omega
  rw [← hv, leBytes_leValue hfield, ← List.drop_drop, List.take_append_drop]

theorem drop_field_be {n v off : Nat} {bs : Bytes} (hlen : off + n ≤ bs.length)
    (hv : beValue ((bs.drop off).take n) = v) :
    bs.drop off = beBytes n v ++ bs.drop (off + n) := by
  have hfield : ((bs.drop off).take n).length = n := by
    rw [List.length_take, List.length_drop]
    omega
  rw [← hv, beBytes_beValue hfield, ← List.drop_drop, List.take_append_drop]

end Endian
