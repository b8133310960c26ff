import Dpc.Common.Types

namespace Dpc
open Text

abbrev Digest := { d : Bytes // d.length = 32 }

/-- OpenSSL's incremental SHA-256. -/
structure Evp where
  Ctx : Type
  init : Ctx
  update : Ctx → Bytes → Ctx
  final : Ctx → Digest

namespace Hash

/-- `Sha256::update`: no bytes, no call. -/
def update (evp : Evp) (ctx : evp.Ctx) (data : Bytes) : evp.Ctx :=
  if data = [] then ctx else evp.update ctx data

def bytesToHex (bytes : Bytes) : Bytes := hexEncode bytes

def finalHex (evp : Evp) (ctx : evp.Ctx) : Bytes := bytesToHex (evp.final ctx).val

def sha256Hex (evp : Evp) (data : Bytes) : Bytes := finalHex evp (update evp evp.init data)

/-- The pieces that reads into a buffer of `n` bytes return; the fuel is the length. -/
def reads (n : Nat) : Nat → Bytes → List Bytes
  | 0, _ => []
  | fuel + 1, data => if data = [] then [] else data.take n :: reads n fuel (data.drop n)

/-- `sha256File`, on the bytes of the file. -/
def sha256File (evp : Evp) (data : Bytes) : Bytes :=
  finalHex evp ((reads (64 * 1024) data.length data).foldl (update evp) evp.init)

def isSha256Hex (value : Bytes) : Bool := value.length == 64 && value.all isXdigit

def requireSha256Hex (value : Bytes) (field : String) : Except Exn Unit :=
  if isSha256Hex value then .ok ()
  else .error (dpcError (field ++ " must be a 64-character SHA-256 hex string"))

/-- Digits of either case, in pairs. -/
def hexToBytes (hex : Bytes) : Except Exn Bytes :=
  if hex.length % 2 ≠ 0 then .error (dpcError "hex string has odd length")
  else match hexDecode hex with
    | some bytes => .ok bytes
    | none => .error (dpcError "invalid hex character")

theorem flatten_reads {n fuel : Nat} {data : Bytes} (hn : 0 < n) (hf : data.length ≤ fuel) :
    (reads n fuel data).flatten = data := by
  induction fuel generalizing data with
  | zero =>
    have : data = [] := List.length_eq_zero_iff.mp (by omega)
    simp [reads, this]
  | succ fuel ih =>
    unfold reads
    by_cases hd : data = []
    · simp [hd]
    · have hlen : 0 < data.length := List.length_pos_iff.mpr hd
      have hdrop : (data.drop n).length ≤ fuel := by simp only [List.length_drop]; omega
      simp only [hd, if_false, List.flatten_cons, ih hdrop, List.take_append_drop]

end Hash

/-- Incremental SHA-256 is the one-shot hash of the concatenation. -/
def Evp.Incremental (evp : Evp) : Prop :=
  ∀ pieces : List Bytes,
    Hash.finalHex evp (pieces.foldl (Hash.update evp) evp.init) = Hash.sha256Hex evp pieces.flatten

namespace Hash

theorem sha256File_eq {evp : Evp} (h : evp.Incremental) (data : Bytes) :
    sha256File evp data = sha256Hex evp data := by
  rw [sha256File, h, flatten_reads (by decide) (Nat.le_refl _)]

theorem isSha256Hex_sha256Hex (evp : Evp) (data : Bytes) :
    isSha256Hex (sha256Hex evp data) = true := by
  have hl := (evp.final (update evp evp.init data)).property
  simp only [isSha256Hex, Bool.and_eq_true, beq_iff_eq, List.all_eq_true]
  refine ⟨?_, fun b hb => isXdigit_of_mem_hexEncode hb⟩
  simp [sha256Hex, finalHex, bytesToHex, hl]

theorem isWord_of_isSha256Hex {value : Bytes} (h : isSha256Hex value = true) : IsWord value := by
  simp only [isSha256Hex, Bool.and_eq_true, beq_iff_eq, List.all_eq_true] at h
  refine .of_hex ?_ h.2
  rintro rfl
  simp at h

theorem requireSha256Hex_ok {value : Bytes} {field : String} {u : Unit}
    (h : requireSha256Hex value field = .ok u) : isSha256Hex value = true := by
  unfold requireSha256Hex at h
  split at h
  · assumption
  · contradiction

theorem requireSha256Hex_of {value : Bytes} {field : String} (h : isSha256Hex value = true) :
    requireSha256Hex value field = .ok () := by
  simp [requireSha256Hex, h]

end Hash

end Dpc
