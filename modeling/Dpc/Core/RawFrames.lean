import Dpc.Core.ReadFacts

namespace Dpc
open Text

/-- A hash that is given by a table. What the table does not list hashes to zeros. -/
abbrev Evp.ofTable (table : List (Bytes × Digest)) : Evp where
  Ctx := Bytes
  init := []
  update ctx data := ctx ++ data
  final ctx := ((table.find? fun entry => entry.1 == ctx).map Prod.snd).getD
    ⟨List.replicate 32 0, rfl⟩

namespace Evp

variable {table : List (Bytes × Digest)}

theorem update_ofTable (ctx data : Bytes) : Hash.update (ofTable table) ctx data = ctx ++ data := by
  unfold Hash.update
  split
  · rename_i h
    rw [h, List.append_nil]
  · rfl

theorem ofTable_incremental : (ofTable table).Incremental := by
  intro pieces
  have hfold : ∀ ctx : Bytes, pieces.foldl (Hash.update (ofTable table)) ctx = ctx ++ pieces.flatten := by
    induction pieces with
    | nil => simp
    | cons piece pieces ih =>
      intro ctx
      rw [List.foldl_cons, update_ofTable, ih, List.flatten_cons, List.append_assoc]
  have hinit : (ofTable table).init = ([] : Bytes) := rfl
  rw [Hash.sha256Hex, hfold, update_ofTable, hinit, List.nil_append]

/-- Of at most one byte string there is no collision. -/
theorem noCollision_of_eq {evp : Evp} {P : Bytes → Prop} {raw : Bytes} (h : ∀ a, P a → a = raw) :
    evp.NoCollision P := by
  intro a b ha hb _
  rw [h a ha, h b hb]

end Evp

/-- The header of a frame in one segment with its content size in one byte. -/
def frameHeader : Bytes := [0x28, 0xb5, 0x2f, 0xfd, 0x20]

/-- A frame of one block that is not compressed, as zstd makes it of a few bytes. -/
def rawFrame (raw : Bytes) : Bytes :=
  let block := 2 ^ 3 * raw.length + 1
  frameHeader ++ UInt8.ofNat raw.length :: UInt8.ofNat block :: UInt8.ofNat (block / 2 ^ 8) :: 0 :: raw

/-- The part of zstd that makes and reads such frames. -/
def Zstd.raw : Zstd where
  compressBound n := n + n >>> 8 + if n < 0x20000 then (0x20000 - n) >>> 11 else 0
  compress raw := if raw.length < 2 ^ 8 then some (rawFrame raw) else none
  decompress frame capacity :=
    let raw := frame.drop 9
    if frame = rawFrame raw ∧ raw.length < 2 ^ 8 ∧ raw.length ≤ capacity then some raw else none
  getFrameContentSize frame :=
    if frame.take 5 = frameHeader then ((frame.drop 5).headD 0).toUInt64
    else Compressor.kZstdContentSizeError

theorem drop_rawFrame (raw : Bytes) : (rawFrame raw).drop 9 = raw := rfl

theorem Zstd.raw_bound {n : UInt64} (h : n.toNat < 2 ^ 63) : n ≤ Zstd.raw.compressBound n := by
  have hshift : (n >>> 8).toNat = n.toNat / 2 ^ 8 := by
    simp [UInt64.toNat_shiftRight, Nat.shiftRight_eq_div_pow]
  have hrest : ∀ m : UInt64, m.toNat ≤ 2 ^ 61 → n ≤ n + n >>> 8 + m := by
    intro m hm
    have hsum : (n + n >>> 8).toNat = n.toNat + n.toNat / 2 ^ 8 := by
      rw [UInt64.toNat_add, hshift, Nat.mod_eq_of_lt (by omega)]
    rw [UInt64.le_iff_toNat_le, UInt64.toNat_add, hsum, Nat.mod_eq_of_lt (by omega)]
    omega
  unfold Zstd.raw
  dsimp only
  split
  · rename_i hlt
    have hsub : ((0x20000 - n) >>> 11).toNat ≤ 2 ^ 61 := by
      rw [UInt64.toNat_shiftRight, Nat.shiftRight_eq_div_pow]
      have := (0x20000 - n).toNat_lt
      have h11 : (11 : UInt64).toNat % 64 = 11 := rfl
      rw [h11]
      omega
    exact hrest _ hsub
  · exact hrest 0 (by decide)

theorem Zstd.raw_lawful : Zstd.raw.Lawful where
  bound _ h := raw_bound h
  decompress := by
    intro raw frame capacity h hcap
    simp only [Zstd.raw, Option.ite_none_right_eq_some, Option.some.injEq] at h ⊢
    obtain ⟨hlen, rfl⟩ := h
    exact ⟨⟨by rw [drop_rawFrame], by rw [drop_rawFrame]; exact hlen, by rwa [drop_rawFrame]⟩,
      drop_rawFrame raw⟩
  contentSize := by
    intro raw frame h
    simp only [Zstd.raw, Option.ite_none_right_eq_some, Option.some.injEq] at h ⊢
    obtain ⟨hlen, rfl⟩ := h
    have htake : (rawFrame raw).take 5 = frameHeader := rfl
    have hhead : ((rawFrame raw).drop 5).headD 0 = UInt8.ofNat raw.length := rfl
    rw [if_pos htake, hhead, ← UInt64.toNat_inj, toNat_size (by omega)]
    simp
    omega

/-- The sort of the examples, which keeps chunks of one index in their order. -/
def ChunkOrder.insertion : ChunkOrder where
  sort chunks := chunks.insertionSort fun a b => a.chunkIndex ≤ b.chunkIndex
  perm _ := List.perm_insertionSort _ _
  sorted _ := List.pairwise_insertionSort _ _

/-- The machine of the examples: an empty repository is on a file system whose names have
up to 255 bytes. -/
def rawEnv (table : List (Bytes × Digest)) : Env :=
  ⟨.ofTable table, .raw, 2 ^ 32, 0o22, .insertion⟩

def letterA : Bytes × Digest :=
  (ascii "a", ⟨(hexDecode
    (ascii "ca978112ca1bbdcafac231b39a23dc4da786eff8147c4e72b9807785afee48bb")).getD [], by decide⟩)

def letterEnv : Env := rawEnv [letterA]

def emptyRepo : Fs := .empty nameMax255

@[simp] theorem leaf?_emptyRepo (q : FileTree.Path) : emptyRepo.leaf? q = none := by
  by_cases hq : q = []
  · rw [hq]
    exact FileTree.Tree.leaf?_eq_none_of_dir rfl
  · refine FileTree.Tree.leaf?_eq_none_of_none ?_
    rw [← FileTree.Tree.lookup_of_get? hq]
    rfl

/-- An empty repository holds nothing that unpacks. -/
theorem not_unpacked_emptyRepo {env : Env} {raw : Bytes} : ¬Unpacked env emptyRepo raw := by
  intro ⟨q, f, hf, _⟩
  rw [leaf?_emptyRepo] at hf
  contradiction

end Dpc
