import Dpc.Common.Types
import Dpc.Lib.Greedy

namespace Dpc
open Text Greedy

/-- Chunks numbered one after another. -/
def Indexed : UInt64 → List Chunk → Prop
  | _, [] => True
  | i, c :: cs => c.index = i ∧ Indexed (i + 1) cs

structure FixedChunker where
  chunkSize : UInt64
  positive : 0 < chunkSize

namespace FixedChunker

def kDefaultChunkSize : UInt64 := 64 * 1024

def default : FixedChunker := ⟨kDefaultChunkSize, by decide⟩

def slice (data : Bytes) (first last : UInt64) : Bytes :=
  (data.drop first.toNat).take (last.toNat - first.toNat)

/-- The loop over offsets, sums modulo 2^64; `none` when the fuel does not last. -/
def loop (chunkSize : UInt64) (data : Bytes) : Nat → UInt64 → UInt64 → Option (List Chunk)
  | 0, _, _ => none
  | fuel + 1, offset, index =>
    if offset < size data then
      let last := if size data < offset + chunkSize then size data else offset + chunkSize
      (loop chunkSize data fuel (offset + chunkSize) (index + 1)).map
        (⟨index, slice data offset last⟩ :: ·)
    else some []

def chunkBytes (chunker : FixedChunker) (data : Bytes) : List Chunk :=
  let chunks := (loop chunker.chunkSize data (data.length + 1) 0 0).getD []
  if data = [] then chunks ++ [⟨0, []⟩] else chunks

/-- A chunk of these bytes is full. -/
def EndsAt (chunker : FixedChunker) (w : Bytes) : Prop := chunker.chunkSize.toNat ≤ w.length

variable {chunker : FixedChunker} {data : Bytes} {offset : UInt64}

/-- While the loop runs its sums do not wrap: past the first chunk, the chunk
size is below an offset that is below the size. -/
theorem toNat_next (hlen : data.length < 2 ^ 63) (hoff : offset = 0 ∨ chunker.chunkSize ≤ offset)
    (hlt : offset.toNat < data.length) :
    (offset + chunker.chunkSize).toNat = offset.toNat + chunker.chunkSize.toNat := by
  rw [UInt64.toNat_add]
  apply Nat.mod_eq_of_lt
  have := chunker.chunkSize.toNat_lt
  rcases hoff with rfl | hle
  · simpa using this
  · have := UInt64.le_iff_toNat_le.mp hle
    omega

theorem slice_next (hlen : data.length < 2 ^ 63) (hoff : offset = 0 ∨ chunker.chunkSize ≤ offset)
    (hlt : offset.toNat < data.length) :
    slice data offset (if size data < offset + chunker.chunkSize then size data
        else offset + chunker.chunkSize) =
      (data.drop offset.toNat).take chunker.chunkSize.toNat := by
  have hsize : (size data).toNat = data.length := toNat_size (by omega)
  have hsum := toNat_next hlen hoff hlt
  split
  · rename_i hm
    have hm' : data.length < offset.toNat + chunker.chunkSize.toNat := by
      rwa [UInt64.lt_iff_toNat_lt, hsum, hsize] at hm
    rw [slice, hsize, List.take_of_length_le (by simp),
      List.take_of_length_le (by simp only [List.length_drop]; omega)]
  · rw [slice, hsum, Nat.add_sub_cancel_left]

theorem take_closes (h : chunker.chunkSize.toNat ≤ data.length) :
    Closes chunker.EndsAt (data.take chunker.chunkSize.toNat) where
  ne := by
    have hpos : 0 < chunker.chunkSize.toNat := UInt64.lt_iff_toNat_lt.mp chunker.positive
    apply List.ne_nil_of_length_pos
    rw [List.length_take]
    omega
  here := by
    rw [EndsAt, List.length_take]
    omega
  first v hv _ hc := by
    apply hv.eq_of_length_le
    rw [List.length_take]
    exact Nat.le_trans (Nat.min_le_left _ _) hc

theorem loop_cuts (hlen : data.length < 2 ^ 63) {fuel : Nat} (index : UInt64)
    (hoff : offset = 0 ∨ chunker.chunkSize ≤ offset) (hf : data.length - offset.toNat < fuel) :
    ∃ cs, loop chunker.chunkSize data fuel offset index = some cs ∧ Indexed index cs ∧
      Cuts chunker.EndsAt (data.drop offset.toNat) (cs.map Chunk.data) := by
  induction fuel generalizing offset index with
  | zero => omega
  | succ fuel ih =>
    have hsize : (size data).toNat = data.length := toNat_size (by omega)
    unfold loop
    by_cases hlt : offset < size data
    · have hlt' : offset.toNat < data.length := hsize ▸ UInt64.lt_iff_toNat_lt.mp hlt
      have hpos : 0 < chunker.chunkSize.toNat := UInt64.lt_iff_toNat_lt.mp chunker.positive
      have hsum := toNat_next hlen hoff hlt'
      have hnext : chunker.chunkSize ≤ offset + chunker.chunkSize :=
        UInt64.le_iff_toNat_le.mpr (by omega)
      obtain ⟨cs, hcs, hidx, hcuts⟩ := ih (index + 1) (.inr hnext) (by omega)
      refine ⟨⟨index, slice data offset (if size data < offset + chunker.chunkSize then size data
        else offset + chunker.chunkSize)⟩ :: cs,
        by simp only [hlt, if_true, hcs, Option.map_some], ⟨rfl, hidx⟩, ?_⟩
      rw [List.map_cons, slice_next hlen hoff hlt']
      rw [hsum, ← List.drop_drop] at hcuts
      by_cases hfull : chunker.chunkSize.toNat ≤ (data.drop offset.toNat).length
      · have hall := Cuts.cons (take_closes hfull) hcuts
        rwa [List.take_append_drop] at hall
      -- the last chunk is not full, and nothing follows it
      · have hrest : (data.drop offset.toNat).drop chunker.chunkSize.toNat = [] := by
          rw [List.drop_eq_nil_iff]
          omega
        rw [hrest] at hcuts
        rw [hcuts.unique .nil, List.take_of_length_le (by omega)]
        refine .tail ?_ ?_
        · apply List.ne_nil_of_length_pos
          rw [List.length_drop]
          omega
        · intro v hv _ hc
          exact hfull (Nat.le_trans hc hv.length_le)
    · have hge : data.length ≤ offset.toNat := by
        rw [UInt64.lt_iff_toNat_lt, hsize] at hlt
        omega
      refine ⟨[], by simp only [hlt, if_false], trivial, ?_⟩
      rw [List.drop_eq_nil_of_le hge]
      exact .nil

/-- The chunks are numbered, and full but for the last. -/
theorem chunkBytes_cuts (chunker : FixedChunker) (hlen : data.length < 2 ^ 63) (hd : data ≠ []) :
    Indexed 0 (chunker.chunkBytes data) ∧
      Cuts chunker.EndsAt data ((chunker.chunkBytes data).map Chunk.data) := by
  have hfuel : data.length - (0 : UInt64).toNat < data.length + 1 := by simp
  have hloop := @loop_cuts chunker data 0 hlen _ 0 (.inl rfl) hfuel
  obtain ⟨cs, hcs, hidx, hcuts⟩ := hloop
  rw [chunkBytes, hcs, if_neg hd]
  exact ⟨hidx, hcuts⟩

theorem chunkBytes_nil (chunker : FixedChunker) : chunker.chunkBytes [] = [⟨0, []⟩] := by
  simp [chunkBytes, loop, size]

end FixedChunker

structure ContentDefinedChunker where
  minSize : UInt64
  avgSize : UInt64
  maxSize : UInt64
  min_pos : 0 < minSize
  min_le_avg : minSize ≤ avgSize
  avg_le_max : avgSize ≤ maxSize
  avg_pow_two : avgSize &&& (avgSize - 1) = 0

namespace ContentDefinedChunker

def default : ContentDefinedChunker where
  minSize := 16 * 1024
  avgSize := 64 * 1024
  maxSize := 256 * 1024
  min_pos := by decide
  min_le_avg := by decide
  avg_le_max := by decide
  avg_pow_two := by decide

def mask (chunker : ContentDefinedChunker) : UInt64 := chunker.avgSize - 1

def seed : UInt64 := 0x9e3779b97f4a7c15

def roll (rolling : UInt64) (b : UInt8) : UInt64 :=
  (rolling <<< 1) ^^^ (rolling >>> 23) ^^^ b.toUInt64 ^^^ 0x517cc1b727220a95

/-- The loop over the bytes still to read; `cur` is what was read since `start`. -/
def loop (chunker : ContentDefinedChunker) : Bytes → Bytes → UInt64 → UInt64 → List Chunk
  | [], cur, _, index => if cur = [] then [] else [⟨index, cur⟩]
  | b :: rest, cur, rolling, index =>
    let rolling' := roll rolling b
    let cur' := cur ++ [b]
    let len := size cur'
    let boundary := decide (chunker.minSize ≤ len) && (rolling' &&& chunker.mask == 0)
    if decide (chunker.maxSize ≤ len) || boundary then
      ⟨index, cur'⟩ :: chunker.loop rest [] seed (index + 1)
    else chunker.loop rest cur' rolling' index

def chunkBytes (chunker : ContentDefinedChunker) (data : Bytes) : List Chunk :=
  if data = [] then [⟨0, []⟩] else chunker.loop data [] seed 0

/-- The hash of the bytes of a chunk. -/
def hash (w : Bytes) : UInt64 := w.foldl roll seed

/-- A chunk of these bytes ends after them. -/
def EndsAt (chunker : ContentDefinedChunker) (w : Bytes) : Prop :=
  chunker.maxSize.toNat ≤ w.length ∨
    chunker.minSize.toNat ≤ w.length ∧ hash w &&& chunker.mask = 0

variable {data : Bytes}

theorem loop_indexed (chunker : ContentDefinedChunker) (rest cur : Bytes) (rolling index : UInt64) :
    Indexed index (chunker.loop rest cur rolling index) := by
  induction rest generalizing cur rolling index with
  | nil =>
    by_cases hc : cur = []
    · simp [loop, hc, Indexed]
    · simp [loop, hc, Indexed]
  | cons b rest ih =>
    unfold loop
    dsimp only
    split
    · exact ⟨rfl, ih [] seed (index + 1)⟩
    · exact ih _ _ index

/-- What was read since `start` holds no end of a chunk, and its hash is the rolling one. -/
theorem loop_cuts (chunker : ContentDefinedChunker) {rest cur : Bytes} {index : UInt64}
    (hlen : (cur ++ rest).length < 2 ^ 63) (hcur : Whole chunker.EndsAt cur) :
    Cuts chunker.EndsAt (cur ++ rest) ((chunker.loop rest cur (hash cur) index).map Chunk.data) := by
  induction rest generalizing cur index with
  | nil =>
    rw [List.append_nil, loop]
    by_cases hc : cur = []
    · rw [if_pos hc, hc]
      exact .nil
    · rw [if_neg hc]
      exact .tail hc hcur
  | cons b rest ih =>
    have hroll : roll (hash cur) b = hash (cur ++ [b]) := by rw [hash, hash, List.foldl_concat]
    have hsize : (size (cur ++ [b])).toNat = (cur ++ [b]).length := by
      apply toNat_size
      simp only [List.length_append, List.length_cons, List.length_nil] at hlen ⊢
      omega
    have hends : (decide (chunker.maxSize ≤ size (cur ++ [b])) ||
        (decide (chunker.minSize ≤ size (cur ++ [b])) &&
          (hash (cur ++ [b]) &&& chunker.mask == 0))) = true ↔ chunker.EndsAt (cur ++ [b]) := by
      rw [Bool.or_eq_true, Bool.and_eq_true, decide_eq_true_eq, decide_eq_true_eq, beq_iff_eq,
        UInt64.le_iff_toNat_le, UInt64.le_iff_toNat_le, hsize, EndsAt]
    rw [List.append_cons] at hlen ⊢
    rw [loop]
    rw [hroll]
    by_cases hend : chunker.EndsAt (cur ++ [b])
    · rw [if_pos (hends.mpr hend), List.map_cons]
      refine .cons (hcur.closes_snoc hend) ?_
      have hrest : ([] ++ rest).length < 2 ^ 63 := by
        rw [List.length_append] at hlen
        exact Nat.lt_of_le_of_lt (Nat.le_add_left _ _) hlen
      exact ih hrest fun v hv hne _ => hne (List.prefix_nil.mp hv)
    · rw [if_neg fun h => hend (hends.mp h)]
      exact ih hlen (hcur.snoc hend)

/-- The chunks are numbered, and each is the shortest that may end. -/
theorem chunkBytes_cuts (chunker : ContentDefinedChunker) (hlen : data.length < 2 ^ 63)
    (hd : data ≠ []) :
    Indexed 0 (chunker.chunkBytes data) ∧
      Cuts chunker.EndsAt data ((chunker.chunkBytes data).map Chunk.data) := by
  rw [chunkBytes, if_neg hd]
  have hwhole : Whole chunker.EndsAt [] := fun v hv hne _ => hne (List.prefix_nil.mp hv)
  have hdata : ([] ++ data).length < 2 ^ 63 := hlen
  exact ⟨chunker.loop_indexed data [] seed 0, chunker.loop_cuts hdata hwhole⟩

theorem chunkBytes_nil (chunker : ContentDefinedChunker) : chunker.chunkBytes [] = [⟨0, []⟩] := rfl

end ContentDefinedChunker

/-- `chunkFile` of the backup engine, on the bytes read. -/
def chunkFile (mode : ChunkingMode) (data : Bytes) : List Chunk :=
  match mode with
  | .contentDefined => ContentDefinedChunker.default.chunkBytes data
  | .fixed => FixedChunker.default.chunkBytes data

theorem chunkFile_nil (mode : ChunkingMode) : chunkFile mode [] = [⟨0, []⟩] := by
  cases mode with
  | fixed => exact FixedChunker.default.chunkBytes_nil
  | contentDefined => exact ContentDefinedChunker.default.chunkBytes_nil

theorem chunkFile_cuts (mode : ChunkingMode) {data : Bytes} (hlen : data.length < 2 ^ 63)
    (hd : data ≠ []) :
    ∃ ends, Indexed 0 (chunkFile mode data) ∧ Cuts ends data ((chunkFile mode data).map Chunk.data) := by
  cases mode with
  | fixed => exact ⟨_, FixedChunker.default.chunkBytes_cuts hlen hd⟩
  | contentDefined => exact ⟨_, ContentDefinedChunker.default.chunkBytes_cuts hlen hd⟩

/-- Chunking loses nothing and numbers the chunks from zero. -/
theorem chunkFile_spec (mode : ChunkingMode) {data : Bytes} (hlen : data.length < 2 ^ 63) :
    ((chunkFile mode data).map Chunk.data).flatten = data ∧ Indexed 0 (chunkFile mode data) := by
  by_cases hd : data = []
  · subst hd
    rw [chunkFile_nil]
    exact ⟨rfl, rfl, trivial⟩
  · obtain ⟨ends, hidx, hcuts⟩ := chunkFile_cuts mode hlen hd
    exact ⟨hcuts.flatten_eq, hidx⟩

theorem length_le_flatten {cs : List Bytes} (h : ∀ c ∈ cs, c ≠ []) :
    cs.length ≤ cs.flatten.length := by
  induction cs with
  | nil => simp
  | cons c cs ih =>
    have hc := List.length_pos_iff.mpr (h c (by simp))
    have ih := ih fun d hd => h d (by simp [hd])
    simp only [List.length_cons, List.flatten_cons, List.length_append]
    omega

/-- There are no more chunks than bytes, but one for no bytes. -/
theorem length_chunkFile (mode : ChunkingMode) {data : Bytes} (hlen : data.length < 2 ^ 63) :
    (chunkFile mode data).length ≤ data.length + 1 := by
  by_cases hd : data = []
  · subst hd
    rw [chunkFile_nil]
    exact Nat.le_refl 1
  · obtain ⟨ends, _, hcuts⟩ := chunkFile_cuts mode hlen hd
    have hle := length_le_flatten hcuts.ne_nil
    rw [hcuts.flatten_eq, List.length_map] at hle
    omega

end Dpc
