import Dpc.Core.Chunkers

namespace Dpc
open Text Greedy

variable {cs ds : List Chunk} {data : Bytes} {i : UInt64}

theorem Indexed.get (h : Indexed i cs) {k : Nat} {c : Chunk} (hc : cs[k]? = some c) :
    c.index = i + UInt64.ofNat k := by
  induction cs generalizing i k with
  | nil => simp at hc
  | cons d cs ih =>
    cases k with
    | zero =>
      cases hc
      simpa using h.1
    | succ k =>
      rw [ih h.2 hc, UInt64.ofNat_add, UInt64.add_assoc]
      exact congrArg (i + ·) (UInt64.add_comm _ _)

theorem Indexed.of_append (h : Indexed i (cs ++ ds)) : Indexed i cs := by
  induction cs generalizing i with
  | nil => trivial
  | cons c cs ih => exact ⟨h.1, ih h.2⟩

/-- Chunks that are numbered alike are alike where their bytes are. -/
theorem Indexed.prefix_of (h : Indexed i cs) (h' : Indexed i ds)
    (hp : cs.map Chunk.data <+: ds.map Chunk.data) : cs <+: ds := by
  induction cs generalizing i ds with
  | nil => exact List.nil_prefix
  | cons c cs ih =>
    cases ds with
    | nil => exact absurd (List.prefix_nil.mp hp) (by simp)
    | cons d ds =>
      obtain ⟨hdata, hrest⟩ := List.cons_prefix_cons.mp hp
      obtain ⟨hc, hcs⟩ := h
      obtain ⟨hd, hds⟩ := h'
      have heq : c = d := by
        cases c
        cases d
        cases hdata
        cases hc.trans hd.symm
        rfl
      exact List.cons_prefix_cons.mpr ⟨heq, ih hcs hds hrest⟩

/-- Chunks are numbered 0, 1, 2, ... -/
def Numbered (cs : List Chunk) : Prop := ∀ k (c : Chunk), cs[k]? = some c → c.index.toNat = k

theorem Indexed.numbered (h : Indexed 0 cs) (hlen : cs.length < 2 ^ 64) : Numbered cs := by
  intro k c hc
  have hk : k < cs.length := (List.getElem?_eq_some_iff.mp hc).1
  rw [h.get hc, UInt64.zero_add, UInt64.toNat_ofNat_of_lt' (Nat.lt_trans hk hlen)]

namespace ContentDefinedChunker

variable {chunker : ContentDefinedChunker} {w : Bytes}

theorem max_pos : 0 < chunker.maxSize.toNat := by
  have hmin := UInt64.lt_iff_toNat_lt.mp chunker.min_pos
  have havg := UInt64.le_iff_toNat_le.mp chunker.min_le_avg
  have hmax := UInt64.le_iff_toNat_le.mp chunker.avg_le_max
  exact Nat.lt_of_lt_of_le hmin (Nat.le_trans havg hmax)

theorem take_max_ends (h : chunker.maxSize.toNat ≤ w.length) :
    (w.take chunker.maxSize.toNat).length = chunker.maxSize.toNat ∧
      w.take chunker.maxSize.toNat ≠ [] ∧ chunker.EndsAt (w.take chunker.maxSize.toNat) := by
  have hlen : (w.take chunker.maxSize.toNat).length = chunker.maxSize.toNat := by
    rw [List.length_take]
    omega
  refine ⟨hlen, ?_, .inl (Nat.le_of_eq hlen.symm)⟩
  apply List.ne_nil_of_length_pos
  rw [hlen]
  exact chunker.max_pos

/-- A chunk that is closed is of the sizes that are configured. -/
theorem length_closed (h : Closes chunker.EndsAt w) :
    chunker.minSize.toNat ≤ w.length ∧ w.length ≤ chunker.maxSize.toNat := by
  constructor
  · have hle := Nat.le_trans (UInt64.le_iff_toNat_le.mp chunker.min_le_avg)
      (UInt64.le_iff_toNat_le.mp chunker.avg_le_max)
    rcases h.here with hmax | ⟨hmin, _⟩
    · exact Nat.le_trans hle hmax
    · exact hmin
  · apply Nat.le_of_not_lt
    intro hlt
    obtain ⟨hlen, hne, hends⟩ := take_max_ends (Nat.le_of_lt hlt)
    have heq := h.first _ (List.take_prefix _ _) hne hends
    rw [heq] at hlen
    omega

theorem length_whole (h : Whole chunker.EndsAt w) : w.length ≤ chunker.maxSize.toNat := by
  apply Nat.le_of_not_lt
  intro hlt
  obtain ⟨_, hne, hends⟩ := take_max_ends (Nat.le_of_lt hlt)
  exact h _ (List.take_prefix _ _) hne hends

theorem length_chunkBytes (hlen : data.length < 2 ^ 63) :
    (chunker.chunkBytes data).length ≤ data.length + 1 := by
  by_cases hd : data = []
  · subst hd
    exact Nat.le_refl 1
  · have hcuts := (chunker.chunkBytes_cuts hlen hd).2
    have hle := length_le_flatten hcuts.ne_nil
    rw [hcuts.flatten_eq, List.length_map] at hle
    exact Nat.le_succ_of_le hle

theorem indexed_chunkBytes : Indexed 0 (chunker.chunkBytes data) := by
  by_cases hd : data = []
  · subst hd
    exact ⟨rfl, trivial⟩
  · rw [chunkBytes, if_neg hd]
    exact chunker.loop_indexed data [] seed 0

end ContentDefinedChunker

/-- The chunks are numbered, they are the greedy partition of the data, each as short as
it may be, and they are of the sizes that are configured. -/
theorem content_defined_chunks_are_greedy (chunker : ContentDefinedChunker)
    (hlen : data.length < 2 ^ 63) :
    Numbered (chunker.chunkBytes data) ∧
      ((chunker.chunkBytes data).map Chunk.data).flatten = data ∧
      (data = [] → chunker.chunkBytes data = [⟨0, []⟩]) ∧
      (data ≠ [] → Cuts chunker.EndsAt data ((chunker.chunkBytes data).map Chunk.data)) ∧
      (∀ c ∈ (chunker.chunkBytes data).dropLast, Closes chunker.EndsAt c.data ∧
        chunker.minSize.toNat ≤ c.data.length ∧ c.data.length ≤ chunker.maxSize.toNat) ∧
      (data ≠ [] → ∀ c ∈ (chunker.chunkBytes data).getLast?,
        (Closes chunker.EndsAt c.data ∨ Whole chunker.EndsAt c.data) ∧
          1 ≤ c.data.length ∧ c.data.length ≤ chunker.maxSize.toNat) := by
  have hnum : Numbered (chunker.chunkBytes data) := by
    apply ContentDefinedChunker.indexed_chunkBytes.numbered
    have := chunker.length_chunkBytes hlen
    omega
  by_cases hd : data = []
  · subst hd
    refine ⟨hnum, rfl, fun _ => rfl, fun h => absurd rfl h, ?_, fun h => absurd rfl h⟩
    simp [ContentDefinedChunker.chunkBytes_nil]
  · have hcuts := (chunker.chunkBytes_cuts hlen hd).2
    refine ⟨hnum, hcuts.flatten_eq, fun h => absurd h hd, fun _ => hcuts, ?_, ?_⟩
    · intro c hc
      have hclosed := hcuts.closes c.data (by
        rw [← List.map_dropLast]
        exact List.mem_map_of_mem hc)
      exact ⟨hclosed, ContentDefinedChunker.length_closed hclosed⟩
    · intro _ c hc
      have hlast : c.data ∈ ((chunker.chunkBytes data).map Chunk.data).getLast? := by
        rw [List.getLast?_map]
        exact Option.mem_map_of_mem _ hc
      have hkind := hcuts.last c.data hlast
      refine ⟨hkind, List.length_pos_of_ne_nil (hcuts.ne_nil _ (List.mem_of_getLast? hlast)), ?_⟩
      rcases hkind with hclosed | hwhole
      · exact (ContentDefinedChunker.length_closed hclosed).2
      · exact ContentDefinedChunker.length_whole hwhole

def smallChunker : ContentDefinedChunker where
  minSize := 2
  avgSize := 2
  maxSize := 4
  min_pos := by decide
  min_le_avg := by decide
  avg_le_max := by decide
  avg_pow_two := by decide

/-- Chunks that end at their hash, at their greatest size, and with the data. -/
theorem small_chunks_are_greedy :
    (smallChunker.chunkBytes [9, 9, 1, 2, 3, 4, 0]).map Chunk.data = [[9, 9], [1, 2, 3, 4], [0]] ∧
      Cuts smallChunker.EndsAt [9, 9, 1, 2, 3, 4, 0]
        ((smallChunker.chunkBytes [9, 9, 1, 2, 3, 4, 0]).map Chunk.data) :=
  ⟨by decide, (content_defined_chunks_are_greedy smallChunker (by decide)).2.2.2.1 (by simp)⟩

namespace FixedChunker

variable {chunker : FixedChunker} {w : Bytes}

/-- A chunk that is closed is full, and no longer. -/
theorem length_closed (h : Closes chunker.EndsAt w) : w.length = chunker.chunkSize.toNat := by
  have hfull := take_closes h.here
  have heq := h.first _ (List.take_prefix _ _) hfull.ne hfull.here
  have hle : (w.take chunker.chunkSize.toNat).length ≤ chunker.chunkSize.toNat := by
    rw [List.length_take]
    exact Nat.min_le_left _ _
  rw [heq] at hle
  exact Nat.le_antisymm hle h.here

theorem length_whole (hne : w ≠ []) (h : Whole chunker.EndsAt w) :
    w.length ≤ chunker.chunkSize.toNat :=
  Nat.le_of_lt (Nat.lt_of_not_le (h w (List.prefix_refl w) hne))

theorem length_chunkBytes (hlen : data.length < 2 ^ 63) :
    (chunker.chunkBytes data).length ≤ data.length + 1 := by
  by_cases hd : data = []
  · subst hd
    rw [chunker.chunkBytes_nil]
    exact Nat.le_refl 1
  · have hcuts := (chunker.chunkBytes_cuts hlen hd).2
    have hle := length_le_flatten hcuts.ne_nil
    rw [hcuts.flatten_eq, List.length_map] at hle
    exact Nat.le_succ_of_le hle

theorem indexed_chunkBytes (hlen : data.length < 2 ^ 63) :
    Indexed 0 (chunker.chunkBytes data) := by
  by_cases hd : data = []
  · rw [hd, chunker.chunkBytes_nil]
    exact ⟨rfl, trivial⟩
  · exact (chunker.chunkBytes_cuts hlen hd).1

/-- The loop ends within one turn for each byte and one more. -/
theorem loop_ends (chunker : FixedChunker) (hlen : data.length < 2 ^ 63) {fuel : Nat}
    (hf : data.length < fuel) :
    ∃ cs, loop chunker.chunkSize data fuel 0 0 = some cs ∧
      chunker.chunkBytes data = if data = [] then cs ++ [⟨0, []⟩] else cs := by
  have hfuel : data.length - (0 : UInt64).toNat < fuel := Nat.lt_of_le_of_lt (Nat.sub_le _ _) hf
  have hleast : data.length - (0 : UInt64).toNat < data.length + 1 := by simp
  have hloop := @loop_cuts chunker data 0 hlen _ 0 (.inl rfl) hfuel
  have hloop' := @loop_cuts chunker data 0 hlen _ 0 (.inl rfl) hleast
  obtain ⟨cs, hcs, hidx, hcuts⟩ := hloop
  obtain ⟨ds, hds, hidx', hcuts'⟩ := hloop'
  have hdata := hcuts.unique hcuts'
  have hpre := hidx.prefix_of hidx' (hdata ▸ List.prefix_refl _)
  have heq : cs = ds := by
    apply hpre.eq_of_length
    have hmap := congrArg List.length hdata
    rwa [List.length_map, List.length_map] at hmap
  refine ⟨cs, hcs, ?_⟩
  rw [chunkBytes, hds, heq]
  rfl

end FixedChunker

/-- The loop ends for every chunk size, however its sums wrap; the chunks are numbered, they
are a partition of the data, and all but the last are full. -/
theorem fixed_chunks_partition (chunker : FixedChunker) (hlen : data.length < 2 ^ 63) :
    (∀ fuel, data.length < fuel → ∃ cs, FixedChunker.loop chunker.chunkSize data fuel 0 0 = some cs ∧
        chunker.chunkBytes data = if data = [] then cs ++ [⟨0, []⟩] else cs) ∧
      Numbered (chunker.chunkBytes data) ∧
      ((chunker.chunkBytes data).map Chunk.data).flatten = data ∧
      (data = [] → chunker.chunkBytes data = [⟨0, []⟩]) ∧
      (∀ c ∈ (chunker.chunkBytes data).dropLast, c.data.length = chunker.chunkSize.toNat) ∧
      (data ≠ [] → ∃ c, (chunker.chunkBytes data).getLast? = some c ∧
        1 ≤ c.data.length ∧ c.data.length ≤ chunker.chunkSize.toNat) := by
  refine ⟨fun fuel hf => chunker.loop_ends hlen hf, ?_, ?_⟩
  · apply (FixedChunker.indexed_chunkBytes hlen).numbered
    have hle := chunker.length_chunkBytes hlen
    omega
  by_cases hd : data = []
  · subst hd
    rw [chunker.chunkBytes_nil]
    exact ⟨rfl, fun _ => rfl, by simp, fun h => absurd rfl h⟩
  have hcuts := (chunker.chunkBytes_cuts hlen hd).2
  refine ⟨hcuts.flatten_eq, fun h => absurd h hd, ?_, ?_⟩
  · intro c hc
    have hclosed := hcuts.closes c.data (by
      rw [← List.map_dropLast]
      exact List.mem_map_of_mem hc)
    exact FixedChunker.length_closed hclosed
  · intro _
    have hne : chunker.chunkBytes data ≠ [] := by
      intro hnil
      rw [hnil] at hcuts
      exact hd hcuts.flatten_eq.symm
    refine ⟨_, List.getLast?_eq_some_getLast hne, ?_⟩
    generalize hc : (chunker.chunkBytes data).getLast hne = c
    have hlast : c.data ∈ ((chunker.chunkBytes data).map Chunk.data).getLast? := by
      rw [List.getLast?_map, List.getLast?_eq_some_getLast hne, hc]
      exact rfl
    have hword := hcuts.ne_nil _ (List.mem_of_getLast? hlast)
    refine ⟨List.length_pos_of_ne_nil hword, ?_⟩
    rcases hcuts.last c.data hlast with hclosed | hwhole
    · exact Nat.le_of_eq (FixedChunker.length_closed hclosed)
    · exact FixedChunker.length_whole hword hwhole

/-- A chunk size that leaves a shorter last chunk, and the greatest one there is. -/
theorem small_chunks_partition :
    ((⟨2, by decide⟩ : FixedChunker).chunkBytes [7, 8, 9]).map Chunk.data = [[7, 8], [9]] ∧
      (((⟨0xffffffffffffffff, by decide⟩ : FixedChunker).chunkBytes [7, 8, 9]).map
        Chunk.data).flatten = [7, 8, 9] :=
  ⟨by decide +kernel, (fixed_chunks_partition ⟨0xffffffffffffffff, by decide⟩ (by decide)).2.2.1⟩

/-- The chunks of `a ++ s` from a boundary at the start of `s` on. The chunk of no bytes
that an empty input has ends before it. -/
def FromBoundary (chunker : ContentDefinedChunker) (a s : Bytes) (after : List Chunk) : Prop :=
  ∃ before, chunker.chunkBytes (a ++ s) = before ++ after ∧ (before.map Chunk.data).flatten = a ∧
    ∀ c ∈ after, c.data ≠ []

theorem FromBoundary.cuts {chunker : ContentDefinedChunker} {a s : Bytes} {after : List Chunk}
    (h : FromBoundary chunker a s after) (hlen : (a ++ s).length < 2 ^ 63) :
    Cuts chunker.EndsAt s (after.map Chunk.data) := by
  obtain ⟨before, hchunks, hbefore, hne⟩ := h
  by_cases hd : a ++ s = []
  · obtain ⟨rfl, rfl⟩ := List.append_eq_nil_iff.mp hd
    rw [List.append_nil, chunker.chunkBytes_nil] at hchunks
    have hafter : after = [] := by
      apply List.eq_nil_iff_forall_not_mem.mpr
      intro c hc
      have hmem : c ∈ [(⟨0, []⟩ : Chunk)] := hchunks ▸ List.mem_append_right before hc
      exact hne c hc (by rw [List.mem_singleton.mp hmem])
    rw [hafter]
    exact .nil
  · have hcuts := (chunker.chunkBytes_cuts hlen hd).2
    have hflat := hcuts.flatten_eq
    rw [hchunks, List.map_append] at hcuts hflat
    rw [List.flatten_append, hbefore] at hflat
    exact List.append_cancel_left hflat ▸ hcuts.suffix

theorem front_short {d e : Bytes} (hlen : (d ++ e).length < 2 ^ 63) : d.length < 2 ^ 63 := by
  rw [List.length_append] at hlen
  omega

theorem dropLast_prefix {cut : Bytes → Prop} {d e : Bytes} (hcs : Indexed 0 cs)
    (hd : Cuts cut d (cs.map Chunk.data)) (hds : Indexed 0 ds)
    (he : Cuts cut (d ++ e) (ds.map Chunk.data)) : cs.dropLast <+: ds := by
  have hfront : Indexed 0 cs.dropLast := by
    rcases List.eq_nil_or_concat cs with rfl | ⟨front, c, rfl⟩
    · trivial
    · rw [List.concat_eq_append] at hcs
      rw [List.concat_eq_append, List.dropLast_concat]
      exact hcs.of_append
  apply hfront.prefix_of hds
  rw [List.map_dropLast]
  exact hd.append he

/-- Whatever follows, all chunks but the last stay; and from a boundary on, the chunks of a
content-defined chunker are those of the bytes from there on. -/
theorem chunks_are_local :
    (∀ (chunker : FixedChunker) (d e : Bytes), (d ++ e).length < 2 ^ 63 →
        (chunker.chunkBytes d).dropLast <+: chunker.chunkBytes (d ++ e)) ∧
      (∀ (chunker : ContentDefinedChunker) (d e : Bytes), (d ++ e).length < 2 ^ 63 →
        (chunker.chunkBytes d).dropLast <+: chunker.chunkBytes (d ++ e)) ∧
      ∀ (chunker : ContentDefinedChunker) (a b s : Bytes) (after after' : List Chunk),
        (a ++ s).length < 2 ^ 63 → (b ++ s).length < 2 ^ 63 → FromBoundary chunker a s after →
          FromBoundary chunker b s after' → after.map Chunk.data = after'.map Chunk.data := by
  refine ⟨?_, ?_, ?_⟩
  · intro chunker d e hlen
    by_cases hd : d = []
    · rw [hd, chunker.chunkBytes_nil]
      exact List.nil_prefix
    · obtain ⟨hi, hc⟩ := chunker.chunkBytes_cuts (front_short hlen) hd
      obtain ⟨hi', hc'⟩ := chunker.chunkBytes_cuts hlen (List.append_ne_nil_of_left_ne_nil hd e)
      exact dropLast_prefix hi hc hi' hc'
  · intro chunker d e hlen
    by_cases hd : d = []
    · rw [hd, chunker.chunkBytes_nil]
      exact List.nil_prefix
    · obtain ⟨hi, hc⟩ := chunker.chunkBytes_cuts (front_short hlen) hd
      obtain ⟨hi', hc'⟩ := chunker.chunkBytes_cuts hlen (List.append_ne_nil_of_left_ne_nil hd e)
      exact dropLast_prefix hi hc hi' hc'
  · intro chunker a b s after after' ha hb h h'
    exact (h.cuts ha).unique (h'.cuts hb)

/-- Two inputs that meet at a boundary. -/
theorem small_chunks_are_local :
    FromBoundary smallChunker [9, 9] [1, 2, 3, 4, 0] [⟨1, [1, 2, 3, 4]⟩, ⟨2, [0]⟩] ∧
      FromBoundary smallChunker [0, 0, 0, 9, 9] [1, 2, 3, 4, 0] [⟨2, [1, 2, 3, 4]⟩, ⟨3, [0]⟩] ∧
      ([⟨1, [1, 2, 3, 4]⟩, ⟨2, [0]⟩] : List Chunk).map Chunk.data =
        ([⟨2, [1, 2, 3, 4]⟩, ⟨3, [0]⟩] : List Chunk).map Chunk.data := by
  have h : FromBoundary smallChunker [9, 9] [1, 2, 3, 4, 0] [⟨1, [1, 2, 3, 4]⟩, ⟨2, [0]⟩] :=
    ⟨[⟨0, [9, 9]⟩], by decide, rfl, by simp⟩
  have h' : FromBoundary smallChunker [0, 0, 0, 9, 9] [1, 2, 3, 4, 0]
      [⟨2, [1, 2, 3, 4]⟩, ⟨3, [0]⟩] :=
    ⟨[⟨0, [0, 0, 0]⟩, ⟨1, [9, 9]⟩], by decide, rfl, by simp⟩
  exact ⟨h, h', chunks_are_local.2.2 smallChunker _ _ _ _ _ (by decide) (by decide) h h'⟩

end Dpc
