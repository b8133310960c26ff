import Dpc.Core.FailureFacts

namespace Dpc
open Text Effects

/-- All that is assumed of frames that others made: a frame has a content, or none, and it
unpacks to that if the buffer is large enough. What its header says may be anything. -/
def Zstd.Unpacks (zstd : Zstd) (content : Bytes → Option Bytes) : Prop :=
  ∀ input capacity output, zstd.decompress input capacity = some output ↔
    content input = some output ∧ output.length ≤ capacity

namespace Compressor

variable {env : Env} {content : Bytes → Option Bytes} {input raw : Bytes} {expected : UInt64}

/-- Of the buffers that are tried when no size is given, one holds so many bytes, and it and
those before it can be had. -/
def Guessed (env : Env) (input : Bytes) (length : Nat) : Prop :=
  ∃ first, outputSize env input 0 = .ok first ∧ ∃ k < 8, length ≤ (first * 2 ^ k).toNat ∧
    ∀ j ≤ k, Allocates env (first * 2 ^ j)

/-- Without a size, the buffers double until the content fits. -/
theorem attempt_iff (hz : env.zstd.Unpacks content) (fuel : Nat) (n : UInt64) :
    attempt env input 0 fuel n = .ok raw ↔ content input = some raw ∧
      ∃ k < fuel, raw.length ≤ (n * 2 ^ k).toNat ∧ ∀ j ≤ k, Allocates env (n * 2 ^ j) := by
  induction fuel generalizing n with
  | zero => simp [attempt, throw, throwThe, MonadExceptOf.throw]
  | succ fuel ih =>
    have hzero : n * 2 ^ 0 = n := by simp
    have hnext : ∀ k, n * 2 * 2 ^ k = n * 2 ^ (k + 1) := by
      intro k
      rw [UInt64.pow_succ, UInt64.mul_assoc, UInt64.mul_comm 2]
    rw [attempt, bind_eq_ok]
    constructor
    · intro h
      obtain ⟨_, ha, h⟩ := h
      have ha := allocate_ok.mp ha
      cases hd : env.zstd.decompress input n.toNat with
      | some output =>
        rw [hd] at h
        simp only [ne_eq, not_true_eq_false, false_and, if_false] at h
        cases h
        obtain ⟨hc, hlen⟩ := (hz _ _ _).mp hd
        refine ⟨hc, 0, Nat.succ_pos fuel, by rwa [hzero], fun j hj => ?_⟩
        rw [Nat.le_zero.mp hj, hzero]
        exact ha
      | none =>
        rw [hd] at h
        simp only [ne_eq, not_true_eq_false, if_false] at h
        obtain ⟨hc, k, hk, hlen, hall⟩ := (ih (n * 2)).mp h
        refine ⟨hc, k + 1, by omega, by rwa [← hnext], fun j hj => ?_⟩
        cases j with
        | zero => rwa [hzero]
        | succ j =>
          rw [← hnext]
          exact hall j (by omega)
    · intro h
      obtain ⟨hc, k, hk, hlen, hall⟩ := h
      have ha : Allocates env n := hzero ▸ hall 0 (Nat.zero_le k)
      refine ⟨(), allocate_ok.mpr ha, ?_⟩
      cases hd : env.zstd.decompress input n.toNat with
      | some output =>
        obtain ⟨hc', _⟩ := (hz _ _ _).mp hd
        cases hc.symm.trans hc'
        simp [pure, Except.pure]
      | none =>
        simp only [ne_eq, not_true_eq_false, if_false]
        cases k with
        | zero =>
          rw [hzero] at hlen
          rw [(hz _ _ _).mpr ⟨hc, hlen⟩] at hd
          contradiction
        | succ k =>
          refine (ih (n * 2)).mpr ⟨hc, k, by omega, by rwa [hnext], fun j hj => ?_⟩
          rw [hnext]
          exact hall (j + 1) (by omega)

theorem decompress_zero_iff (hz : env.zstd.Unpacks content) :
    decompress env input 0 = .ok raw ↔
      content input = some raw ∧ Guessed env input raw.length := by
  rw [decompress, bind_eq_ok]
  constructor
  · intro h
    obtain ⟨first, hfirst, h⟩ := h
    obtain ⟨hc, hk⟩ := (attempt_iff hz 8 first).mp h
    exact ⟨hc, first, hfirst, hk⟩
  · intro h
    obtain ⟨hc, first, hfirst, hk⟩ := h
    exact ⟨first, hfirst, (attempt_iff hz 8 first).mpr ⟨hc, hk⟩⟩

/-- With a size, the content is unpacked if it has that size. -/
theorem decompress_given (hz : env.zstd.Unpacks content) (he : expected ≠ 0)
    (h : decompress env input expected = .ok raw) :
    content input = some raw ∧ raw.length = expected.toNat := by
  simp only [decompress, outputSize, ne_eq, he, not_false_eq_true, if_true, pure, Except.pure,
    bind_eq_ok] at h
  obtain ⟨n, hn, h⟩ := h
  cases hn
  rw [attempt, bind_eq_ok] at h
  obtain ⟨_, _, h⟩ := h
  cases hd : env.zstd.decompress input expected.toNat with
  | some output =>
    rw [hd] at h
    obtain ⟨hc, hlen⟩ := (hz _ _ _).mp hd
    by_cases hsize : size output = expected
    · simp only [hsize, ne_eq, not_true_eq_false, and_false, if_false] at h
      cases h
      refine ⟨hc, ?_⟩
      rw [← hsize, toNat_size (Nat.lt_of_le_of_lt hlen expected.toNat_lt)]
    · simp [he, hsize, throw, throwThe, MonadExceptOf.throw] at h
  | none =>
    rw [hd] at h
    simp [he, throw, throwThe, MonadExceptOf.throw] at h

theorem content_of_decompress (hz : env.zstd.Unpacks content)
    (h : decompress env input expected = .ok raw) : content input = some raw := by
  by_cases he : expected = 0
  · rw [he] at h
    exact ((decompress_zero_iff hz).mp h).1
  · exact (decompress_given hz he h).1

theorem Guessed.length_lt {length : Nat} (h : Guessed env input length) : length < 2 ^ 64 := by
  obtain ⟨first, _, k, _, hlen, _⟩ := h
  exact Nat.lt_of_le_of_lt hlen (UInt64.toNat_lt _)

end Compressor

end Dpc
