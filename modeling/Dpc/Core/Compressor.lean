import Dpc.Common.Hash

namespace Dpc
open Text

/-- The zstd library; `none` stands for an error code. -/
structure Zstd where
  compressBound : UInt64 → UInt64
  compress : Bytes → Option Bytes
  decompress : Bytes → Nat → Option Bytes
  getFrameContentSize : Bytes → UInt64

/-- What the program runs on: two libraries, the largest vector that can be
allocated, the umask of the process, and the sort that `std::sort` is. -/
structure Env where
  evp : Evp
  zstd : Zstd
  allocMax : Nat
  umask : UInt32
  chunkOrder : ChunkOrder

/-- What zstd promises of the frames it makes itself. -/
structure Zstd.Lawful (zstd : Zstd) : Prop where
  bound : ∀ n : UInt64, n.toNat < 2 ^ 63 → n ≤ zstd.compressBound n
  decompress : ∀ {raw frame : Bytes} {capacity : Nat}, zstd.compress raw = some frame →
    raw.length ≤ capacity → zstd.decompress frame capacity = some raw
  contentSize : ∀ {raw frame : Bytes}, zstd.compress raw = some frame →
    zstd.getFrameContentSize frame = size raw

namespace Compressor

def kZstdContentSizeUnknown : UInt64 := 0 - 1
def kZstdContentSizeError : UInt64 := 0 - 2

/-- A vector of `n` bytes. -/
def allocate (env : Env) (n : Nat) : Except Exn Unit :=
  if 2 ^ 63 ≤ n then .error .lengthError
  else if env.allocMax < n then .error .badAlloc
  else .ok ()

def compress (env : Env) (input : Bytes) : Except Exn Bytes := do
  allocate env (env.zstd.compressBound (size input)).toNat
  match env.zstd.compress input with
  | some output => return output
  | none => throw (dpcError "zstd compress failed: ")

/-- The growth loop; the first argument counts the attempts that are left. -/
def attempt (env : Env) (input : Bytes) (expected : UInt64) : Nat → UInt64 → Except Exn Bytes
  | 0, _ => throw (dpcError "zstd decompress failed after growth attempts")
  | n + 1, outputSize => do
    allocate env outputSize.toNat
    match env.zstd.decompress input outputSize.toNat with
    | some output =>
      if expected ≠ 0 ∧ size output ≠ expected then
        throw (dpcError "zstd decompressed size mismatch")
      else return output
    | none =>
      if expected ≠ 0 then throw (dpcError "zstd decompress failed: ")
      else attempt env input expected n (outputSize * 2)

/-- A frame size never exceeds `size_t`, which has 64 bits as well. -/
def outputSize (env : Env) (input : Bytes) (expected : UInt64) : Except Exn UInt64 :=
  if expected ≠ 0 then return expected
  else
    let frameSize := env.zstd.getFrameContentSize input
    if frameSize = kZstdContentSizeError then throw (dpcError "zstd frame content size error")
    else if frameSize = kZstdContentSizeUnknown then
      return if size input * 4 < 64 * 1024 then 64 * 1024 else size input * 4
    else return frameSize

def decompress (env : Env) (input : Bytes) (expected : UInt64) : Except Exn Bytes := do
  let n ← outputSize env input expected
  attempt env input expected 8 n

theorem allocate_ok {env : Env} {n : Nat} :
    allocate env n = .ok () ↔ n < 2 ^ 63 ∧ n ≤ env.allocMax := by
  unfold allocate
  split
  · simp; omega
  split
  · simp; omega
  · simp; omega

theorem compress_ok {env : Env} {raw frame : Bytes} (h : compress env raw = .ok frame) :
    allocate env (env.zstd.compressBound (size raw)).toNat = .ok () ∧
      env.zstd.compress raw = some frame := by
  simp only [compress, bind, Except.bind, pure, Except.pure, throw, throwThe,
    MonadExceptOf.throw] at h
  split at h
  · contradiction
  · rename_i ha
    refine ⟨ha, ?_⟩
    split at h
    · rename_i hc
      cases h
      exact hc
    · contradiction

/-- A frame made here is read back, with its size given or not. -/
theorem decompress_compress {env : Env} {raw frame : Bytes} {expected : UInt64}
    (hz : env.zstd.Lawful) (hlen : raw.length < 2 ^ 63) (h : compress env raw = .ok frame)
    (he : expected = 0 ∨ expected = size raw) : decompress env frame expected = .ok raw := by
  obtain ⟨ha, hc⟩ := compress_ok h
  have hsize : (size raw).toNat = raw.length := toNat_size (by omega)
  have hne1 : size raw ≠ kZstdContentSizeError := by
    intro h'
    have := congrArg UInt64.toNat h'
    rw [hsize, show kZstdContentSizeError.toNat = 2 ^ 64 - 2 from rfl] at this
    omega
  have hne2 : size raw ≠ kZstdContentSizeUnknown := by
    intro h'
    have := congrArg UInt64.toNat h'
    rw [hsize, show kZstdContentSizeUnknown.toNat = 2 ^ 64 - 1 from rfl] at this
    omega
  have hout : outputSize env frame expected = .ok (size raw) := by
    unfold outputSize
    by_cases h0 : expected = 0
    · simp [h0, hz.contentSize hc, hne1, hne2, pure, Except.pure]
    · rcases he with he | he
      · contradiction
      · subst he
        simp [h0, pure, Except.pure]
  have hbound := UInt64.le_iff_toNat_le.mp (hz.bound (size raw) (by omega))
  have halloc : allocate env (size raw).toNat = .ok () := by
    rw [allocate_ok] at ha ⊢
    omega
  have hdec : env.zstd.decompress frame (size raw).toNat = some raw :=
    hz.decompress hc (Nat.le_of_eq hsize.symm)
  have hexp : ¬(expected ≠ 0 ∧ size raw ≠ expected) := by
    rcases he with he | he <;> simp [he]
  simp only [decompress, hout, bind, Except.bind, attempt, halloc, hdec, hexp, if_false, pure,
    Except.pure]

end Compressor

end Dpc
