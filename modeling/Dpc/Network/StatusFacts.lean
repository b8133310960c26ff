import Dpc.Network.BackupClient
import Dpc.Network.ServerFacts
import Dpc.Network.TornSession
import Mathlib.Algebra.BigOperators.Group.Finset.Basic

namespace Dpc
open Text FileTree Effects ManifestStore

namespace BackupServer

variable {list : List (UInt64 × Bytes)}

def statusLine (entry : UInt64 × Bytes) : Bytes := number entry.1 ++ space :: (entry.2 ++ [newline])

theorem statusText_eq :
    statusText list = ascii "DPC_SESSION_STATUS_V1" ++ newline :: list.flatMap statusLine := by
  rw [statusText, List.append_assoc, List.singleton_append]
  refine congrArg (ascii "DPC_SESSION_STATUS_V1" ++ newline :: ·) (List.flatMap_congr fun entry _ => ?_)
  simp [statusLine]

theorem length_statusText :
    (statusText list).length =
      22 + (list.map fun entry => (number entry.1).length + entry.2.length + 2).sum := by
  have hheader : (ascii "DPC_SESSION_STATUS_V1").length = 21 := by decide
  have hline : ∀ entry, (statusLine entry).length = (number entry.1).length + entry.2.length + 2 := by
    intro entry
    simp only [statusLine, List.length_append, List.length_cons, List.length_nil]
    omega
  rw [statusText_eq, List.length_append, List.length_cons, hheader, List.length_flatMap]
  simp only [hline]
  omega

/-- A status is read as the entries that were written to it. -/
theorem statusPairs_lines (h : ∀ entry ∈ list, IsWord entry.2) {fuel : Nat}
    (hf : list.length ≤ fuel) :
    BackupClient.statusPairs fuel (newline :: list.flatMap statusLine) = list := by
  induction list generalizing fuel with
  | nil =>
    cases fuel with
    | zero => rfl
    | succ fuel => rfl
  | cons entry list ih =>
    obtain ⟨fuel, rfl⟩ := Nat.exists_eq_succ_of_ne_zero (Nat.ne_of_gt (Nat.lt_of_lt_of_le
      (Nat.succ_pos list.length) hf))
    have hsame : ∀ bs, SessionIndex.getU64 (newline :: bs) = SessionIndex.getU64 (space :: bs) := by
      intro bs
      rw [SessionIndex.getU64, SessionIndex.getU64, getNumber_space (by decide),
        getNumber_space (by decide)]
    have hline : newline :: (entry :: list).flatMap statusLine = newline :: (number entry.1 ++
        space :: (entry.2 ++ newline :: list.flatMap statusLine)) := by
      simp [statusLine]
    have hindex := @getU64_number entry.1 (space :: (entry.2 ++
      newline :: list.flatMap statusLine)) (SessionIndex.head?_space space _ (by decide))
    have hsha := getWord_field (h entry List.mem_cons_self)
      (SessionIndex.head?_space newline (list.flatMap statusLine) (by decide))
    rw [hline, BackupClient.statusPairs, hsame, hindex]
    simp only [hsha]
    rw [ih (fun e he => h e (List.mem_cons_of_mem _ he)) (by simpa using hf)]

/-- The client reads a status as the server wrote it. -/
theorem parseStatus_statusText {hash : UInt64} (h : ∀ entry ∈ list, IsWord entry.2) :
    BackupClient.parseStatus ⟨.sessionStatus, hash, 0, zeroDigest, statusText list⟩ = .ok list := by
  have hheader : getWord (statusText list) =
      some (ascii "DPC_SESSION_STATUS_V1", newline :: list.flatMap statusLine) := by
    rw [statusText_eq, getWord_word (.of_test (by decide))
      (SessionIndex.head?_space newline _ (by decide))]
  have hlen : list.length ≤ (newline :: list.flatMap statusLine).length := by
    rw [List.length_cons, List.length_flatMap]
    have hone : ∀ n ∈ list.map fun entry => (statusLine entry).length, 1 ≤ n := by
      intro n hn
      obtain ⟨entry, _, rfl⟩ := List.mem_map.mp hn
      simp only [statusLine, List.length_append, List.length_cons]
      omega
    have hsum := List.length_le_sum_of_one_le _ hone
    rw [List.length_map] at hsum
    omega
  simp only [BackupClient.parseStatus, BackupClient.requireNotError, hheader,
    statusPairs_lines h hlen, reduceCtorEq, if_false, bind, Except.bind, pure, Except.pure, ne_eq,
    not_true_eq_false]

/-- How long the status of a session is that has received the chunks with these indices. -/
def statusSize (indices : Finset UInt64) : Nat := 22 + ∑ i ∈ indices, ((number i).length + 66)

theorem keys_byGlobal {rs : List ReceivedChunkRecord} :
    (SessionIndex.byGlobal rs).keys.toFinset = (rs.map (·.globalIndex)).toFinset := by
  ext i
  rw [List.mem_toFinset, List.mem_toFinset, Std.TreeMap.mem_keys, Std.TreeMap.mem_iff_isSome_getElem?,
    Option.isSome_iff_ne_none, Ne, SessionIndex.getElem?_byGlobal_none]
  simp

theorem length_status {rs : List ReceivedChunkRecord}
    (h : ∀ r ∈ rs, Hash.isSha256Hex r.sha256 = true) :
    (statusText (SessionIndex.receivedOf rs)).length =
      statusSize (rs.map (·.globalIndex)).toFinset := by
  have hentry : ∀ e ∈ (SessionIndex.byGlobal rs).toList,
      (number e.1).length + e.2.sha256.length + 2 = (number e.1).length + 66 := by
    intro e he
    have hr := (SessionIndex.mem_of_byGlobal (Std.TreeMap.mem_toList_iff_getElem?_eq_some.mp he)).1
    have hlen : e.2.sha256.length = 64 := by
      have hsha := h _ hr
      simp only [Hash.isSha256Hex, Bool.and_eq_true, beq_iff_eq] at hsha
      exact hsha.1
    omega
  rw [length_statusText, SessionIndex.receivedOf, List.map_map, statusSize, ← keys_byGlobal,
    List.sum_toFinset _ Std.TreeMap.nodup_keys, ← Std.TreeMap.map_fst_toList_eq_keys, List.map_map]
  exact congrArg (22 + List.sum ·) (List.map_congr_left hentry)

end BackupServer

end Dpc
