import Dpc.Core.RawFrames
import Dpc.Metadata.WalFormat

namespace Dpc
open Text FileTree Effects Framing WalLog

/-- The log is read exactly as it was written: the reader takes the concatenations of
encoded records and no other bytes, so whatever was appended, or put in place of the log,
comes back, and a log that was cut is taken at a boundary between two records only. -/
theorem wal_read_exactly (env : Env) :
    (∀ (s : Fs) (f : File) (records : List WalRecord), s.leaf? walPath = some f →
      (readAll.exec s = (.ok records, s) ↔ Written code records f.data)) ∧
    (∀ (s t : Fs) (old new : List WalRecord), readAll.exec s = (.ok old, s) →
      (appends env new).exec s = (.ok (), t) → readAll.exec t = (.ok (old ++ new), t)) ∧
    (∀ (s t : Fs) (records : List WalRecord), (replaceWith env records).exec s = (.ok (), t) →
      readAll.exec t = (.ok records, t)) ∧
    ∀ (s : Fs) (f : File) (records read : List WalRecord) (data : Bytes) (n : Nat),
      Written code records data → s.leaf? walPath = some f → f.data = data.take n →
      readAll.exec s = (.ok read, s) →
      ∃ k, read = records.take k ∧ Written code (records.take k) (data.take n) := by
  refine ⟨fun s f records hf => readAll_iff hf, ?_, ?_, ?_⟩
  · intro s t old new hold happends
    obtain ⟨hnew, hsome⟩ := appends_ok (written_of_readAll hold) happends
    by_cases hn : new = []
    · subst hn
      simp only [appends, Prog.pure_eq, Prog.exec_pure, Prod.mk.injEq] at happends
      rw [← happends.2, List.append_nil, hold]
    · exact readAll_of_written (hsome hn) hnew
  · intro s t records h
    obtain ⟨hsome, hwritten⟩ := replaceWith_ok h
    exact readAll_of_written hsome hwritten
  · intro s f records read data n hwritten hf hcut hread
    have hcutw : Written code read (data.take n) := by
      rw [← hcut]
      exact (readAll_iff hf).mp hread
    have hprefix := hcutw.prefix_of_prefix hwritten (List.take_prefix n data)
    refine ⟨read.length, List.prefix_iff_eq_take.mp hprefix, ?_⟩
    rw [← List.prefix_iff_eq_take.mp hprefix]
    exact hcutw

/-- What a backup of an empty directory says. -/
def letterRecords : List WalRecord :=
  [⟨.beginBackup, ascii "version=1"⟩, ⟨.writeManifest, []⟩, ⟨.commitBackup, ascii "version=1"⟩]

theorem wal_read_exactly_three : ∃ s t,
    (appends letterEnv [⟨.compact, ascii "compact"⟩]).exec emptyRepo = (.ok (), s) ∧
      (appends letterEnv letterRecords).exec s = (.ok (), t) ∧
      readAll.exec t = (.ok (⟨.compact, ascii "compact"⟩ :: letterRecords), t) := by
  have hx := Prog.exec_of_fst (p := appends letterEnv [⟨.compact, ascii "compact"⟩])
    (s := emptyRepo) (x := .ok ()) (by decide +kernel)
  have hx' := Prog.exec_of_fst (p := appends letterEnv letterRecords)
    (s := ((appends letterEnv [⟨.compact, ascii "compact"⟩]).exec emptyRepo).2) (x := .ok ())
    (by decide +kernel)
  have hread := (wal_read_exactly letterEnv).2.1 emptyRepo _ [] _ rfl hx
  exact ⟨_, _, hx, hx', (wal_read_exactly letterEnv).2.1 _ _ _ _ hread hx'⟩

end Dpc
