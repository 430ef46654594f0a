import DeiChain.Library.Heap
import DeiChain.LedgerDump

namespace DeiChain

open Heap ByteMemory

inductive ReportBuffer where
  | messages
  | line (i : ℕ)
deriving DecidableEq

def lineBuffers (n : ℕ) : List ReportBuffer := (List.range n).map .line

def allocLines (n : ℕ) : List (Event ReportBuffer) :=
  (lineBuffers n).flatMap (fun p => [.alloc p, .use .messages])

def freeLines (n : ℕ) : List (Event ReportBuffer) :=
  (lineBuffers n).flatMap (fun p => [.use .messages, .free p]) ++ [.free .messages]

def useLines (n : ℕ) : List (Event ReportBuffer) :=
  (lineBuffers n).flatMap (fun p => [.use .messages, .use p])

-- dump_ledger and print_statistics keep their lines in max buffers, of which allocated are there
-- before a malloc fails, and write and log as many of them as the report has lines. The array of
-- the buffers is used whether its own malloc failed or not.
def reportEvents (max : ℕ) (arrayFails : Bool) (allocated lines : ℕ) : List (Event ReportBuffer) :=
  (if arrayFails then [] else [.alloc .messages]) ++
    if allocated < max then allocLines allocated ++ .use .messages :: freeLines allocated
    else allocLines max ++ useLines lines ++ useLines lines ++ freeLines max

def heldLines (n : ℕ) : Finset ReportBuffer := {.messages} ∪ (lineBuffers n).toFinset

theorem mem_lineBuffers {n : ℕ} {p : ReportBuffer} : p ∈ lineBuffers n ↔ ∃ i < n, .line i = p := by
  simp [lineBuffers]

theorem nodup_lineBuffers (n : ℕ) : (lineBuffers n).Nodup :=
  List.nodup_range.map (fun _ _ h => ReportBuffer.line.inj h)

theorem messages_mem_heldLines (n : ℕ) : .messages ∈ heldLines n := by
  simp [heldLines]

theorem messages_notMem_lineBuffers {n : ℕ} :
    ∀ p ∈ lineBuffers n, p ∉ ({.messages} : Finset _) := by
  rintro p hp hmem
  obtain ⟨i, -, rfl⟩ := mem_lineBuffers.mp hp
  cases Finset.mem_singleton.mp hmem

theorem exec_allocLines (n : ℕ) : exec {.messages} (allocLines n) = some (heldLines n) := by
  refine exec_grow (fun g hg p hp => ?_) (Finset.Subset.refl _) (nodup_lineBuffers n)
    messages_notMem_lineBuffers
  rw [exec_alloc hp, exec_use (Finset.mem_insert_of_mem (Finset.singleton_subset_iff.mp hg)),
    exec_nil]

theorem exec_freeLines (n : ℕ) : exec (heldLines n) (freeLines n) = some ∅ := by
  have hfree : exec (heldLines n) ((lineBuffers n).flatMap fun p => [.use .messages, .free p]) =
      some (heldLines n \ (lineBuffers n).toFinset) := by
    refine exec_shrink (fun g hg p hp => ?_)
      (Finset.singleton_subset_iff.mpr (messages_mem_heldLines n)) (nodup_lineBuffers n)
      (fun p hp => by simp [heldLines, hp]) messages_notMem_lineBuffers
    rw [exec_use (Finset.singleton_subset_iff.mp hg), exec_free hp, exec_nil]
  have hleft : heldLines n \ (lineBuffers n).toFinset = {.messages} := by
    ext p
    cases p <;> simp [heldLines, mem_lineBuffers]
  rw [freeLines, exec_append_of hfree, hleft]
  decide

theorem exec_useLine (n : ℕ) {i : ℕ} : exec (heldLines n) [.use .messages, .use (.line i)] =
    if i < n then some (heldLines n) else none := by
  rw [exec_use (messages_mem_heldLines n)]
  split
  · rw [exec_use (by simp [heldLines, mem_lineBuffers, *]), exec_nil]
  · exact exec_use_dead (by simp [heldLines, mem_lineBuffers, *])

theorem exec_useLines (n lines : ℕ) : exec (heldLines n) (useLines lines) =
    if lines ≤ n then some (heldLines n) else none := by
  split
  · refine exec_flatMap fun p hp => ?_
    obtain ⟨i, hi, rfl⟩ := mem_lineBuffers.mp hp
    rw [exec_useLine, if_pos (by omega)]
  · refine exec_flatMap_none (x := .line n) (fun p hp => ?_) ?_ ?_
    · obtain ⟨i, -, rfl⟩ := mem_lineBuffers.mp hp
      rw [exec_useLine]
      split
      · exact .inl rfl
      · exact .inr rfl
    · exact mem_lineBuffers.mpr ⟨n, by omega, rfl⟩
    · rw [exec_useLine, if_neg (Nat.lt_irrefl n)]

theorem exec_allocLines_unallocated (n : ℕ) (es : List (Event ReportBuffer)) :
    exec ∅ (allocLines (n + 1) ++ es) = none := by
  rw [allocLines, lineBuffers, List.range_succ_eq_map, List.map_cons, List.flatMap_cons,
    List.append_assoc, List.cons_append, exec_alloc (by simp)]
  exact exec_use_dead (by decide)

theorem report_heap_clean_iff {max : ℕ} (hmax : 0 < max) (arrayFails : Bool)
    (allocated lines : ℕ) :
    Clean (reportEvents max arrayFails allocated lines) ↔
      arrayFails = false ∧ (allocated < max ∨ lines ≤ max) := by
  unfold Clean reportEvents
  cases arrayFails with
  | true =>
    refine iff_of_false ?_ (by simp)
    rw [if_pos rfl, List.nil_append]
    split
    · cases allocated with
      | zero => exact ne_of_eq_of_ne (exec_use_dead (by simp)) (by simp)
      | succ n => simp [exec_allocLines_unallocated]
    · obtain ⟨n, rfl⟩ := Nat.exists_eq_succ_of_ne_zero hmax.ne'
      simp [List.append_assoc, exec_allocLines_unallocated]
  | false =>
    have hempty : ReportBuffer.messages ∉ (∅ : Finset ReportBuffer) := Finset.notMem_empty _
    rw [if_neg Bool.false_ne_true, List.singleton_append, exec_alloc hempty]
    split
    · rename_i hearly
      refine iff_of_true ?_ ⟨rfl, .inl hearly⟩
      rw [insert_empty_eq, exec_append_of (exec_allocLines _), exec_use (messages_mem_heldLines _)]
      exact exec_freeLines allocated
    · rename_i hall
      rw [insert_empty_eq, List.append_assoc, List.append_assoc,
        exec_append_of (exec_allocLines _), exec_append, exec_useLines]
      split
      · rename_i hfits
        refine iff_of_true ?_ ⟨rfl, .inr hfits⟩
        rw [Option.bind_some, exec_append, exec_useLines, if_pos hfits, Option.bind_some]
        exact exec_freeLines max
      · rename_i hlong
        exact iff_of_false (by simp) fun h => h.2.elim hall hlong

variable {cfg : Config} {F : Type} [Add F] [Mul F] [Div F] [Zero F] [IntCast F]

def dumpLedgerEvents (value : UInt32 → List UInt8) (cfg : Config) (m : Memory)
    (arrayFails : Bool) (allocated : ℕ) : List (Event ReportBuffer) :=
  reportEvents maxLedgerLines arrayFails allocated (ledgerReport value cfg m).length

def printStatisticsEvents (seconds : F → List UInt8) (st : StatisticsArrays cfg F)
    (arrayFails : Bool) (allocated : ℕ) : List (Event ReportBuffer) :=
  reportEvents maxStatsLines arrayFails allocated (statisticsReport seconds st).length

theorem report_heaps_clean_iff (value : UInt32 → List UInt8) (seconds : F → List UInt8)
    (st : StatisticsArrays cfg F) (arrayFails : Bool) (allocated : ℕ) :
    (∀ (att : Attachment cfg) (m : Memory) (blocks : List TransactionBlock),
      Represents att m blocks →
        (Clean (dumpLedgerEvents value cfg m arrayFails allocated) ↔ arrayFails = false ∧
          (allocated < maxLedgerLines ∨
            5 + blocks.length * (8 + cfg.transactionsPerBlock) ≤ maxLedgerLines))) ∧
      (Clean (printStatisticsEvents seconds st arrayFails allocated) ↔ arrayFails = false ∧
        (allocated < maxStatsLines ∨ cfg.numMiners ≤ 17)) := by
  constructor
  · intro att m blocks hrep
    rw [dumpLedgerEvents, report_heap_clean_iff (by decide), length_ledgerReport,
      hrep.validIndices_eq, List.length_range]
  · have havg := length_averageLines seconds (totals st)
    rw [printStatisticsEvents, report_heap_clean_iff (by decide), length_statisticsReport,
      maxStatsLines]
    refine and_congr_right fun _ => or_congr_right ?_
    omega

end DeiChain
