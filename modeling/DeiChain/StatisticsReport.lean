import DeiChain.Library.LineBuffer
import DeiChain.Logger
import DeiChain.Statistics

namespace DeiChain

variable {cfg : Config} {F : Type} [Add F] [Mul F] [Div F] [Zero F] [IntCast F]

-- What statistics_main reads of a message. Times are of any type with the arithmetic of float.
structure TimedMessage (F : Type) where
  minerId : Int32
  valid : Bool
  elapsedTime : F
  totalRewards : Int32
deriving DecidableEq

structure StatisticsArrays (cfg : Config) (F : Type) where
  validBlocks : Fin cfg.numMiners → Int32
  invalidBlocks : Fin cfg.numMiners → Int32
  avgValidationTime : Fin cfg.numMiners → F
  validationCount : Fin cfg.numMiners → Int32
  credits : Fin cfg.numMiners → Int32

namespace StatisticsArrays

def zero : StatisticsArrays cfg F :=
  ⟨fun _ => 0, fun _ => 0, fun _ => 0, fun _ => 0, fun _ => 0⟩

def countBlock (st : StatisticsArrays cfg F) (i : Fin cfg.numMiners) (msg : TimedMessage F) :
    StatisticsArrays cfg F :=
  if msg.valid then
    { st with
      validBlocks := Function.update st.validBlocks i (st.validBlocks i + 1)
      credits := Function.update st.credits i (st.credits i + msg.totalRewards) }
  else
    { st with invalidBlocks := Function.update st.invalidBlocks i (st.invalidBlocks i + 1) }

def addTime (st : StatisticsArrays cfg F) (i : Fin cfg.numMiners) (elapsedTime : F) :
    StatisticsArrays cfg F :=
  let currentTotal := st.avgValidationTime i * ((st.validationCount i).toInt : F)
  let count := st.validationCount i + 1
  { st with
    validationCount := Function.update st.validationCount i count
    avgValidationTime :=
      Function.update st.avgValidationTime i ((currentTotal + elapsedTime) / (count.toInt : F)) }

def process (st : StatisticsArrays cfg F) (msg : TimedMessage F) : StatisticsArrays cfg F :=
  match minerIdx cfg msg.minerId with
  | none => st
  | some i => (st.countBlock i msg).addTime i msg.elapsedTime

end StatisticsArrays

def statisticsMain (cfg : Config) (messages : List (TimedMessage F)) : StatisticsArrays cfg F :=
  messages.foldl StatisticsArrays.process .zero

structure Totals (F : Type) where
  valid : Int32
  invalid : Int32
  credits : Int32
  blocks : Int32
  time : F

namespace Totals

def zero : Totals F := ⟨0, 0, 0, 0, 0⟩

def add (st : StatisticsArrays cfg F) (t : Totals F) (i : Fin cfg.numMiners) : Totals F :=
  let blocks := st.validBlocks i + st.invalidBlocks i
  let t := { t with
    valid := t.valid + st.validBlocks i
    invalid := t.invalid + st.invalidBlocks i
    credits := t.credits + st.credits i }
  if blocks.toInt > 0 then
    { t with
      time := t.time + st.avgValidationTime i * (blocks.toInt : F)
      blocks := t.blocks + blocks }
  else t

def average (t : Totals F) : F := t.time / (t.blocks.toInt : F)

end Totals

def totals (st : StatisticsArrays cfg F) : Totals F :=
  (List.finRange cfg.numMiners).foldl (Totals.add st) .zero

def maxStatsLines : ℕ := 100

-- snprintf into one of the 1024 bytes long messages.
def messageLine (text : List UInt8) : List UInt8 := text.take 1023

def statisticsHead : List (List UInt8) :=
  [[], bytesOf "===== BLOCKCHAIN STATISTICS =====", bytesOf "Statistics per Miner:"]

def minerLines (seconds : F → List UInt8) (st : StatisticsArrays cfg F) (i : Fin cfg.numMiners) :
    List (List UInt8) :=
  [messageLine (bytesOf "Miner " ++ decimal (i + 1) ++ bytesOf ":"),
    messageLine (bytesOf "  Valid blocks: " ++ decimal (st.validBlocks i).toInt),
    messageLine (bytesOf "  Invalid blocks: " ++ decimal (st.invalidBlocks i).toInt),
    messageLine (bytesOf "  Credits: " ++ decimal (st.credits i).toInt),
    messageLine (bytesOf "  Avg. validation time: " ++ seconds (st.avgValidationTime i) ++
      bytesOf " seconds")]

def totalLines (t : Totals F) : List (List UInt8) :=
  [[], bytesOf "Total Statistics:",
    messageLine (bytesOf "  Total valid blocks: " ++ decimal t.valid.toInt),
    messageLine (bytesOf "  Total invalid blocks: " ++ decimal t.invalid.toInt),
    messageLine (bytesOf "  Total blocks: " ++ decimal (t.valid + t.invalid).toInt),
    messageLine (bytesOf "  Total credits: " ++ decimal t.credits.toInt)]

def averageLines (seconds : F → List UInt8) (t : Totals F) : List (List UInt8) :=
  if t.blocks.toInt > 0 then
    [messageLine (bytesOf "  Overall avg. validation time: " ++ seconds t.average ++
      bytesOf " seconds")]
  else []

def statisticsFoot : List (List UInt8) := [bytesOf "================================", []]

-- No result means a write behind the last of the messages. seconds is the format %.6f.
def printStatistics (seconds : F → List UInt8) (st : StatisticsArrays cfg F) :
    Option LogRequest := do
  let messages ← (LineBuffer.empty : LineBuffer (List UInt8) maxStatsLines).putAll statisticsHead
  let (messages, t) ← (List.finRange cfg.numMiners).foldlM
    (fun (p : LineBuffer (List UInt8) maxStatsLines × Totals F) i =>
      (p.1.putAll (minerLines seconds st i)).map (fun messages => (messages, p.2.add st i)))
    (messages, Totals.zero)
  let messages ← messages.putAll (totalLines t)
  let messages ← messages.putAll (averageLines seconds t)
  let messages ← messages.putAll statisticsFoot
  return .logAtomicMessages messages.lines

def statisticsReport (seconds : F → List UInt8) (st : StatisticsArrays cfg F) :
    List (List UInt8) :=
  statisticsHead ++ (List.finRange cfg.numMiners).flatMap (minerLines seconds st) ++
    totalLines (totals st) ++ averageLines seconds (totals st) ++ statisticsFoot

theorem printStatistics_eq (seconds : F → List UInt8) (st : StatisticsArrays cfg F) :
    printStatistics seconds st =
      if (statisticsReport seconds st).length ≤ maxStatsLines then
        some (.logAtomicMessages (statisticsReport seconds st))
      else none := by
  have hput : printStatistics seconds st =
      (((LineBuffer.empty : LineBuffer (List UInt8) maxStatsLines).putAll
        (statisticsReport seconds st)).map LineBuffer.lines).map .logAtomicMessages := by
    rw [printStatistics, statisticsReport]
    simp only [LineBuffer.foldlM_putAll, LineBuffer.putAll_append]
    simp only [Option.bind_eq_bind, Option.map_eq_bind, Option.bind_assoc, Option.bind_some,
      Function.comp_apply]
    rfl
  rw [hput, LineBuffer.lines_putAll_empty]
  split <;> rfl

omit [Add F] [Mul F] [Zero F] in
theorem length_averageLines (seconds : F → List UInt8) (t : Totals F) :
    (averageLines seconds t).length ≤ 1 := by
  unfold averageLines
  split
  · exact le_refl 1
  · exact Nat.zero_le 1

theorem length_statisticsReport (seconds : F → List UInt8) (st : StatisticsArrays cfg F) :
    (statisticsReport seconds st).length =
      11 + 5 * cfg.numMiners + (averageLines seconds (totals st)).length := by
  have hminers : ((List.finRange cfg.numMiners).flatMap (minerLines seconds st)).length =
      5 * cfg.numMiners := by
    rw [List.length_flatMap]
    simp [minerLines, Nat.mul_comm]
  simp only [statisticsReport, List.length_append, hminers, statisticsHead, totalLines,
    statisticsFoot, List.length_cons, List.length_nil]
  omega

theorem printStatistics_isSome (seconds : F → List UInt8) (st : StatisticsArrays cfg F) :
    (printStatistics seconds st).isSome = true ↔
      (statisticsReport seconds st).length ≤ maxStatsLines := by
  rw [printStatistics_eq]
  split
  · rename_i hfits
    exact iff_of_true rfl hfits
  · rename_i hfull
    exact iff_of_false Bool.false_ne_true hfull

theorem statistics_report_fits_iff (seconds : F → List UInt8) (st : StatisticsArrays cfg F) :
    (printStatistics seconds st).isSome = true ↔ cfg.numMiners ≤ 17 := by
  have havg := length_averageLines seconds (totals st)
  rw [printStatistics_isSome, length_statisticsReport, maxStatsLines]
  omega

namespace Sample

def crowdConfig : Config := ⟨18, 1, 1, 1, by decide, by decide⟩

end Sample

theorem statistics_report_overflows :
    (printStatistics (fun _ => []) (.zero : StatisticsArrays Sample.crowdConfig ℤ)).isSome =
      false := by
  refine Bool.eq_false_iff.mpr (fun hsome => ?_)
  have hminers : Sample.crowdConfig.numMiners = 18 := rfl
  rw [printStatistics_isSome, length_statisticsReport, hminers, maxStatsLines] at hsome
  omega

end DeiChain
