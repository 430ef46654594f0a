import DeiChain.Library.Mean
import DeiChain.StatisticsReport
import Mathlib.Algebra.BigOperators.Fin
import Mathlib.Algebra.Field.Rat

namespace DeiChain

open Mean

variable {cfg : Config}

abbrev Timed := TimedMessage ℚ

def mine (m : Fin cfg.numMiners) (messages : List Timed) : List Timed :=
  messages.filter (fun msg => msg.minerId = minerIdOf m)

def counted (cfg : Config) (messages : List Timed) : List Timed :=
  messages.filter (fun msg => 1 ≤ msg.minerId.toInt ∧ msg.minerId.toInt ≤ cfg.numMiners)

def validCount (messages : List Timed) : ℕ := messages.countP TimedMessage.valid

def invalidCount (messages : List Timed) : ℕ := messages.countP (fun msg => !msg.valid)

def rewardSum (messages : List Timed) : ℤ :=
  ((messages.filter TimedMessage.valid).map (fun msg => msg.totalRewards.toInt)).sum

def times (messages : List Timed) : List ℚ := messages.map TimedMessage.elapsedTime

-- The integer counters, of one miner or of all of them.
@[ext] structure Tally where
  valid : Int32
  invalid : Int32
  count : Int32
  credits : Int32

def Tally.add (a b : Tally) : Tally :=
  ⟨a.valid + b.valid, a.invalid + b.invalid, a.count + b.count, a.credits + b.credits⟩

def tallyOf (messages : List Timed) : Tally :=
  ⟨Int32.ofNat (validCount messages), Int32.ofNat (invalidCount messages),
    Int32.ofNat messages.length, Int32.ofInt (rewardSum messages)⟩

-- The entries of the five arrays that belong to one miner.
@[ext] structure MinerRow where
  tally : Tally
  average : ℚ

def MinerRow.zero : MinerRow := ⟨tallyOf [], 0⟩

def MinerRow.add (r : MinerRow) (msg : Timed) : MinerRow where
  tally := r.tally.add (tallyOf [msg])
  average := (r.average * (r.tally.count.toInt : ℚ) + msg.elapsedTime) /
    ((r.tally.count + 1).toInt : ℚ)

def StatisticsArrays.row (st : StatisticsArrays cfg ℚ) (m : Fin cfg.numMiners) : MinerRow :=
  ⟨⟨st.validBlocks m, st.invalidBlocks m, st.validationCount m, st.credits m⟩,
    st.avgValidationTime m⟩

def Totals.tally (t : Totals ℚ) : Tally := ⟨t.valid, t.invalid, t.blocks, t.credits⟩

def InInt (n : ℤ) : Prop := -2 ^ 31 ≤ n ∧ n < 2 ^ 31

-- Counters and an average say exactly what was sent.
structure Reports (a : Tally) (average : ℚ) (messages : List Timed) : Prop where
  valid : a.valid.toInt = validCount messages
  invalid : a.invalid.toInt = invalidCount messages
  count : a.count.toInt = a.valid.toInt + a.invalid.toInt
  credits : a.credits = Int32.ofInt (rewardSum messages)
  exact : InInt (rewardSum messages) → a.credits.toInt = rewardSum messages
  average : average = mean (times messages)

theorem tallyOf_append (xs ys : List Timed) :
    tallyOf (xs ++ ys) = (tallyOf xs).add (tallyOf ys) := by
  have hsum : rewardSum (xs ++ ys) = rewardSum xs + rewardSum ys := by
    rw [rewardSum, List.filter_append, List.map_append, List.sum_append]
    rfl
  refine Tally.ext ?_ ?_ ?_ ?_
  · exact (congrArg Int32.ofNat List.countP_append).trans (Int32.ofNat_add ..)
  · exact (congrArg Int32.ofNat List.countP_append).trans (Int32.ofNat_add ..)
  · exact (congrArg Int32.ofNat List.length_append).trans (Int32.ofNat_add ..)
  · exact (congrArg Int32.ofInt hsum).trans (Int32.ofInt_add ..)

theorem tallyOf_perm {xs ys : List Timed} (h : xs.Perm ys) : tallyOf xs = tallyOf ys := by
  refine Tally.ext ?_ ?_ ?_ ?_
  · exact congrArg Int32.ofNat (h.countP_eq _)
  · exact congrArg Int32.ofNat (h.countP_eq _)
  · exact congrArg Int32.ofNat h.length_eq
  · exact congrArg Int32.ofInt ((h.filter _).map _).sum_eq

theorem times_append (xs ys : List Timed) : times (xs ++ ys) = times xs ++ times ys :=
  List.map_append ..

theorem validCount_add_invalidCount (messages : List Timed) :
    validCount messages + invalidCount messages = messages.length := by
  rw [validCount, invalidCount, List.length_eq_countP_add_countP TimedMessage.valid]
  simp

theorem toInt_ofInt_of_inInt {n : ℤ} (h : InInt n) : (Int32.ofInt n).toInt = n := by
  obtain ⟨hlow, hhigh⟩ := h
  rw [Int32.toInt_ofInt]
  exact Int.bmod_eq_of_le (by norm_num; omega) (by norm_num; omega)

theorem reports_of_tally {a : Tally} {average : ℚ} {messages : List Timed}
    (htally : a = tallyOf messages) (haverage : average = mean (times messages))
    (hlen : messages.length < 2 ^ 31) : Reports a average messages := by
  subst htally
  have hsum := validCount_add_invalidCount messages
  have hvalid : (tallyOf messages).valid.toInt = validCount messages :=
    toInt_ofNat_of_lt (by omega)
  have hinvalid : (tallyOf messages).invalid.toInt = invalidCount messages :=
    toInt_ofNat_of_lt (by omega)
  have hcount : (tallyOf messages).count.toInt = messages.length := toInt_ofNat_of_lt hlen
  refine ⟨hvalid, hinvalid, ?_, rfl, toInt_ofInt_of_inInt, haverage⟩
  rw [hcount, hvalid, hinvalid]
  omega

theorem exists_minerIdOf {minerId : Int32} :
    (∃ m : Fin cfg.numMiners, minerId = minerIdOf m) ↔
      1 ≤ minerId.toInt ∧ minerId.toInt ≤ cfg.numMiners := by
  constructor
  · rintro ⟨m, rfl⟩
    rw [minerIdOf_toInt]
    omega
  · intro hrange
    refine ⟨⟨(minerId.toInt - 1).toNat, by omega⟩, Int32.toInt_inj.mp ?_⟩
    rw [minerIdOf_toInt]
    change minerId.toInt = ((minerId.toInt - 1).toNat : ℤ) + 1
    omega

theorem row_ext {st st' : StatisticsArrays cfg ℚ} (h : ∀ m, st.row m = st'.row m) : st = st' := by
  cases st
  cases st'
  simp only [StatisticsArrays.row, MinerRow.mk.injEq, Tally.mk.injEq] at h
  simp only [StatisticsArrays.mk.injEq, funext_iff]
  exact ⟨fun m => (h m).1.1, fun m => (h m).1.2.1, fun m => (h m).2, fun m => (h m).1.2.2.1,
    fun m => (h m).1.2.2.2⟩

theorem process_ignored {st : StatisticsArrays cfg ℚ} {msg : Timed}
    (h : minerIdx cfg msg.minerId = none) : st.process msg = st := by
  rw [StatisticsArrays.process, h]

theorem row_process_self {st : StatisticsArrays cfg ℚ} {msg : Timed} {m : Fin cfg.numMiners}
    (h : minerIdx cfg msg.minerId = some m) : (st.process msg).row m = (st.row m).add msg := by
  rw [StatisticsArrays.process, h]
  cases hv : msg.valid <;>
    simp [StatisticsArrays.row, StatisticsArrays.addTime, StatisticsArrays.countBlock,
      MinerRow.add, Tally.add, tallyOf, validCount, invalidCount, rewardSum, hv]

theorem row_process_other {st : StatisticsArrays cfg ℚ} {msg : Timed} {m i : Fin cfg.numMiners}
    (h : minerIdx cfg msg.minerId = some i) (hne : m ≠ i) :
    (st.process msg).row m = st.row m := by
  rw [StatisticsArrays.process, h]
  cases hv : msg.valid <;>
    simp [StatisticsArrays.row, StatisticsArrays.addTime, StatisticsArrays.countBlock, hv, hne]

-- A message moves the row of its own miner and no other.
theorem row_process (st : StatisticsArrays cfg ℚ) (msg : Timed) (m : Fin cfg.numMiners) :
    (st.process msg).row m = (mine m [msg]).foldl MinerRow.add (st.row m) := by
  cases h : minerIdx cfg msg.minerId with
  | none =>
    have hne := ne_minerIdOf_of_none h m
    rw [process_ignored h, mine, List.filter_cons_of_neg (by simp [hne])]
    rfl
  | some i =>
    by_cases hm : m = i
    · subst hm
      rw [row_process_self h, mine, List.filter_cons_of_pos (by simp [minerIdx_eq_some.mp h])]
      rfl
    · have hne := ne_minerIdOf_of_ne h hm
      rw [row_process_other h hm, mine, List.filter_cons_of_neg (by simp [hne])]
      rfl

theorem row_statisticsMain (messages : List Timed) (m : Fin cfg.numMiners) :
    (statisticsMain cfg messages).row m = (mine m messages).foldl MinerRow.add .zero := by
  induction messages using List.reverseRecOn with
  | nil => rfl
  | append_singleton messages msg ih =>
    have hstep : statisticsMain cfg (messages ++ [msg]) =
        (statisticsMain cfg messages).process msg := by
      simp [statisticsMain]
    have hmine : mine m (messages ++ [msg]) = mine m messages ++ mine m [msg] :=
      List.filter_append ..
    rw [hstep, row_process, ih, hmine, List.foldl_append]

theorem tally_foldl (messages : List Timed) :
    (messages.foldl MinerRow.add .zero).tally = tallyOf messages := by
  induction messages using List.reverseRecOn with
  | nil => rfl
  | append_singleton messages msg ih =>
    rw [List.foldl_append, tallyOf_append, ← ih]
    rfl

-- The counter that weighs the old mean is the number of values the mean stands for.
theorem average_foldl {messages : List Timed} (hlen : messages.length < 2 ^ 31) :
    (messages.foldl MinerRow.add .zero).average = mean (times messages) := by
  induction messages using List.reverseRecOn with
  | nil => exact mean_nil.symm
  | append_singleton messages msg ih =>
    have hlen' : messages.length + 1 < 2 ^ 31 := by simpa using hlen
    have htally := tally_foldl messages
    have hcount : (messages.foldl MinerRow.add .zero).tally.count.toInt = messages.length := by
      rw [htally]
      exact toInt_ofNat_of_lt (by omega)
    have hnext : ((messages.foldl MinerRow.add .zero).tally.count + 1).toInt =
        ((messages.length + 1 : ℕ) : ℤ) := by
      have hsucc : (messages.foldl MinerRow.add .zero).tally.count + 1 =
          Int32.ofNat (messages.length + 1) := by
        rw [htally, Int32.ofNat_add]
        rfl
      rw [hsucc, toInt_ofNat_of_lt hlen']
    have hold := ih (by omega)
    have hone : times [msg] = [msg.elapsedTime] := rfl
    rw [List.foldl_append, times_append, hone, mean_append_singleton, List.foldl_cons,
      List.foldl_nil, MinerRow.add, hcount, hnext, hold, times, List.length_map]
    push_cast
    rfl

theorem tally_row (messages : List Timed) (m : Fin cfg.numMiners) :
    ((statisticsMain cfg messages).row m).tally = tallyOf (mine m messages) := by
  rw [row_statisticsMain, tally_foldl]

theorem mine_counted (messages : List Timed) (m : Fin cfg.numMiners) :
    mine m (counted cfg messages) = mine m messages := by
  rw [mine, counted, List.filter_filter]
  refine List.filter_congr (fun msg _ => ?_)
  by_cases hid : msg.minerId = minerIdOf m
  · have hrange := exists_minerIdOf.mp ⟨m, rfl⟩
    simp [hid, hrange]
  · simp [hid]

theorem length_mine {messages : List Timed} (hfew : (counted cfg messages).length < 2 ^ 31)
    (m : Fin cfg.numMiners) : (mine m messages).length < 2 ^ 31 := by
  rw [← mine_counted]
  exact Nat.lt_of_le_of_lt (List.length_filter_le ..) hfew

theorem average_row {messages : List Timed} (hfew : (counted cfg messages).length < 2 ^ 31)
    (m : Fin cfg.numMiners) :
    ((statisticsMain cfg messages).row m).average = mean (times (mine m messages)) := by
  rw [row_statisticsMain, average_foldl (length_mine hfew m)]

theorem statisticsMain_counted (messages : List Timed) :
    statisticsMain cfg (counted cfg messages) = statisticsMain cfg messages := by
  refine row_ext (fun m => ?_)
  rw [row_statisticsMain, row_statisticsMain, mine_counted]

theorem statisticsMain_perm {messages messages' : List Timed}
    (hfew : (counted cfg messages).length < 2 ^ 31) (hperm : messages.Perm messages') :
    statisticsMain cfg messages' = statisticsMain cfg messages := by
  have hfew' : (counted cfg messages').length < 2 ^ 31 :=
    (hperm.filter _).length_eq ▸ hfew
  refine row_ext (fun m => ?_)
  have hmine : (mine m messages').Perm (mine m messages) := (hperm.filter _).symm
  refine MinerRow.ext ?_ ?_
  · rw [tally_row, tally_row, tallyOf_perm hmine]
  · rw [average_row hfew', average_row hfew, times, times, mean_perm (hmine.map _)]

-- The miners one after the other go through every counted message once.
theorem flatMap_mine_perm (messages : List Timed) :
    ((List.finRange cfg.numMiners).flatMap (fun m => mine m messages)).Perm
      (counted cfg messages) := by
  rw [List.perm_iff_count]
  intro msg
  have hmine : ∀ m : Fin cfg.numMiners, (mine m messages).count msg =
      if msg.minerId = minerIdOf m then messages.count msg else 0 := by
    intro m
    split
    · rename_i hid
      exact List.count_filter (by simpa using hid)
    · rename_i hid
      exact List.count_eq_zero.mpr (fun hmem => hid (by simpa using (List.mem_filter.mp hmem).2))
  rw [List.count_flatMap, Function.comp_def]
  simp only [hmine]
  rw [← Fin.sum_univ_def]
  by_cases hrange : ∃ m : Fin cfg.numMiners, msg.minerId = minerIdOf m
  · obtain ⟨i, hi⟩ := hrange
    have hiff : ∀ m : Fin cfg.numMiners, msg.minerId = minerIdOf m ↔ m = i := by
      intro m
      rw [← minerIdx_eq_some, minerIdx_eq_some.mpr hi, Option.some_inj, eq_comm]
    simp only [hiff, Finset.sum_ite_eq', Finset.mem_univ, if_true]
    exact (List.count_filter (by simpa using exists_minerIdOf.mp ⟨i, hi⟩)).symm
  · have hzero : (counted cfg messages).count msg = 0 :=
      List.count_eq_zero.mpr (fun hmem => hrange
        (exists_minerIdOf.mpr (by simpa using (List.mem_filter.mp hmem).2)))
    rw [hzero]
    exact Finset.sum_eq_zero (fun m _ => if_neg (fun hid => hrange ⟨m, hid⟩))

theorem Totals.tally_add {st : StatisticsArrays cfg ℚ} {t : Totals ℚ} {i : Fin cfg.numMiners}
    {messages : List Timed} (h : (st.row i).tally = tallyOf messages)
    (hlen : messages.length < 2 ^ 31) :
    (t.add st i).tally = t.tally.add (tallyOf messages) ∧
      (t.add st i).time = t.time + (st.row i).average * messages.length := by
  have hblocks : st.validBlocks i + st.invalidBlocks i = Int32.ofNat messages.length := by
    rw [← validCount_add_invalidCount, Int32.ofNat_add]
    exact congrArg₂ (· + ·) (congrArg Tally.valid h) (congrArg Tally.invalid h)
  have hcount : st.validationCount i = Int32.ofNat messages.length := congrArg Tally.count h
  rw [← h]
  simp only [Totals.add, hblocks, toInt_ofNat_of_lt hlen]
  split
  · refine ⟨Tally.ext rfl rfl ?_ rfl, by simp [StatisticsArrays.row]⟩
    exact congrArg (t.blocks + ·) hcount.symm
  · rename_i hzero
    have hlen' : messages.length = 0 := by omega
    refine ⟨Tally.ext rfl rfl ?_ rfl, by simp [hlen']⟩
    change t.blocks = t.blocks + st.validationCount i
    rw [hcount, hlen']
    exact (Int32.add_zero _).symm

theorem totals_foldl {messages : List Timed} (hfew : (counted cfg messages).length < 2 ^ 31)
    (is : List (Fin cfg.numMiners)) :
    (is.foldl (Totals.add (statisticsMain cfg messages)) .zero).tally =
        tallyOf (is.flatMap (fun m => mine m messages)) ∧
      (is.foldl (Totals.add (statisticsMain cfg messages)) .zero).time =
        (times (is.flatMap (fun m => mine m messages))).sum := by
  induction is using List.reverseRecOn with
  | nil => exact ⟨rfl, rfl⟩
  | append_singleton is i ih =>
    obtain ⟨htally, htime⟩ := ih
    obtain ⟨hadd, hweighted⟩ := Totals.tally_add (tally_row messages i) (length_mine hfew i)
    have hmean : ((statisticsMain cfg messages).row i).average * (mine i messages).length =
        (times (mine i messages)).sum := by
      rw [average_row hfew, ← mean_mul_length, times, List.length_map]
    rw [List.foldl_append, List.flatMap_append, List.flatMap_singleton, List.foldl_cons,
      List.foldl_nil]
    constructor
    · rw [hadd, htally, tallyOf_append]
    · rw [hweighted, htime, hmean, times_append, List.sum_append]

theorem reports_totals {messages : List Timed} (hfew : (counted cfg messages).length < 2 ^ 31) :
    Reports (totals (statisticsMain cfg messages)).tally
      (totals (statisticsMain cfg messages)).average (counted cfg messages) := by
  obtain ⟨htally, htime⟩ := totals_foldl hfew (List.finRange cfg.numMiners)
  have hperm := @flatMap_mine_perm cfg messages
  rw [tallyOf_perm hperm] at htally
  have hblocks : (totals (statisticsMain cfg messages)).blocks.toInt =
      (counted cfg messages).length := by
    have hcount := congrArg (fun a => a.count.toInt) htally
    exact hcount.trans (toInt_ofNat_of_lt hfew)
  have hsum : (totals (statisticsMain cfg messages)).time = (times (counted cfg messages)).sum :=
    htime.trans (hperm.map _).sum_eq
  refine reports_of_tally htally ?_ hfew
  rw [Totals.average, hblocks, hsum, mean, times, List.length_map]
  rfl

theorem statistics_order_independent {messages : List Timed}
    (hfew : (counted cfg messages).length < 2 ^ 31) :
    (∀ m, Reports ((statisticsMain cfg messages).row m).tally
        ((statisticsMain cfg messages).row m).average (mine m messages)) ∧
      statisticsMain cfg (counted cfg messages) = statisticsMain cfg messages ∧
      (∀ messages', messages.Perm messages' →
        statisticsMain cfg messages' = statisticsMain cfg messages) ∧
      Reports (totals (statisticsMain cfg messages)).tally
        (totals (statisticsMain cfg messages)).average (counted cfg messages) := by
  refine ⟨fun m => ?_, statisticsMain_counted messages, fun _ => statisticsMain_perm hfew,
    reports_totals hfew⟩
  exact reports_of_tally (tally_row messages m) (average_row hfew m) (length_mine hfew m)

-- The four counters without their width, as the reconciliation with the ledger reads them.
structure Image (st : StatisticsArrays cfg ℚ) (exact : Statistics cfg) : Prop where
  validBlocks : ∀ m, st.validBlocks m = Int32.ofInt (exact.validBlocks m)
  invalidBlocks : ∀ m, st.invalidBlocks m = Int32.ofInt (exact.invalidBlocks m)
  validationCount : ∀ m, st.validationCount m = Int32.ofInt (exact.validationCount m)
  credits : ∀ m, st.credits m = Int32.ofInt (exact.credits m)

def timed (p : StatisticsMessage × ℚ) : Timed :=
  ⟨p.1.minerId, p.1.valid, p.2, Int32.ofInt p.1.totalRewards⟩

theorem update_ofInt {f : Fin cfg.numMiners → Int32} {g : Fin cfg.numMiners → ℤ}
    (h : ∀ m, f m = Int32.ofInt (g m)) (i m : Fin cfg.numMiners) (n : ℤ) :
    Function.update f i (f i + Int32.ofInt n) m =
      Int32.ofInt (Function.update g i (g i + n) m) := by
  by_cases hm : m = i
  · subst hm
    rw [Function.update_self, Function.update_self, h, Int32.ofInt_add]
  · rw [Function.update_of_ne hm, Function.update_of_ne hm, h]

theorem Image.process {st : StatisticsArrays cfg ℚ} {exact : Statistics cfg} (h : Image st exact)
    (p : StatisticsMessage × ℚ) : Image (st.process (timed p)) (exact.process p.1) := by
  have hid : (timed p).minerId = p.1.minerId := rfl
  rw [StatisticsArrays.process, Statistics.process, hid]
  cases minerIdx cfg p.1.minerId with
  | none => exact h
  | some i =>
    cases hv : p.1.valid
    · simp only [StatisticsArrays.countBlock, StatisticsArrays.addTime, timed, hv,
        Bool.false_eq_true, if_false]
      exact ⟨h.validBlocks, fun m => update_ofInt h.invalidBlocks i m 1,
        fun m => update_ofInt h.validationCount i m 1, h.credits⟩
    · simp only [StatisticsArrays.countBlock, StatisticsArrays.addTime, timed, hv, if_true]
      exact ⟨fun m => update_ofInt h.validBlocks i m 1, h.invalidBlocks,
        fun m => update_ofInt h.validationCount i m 1,
        fun m => update_ofInt h.credits i m p.1.totalRewards⟩

theorem image_statisticsLoop (ps : List (StatisticsMessage × ℚ)) :
    Image (statisticsMain cfg (ps.map timed)) (statisticsLoop cfg (ps.map Prod.fst)) := by
  induction ps using List.reverseRecOn with
  | nil => exact ⟨fun _ => rfl, fun _ => rfl, fun _ => rfl, fun _ => rfl⟩
  | append_singleton ps p ih =>
    have htimed : statisticsMain cfg ((ps ++ [p]).map timed) =
        (statisticsMain cfg (ps.map timed)).process (timed p) := by
      simp [statisticsMain]
    have hloop : statisticsLoop cfg ((ps ++ [p]).map Prod.fst) =
        (statisticsLoop cfg (ps.map Prod.fst)).process p.1 := by
      simp [statisticsLoop]
    rw [htimed, hloop]
    exact ih.process p

namespace Sample

def firstMiner : Fin crowdConfig.numMiners := ⟨0, by decide⟩

def mixedReports : List Timed :=
  [⟨1, true, 1, 3⟩, ⟨2, false, 5, 7⟩, ⟨0, true, 9, 9⟩, ⟨1, false, 2, 4⟩]

def richReport : Timed := ⟨1, true, 1, 2 ^ 30⟩

end Sample

theorem statistics_order_independent_mixed :
    Reports (totals (statisticsMain Sample.crowdConfig Sample.mixedReports)).tally
        (totals (statisticsMain Sample.crowdConfig Sample.mixedReports)).average
        (counted Sample.crowdConfig Sample.mixedReports) ∧
      validCount (mine Sample.firstMiner Sample.mixedReports) = 1 ∧
      (counted Sample.crowdConfig Sample.mixedReports).length = 3 := by
  have hfew : (counted Sample.crowdConfig Sample.mixedReports).length < 2 ^ 31 := by decide
  exact ⟨(statistics_order_independent hfew).2.2.2, by decide, by decide⟩

theorem Sample.replicate_richReport (n : ℕ) :
    mine firstMiner (List.replicate n richReport) = List.replicate n richReport ∧
      validCount (List.replicate n richReport) = n ∧
      (statisticsMain crowdConfig (List.replicate n richReport)).validBlocks firstMiner =
        Int32.ofNat n := by
  have hmine : mine firstMiner (List.replicate n richReport) = List.replicate n richReport :=
    List.filter_replicate_of_pos (by decide)
  have hvalid : validCount (List.replicate n richReport) = n := by
    rw [validCount, List.countP_replicate]
    rfl
  have htally := tally_row (List.replicate n richReport) firstMiner
  rw [hmine] at htally
  have hblocks := congrArg Tally.valid htally
  refine ⟨hmine, hvalid, hblocks.trans ?_⟩
  rw [tallyOf, hvalid]

-- Two rewards of 2 ^ 30 leave negative credits, and 2 ^ 31 valid blocks a negative count.
theorem statistics_counters_wrap :
    (∃ messages : List Timed,
      ((statisticsMain Sample.crowdConfig messages).credits Sample.firstMiner).toInt <
        rewardSum (mine Sample.firstMiner messages)) ∧
    (∃ messages : List Timed,
      ((statisticsMain Sample.crowdConfig messages).validBlocks Sample.firstMiner).toInt <
        validCount (mine Sample.firstMiner messages)) := by
  constructor
  · exact ⟨[Sample.richReport, Sample.richReport], by decide⟩
  · obtain ⟨hmine, hvalid, hblocks⟩ := Sample.replicate_richReport (2 ^ 31)
    refine ⟨List.replicate (2 ^ 31) Sample.richReport, ?_⟩
    rw [hblocks, hmine, hvalid]
    decide

end DeiChain
