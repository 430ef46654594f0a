import DeiChain.BlockText
import DeiChain.Library.Scan
import DeiChain.Offsets

namespace DeiChain

open Scan (Numeral Written Stops isDigit isSpace integers)

variable {outside : ℤ → Int32} {text rest : List UInt8} {cfg : Config}

-- fscanf leaves the field alone where no number stands; a number outside of int may become any.
def stored (outside : ℤ → Int32) : Option ℤ → Int32
  | none => 0
  | some n => if -2 ^ 31 ≤ n ∧ n < 2 ^ 31 then Int32.ofInt n else outside n

def readConfigFile (outside : ℤ → Int32) (text : List UInt8) : Option Config :=
  readConfig ((integers 4 text).map (stored outside))

def Config.numbers (cfg : Config) : List ℕ :=
  [cfg.numMiners, cfg.txPoolSize, cfg.transactionsPerBlock, cfg.blockchainBlocks]

def numbersText (items : List (List UInt8 × ℕ)) : List UInt8 :=
  items.flatMap (fun p => p.1 ++ decimal p.2)

def Separated (items : List (List UInt8 × ℕ)) : Prop :=
  (∀ p ∈ items, ∀ c ∈ p.1, isSpace c = true) ∧ ∀ p ∈ items.tail, p.1 ≠ []

theorem stored_of_range {n : ℤ} (h : -2 ^ 31 ≤ n ∧ n < 2 ^ 31) :
    (stored outside (some n)).toInt = n := by
  rw [stored, if_pos h]
  exact Int32.toInt_ofInt_of_le h.1 h.2

theorem readConfig_eq_some_iff {a b c d : Int32} : readConfig [a, b, c, d] = some cfg ↔
    [a, b, c, d].map Int32.toInt = cfg.numbers.map Nat.cast := by
  simp only [Config.numbers, List.map_cons, List.map_nil, List.cons.injEq, and_true]
  simp only [readConfig, List.getD_cons_zero, List.getD_cons_succ]
  have hpos := cfg.positive
  constructor
  · intro h
    split at h
    · cases h
    · cases h
      dsimp only
      omega
  · rintro ⟨ha, hb, hc, hd⟩
    simp only [ha, hb, hc, hd, Int.toNat_natCast]
    rw [dif_neg (by omega)]

theorem readConfigFile_eq_some_iff : readConfigFile outside text = some cfg ↔
    (integers 4 text).map (fun o => (stored outside o).toInt) = cfg.numbers.map Nat.cast :=
  readConfig_eq_some_iff

theorem Config.pos_of_mem {n : ℕ} (h : n ∈ cfg.numbers) : 0 < n := by
  obtain ⟨hminers, hpool, htxs, hblocks⟩ := cfg.positive
  simp only [Config.numbers, List.mem_cons, List.not_mem_nil, or_false] at h
  obtain rfl | rfl | rfl | rfl := h <;> assumption

theorem Config.lt_of_mem {n : ℕ} (h : n ∈ cfg.numbers) : n < 2 ^ 31 := by
  obtain ⟨hminers, hpool, htxs, hblocks⟩ := cfg.int32
  simp only [Config.numbers, List.mem_cons, List.not_mem_nil, or_false] at h
  obtain rfl | rfl | rfl | rfl := h <;> assumption

theorem exists_map_some {α : Type*} {xs : List (Option α)} (h : none ∉ xs) :
    ∃ ns : List α, xs = ns.map some := by
  induction xs with
  | nil => exact ⟨[], rfl⟩
  | cons x xs ih =>
    rw [List.mem_cons, not_or] at h
    obtain ⟨n, rfl⟩ := Option.ne_none_iff_exists'.mp (Ne.symm h.1)
    obtain ⟨ns, rfl⟩ := ih h.2
    exact ⟨n :: ns, rfl⟩

theorem config_file_accepted_iff : readConfigFile outside text = some cfg ↔
    ∃ ns : List ℤ, Written ns text ∧
      ns.map (fun n => (stored outside (some n)).toInt) = cfg.numbers.map Nat.cast := by
  rw [readConfigFile_eq_some_iff]
  constructor
  · intro h
    have hsome : none ∉ integers 4 text := by
      intro hnone
      have hzero := List.mem_map_of_mem (f := fun o => (stored outside o).toInt) hnone
      rw [h] at hzero
      obtain ⟨n, hn, hcast⟩ := List.mem_map.mp hzero
      have hpos := Config.pos_of_mem hn
      have : (n : ℤ) = 0 := hcast
      omega
    obtain ⟨ns, hns⟩ := exists_map_some hsome
    rw [hns, List.map_map] at h
    exact ⟨ns, (Scan.integers_eq_some_iff.mp hns).2, h⟩
  · rintro ⟨ns, hwritten, h⟩
    have hlen : ns.length = 4 := by
      have := congrArg List.length h
      rwa [List.length_map, List.length_map] at this
    rw [Scan.integers_eq_some_iff.mpr ⟨hlen, hwritten⟩, List.map_map]
    exact h

theorem digit_of_mem_decimal {n : ℕ} {c : UInt8} (h : c ∈ decimal n) : isDigit c = true := by
  rw [decimal_natCast] at h
  obtain ⟨x, hx, rfl⟩ := List.mem_map.mp h
  have hbounds := toNat_of_mem_toDigits hx
  simp only [isDigit, decide_eq_true_eq, UInt8.le_iff_toNat_le]
  rw [UInt8.toNat_ofNat_of_lt' (by rw [UInt8.size]; omega)]
  exact hbounds

theorem value_decimal (n : ℕ) : Scan.value (decimal n) = n := by
  have hdigits : Nat.ofDigitChars 10 (Nat.toDigits 10 n) 0 = n := Nat.ofDigitChars_ten_toDigits
  rw [decimal_natCast, Scan.value, List.foldl_map]
  refine Eq.trans (List.foldl_ext _ _ _ fun value c hc => ?_) hdigits
  have hbounds := toNat_of_mem_toDigits hc
  rw [UInt8.toNat_ofNat_of_lt' (by rw [UInt8.size]; omega)]
  rfl

def decimalNumeral (blanks : List UInt8) (n : ℕ) (h : ∀ c ∈ blanks, isSpace c = true) :
    Numeral where
  blanks := blanks
  sign := []
  digits := decimal n
  blanks_space := h
  sign_some := .inl rfl
  digits_some := by
    rw [decimal_natCast, Ne, List.map_eq_nil_iff]
    exact Nat.toDigits_ne_nil
  digits_digit := fun _ => digit_of_mem_decimal

theorem Separated.stops {items : List (List UInt8 × ℕ)} (h : Separated items)
    (hgap : ∀ p ∈ items.head?, p.1 ≠ []) (hrest : Stops isDigit rest) :
    Stops isDigit (numbersText items ++ rest) := by
  cases items with
  | nil => exact hrest
  | cons p ps =>
    obtain ⟨c, cs, hcs⟩ := List.exists_cons_of_ne_nil (hgap p rfl)
    have hc : c ∈ p.1 := by
      rw [hcs]
      exact List.mem_cons_self
    have hspace := h.1 p List.mem_cons_self c hc
    intro d hd
    rw [numbersText, List.flatMap_cons, hcs] at hd
    cases hd
    by_contra hdigit
    rw [Scan.not_space_of_digit (Bool.not_eq_false _ ▸ hdigit)] at hspace
    cases hspace

theorem Separated.written {items : List (List UInt8 × ℕ)} (h : Separated items)
    (hrest : Stops isDigit rest) :
    Written (items.map (fun p => (p.2 : ℤ))) (numbersText items ++ rest) := by
  induction items with
  | nil => exact .nil
  | cons p ps ih =>
    obtain ⟨hspace, hgaps⟩ := h
    have hps : Separated ps := ⟨fun q hq => hspace q (List.mem_cons_of_mem _ hq),
      fun q hq => hgaps q (List.mem_of_mem_tail hq)⟩
    have hstops : Stops isDigit (numbersText ps ++ rest) :=
      hps.stops (fun q hq => hgaps q (List.mem_of_mem_head? hq)) hrest
    let x := decimalNumeral p.1 p.2 (hspace p List.mem_cons_self)
    have hnumber : x.number = p.2 := congrArg Nat.cast (value_decimal p.2)
    have htext : numbersText (p :: ps) ++ rest = x.text ++ (numbersText ps ++ rest) := by
      rw [numbersText, List.flatMap_cons, List.append_assoc, Numeral.text]
      exact congrArg (· ++ decimal p.2 ++ (numbersText ps ++ rest)) (List.append_nil p.1).symm
    rw [htext, List.map_cons, ← hnumber]
    exact .cons x hstops (ih hps)

theorem config_file_round_trip {items : List (List UInt8 × ℕ)} (h : Separated items)
    (hnumbers : items.map Prod.snd = cfg.numbers) (hrest : Stops isDigit rest) :
    readConfigFile outside (numbersText items ++ rest) = some cfg := by
  rw [config_file_accepted_iff]
  refine ⟨_, h.written hrest, ?_⟩
  rw [← hnumbers, List.map_map, List.map_map]
  refine List.map_congr_left fun p hp => ?_
  have hmem : p.2 ∈ cfg.numbers := by
    rw [← hnumbers]
    exact List.mem_map_of_mem hp
  have hlt := Config.lt_of_mem hmem
  rw [Function.comp_apply, stored_of_range (by omega), Function.comp_apply]

namespace Sample

-- The configuration file of the repository.
def fileItems : List (List UInt8 × ℕ) := [([], 5), ([10], 50), ([10], 10), ([10], 50000)]

end Sample

theorem config_file_round_trip_repository :
    numbersText Sample.fileItems ++ bytesOf "\n" = bytesOf "5\n50\n10\n50000\n" ∧
      readConfigFile (fun _ => 0) (numbersText Sample.fileItems ++ bytesOf "\n") =
        some Sample.defaultConfig :=
  ⟨by decide, config_file_round_trip
    ⟨by simp [Sample.fileItems, isSpace], by simp [Sample.fileItems]⟩ rfl (by rintro c ⟨⟩; rfl)⟩

end DeiChain
