import DeiChain.Library.Buffer
import DeiChain.Library.Numeral
import DeiChain.Pow

namespace DeiChain

open ByteLayout ByteMemory Numeral

theorem hexDigit_inj {x y : ℕ} (hx : x < 16) (hy : y < 16) (h : hexDigit x = hexDigit y) :
    x = y := by
  revert h
  have hall : ∀ a b : Fin 16, hexDigit a = hexDigit b → (a : ℕ) = b := by decide
  exact hall ⟨x, hx⟩ ⟨y, hy⟩

theorem hexDigit_ne_zero {x : ℕ} (hx : x < 16) : hexDigit x ≠ 0 := by
  have hall : ∀ a : Fin 16, hexDigit a ≠ 0 := by decide
  exact hall ⟨x, hx⟩

theorem hexByte_injective : Function.Injective hexByte := by
  intro x y h
  have hx := x.toNat_lt
  have hy := y.toNat_lt
  simp only [hexByte, List.cons.injEq, and_true] at h
  have hhigh := hexDigit_inj (by omega) (by omega) h.1
  have hlow := hexDigit_inj (by omega) (by omega) h.2
  exact UInt8.toNat_inj.mp (by omega)

theorem hexByte_ne_zero {x c : UInt8} (h : c ∈ hexByte x) : c ≠ 0 := by
  have hx := x.toNat_lt
  simp only [hexByte, List.mem_cons, List.not_mem_nil, or_false] at h
  rcases h with rfl | rfl
  · exact hexDigit_ne_zero (by omega)
  · exact hexDigit_ne_zero (by omega)

theorem flatMap_hexByte_injective : Function.Injective (List.flatMap hexByte) := by
  intro xs ys h
  induction xs generalizing ys with
  | nil =>
    cases ys with
    | nil => rfl
    | cons y ys => simp [hexByte] at h
  | cons x xs ih =>
    cases ys with
    | nil => simp [hexByte] at h
    | cons y ys =>
      rw [List.flatMap_cons, List.flatMap_cons] at h
      obtain ⟨hhead, htail⟩ := List.append_inj h rfl
      rw [hexByte_injective hhead, ih htail]

theorem cString_hexDigest (d : Chars 32) :
    cString (hexDigest d).toList = d.toList.flatMap hexByte := by
  change (d.toList.flatMap hexByte ++ [0]).takeWhile (· != 0) = _
  rw [List.takeWhile_append_of_pos]
  · simp
  · intro c hc
    obtain ⟨x, -, hx⟩ := List.mem_flatMap.mp hc
    simpa using hexByte_ne_zero hx

theorem cString_hexDigest_injective :
    Function.Injective (fun d => cString (hexDigest d).toList) := by
  intro d d' h
  simp only [cString_hexDigest] at h
  exact Subtype.ext (flatMap_hexByte_injective h)

-- The sprintf of one byte puts its NUL where the next one begins.
def hexLoop (m : Memory) (a : ℤ) : ℕ → List UInt8 → Memory
  | _, [] => m
  | i, x :: xs => hexLoop (writeString m (a + (i * 2 : ℕ)) (hexByte x)) a (i + 1) xs

def hashOutput (m : Memory) (a : ℤ) (d : Chars 32) : Chars hashSize :=
  ⟨slice (write (hexLoop m a 0 d.toList) (a + (hashSize - 1 : ℕ)) [0]) a hashSize, length_slice⟩

theorem hexLoop_writeString (m : Memory) (a : ℤ) {s : List UInt8} {i : ℕ} (hs : s.length = i * 2)
    (xs : List UInt8) :
    hexLoop (writeString m a s) a i xs = writeString m a (s ++ xs.flatMap hexByte) := by
  induction xs generalizing s i with
  | nil => rw [hexLoop, List.flatMap_nil, List.append_nil]
  | cons x xs ih =>
    have hnext : (s ++ hexByte x).length = (i + 1) * 2 := by
      rw [List.length_append, hs, hexByte]
      simp only [List.length_cons, List.length_nil]
      omega
    rw [hexLoop, ← hs, writeString_writeString, ih hnext, List.flatMap_cons, List.append_assoc]

theorem hexLoop_eq (m : Memory) (a : ℤ) (x : UInt8) (xs : List UInt8) :
    hexLoop m a 0 (x :: xs) = writeString m a ((x :: xs).flatMap hexByte) := by
  have hstart : writeString m (a + (0 * 2 : ℕ)) (hexByte x) = writeString m a (hexByte x) := by
    simp
  rw [hexLoop, hstart, hexLoop_writeString m a (i := 0 + 1) rfl, List.flatMap_cons]

theorem hashOutput_eq (m : Memory) (a : ℤ) (d : Chars 32) : hashOutput m a d = hexDigest d := by
  obtain ⟨_ | ⟨x, xs⟩, hlen⟩ := d
  · cases hlen
  · have hdigits : ((x :: xs).flatMap hexByte).length = hashSize - 1 := by
      rw [length_flatMap_hexByte, hlen]
      rfl
    have hend := writeString_writeString (m := m) (a := a) ((x :: xs).flatMap hexByte) []
    rw [hdigits, List.append_nil] at hend
    apply Subtype.ext
    change slice (write (hexLoop m a 0 (x :: xs)) (a + (hashSize - 1 : ℕ)) [0]) a hashSize =
      (x :: xs).flatMap hexByte ++ [0]
    have hsize : hashSize = ((x :: xs).flatMap hexByte ++ [0]).length := by
      rw [List.length_append, hdigits]
      rfl
    rw [hexLoop_eq]
    change slice (writeString (writeString m a _) _ []) a hashSize = _
    rw [hend, hsize]
    exact slice_write_self _

def nibbles (bs : List UInt8) : List ℕ :=
  (bs.map UInt8.toNat).flatMap (fun n => [n / 16, n % 16])

theorem flatMap_hexByte_eq (bs : List UInt8) : bs.flatMap hexByte = (nibbles bs).map hexDigit := by
  induction bs with
  | nil => rfl
  | cons x xs ih =>
    rw [List.flatMap_cons, ih]
    rfl

theorem nibbles_lt {bs : List UInt8} : ∀ n ∈ nibbles bs, n < 16 := by
  intro n hn
  obtain ⟨k, hk, hn⟩ := List.mem_flatMap.mp hn
  obtain ⟨x, -, rfl⟩ := List.mem_map.mp hk
  have hx := x.toNat_lt
  simp only [List.mem_cons, List.not_mem_nil, or_false] at hn
  omega

theorem length_nibbles (bs : List UInt8) : (nibbles bs).length = 2 * bs.length := by
  rw [← length_flatMap_hexByte, flatMap_hexByte_eq, List.length_map]

theorem hexDigit_eq_zero_char {n : ℕ} (hn : n < 16) : hexDigit n = 48 ↔ n = 0 := by
  constructor
  · intro h
    exact hexDigit_inj hn (by decide) h
  · rintro rfl
    rfl

theorem bigEndian_nibbles (bs : List UInt8) :
    bigEndian 16 (nibbles bs) = bigEndian 256 (bs.map UInt8.toNat) := bigEndian_sq _

-- No level asks for less than one zero or for more than the hash has.
theorem zerosRequired_level (reward : ℤ) :
    zerosRequired reward = (getDifficultFromReward reward).zerosRequired := by
  unfold zerosRequired
  cases getDifficultFromReward reward <;> rfl

theorem zerosRequired_eq (reward : ℤ) :
    zerosRequired reward = if reward < 2 then 2 else if reward = 2 then 3 else 4 := by
  rw [zerosRequired_level]
  unfold getDifficultFromReward
  split_ifs <;> first | rfl | omega

theorem zerosRequired_mem (reward : ℤ) : zerosRequired reward ∈ [2, 3, 4] := by
  rw [zerosRequired_eq]
  split_ifs <;> decide

theorem zerosRequired_mono {reward reward' : ℤ} (h : reward ≤ reward') :
    zerosRequired reward ≤ zerosRequired reward' := by
  rw [zerosRequired_eq, zerosRequired_eq]
  split_ifs <;> omega

theorem checkDifficulty_iff (hash : Chars hashSize) (reward : ℤ) :
    checkDifficulty hash reward = true ↔ ∀ c ∈ hash.toList.take (zerosRequired reward), c = 48 := by
  simp [checkDifficulty]

theorem difficulty_is_numeric_bound (m : Memory) (a : ℤ) (d : Chars 32) (reward : ℤ) :
    zerosRequired reward ∈ [2, 3, 4] ∧
    (checkDifficulty (hashOutput m a d) reward = true ↔
      bigEndian 256 (d.toList.map UInt8.toNat) < 2 ^ (256 - 4 * zerosRequired reward)) ∧
    ∀ (m' : Memory) (a' : ℤ) (d' : Chars 32),
      cString (hashOutput m a d).toList = cString (hashOutput m' a' d').toList ↔ d = d' := by
  have hz := zerosRequired_mem reward
  have hbound : zerosRequired reward ≤ 64 := by
    simp only [List.mem_cons, List.not_mem_nil, or_false] at hz
    omega
  refine ⟨hz, ?_, fun m' a' d' => ?_⟩
  · have hlen : (nibbles d.toList).length = 64 := by rw [length_nibbles, d.toList_length]
    have htake : (hexDigest d).toList.take (zerosRequired reward) =
        ((nibbles d.toList).take (zerosRequired reward)).map hexDigit := by
      change (d.toList.flatMap hexByte ++ [0]).take _ = _
      rw [flatMap_hexByte_eq, List.take_append_of_le_length (by rw [List.length_map]; omega),
        List.map_take]
    have hdigits : (∀ c ∈ (hexDigest d).toList.take (zerosRequired reward), c = 48) ↔
        ∀ n ∈ (nibbles d.toList).take (zerosRequired reward), n = 0 := by
      rw [htake, List.forall_mem_map]
      exact forall₂_congr
        (fun n hn => hexDigit_eq_zero_char (nibbles_lt n (List.mem_of_mem_take hn)))
    have hpow : 16 ^ (64 - zerosRequired reward) = 2 ^ (256 - 4 * zerosRequired reward) := by
      rw [show (16 : ℕ) = 2 ^ 4 from rfl, ← pow_mul]
      congr 1
      omega
    rw [hashOutput_eq, checkDifficulty_iff, hdigits, leading_zeros_iff (by decide) nibbles_lt, hlen,
      bigEndian_nibbles, hpow]
  · rw [hashOutput_eq, hashOutput_eq]
    exact cString_hexDigest_injective.eq_iff

theorem checkDifficulty_of_le {hash : Chars hashSize} {reward reward' : ℤ}
    (hle : zerosRequired reward ≤ zerosRequired reward')
    (h : checkDifficulty hash reward' = true) : checkDifficulty hash reward = true := by
  rw [checkDifficulty_iff] at h ⊢
  intro c hc
  exact h c (List.take_subset_take_left _ hle hc)

-- The running maximum asks for what its start and every reward ask for.
theorem checkDifficulty_foldl (hash : Chars hashSize) (best : ℤ) (txs : List Transaction) :
    checkDifficulty hash (txs.foldl
        (fun best t => if t.reward.toInt > best then t.reward.toInt else best) best) = true ↔
      checkDifficulty hash best = true ∧
        ∀ t ∈ txs, checkDifficulty hash t.reward.toInt = true := by
  induction txs generalizing best with
  | nil => simp
  | cons t txs ih =>
    rw [List.foldl_cons, ih, List.forall_mem_cons, ← and_assoc]
    refine and_congr_left (fun _ => ?_)
    split
    · rename_i hmore
      exact (and_iff_right_of_imp (checkDifficulty_of_le (zerosRequired_mono hmore.le))).symm
    · rename_i hless
      exact (and_iff_left_of_imp
        (checkDifficulty_of_le (zerosRequired_mono (not_lt.mp hless)))).symm

-- The maximum starts at 0, which asks for no more than any reward does.
theorem checkDifficulty_maxReward (hash : Chars hashSize) {txs : List Transaction}
    (hne : txs ≠ []) : checkDifficulty hash (maxReward txs) = true ↔
      ∀ t ∈ txs, checkDifficulty hash t.reward.toInt = true := by
  rw [maxReward, checkDifficulty_foldl]
  refine and_iff_right_of_imp (fun hall => ?_)
  obtain ⟨t, ht⟩ := List.exists_mem_of_ne_nil txs hne
  refine checkDifficulty_of_le ?_ (hall t ht)
  rw [zerosRequired_eq 0, zerosRequired_eq]
  split_ifs <;> omega

def Raised (t t' : Transaction) : Prop := t.reward.toInt ≤ t'.reward.toInt

theorem exists_raised {txs txs' : List Transaction} (h : List.Forall₂ Raised txs txs') :
    ∀ t ∈ txs, ∃ t' ∈ txs', Raised t t' := by
  induction h with
  | nil => simp
  | @cons t t' txs txs' hraised _ ih =>
    intro u hu
    rcases List.mem_cons.mp hu with rfl | hu
    · exact ⟨t', List.mem_cons_self, hraised⟩
    · obtain ⟨u', hu', hraised'⟩ := ih u hu
      exact ⟨u', List.mem_cons_of_mem _ hu', hraised'⟩

theorem difficulty_of_every_reward (hash : Chars hashSize) {b : TransactionBlock}
    (hpos : 0 < b.transactionsPerBlock.toInt) :
    (checkDifficulty hash (maxReward b.transactions) = true ↔
      ∀ t ∈ b.transactions, checkDifficulty hash t.reward.toInt = true) ∧
    (∀ sha : Sha, computeSha256 sha b = hash → (verifyNonce sha b = true ↔
      ∀ t ∈ b.transactions, checkDifficulty hash t.reward.toInt = true)) ∧
    (∀ txs, b.transactions.Perm txs →
      checkDifficulty hash (maxReward txs) = checkDifficulty hash (maxReward b.transactions)) ∧
    ∀ txs, List.Forall₂ Raised b.transactions txs →
      checkDifficulty hash (maxReward b.transactions) = false →
        checkDifficulty hash (maxReward txs) = false := by
  have hlen : b.transactions.length ≠ 0 := by
    rw [b.transactions_length]
    omega
  have hne : b.transactions ≠ [] := List.ne_nil_of_length_pos (Nat.pos_of_ne_zero hlen)
  have hall := checkDifficulty_maxReward hash hne
  refine ⟨hall, ?_, fun txs hperm => ?_, fun txs hraised hrefused => ?_⟩
  · rintro sha rfl
    exact hall
  · have hne' : txs ≠ [] := fun hnil => hne (hperm.trans (by rw [hnil])).eq_nil
    rw [Bool.eq_iff_iff, hall, checkDifficulty_maxReward hash hne']
    exact forall_congr' (fun t => imp_congr_left hperm.mem_iff.symm)
  · have hne' : txs ≠ [] := by
      rintro rfl
      exact hlen hraised.length_eq
    rw [← Bool.not_eq_true] at hrefused ⊢
    refine fun hmet => hrefused (hall.mpr (fun t ht => ?_))
    obtain ⟨t', ht', hle⟩ := exists_raised hraised t ht
    exact checkDifficulty_of_le (zerosRequired_mono hle)
      ((checkDifficulty_maxReward hash hne').mp hmet t' ht')

namespace Sample

def paid (reward : Int32) : Transaction := ⟨List.Vector.replicate txIdLen 0, reward, 0, 0⟩

def paidBlock : TransactionBlock where
  txbId := List.Vector.replicate txbIdLen 0
  previousBlockHash := List.Vector.replicate hashSize 0
  timestamp := 0
  nonce := 0
  transactionsPerBlock := 2
  transactions := [paid (-5), paid 2]
  transactions_length := rfl

def threeZeros : Chars hashSize := ⟨[48, 48, 48] ++ List.replicate 62 49, rfl⟩

end Sample

theorem difficulty_of_every_reward_two :
    checkDifficulty Sample.threeZeros (maxReward Sample.paidBlock.transactions) = true ∧
      checkDifficulty Sample.threeZeros 3 = false := by
  refine ⟨(@difficulty_of_every_reward Sample.threeZeros Sample.paidBlock (by decide)).1.mpr ?_,
    by decide⟩
  decide

end DeiChain
