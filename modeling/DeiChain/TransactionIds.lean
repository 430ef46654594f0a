import DeiChain.BlockText
import DeiChain.Moves

namespace DeiChain

open ByteLayout Transition

-- snprintf into an array that holds something else: at most n characters and a NUL.
def snprintfInto {n : ℕ} (old : Chars (n + 1)) (s : List UInt8) : Chars (n + 1) :=
  ⟨s.take n ++ 0 :: old.toList.drop ((s.take n).length + 1), by
    have hlen : (s.take n).length ≤ n := by rw [List.length_take]; omega
    rw [List.length_append, List.length_cons, List.length_drop, old.toList_length]
    omega⟩

def transactionText (pid counter : ℕ) : List UInt8 :=
  bytesOf "TX-" ++ decimal pid ++ bytesOf "-" ++ decimal counter

-- tx is a local without an initial value: stack is what its tx_id holds before.
def generateTransaction (stack : Chars txIdLen) (pid counter : ℕ) (reward : Int32) (rand : ℕ)
    (value : UInt32) (now : Int64) : Transaction where
  txId := snprintfInto (n := 15) stack (transactionText pid counter)
  reward :=
    if reward.toInt ≥ 1 ∧ reward.toInt ≤ 3 then reward else Int32.ofNat (1 + rand % 3)
  value := value
  timestamp := now

def GeneratedBy (pid counter : ℕ) (tx : Transaction) : Prop :=
  ∃ stack reward rand value now, tx = generateTransaction stack pid counter reward rand value now

theorem generatedBy_terminated {pid counter : ℕ} {tx : Transaction}
    (h : GeneratedBy pid counter tx) : 0 ∈ tx.txId.toList := by
  obtain ⟨stack, reward, rand, value, now, rfl⟩ := h
  exact List.mem_append_right _ List.mem_cons_self

-- The generators' ids end in a NUL, and so does every id in the pool: strcmp stays inside them.
theorem pool_ids_terminated {cfg : Config} {k : ℕ} {env : Environment cfg} {s : State cfg k}
    {allow : State cfg k → Label cfg k → Prop}
    (h : Reachable (step env) allow (initState cfg k) s)
    (hadd : ∀ a tx, allow a (.shared (.add tx)) → ∃ pid counter, GeneratedBy pid counter tx) :
    ∀ i, 0 ∈ (s.pool.slots i).transaction.txId.toList := by
  refine h.invariant (I := fun s => ∀ i, 0 ∈ (s.pool.slots i).transaction.txId.toList)
    (fun _ => (by decide : 0 ∈ Transaction.zero.txId.toList)) ?_
  intro a l b ha hallow hstep i
  rcases step_transaction hstep i with hsame | ⟨-, -, hsame⟩ | ⟨tx, rfl, -, hnew⟩
  · exact hsame ▸ ha i
  · exact hsame.1 ▸ ha i
  · obtain ⟨pid, counter, hgenerated⟩ := hadd a tx hallow
    exact hnew ▸ generatedBy_terminated hgenerated

def digitCount (n : ℕ) : ℕ := (Nat.toDigits 10 n).length

def leadingDigits (count n : ℕ) : ℕ := n / 10 ^ (digitCount n - count)

theorem length_decimal (n : ℕ) : (decimal n).length = digitCount n := by
  rw [decimal_natCast, List.length_map, digitCount]

theorem digitCount_le {n k : ℕ} (hk : 0 < k) (h : n < 10 ^ k) : digitCount n ≤ k :=
  (Nat.length_toDigits_le_iff (by decide) hk).mpr h

theorem leadingDigits_of_le {count n : ℕ} (h : digitCount n ≤ count) :
    leadingDigits count n = n := by
  rw [leadingDigits, Nat.sub_eq_zero_of_le h, pow_zero, Nat.div_one]

theorem decimal_of_le {n : ℕ} (h : 10 ≤ n) :
    ∃ last, decimal n = decimal ((n / 10 : ℕ) : ℤ) ++ [last] := by
  refine ⟨UInt8.ofNat (Nat.digitChar (n % 10)).toNat, ?_⟩
  rw [decimal_natCast, decimal_natCast, Nat.toDigits_of_base_le (by decide) h, List.map_append]
  rfl

theorem take_decimal {count : ℕ} (hcount : 0 < count) (n : ℕ) :
    (decimal n).take count = decimal (leadingDigits count n) := by
  induction n using Nat.strongRecOn with
  | _ n ih =>
    by_cases hshort : digitCount n ≤ count
    · rw [leadingDigits_of_le hshort,
        List.take_of_length_le (by rw [length_decimal]; exact hshort)]
    · have hten : 10 ≤ n := by
        by_contra hlt
        exact hshort ((digitCount_le one_pos (by omega)).trans hcount)
      obtain ⟨last, hlast⟩ := decimal_of_le hten
      have hlen : digitCount n = digitCount (n / 10) + 1 := by
        rw [← length_decimal, hlast, List.length_append, length_decimal]
        rfl
      have hlead : leadingDigits count n = leadingDigits count (n / 10) := by
        have hexp : digitCount n - count = (digitCount (n / 10) - count) + 1 := by omega
        rw [leadingDigits, leadingDigits, hexp, pow_succ', Nat.div_div_eq_div_mul]
      rw [hlead, ← ih (n / 10) (by omega), hlast,
        List.take_append_of_le_length (by rw [length_decimal]; omega)]

theorem transactionText_ne_zero {pid counter : ℕ} {x : UInt8}
    (h : x ∈ transactionText pid counter) : x ≠ 0 := ne_zero_of_mem_numbered (by decide) h

theorem cString_snprintfInto {n : ℕ} (old : Chars (n + 1)) {s : List UInt8}
    (hs : ∀ x ∈ s, x ≠ 0) : cString (snprintfInto old s).toList = s.take n := by
  have hall : ∀ x ∈ s.take n, (x != 0) = true :=
    fun x hx => bne_iff_ne.mpr (hs x (List.mem_of_mem_take hx))
  change (s.take n ++ 0 :: _).takeWhile (· != 0) = s.take n
  rw [List.takeWhile_append_of_pos hall, List.takeWhile_cons_of_neg (by decide), List.append_nil]

theorem generatedBy_id {pid counter : ℕ} {tx : Transaction} (h : GeneratedBy pid counter tx) :
    tx.id = (transactionText pid counter).take 15 := by
  obtain ⟨stack, reward, rand, value, now, rfl⟩ := h
  exact cString_snprintfInto (n := 15) stack (fun _ => transactionText_ne_zero)

theorem digitCount_pid {pid : ℕ} (hpid : pid ≤ 4194304) : digitCount pid ≤ 7 :=
  digitCount_le (by decide) (by omega)

theorem take_transactionText {pid : ℕ} (hpid : pid ≤ 4194304) (counter : ℕ) :
    (transactionText pid counter).take 15 = bytesOf "TX-" ++ (decimal pid ++
      45 :: decimal (leadingDigits (11 - digitCount pid) counter)) := by
  have hdigits := digitCount_pid hpid
  have hdash : bytesOf "-" = [45] := by decide
  have hhead : (bytesOf "TX-").length = 3 := by decide
  have hlen : (decimal pid).length = digitCount pid := length_decimal pid
  rw [← take_decimal (by omega)]
  simp only [transactionText, hdash, List.append_assoc, List.singleton_append]
  rw [List.take_append, List.take_of_length_le (by omega), List.take_append,
    List.take_of_length_le (by omega)]
  have hrest : 15 - (bytesOf "TX-").length - (decimal pid).length = (11 - digitCount pid) + 1 := by
    omega
  rw [hrest, List.take_succ_cons]

theorem generatedBy_id_eq_iff {pid pid' : ℕ} (hpid : pid ≤ 4194304) (hpid' : pid' ≤ 4194304)
    {counter counter' : ℕ} {tx tx' : Transaction} (h : GeneratedBy pid counter tx)
    (h' : GeneratedBy pid' counter' tx') :
    tx.id = tx'.id ↔ pid = pid' ∧ leadingDigits (11 - digitCount pid) counter =
      leadingDigits (11 - digitCount pid) counter' := by
  rw [generatedBy_id h, generatedBy_id h', take_transactionText hpid, take_transactionText hpid']
  constructor
  · intro heq
    obtain ⟨rfl, hlead⟩ := decimal_append_inj (List.append_cancel_left heq)
    exact ⟨rfl, decimal_injective hlead⟩
  · rintro ⟨rfl, hlead⟩
    rw [hlead]

theorem transaction_ids_differ_iff {pid pid' : ℕ} (hpid : pid ≤ 4194304) (hpid' : pid' ≤ 4194304)
    {counter counter' : ℕ} {tx tx' : Transaction} (h : GeneratedBy pid counter tx)
    (h' : GeneratedBy pid' counter' tx') :
    tx.id ≠ tx'.id ↔ pid ≠ pid' ∨ leadingDigits (11 - digitCount pid) counter ≠
      leadingDigits (11 - digitCount pid) counter' := by
  rw [ne_eq, generatedBy_id_eq_iff hpid hpid' h h', not_and_or]

namespace Sample

def generated (pid counter : ℕ) : Transaction :=
  generateTransaction (List.Vector.replicate 16 255) pid counter 1 0 0 0

end Sample

theorem transaction_ids_differ_next :
    (Sample.generated 4321 17).id ≠ (Sample.generated 4321 18).id :=
  (@transaction_ids_differ_iff 4321 4321 (by decide) (by decide) 17 18 _ _ ⟨_, _, _, _, _, rfl⟩
    ⟨_, _, _, _, _, rfl⟩).mpr (.inr (by decide +kernel))

theorem transaction_id_repeats :
    ∃ tx tx', GeneratedBy 4194304 1000 tx ∧ GeneratedBy 4194304 10000 tx' ∧ tx.id = tx'.id :=
  ⟨Sample.generated 4194304 1000, Sample.generated 4194304 10000, ⟨_, _, _, _, _, rfl⟩,
    ⟨_, _, _, _, _, rfl⟩, by decide +kernel⟩

end DeiChain
