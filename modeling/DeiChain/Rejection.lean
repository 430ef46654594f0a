import DeiChain.Chain
import Mathlib.Data.List.TakeWhile

namespace DeiChain

open ByteLayout ByteMemory Transition

variable {n : ℕ} {cfg : Config} {k : ℕ}

def Carried (slots : Slots n) (t : Transaction) : Prop :=
  ∃ i, (slots i).transaction.id = t.id

def Reserved (slots : Slots n) (txs : List Transaction) : Prop :=
  ∀ t ∈ txs, ∀ i, (slots i).transaction.id = t.id → (slots i).empty = true

def Returned (slots : Slots n) (txs : List Transaction) : Prop :=
  ∀ t ∈ txs, Carried slots t → ∃ i, (slots i).transaction.id = t.id ∧ (slots i).empty = false

theorem carried_congr {slots slots' : Slots n}
    (h : ∀ i, (slots' i).transaction = (slots i).transaction) (t : Transaction) :
    Carried slots' t ↔ Carried slots t := by
  simp only [Carried, h]

theorem returned_unchanged_iff {slots : Slots n} {txs : List Transaction}
    (h : Reserved slots txs) : Returned slots txs ↔ ∀ t ∈ txs, ¬ Carried slots t := by
  constructor
  · intro hall t ht hcarried
    obtain ⟨i, hid, hempty⟩ := hall t ht hcarried
    rw [h t ht i hid] at hempty
    cases hempty
  · intro hnone t ht hcarried
    exact absurd hcarried (hnone t ht)

theorem takeWhile_carrier {slots : Slots n} {txs : List Transaction} {t : Transaction}
    (ht : t ∈ txs.takeWhile (found slots)) :
    ∃ j, firstCarrier slots t.id = some j ∧ (slots j).transaction.id = t.id := by
  have hfound : found slots t = true := List.mem_takeWhile_imp ht
  obtain ⟨-, hcarried⟩ := found_iff.mp hfound
  cases hfirst : firstCarrier slots t.id with
  | none =>
    obtain ⟨j, hj⟩ := hcarried
    exact absurd hj (firstCarrier_eq_none.mp hfirst j)
  | some j => exact ⟨j, rfl, (firstCarrier_eq_some.mp hfirst).1⟩

theorem poolSection_available_iff {slots : Slots n} {txs : List Transaction}
    (h : Reserved slots txs) (hbad : ∃ t ∈ txs, found slots t = false) {t : Transaction}
    (ht : t ∈ txs) :
    (∃ i, ((poolSection txs slots).2 i).transaction.id = t.id ∧
      ((poolSection txs slots).2 i).empty = false) ↔
    t.id ∈ (txs.takeWhile (found slots)).map Transaction.id := by
  constructor
  · rintro ⟨i, hid, hempty⟩
    rw [poolSection_transaction] at hid
    rw [poolSection_apply] at hempty
    split at hempty
    · rename_i hreleased
      obtain ⟨-, u, hu, hfirst⟩ := hreleased
      have hsame : u.id = t.id := (firstCarrier_eq_some.mp hfirst).1.symm.trans hid
      exact hsame ▸ List.mem_map_of_mem hu
    · rw [h t ht i hid] at hempty
      cases hempty
  · intro hmem
    obtain ⟨u, hu, hid⟩ := List.mem_map.mp hmem
    obtain ⟨j, hfirst, hj⟩ := takeWhile_carrier hu
    refine ⟨j, by rw [poolSection_transaction, hj, hid], ?_⟩
    rw [poolSection_apply, if_pos ⟨hbad, u, hu, hfirst⟩]
    rfl

theorem poolSection_returned_iff {slots : Slots n} {txs : List Transaction}
    (h : Reserved slots txs) :
    ((poolSection txs slots).1 = false → Returned (poolSection txs slots).2 txs) ↔
      ∀ t ∈ txs, Carried slots t → t.id ∈ (txs.takeWhile (found slots)).map Transaction.id := by
  rw [poolSection_fst]
  by_cases hall : txs.all (found slots) = true
  · have htake : txs.takeWhile (found slots) = txs :=
      List.takeWhile_eq_self_iff.mpr (List.all_eq_true.mp hall)
    rw [htake, hall]
    exact ⟨fun _ t ht _ => List.mem_map_of_mem ht, fun _ hfalse => by cases hfalse⟩
  · have hbad : ∃ t ∈ txs, found slots t = false := by
      simpa [List.all_eq_true] using hall
    have hcarry := carried_congr (poolSection_transaction txs slots)
    rw [Bool.eq_false_iff.mpr hall]
    constructor
    · intro hret t ht hcarried
      exact (poolSection_available_iff h hbad ht).mp (hret rfl t ht ((hcarry t).mpr hcarried))
    · intro hmem _ t ht hcarried
      exact (poolSection_available_iff h hbad ht).mpr (hmem t ht ((hcarry t).mp hcarried))

theorem rejected_returned_iff (sha : Sha) (att : Attachment cfg) (m : Memory) (allocated : Bool)
    (r : ReceivedBlock cfg) {slots : Slots n} (h : Reserved slots r.block.transactions) :
    ((validateBlock sha att m allocated r.block slots).1 = false →
      Returned (validateBlock sha att m allocated r.block slots).2 r.block.transactions) ↔
    if verifyNonce sha r.block && checkLink sha att m r.block && allocated then
      ∀ t ∈ r.block.transactions, Carried slots t →
        t.id ∈ (r.block.transactions.takeWhile (found slots)).map Transaction.id
    else ∀ t ∈ r.block.transactions, ¬ Carried slots t := by
  have hearly : ((false, slots).1 = false → Returned (false, slots).2 r.block.transactions) ↔
      ∀ t ∈ r.block.transactions, ¬ Carried slots t := by
    rw [← returned_unchanged_iff h]
    exact ⟨fun hret => hret rfl, fun hret _ => hret⟩
  cases hpow : verifyNonce sha r.block with
  | false => simpa [validateBlock, hpow] using hearly
  | true =>
    cases hlink : checkLink sha att m r.block with
    | false => simpa [validateBlock, hpow, hlink] using hearly
    | true =>
      cases allocated with
      | false => simpa [validateBlock, hpow, hlink] using hearly
      | true =>
        have hsection : validateBlock sha att m true r.block slots =
            poolSection r.block.transactions slots := by
          simp [validateBlock, hpow, hlink]
        rw [hsection]
        simpa using poolSection_returned_iff h

namespace Sample

def pairConfig : Config := ⟨1, 1, 2, 1, by decide, by decide⟩

def pairAttachment : Attachment pairConfig := ⟨0, by decide⟩

def pairReceived : ReceivedBlock pairConfig where
  minerId := 1
  block := { block 1 with
    transactionsPerBlock := 2
    transactions := [transaction 1, transaction 2]
    transactions_length := rfl }
  heapPtr := 0
  heapTail := []
  count_pos := (by decide : 0 < (2 : Int32).toInt)
  count_le := (by decide : (2 : Int32).toInt ≤ 2)
  txbId_nul := rfl
  previousBlockHash_nul := rfl
  heap_length := rfl

def reservedSlots : Slots 1 := fun _ => ⟨transaction 1, true, 0⟩

end Sample

theorem rejected_returned_missing :
    (validateBlock (Sample.environment 0).sha Sample.pairAttachment initLedger true
        Sample.pairReceived.block Sample.reservedSlots).1 = false ∧
      Returned (validateBlock (Sample.environment 0).sha Sample.pairAttachment initLedger true
        Sample.pairReceived.block Sample.reservedSlots).2
        Sample.pairReceived.block.transactions := by
  have hrejected : (validateBlock (Sample.environment 0).sha Sample.pairAttachment initLedger true
      Sample.pairReceived.block Sample.reservedSlots).1 = false := by decide +kernel
  have hreserved : Reserved Sample.reservedSlots Sample.pairReceived.block.transactions :=
    fun _ _ _ _ => rfl
  refine ⟨hrejected, (rejected_returned_iff _ _ _ true Sample.pairReceived hreserved).mpr ?_
    hrejected⟩
  have hcond : (verifyNonce (Sample.environment 0).sha Sample.pairReceived.block && checkLink
      (Sample.environment 0).sha Sample.pairAttachment initLedger Sample.pairReceived.block &&
        true) = true := by decide +kernel
  rw [if_pos hcond]
  rintro t - ⟨i, hi⟩
  have htake : (Sample.pairReceived.block.transactions.takeWhile
      (found Sample.reservedSlots)).map Transaction.id = [[1]] := by decide +kernel
  rw [htake, ← hi]
  exact List.mem_singleton_self _

theorem rejected_not_returned :
    ∃ r : ReceivedBlock (Sample.config 1),
      Reserved Sample.reservedSlots r.block.transactions ∧
        (validateBlock (Sample.environment 1).sha (Sample.environment 1).att initLedger true
          r.block Sample.reservedSlots).1 = false ∧
        ¬ Returned (validateBlock (Sample.environment 1).sha (Sample.environment 1).att initLedger
          true r.block Sample.reservedSlots).2 r.block.transactions := by
  refine ⟨Sample.replayReceived 1, fun _ _ _ _ => rfl, ?_⟩
  have hlink : checkLink (Sample.environment 1).sha (Sample.environment 1).att initLedger
      (Sample.replay 1) = false := by decide +kernel
  have hresult : validateBlock (Sample.environment 1).sha (Sample.environment 1).att initLedger
      true (Sample.replay 1) Sample.reservedSlots = (false, Sample.reservedSlots) := by
    simp [validateBlock, hlink]
  change (validateBlock _ _ _ true (Sample.replay 1) _).1 = false ∧
    ¬ Returned (validateBlock _ _ _ true (Sample.replay 1) _).2 (Sample.replay 1).transactions
  rw [hresult]
  refine ⟨rfl, fun hreturned => ?_⟩
  obtain ⟨i, -, hempty⟩ := hreturned (Sample.transaction 1) (List.mem_singleton_self _) ⟨0, rfl⟩
  cases hempty

end DeiChain
