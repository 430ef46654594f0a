import DeiChain.Miner
import Mathlib.Data.List.FinRange

namespace DeiChain

variable {n : ℕ}

inductive Buffer
  | selected
  | selectedIndices
deriving DecidableEq

def freeBuffer (buffer : Buffer) (heap : List Buffer) : Option (List Buffer) :=
  if buffer ∈ heap then some (heap.erase buffer) else none

-- The whole call with its heap: a buffer freed twice leaves no defined result.
def selectTransactionsCall (count : ℕ) (slots : Slots n) :
    Option (Slots n × Option (List Transaction)) := do
  let heap := [Buffer.selected, Buffer.selectedIndices]
  match selectSection count slots with
  | (slots, none) =>
    let heap ← freeBuffer .selected heap
    let _ ← freeBuffer .selectedIndices heap
    return (slots, none)
  | (slots, some reserved) =>
    let (slots, selected, heap) ←
      if reserved.length = count then
        pure (slots, some (reserved.map Prod.snd), heap)
      else do
        let slots := release (reserved.map Prod.fst) slots
        let heap ← freeBuffer .selected heap
        let heap ← freeBuffer .selectedIndices heap
        pure (slots, none, heap)
    let _ ← freeBuffer .selectedIndices heap
    return (slots, selected)

def FreshSlot (slots : Slots n) (i : Fin n) : Prop :=
  (slots i).empty = false ∧ ∀ j < i, (slots j).empty = false →
    (slots j).transaction.id ≠ (slots i).transaction.id

instance (slots : Slots n) (i : Fin n) : Decidable (FreshSlot slots i) :=
  inferInstanceAs (Decidable (_ ∧ _))

def freshSlots (slots : Slots n) : List (Fin n) := (List.finRange n).filter (FreshSlot slots)

def distinctIds (slots : Slots n) : Finset (List UInt8) :=
  (availableSlots slots).image (fun i => (slots i).transaction.id)

def selectionOf (count : ℕ) (slots : Slots n) : Slots n × Option (List Transaction) :=
  if count ≤ (distinctIds slots).card then
    (fun i => if i ∈ (freshSlots slots).take count then (slots i).setEmpty true else slots i,
      some (((freshSlots slots).take count).map (fun i => (slots i).transaction)))
  else (slots, none)

def reservation (slots : Slots n) (i : Fin n) : Reservation n := (i, (slots i).transaction)

theorem mem_freshSlots {slots : Slots n} {i : Fin n} :
    i ∈ freshSlots slots ↔ FreshSlot slots i := by
  simp [freshSlots]

theorem exists_freshSlot {slots : Slots n} {i : Fin n} (hi : (slots i).empty = false) :
    ∃ j ≤ i, FreshSlot slots j ∧ (slots j).transaction.id = (slots i).transaction.id := by
  induction i using WellFoundedLT.induction with
  | _ i ih =>
    by_cases hfresh : FreshSlot slots i
    · exact ⟨i, le_rfl, hfresh, rfl⟩
    · have hrepeat : ∃ j < i, (slots j).empty = false ∧
          (slots j).transaction.id = (slots i).transaction.id := by
        by_contra hno
        exact hfresh ⟨hi, fun j hj hfull hid => hno ⟨j, hj, hfull, hid⟩⟩
      obtain ⟨j, hj, hfull, hid⟩ := hrepeat
      obtain ⟨f, hf, hfresh, hfid⟩ := ih j hj hfull
      exact ⟨f, hf.trans hj.le, hfresh, hfid.trans hid⟩

theorem freshSlots_pairwise (slots : Slots n) : (freshSlots slots).Pairwise (· < ·) :=
  (List.pairwise_lt_finRange n).filter _

theorem freshSlots_ids_nodup (slots : Slots n) :
    ((freshSlots slots).map (fun i => (slots i).transaction.id)).Nodup := by
  refine List.pairwise_map.mpr ((freshSlots_pairwise slots).imp_of_mem ?_)
  intro a b ha hb hab
  exact (mem_freshSlots.mp hb).2 a hab (mem_freshSlots.mp ha).1

theorem length_freshSlots (slots : Slots n) :
    (freshSlots slots).length = (distinctIds slots).card := by
  have hset : distinctIds slots =
      ((freshSlots slots).map (fun i => (slots i).transaction.id)).toFinset := by
    ext x
    rw [List.mem_toFinset, List.mem_map, distinctIds, Finset.mem_image]
    constructor
    · rintro ⟨i, hi, rfl⟩
      obtain ⟨j, -, hj, hid⟩ := exists_freshSlot (mem_availableSlots.mp hi)
      exact ⟨j, mem_freshSlots.mpr hj, hid⟩
    · rintro ⟨i, hi, rfl⟩
      exact ⟨i, mem_availableSlots.mpr (mem_freshSlots.mp hi).1, rfl⟩
  rw [hset, List.toFinset_card_of_nodup (freshSlots_ids_nodup slots), List.length_map]

theorem distinctIds_card_le (slots : Slots n) : (distinctIds slots).card ≤ available slots :=
  Finset.card_image_le

-- The fresh slots of the part already passed are exactly what the loop holds, so its duplicate
-- test is the test for a fresh slot.
theorem freshSlot_iff_of_passed {slots : Slots n} {passed rest : List (Fin n)} {i : Fin n}
    (hsplit : passed ++ i :: rest = List.finRange n) :
    FreshSlot slots i ↔ (slots i).empty = false ∧
      ∀ r ∈ (passed.filter (FreshSlot slots)).map (reservation slots),
        r.2.id ≠ (slots i).transaction.id := by
  have hsorted := List.pairwise_lt_finRange n
  rw [← hsplit, List.pairwise_append, List.pairwise_cons] at hsorted
  have hpassed : ∀ j, j ∈ passed ↔ j < i := by
    intro j
    refine ⟨fun hj => hsorted.2.2 j hj i List.mem_cons_self, fun hlt => ?_⟩
    have hj : j ∈ passed ++ i :: rest := hsplit ▸ List.mem_finRange j
    rcases List.mem_append.mp hj with hj | hj
    · exact hj
    · rcases List.mem_cons.mp hj with rfl | hj
      · exact absurd hlt (lt_irrefl _)
      · exact absurd hlt (hsorted.2.1.1 j hj).not_gt
  refine and_congr_right (fun hi => ?_)
  simp only [List.forall_mem_map, List.mem_filter, decide_eq_true_eq, hpassed]
  constructor
  · rintro hfirst j ⟨hj, hfresh⟩
    exact hfirst j hj hfresh.1
  · intro hheld j hj hfull
    obtain ⟨f, hf, hfresh, hid⟩ := exists_freshSlot hfull
    exact hid ▸ hheld f ⟨hf.trans_lt hj, hfresh⟩

theorem selectLoop_eq (count : ℕ) (slots : Slots n) (passed rest : List (Fin n)) (now : Slots n)
    (hsplit : passed ++ rest = List.finRange n) (hnow : ∀ j ∈ rest, now j = slots j)
    (hle : (passed.filter (FreshSlot slots)).length ≤ count) :
    (selectLoop count rest now ((passed.filter (FreshSlot slots)).map (reservation slots))).2 =
      ((freshSlots slots).take count).map (reservation slots) := by
  induction rest generalizing passed now with
  | nil =>
    rw [List.append_nil] at hsplit
    rw [selectLoop, freshSlots, ← hsplit, List.take_of_length_le hle]
  | cons i rest ih =>
    have hi : now i = slots i := hnow i List.mem_cons_self
    have hrest : ∀ j ∈ rest, now j = slots j := fun j hj => hnow j (List.mem_cons_of_mem _ hj)
    have hsplit' : (passed ++ [i]) ++ rest = List.finRange n := by simpa using hsplit
    rw [selectLoop, List.length_map]
    split
    · rename_i hroom
      rw [hi]
      split
      · rename_i htest
        have hfresh : FreshSlot slots i := (freshSlot_iff_of_passed hsplit).mpr htest
        have hnext : (passed ++ [i]).filter (FreshSlot slots) =
            passed.filter (FreshSlot slots) ++ [i] := by
          simp [hfresh]
        have hne : ∀ j ∈ rest, j ≠ i := by
          intro j hj
          have hnd := List.nodup_finRange n
          rw [← hsplit, List.nodup_append, List.nodup_cons] at hnd
          exact fun h => hnd.2.1.1 (h ▸ hj)
        have hloop := ih (passed ++ [i]) (Function.update now i ((slots i).setEmpty true)) hsplit'
          (fun j hj => by rw [Function.update_of_ne (hne j hj), hrest j hj])
          (by rw [hnext, List.length_append, List.length_singleton]; omega)
        rw [hnext, List.map_append] at hloop
        exact hloop
      · rename_i htest
        have hfresh : ¬FreshSlot slots i := fun h => htest ((freshSlot_iff_of_passed hsplit).mp h)
        have hnext : (passed ++ [i]).filter (FreshSlot slots) =
            passed.filter (FreshSlot slots) := by
          simp [hfresh]
        have hloop := ih (passed ++ [i]) now hsplit' hrest (hnext ▸ hle)
        rwa [hnext] at hloop
    · rename_i hfull
      have hlen : (passed.filter (FreshSlot slots)).length = count := by omega
      rw [freshSlots, ← hsplit, List.filter_append, List.take_left' hlen]

theorem selectLoop_finRange (count : ℕ) (slots : Slots n) :
    (selectLoop count (List.finRange n) slots []).2 =
      ((freshSlots slots).take count).map (reservation slots) :=
  selectLoop_eq count slots [] (List.finRange n) slots rfl (fun _ _ => rfl) (Nat.zero_le _)

theorem positions_map_reservation (slots : Slots n) (is : List (Fin n)) :
    (is.map (reservation slots)).map Prod.fst = is := by
  rw [List.map_map]
  exact List.map_id is

theorem transactions_map_reservation (slots : Slots n) (is : List (Fin n)) :
    (is.map (reservation slots)).map Prod.snd = is.map (fun i => (slots i).transaction) := by
  rw [List.map_map]
  rfl

theorem selectSection_eq (count : ℕ) (slots : Slots n) :
    selectSection count slots =
      if available slots < count then (slots, none)
      else (fun i => if i ∈ (freshSlots slots).take count then (slots i).setEmpty true else slots i,
        some (((freshSlots slots).take count).map (reservation slots))) := by
  rw [selectSection]
  split
  · rfl
  · have hloop := selectLoop_finRange count slots
    have hafter := (selects_of_section (Prod.mk.eta.symm :
      selectLoop count (List.finRange n) slots [] = _)).after_apply
    rw [hloop, positions_map_reservation] at hafter
    exact Prod.ext (funext hafter) (congrArg some hloop)

theorem release_chosen (count : ℕ) (slots : Slots n) :
    release ((freshSlots slots).take count) (fun i =>
      if i ∈ (freshSlots slots).take count then (slots i).setEmpty true else slots i) = slots := by
  funext i
  rw [release_apply]
  split
  · rename_i hi
    have hfull := (mem_freshSlots.mp (List.mem_of_mem_take hi)).1
    rw [TransactionPoolEntry.setEmpty_setEmpty, ← hfull]
    rfl
  · rfl

theorem selectTransactions_eq (count : ℕ) (slots : Slots n) :
    selectTransactions count slots = selectionOf count slots := by
  have hle := distinctIds_card_le slots
  rw [selectTransactions, selectSection_eq, selectionOf]
  by_cases hshort : available slots < count
  · rw [if_pos hshort, if_neg (by omega)]
  · rw [if_neg hshort]
    simp only [List.length_map, List.length_take, length_freshSlots]
    by_cases hcount : count ≤ (distinctIds slots).card
    · rw [if_pos hcount, if_pos (by omega), transactions_map_reservation]
    · rw [if_neg hcount, if_neg (by omega), positions_map_reservation, release_chosen]

theorem selectTransactionsCall_eq (count : ℕ) (slots : Slots n) :
    selectTransactionsCall count slots =
      if available slots < count ∨ count ≤ (distinctIds slots).card then
        some (selectTransactions count slots)
      else none := by
  have hle := distinctIds_card_le slots
  rw [selectTransactionsCall, selectTransactions, selectSection_eq]
  by_cases hshort : available slots < count
  · rw [if_pos hshort, if_pos (.inl hshort)]
    rfl
  · rw [if_neg hshort]
    simp only [List.length_map, List.length_take, length_freshSlots]
    by_cases hcount : count ≤ (distinctIds slots).card
    · have hall : available slots < count ∨ count ≤ (distinctIds slots).card := .inr hcount
      rw [if_pos hall, min_eq_left hcount, if_pos rfl, if_pos rfl]
      rfl
    · have hpart : ¬(available slots < count ∨ count ≤ (distinctIds slots).card) := by omega
      have hlen : min count (distinctIds slots).card ≠ count := by omega
      rw [if_neg hpart, if_neg hlen]
      rfl

theorem select_all_or_nothing_iff (count : ℕ) (slots : Slots n) :
    (selectTransactionsCall count slots = some (selectionOf count slots) ↔
      available slots < count ∨ count ≤ (distinctIds slots).card) ∧
    selectTransactions count slots = selectionOf count slots ∧
    ∀ txs, (selectionOf count slots).2 = some txs →
      txs.length = count ∧ (txs.map Transaction.id).Nodup := by
  refine ⟨?_, selectTransactions_eq count slots, ?_⟩
  · rw [selectTransactionsCall_eq, ← selectTransactions_eq]
    split
    · rename_i h
      simp [h]
    · rename_i h
      simp [h]
  · intro txs htxs
    rw [selectionOf] at htxs
    split at htxs
    · rename_i hcount
      obtain rfl := Option.some.inj htxs
      refine ⟨by simp [length_freshSlots, hcount], ?_⟩
      rw [List.map_map]
      have hsub : (((freshSlots slots).take count).map
          (fun i => (slots i).transaction.id)).Sublist
          ((freshSlots slots).map (fun i => (slots i).transaction.id)) :=
        (List.take_sublist _ _).map _
      exact (freshSlots_ids_nodup slots).sublist hsub
    · cases htxs

namespace Sample

def twins (c : UInt8) : Slots 2 := fun _ =>
  ⟨⟨List.Vector.cons c (List.Vector.replicate 15 0), 1, 0, 0⟩, false, 0⟩

end Sample

theorem select_duplicates_undefined :
    ∃ slots : Slots 2, available slots = 2 ∧ (distinctIds slots).card = 1 ∧
      selectionOf 2 slots = (slots, none) ∧ selectTransactionsCall 2 slots = none := by
  refine ⟨Sample.twins 65, by decide, by decide, ?_, ?_⟩
  · rw [selectionOf, if_neg (by decide)]
  · rw [selectTransactionsCall_eq, if_neg (by decide)]

end DeiChain
