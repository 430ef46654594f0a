import DeiChain.Pool
import DeiChain.Pow

namespace DeiChain

open ByteLayout

variable {n : ℕ}

abbrev Reservation (n : ℕ) := Fin n × Transaction

def selectLoop (count : ℕ) : List (Fin n) → Slots n → List (Reservation n) →
    Slots n × List (Reservation n)
  | [], slots, selected => (slots, selected)
  | i :: is, slots, selected =>
    if selected.length < count then
      if (slots i).empty = false ∧ ∀ r ∈ selected, r.2.id ≠ (slots i).transaction.id then
        selectLoop count is (Function.update slots i ((slots i).setEmpty true))
          (selected ++ [(i, (slots i).transaction)])
      else selectLoop count is slots selected
    else (slots, selected)

def selectSection (count : ℕ) (slots : Slots n) : Slots n × Option (List (Reservation n)) :=
  if available slots < count then (slots, none)
  else
    let (slots, selected) := selectLoop count (List.finRange n) slots []
    (slots, some selected)

def selectTransactions (count : ℕ) (slots : Slots n) : Slots n × Option (List Transaction) :=
  match selectSection count slots with
  | (slots, none) => (slots, none)
  | (slots, some selected) =>
    if selected.length = count then (slots, some (selected.map Prod.snd))
    else (release (selected.map Prod.fst) slots, none)

-- The restore loop, written four times in miner_thread_function.
def restoreLoop (txs : List Transaction) (slots : Slots n) : Slots n :=
  fun i => if ∃ t ∈ txs, (slots i).transaction.id = t.id then (slots i).setEmpty false
    else slots i

def decimal (x : ℤ) : List UInt8 :=
  (if x < 0 then bytesOf "-" else []) ++
    (Nat.toDigits 10 x.natAbs).map (fun c => UInt8.ofNat c.toNat)

-- snprintf into a zeroed array: at most n characters, then a NUL.
def snprintf (n : ℕ) (s : List UInt8) : Chars (n + 1) :=
  ⟨(s.take n ++ List.replicate (n + 1) 0).take (n + 1), by simp⟩

def terminate {n : ℕ} (s : Chars (n + 1)) : Chars (n + 1) :=
  ⟨s.toList.take n ++ [0], by simp⟩

theorem terminate_last {n : ℕ} (s : Chars (n + 1)) : (terminate s).toList[n]? = some 0 := by
  have hlen : (s.toList.take n).length = n := by
    rw [List.length_take, s.toList_length]
    omega
  change (s.toList.take n ++ [0])[n]? = some 0
  rw [List.getElem?_append_right hlen.le, hlen, Nat.sub_self]
  rfl

theorem terminate_eq {n : ℕ} {s : Chars (n + 1)} (h : s.toList[n]? = some 0) :
    terminate s = s := by
  obtain ⟨hn, hzero⟩ := List.getElem?_eq_some_iff.mp h
  apply Subtype.ext
  change s.toList.take n ++ [0] = s.toList
  rw [← hzero, List.take_append_getElem hn, List.take_of_length_le (by rw [s.toList_length])]

theorem terminate_terminate {n : ℕ} (s : Chars (n + 1)) : terminate (terminate s) = terminate s :=
  terminate_eq (terminate_last s)

def createBlock {cfg : Config} (transactions : List.Vector Transaction cfg.transactionsPerBlock)
    (previousHash : Chars hashSize) (minerId blockId : ℤ) (clock : Int64) : TransactionBlock where
  txbId := terminate
    (snprintf 63 (bytesOf "BLOCK-" ++ decimal minerId ++ bytesOf "-" ++ decimal blockId))
  previousBlockHash := terminate previousHash
  timestamp := clock
  nonce := 0
  transactionsPerBlock := Int32.ofNat cfg.transactionsPerBlock
  transactions := transactions.toList
  transactions_length := by
    rw [transactions.toList_length, toInt_ofNat_of_lt cfg.int32.2.2.1, Int.toNat_natCast]

structure Selects (is : List (Fin n)) (slots : Slots n) (selected new : List (Reservation n))
    (after : Slots n) : Prop where
  taken : ∀ r ∈ new, r.1 ∈ is ∧ (slots r.1).empty = false ∧ r.2 = (slots r.1).transaction
  nodup : (new.map Prod.fst).Nodup
  ids : ((selected ++ new).map (fun r => r.2.id)).Nodup
  after_apply : ∀ i, after i =
    if i ∈ new.map Prod.fst then (slots i).setEmpty true else slots i

theorem selects_nil {is : List (Fin n)} {slots : Slots n} {selected : List (Reservation n)}
    (hids : (selected.map (fun r => r.2.id)).Nodup) : Selects is slots selected [] slots where
  taken := by simp
  nodup := by simp
  ids := by simpa using hids
  after_apply := by simp

theorem selects_cons {i : Fin n} {is : List (Fin n)} {slots after : Slots n}
    {selected new : List (Reservation n)} (hi : i ∉ is) (hfull : (slots i).empty = false)
    (h : Selects is (Function.update slots i ((slots i).setEmpty true))
      (selected ++ [(i, (slots i).transaction)]) new after) :
    Selects (i :: is) slots selected ((i, (slots i).transaction) :: new) after := by
  have hne : ∀ r ∈ new, r.1 ≠ i := fun r hr heq => hi (heq ▸ (h.taken r hr).1)
  have hnot : i ∉ new.map Prod.fst := by
    intro hmem
    obtain ⟨r, hr, heq⟩ := List.mem_map.mp hmem
    exact hne r hr heq
  refine ⟨?_, ?_, ?_, ?_⟩
  · intro r hr
    rcases List.mem_cons.mp hr with rfl | hr
    · exact ⟨List.mem_cons_self, hfull, rfl⟩
    · obtain ⟨hmem, hempty, htx⟩ := h.taken r hr
      rw [Function.update_of_ne (hne r hr)] at hempty htx
      exact ⟨List.mem_cons_of_mem _ hmem, hempty, htx⟩
  · exact List.nodup_cons.mpr ⟨hnot, h.nodup⟩
  · simpa using h.ids
  · intro j
    rw [h.after_apply j]
    by_cases hj : j = i
    · subst hj
      simp [hnot]
    · have hmem : j ∈ ((i, (slots i).transaction) :: new).map Prod.fst ↔ j ∈ new.map Prod.fst := by
        rw [List.map_cons, List.mem_cons]
        exact or_iff_right hj
      rw [Function.update_of_ne hj]
      simp only [hmem]

theorem selectLoop_spec (count : ℕ) {is : List (Fin n)} (slots : Slots n)
    (selected : List (Reservation n)) (hnd : is.Nodup)
    (hids : (selected.map (fun r => r.2.id)).Nodup) :
    ∃ new, (selectLoop count is slots selected).2 = selected ++ new ∧
      Selects is slots selected new (selectLoop count is slots selected).1 := by
  induction is generalizing slots selected with
  | nil => exact ⟨[], by simp [selectLoop], selects_nil hids⟩
  | cons i is ih =>
    obtain ⟨hi, hnd⟩ := List.nodup_cons.mp hnd
    simp only [selectLoop]
    split
    · split
      · rename_i hsel
        have hids' : ((selected ++ [(i, (slots i).transaction)]).map (fun r => r.2.id)).Nodup := by
          rw [List.map_append, List.nodup_append]
          refine ⟨hids, by simp, ?_⟩
          intro a ha b hb
          obtain ⟨r, hr, rfl⟩ := List.mem_map.mp ha
          simp only [List.map_cons, List.map_nil, List.mem_singleton] at hb
          exact hb ▸ hsel.2 r hr
        obtain ⟨new, heq, hnew⟩ := ih _ _ hnd hids'
        exact ⟨(i, (slots i).transaction) :: new, by simp [heq], selects_cons hi hsel.1 hnew⟩
      · obtain ⟨new, heq, hnew⟩ := ih slots _ hnd hids
        refine ⟨new, heq, ⟨?_, hnew.nodup, hnew.ids, hnew.after_apply⟩⟩
        intro r hr
        obtain ⟨hmem, hrest⟩ := hnew.taken r hr
        exact ⟨List.mem_cons_of_mem _ hmem, hrest⟩
    · exact ⟨[], by simp, selects_nil hids⟩

theorem selects_of_section {slots after : Slots n} {count : ℕ}
    {reserved : List (Reservation n)}
    (h : selectLoop count (List.finRange _) slots [] = (after, reserved)) :
    Selects (List.finRange _) slots [] reserved after := by
  obtain ⟨new, heq, hsel⟩ := selectLoop_spec count slots [] (List.nodup_finRange _)
    List.nodup_nil
  rw [h] at heq hsel
  obtain rfl : reserved = new := by simpa using heq
  exact hsel

theorem selectLoop_length_le {count : ℕ} (is : List (Fin n)) (slots : Slots n)
    (selected : List (Reservation n)) (hle : selected.length ≤ count) :
    (selectLoop count is slots selected).2.length ≤ count := by
  induction is generalizing slots selected with
  | nil => simpa [selectLoop] using hle
  | cons i is ih =>
    simp only [selectLoop]
    split
    · split
      · exact ih _ _ (by simp; omega)
      · exact ih _ _ hle
    · exact hle

theorem mem_selectLoop {count : ℕ} {is : List (Fin n)} {slots : Slots n}
    {selected : List (Reservation n)} {r : Reservation n} (hr : r ∈ selected) :
    r ∈ (selectLoop count is slots selected).2 := by
  induction is generalizing slots selected with
  | nil => simpa [selectLoop] using hr
  | cons i is ih =>
    simp only [selectLoop]
    split
    · split
      · exact ih (List.mem_append_left _ hr)
      · exact ih hr
    · exact hr

-- Under distinct ids the duplicate test never skips, so a short result has taken everything.
theorem selectLoop_exhausts (count : ℕ) {is : List (Fin n)} (slots : Slots n)
    (selected : List (Reservation n)) (hnd : is.Nodup)
    (hdistinct : ∀ i ∈ is, ∀ j ∈ is, (slots i).empty = false → (slots j).empty = false →
      (slots i).transaction.id = (slots j).transaction.id → i = j)
    (hnew : ∀ i ∈ is, (slots i).empty = false → ∀ r ∈ selected,
      r.2.id ≠ (slots i).transaction.id)
    (hshort : (selectLoop count is slots selected).2.length < count) :
    ∀ i ∈ is, (slots i).empty = false →
      i ∈ (selectLoop count is slots selected).2.map Prod.fst := by
  induction is generalizing slots selected with
  | nil => simp
  | cons i is ih =>
    obtain ⟨hi, hnd⟩ := List.nodup_cons.mp hnd
    have hdistinct' : ∀ a ∈ is, ∀ b ∈ is, (slots a).empty = false → (slots b).empty = false →
        (slots a).transaction.id = (slots b).transaction.id → a = b := fun a ha b hb =>
      hdistinct a (List.mem_cons_of_mem _ ha) b (List.mem_cons_of_mem _ hb)
    simp only [selectLoop] at hshort ⊢
    split at hshort
    · rename_i hroom
      rw [if_pos hroom]
      split at hshort
      · rename_i hsel
        rw [if_pos hsel]
        have hother : ∀ j ∈ is, Function.update slots i ((slots i).setEmpty true) j = slots j := by
          intro j hj
          have hne : j ≠ i := fun h => hi (h ▸ hj)
          exact Function.update_of_ne hne _ _
        have hrest := ih (Function.update slots i ((slots i).setEmpty true))
          (selected ++ [(i, (slots i).transaction)]) hnd
          (fun a ha b hb => by rw [hother a ha, hother b hb]; exact hdistinct' a ha b hb)
          (by
            intro a ha hempty r hr
            rw [hother a ha] at hempty ⊢
            rcases List.mem_append.mp hr with hr | hr
            · exact hnew a (List.mem_cons_of_mem _ ha) hempty r hr
            · rw [List.mem_singleton.mp hr]
              intro heq
              have hia := hdistinct i List.mem_cons_self a (List.mem_cons_of_mem _ ha) hsel.1
                hempty heq
              exact hi (hia ▸ ha))
          hshort
        intro j hj hfull
        rcases List.mem_cons.mp hj with rfl | hj
        · exact List.mem_map_of_mem (f := Prod.fst) (mem_selectLoop (List.mem_append_right _
            (List.mem_singleton_self (j, (slots j).transaction))))
        · exact hrest j hj (by rw [hother j hj]; exact hfull)
      · rename_i hsel
        rw [if_neg hsel]
        intro j hj hfull
        rcases List.mem_cons.mp hj with rfl | hj
        · exact absurd ⟨hfull, hnew j List.mem_cons_self hfull⟩ hsel
        · exact ih _ _ hnd hdistinct' (fun a ha => hnew a (List.mem_cons_of_mem _ ha)) hshort j hj
            hfull
    · rename_i hroom
      exact absurd hshort hroom

theorem selectLoop_ne_nil {count : ℕ} {is : List (Fin n)} {slots : Slots n} (hcount : 0 < count)
    (hfull : ∃ i ∈ is, (slots i).empty = false) :
    (selectLoop count is slots []).2 ≠ [] := by
  induction is with
  | nil =>
    obtain ⟨i, hi, -⟩ := hfull
    cases hi
  | cons i is ih =>
    simp only [selectLoop]
    rw [if_pos (by simpa using hcount)]
    split
    · exact List.ne_nil_of_mem (mem_selectLoop (List.mem_append_right [] (List.mem_singleton_self
        (i, (slots i).transaction))))
    · rename_i hskip
      refine ih ?_
      obtain ⟨j, hj, hempty⟩ := hfull
      rcases List.mem_cons.mp hj with rfl | hj
      · exact absurd ⟨hempty, by simp⟩ hskip
      · exact ⟨j, hj, hempty⟩

theorem available_after_select {slots after : Slots n} {new : List (Reservation n)}
    (h : Selects (List.finRange n) slots [] new after) :
    available after + new.length = available slots := by
  have hset : availableSlots after = availableSlots slots \ (new.map Prod.fst).toFinset := by
    ext i
    rw [Finset.mem_sdiff, mem_availableSlots, mem_availableSlots, List.mem_toFinset,
      h.after_apply]
    split
    · rename_i hmem
      simp [hmem]
    · rename_i hmem
      simp [hmem]
  have hsub : (new.map Prod.fst).toFinset ⊆ availableSlots slots := by
    intro i hi
    obtain ⟨r, hr, rfl⟩ := List.mem_map.mp (List.mem_toFinset.mp hi)
    exact mem_availableSlots.mpr (h.taken r hr).2.1
  have hcard := Finset.card_sdiff_add_card_eq_card hsub
  rw [List.toFinset_card_of_nodup h.nodup, List.length_map, ← hset] at hcard
  exact hcard

end DeiChain
