import DeiChain.Rejection

namespace DeiChain

open ByteMemory

variable {cfg : Config}

-- What is done with a transaction of the received block: the element is used, or strlen or
-- strcmp runs over its id.
inductive Access
  | element (i : ℕ)
  | string (i : ℕ)
deriving DecidableEq

def Terminated (t : Transaction) : Prop := 0 ∈ t.txId.toList

instance (t : Transaction) : Decidable (Terminated t) :=
  inferInstanceAs (Decidable (0 ∈ t.txId.toList))

def InBounds (b : TransactionBlock) : Access → Prop
  | .element i => i < b.transactionsPerBlock.toInt
  | .string i => ∃ t, b.transactions[i]? = some t ∧ Terminated t

def AllInBounds (b : TransactionBlock) (accesses : List Access) : Prop :=
  ∀ a ∈ accesses, InBounds b a

def elements (count : ℕ) : List Access := (List.range count).map Access.element

-- The strcmp calls of a scan of the pool, which ends at the first entry with the id.
def scan {n : ℕ} (slots : Slots n) (i : ℕ) (t : Transaction) : List Access :=
  let comparisons := (firstCarrier slots t.id).elim n (fun j => j + 1)
  (List.replicate comparisons [Access.element i, Access.string i]).flatten

def lookupAccesses {n : ℕ} (slots : Slots n) : ℕ → List Transaction → List Access
  | _, [] => []
  | i, t :: ts =>
    [Access.element i, Access.string i] ++
      if t.id = [] then []
      else scan slots i t ++
        match firstCarrier slots t.id with
        | none => [Access.element i]
        | some _ => lookupAccesses slots (i + 1) ts

-- serialize_block copies the array and the reward of verify_nonce is sought in it; a rejected
-- block has the transactions that were found named in the log.
def validateAccesses {n : ℕ} (checked : Bool) (b : TransactionBlock) (slots : Slots n) :
    List Access :=
  let count := b.transactionsPerBlock.toInt.toNat
  let (valid, positions) := lookupLoop slots b.transactions
  elements count ++ elements count ++
    if checked then
      lookupAccesses slots 0 b.transactions ++ if valid then [] else elements positions.length
    else []

def addAccesses (cfg : Config) (m : Memory) : List Access :=
  if numBlocks m ≥ cfg.blockchainBlocks then [] else elements cfg.transactionsPerBlock

-- A slot that was looked up keeps its record, so that every scan reads the pool of the first.
def scanAll {n : ℕ} (slots : Slots n) (txs : List Transaction) : List Access :=
  txs.zipIdx.flatMap (fun p => scan slots p.2 p.1)

def sendAccesses (valid : Bool) (b : TransactionBlock) : List Access :=
  if valid then elements b.transactionsPerBlock.toInt.toNat else []

-- What the sections that handle one block find; other processes change both segments between.
structure Sections (cfg : Config) where
  tip : Memory
  allocated : Bool
  lookup : Slots cfg.txPoolSize
  ledger : Memory
  update : Slots cfg.txPoolSize

def checked (sha : Sha) (att : Attachment cfg) (s : Sections cfg) (b : TransactionBlock) : Bool :=
  verifyNonce sha b && checkLink sha att s.tip b && s.allocated

def handleAccesses (sha : Sha) (att : Attachment cfg) (s : Sections cfg) (r : ReceivedBlock cfg) :
    List Access :=
  let valid := (validateBlock sha att s.tip s.allocated r.block s.lookup).1
  validateAccesses (checked sha att s r.block) r.block s.lookup ++
    (if valid then
      addAccesses cfg s.ledger ++
        if numBlocks s.ledger ≥ cfg.blockchainBlocks then scanAll s.update r.block.transactions
        else scanAll s.update (r.block.transactions ++ r.heapTail)
    else []) ++ sendAccesses valid r.block

-- The transactions that the lookup loop comes to: it stops behind the first that is not found.
def reached {n : ℕ} (slots : Slots n) : List Transaction → List Transaction
  | [] => []
  | t :: ts => if found slots t then t :: reached slots ts else [t]

theorem reached_of_all {n : ℕ} {slots : Slots n} {txs : List Transaction}
    (h : txs.all (found slots) = true) : reached slots txs = txs := by
  induction txs with
  | nil => rfl
  | cons t ts ih =>
    rw [List.all_cons, Bool.and_eq_true] at h
    rw [reached, if_pos h.1, ih h.2]

section

variable {b : TransactionBlock} {xs ys : List Access}

theorem allInBounds_nil : AllInBounds b [] := by simp [AllInBounds]

theorem allInBounds_append :
    AllInBounds b (xs ++ ys) ↔ AllInBounds b xs ∧ AllInBounds b ys := by
  simp only [AllInBounds, List.mem_append, or_imp, forall_and]

theorem allInBounds_elements {count : ℕ} :
    AllInBounds b (elements count) ↔ count ≤ b.transactionsPerBlock.toInt.toNat := by
  simp only [AllInBounds, elements, List.forall_mem_map, List.mem_range, InBounds]
  constructor
  · intro hall
    by_contra hmore
    have hlast := hall b.transactionsPerBlock.toInt.toNat (by omega)
    omega
  · intro hle i hi
    omega

theorem inBounds_element {i : ℕ} {t : Transaction} (hi : b.transactions[i]? = some t) :
    InBounds b (.element i) := by
  obtain ⟨hlt, -⟩ := List.getElem?_eq_some_iff.mp hi
  rw [b.transactions_length] at hlt
  change (i : ℤ) < b.transactionsPerBlock.toInt
  omega

theorem inBounds_string {i : ℕ} {t : Transaction} (hi : b.transactions[i]? = some t) :
    InBounds b (.string i) ↔ Terminated t := by
  simp [InBounds, hi]

theorem allInBounds_scan {n : ℕ} (slots : Slots n) {i : ℕ} {t : Transaction}
    (hi : b.transactions[i]? = some t) (ht : Terminated t) : AllInBounds b (scan slots i t) := by
  intro a ha
  obtain ⟨pair, hpair, hmem⟩ := List.mem_flatten.mp ha
  rw [List.eq_of_mem_replicate hpair] at hmem
  simp only [List.mem_cons, List.not_mem_nil, or_false] at hmem
  rcases hmem with rfl | rfl
  · exact inBounds_element hi
  · exact (inBounds_string hi).mpr ht

theorem allInBounds_head {i : ℕ} {t : Transaction} (hi : b.transactions[i]? = some t) :
    AllInBounds b [.element i, .string i] ↔ Terminated t := by
  simp only [AllInBounds, List.forall_mem_cons, inBounds_string hi, inBounds_element hi,
    List.not_mem_nil, false_implies, implies_true, and_true, true_and]

-- The induction runs along the loop; what is left of the array starts at index i.
theorem allInBounds_lookup {n : ℕ} (slots : Slots n) {i : ℕ} {ts : List Transaction}
    (h : b.transactions.drop i = ts) :
    AllInBounds b (lookupAccesses slots i ts) ↔ ∀ t ∈ reached slots ts, Terminated t := by
  induction ts generalizing i with
  | nil => simp [lookupAccesses, reached, allInBounds_nil]
  | cons t ts ih =>
    have hi : b.transactions[i]? = some t := by
      rw [← List.head?_drop, h, List.head?_cons]
    have hnext : b.transactions.drop (i + 1) = ts := by
      rw [← List.drop_drop, h, List.drop_one, List.tail_cons]
    rw [lookupAccesses, allInBounds_append, allInBounds_head hi, reached]
    by_cases hid : t.id = []
    · have hnot : found slots t = false := by simp [found, hid]
      simp [hid, hnot, allInBounds_nil]
    · cases hfirst : firstCarrier slots t.id with
      | none =>
        have hnot : found slots t = false := by simp [found, hfirst]
        simp only [hid, if_false, hnot, Bool.false_eq_true, List.forall_mem_singleton,
          allInBounds_append]
        refine and_iff_left_of_imp (fun ht => ⟨allInBounds_scan slots hi ht, ?_⟩)
        simpa [AllInBounds] using inBounds_element hi
      | some j =>
        have hyes : found slots t = true := by simp [found, hid, hfirst]
        simp only [hid, if_false, hyes, if_true, List.forall_mem_cons, allInBounds_append,
          ih hnext]
        exact and_congr_right (fun ht => and_iff_right (allInBounds_scan slots hi ht))

theorem allInBounds_scanAll {n : ℕ} (slots : Slots n)
    (h : ∀ t ∈ b.transactions, Terminated t) : AllInBounds b (scanAll slots b.transactions) := by
  intro a ha
  obtain ⟨⟨t, i⟩, hmem, hscan⟩ := List.mem_flatMap.mp ha
  have hi : b.transactions[i]? = some t := List.mem_zipIdx_iff_getElem?.mp hmem
  exact allInBounds_scan slots hi (h t (List.mem_of_getElem? hi)) a hscan

theorem allInBounds_validate {n : ℕ} (ok : Bool) (slots : Slots n) :
    AllInBounds b (validateAccesses ok b slots) ↔
      (ok = true → ∀ t ∈ reached slots b.transactions, Terminated t) := by
  have hpositions : (lookupLoop slots b.transactions).2.length ≤
      b.transactionsPerBlock.toInt.toNat := by
    rw [← b.transactions_length]
    exact length_lookupLoop slots b.transactions
  have hcount : AllInBounds b (elements b.transactionsPerBlock.toInt.toNat) :=
    allInBounds_elements.mpr le_rfl
  have hundo : AllInBounds b (if (lookupLoop slots b.transactions).1 then []
      else elements (lookupLoop slots b.transactions).2.length) := by
    split
    · exact allInBounds_nil
    · exact allInBounds_elements.mpr hpositions
  rw [validateAccesses, allInBounds_append, allInBounds_append, and_iff_right ⟨hcount, hcount⟩]
  cases ok with
  | false => simp [allInBounds_nil]
  | true =>
    rw [if_pos rfl, allInBounds_append, allInBounds_lookup slots List.drop_zero,
      and_iff_left hundo]
    exact ⟨fun h _ => h, fun h => h rfl⟩

end

theorem validateBlock_fst (sha : Sha) (att : Attachment cfg) (s : Sections cfg)
    (b : TransactionBlock) : (validateBlock sha att s.tip s.allocated b s.lookup).1 =
      (checked sha att s b && b.transactions.all (found s.lookup)) := by
  unfold checked
  cases hpow : verifyNonce sha b with
  | false => simp [validateBlock, hpow]
  | true =>
    cases hlink : checkLink sha att s.tip b with
    | false => simp [validateBlock, hpow, hlink]
    | true =>
      cases halloc : s.allocated with
      | false => simp [validateBlock, hpow, hlink]
      | true => simp [validateBlock, hpow, hlink, poolSection_fst]

-- The copy and the removal of an accepted block go to the count of the configuration.
theorem allInBounds_store (s : Sections cfg) (r : ReceivedBlock cfg)
    (h : ∀ t ∈ r.block.transactions, Terminated t) :
    AllInBounds r.block (addAccesses cfg s.ledger ++
      if numBlocks s.ledger ≥ cfg.blockchainBlocks then scanAll s.update r.block.transactions
      else scanAll s.update (r.block.transactions ++ r.heapTail)) ↔
    (numBlocks s.ledger < cfg.blockchainBlocks →
      r.block.transactionsPerBlock.toInt = cfg.transactionsPerBlock) := by
  rw [allInBounds_append, addAccesses]
  by_cases hfull : numBlocks s.ledger ≥ cfg.blockchainBlocks
  · rw [if_pos hfull, if_pos hfull]
    exact iff_of_true ⟨allInBounds_nil, allInBounds_scanAll s.update h⟩
      (fun hroom => absurd hfull (not_le.mpr hroom))
  · have hpos := r.count_pos
    have hle := r.count_le
    rw [if_neg hfull, if_neg hfull, allInBounds_elements, forall_prop_of_true (not_le.mp hfull)]
    constructor
    · rintro ⟨hcount, -⟩
      omega
    · intro hcount
      have htail : r.heapTail = [] := by
        have hheap := r.heap_length
        rw [r.block.transactions_length] at hheap
        exact List.length_eq_zero_iff.mp (by omega)
      rw [htail, List.append_nil]
      exact ⟨by omega, allInBounds_scanAll s.update h⟩

theorem frame_in_bounds_iff (sha : Sha) (att : Attachment cfg) (s : Sections cfg)
    (r : ReceivedBlock cfg) :
    AllInBounds r.block (handleAccesses sha att s r) ↔
      (checked sha att s r.block = true →
        (∀ t ∈ reached s.lookup r.block.transactions, Terminated t) ∧
        (r.block.transactions.all (found s.lookup) = true →
          numBlocks s.ledger < cfg.blockchainBlocks →
          r.block.transactionsPerBlock.toInt = cfg.transactionsPerBlock)) := by
  have hsend : AllInBounds r.block
      (sendAccesses (validateBlock sha att s.tip s.allocated r.block s.lookup).1 r.block) := by
    unfold sendAccesses
    split
    · exact allInBounds_elements.mpr le_rfl
    · exact allInBounds_nil
  rw [handleAccesses, allInBounds_append, and_iff_left hsend, allInBounds_append,
    allInBounds_validate, validateBlock_fst]
  cases hchecked : checked sha att s r.block with
  | false => simp [allInBounds_nil]
  | true =>
    simp only [forall_const, Bool.true_and]
    refine and_congr_right (fun hterm => ?_)
    cases hall : r.block.transactions.all (found s.lookup) with
    | false => simp [allInBounds_nil]
    | true =>
      rw [reached_of_all hall] at hterm
      simpa using allInBounds_store s r hterm

namespace Sample

def shortReceived : ReceivedBlock pairConfig :=
  (admitFrame pairConfig 1 (block 1) 0 [Transaction.zero]).get (by decide)

def longId : Transaction := ⟨List.Vector.replicate txIdLen 1, 1, 0, 0⟩

def longBlock : TransactionBlock :=
  { block 1 with
    transactionsPerBlock := 2
    transactions := [longId, transaction 1]
    transactions_length := rfl }

def longReceived : ReceivedBlock pairConfig :=
  (admitFrame pairConfig 1 longBlock 0 []).get (by decide)

def quietSections : Sections pairConfig :=
  ⟨initLedger, true, reservedSlots, initLedger, reservedSlots⟩

end Sample

-- A block of one transaction where the configuration has two, and an id of sixteen characters.
theorem frame_out_of_bounds :
    (∃ i, Access.element i ∈ handleAccesses (Sample.environment 0).sha Sample.pairAttachment
        Sample.quietSections Sample.shortReceived ∧
      Sample.shortReceived.block.transactionsPerBlock.toInt ≤ i) ∧
    ∃ t ∈ Sample.longReceived.block.transactions, ¬ Terminated t ∧
      Access.string 0 ∈ handleAccesses (Sample.environment 0).sha Sample.pairAttachment
        Sample.quietSections Sample.longReceived := by
  refine ⟨⟨1, by decide +kernel, by decide⟩, Sample.longId, by decide, by decide, ?_⟩
  decide +kernel

end DeiChain
