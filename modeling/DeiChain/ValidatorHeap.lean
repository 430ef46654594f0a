import DeiChain.FrameBounds
import DeiChain.Isolation
import DeiChain.Library.Heap
import DeiChain.TransactionIds

namespace DeiChain

open ByteLayout ByteMemory Heap Transition

variable {cfg : Config}

-- The elements of the two arrays, and the buffer of compute_sha256.
inductive ValidatorBuffer where
  | transaction (i : ℕ)
  | position (i : ℕ)
  | serialized
deriving DecidableEq

-- What validate_block hashes: its block for the log and in verify_nonce, and the last block.
inductive HashedBlock where
  | logged
  | verified
  | last

-- No frame whose transactions find a buffer, one that ends early, or a whole one.
inductive FrameRead (cfg : Config) where
  | unallocated
  | cut (count : ℕ)
  | complete (r : ReceivedBlock cfg)

-- What one turn of validator_main's loop meets; refused tells whose calloc fails.
structure ValidatorTurn (cfg : Config) where
  frame : FrameRead cfg
  refused : HashedBlock → Bool
  sections : Sections cfg

def transactionCells (n : ℕ) : List ValidatorBuffer := (List.range n).map .transaction

def positionCells (n : ℕ) : List ValidatorBuffer := (List.range n).map .position

-- What compute_sha256 leaves when it has no buffer.
def errorHash : List UInt8 := [69, 82, 82, 79, 82]

-- The block hashed has n transactions on the heap; those of a ledger entry are in the segment.
def digestEvents (refused : Bool) (n : ℕ) : List (Event ValidatorBuffer) :=
  if refused then []
  else .alloc .serialized :: (transactionCells n).map .use ++ [.use .serialized, .free .serialized]

-- A string that starts in element i is read up to the first NUL, past the array if it has none.
def stringEvents : ℕ → List Transaction → List (Event ValidatorBuffer)
  | i, [] => [.use (.transaction i)]
  | i, t :: ts =>
    .use (.transaction i) ::
      if 0 ∈ Transaction.layout.encode t then [] else stringEvents (i + 1) ts

-- strlen reads as much of a transaction as any comparison with it.
def lookupEvents {n : ℕ} (slots : Slots n) : ℕ → List Transaction → List (Event ValidatorBuffer)
  | _, [] => []
  | i, t :: ts =>
    stringEvents i (t :: ts) ++
      if t.id = [] then []
      else
        match firstCarrier slots t.id with
        | none => []
        | some _ => .use (.position i) :: lookupEvents slots (i + 1) ts

-- From some transaction that the lookup comes to there is no NUL up to the end of the array.
def RunsOut {n : ℕ} (slots : Slots n) (ts : List Transaction) : Prop :=
  ∃ i < (reached slots ts).length, 0 ∉ encodeAll Transaction.layout (ts.drop i)

def ReceivedBlock.count (r : ReceivedBlock cfg) : ℕ := r.block.transactionsPerBlock.toInt.toNat

namespace ValidatorTurn

variable (sha : Sha) (att : Attachment cfg) (o : ValidatorTurn cfg) (r : ReceivedBlock cfg)

def nonceHolds : Bool := !o.refused .verified && verifyNonce sha r.block

def linkHolds : Bool :=
  if numBlocks o.sections.tip > 0 ∧ o.refused .last = true then
    cString r.block.previousBlockHash.toList == errorHash
  else checkLink sha att o.sections.tip r.block

def accepted : Bool :=
  o.nonceHolds sha r && o.linkHolds sha att r && o.sections.allocated &&
    (lookupLoop o.sections.lookup r.block.transactions).1

def proofEvents : List (Event ValidatorBuffer) :=
  digestEvents (o.refused .logged) r.count ++ digestEvents (o.refused .verified) r.count ++
    (transactionCells r.count).map .use

def linkEvents : List (Event ValidatorBuffer) :=
  if numBlocks o.sections.tip > 0 then digestEvents (o.refused .last) 0 else []

-- A transaction that was found is named in the log when the block is rejected.
def poolEvents : List (Event ValidatorBuffer) :=
  let (valid, positions) := lookupLoop o.sections.lookup r.block.transactions
  if o.sections.allocated then
    (positionCells r.count).map .alloc ++ (positionCells r.count).map .use ++
      lookupEvents o.sections.lookup 0 r.block.transactions ++
      (if valid then []
        else (positionCells r.count).map .use ++ (transactionCells positions.length).map .use) ++
      (positionCells r.count).map .free
  else []

def validateEvents : List (Event ValidatorBuffer) :=
  o.proofEvents r ++
    if o.nonceHolds sha r then
      o.linkEvents ++ if o.linkHolds sha att r then o.poolEvents r else []
    else []

-- The copy and the removal go to the count of the configuration, the restore to the block's own.
def storeEvents : List (Event ValidatorBuffer) :=
  if numBlocks o.sections.ledger ≥ cfg.blockchainBlocks then (transactionCells r.count).map .use
  else (transactionCells cfg.transactionsPerBlock).map .use ++
    (transactionCells cfg.transactionsPerBlock).map .use

def handleEvents : List (Event ValidatorBuffer) :=
  o.validateEvents sha att r ++
    if o.accepted sha att r then o.storeEvents r ++ (transactionCells r.count).map .use else []

def events : List (Event ValidatorBuffer) :=
  match o.frame with
  | .unallocated => []
  | .cut count => (transactionCells count).map .alloc ++ (transactionCells count).map .use ++
      (transactionCells count).map .free
  | .complete r => (transactionCells r.count).map .alloc ++ (transactionCells r.count).map .use ++
      o.handleEvents sha att r ++ (transactionCells r.count).map .free

-- The block comes to the lookup, where a string runs out of the array, or it is stored and has
-- fewer transactions than the configuration tells.
def ReadsOutside : Prop :=
  o.nonceHolds sha r = true ∧ o.linkHolds sha att r = true ∧ o.sections.allocated = true ∧
    (RunsOut o.sections.lookup r.block.transactions ∨
      (lookupLoop o.sections.lookup r.block.transactions).1 = true ∧
        numBlocks o.sections.ledger < cfg.blockchainBlocks ∧ r.count < cfg.transactionsPerBlock)

def OverReads : Prop := ∃ r, o.frame = .complete r ∧ o.ReadsOutside sha att r

end ValidatorTurn

theorem mem_transactionCells {n : ℕ} {p : ValidatorBuffer} :
    p ∈ transactionCells n ↔ ∃ i < n, .transaction i = p := by
  simp [transactionCells]

theorem mem_positionCells {n : ℕ} {p : ValidatorBuffer} :
    p ∈ positionCells n ↔ ∃ i < n, .position i = p := by
  simp [positionCells]

theorem nodup_transactionCells (n : ℕ) : (transactionCells n).Nodup :=
  List.nodup_range.map (fun _ _ h => ValidatorBuffer.transaction.inj h)

theorem nodup_positionCells (n : ℕ) : (positionCells n).Nodup :=
  List.nodup_range.map (fun _ _ h => ValidatorBuffer.position.inj h)

-- What a turn owns while it handles a frame of n transactions, and while it looks them up.
def heldArray (n : ℕ) : Finset ValidatorBuffer := (transactionCells n).toFinset

def heldArrays (n : ℕ) : Finset ValidatorBuffer := heldArray n ∪ (positionCells n).toFinset

theorem mem_heldArray {n : ℕ} {p : ValidatorBuffer} :
    p ∈ heldArray n ↔ ∃ i < n, .transaction i = p := by
  rw [heldArray, List.mem_toFinset, mem_transactionCells]

theorem positionCells_notMem {n : ℕ} : ∀ p ∈ positionCells n, p ∉ heldArray n := by
  intro p hp hmem
  obtain ⟨i, -, rfl⟩ := mem_positionCells.mp hp
  simp [mem_heldArray] at hmem

theorem mem_heldArrays {n j : ℕ} : .transaction j ∈ heldArrays n ↔ j < n := by
  simp [heldArrays, mem_heldArray, mem_positionCells]

theorem positionCells_mem {n : ℕ} : ∀ p ∈ positionCells n, p ∈ heldArrays n :=
  fun _ hp => Finset.mem_union_right _ (List.mem_toFinset.mpr hp)

theorem exec_useArray {h : Finset ValidatorBuffer} {m n : ℕ} (hheld : heldArray n ⊆ h)
    (hle : m ≤ n) : exec h ((transactionCells m).map .use) = some h := by
  rw [exec_map_use, if_pos]
  intro p hp
  obtain ⟨i, hi, rfl⟩ := mem_transactionCells.mp hp
  exact hheld (mem_heldArray.mpr ⟨i, by omega, rfl⟩)

theorem exec_useArray_eq (m n : ℕ) : exec (heldArray n) ((transactionCells m).map .use) =
    if m ≤ n then some (heldArray n) else none := by
  split
  · exact exec_useArray (Finset.Subset.refl _) ‹_›
  · rw [exec_map_use, if_neg]
    intro hall
    obtain ⟨i, hi, heq⟩ := mem_heldArray.mp
      (hall (.transaction n) (mem_transactionCells.mpr ⟨n, by omega, rfl⟩))
    cases heq
    omega

theorem exec_allocArray (n : ℕ) :
    exec ∅ ((transactionCells n).map .alloc) = some (heldArray n) := by
  rw [exec_allocs (nodup_transactionCells n) (fun p _ => Finset.notMem_empty p),
    Finset.empty_union, heldArray]

theorem exec_freeArray (n : ℕ) :
    exec (heldArray n) ((transactionCells n).map .free) = some ∅ := by
  rw [heldArray, exec_frees (nodup_transactionCells n) (fun p hp => List.mem_toFinset.mpr hp),
    Finset.sdiff_self]

theorem exec_allocPositions (n : ℕ) :
    exec (heldArray n) ((positionCells n).map .alloc) = some (heldArrays n) :=
  exec_allocs (nodup_positionCells n) positionCells_notMem

theorem exec_usePositions (n : ℕ) :
    exec (heldArrays n) ((positionCells n).map .use) = some (heldArrays n) := by
  rw [exec_map_use, if_pos positionCells_mem]

theorem exec_freePositions (n : ℕ) :
    exec (heldArrays n) ((positionCells n).map .free) = some (heldArray n) := by
  rw [exec_frees (nodup_positionCells n) positionCells_mem, heldArrays,
    Finset.union_sdiff_cancel_right]
  exact Finset.disjoint_right.mpr (fun p hp => positionCells_notMem p (List.mem_toFinset.mp hp))

theorem exec_digestEvents (refused : Bool) {m n : ℕ} (hle : m ≤ n) :
    exec (heldArray n) (digestEvents refused m) = some (heldArray n) := by
  cases refused with
  | true => rfl
  | false =>
    have hfresh : ValidatorBuffer.serialized ∉ heldArray n := by simp [mem_heldArray]
    have hmem := Finset.mem_insert_self ValidatorBuffer.serialized (heldArray n)
    simp only [digestEvents, Bool.false_eq_true, if_false]
    rw [List.cons_append, exec_alloc hfresh,
      exec_append_of (exec_useArray (Finset.subset_insert _ _) hle), exec_use hmem,
      exec_free hmem, Finset.erase_insert hfresh, exec_nil]

-- The induction runs along the array; the elements from index i on are still to come.
theorem exec_stringEvents {i n : ℕ} {ts : List Transaction} {h : Finset ValidatorBuffer}
    (hcells : ∀ j, .transaction j ∈ h ↔ j < n) (hlen : i + ts.length = n) :
    exec h (stringEvents i ts) =
      if 0 ∈ encodeAll Transaction.layout ts then some h else none := by
  induction ts generalizing i with
  | nil =>
    rw [List.length_nil] at hlen
    exact exec_use_dead (by rw [hcells]; omega)
  | cons t ts ih =>
    rw [List.length_cons] at hlen
    rw [stringEvents, exec_use ((hcells i).mpr (by omega)), encodeAll_cons]
    by_cases hnul : 0 ∈ Transaction.layout.encode t
    · rw [if_pos hnul, if_pos (List.mem_append_left _ hnul), exec_nil]
    · rw [if_neg hnul, ih (by omega)]
      simp only [List.mem_append, hnul, false_or]

theorem runsOut_nil {n : ℕ} (slots : Slots n) : ¬RunsOut slots [] := by
  rintro ⟨i, hi, -⟩
  exact Nat.not_lt_zero i hi

theorem runsOut_cons {n : ℕ} (slots : Slots n) (t : Transaction) (ts : List Transaction) :
    RunsOut slots (t :: ts) ↔ 0 ∉ encodeAll Transaction.layout (t :: ts) ∨
      found slots t = true ∧ RunsOut slots ts := by
  unfold RunsOut
  rw [reached]
  cases found slots t with
  | false => simp
  | true =>
    rw [if_pos rfl, List.length_cons, Nat.exists_lt_succ_left, List.drop_zero]
    simp only [List.drop_succ_cons, true_and]

theorem exec_lookupEvents {m n i : ℕ} (slots : Slots m) {ts : List Transaction}
    {h : Finset ValidatorBuffer} (hcells : ∀ j, .transaction j ∈ h ↔ j < n)
    (hpositions : ∀ j < n, .position j ∈ h) (hlen : i + ts.length = n) :
    (¬RunsOut slots ts ∧ exec h (lookupEvents slots i ts) = some h) ∨
      (RunsOut slots ts ∧ exec h (lookupEvents slots i ts) = none) := by
  induction ts generalizing i with
  | nil => exact .inl ⟨runsOut_nil slots, rfl⟩
  | cons t ts ih =>
    rw [lookupEvents, exec_append, exec_stringEvents hcells hlen]
    rw [List.length_cons] at hlen
    by_cases hnul : 0 ∈ encodeAll Transaction.layout (t :: ts)
    · have hrest : RunsOut slots (t :: ts) ↔ found slots t = true ∧ RunsOut slots ts :=
        (runsOut_cons slots t ts).trans (or_iff_right (not_not_intro hnul))
      rw [if_pos hnul, Option.bind_some, hrest]
      by_cases hid : t.id = []
      · have hnot : found slots t = false := by simp [found, hid]
        exact .inl ⟨by simp [hnot], by rw [if_pos hid, exec_nil]⟩
      · rw [if_neg hid]
        cases hfirst : firstCarrier slots t.id with
        | none =>
          have hnot : found slots t = false := by simp [found, hfirst]
          exact .inl ⟨by simp [hnot], rfl⟩
        | some j =>
          have hyes : found slots t = true := by simp [found, hid, hfirst]
          dsimp only
          rw [exec_use (hpositions i (by omega)), hyes, eq_self_iff_true, true_and]
          exact ih (by omega)
    · exact .inr ⟨(runsOut_cons slots t ts).mpr (.inl hnul),
        by rw [if_neg hnul, Option.bind_none]⟩

namespace ValidatorTurn

variable (sha : Sha) (att : Attachment cfg) (o : ValidatorTurn cfg) (r : ReceivedBlock cfg)

theorem exec_poolEvents (halloc : o.sections.allocated = true) :
    (¬RunsOut o.sections.lookup r.block.transactions ∧
      exec (heldArray r.count) (o.poolEvents r) = some (heldArray r.count)) ∨
    (RunsOut o.sections.lookup r.block.transactions ∧
      exec (heldArray r.count) (o.poolEvents r) = none) := by
  have hlen : 0 + r.block.transactions.length = r.count :=
    (Nat.zero_add _).trans r.block.transactions_length
  have hpositions := length_lookupLoop o.sections.lookup r.block.transactions
  have hundo : exec (heldArrays r.count)
      (if (lookupLoop o.sections.lookup r.block.transactions).1 = true then []
        else (positionCells r.count).map .use ++ (transactionCells
          (lookupLoop o.sections.lookup r.block.transactions).2.length).map .use) =
      some (heldArrays r.count) := by
    split
    · rfl
    · rw [exec_append_of (exec_usePositions _)]
      exact exec_useArray Finset.subset_union_left (by omega)
  unfold poolEvents
  dsimp only
  rw [if_pos halloc, List.append_assoc, List.append_assoc, List.append_assoc,
    exec_append_of (exec_allocPositions _), exec_append_of (exec_usePositions _)]
  rcases exec_lookupEvents (n := r.count) (i := 0) o.sections.lookup (fun _ => mem_heldArrays)
    (fun j hj => positionCells_mem _ (mem_positionCells.mpr ⟨j, hj, rfl⟩)) hlen
    with ⟨hstays, hexec⟩ | ⟨houtside, hexec⟩
  · refine .inl ⟨hstays, ?_⟩
    rw [exec_append_of hexec, exec_append_of hundo]
    exact exec_freePositions _
  · exact .inr ⟨houtside, by rw [exec_append, hexec, Option.bind_none]⟩

theorem exec_storeEvents : exec (heldArray r.count) (o.storeEvents r) =
    if numBlocks o.sections.ledger < cfg.blockchainBlocks ∧ r.count < cfg.transactionsPerBlock
    then none else some (heldArray r.count) := by
  unfold storeEvents
  split
  · rw [if_neg (by omega)]
    exact exec_useArray (Finset.Subset.refl _) le_rfl
  · rw [exec_append, exec_useArray_eq]
    by_cases hle : cfg.transactionsPerBlock ≤ r.count
    · rw [if_pos hle, if_neg (by omega), Option.bind_some, exec_useArray_eq, if_pos hle]
    · rw [if_neg hle, if_pos (by omega), Option.bind_none]

theorem exec_proofEvents :
    exec (heldArray r.count) (o.proofEvents r) = some (heldArray r.count) := by
  rw [proofEvents, List.append_assoc, exec_append_of (exec_digestEvents _ le_rfl),
    exec_append_of (exec_digestEvents _ le_rfl)]
  exact exec_useArray (Finset.Subset.refl _) le_rfl

theorem exec_linkEvents (n : ℕ) : exec (heldArray n) o.linkEvents = some (heldArray n) := by
  unfold linkEvents
  split
  · exact exec_digestEvents _ (Nat.zero_le _)
  · rfl

theorem exec_handleEvents : (¬o.ReadsOutside sha att r ∧
      exec (heldArray r.count) (o.handleEvents sha att r) = some (heldArray r.count)) ∨
    (o.ReadsOutside sha att r ∧ exec (heldArray r.count) (o.handleEvents sha att r) = none) := by
  unfold ReadsOutside handleEvents validateEvents accepted
  rw [List.append_assoc, exec_append_of (o.exec_proofEvents r)]
  cases o.nonceHolds sha r with
  | false => exact .inl ⟨by simp, rfl⟩
  | true =>
    rw [if_pos rfl, List.append_assoc, exec_append_of (o.exec_linkEvents _)]
    cases o.linkHolds sha att r with
    | false => exact .inl ⟨by simp, rfl⟩
    | true =>
      rw [if_pos rfl]
      cases halloc : o.sections.allocated with
      | false => exact .inl ⟨by simp, by simp [poolEvents, halloc]⟩
      | true =>
        rcases o.exec_poolEvents r halloc with ⟨hstays, hexec⟩ | ⟨houtside, hexec⟩
        · rw [exec_append_of hexec]
          cases (lookupLoop o.sections.lookup r.block.transactions).1 with
          | false => exact .inl ⟨by simp [hstays], rfl⟩
          | true =>
            simp only [Bool.and_self, if_true, true_and, hstays, false_or]
            rw [exec_append, o.exec_storeEvents r]
            split
            · exact .inr ⟨‹_›, rfl⟩
            · exact .inl ⟨‹_›, exec_useArray (Finset.Subset.refl _) le_rfl⟩
        · exact .inr ⟨by simp [houtside], by rw [exec_append, hexec, Option.bind_none]⟩

theorem exec_events : (¬o.OverReads sha att ∧ exec ∅ (o.events sha att) = some ∅) ∨
    (o.OverReads sha att ∧ exec ∅ (o.events sha att) = none) := by
  unfold events OverReads
  cases hframe : o.frame with
  | unallocated => exact .inl ⟨by simp, rfl⟩
  | cut count =>
    refine .inl ⟨by simp, ?_⟩
    dsimp only
    rw [List.append_assoc, exec_append_of (exec_allocArray count),
      exec_append_of (exec_useArray (Finset.Subset.refl _) le_rfl)]
    exact exec_freeArray count
  | complete r =>
    simp only [FrameRead.complete.injEq, exists_eq_left']
    have hread := exec_useArray (Finset.Subset.refl (heldArray r.count)) le_rfl
    rw [List.append_assoc, List.append_assoc, exec_append_of (exec_allocArray r.count),
      exec_append_of hread]
    rcases o.exec_handleEvents sha att r with ⟨hinside, hexec⟩ | ⟨houtside, hexec⟩
    · exact .inl ⟨hinside, (exec_append_of hexec).trans (exec_freeArray r.count)⟩
    · exact .inr ⟨houtside, by rw [exec_append, hexec, Option.bind_none]⟩

end ValidatorTurn

theorem not_runsOut {n : ℕ} (slots : Slots n) {ts : List Transaction}
    (h : ∀ t ∈ ts, Terminated t) : ¬RunsOut slots ts := by
  induction ts with
  | nil => exact runsOut_nil slots
  | cons t ts ih =>
    obtain ⟨hfirst, hrest⟩ := List.forall_mem_cons.mp h
    rw [runsOut_cons]
    rintro (hnul | ⟨-, hrun⟩)
    · exact hnul (List.mem_append_left _ (List.mem_append_left _ hfirst))
    · exact ih hrest hrun

-- The transactions handed in are those of generators.
def HandsGenerated {k : ℕ} (_ : State cfg k) (l : Label cfg k) : Prop :=
  ∀ tx, l = .shared (.add tx) → ∃ pid counter, GeneratedBy pid counter tx

theorem reserved_terminated {k : ℕ} {env : Environment cfg} {s : State cfg k}
    (h : Reachable (step env) HandsGenerated (initState cfg k) s) :
    ∀ g, ∀ r ∈ s.reserved g, Terminated r.2 := by
  refine h.invariant_along (I := fun s => ∀ g, ∀ r ∈ s.reserved g, Terminated r.2)
    (fun g r hr => by cases g <;> cases hr) ?_
  intro a l b hreach ha hallow hstep g r hr
  rcases step_reserved hstep hr with ⟨g', hold⟩ | ⟨-, hnew⟩
  · exact ha g' r hold
  · exact hnew ▸ pool_ids_terminated hreach (fun _ tx hadd => hadd tx rfl) r.1

theorem Message.count_received (msg : Message cfg) (heapPtr : UInt64) :
    (msg.received heapPtr).count = cfg.transactionsPerBlock := by
  rw [ReceivedBlock.count, ← TransactionBlock.transactions_length, msg.received_transactions,
    List.length_map, List.Vector.toList_length]

-- A validator frees each of its buffers once, uses no element outside them and leaves none behind,
-- unless an id has no end or a block that it stores is too short; what the miners send is neither.
theorem validator_heap_clean_iff (sha : Sha) (att : Attachment cfg)
    (os : List (ValidatorTurn cfg)) (env : Environment cfg) (k : ℕ) :
    (Clean (os.flatMap (fun o => o.events sha att)) ↔ ∀ o ∈ os, ¬o.OverReads sha att) ∧
      ((∀ o ∈ os, ∀ r, o.frame = .complete r → ∃ (s : State cfg k) (i : ℕ) (msg : Message cfg)
          (heapPtr : UInt64), Reachable (step env) HandsGenerated (initState cfg k) s ∧
            s.pipe i = some msg ∧ r = msg.received heapPtr) →
        Clean (os.flatMap (fun o => o.events sha att))) := by
  have hclean := clean_flatMap_iff (fun o (_ : o ∈ os) => o.exec_events sha att)
  refine ⟨hclean, fun hmined => hclean.mpr (fun o ho => ?_)⟩
  rintro ⟨r, hframe, -, -, -, hwrong⟩
  obtain ⟨s, i, msg, heapPtr, hs, hpipe, rfl⟩ := hmined o ho r hframe
  rcases hwrong with hruns | ⟨-, -, hshort⟩
  · refine not_runsOut _ (fun t ht => ?_) hruns
    rw [msg.received_transactions] at ht
    obtain ⟨reserved, hmem, rfl⟩ := List.mem_map.mp ht
    refine reserved_terminated hs (.pipe i) reserved ?_
    change reserved ∈ pipeReserved (s.pipe i)
    rwa [hpipe]
  · rw [msg.count_received] at hshort
    exact Nat.lt_irrefl _ hshort

end DeiChain
