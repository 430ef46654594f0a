import DeiChain.Calls
import DeiChain.Rejection

namespace DeiChain

open ByteLayout ByteMemory Transition

variable {n : ℕ} {cfg : Config} {k : ℕ} {env : Environment cfg}

def Present (slots : Slots n) (t : Transaction) : Prop := t.id ≠ [] ∧ Carried slots t

def LinkRight (sha : Sha) (att : Attachment cfg) (m : Memory) (b : TransactionBlock) : Prop :=
  cString b.previousBlockHash.toList =
    if 0 < numBlocks m then
      cString (computeSha256 sha (loadBlock att m (numBlocks m - 1))).toList
    else initialHash

structure Acceptable (sha : Sha) (att : Attachment cfg) (m : Memory) (b : TransactionBlock)
    (slots : Slots n) : Prop where
  work : verifyNonce sha b = true
  link : LinkRight sha att m b
  present : ∀ t ∈ b.transactions, Present slots t

-- The slot is the first that carries a transaction in front of the first one missing.
structure Undone (sha : Sha) (att : Attachment cfg) (m : Memory) (b : TransactionBlock)
    (slots : Slots n) (i : Fin n) : Prop where
  work : verifyNonce sha b = true
  link : LinkRight sha att m b
  first : ∃ pre t post, b.transactions = pre ++ t :: post ∧ (∀ u ∈ pre ++ [t], Present slots u) ∧
    (slots i).transaction.id = t.id ∧ ∀ j < i, (slots j).transaction.id ≠ t.id

theorem present_iff {slots : Slots n} {t : Transaction} :
    Present slots t ↔ found slots t = true := found_iff.symm

theorem checkLink_iff {sha : Sha} {att : Attachment cfg} {m : Memory} {b : TransactionBlock} :
    checkLink sha att m b = true ↔ LinkRight sha att m b := by
  unfold checkLink LinkRight
  split <;> exact beq_iff_eq

theorem mem_takeWhile_iff {α : Type*} {p : α → Bool} {l : List α} {a : α} :
    a ∈ l.takeWhile p ↔ ∃ pre post, l = pre ++ a :: post ∧ ∀ u ∈ pre ++ [a], p u = true := by
  constructor
  · intro h
    obtain ⟨pre, post, hsplit⟩ := List.append_of_mem h
    refine ⟨pre, post ++ l.dropWhile p, ?_, fun u hu => ?_⟩
    · calc l = l.takeWhile p ++ l.dropWhile p := List.takeWhile_append_dropWhile.symm
        _ = pre ++ a :: (post ++ l.dropWhile p) := by
          rw [hsplit, List.append_assoc, List.cons_append]
    · have hmem : u ∈ l.takeWhile p := by
        rw [hsplit]
        rcases List.mem_append.mp hu with hu | hu
        · exact List.mem_append_left _ hu
        · exact List.mem_append_right _ (List.mem_singleton.mp hu ▸ List.mem_cons_self)
      exact List.mem_takeWhile_imp hmem
  · rintro ⟨pre, post, rfl, hall⟩
    rw [List.append_cons, List.takeWhile_append_of_pos hall]
    simp

theorem undone_iff {sha : Sha} {att : Attachment cfg} {m : Memory} {b : TransactionBlock}
    {slots : Slots n} (hwork : verifyNonce sha b = true) (hlink : LinkRight sha att m b)
    {i : Fin n} : Undone sha att m b slots i ↔
      ∃ t ∈ b.transactions.takeWhile (found slots), firstCarrier slots t.id = some i := by
  simp only [mem_takeWhile_iff, firstCarrier_eq_some]
  constructor
  · rintro ⟨-, -, pre, t, post, hsplit, hpresent, hfirst⟩
    exact ⟨t, ⟨pre, post, hsplit, fun u hu => present_iff.mp (hpresent u hu)⟩, hfirst⟩
  · rintro ⟨t, ⟨pre, post, hsplit, hfound⟩, hfirst⟩
    exact ⟨hwork, hlink, pre, t, post, hsplit, fun u hu => present_iff.mpr (hfound u hu), hfirst⟩

theorem validateBlock_accepts_iff {sha : Sha} {att : Attachment cfg} {m : Memory}
    {b : TransactionBlock} {slots : Slots n} :
    (validateBlock sha att m true b slots).1 = true ↔ Acceptable sha att m b slots := by
  constructor
  · intro h
    unfold validateBlock at h
    split at h
    · cases h
    · rename_i hwork
      split at h
      · cases h
      · rename_i hlink
        rw [if_neg (by decide), poolSection_fst, List.all_eq_true] at h
        refine ⟨by simpa using hwork, checkLink_iff.mp (by simpa using hlink), fun t ht => ?_⟩
        exact present_iff.mpr (h t ht)
  · rintro ⟨hwork, hlink, hpresent⟩
    have hall : b.transactions.all (found slots) = true :=
      List.all_eq_true.mpr (fun t ht => present_iff.mp (hpresent t ht))
    simp [validateBlock, hwork, checkLink_iff.mpr hlink, poolSection_fst, hall]

theorem validateBlock_accepted_slots {sha : Sha} {att : Attachment cfg} {m : Memory}
    {b : TransactionBlock} {slots : Slots n} (h : Acceptable sha att m b slots) :
    (validateBlock sha att m true b slots).2 = slots := by
  have hall : b.transactions.all (found slots) = true :=
    List.all_eq_true.mpr (fun t ht => present_iff.mp (h.present t ht))
  simp [validateBlock, h.work, checkLink_iff.mpr h.link, poolSection, lookupLoop_eq, hall]

theorem validateBlock_rejected_slots {sha : Sha} {att : Attachment cfg} {m : Memory}
    {b : TransactionBlock} {slots : Slots n} (h : ¬ Acceptable sha att m b slots) (i : Fin n) :
    (Undone sha att m b slots i →
      (validateBlock sha att m true b slots).2 i = (slots i).setEmpty false) ∧
    (¬ Undone sha att m b slots i → (validateBlock sha att m true b slots).2 i = slots i) := by
  by_cases hwork : verifyNonce sha b = true
  · by_cases hlink : LinkRight sha att m b
    · have hmissing : ∃ t ∈ b.transactions, found slots t = false := by
        by_contra hall
        refine h ⟨hwork, hlink, fun t ht => present_iff.mpr ?_⟩
        exact Bool.not_eq_false _ ▸ fun hfalse => hall ⟨t, ht, hfalse⟩
      have hsection : (validateBlock sha att m true b slots).2 i =
          (poolSection b.transactions slots).2 i := by
        simp [validateBlock, hwork, checkLink_iff.mpr hlink]
      rw [hsection, poolSection_apply, undone_iff hwork hlink]
      simp only [hmissing, true_and]
      exact ⟨fun hin => if_pos hin, fun hout => if_neg hout⟩
    · refine ⟨fun hundone => absurd hundone.link hlink, fun _ => ?_⟩
      have hfalse : checkLink sha att m b = false :=
        Bool.eq_false_iff.mpr (fun hcheck => hlink (checkLink_iff.mp hcheck))
      simp [validateBlock, hwork, hfalse]
  · exact ⟨fun hundone => absurd hundone.work hwork, fun _ => by simp [validateBlock, hwork]⟩

theorem validate_block_verdict {s : State cfg k} {v : Fin k} {d : Delivery cfg}
    (hv : s.validators v = .received d) :
    ∃ valid slots, validateBlock env.sha env.att s.ledger true d.received.block s.pool.slots =
        (valid, slots) ∧
      Reachable (step env) (Validates v) s (s.setValidator (s.toShared.setSlots slots) v
        (if valid then .accepted d s.committed.length else .idle)) ∧
      (valid = true ↔ Acceptable env.sha env.att s.ledger d.received.block s.pool.slots) ∧
      (valid = true → slots = s.pool.slots) ∧
      (valid = false → ∀ i,
        (Undone env.sha env.att s.ledger d.received.block s.pool.slots i →
          slots i = (s.pool.slots i).setEmpty false) ∧
        (¬ Undone env.sha env.att s.ledger d.received.block s.pool.slots i →
          slots i = s.pool.slots i)) := by
  obtain ⟨⟨valid, slots⟩, hresult⟩ : ∃ result, validateBlock env.sha env.att s.ledger true
      d.received.block s.pool.slots = result := ⟨_, rfl⟩
  have hiff := @validateBlock_accepts_iff _ _ env.sha env.att s.ledger d.received.block s.pool.slots
  refine ⟨valid, slots, hresult, reachable_verdict hv hresult, ?_, ?_, ?_⟩
  · rw [← hiff, hresult]
  · intro hvalid
    rw [hresult] at hiff
    have hslots := validateBlock_accepted_slots (hiff.mp hvalid)
    rwa [hresult] at hslots
  · intro hinvalid i
    rw [hresult] at hiff
    have hnot : ¬ Acceptable env.sha env.att s.ledger d.received.block s.pool.slots := by
      rw [← hiff, hinvalid]
      exact Bool.false_ne_true
    have hslots := validateBlock_rejected_slots hnot i
    rwa [hresult] at hslots

theorem validate_block_verdict_accepts :
    ∃ (s : State (Sample.config 1) 1) (d : Delivery (Sample.config 1)),
      s.validators 0 = .received d ∧ Acceptable (Sample.environment 1).sha
        (Sample.environment 1).att s.ledger d.received.block s.pool.slots := by
  let d : Delivery (Sample.config 1) := ⟨Sample.received 1, [], by simp⟩
  let s : State (Sample.config 1) 1 := (initState _ 1).setValidator
    ((initState _ 1).toShared.add (Sample.transaction 1)) 0 (.received d)
  have hv : s.validators 0 = .received d := rfl
  obtain ⟨valid, slots, hresult, -, hiff, -, -⟩ :=
    @validate_block_verdict _ _ (Sample.environment 1) s 0 d hv
  have haccepted : (validateBlock (Sample.environment 1).sha (Sample.environment 1).att s.ledger
      true d.received.block s.pool.slots).1 = true := by decide +kernel
  rw [hresult] at haccepted
  exact ⟨s, d, hv, hiff.mp haccepted⟩

end DeiChain
