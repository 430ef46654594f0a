import DeiChain.Chain
import DeiChain.Difficulty
import DeiChain.Serialization

namespace DeiChain

open ByteLayout ByteMemory HashChain

theorem digest_inj {sha : Sha} {b b' : TransactionBlock}
    (hsha : sha (serializeBlock b) = sha (serializeBlock b') → serializeBlock b = serializeBlock b')
    (h : (linking sha).digest b = (linking sha).digest b') : b = b' :=
  serializeBlock_injective (hsha (cString_hexDigest_injective h))

theorem tip_ledgerBlocks {sha : Sha} {cfg : Config} {att : Attachment cfg} {m : Memory}
    (hpos : 0 < numBlocks m) : (linking sha).tip (ledgerBlocks att m) =
      cString (computeSha256 sha (loadBlock att m (numBlocks m - 1))).toList := by
  have hlast : (ledgerBlocks att m).getLast? = some (loadBlock att m (numBlocks m - 1)) := by
    have hcast : (((numBlocks m).toNat - 1 : ℕ) : ℤ) = numBlocks m - 1 := by omega
    have hne : (numBlocks m).toNat ≠ 0 := by omega
    rw [ledgerBlocks, List.getLast?_map, List.getLast?_range, if_neg hne, Option.map_some, hcast]
  rw [Linking.tip, hlast]
  rfl

theorem tamper_evident {sha : Sha} {cfg cfg' : Config} {att : Attachment cfg}
    {att' : Attachment cfg'} {m m' : Memory} (hpos : 0 < numBlocks m)
    (hlen : numBlocks m = numBlocks m') (hchain : HashChained sha att m)
    (hchain' : HashChained sha att' m')
    (hsha : Set.InjOn sha
      {x | ∃ b ∈ ledgerBlocks att m ++ ledgerBlocks att' m', serializeBlock b = x})
    (hlast : computeSha256 sha (loadBlock att m (numBlocks m - 1)) =
      computeSha256 sha (loadBlock att' m' (numBlocks m' - 1))) :
    ∀ i : ℕ, (i : ℤ) < numBlocks m → loadBlock att m i = loadBlock att' m' i := by
  have hblocks : ledgerBlocks att m = ledgerBlocks att' m' := by
    refine (linking sha).eq_of_tip_eq ?_ (hashChained_iff_linked.mp hchain)
      (hashChained_iff_linked.mp hchain') ?_ ?_
    · simp [ledgerBlocks, hlen]
    · intro a ha b hb
      exact digest_inj (fun heq => hsha ⟨a, List.mem_append_left _ ha, rfl⟩
        ⟨b, List.mem_append_right _ hb, rfl⟩ heq)
    · rw [tip_ledgerBlocks hpos, tip_ledgerBlocks (hlen ▸ hpos), hlast]
  intro i hi
  rw [ledgerBlocks, ledgerBlocks, ← hlen] at hblocks
  exact List.map_inj_left.mp hblocks i (List.mem_range.mpr (by omega))

namespace Sample

def elsewhere (spare : Fin 2) : Attachment (config spare) := ⟨4096, by revert spare; decide⟩

-- The first block's text has a hash of its own.
def telling : Sha := fun x =>
  List.Vector.replicate 32 (if x = serializeBlock (block 1) then 1 else 2)

def linkedBlock : TransactionBlock :=
  { block 2 with previousBlockHash := computeSha256 telling (block 1) }

variable {spare : Fin 2}

def successor : ReceivedBlock (config spare) where
  minerId := 1
  block := linkedBlock
  heapPtr := 0
  heapTail := []
  count_pos := (@received spare 2).count_pos
  count_le := (@received spare 2).count_le
  txbId_nul := (@received spare 2).txbId_nul
  previousBlockHash_nul := rfl
  heap_length := (@received spare 2).heap_length

def twoBlocks (att : Attachment (config spare)) : Memory :=
  appendBlock att successor (appendBlock att (received 1) initLedger)

theorem twoBlocks_represents (att : Attachment (config 1)) :
    Represents att (twoBlocks att) [block 1, linkedBlock] :=
  (represents_initLedger.append (r := received 1)
    (addressable_of_lt (by decide) (by decide))).append (r := successor)
      (addressable_of_lt (by decide) (by decide))

theorem twoBlocks_chained (att : Attachment (config 1)) :
    HashChained telling att (twoBlocks att) := by
  rw [(twoBlocks_represents att).hashChained_iff, ← List.nil_append [block 1, _],
    ← List.singleton_append, ← List.append_assoc, Linking.linked_concat, Linking.linked_concat]
  exact ⟨⟨Linking.linked_nil _,
    (by decide : cString (block 1).previousBlockHash.toList = initialHash)⟩, rfl⟩

theorem telling_block : (telling (serializeBlock (block 1))).head = 1 := by
  rw [telling, if_pos rfl]
  rfl

theorem telling_linkedBlock : (telling (serializeBlock linkedBlock)).head = 2 := by
  have hdiffer : serializeBlock linkedBlock ≠ serializeBlock (block 1) :=
    fun heq => absurd (congrArg TransactionBlock.transactions (serializeBlock_injective heq))
      (by decide)
  rw [telling, if_neg hdiffer]
  rfl

theorem telling_injOn :
    Set.InjOn telling {x | ∃ b ∈ [block 1, linkedBlock], serializeBlock b = x} := by
  rintro x ⟨a, ha, rfl⟩ y ⟨b, hb, rfl⟩ heq
  have hheads := congrArg List.Vector.head heq
  rcases List.mem_pair.mp ha with rfl | rfl <;> rcases List.mem_pair.mp hb with rfl | rfl
  · rfl
  · rw [telling_block, telling_linkedBlock] at hheads
    cases hheads
  · rw [telling_block, telling_linkedBlock] at hheads
    cases hheads
  · rfl

end Sample

theorem tamper_evident_two_segments :
    loadBlock (Sample.environment 1).att (Sample.twoBlocks (Sample.environment 1).att) (0 : ℕ) =
        loadBlock (Sample.elsewhere 1) (Sample.twoBlocks (Sample.elsewhere 1)) (0 : ℕ) ∧
      loadBlock (Sample.environment 1).att (Sample.twoBlocks (Sample.environment 1).att) (1 : ℕ) =
        loadBlock (Sample.elsewhere 1) (Sample.twoBlocks (Sample.elsewhere 1)) (1 : ℕ) := by
  have hrep := Sample.twoBlocks_represents (Sample.environment 1).att
  have hrep' := Sample.twoBlocks_represents (Sample.elsewhere 1)
  have hpos : (0 : ℤ) < numBlocks (Sample.twoBlocks (Sample.environment 1).att) := by
    rw [hrep.count]
    decide
  have hlast : ∀ att : Attachment (Sample.config 1), loadBlock att (Sample.twoBlocks att)
      (numBlocks (Sample.twoBlocks att) - 1) = Sample.linkedBlock := by
    intro att
    rw [(Sample.twoBlocks_represents att).count]
    exact (Sample.twoBlocks_represents att).loadBlock_eq (i := 1) (by decide)
  have hall := tamper_evident hpos (by rw [hrep.count, hrep'.count])
    (Sample.twoBlocks_chained _) (Sample.twoBlocks_chained (Sample.elsewhere 1))
    (Sample.telling_injOn.mono (by
      rw [hrep.ledgerBlocks_eq, hrep'.ledgerBlocks_eq]
      rintro x ⟨b, hb, rfl⟩
      exact ⟨b, (List.mem_append.mp hb).elim id id, rfl⟩)) (by rw [hlast, hlast])
  rw [hrep.count] at hall
  exact ⟨hall 0 (by decide), hall 1 (by decide)⟩

end DeiChain
