import DeiChain.Atomicity
import DeiChain.LedgerDump
import DeiChain.Segment

namespace DeiChain

open ByteLayout ByteMemory Critical Transition Turns

variable {cfg : Config} {γ k : ℕ} {env : Environment cfg} {sc : Scope}

theorem Later.committed_prefix {s t : FineState env γ k} (h : Later sc s t) :
    s.rest.committed <+: t.rest.committed := by
  refine Reachable.invariant (I := fun t => s.rest.committed <+: t.rest.committed) h
    List.prefix_rfl ?_
  intro a l b ha _ hstep
  cases move_of_step hstep with
  | plain hc hplain => exact (plain_history hplain).2 ▸ ha
  | last hc => exact ha.trans (finish_committed env _ _ _ _ _)
  | _ => exact ha

-- The bytes of an entry are written once.
theorem entry_frozen {s t : State cfg k} (hsc : sc.spacious = true)
    (hrep : Represents env.att s.ledger s.committed)
    (h : Reachable (step env) (Permitted sc) s t) {i : ℕ} (hi : i < s.committed.length)
    {x : ℤ} (hx : EntryBytes cfg i x) : t.ledger x = s.ledger x := by
  have hpos := entryBytes_pos (hrep.addressable i hi).product hx
  have hall : Represents env.att t.ledger t.committed ∧ i < t.committed.length ∧
      t.ledger x = s.ledger x := by
    refine h.invariant (I := fun t => Represents env.att t.ledger t.committed ∧
      i < t.committed.length ∧ t.ledger x = s.ledger x) ⟨hrep, hi, rfl⟩ ?_
    rintro a l b ⟨ha, hlt, hsame⟩ hallow hstep
    rcases step_chain hstep with ⟨v, d, tip, rfl, -, hledger, hcommitted, -⟩ |
      ⟨hledger, hcommitted, -⟩
    · obtain ⟨n, hcount, hn⟩ := (hallow.room hsc).hasRoom
      obtain rfl : n = a.committed.length := by exact_mod_cast hcount.symm.trans ha.count
      rw [hledger, hcommitted]
      refine ⟨ha.append hn, by simp; omega, Eq.trans ?_ hsame⟩
      exact appendBlock_frame hn ha.count (.inr hpos)
        (entryBytes_disjoint (ha.addressable i hlt) hn (by omega) hx)
    · rw [hledger, hcommitted]
      exact ⟨ha, hlt, hsame⟩
  exact hall.2.2

theorem ledger_seen_entry {s : FineState env γ k} {w : Critical.Whole (fineCode env γ k)}
    (hsc : sc.spacious = true) (hsim : Simulates (rules env γ k sc) s w)
    (hrep : Represents env.att (w.data .ledger) w.rest.committed) {i : ℕ}
    (hi : i < w.rest.committed.length) {x : ℤ} (hx : EntryBytes cfg i x) :
    s.data .ledger x = w.data .ledger x := by
  rcases ledger_seen hsc hsim hrep with hsame | ⟨hn, huntouched⟩
  · rw [hsame]
  · exact huntouched x (entryBytes_disjoint (hrep.addressable i hi) hn (by omega) hx)

theorem fine_entry_frozen {s t : FineState env γ k} (hsc : sc.spacious = true)
    (hs : FineReachable sc s) (h : Later sc s t) {i : ℕ} (hi : i < s.rest.committed.length) {x : ℤ}
    (hx : EntryBytes cfg i x) : t.data .ledger x = s.data .ledger x := by
  obtain ⟨w, hreach, hsim⟩ := hs.simulated
  obtain ⟨w', hw, hsim'⟩ := simulates_reachable hs.exclusive hsim h
  have hlater := reachable_of_wholeMoves hw
  have hrep : Represents env.att (w.data .ledger) w.rest.committed :=
    represents_of_permitted hsc hreach
  have hrep' : Represents env.att (w'.data .ledger) w'.rest.committed :=
    represents_of_permitted hsc (hreach.trans hlater)
  have hlen := h.committed_prefix.length_le
  rw [hsim.rest] at hi hlen
  rw [hsim'.rest] at hlen
  rw [ledger_seen_entry hsc hsim hrep hi hx,
    ledger_seen_entry hsc hsim' hrep' (hi.trans_le hlen) hx]
  exact entry_frozen hsc hrep hlater hi hx

-- What is read while the others move: every byte is that of some moment in between.
def Torn (sc : Scope) (s t : FineState env γ k) (m : Memory) : Prop :=
  ∀ x, ∃ u, Later sc s u ∧ Later sc u t ∧ m x = u.data .ledger x

-- The lines of the dump when the given number of blocks is printed.
def dumpedLines (cfg : Config) (printed : ℕ) : ℕ :=
  ledgerHead.length + printed * (8 + cfg.transactionsPerBlock)

-- The loop of dump_ledger, which takes no mutex: the other parties may move between any two of
-- its reads. It began in state s and has come to index j in state t. Of a block whose lines do
-- not fit into the messages nothing is said.
inductive Dumping (sc : Scope) (s : FineState env γ k) :
    FineState env γ k → ℕ → List DumpedBlock → Prop
  | start : Dumping sc s s 0 []
  | wait {t u : FineState env γ k} {j : ℕ} {out : List DumpedBlock}
      (h : Dumping sc s t j out) (hlater : Later sc t u) : Dumping sc s u j out
  | skip {t u : FineState env γ k} {m : Memory} {j : ℕ} {out : List DumpedBlock}
      (h : Dumping sc s t j out) (htest : (j : ℤ) < numBlocks (t.data .ledger))
      (hlater : Later sc t u) (hread : Torn sc t u m) (hvalid : loadValid m j = 0) :
      Dumping sc s u (j + 1) out
  | print {t u : FineState env γ k} {m : Memory} {j : ℕ} {out : List DumpedBlock}
      (h : Dumping sc s t j out) (htest : (j : ℤ) < numBlocks (t.data .ledger))
      (hlater : Later sc t u) (hread : Torn sc t u m) (hvalid : loadValid m j ≠ 0)
      (hfits : dumpedLines cfg (out.length + 1) ≤ maxLedgerLines) :
      Dumping sc s u (j + 1) (out ++ [dumpBlock cfg m j])

theorem Dumping.later {s t : FineState env γ k} {j : ℕ} {out : List DumpedBlock}
    (h : Dumping sc s t j out) : Later sc s t := by
  induction h with
  | start => exact .refl s
  | wait _ hlater ih => exact ih.trans hlater
  | skip _ _ hlater _ _ ih => exact ih.trans hlater
  | print _ _ hlater _ _ _ ih => exact ih.trans hlater

-- A block of fewer transactions is printed with what lies behind them.
def Shows (b : TransactionBlock) (i : ℕ) (d : DumpedBlock) : Prop :=
  d = { b.dumped i with transactions := d.transactions } ∧ b.transactions <+: d.transactions

theorem loadAll_prefix {α : Type} (L : ByteLayout α) (m : Memory) (a : ℤ) {n n' : ℕ} (h : n ≤ n') :
    loadAll L m a n <+: loadAll L m a n' := by
  have hrange : List.range n = (List.range n').take n := by
    rw [List.take_range, Nat.min_eq_left h]
  rw [loadAll_eq_map, loadAll_eq_map, hrange, List.map_take]
  exact List.take_prefix n _

theorem EntryHolds.shows {att : Attachment cfg} {m : Memory} {i : ℕ} {b : TransactionBlock}
    (h : EntryHolds att m i b) (hlen : b.transactions.length ≤ cfg.transactionsPerBlock) :
    Shows b i (dumpBlock cfg m i) := by
  refine ⟨?_, ?_⟩
  · simp only [dumpBlock, h.header]
    rfl
  · have hpre := loadAll_prefix Transaction.layout m (transactionsOffset cfg i) hlen
    rwa [h.transactions] at hpre

theorem torn_entry {s₁ s₂ : FineState env γ k} {m : Memory} {i : ℕ}
    (hsc : sc.spacious = true) (hs : FineReachable sc s₁) (hread : Torn sc s₁ s₂ m)
    (hi : i < s₁.rest.committed.length) :
    EntryHolds env.att m i s₁.rest.committed[i] := by
  have hrep := represents_always hsc hs
  refine (hrep.entries i hi).congr (hrep.lengths _ (List.getElem_mem hi)).2 (fun x hx => ?_)
  obtain ⟨u, hu, -, hx'⟩ := hread x
  rw [hx']
  exact fine_entry_frozen hsc hs hu hi hx

theorem committed_getElem_later {s t : FineState env γ k} (h : Later sc s t) {i : ℕ}
    (hi : i < s.rest.committed.length) (hi' : i < t.rest.committed.length) :
    t.rest.committed[i] = s.rest.committed[i] := (h.committed_prefix.getElem hi).symm

def ShowsAll (t : FineState env γ k) (out : List DumpedBlock) : Prop :=
  ∀ i (hi : i < out.length) (hi' : i < t.rest.committed.length),
    Shows t.rest.committed[i] i out[i]

theorem ShowsAll.later {t u : FineState env γ k} {out : List DumpedBlock} (h : ShowsAll t out)
    (hle : out.length ≤ t.rest.committed.length) (hlater : Later sc t u) : ShowsAll u out := by
  intro i hi hi'
  rw [committed_getElem_later hlater (hi.trans_le hle) hi']
  exact h i hi (hi.trans_le hle)

theorem ShowsAll.concat {t : FineState env γ k} {out : List DumpedBlock} {d : DumpedBlock}
    (h : ShowsAll t out) (hd : ∀ hlt : out.length < t.rest.committed.length,
      Shows t.rest.committed[out.length] out.length d) : ShowsAll t (out ++ [d]) := by
  intro i hi hi'
  rw [List.length_append, List.length_singleton] at hi
  rcases Nat.lt_succ_iff_lt_or_eq.mp hi with hlt | rfl
  · rw [List.getElem_append_left hlt]
    exact h i hlt hi'
  · rw [List.getElem_append_right (Nat.le_refl _)]
    simpa using hd hi'

-- Whatever a turn of the loop reads, the entry it looks at is a whole committed block.
theorem torn_shows {t u : FineState env γ k} {m : Memory} {j : ℕ} (hsc : sc.spacious = true)
    (ht : FineReachable sc t) (hread : Torn sc t u m)
    (htest : (j : ℤ) < numBlocks (t.data .ledger)) :
    loadValid m j ≠ 0 ∧ ∃ hlt : j < t.rest.committed.length,
      Shows t.rest.committed[j] j (dumpBlock cfg m j) := by
  have hrep := represents_always hsc ht
  rw [hrep.count] at htest
  have hlt : j < t.rest.committed.length := by exact_mod_cast htest
  have hentry := torn_entry hsc ht hread hlt
  exact ⟨by rw [hentry.valid]; decide, hlt,
    hentry.shows (hrep.lengths _ (List.getElem_mem hlt)).2⟩

theorem Dumping.shows {s t : FineState env γ k} {j : ℕ} {out : List DumpedBlock}
    (hsc : sc.spacious = true) (hs : FineReachable sc s) (h : Dumping sc s t j out) :
    j = out.length ∧ j ≤ t.rest.committed.length ∧ ShowsAll t out := by
  induction h with
  | start => exact ⟨rfl, Nat.zero_le _, fun i hi => absurd hi (Nat.not_lt_zero i)⟩
  | @wait t u j out h hlater ih =>
    obtain ⟨rfl, hle, hshows⟩ := ih
    exact ⟨rfl, hle.trans hlater.committed_prefix.length_le, hshows.later hle hlater⟩
  | @skip t u m j out h htest hlater hread hvalid ih =>
    exact absurd hvalid (torn_shows hsc (hs.trans h.later) hread htest).1
  | @print t u m j out h htest hlater hread hvalid hfits ih =>
    obtain ⟨rfl, hle, hshows⟩ := ih
    obtain ⟨-, hlt, hshow⟩ := torn_shows hsc (hs.trans h.later) hread htest
    refine ⟨by simp, hlt.trans_le hlater.committed_prefix.length_le, ?_⟩
    refine (hshows.later hle hlater).concat (fun hlt' => ?_)
    rw [committed_getElem_later hlater hlt hlt']
    exact hshow

theorem Represents.length_le {att : Attachment cfg} {m : Memory} {blocks : List TransactionBlock}
    (h : Represents att m blocks) : blocks.length ≤ cfg.blockchainBlocks := by
  rcases Nat.eq_zero_or_pos blocks.length with hzero | hpos
  · omega
  · have hlast := (h.addressable (blocks.length - 1) (by omega)).lt
    omega

-- A dump of the ledger that takes no mutex shows a prefix of the chain, each block whole, and the
-- whole chain when it ends. While its lines fit every turn takes it one block further.
theorem unlocked_dump_shows_chain {honest : Bool} {s t : FineState env γ k} {j : ℕ}
    {out : List DumpedBlock} (hs : FineReachable ⟨honest, true⟩ s)
    (h : Dumping ⟨honest, true⟩ s t j out) :
    j = out.length ∧ j ≤ t.rest.committed.length ∧
      t.rest.committed.length ≤ cfg.blockchainBlocks ∧ ShowsAll t out ∧
      (numBlocks (t.data .ledger) ≤ j →
        s.rest.committed.length ≤ j ∧ j = t.rest.committed.length) ∧
      ((j : ℤ) < numBlocks (t.data .ledger) → dumpedLines cfg (j + 1) ≤ maxLedgerLines →
        ∀ u m, Later ⟨honest, true⟩ t u → Torn ⟨honest, true⟩ t u m →
          Dumping ⟨honest, true⟩ s u (j + 1) (out ++ [dumpBlock cfg m j])) := by
  have ht : FineReachable ⟨honest, true⟩ t := hs.trans h.later
  have hrep := represents_always rfl ht
  obtain ⟨hlen, hle, hshows⟩ := h.shows rfl hs
  refine ⟨hlen, hle, hrep.length_le, hshows, fun hend => ?_, fun htest hfits u m hlater hread => ?_⟩
  · rw [hrep.count] at hend
    have hall : t.rest.committed.length ≤ j := by exact_mod_cast hend
    exact ⟨h.later.committed_prefix.length_le.trans hall, hle.antisymm hall⟩
  · exact h.print htest hlater hread (torn_shows rfl ht hread htest).1 (hlen ▸ hfits)

namespace Sample

variable {spare : Fin 2}

def appendFinished : List (FineLabel spare) :=
  List.replicate 4 (.turn validator) ++ [.leave validator]

theorem exists_appended : ∃ s t : FineState (environment 1) 1 2, FineReachable honestOnly s ∧
    Later honestOnly s t ∧ s.rest.committed.length = 0 ∧ t.rest.committed.length = 1 := by
  have hsome : ((runAllowed Critical.step (Allowed (rules (environment 1) 1 2 honestOnly))
      (initWhole _ 1 2).toState halfAppended).bind (fun s =>
        (runAllowed Critical.step (Allowed (rules (environment 1) 1 2 honestOnly)) s
          appendFinished).map (fun t => (s.rest.committed.length, t.rest.committed.length)))) =
        some (0, 1) := by decide +kernel
  obtain ⟨s, hs, hmap⟩ := Option.bind_eq_some_iff.mp hsome
  obtain ⟨t, ht, hlengths⟩ := Option.map_eq_some_iff.mp hmap
  rw [Prod.mk.injEq] at hlengths
  exact ⟨s, t, reachable_of_runAllowed hs, reachable_of_runAllowed ht, hlengths.1, hlengths.2⟩

end Sample

-- The dump starts while the block is being copied and reads it when it is complete.
theorem unlocked_dump_shows_chain_appended :
    ∃ (s t : FineState (Sample.environment 1) 1 2) (out : List DumpedBlock),
      s.rest.committed.length = 0 ∧ out.length = 1 ∧ ShowsAll t out ∧
        t.rest.committed.length = 1 := by
  obtain ⟨s, t, hs, hlater, hnone, hone⟩ := Sample.exists_appended
  have hrep := represents_always rfl (hs.trans hlater)
  have hcount : numBlocks (t.data .ledger) = 1 := by rw [hrep.count, hone]; rfl
  have hwait : Dumping Sample.honestOnly s t 0 [] := .wait .start hlater
  have hprint := (unlocked_dump_shows_chain hs hwait).2.2.2.2.2 (by rw [hcount]; decide) (by decide)
    t (t.data .ledger) (.refl t) (fun _ => ⟨t, .refl t, .refl t, rfl⟩)
  obtain ⟨hlen, -, -, hshows, hend, -⟩ := unlocked_dump_shows_chain hs hprint
  exact ⟨s, t, _, hnone, hlen.symm, hshows, (hend (by rw [hcount]; decide)).2.symm⟩

end DeiChain
