import DeiChain.FineSystem

namespace DeiChain

open ByteLayout ByteMemory Critical Transition Turns

variable {cfg : Config} {γ k : ℕ} {env : Environment cfg} {sc : Scope}

abbrev FineState (env : Environment cfg) (γ k : ℕ) := Critical.State (fineCode env γ k)

def Later (sc : Scope) (s t : FineState env γ k) : Prop :=
  Reachable Critical.step (Allowed (rules env γ k sc)) s t

def FineReachable (sc : Scope) (s : FineState env γ k) : Prop :=
  Later sc (initWhole env γ k).toState s

theorem FineReachable.exclusive {s : FineState env γ k} (h : FineReachable sc s) :
    Exclusive s.sem s.places := exclusive_of_reachable (exclusive_toState _) h

theorem FineReachable.simulated {s : FineState env γ k} (h : FineReachable sc s) :
    ∃ w, Reachable (step env) (Permitted sc) (initState cfg k) (wholeSystem w) ∧
      Simulates (rules env γ k sc) s w := by
  obtain ⟨w, hw, hsim⟩ := simulates_reachable (exclusive_toState _) (simulates_toState _) h
  have hreach := reachable_of_wholeMoves hw
  rw [wholeSystem_init] at hreach
  exact ⟨w, hreach, hsim⟩

-- Guarded data agree while their mutex is free, everything else does at any time.
structure Reflects (s : FineState env γ k) (t : State cfg k) : Prop where
  miners : ∀ m, t.miners m = (s.control (.miner m)).loc.1
  validators : ∀ v, t.validators v = (s.control (.validator v)).loc
  unguarded : t.unguarded = s.rest
  pool : s.sem .pool = 1 → t.pool.guarded = s.data .pool
  ledger : s.sem .ledger = 1 → t.ledger = s.data .ledger

theorem data_of_free {K : Rules (fineCode env γ k)} {s : FineState env γ k}
    {w : Critical.Whole (fineCode env γ k)} (hs : Exclusive s.sem s.places) (h : Simulates K s w)
    {m : Mutex} (hfree : s.sem m = 1) : s.data m = w.data m := by
  refine h.data m (fun i q e p hi => ?_)
  rcases hs m with ⟨-, hnone⟩ | ⟨hzero, -⟩
  · exact hnone i (by rw [State.places, hi]; rfl)
  · omega

theorem reflects_of_simulates {K : Rules (fineCode env γ k)} {s : FineState env γ k}
    {w : Critical.Whole (fineCode env γ k)} (hs : Exclusive s.sem s.places) (h : Simulates K s w) :
    Reflects s (wholeSystem w) where
  miners m := congrArg Prod.fst (h.locals (.miner m)).symm
  validators v := (h.locals (.validator v)).symm
  unguarded := h.rest.symm
  pool hfree := (data_of_free hs h hfree).symm
  ledger hfree := (data_of_free hs h hfree).symm

-- Every interleaving of single accesses to the shared memory leads to a state of the system
-- whose critical sections are single steps, and no two parties are ever in one section.
theorem critical_sections_atomic {s : FineState env γ k} (h : FineReachable sc s) :
    Exclusive s.sem s.places ∧
      ∃ t, Reachable (step env) (Permitted sc) (initState cfg k) t ∧ Reflects s t := by
  obtain ⟨w, hreach, hsim⟩ := h.simulated
  exact ⟨h.exclusive, wholeSystem w, hreach, reflects_of_simulates h.exclusive hsim⟩

namespace Sample

variable {spare : Fin 2}

abbrev FineLabel (spare : Fin 2) := Critical.Label (fineCode (environment spare) 1 2)

def visit (i : Party (config spare) 1 2) (e : PartySection i) (turns : ℕ) :
    List (FineLabel spare) := .enter i e :: List.replicate turns (.turn i) ++ [.leave i]

abbrev generator : Party (config spare) 1 2 := .generator ⟨0, Nat.one_pos⟩

abbrev miner : Party (config spare) 1 2 := .miner ⟨0, Nat.two_pos⟩

abbrev validator : Party (config spare) 1 2 := .validator ⟨0, Nat.two_pos⟩

abbrev honestOnly : Scope := ⟨true, true⟩

-- One transaction is mined and its block accepted.
def accepted : List (FineLabel spare) :=
  visit generator (transaction 1) 13 ++ [.plain generator (), .plain miner .wait] ++
    visit miner .snapshot 4 ++ visit miner .select 6 ++ visit miner (.copyIds false) 1 ++
    [.plain miner (.create 0), .plain miner (.mine 0), .plain miner .send] ++
    [.plain validator (.receive 0 0)] ++ visit validator .checkLink 2 ++
    visit validator (.checkPool true) 4 ++ [.plain validator .testCapacity]

-- A validator has copied half of the block into the ledger, a generator is searching the pool.
def halfAppended : List (FineLabel spare) :=
  accepted ++ [.enter validator .append] ++ List.replicate 3 (.turn validator) ++
    [.enter generator (transaction 2), .turn generator]

theorem exists_halfAppended : ∃ s : FineState (environment 1) 1 2, FineReachable honestOnly s ∧
    s.sem .pool = 0 ∧ s.sem .ledger = 0 := by
  have hsome : (runAllowed Critical.step (Allowed (rules (environment 1) 1 2 honestOnly))
      (initWhole _ 1 2).toState halfAppended).isSome = true := by decide +kernel
  obtain ⟨s, hrun⟩ := Option.isSome_iff_exists.mp hsome
  have hsem : (runAllowed Critical.step (Allowed (rules (environment 1) 1 2 honestOnly))
      (initWhole _ 1 2).toState halfAppended).map (fun s => (s.sem .pool, s.sem .ledger)) =
        some (0, 0) := by decide +kernel
  rw [hrun, Option.map_some, Option.some_inj, Prod.mk.injEq] at hsem
  exact ⟨s, reachable_of_runAllowed hrun, hsem.1, hsem.2⟩

end Sample

theorem critical_sections_atomic_half_appended :
    ∃ s : FineState (Sample.environment 1) 1 2, s.sem .pool = 0 ∧ s.sem .ledger = 0 ∧
      Exclusive s.sem s.places ∧ ∃ t, Reachable (step (Sample.environment 1))
        (Permitted Sample.honestOnly) (initState (Sample.config 1) 2) t ∧ Reflects s t := by
  obtain ⟨s, hs, hpool, hledger⟩ := Sample.exists_halfAppended
  exact ⟨s, hpool, hledger, critical_sections_atomic hs⟩

theorem represents_of_permitted {t : State cfg k} (hsc : sc.spacious = true)
    (h : Reachable (step env) (Permitted sc) (initState cfg k) t) :
    Represents env.att t.ledger t.committed :=
  represents_of_spacious (fun _ _ hallow => hallow.room hsc) h

-- Between its turns an append has touched nothing but the entry it fills.
theorem ledger_seen {s : FineState env γ k} {w : Critical.Whole (fineCode env γ k)}
    (hsc : sc.spacious = true) (hsim : Simulates (rules env γ k sc) s w)
    (hrep : Represents env.att (w.data .ledger) w.rest.committed) :
    s.data .ledger = w.data .ledger ∨ (Addressable cfg w.rest.committed.length ∧
      Untouched cfg w.rest.committed.length (w.data .ledger) (s.data .ledger)) := by
  rcases hsim.seen .ledger with hsame | ⟨i, e, q, p₀, p, hstart, hdata, hpath⟩
  · exact .inl hsame
  · rcases untouched_of_path hstart hdata hpath with hsame | ⟨n, hcount, -, hn, huntouched⟩
    · exact .inl hsame
    · obtain rfl : n = w.rest.committed.length := by exact_mod_cast hcount.symm.trans hrep.count
      exact .inr ⟨hn hsc, huntouched⟩

-- The ledger represents the committed blocks also while an append is under way.
theorem represents_always {s : FineState env γ k} (hsc : sc.spacious = true)
    (h : FineReachable sc s) : Represents env.att (s.data .ledger) s.rest.committed := by
  obtain ⟨w, hreach, hsim⟩ := h.simulated
  have hrep : Represents env.att (w.data .ledger) w.rest.committed :=
    represents_of_permitted hsc hreach
  rw [hsim.rest]
  rcases ledger_seen hsc hsim hrep with hsame | ⟨hn, huntouched⟩
  · rw [hsame]
    exact hrep
  · exact huntouched.represents hn hrep

def fineHeld (s : FineState env γ k) : Holder cfg k → List (List UInt8)
  | .miner m => (s.control (.miner m)).loc.1.ids
  | .pipe i => pipeIds (s.rest.pipe i)
  | .validator v => ((s.control (.validator v)).loc : ValidatorState cfg).ids

theorem Reflects.held_eq {s : FineState env γ k} {t : State cfg k} (h : Reflects s t) :
    t.held = fineHeld s := by
  funext g
  cases g with
  | miner m => exact congrArg MinerState.ids (h.miners m)
  | pipe i => exact congrArg (fun r => pipeIds (r.pipe i)) h.unguarded
  | validator v => exact congrArg ValidatorState.ids (h.validators v)

theorem fine_sound {s : FineState env γ k} (hsc : sc.honest = true) (h : FineReachable sc s) :
    ∃ a : Custody.Account (List UInt8) (Holder cfg k), Custody.Sound a ∧ a.held = fineHeld s ∧
      a.spent = s.rest.committed.flatMap TransactionBlock.ids := by
  obtain ⟨w, hreach, hsim⟩ := h.simulated
  have href := reflects_of_simulates h.exclusive hsim
  have hcommitted : (wholeSystem w).committed = s.rest.committed :=
    congrArg Unguarded.committed href.unguarded
  exact ⟨(wholeSystem w).account, (honestInvariant_of_reachable
    (hreach.mono (fun _ _ hallow => hallow.honest hsc))).sound, href.held_eq,
    congrArg (List.flatMap TransactionBlock.ids) hcommitted⟩

theorem exactly_once_at_every_access {s : FineState env γ k} (h : FineReachable ⟨true, false⟩ s) :
    (FineReachable ⟨true, true⟩ s →
      ((ledgerBlocks env.att (s.data .ledger)).flatMap TransactionBlock.ids).Nodup) ∧
      (s.rest.committed.flatMap TransactionBlock.ids).Nodup ∧
      (∀ g, (fineHeld s g).Nodup) ∧
      (∀ g g', g ≠ g' → (fineHeld s g).Disjoint (fineHeld s g')) ∧
      ∀ g, (fineHeld s g).Disjoint (s.rest.committed.flatMap TransactionBlock.ids) := by
  obtain ⟨a, hsound, hheld, hspent⟩ := fine_sound rfl h
  rw [← hheld, ← hspent]
  refine ⟨fun hroom => ?_, hsound.spent_nodup, hsound.held_nodup, hsound.held_disjoint,
    fun g x hx hmem => hsound.spent_unheld g x hx hmem⟩
  rw [(represents_always rfl hroom).ledgerBlocks_eq, ← hspent]
  exact hsound.spent_nodup

theorem exactly_once_at_every_access_half_appended :
    ∃ s : FineState (Sample.environment 1) 1 2, s.sem .pool = 0 ∧ s.sem .ledger = 0 ∧
      ((ledgerBlocks (Sample.environment 1).att (s.data .ledger)).flatMap
        TransactionBlock.ids).Nodup ∧
      (s.rest.committed.flatMap TransactionBlock.ids).Nodup ∧
      (∀ g, (fineHeld s g).Nodup) ∧
      (∀ g g', g ≠ g' → (fineHeld s g).Disjoint (fineHeld s g')) ∧
      ∀ g, (fineHeld s g).Disjoint (s.rest.committed.flatMap TransactionBlock.ids) := by
  obtain ⟨s, hs, hpool, hledger⟩ := Sample.exists_halfAppended
  have honce := exactly_once_at_every_access (hs.mono allowed_of_spacious)
  exact ⟨s, hpool, hledger, honce.1 hs, honce.2⟩

end DeiChain
