import DeiChain.Library.Transition
import DeiChain.Library.Turns

namespace Critical

open Transition Turns

-- Parties with critical sections: programs that work on data guarded by a semaphore, in turns.
-- Plain steps are taken outside of all sections and look at the data unguarded.
structure Code (ι μ : Type) (D : μ → Type) (R : Type) where
  Local : ι → Type
  Plain : ι → Type
  Section : ι → Type
  Result : μ → Type
  plain : ∀ i, Plain i → (∀ m, D m) → R → Local i → Option (R × Local i)
  start : ∀ i, Section i → Local i → Option (Σ m, Program (D m) (Result m))
  finish : ∀ i m, Result m → R → Local i → R × Local i

inductive Control {μ : Type} (P : μ → Type) (E Q : Type) where
  | outside (q : Q)
  | inside (q : Q) (e : E) (m : μ) (p : P m)
  | leaving (q : Q) (m : μ)

namespace Control

variable {μ E Q : Type} {P : μ → Type}

def loc : Control P E Q → Q
  | .outside q => q
  | .inside q _ _ _ => q
  | .leaving q _ => q

def mutex : Control P E Q → Option μ
  | .outside _ => none
  | .inside _ _ m _ => some m
  | .leaving _ m => some m

end Control

variable {ι μ R : Type} {D : μ → Type}

abbrev Code.Body (C : Code ι μ D R) (m : μ) : Type := Program (D m) (C.Result m)

abbrev Code.Control (C : Code ι μ D R) (i : ι) : Type :=
  Critical.Control C.Body (C.Section i) (C.Local i)

variable {C : Code ι μ D R}

structure State (C : Code ι μ D R) where
  sem : μ → ℕ
  data : ∀ m, D m
  rest : R
  control : ∀ i, C.Control i

-- The same programs with every section done in one step.
structure Whole (C : Code ι μ D R) where
  data : ∀ m, D m
  rest : R
  locals : ∀ i, C.Local i

inductive Label (C : Code ι μ D R) where
  | plain (i : ι) (a : C.Plain i)
  | enter (i : ι) (e : C.Section i)
  | turn (i : ι)
  | leave (i : ι)

def State.places (s : State C) (i : ι) : Option μ := (s.control i).mutex

variable [DecidableEq ι]

def State.withControl (s : State C) (i : ι)
    (k : C.Control i) : State C :=
  { s with control := Function.update s.control i k }

theorem places_withControl (s : State C) (i : ι)
    (k : C.Control i) :
    (s.withControl i k).places = Function.update s.places i k.mutex := by
  funext j
  rcases eq_or_ne j i with rfl | hj
  · simp [State.places, State.withControl]
  · simp [State.places, State.withControl, hj]

theorem places_withControl_same {s : State C} {i : ι}
    {k : C.Control i} (h : k.mutex = (s.control i).mutex) :
    (s.withControl i k).places = s.places := by
  rw [places_withControl, h]
  exact Function.update_eq_self i s.places

variable [DecidableEq μ]

def Whole.complete (w : Whole C) (i : ι) (m : μ) (d : D m) (x : C.Result m) : Whole C :=
  ⟨Function.update w.data m d, (C.finish i m x w.rest (w.locals i)).1,
    Function.update w.locals i (C.finish i m x w.rest (w.locals i)).2⟩

def Whole.toState (w : Whole C) : State C :=
  ⟨fun _ => 1, w.data, w.rest, fun i => .outside (w.locals i)⟩

-- The result of a section leaves it with the last turn, before the semaphore is posted.
def step (s : State C) : Label C → Option (State C)
  | .plain i a =>
    match s.control i with
    | .outside q => (C.plain i a s.data s.rest q).map
        (fun r => { s with rest := r.1 }.withControl i (.outside r.2))
    | _ => none
  | .enter i e =>
    match s.control i with
    | .outside q =>
      match C.start i e q with
      | some ⟨m, p⟩ =>
        if 0 < s.sem m then
          some ({ s with sem := Function.update s.sem m (s.sem m - 1) }.withControl i
            (.inside q e m p))
        else none
      | none => none
    | _ => none
  | .turn i =>
    match s.control i with
    | .inside q e m (.more f next) =>
      some ({ s with data := Function.update s.data m (f (s.data m)) }.withControl i
        (.inside q e m (next (s.data m))))
    | .inside q _ m (.last f) =>
      let r := C.finish i m (f (s.data m)).2 s.rest q
      some ({ s with
        data := Function.update s.data m (f (s.data m)).1
        rest := r.1 }.withControl i (.leaving r.2 m))
    | _ => none
  | .leave i =>
    match s.control i with
    | .leaving q m =>
      some ({ s with sem := Function.update s.sem m (s.sem m + 1) }.withControl i (.outside q))
    | _ => none

inductive Move (s : State C) : Label C → State C → Prop
  | plain {i : ι} {a : C.Plain i} {q q' : C.Local i} {r : R} (hc : s.control i = .outside q)
      (h : C.plain i a s.data s.rest q = some (r, q')) :
      Move s (.plain i a) ({ s with rest := r }.withControl i (.outside q'))
  | enter {i : ι} {e : C.Section i} {q : C.Local i} {m : μ} {p : C.Body m}
      (hc : s.control i = .outside q) (h : C.start i e q = some ⟨m, p⟩) (hsem : 0 < s.sem m) :
      Move s (.enter i e) ({ s with sem := Function.update s.sem m (s.sem m - 1) }.withControl i
        (.inside q e m p))
  | more {i : ι} {e : C.Section i} {q : C.Local i} {m : μ} {f : D m → D m}
      {next : D m → C.Body m} (hc : s.control i = .inside q e m (.more f next)) :
      Move s (.turn i) ({ s with data := Function.update s.data m (f (s.data m)) }.withControl i
        (.inside q e m (next (s.data m))))
  | last {i : ι} {e : C.Section i} {q : C.Local i} {m : μ} {f : D m → D m × C.Result m}
      (hc : s.control i = .inside q e m (.last f)) :
      Move s (.turn i) ({ s with
        data := Function.update s.data m (f (s.data m)).1
        rest := (C.finish i m (f (s.data m)).2 s.rest q).1 }.withControl i
          (.leaving (C.finish i m (f (s.data m)).2 s.rest q).2 m))
  | leave {i : ι} {q : C.Local i} {m : μ} (hc : s.control i = .leaving q m) :
      Move s (.leave i) ({ s with sem := Function.update s.sem m (s.sem m + 1) }.withControl i
        (.outside q))

theorem move_of_step {s t : State C} {l : Label C} (h : step s l = some t) : Move s l t := by
  cases l with
  | plain i a =>
    simp only [step] at h
    split at h
    · rename_i q hc
      obtain ⟨⟨r, q'⟩, hplain, rfl⟩ := Option.map_eq_some_iff.mp h
      exact .plain hc hplain
    · cases h
  | enter i e =>
    simp only [step] at h
    split at h
    · rename_i q hc
      split at h
      · rename_i m p hstart
        split at h
        · cases h
          exact .enter hc hstart ‹_›
        · cases h
      · cases h
    · cases h
  | turn i =>
    simp only [step] at h
    split at h
    · rename_i hc
      cases h
      exact .more hc
    · rename_i hc
      cases h
      exact .last hc
    · cases h
  | leave i =>
    simp only [step] at h
    split at h
    · cases h
      exact .leave ‹_›
    · cases h

theorem step_of_move {s t : State C} {l : Label C} (h : Move s l t) : step s l = some t := by
  cases h with
  | plain hc hplain => simp only [step, hc, hplain, Option.map_some]
  | enter hc hstart hsem => simp only [step, hc, hstart, if_pos hsem]
  | _ hc => simp only [step, hc]

-- A semaphore counts whether its section is free.
def Exclusive (sem : μ → ℕ) (places : ι → Option μ) : Prop :=
  ∀ m, (sem m = 1 ∧ ∀ i, places i ≠ some m) ∨ (sem m = 0 ∧ ∃! i, places i = some m)

theorem Exclusive.enter {sem : μ → ℕ} {places : ι → Option μ} (h : Exclusive sem places) {i : ι}
    {m : μ} (hi : places i = none) (hm : 0 < sem m) :
    Exclusive (Function.update sem m (sem m - 1)) (Function.update places i (some m)) := by
  have hfree : sem m = 1 ∧ ∀ j, places j ≠ some m := by
    rcases h m with hfree | ⟨hzero, -⟩
    · exact hfree
    · omega
  intro m'
  rcases eq_or_ne m' m with rfl | hne
  · refine .inr ⟨by rw [Function.update_self, hfree.1], i, Function.update_self .., ?_⟩
    intro j hj
    by_contra hij
    rw [Function.update_of_ne hij] at hj
    exact hfree.2 j hj
  · have hsame : ∀ j, Function.update places i (some m) j = some m' ↔ places j = some m' := by
      intro j
      rcases eq_or_ne j i with rfl | hj
      · rw [Function.update_self, hi]
        exact iff_of_false (fun heq => hne (Option.some.inj heq).symm) (by simp)
      · rw [Function.update_of_ne hj]
    rw [Function.update_of_ne hne]
    simpa only [ne_eq, hsame] using h m'

theorem Exclusive.leave {sem : μ → ℕ} {places : ι → Option μ} (h : Exclusive sem places) {i : ι}
    {m : μ} (hi : places i = some m) :
    Exclusive (Function.update sem m (sem m + 1)) (Function.update places i none) := by
  obtain ⟨hzero, hunique⟩ : sem m = 0 ∧ ∃! j, places j = some m := by
    rcases h m with ⟨-, hnone⟩ | hheld
    · exact absurd hi (hnone i)
    · exact hheld
  intro m'
  rcases eq_or_ne m' m with rfl | hne
  · refine .inl ⟨by rw [Function.update_self, hzero], fun j hj => ?_⟩
    rcases eq_or_ne j i with rfl | hij
    · rw [Function.update_self] at hj
      cases hj
    · rw [Function.update_of_ne hij] at hj
      exact hij (hunique.unique hj hi)
  · have hsame : ∀ j, Function.update places i none j = some m' ↔ places j = some m' := by
      intro j
      rcases eq_or_ne j i with rfl | hj
      · rw [Function.update_self, hi]
        exact iff_of_false (by simp) (fun heq => hne (Option.some.inj heq).symm)
      · rw [Function.update_of_ne hj]
    rw [Function.update_of_ne hne]
    simpa only [ne_eq, hsame] using h m'

theorem exclusive_step {s t : State C} {l : Label C} (hs : Exclusive s.sem s.places)
    (h : step s l = some t) : Exclusive t.sem t.places := by
  cases move_of_step h with
  | @plain i a q q' r hc hplain =>
    rw [places_withControl_same (by rw [hc]; rfl)]
    exact hs
  | @enter i e q m p hc hstart hsem =>
    rw [places_withControl]
    exact hs.enter (by rw [State.places, hc]; rfl) hsem
  | @more i e q m f next hc =>
    rw [places_withControl_same (by rw [hc]; rfl)]
    exact hs
  | @last i e q m f hc =>
    rw [places_withControl_same (by rw [hc]; rfl)]
    exact hs
  | @leave i q m hc =>
    rw [places_withControl]
    exact hs.leave (by rw [State.places, hc]; rfl)

-- What a run keeps to: the plain steps taken and the state in which sections are entered. A plain
-- step must not see that a section another party is in has been started.
structure Rules (C : Code ι μ D R) where
  plain : ∀ i, C.Plain i → Prop
  rest : ∀ i, C.Section i → R → Prop
  data : ∀ i, C.Section i → ∀ m, D m → Prop
  blind : ∀ {v v' : ∀ m, D m},
    (∀ m, v m = v' m ∨ ∃ i e q p₀ p, C.start i e q = some ⟨m, p₀⟩ ∧ data i e m (v' m) ∧
      Program.Path p₀ (v' m) p (v m)) →
    ∀ i a r q, C.plain i a v r q = C.plain i a v' r q
  rest_plain : ∀ {i e j a v r q r' q'}, rest i e r → C.plain j a v r q = some (r', q') →
    rest i e r'
  rest_finish : ∀ {i e q m p j m' x r q'}, rest i e r → C.start i e q = some ⟨m, p⟩ → m' ≠ m →
    rest i e (C.finish j m' x r q').1

variable {K : Rules C}

def Allowed (K : Rules C) (s : State C) : Label C → Prop
  | .plain i a => K.plain i a
  | .enter i e => K.rest i e s.rest ∧
      ∀ m p, C.start i e (s.control i).loc = some ⟨m, p⟩ → K.data i e m (s.data m)
  | _ => True

inductive WholeMove (K : Rules C) (w : Whole C) : Whole C → Prop
  | plain {i : ι} {a : C.Plain i} {r : R} {q : C.Local i} (hallow : K.plain i a)
      (h : C.plain i a w.data w.rest (w.locals i) = some (r, q)) :
      WholeMove K w ⟨w.data, r, Function.update w.locals i q⟩
  | done {i : ι} {e : C.Section i} {m : μ} {p : C.Body m} (hrest : K.rest i e w.rest)
      (hdata : K.data i e m (w.data m)) (h : C.start i e (w.locals i) = some ⟨m, p⟩) :
      WholeMove K w (w.complete i m (p.run (w.data m)).1 (p.run (w.data m)).2)

-- Of the data of a section somebody is in, the whole run has still what it was entered with.
structure Simulates (K : Rules C) (s : State C) (w : Whole C) : Prop where
  rest : s.rest = w.rest
  locals : ∀ i, (s.control i).loc = w.locals i
  data : ∀ m, (∀ i q e p, s.control i ≠ .inside q e m p) → s.data m = w.data m
  inside : ∀ i q e m p, s.control i = .inside q e m p → ∃ p₀, C.start i e q = some ⟨m, p₀⟩ ∧
    K.rest i e s.rest ∧ K.data i e m (w.data m) ∧ Program.Path p₀ (w.data m) p (s.data m)

omit [DecidableEq ι] [DecidableEq μ] in
theorem Simulates.seen {s : State C} {w : Whole C} (h : Simulates K s w) (m : μ) :
    s.data m = w.data m ∨
      ∃ i e q p₀ p, C.start i e q = some ⟨m, p₀⟩ ∧ K.data i e m (w.data m) ∧
        Program.Path p₀ (w.data m) p (s.data m) := by
  by_cases hfree : ∀ i q e p, s.control i ≠ .inside q e m p
  · exact .inl (h.data m hfree)
  · push Not at hfree
    obtain ⟨i, q, e, p, hc⟩ := hfree
    obtain ⟨p₀, hstart, -, hdata, hpath⟩ := h.inside i q e m p hc
    exact .inr ⟨i, e, q, p₀, p, hstart, hdata, hpath⟩

omit [DecidableEq μ] in
theorem loc_update {f : ∀ i, C.Control i} {locals : ∀ i, C.Local i}
    (h : ∀ j, (f j).loc = locals j) {i : ι} {k : C.Control i} (j : ι) :
    (Function.update f i k j).loc = Function.update locals i k.loc j := by
  rcases eq_or_ne j i with rfl | hj
  · rw [Function.update_self, Function.update_self]
  · rw [Function.update_of_ne hj, Function.update_of_ne hj]
    exact h j

omit [DecidableEq μ] in
theorem loc_update_same {f : ∀ i, C.Control i} {locals : ∀ i, C.Local i}
    (h : ∀ j, (f j).loc = locals j) {i : ι} {k : C.Control i} (hk : k.loc = (f i).loc) (j : ι) :
    (Function.update f i k j).loc = locals j := by
  rw [loc_update h, hk, h, Function.update_eq_self]

omit [DecidableEq μ] in
theorem inside_withControl {s : State C} {i j : ι} {k : C.Control i} {q : C.Local j}
    {e : C.Section j} {m : μ} {p : C.Body m} (hne : j ≠ i) :
    (s.withControl i k).control j = .inside q e m p ↔ s.control j = .inside q e m p := by
  simp [State.withControl, hne]

omit [DecidableEq ι] [DecidableEq μ] in
theorem Exclusive.only {s : State C} (h : Exclusive s.sem s.places) {i j : ι} {m : μ}
    (hi : (s.control i).mutex = some m) (hj : (s.control j).mutex = some m) : i = j := by
  rcases h m with ⟨-, hfree⟩ | ⟨-, hheld⟩
  · exact absurd hi (hfree i)
  · exact hheld.unique hi hj

omit [DecidableEq μ] in
theorem simulates_plain {s : State C} {w : Whole C} {i : ι} {a : C.Plain i} {q q' : C.Local i}
    {r : R} (h : Simulates K s w) (hc : s.control i = .outside q)
    (hplain : C.plain i a s.data s.rest q = some (r, q')) :
    C.plain i a w.data w.rest (w.locals i) = some (r, q') ∧
      Simulates K ({ s with rest := r }.withControl i (.outside q'))
        ⟨w.data, r, Function.update w.locals i q'⟩ := by
  have hloc : q = w.locals i := by
    rw [← h.locals i, hc]
    rfl
  refine ⟨?_, rfl, loc_update h.locals, fun m hfree => ?_, fun j q₁ e m p hj => ?_⟩
  · rw [← h.rest, ← hloc, ← K.blind h.seen]
    exact hplain
  · refine h.data m (fun j q₁ e p hj => ?_)
    rcases eq_or_ne j i with rfl | hne
    · rw [hc] at hj
      cases hj
    · exact hfree j q₁ e p ((inside_withControl hne).mpr hj)
  · rcases eq_or_ne j i with rfl | hne
    · simp [State.withControl] at hj
    · obtain ⟨p₀, hstart, hrest, hdata, hpath⟩ :=
        h.inside j q₁ e m p ((inside_withControl hne).mp hj)
      exact ⟨p₀, hstart, K.rest_plain hrest hplain, hdata, hpath⟩

theorem simulates_enter {s : State C} {w : Whole C} {i : ι} {e : C.Section i} {q : C.Local i}
    {m : μ} {p : C.Body m} (hs : Exclusive s.sem s.places) (h : Simulates K s w)
    (hc : s.control i = .outside q) (hstart : C.start i e q = some ⟨m, p⟩) (hsem : 0 < s.sem m)
    (hallow : Allowed K s (.enter i e)) :
    Simulates K ({ s with sem := Function.update s.sem m (s.sem m - 1) }.withControl i
      (.inside q e m p)) w := by
  have hloc : (s.control i).loc = q := by
    rw [hc]
    rfl
  have hfree : s.data m = w.data m := by
    refine h.data m (fun j q₁ e₁ p₁ hj => ?_)
    rcases hs m with ⟨-, hnone⟩ | ⟨hzero, -⟩
    · exact hnone j (by rw [State.places, hj]; rfl)
    · omega
  obtain ⟨hrest, hdata⟩ := hallow
  refine ⟨h.rest, loc_update_same h.locals hloc.symm, fun m' hout => ?_,
    fun j q₁ e₁ m' p₁ hj => ?_⟩
  · refine h.data m' (fun j q₁ e₁ p₁ hj => ?_)
    have hne : j ≠ i := by
      rintro rfl
      rw [hc] at hj
      cases hj
    exact hout j q₁ e₁ p₁ ((inside_withControl hne).mpr hj)
  · rcases eq_or_ne j i with rfl | hne
    · simp only [State.withControl, Function.update_self, Control.inside.injEq] at hj
      obtain ⟨rfl, rfl, rfl, hp⟩ := hj
      cases hp
      refine ⟨p, hstart, hrest, hfree ▸ hdata m p (by rw [hloc, hstart]), ?_⟩
      change Program.Path p (w.data m) p (s.data m)
      rw [hfree]
      exact .refl
    · exact h.inside j q₁ e₁ m' p₁ ((inside_withControl hne).mp hj)

-- Data that only the party in a section has changed is that of the others as before.
theorem data_of_turn {s : State C} {v : ∀ m, D m} {i : ι} {e : C.Section i} {q : C.Local i} {m : μ}
    {p : C.Body m} {k : C.Control i} {d : D m}
    (h : ∀ m, (∀ i q e p, s.control i ≠ .inside q e m p) → s.data m = v m)
    (hc : s.control i = .inside q e m p) {m' : μ} (hne : m' ≠ m)
    (hout : ∀ j q e p, Function.update s.control i k j ≠ .inside q e m' p) :
    Function.update s.data m d m' = v m' := by
  rw [Function.update_of_ne hne]
  refine h m' (fun j q₁ e₁ p₁ hj => ?_)
  rcases eq_or_ne j i with rfl | hji
  · rw [hc] at hj
    simp only [Control.inside.injEq] at hj
    exact hne hj.2.2.1.symm
  · exact hout j q₁ e₁ p₁ (by rwa [Function.update_of_ne hji])

theorem simulates_more {s : State C} {w : Whole C} {i : ι} {e : C.Section i} {q : C.Local i}
    {m : μ} {f : D m → D m} {next : D m → C.Body m} (hs : Exclusive s.sem s.places)
    (h : Simulates K s w) (hc : s.control i = .inside q e m (.more f next)) :
    Simulates K ({ s with data := Function.update s.data m (f (s.data m)) }.withControl i
      (.inside q e m (next (s.data m)))) w := by
  have hloc : (s.control i).loc = q := by
    rw [hc]
    rfl
  refine ⟨h.rest, loc_update_same h.locals hloc.symm, fun m' hout => ?_,
    fun j q₁ e₁ m' p₁ hj => ?_⟩
  · have hne : m' ≠ m := by
      rintro rfl
      exact hout i q e _ (Function.update_self ..)
    exact data_of_turn h.data hc hne hout
  · rcases eq_or_ne j i with rfl | hji
    · simp only [State.withControl, Function.update_self, Control.inside.injEq] at hj
      obtain ⟨rfl, rfl, rfl, hp⟩ := hj
      cases hp
      obtain ⟨p₀, hstart, hrest, hdata, hpath⟩ := h.inside j q e m _ hc
      refine ⟨p₀, hstart, hrest, hdata, ?_⟩
      change Program.Path p₀ (w.data m) _ (Function.update s.data m (f (s.data m)) m)
      rw [Function.update_self]
      exact hpath.more
    · have hj' := (inside_withControl hji).mp hj
      have hne : m' ≠ m := by
        rintro rfl
        exact hji (hs.only (by rw [hj']; rfl) (by rw [hc]; rfl))
      change ∃ p₀, _ ∧ _ ∧ _ ∧
        Program.Path p₀ (w.data m') p₁ (Function.update s.data m (f (s.data m)) m')
      rw [Function.update_of_ne hne]
      exact h.inside j q₁ e₁ m' p₁ hj'

theorem simulates_last {s : State C} {w : Whole C} {i : ι} {e : C.Section i} {q : C.Local i}
    {m : μ} {f : D m → D m × C.Result m} (hs : Exclusive s.sem s.places)
    (h : Simulates K s w) (hc : s.control i = .inside q e m (.last f)) :
    ∃ w', WholeMove K w w' ∧ Simulates K ({ s with
      data := Function.update s.data m (f (s.data m)).1
      rest := (C.finish i m (f (s.data m)).2 s.rest q).1 }.withControl i
        (.leaving (C.finish i m (f (s.data m)).2 s.rest q).2 m)) w' := by
  have hloc : w.locals i = q := by
    rw [← h.locals i, hc]
    rfl
  obtain ⟨p₀, hstart, hrest, hdata, hpath⟩ := h.inside i q e m _ hc
  have hrun : f (s.data m) = p₀.run (w.data m) := hpath.run_eq
  have hfinish : C.finish i m (f (s.data m)).2 s.rest q =
      C.finish i m (p₀.run (w.data m)).2 w.rest (w.locals i) := by rw [hrun, h.rest, hloc]
  refine ⟨_, .done (h.rest ▸ hrest) hdata (hloc ▸ hstart), congrArg Prod.fst hfinish, ?_,
    fun m' hout => ?_, fun j q₁ e₁ m' p₁ hj => ?_⟩
  · rw [hfinish]
    exact loc_update h.locals
  · change Function.update s.data m (f (s.data m)).1 m' = Function.update w.data m _ m'
    rcases eq_or_ne m' m with rfl | hne
    · rw [Function.update_self, Function.update_self, hrun]
    · exact (data_of_turn h.data hc hne hout).trans (Function.update_of_ne hne _ _).symm
  · have hji : j ≠ i := by
      rintro rfl
      simp [State.withControl] at hj
    have hj' := (inside_withControl hji).mp hj
    have hne : m' ≠ m := by
      rintro rfl
      exact hji (hs.only (by rw [hj']; rfl) (by rw [hc]; rfl))
    obtain ⟨p₁', hstart', hrest', hdata', hpath'⟩ := h.inside j q₁ e₁ m' p₁ hj'
    refine ⟨p₁', hstart', K.rest_finish hrest' hstart' hne.symm, ?_⟩
    change K.data j e₁ m' (Function.update w.data m _ m') ∧
      Program.Path p₁' (Function.update w.data m _ m') p₁ (Function.update s.data m _ m')
    rw [Function.update_of_ne hne, Function.update_of_ne hne]
    exact ⟨hdata', hpath'⟩

theorem simulates_leave {s : State C} {w : Whole C} {i : ι} {q : C.Local i} {m : μ}
    (h : Simulates K s w) (hc : s.control i = .leaving q m) :
    Simulates K ({ s with sem := Function.update s.sem m (s.sem m + 1) }.withControl i
      (.outside q)) w := by
  have hloc : (s.control i).loc = q := by
    rw [hc]
    rfl
  refine ⟨h.rest, loc_update_same h.locals hloc.symm, fun m' hout => ?_,
    fun j q₁ e m' p hj => ?_⟩
  · refine h.data m' (fun j q₁ e p hj => ?_)
    have hne : j ≠ i := by
      rintro rfl
      rw [hc] at hj
      cases hj
    exact hout j q₁ e p ((inside_withControl hne).mpr hj)
  · have hne : j ≠ i := by
      rintro rfl
      simp [State.withControl] at hj
    exact h.inside j q₁ e m' p ((inside_withControl hne).mp hj)

theorem simulates_step {s t : State C} {w : Whole C} {l : Label C}
    (hs : Exclusive s.sem s.places) (h : Simulates K s w) (hallow : Allowed K s l)
    (hstep : step s l = some t) :
    ∃ w', Relation.ReflTransGen (WholeMove K) w w' ∧ Simulates K t w' := by
  cases move_of_step hstep with
  | plain hc hplain =>
    obtain ⟨hwhole, hsim⟩ := simulates_plain h hc hplain
    exact ⟨_, .single (.plain hallow hwhole), hsim⟩
  | enter hc hstart hsem => exact ⟨w, .refl, simulates_enter hs h hc hstart hsem hallow⟩
  | more hc => exact ⟨w, .refl, simulates_more hs h hc⟩
  | last hc =>
    obtain ⟨w', hwhole, hsim⟩ := simulates_last hs h hc
    exact ⟨w', .single hwhole, hsim⟩
  | leave hc => exact ⟨w, .refl, simulates_leave h hc⟩

omit [DecidableEq ι] [DecidableEq μ] in
theorem exclusive_toState (w : Whole C) : Exclusive w.toState.sem w.toState.places :=
  fun _ => .inl ⟨rfl, fun _ hi => by cases hi⟩

omit [DecidableEq ι] [DecidableEq μ] in
theorem simulates_toState (w : Whole C) : Simulates K w.toState w :=
  ⟨rfl, fun _ => rfl, fun _ _ => rfl, fun _ _ _ _ _ h => by cases h⟩

theorem exclusive_of_reachable {allow : State C → Label C → Prop} {s t : State C}
    (hs : Exclusive s.sem s.places) (h : Reachable step allow s t) : Exclusive t.sem t.places :=
  h.invariant (I := fun s => Exclusive s.sem s.places) hs
    (fun _ _ _ hs _ hstep => exclusive_step hs hstep)

-- Whatever the interleaving of the turns, the sections might as well have been done in one step
-- each, in the order in which they ended.
theorem simulates_reachable {s t : State C} {w : Whole C} (hs : Exclusive s.sem s.places)
    (hsim : Simulates K s w) (h : Reachable step (Allowed K) s t) :
    ∃ w', Relation.ReflTransGen (WholeMove K) w w' ∧ Simulates K t w' := by
  refine h.invariant_along
    (I := fun t => ∃ w', Relation.ReflTransGen (WholeMove K) w w' ∧ Simulates K t w')
    ⟨w, .refl, hsim⟩ ?_
  rintro a l b hreach ⟨w', hw, hsim⟩ hallow hstep
  obtain ⟨w'', hw', hsim'⟩ :=
    simulates_step (exclusive_of_reachable hs hreach) hsim hallow hstep
  exact ⟨w'', hw.trans hw', hsim'⟩

namespace State

omit [DecidableEq ι] [DecidableEq μ] in
-- The turns a party has still to take in its section.
def left (s : State C) (i : ι) : ℕ :=
  match s.control i with
  | .inside _ _ m p => p.turns (s.data m)
  | _ => 0

end State

theorem leaves {s : State C} {i : ι} {q : C.Local i} {m : μ} (hc : s.control i = .leaving q m) :
    ∃ t, step s (.leave i) = some t ∧ t.sem m = s.sem m + 1 ∧
      ∀ j, j ≠ i → t.control j = s.control j :=
  ⟨_, step_of_move (.leave hc), Function.update_self .., fun _ hj => Function.update_of_ne hj _ _⟩

-- The induction is on the rest of the program; the data are what its turns so far have left.
theorem finishes {i : ι} {q : C.Local i} {e : C.Section i} {m : μ} (p : C.Body m) {s : State C}
    (hc : s.control i = .inside q e m p) :
    ∃ t, run step s (List.replicate (p.turns (s.data m)) (.turn i) ++ [.leave i]) = some t ∧
      t.sem m = s.sem m + 1 ∧ ∀ j, j ≠ i → t.control j = s.control j := by
  induction p generalizing s with
  | last f =>
    obtain ⟨u, q', hu, hcontrol, hsem, hother⟩ : ∃ u q', step s (.turn i) = some u ∧
        u.control i = .leaving q' m ∧ u.sem = s.sem ∧ ∀ j, j ≠ i → u.control j = s.control j :=
      ⟨_, _, step_of_move (.last hc), Function.update_self .., rfl,
        fun _ hj => Function.update_of_ne hj _ _⟩
    obtain ⟨t, ht, hpost, hkeep⟩ := leaves hcontrol
    refine ⟨t, ?_, hsem ▸ hpost, fun j hj => (hkeep j hj).trans (hother j hj)⟩
    simp [Program.turns, run, hu, ht]
  | more f next ih =>
    obtain ⟨u, hu, hcontrol, hdata, hsem, hother⟩ : ∃ u, step s (.turn i) = some u ∧
        u.control i = .inside q e m (next (s.data m)) ∧ u.data m = f (s.data m) ∧
        u.sem = s.sem ∧ ∀ j, j ≠ i → u.control j = s.control j :=
      ⟨_, step_of_move (.more hc), Function.update_self .., Function.update_self .., rfl,
        fun _ hj => Function.update_of_ne hj _ _⟩
    obtain ⟨t, ht, hpost, hkeep⟩ := ih (s.data m) hcontrol
    rw [hdata] at ht
    refine ⟨t, ?_, hsem ▸ hpost, fun j hj => (hkeep j hj).trans (hother j hj)⟩
    simp [Program.turns, List.replicate_succ, run, hu, ht]

theorem released {s : State C} {i : ι} {m : μ} (hi : (s.control i).mutex = some m) :
    ∃ t, run step s (List.replicate (s.left i) (.turn i) ++ [.leave i]) = some t ∧
      t.sem m = s.sem m + 1 ∧ ∀ j, j ≠ i → t.control j = s.control j := by
  cases hc : s.control i with
  | outside q =>
    rw [hc] at hi
    cases hi
  | inside q e m' p =>
    rw [hc] at hi
    cases hi
    simp only [State.left, hc]
    exact finishes p hc
  | leaving q m' =>
    rw [hc] at hi
    cases hi
    obtain ⟨t, ht, hpost, hkeep⟩ := leaves hc
    refine ⟨t, ?_, hpost, hkeep⟩
    simp [State.left, hc, run, ht]

-- Nobody waits for ever: whoever is in the section leaves it by its own turns alone.
theorem enter_after_release {s : State C} (hs : Exclusive s.sem s.places) {j : ι}
    {e : C.Section j} {q : C.Local j} {m : μ} {p : C.Body m} (hj : s.control j = .outside q)
    (hstart : C.start j e q = some ⟨m, p⟩) (hstuck : step s (.enter j e) = none) :
    ∃ i t u, i ≠ j ∧ (s.control i).mutex = some m ∧
      run step s (List.replicate (s.left i) (.turn i) ++ [.leave i]) = some t ∧
      step t (.enter j e) = some u := by
  have hzero : s.sem m = 0 := by
    by_contra hpos
    simp [step, hj, hstart, Nat.pos_of_ne_zero hpos] at hstuck
  obtain ⟨i, hi⟩ : ∃ i, (s.control i).mutex = some m := by
    rcases hs m with ⟨hone, -⟩ | ⟨-, hheld⟩
    · omega
    · exact hheld.exists
  have hij : i ≠ j := by
    rintro rfl
    rw [hj] at hi
    cases hi
  obtain ⟨t, ht, hpost, hkeep⟩ := released hi
  have hsem : 0 < t.sem m := by omega
  exact ⟨i, t, _, hij, hi, ht, step_of_move (.enter ((hkeep j hij.symm).trans hj) hstart hsem)⟩

end Critical
