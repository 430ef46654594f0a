import Mathlib.Data.Nat.Notation
import Mathlib.Logic.Function.Basic
import Mathlib.Logic.Relation
import Mathlib.Tactic.Push

namespace Transition

variable {S L : Type*} {step : S → L → Option S} {allow allow' : S → L → Prop}

-- What holds at one party after a move of party i.
theorem of_update {ι α : Type*} [DecidableEq ι] {f : ι → α} {i j : ι} {x : α} {P : α → Prop}
    (h : P (Function.update f i x j)) : (j = i ∧ P x) ∨ P (f j) := by
  rcases eq_or_ne j i with rfl | hne
  · rw [Function.update_self] at h
    exact .inl ⟨rfl, h⟩
  · rw [Function.update_of_ne hne] at h
    exact .inr h

def Next (step : S → L → Option S) (allow : S → L → Prop) (s t : S) : Prop :=
  ∃ l, allow s l ∧ step s l = some t

def Reachable (step : S → L → Option S) (allow : S → L → Prop) : S → S → Prop :=
  Relation.ReflTransGen (Next step allow)

def always : S → L → Prop := fun _ _ => True

theorem Reachable.refl (s : S) : Reachable step allow s s := Relation.ReflTransGen.refl

theorem Reachable.tail {s t u : S} {l : L} (h : Reachable step allow s t) (ha : allow t l)
    (hs : step t l = some u) : Reachable step allow s u :=
  Relation.ReflTransGen.tail h ⟨l, ha, hs⟩

theorem Reachable.trans {s t u : S} (h : Reachable step allow s t)
    (h' : Reachable step allow t u) : Reachable step allow s u :=
  Relation.ReflTransGen.trans h h'

theorem reachable_of_step {s t : S} {l : L} (h : step s l = some t) :
    Reachable step always s t := (Reachable.refl s).tail trivial h

theorem Reachable.mono (hle : ∀ s l, allow s l → allow' s l) {s t : S}
    (h : Reachable step allow s t) : Reachable step allow' s t := by
  refine Relation.ReflTransGen.mono ?_ _ _ h
  rintro a b ⟨l, ha, hs⟩
  exact ⟨l, hle a l ha, hs⟩

theorem Reachable.invariant_along {I : S → Prop} {s t : S} (h : Reachable step allow s t)
    (h0 : I s) (hstep : ∀ a l b, Reachable step allow s a → I a → allow a l →
      step a l = some b → I b) : I t := by
  induction h with
  | refl => exact h0
  | tail hprev hnext ih =>
    obtain ⟨l, ha, hs⟩ := hnext
    exact hstep _ l _ hprev ih ha hs

theorem Reachable.invariant {I : S → Prop} {s t : S} (h : Reachable step allow s t) (h0 : I s)
    (hstep : ∀ a l b, I a → allow a l → step a l = some b → I b) : I t :=
  h.invariant_along h0 (fun a l b _ => hstep a l b)

theorem Reachable.restrict {I : S → Prop} {s t : S} (h : Reachable step allow s t) (h0 : I s)
    (hstep : ∀ a l b, I a → allow a l → step a l = some b → I b)
    (hle : ∀ a l, I a → allow a l → allow' a l) : Reachable step allow' s t := by
  have hboth : Reachable step allow' s t ∧ I t := by
    refine h.invariant (I := fun a => Reachable step allow' s a ∧ I a) ⟨.refl s, h0⟩ ?_
    rintro a l b ⟨hreach, ha⟩ hallow hs
    exact ⟨hreach.tail (hle a l ha hallow) hs, hstep a l b ha hallow hs⟩
  exact hboth.1

-- No run of allowed steps goes on for ever.
def Terminates (step : S → L → Option S) (allow : S → L → Prop) (s : S) : Prop :=
  Acc (fun t s => Next step allow s t) s

theorem terminates_of_decreasing (first second : S → ℕ)
    (hdec : ∀ s l t, allow s l → step s l = some t →
      first t < first s ∨ first t = first s ∧ second t < second s) (s : S) :
    Terminates step allow s := by
  have hwf : WellFounded (InvImage (Prod.Lex (· < ·) (· < ·)) (fun s => (first s, second s))) :=
    InvImage.wf _ (Prod.lex Nat.lt_wfRel Nat.lt_wfRel).wf
  refine Subrelation.accessible ?_ (hwf.apply s)
  rintro t s ⟨l, hallow, hstep⟩
  exact Prod.lex_def.mpr (hdec s l t hallow hstep)

theorem exists_stuck {measure : S → ℕ}
    (hdec : ∀ s l t, step s l = some t → measure t < measure s) (s : S) :
    ∃ t, Reachable step allow s t ∧ ∀ l, allow t l → step t l = none := by
  induction hm : measure s using Nat.strongRecOn generalizing s with
  | _ n ih =>
    by_cases hstuck : ∀ l, allow s l → step s l = none
    · exact ⟨s, .refl s, hstuck⟩
    · push Not at hstuck
      obtain ⟨l, hallow, hne⟩ := hstuck
      obtain ⟨t, ht⟩ := Option.ne_none_iff_exists'.mp hne
      obtain ⟨u, hu, hend⟩ := ih (measure t) (hm ▸ hdec s l t ht) t rfl
      exact ⟨u, ((Reachable.refl s).tail hallow ht).trans hu, hend⟩

def run (step : S → L → Option S) : S → List L → Option S
  | s, [] => some s
  | s, l :: ls => (step s l).bind (fun t => run step t ls)

def runAllowed (step : S → L → Option S) (allow : S → L → Prop)
    [∀ s l, Decidable (allow s l)] : S → List L → Option S
  | s, [] => some s
  | s, l :: ls => if allow s l then (step s l).bind (fun t => runAllowed step allow t ls) else none

-- The labels of one kind in a run, where each of them uses up some of a measure.
theorem countP_le_of_run {I : S → Prop} {measure : S → ℕ} {p : L → Bool}
    (hstep : ∀ s l t, I s → step s l = some t → I t ∧ measure t + (p l).toNat ≤ measure s)
    {s t : S} {ls : List L} (hI : I s) (h : run step s ls = some t) :
    ls.countP p ≤ measure s := by
  induction ls generalizing s with
  | nil => exact Nat.zero_le _
  | cons l ls ih =>
    obtain ⟨u, hu, ht⟩ := Option.bind_eq_some_iff.mp h
    obtain ⟨hIu, hless⟩ := hstep s l u hI hu
    have hle := ih hIu ht
    rw [List.countP_cons]
    cases hp : p l <;> simp [hp] at hless ⊢ <;> omega

theorem length_le_of_run {measure : S → ℕ}
    (hdec : ∀ s l t, step s l = some t → measure t < measure s) {s t : S} {ls : List L}
    (h : run step s ls = some t) : ls.length ≤ measure s := by
  have hcount := countP_le_of_run (I := fun _ => True) (p := fun _ => true)
    (fun s l t _ hst => ⟨trivial, hdec s l t hst⟩) trivial h
  rwa [List.countP_true] at hcount

theorem reachable_of_run_forall {s t : S} {ls : List L}
    (hallow : ∀ l ∈ ls, ∀ a, allow a l) (h : run step s ls = some t) :
    Reachable step allow s t := by
  induction ls generalizing s with
  | nil =>
    simp only [run, Option.some.injEq] at h
    exact h ▸ .refl s
  | cons l ls ih =>
    obtain ⟨u, hu, ht⟩ := Option.bind_eq_some_iff.mp h
    have hnext : Reachable step allow s u :=
      (Reachable.refl s).tail (hallow l List.mem_cons_self s) hu
    exact hnext.trans (ih (fun l' hl' => hallow l' (List.mem_cons_of_mem l hl')) ht)

theorem reachable_of_run {s t : S} {ls : List L} (h : run step s ls = some t) :
    Reachable step always s t := reachable_of_run_forall (fun _ _ _ => trivial) h

theorem reachable_of_runAllowed [∀ s l, Decidable (allow s l)] {s t : S} {ls : List L}
    (h : runAllowed step allow s ls = some t) : Reachable step allow s t := by
  induction ls generalizing s with
  | nil =>
    simp only [runAllowed, Option.some.injEq] at h
    exact h ▸ .refl s
  | cons l ls ih =>
    simp only [runAllowed] at h
    split at h
    · rename_i ha
      obtain ⟨u, hu, ht⟩ := Option.bind_eq_some_iff.mp h
      exact ((Reachable.refl s).tail ha hu).trans (ih ht)
    · cases h

-- A flag that a step keeps exactly when it is allowed tells of a whole run whether it was.
theorem flag_iff_runAllowed [∀ s l, Decidable (allow s l)] {I G : S → Prop}
    (hstep : ∀ a l b, I a → step a l = some b → I b ∧ (G b ↔ G a ∧ allow a l)) {s t : S}
    {ls : List L} (hI : I s) (hG : G s) (h : run step s ls = some t) :
    G t ↔ runAllowed step allow s ls = some t := by
  have hrun : G t ↔ G s ∧ runAllowed step allow s ls = some t := by
    clear hG
    induction ls generalizing s with
    | nil =>
      simp only [run, Option.some.injEq] at h
      subst h
      simp [runAllowed]
    | cons l ls ih =>
      obtain ⟨u, hu, ht⟩ := Option.bind_eq_some_iff.mp h
      obtain ⟨hIu, hGu⟩ := hstep s l u hI hu
      rw [ih hIu ht, hGu, runAllowed]
      by_cases hallow : allow s l
      · simp [hallow, hu]
      · simp [hallow]
  rw [hrun]
  exact and_iff_right hG

end Transition
