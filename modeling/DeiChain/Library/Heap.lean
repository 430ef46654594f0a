import Mathlib.Data.Finset.Basic
import Mathlib.Data.Finset.Lattice.Lemmas

namespace Heap

variable {P : Type*}

inductive Event (P : Type*) where
  | alloc (p : P)
  | use (p : P)
  | free (p : P)

variable [DecidableEq P] {h h' : Finset P} {es fs : List (Event P)} {ps : List P} {p q : P}

-- A buffer is allocated under a name that is not in use, and used or freed while it lives.
def Event.step (h : Finset P) : Event P → Option (Finset P)
  | alloc p => if p ∈ h then none else some (insert p h)
  | use p => if p ∈ h then some h else none
  | free p => if p ∈ h then some (h.erase p) else none

def exec (h : Finset P) : List (Event P) → Option (Finset P)
  | [] => some h
  | e :: es => (e.step h).bind (exec · es)

@[simp] theorem exec_nil : exec h [] = some h := rfl

theorem exec_use_dead (hp : p ∉ h) : exec h (.use p :: es) = none := by
  simp [exec, Event.step, hp]

theorem exec_alloc (hp : p ∉ h) : exec h (.alloc p :: es) = exec (insert p h) es := by
  simp [exec, Event.step, hp]

theorem exec_use (hp : p ∈ h) : exec h (.use p :: es) = exec h es := by
  simp [exec, Event.step, hp]

theorem exec_free (hp : p ∈ h) : exec h (.free p :: es) = exec (h.erase p) es := by
  simp [exec, Event.step, hp]

theorem exec_append : exec h (es ++ fs) = (exec h es).bind (exec · fs) := by
  induction es generalizing h with
  | nil => rfl
  | cons e es ih =>
    simp only [List.cons_append, exec, Option.bind_assoc, ih]

theorem exec_append_of (hes : exec h es = some h') : exec h (es ++ fs) = exec h' fs := by
  rw [exec_append, hes]
  rfl

theorem exec_uses (hes : ∀ e ∈ es, ∃ p ∈ h, e = .use p) : exec h es = some h := by
  induction es with
  | nil => rfl
  | cons e es ih =>
    obtain ⟨p, hp, rfl⟩ := hes e List.mem_cons_self
    rw [exec_use hp]
    exact ih (fun f hf => hes f (List.mem_cons_of_mem _ hf))

-- A loop whose turns leave the heap as they find it.
theorem exec_flatMap {α : Type*} {f : α → List (Event P)} {xs : List α}
    (hf : ∀ x ∈ xs, exec h (f x) = some h) : exec h (xs.flatMap f) = some h := by
  induction xs with
  | nil => rfl
  | cons x xs ih =>
    rw [List.flatMap_cons, exec_append_of (hf x List.mem_cons_self)]
    exact ih (fun y hy => hf y (List.mem_cons_of_mem x hy))

theorem exec_flatMap_none {α : Type*} {f : α → List (Event P)} {xs : List α} {x : α}
    (hf : ∀ y ∈ xs, exec h (f y) = some h ∨ exec h (f y) = none) (hx : x ∈ xs)
    (hnone : exec h (f x) = none) : exec h (xs.flatMap f) = none := by
  induction xs with
  | nil => cases hx
  | cons y ys ih =>
    rw [List.flatMap_cons, exec_append]
    rcases hf y List.mem_cons_self with hsame | hstuck
    · rw [hsame]
      refine ih (fun z hz => hf z (List.mem_cons_of_mem y hz)) ?_
      rcases List.mem_cons.mp hx with rfl | hmem
      · rw [hsame] at hnone
        cases hnone
      · exact hmem
    · rw [hstuck]
      rfl

-- A loop that allocates one buffer after another, where each turn needs the buffers kept live.
theorem exec_grow {kept : Finset P} {f : P → List (Event P)}
    (hf : ∀ g, kept ⊆ g → ∀ p ∉ g, exec g (f p) = some (insert p g)) (hkept : kept ⊆ h)
    (hnodup : ps.Nodup) (hfresh : ∀ p ∈ ps, p ∉ h) :
    exec h (ps.flatMap f) = some (h ∪ ps.toFinset) := by
  induction ps generalizing h with
  | nil => simp
  | cons p ps ih =>
    obtain ⟨hp, hnodup⟩ := List.nodup_cons.mp hnodup
    rw [List.flatMap_cons, exec_append_of (hf h hkept p (hfresh p List.mem_cons_self)),
      ih (hkept.trans (Finset.subset_insert p h)) hnodup]
    · rw [List.toFinset_cons, Finset.insert_union, Finset.union_insert]
    · intro x hx
      rw [Finset.mem_insert, not_or]
      exact ⟨fun heq => hp (heq ▸ hx), hfresh x (List.mem_cons_of_mem p hx)⟩

theorem exec_shrink {kept : Finset P} {f : P → List (Event P)}
    (hf : ∀ g, kept ⊆ g → ∀ p ∈ g, exec g (f p) = some (g.erase p)) (hkept : kept ⊆ h)
    (hnodup : ps.Nodup) (hlive : ∀ p ∈ ps, p ∈ h) (hother : ∀ p ∈ ps, p ∉ kept) :
    exec h (ps.flatMap f) = some (h \ ps.toFinset) := by
  induction ps generalizing h with
  | nil => simp
  | cons p ps ih =>
    obtain ⟨hp, hnodup⟩ := List.nodup_cons.mp hnodup
    have hstill : kept ⊆ h.erase p := fun q hq => Finset.mem_erase.mpr
      ⟨fun heq => hother p List.mem_cons_self (heq ▸ hq), hkept hq⟩
    rw [List.flatMap_cons, exec_append_of (hf h hkept p (hlive p List.mem_cons_self)),
      ih hstill hnodup]
    · rw [List.toFinset_cons, Finset.sdiff_insert, Finset.erase_sdiff_comm]
    · intro x hx
      exact Finset.mem_erase.mpr ⟨fun heq => hp (heq ▸ hx), hlive x (List.mem_cons_of_mem p hx)⟩
    · exact fun x hx => hother x (List.mem_cons_of_mem p hx)

-- An array is the list of its elements, which are allocated and freed together.
theorem exec_allocs (hnodup : ps.Nodup) (hfresh : ∀ p ∈ ps, p ∉ h) :
    exec h (ps.map .alloc) = some (h ∪ ps.toFinset) := by
  rw [List.map_eq_flatMap]
  refine exec_grow (fun g _ p hp => ?_) (Finset.empty_subset h) hnodup hfresh
  rw [exec_alloc hp, exec_nil]

theorem exec_frees (hnodup : ps.Nodup) (hlive : ∀ p ∈ ps, p ∈ h) :
    exec h (ps.map .free) = some (h \ ps.toFinset) := by
  rw [List.map_eq_flatMap]
  refine exec_shrink (fun g _ p hp => ?_) (Finset.empty_subset h) hnodup hlive
    (fun p _ => Finset.notMem_empty p)
  rw [exec_free hp, exec_nil]

theorem exec_map_use :
    exec h (ps.map .use) = if ∀ p ∈ ps, p ∈ h then some h else none := by
  induction ps with
  | nil => simp
  | cons p ps ih =>
    rw [List.map_cons]
    by_cases hp : p ∈ h
    · simp [exec_use hp, ih, hp]
    · rw [exec_use_dead hp, if_neg (fun hall => hp (hall p List.mem_cons_self))]

-- Every buffer is freed once, none is used before or after its life and none is left over.
def Clean (es : List (Event P)) : Prop := exec ∅ es = some ∅

-- A loop of which every turn leaves nothing behind, unless it goes wrong.
theorem clean_flatMap_iff {α : Type*} {f : α → List (Event P)} {Wrong : α → Prop} {xs : List α}
    (hf : ∀ x ∈ xs, (¬Wrong x ∧ exec ∅ (f x) = some ∅) ∨ (Wrong x ∧ exec ∅ (f x) = none)) :
    Clean (xs.flatMap f) ↔ ∀ x ∈ xs, ¬Wrong x := by
  induction xs with
  | nil => simp [Clean]
  | cons x xs ih =>
    rw [List.flatMap_cons, List.forall_mem_cons,
      ← ih (fun y hy => hf y (List.mem_cons_of_mem x hy))]
    rcases hf x List.mem_cons_self with ⟨hright, hexec⟩ | ⟨hwrong, hexec⟩
    · rw [Clean, exec_append_of hexec]
      exact (and_iff_right hright).symm
    · rw [Clean, exec_append, hexec]
      exact iff_of_false (by simp) (fun h => h.1 hwrong)

end Heap
