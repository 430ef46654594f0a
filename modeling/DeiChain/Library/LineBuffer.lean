import Mathlib.Data.Nat.Notation

-- An array of lines of fixed capacity, filled from the front through a running index.
@[ext] structure LineBuffer (α : Type*) (capacity : ℕ) where
  lines : List α
  bounded : lines.length ≤ capacity

namespace LineBuffer

variable {α β τ : Type*} {capacity : ℕ} {b c : LineBuffer α capacity}

def empty : LineBuffer α capacity := ⟨[], Nat.zero_le _⟩

def put (b : LineBuffer α capacity) (line : α) : Option (LineBuffer α capacity) :=
  if h : b.lines.length < capacity then
    some ⟨b.lines ++ [line], by rw [List.length_append]; exact h⟩
  else none

def putAll (b : LineBuffer α capacity) (lines : List α) : Option (LineBuffer α capacity) :=
  lines.foldlM put b

@[simp] theorem lines_empty : (empty : LineBuffer α capacity).lines = [] := rfl

theorem putAll_nil (b : LineBuffer α capacity) : b.putAll [] = some b := rfl

theorem putAll_cons (b : LineBuffer α capacity) (line : α) (lines : List α) :
    b.putAll (line :: lines) = (b.put line).bind (·.putAll lines) := rfl

theorem putAll_singleton (b : LineBuffer α capacity) (line : α) :
    b.putAll [line] = b.put line := by
  rw [putAll_cons]
  exact Option.bind_fun_some _

theorem putAll_append (b : LineBuffer α capacity) (xs ys : List α) :
    b.putAll (xs ++ ys) = (b.putAll xs).bind (·.putAll ys) := List.foldlM_append

theorem put_eq_some {line : α} : b.put line = some c ↔ c.lines = b.lines ++ [line] := by
  unfold put
  split
  · rw [Option.some_inj]
    constructor
    · rintro rfl
      rfl
    · exact fun hc => LineBuffer.ext hc.symm
  · rename_i hfull
    refine iff_of_false (by simp) (fun hc => ?_)
    have hlen := c.bounded
    rw [hc, List.length_append, List.length_singleton] at hlen
    omega

theorem putAll_eq_some {lines : List α} : b.putAll lines = some c ↔ c.lines = b.lines ++ lines := by
  induction lines generalizing b with
  | nil =>
    rw [putAll_nil, List.append_nil, Option.some_inj, LineBuffer.ext_iff, eq_comm]
  | cons line lines ih =>
    rw [putAll_cons, Option.bind_eq_some_iff]
    constructor
    · rintro ⟨d, hd, hc⟩
      rw [ih.mp hc, put_eq_some.mp hd, List.append_assoc]
      rfl
    · intro hc
      have hlen := c.bounded
      rw [hc, List.length_append, List.length_cons] at hlen
      refine ⟨⟨b.lines ++ [line], by simp; omega⟩, put_eq_some.mpr rfl, ih.mpr ?_⟩
      rw [hc, List.append_assoc]
      rfl

theorem lines_putAll (b : LineBuffer α capacity) (lines : List α) :
    (b.putAll lines).map LineBuffer.lines =
      if b.lines.length + lines.length ≤ capacity then some (b.lines ++ lines) else none := by
  split
  · rename_i hfits
    have hput : b.putAll lines = some ⟨b.lines ++ lines, by simpa using hfits⟩ :=
      putAll_eq_some.mpr rfl
    rw [hput]
    rfl
  · rename_i hfull
    cases hput : b.putAll lines with
    | none => rfl
    | some c =>
      have hlen := c.bounded
      rw [putAll_eq_some.mp hput, List.length_append] at hlen
      exact absurd hlen hfull

theorem lines_putAll_empty (lines : List α) :
    ((empty : LineBuffer α capacity).putAll lines).map LineBuffer.lines =
      if lines.length ≤ capacity then some lines else none := by
  rw [lines_putAll, lines_empty, List.length_nil, Nat.zero_add, List.nil_append]

theorem foldlM_put (f : β → α) (is : List β) (b : LineBuffer α capacity) :
    is.foldlM (fun b i => b.put (f i)) b = b.putAll (is.map f) := by
  rw [putAll, List.foldlM_map]

-- A loop that writes some lines in each round and updates an accumulator beside them.
theorem foldlM_putAll (f : β → List α) (g : τ → β → τ) (is : List β) (b : LineBuffer α capacity)
    (t : τ) :
    is.foldlM (fun (p : LineBuffer α capacity × τ) i =>
      (p.1.putAll (f i)).map (fun b => (b, g p.2 i))) (b, t) =
      (b.putAll (is.flatMap f)).map (fun b => (b, is.foldl g t)) := by
  induction is generalizing b t with
  | nil => rfl
  | cons i is ih =>
    rw [List.foldlM_cons, List.flatMap_cons, putAll_append]
    cases hput : b.putAll (f i) with
    | none => rfl
    | some c => exact ih c (g t i)

-- A loop whose rounds may fail on their own account.
theorem foldlM_guarded (ok : β → Prop) [DecidablePred ok] (f : β → List α) (is : List β)
    (b : LineBuffer α capacity) :
    is.foldlM (fun b i => if ok i then b.putAll (f i) else none) b =
      if ∀ i ∈ is, ok i then b.putAll (is.flatMap f) else none := by
  induction is generalizing b with
  | nil => simp [putAll_nil]
  | cons i is ih =>
    rw [List.foldlM_cons, List.flatMap_cons, putAll_append]
    by_cases hi : ok i
    · simp only [hi, if_true, List.forall_mem_cons, true_and]
      cases hput : b.putAll (f i) with
      | none => simp
      | some c => exact ih c
    · simp [hi]

end LineBuffer
