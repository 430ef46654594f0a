import Mathlib.Data.List.Basic
import Mathlib.Data.Nat.Notation

namespace Places

variable {α : Type*}

theorem split_of_getElem? {l : List α} {i : ℕ} {a : α} (h : l[i]? = some a) :
    ∃ pre post, l = pre ++ a :: post ∧ pre.length = i ∧ l.eraseIdx i = pre ++ post ∧
      ∀ b, l.set i b = pre ++ b :: post := by
  induction l generalizing i with
  | nil => cases h
  | cons x xs ih =>
    cases i with
    | zero =>
      cases h
      exact ⟨[], xs, rfl, rfl, rfl, fun _ => rfl⟩
    | succ i =>
      obtain ⟨pre, post, rfl, rfl, herase, hset⟩ := ih (by simpa using h)
      exact ⟨x :: pre, post, rfl, rfl, congrArg (x :: ·) herase,
        fun b => congrArg (x :: ·) (hset b)⟩

theorem mem_replace {pre post : List α} {a : α} (b : α) {x : α} (h : x ∈ pre ++ a :: post) :
    x = a ∨ x ∈ pre ++ b :: post := by
  rcases List.mem_append.mp h with hx | hx
  · exact .inr (List.mem_append_left _ hx)
  · rcases List.mem_cons.mp hx with rfl | hx
    · exact .inl rfl
    · exact .inr (List.mem_append_right _ (List.mem_cons_of_mem _ hx))

theorem getElem?_replace {pre post : List α} {a : α} (b : α) {i : ℕ} {x : α}
    (h : (pre ++ a :: post)[i]? = some x) :
    (i = pre.length ∧ x = a) ∨ (pre ++ b :: post)[i]? = some x := by
  induction pre generalizing i with
  | nil =>
    cases i with
    | zero => exact .inl ⟨rfl, (Option.some.inj h).symm⟩
    | succ i => exact .inr h
  | cons y pre ih =>
    cases i with
    | zero => exact .inr h
    | succ i =>
      rcases ih h with ⟨rfl, rfl⟩ | h
      · exact .inl ⟨rfl, rfl⟩
      · exact .inr h

end Places
