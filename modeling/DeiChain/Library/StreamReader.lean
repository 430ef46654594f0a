import Mathlib.Data.Nat.Notation

-- A loop that takes something off the front of a stream in each turn until nothing is left.
structure StreamReader (τ β : Type*) where
  turn : List τ → Option β × List τ
  shrinks : ∀ xs, xs ≠ [] → (turn xs).2.length < xs.length

namespace StreamReader

variable {τ β : Type*} (r : StreamReader τ β)

def readAll (xs : List τ) : List β :=
  if _h : xs = [] then []
  else (r.turn xs).1.toList ++ readAll (r.turn xs).2
termination_by xs.length
decreasing_by exact r.shrinks xs ‹_›

theorem readAll_nil : r.readAll [] = [] := by
  rw [readAll, dif_pos rfl]

theorem readAll_of_turn {xs rest : List τ} {b : Option β} (hne : xs ≠ [])
    (h : r.turn xs = (b, rest)) : r.readAll xs = b.toList ++ r.readAll rest := by
  rw [readAll, dif_neg hne, h]

-- Where short streams give nothing, a short rest gives nothing in all further turns.
theorem readAll_of_short {n : ℕ} (h : ∀ xs, xs.length < n → (r.turn xs).1 = none) (xs : List τ)
    (hx : xs.length < n) : r.readAll xs = [] := by
  by_cases hne : xs = []
  · rw [hne, readAll_nil]
  · have hshrinks := r.shrinks xs hne
    rw [r.readAll_of_turn hne rfl, h xs hx, Option.toList_none, List.nil_append]
    exact readAll_of_short h _ (Nat.lt_trans hshrinks hx)
termination_by xs.length

end StreamReader
