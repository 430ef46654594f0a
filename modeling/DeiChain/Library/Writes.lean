import Mathlib.Data.List.Basic

namespace Writes

variable {β : Type*}

-- What a sender meets before and at its i-th write: whether it is told to stop, and how many
-- bytes the write takes, or none for an error.
structure Outcome where
  stop : ℕ → Bool
  result : ℕ → Option ℕ

-- Success, and what has reached the other side.
def send (o : Outcome) : ℕ → List (List β) → Bool × List β
  | _, [] => (true, [])
  | i, c :: cs =>
    if o.stop i then (false, [])
    else
      match o.result i with
      | none => (false, [])
      | some n =>
        if n < c.length then (false, c.take n)
        else
          let (whole, bytes) := send o (i + 1) cs
          (whole, c ++ bytes)

-- A sender that fails has not sent everything, for the chunk it stops at is not empty.
theorem send_cases (o : Outcome) (i : ℕ) {cs : List (List β)} (hne : ∀ c ∈ cs, c ≠ []) :
    ((send o i cs).1 = true ∧ (send o i cs).2 = cs.flatten) ∨
      ((send o i cs).1 = false ∧ (send o i cs).2 <+: cs.flatten ∧
        (send o i cs).2.length < cs.flatten.length) := by
  induction cs generalizing i with
  | nil => exact .inl ⟨rfl, rfl⟩
  | cons c cs ih =>
    obtain ⟨hc, hcs⟩ := List.forall_mem_cons.mp hne
    have hpos := List.length_pos_iff.mpr hc
    have hnothing : ([] : List β) <+: (c :: cs).flatten ∧
        ([] : List β).length < (c :: cs).flatten.length := by
      refine ⟨List.nil_prefix, ?_⟩
      rw [List.flatten_cons, List.length_append, List.length_nil]
      omega
    unfold send
    split
    · exact .inr ⟨rfl, hnothing⟩
    · cases o.result i with
      | none => exact .inr ⟨rfl, hnothing⟩
      | some n =>
        dsimp only
        split
        · refine .inr ⟨rfl, (List.take_prefix n c).trans (List.prefix_append c cs.flatten), ?_⟩
          rw [List.flatten_cons, List.length_append, List.length_take]
          omega
        · dsimp only
          rw [List.flatten_cons, List.length_append, List.length_append]
          refine (ih (i + 1) hcs).imp ?_ ?_
          · rintro ⟨hwhole, hbytes⟩
            exact ⟨hwhole, by rw [hbytes]⟩
          · rintro ⟨hwhole, hprefix, hlen⟩
            exact ⟨hwhole, (List.prefix_append_right_inj c).mpr hprefix, by omega⟩

end Writes
