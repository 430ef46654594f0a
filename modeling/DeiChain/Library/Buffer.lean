import DeiChain.Library.Memory

namespace ByteMemory

variable {m : Memory} {a x : ℤ}

theorem write_nil : write m a [] = m := by
  funext x
  refine write_outside ?_
  simp only [List.length_nil]
  omega

theorem write_append (xs ys : List UInt8) :
    write m a (xs ++ ys) = write (write m a xs) (a + xs.length) ys := by
  funext x
  by_cases hx : x < a + xs.length
  · rw [write_outside (.inl hx)]
    unfold write
    split
    · rw [List.getElem?_append_left (by omega)]
    · rfl
  · have hrest : xs.length ≤ (x - a).toNat := by omega
    have hindex : (x - a).toNat - xs.length = (x - (a + xs.length)).toNat := by omega
    have hbefore : write m a xs x = m x := write_outside (.inr (by omega))
    rw [write, write, if_pos (by omega), if_pos (by omega), List.getElem?_append_right hrest,
      hindex, hbefore]

theorem write_inside {m' : Memory} {bs : List UInt8} (hlo : a ≤ x) (hhi : x < a + bs.length) :
    write m a bs x = write m' a bs x := by
  have hindex : (x - a).toNat < bs.length := by omega
  rw [write, write, if_pos hlo, if_pos hlo, List.getElem?_eq_getElem hindex, Option.getD_some,
    Option.getD_some]

-- What is written over leaves no trace.
theorem write_over {b : ℤ} {xs ys : List UInt8} (hlo : a ≤ b)
    (hhi : b + xs.length ≤ a + ys.length) : write (write m b xs) a ys = write m a ys := by
  funext x
  by_cases hin : a ≤ x ∧ x < a + ys.length
  · exact write_inside hin.1 hin.2
  · rw [write_outside (by omega), write_outside (by omega), write_outside (by omega)]

theorem write_comm {b : ℤ} {xs ys : List UInt8} (h : b + ys.length ≤ a ∨ a + xs.length ≤ b) :
    write (write m b ys) a xs = write (write m a xs) b ys := by
  funext x
  by_cases hx : a ≤ x ∧ x < a + xs.length
  · rw [write_outside (a := b) (by omega)]
    exact write_inside hx.1 hx.2
  · rw [write_outside (a := a) (by omega)]
    by_cases hy : b ≤ x ∧ x < b + ys.length
    · exact write_inside hy.1 hy.2
    · rw [write_outside (by omega), write_outside (by omega), write_outside (by omega)]

theorem write_prefix {xs ys : List UInt8} (h : xs.length = ys.length) (rest : List UInt8) :
    write (write m a (xs ++ rest)) a ys = write m a (ys ++ rest) := by
  rw [write_append, write_append, write_comm (by omega), write_over le_rfl (by omega), h]

theorem write_replicate {n : ℕ} {c : UInt8} (hlo : a ≤ x) (hhi : x < a + n) :
    write m a (List.replicate n c) x = c := by
  have hindex : (x - a).toNat < n := by omega
  rw [write, if_pos hlo, List.getElem?_replicate, if_pos hindex, Option.getD_some]

-- A text with the NUL behind it, as sprintf writes it.
def writeString (m : Memory) (a : ℤ) (s : List UInt8) : Memory := write m a (s ++ [0])

theorem writeString_writeString (s t : List UInt8) :
    writeString (writeString m a s) (a + s.length) t = writeString m a (s ++ t) := by
  simp only [writeString]
  rw [List.append_assoc, write_append s (t ++ [0]), write_append s [0]]
  exact write_over le_rfl (by simp)

-- The pieces that a pointer running through a buffer copies, each with its place.
def copies : ℤ → List (List UInt8) → List (ℤ × List UInt8)
  | _, [] => []
  | ptr, piece :: rest => (ptr, piece) :: copies (ptr + piece.length) rest

def writeAll (m : Memory) (ws : List (ℤ × List UInt8)) : Memory :=
  ws.foldl (fun m w => write m w.1 w.2) m

theorem writeAll_outside {ws : List (ℤ × List UInt8)}
    (h : ∀ w ∈ ws, x < w.1 ∨ w.1 + w.2.length ≤ x) : writeAll m ws x = m x := by
  induction ws generalizing m with
  | nil => rfl
  | cons w ws ih =>
    obtain ⟨hw, hws⟩ := List.forall_mem_cons.mp h
    exact (ih hws).trans (write_outside hw)

theorem writeAll_copies (pieces : List (List UInt8)) :
    writeAll m (copies a pieces) = write m a pieces.flatten := by
  induction pieces generalizing m a with
  | nil => exact write_nil.symm
  | cons piece rest ih => exact ih.trans (write_append piece rest.flatten).symm

theorem copies_within {pieces : List (List UInt8)} {w : ℤ × List UInt8}
    (h : w ∈ copies a pieces) :
    a ≤ w.1 ∧ w.1 + w.2.length ≤ a + pieces.flatten.length := by
  induction pieces generalizing a with
  | nil => cases h
  | cons piece rest ih =>
    rw [List.flatten_cons, List.length_append]
    rcases List.mem_cons.mp h with rfl | h
    · exact ⟨le_rfl, by push_cast; omega⟩
    · obtain ⟨hlo, hhi⟩ := ih h
      exact ⟨by omega, by push_cast; omega⟩

end ByteMemory
