import DeiChain.Library.Buffer

namespace DeiChain

open ByteMemory

-- What one call of read gives: some bytes, or -1 with EAGAIN, or 0, or -1 with another errno.
inductive ReadResult where
  | data (bytes : List UInt8)
  | again
  | endOfFile
  | error

def returnCode (total : ℕ) (bytes : ℤ) : ℤ := if total > 0 then total else bytes

-- The value returned, the memory behind it and the results of read not asked for. A buffer is
-- shorter than 2^63 bytes, so the casts to ssize_t keep the count. Without a result read blocks.
def readFully (buf : ℤ) (count : ℕ) (m : Memory) (total : ℕ) (results : List ReadResult) :
    Option (ℤ × Memory × List ReadResult) :=
  if total < count then
    match results with
    | [] => none
    | .data bytes :: rest =>
      readFully buf count (write m (buf + total) bytes) (total + bytes.length) rest
    | .again :: rest => readFully buf count m total rest
    | .endOfFile :: rest => some (returnCode total 0, m, rest)
    | .error :: rest => some (returnCode total (-1), m, rest)
  else some (total, m, results)
termination_by structural results

-- The results a loop can be given that still misses so many bytes, up to the one it stops at: a
-- chunk is not empty and no longer than asked for.
inductive Answers : ℕ → List ReadResult → Prop
  | full : Answers 0 []
  | data {missing : ℕ} {bytes : List UInt8} {script : List ReadResult} (hne : bytes ≠ [])
      (hle : bytes.length ≤ missing) (h : Answers (missing - bytes.length) script) :
      Answers missing (.data bytes :: script)
  | again {missing : ℕ} {script : List ReadResult} (hpos : 0 < missing)
      (h : Answers missing script) : Answers missing (.again :: script)
  | endOfFile {missing : ℕ} (hpos : 0 < missing) : Answers missing [.endOfFile]
  | error {missing : ℕ} (hpos : 0 < missing) : Answers missing [.error]

-- The chunks before the first end of file or hard error.
def arrived : List ReadResult → List UInt8
  | .data bytes :: rest => bytes ++ arrived rest
  | .again :: rest => arrived rest
  | .endOfFile :: _ => []
  | .error :: _ => []
  | [] => []

def stopCode : List ReadResult → ℤ
  | .data _ :: rest => stopCode rest
  | .again :: rest => stopCode rest
  | .endOfFile :: _ => 0
  | .error :: _ => -1
  | [] => 0

variable {buf : ℤ} {count missing total : ℕ} {script rest : List ReadResult}

theorem Answers.arrived_le (h : Answers missing script) :
    (arrived script).length ≤ missing := by
  induction h with
  | full => exact le_rfl
  | data hne hle _ ih =>
    rw [arrived, List.length_append]
    omega
  | again hpos _ ih => exact ih
  | endOfFile hpos => exact Nat.zero_le _
  | error hpos => exact Nat.zero_le _

theorem Answers.arrived_append (h : Answers missing script)
    (hfull : missing ≤ (arrived script).length) :
    arrived (script ++ rest) = arrived script ++ arrived rest := by
  induction h with
  | full => rfl
  | data hne hle _ ih =>
    rw [arrived, List.length_append] at hfull
    rw [List.cons_append, arrived, arrived, ih (by omega), List.append_assoc]
  | again hpos _ ih => exact ih hfull
  | endOfFile hpos => exact absurd hfull (Nat.not_le_of_lt hpos)
  | error hpos => exact absurd hfull (Nat.not_le_of_lt hpos)

theorem stopCode_nonpos (script : List ReadResult) : stopCode script ≤ 0 := by
  induction script with
  | nil => exact le_rfl
  | cons result script ih =>
    cases result with
    | data bytes => exact ih
    | again => exact ih
    | endOfFile => exact le_rfl
    | error => exact (by decide : (-1 : ℤ) ≤ 0)

theorem readFully_full {m : Memory} {results : List ReadResult} (h : count ≤ total) :
    readFully buf count m total results = some ((total : ℤ), m, results) := by
  rw [readFully.eq_def, if_neg (not_lt.mpr h)]

-- Each turn puts its chunk behind the bytes that are there and asks for that much less.
theorem Answers.readFully_eq (h : Answers missing script) (m : Memory)
    (htotal : total + missing = count) (hpos : 0 < count) :
    readFully buf count m total (script ++ rest) =
      some (returnCode (total + (arrived script).length) (stopCode script),
        write m (buf + total) (arrived script), rest) := by
  induction h generalizing m total with
  | full =>
    rw [arrived, write_nil, List.length_nil, returnCode, if_pos (by omega)]
    exact readFully_full (by omega)
  | @data missing bytes script hne hle _ ih =>
    have hlen := List.length_pos_iff.mpr hne
    have hplace : buf + ((total + bytes.length : ℕ) : ℤ) = buf + total + bytes.length := by
      push_cast
      ring
    rw [List.cons_append, readFully, if_pos (by omega), ih _ (by omega), hplace, ← write_append,
      arrived, List.length_append, Nat.add_assoc]
    rfl
  | again hpos' _ ih =>
    rw [List.cons_append, readFully, if_pos (by omega)]
    exact ih m htotal
  | endOfFile hpos' =>
    rw [List.cons_append, readFully, if_pos (by omega), arrived, write_nil]
    rfl
  | error hpos' =>
    rw [List.cons_append, readFully, if_pos (by omega), arrived, write_nil]
    rfl

theorem read_fully_reassembles (hpos : 0 < count) (h : Answers count script) (buf : ℤ)
    (m : Memory) (rest : List ReadResult) :
    ∃ returned after, readFully buf count m 0 (script ++ rest) = some (returned, after, rest) ∧
      (returned = count ↔ count ≤ (arrived script).length) ∧
      (returned = count → (arrived script).length = count ∧
        slice after buf count = (arrived (script ++ rest)).take count) ∧
      (returned ≠ count →
        returned = if arrived script = [] then stopCode script else (arrived script).length) ∧
      ∀ x, x < buf ∨ buf + count ≤ x → after x = m x := by
  have hle := h.arrived_le
  have hstop := stopCode_nonpos script
  have hread : readFully buf count m 0 (script ++ rest) =
      some (returnCode (0 + (arrived script).length) (stopCode script),
        write m (buf + (0 : ℕ)) (arrived script), rest) :=
    h.readFully_eq m (Nat.zero_add count) hpos
  rw [Nat.zero_add, Nat.cast_zero, add_zero] at hread
  have hcode : returnCode (arrived script).length (stopCode script) =
      if arrived script = [] then stopCode script else (arrived script).length := by
    rw [returnCode]
    by_cases hnone : arrived script = []
    · rw [if_pos hnone, hnone]
      rfl
    · rw [if_neg hnone, if_pos (List.length_pos_iff.mpr hnone)]
  have hfull : returnCode (arrived script).length (stopCode script) = count ↔
      count ≤ (arrived script).length := by
    rw [returnCode]
    split <;> omega
  refine ⟨_, _, hread, hfull, fun hreturned => ?_, fun _ => hcode, fun x hx => ?_⟩
  · have hlen := le_antisymm hle (hfull.mp hreturned)
    refine ⟨hlen, ?_⟩
    rw [h.arrived_append (hfull.mp hreturned), List.take_left' hlen, ← hlen]
    exact slice_write_self _
  · exact write_outside (by omega)

namespace Sample

def inPieces : List ReadResult := [.data [1], .again, .data [2, 3]]

theorem answers_inPieces : Answers 3 inPieces :=
  .data (by decide) (by decide) (.again (by decide) (.data (by decide) (by decide) .full))

end Sample

theorem read_fully_reassembles_three :
    ∃ after, readFully 8 3 (fun _ => 0) 0 (Sample.inPieces ++ [.data [4]]) =
        some (3, after, [.data [4]]) ∧ slice after 8 3 = [1, 2, 3] := by
  obtain ⟨returned, after, hread, hfull, hbuffer, -⟩ :=
    read_fully_reassembles (by decide) Sample.answers_inPieces 8 (fun _ => 0) [.data [4]]
  have hreturned : returned = 3 := hfull.mpr (by decide)
  rw [hreturned] at hread
  exact ⟨after, hread, (hbuffer hreturned).2⟩

end DeiChain
