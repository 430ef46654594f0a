import Mathlib.Data.Int.Notation
import Mathlib.Data.List.TakeWhile

namespace Scan

def isSpace (c : UInt8) : Bool := c = 32 ∨ 9 ≤ c ∧ c ≤ 13

def isDigit (c : UInt8) : Bool := 48 ≤ c ∧ c ≤ 57

def isSign (c : UInt8) : Bool := c = 43 ∨ c = 45

def value (digits : List UInt8) : ℕ := digits.foldl (fun n d => 10 * n + (d.toNat - 48)) 0

def splitSign : List UInt8 → List UInt8 × List UInt8
  | [] => ([], [])
  | c :: cs => if isSign c then ([c], cs) else ([], c :: cs)

def signed (sign : List UInt8) (n : ℕ) : ℤ := if sign = [45] then -n else n

-- A sign that no digit follows is consumed all the same.
def integer (text : List UInt8) : Option ℤ × List UInt8 :=
  let parts := splitSign (text.dropWhile isSpace)
  let digits := parts.2.takeWhile isDigit
  if digits = [] then (none, parts.2)
  else (some (signed parts.1 (value digits)), parts.2.dropWhile isDigit)

def integers : ℕ → List UInt8 → List (Option ℤ)
  | 0, _ => []
  | k + 1, text => (integer text).1 :: integers k (integer text).2

def Stops (p : UInt8 → Bool) (text : List UInt8) : Prop := ∀ c ∈ text.head?, p c = false

structure Numeral where
  blanks : List UInt8
  sign : List UInt8
  digits : List UInt8
  blanks_space : ∀ c ∈ blanks, isSpace c = true
  sign_some : sign = [] ∨ ∃ c, isSign c = true ∧ sign = [c]
  digits_some : digits ≠ []
  digits_digit : ∀ c ∈ digits, isDigit c = true

def Numeral.text (x : Numeral) : List UInt8 := x.blanks ++ x.sign ++ x.digits

def Numeral.number (x : Numeral) : ℤ := signed x.sign (value x.digits)

inductive Written : List ℤ → List UInt8 → Prop
  | nil {text} : Written [] text
  | cons {text ns} (x : Numeral) : Stops isDigit text → Written ns text →
      Written (x.number :: ns) (x.text ++ text)

variable {p : UInt8 → Bool} {xs text rest : List UInt8}

theorem takeWhile_of_stops (hxs : ∀ c ∈ xs, p c = true) (hrest : Stops p rest) :
    (xs ++ rest).takeWhile p = xs := by
  rw [List.takeWhile_append_of_pos hxs]
  cases rest with
  | nil => exact List.append_nil xs
  | cons c cs =>
    rw [List.takeWhile_cons_of_neg (by simp [hrest c rfl]), List.append_nil]

theorem dropWhile_of_stops (hxs : ∀ c ∈ xs, p c = true) (hrest : Stops p rest) :
    (xs ++ rest).dropWhile p = rest := by
  rw [List.dropWhile_append_of_pos hxs]
  cases rest with
  | nil => rfl
  | cons c cs => exact List.dropWhile_cons_of_neg (by simp [hrest c rfl])

theorem stops_dropWhile : Stops p (text.dropWhile p) := by
  intro c hc
  have hne := List.head?_dropWhile_not p text
  rw [Option.mem_def.mp hc] at hne
  simpa using hne

theorem not_space_of_digit {c : UInt8} (h : isDigit c = true) : isSpace c = false := by
  simp only [isDigit, isSpace, decide_eq_true_eq, decide_eq_false_iff_not, UInt8.le_iff_toNat_le,
    ← UInt8.toNat_inj] at h ⊢
  simp only [UInt8.reduceToNat] at h ⊢
  omega

theorem not_sign_of_digit {c : UInt8} (h : isDigit c = true) : isSign c = false := by
  simp only [isDigit, isSign, decide_eq_true_eq, decide_eq_false_iff_not, UInt8.le_iff_toNat_le,
    ← UInt8.toNat_inj] at h ⊢
  simp only [UInt8.reduceToNat] at h ⊢
  omega

theorem not_space_of_sign {c : UInt8} (h : isSign c = true) : isSpace c = false := by
  simp only [isSign, decide_eq_true_eq] at h
  obtain rfl | rfl := h <;> rfl

theorem splitSign_append (text : List UInt8) :
    (splitSign text).1 ++ (splitSign text).2 = text := by
  cases text with
  | nil => rfl
  | cons c cs =>
    rw [splitSign]
    split <;> rfl

theorem splitSign_sign (text : List UInt8) :
    (splitSign text).1 = [] ∨ ∃ c, isSign c = true ∧ (splitSign text).1 = [c] := by
  cases text with
  | nil => exact .inl rfl
  | cons c cs =>
    rw [splitSign]
    split
    · exact .inr ⟨c, ‹_›, rfl⟩
    · exact .inl rfl

namespace Numeral

variable (x : Numeral)

theorem stops_digits : Stops isSpace (x.sign ++ (x.digits ++ rest)) := by
  obtain ⟨d, ds, hds⟩ := List.exists_cons_of_ne_nil x.digits_some
  intro c hc
  obtain hs | ⟨s, hs, hsign⟩ := x.sign_some
  · rw [hs, hds] at hc
    cases hc
    exact not_space_of_digit (x.digits_digit d (by rw [hds]; exact List.mem_cons_self))
  · rw [hsign] at hc
    cases hc
    exact not_space_of_sign hs

theorem splitSign_digits :
    splitSign (x.sign ++ (x.digits ++ rest)) = (x.sign, x.digits ++ rest) := by
  obtain ⟨d, ds, hds⟩ := List.exists_cons_of_ne_nil x.digits_some
  obtain hs | ⟨s, hs, hsign⟩ := x.sign_some
  · rw [hs, hds, List.nil_append, List.cons_append, splitSign,
      not_sign_of_digit (x.digits_digit d (by rw [hds]; exact List.mem_cons_self))]
    rfl
  · rw [hsign, List.cons_append, List.nil_append, splitSign, hs]
    rfl

theorem integer_text (hrest : Stops isDigit rest) :
    integer (x.text ++ rest) = (some x.number, rest) := by
  rw [integer, text, List.append_assoc, List.append_assoc,
    dropWhile_of_stops x.blanks_space x.stops_digits, x.splitSign_digits]
  simp only [takeWhile_of_stops x.digits_digit hrest, dropWhile_of_stops x.digits_digit hrest]
  rw [if_neg x.digits_some]
  rfl

end Numeral

theorem integer_eq_some_iff {n : ℤ} : integer text = (some n, rest) ↔
    ∃ x : Numeral, text = x.text ++ rest ∧ x.number = n ∧ Stops isDigit rest := by
  constructor
  · intro h
    let parts := splitSign (text.dropWhile isSpace)
    have happend : parts.1 ++ parts.2 = text.dropWhile isSpace := splitSign_append _
    rw [integer] at h
    split at h
    · cases h
    · rename_i hdigits
      obtain ⟨hn, hrest⟩ := Prod.mk.inj h
      refine ⟨⟨text.takeWhile isSpace, parts.1, parts.2.takeWhile isDigit,
        fun c => List.mem_takeWhile_imp, splitSign_sign _, hdigits,
        fun c => List.mem_takeWhile_imp⟩, ?_, Option.some.inj hn, hrest ▸ stops_dropWhile⟩
      rw [← hrest, Numeral.text, List.append_assoc, List.takeWhile_append_dropWhile,
        List.append_assoc, happend, List.takeWhile_append_dropWhile]
  · rintro ⟨x, rfl, rfl, hrest⟩
    exact x.integer_text hrest

theorem integers_eq_some_iff {k : ℕ} {ns : List ℤ} :
    integers k text = ns.map some ↔ ns.length = k ∧ Written ns text := by
  induction k generalizing text ns with
  | zero =>
    rw [integers, eq_comm, List.map_eq_nil_iff, List.length_eq_zero_iff]
    constructor
    · rintro rfl
      exact ⟨rfl, .nil⟩
    · exact And.left
  | succ k ih =>
    rw [integers]
    constructor
    · intro h
      cases ns with
      | nil => cases h
      | cons n ns =>
        obtain ⟨hfirst, hmore⟩ := List.cons.inj h
        obtain ⟨x, htext, hx, hstops⟩ := integer_eq_some_iff.mp (Prod.ext hfirst rfl)
        obtain ⟨hlen, hwritten⟩ := ih.mp hmore
        rw [htext, ← hx]
        exact ⟨congrArg (· + 1) hlen, .cons x hstops hwritten⟩
    · rintro ⟨hlen, hwritten⟩
      cases hwritten with
      | nil => cases hlen
      | cons x hstops hmore =>
        rw [x.integer_text hstops, ih.mpr ⟨Nat.succ.inj hlen, hmore⟩]
        rfl

end Scan
