import Mathlib.Data.List.Basic
import Mathlib.Data.Nat.Notation

namespace Blocks

variable {A : Type*} {p : A → Bool} {inside : Bool} {l m : List A} {a : A}

-- The number of blocks of p that begin in a list; inside tells what stands in front of it.
def starts (p : A → Bool) : Bool → List A → ℕ
  | _, [] => 0
  | inside, a :: l => (if p a && !inside then 1 else 0) + starts p (p a) l

def endsIn (p : A → Bool) (inside : Bool) (l : List A) : Bool := l.foldl (fun _ a => p a) inside

def Contiguous (p : A → Bool) (l : List A) : Prop := ∃ pre post, l = pre ++ l.filter p ++ post

@[simp] theorem endsIn_append_singleton : endsIn p inside (l ++ [a]) = p a := by
  simp [endsIn]

theorem starts_append :
    starts p inside (l ++ m) = starts p inside l + starts p (endsIn p inside l) m := by
  induction l generalizing inside with
  | nil => simp [starts, endsIn]
  | cons a l ih =>
    rw [List.cons_append, starts, ih, starts, Nat.add_assoc]
    rfl

theorem starts_append_singleton :
    starts p inside (l ++ [a]) =
      starts p inside l + if p a && !endsIn p inside l then 1 else 0 := by
  rw [starts_append]
  rfl

theorem starts_eq_zero_of_filter (h : l.filter p = []) : starts p inside l = 0 := by
  induction l generalizing inside with
  | nil => rfl
  | cons a l ih =>
    have ha : p a = false := by
      by_contra hp
      rw [List.filter_cons_of_pos (Bool.not_eq_false _ ▸ hp)] at h
      cases h
    rw [List.filter_cons_of_neg (by simp [ha])] at h
    rw [starts, ih h, ha]
    rfl

theorem starts_pos (h : l.filter p ≠ []) : 0 < starts p false l := by
  induction l with
  | nil => exact absurd rfl h
  | cons a l ih =>
    rw [starts]
    cases ha : p a with
    | true => exact Nat.add_pos_left Nat.one_pos _
    | false =>
      rw [List.filter_cons_of_neg (by simp [ha])] at h
      exact Nat.lt_of_lt_of_le (ih h) (Nat.le_add_left _ _)

theorem starts_le_length_filter : starts p inside l ≤ (l.filter p).length := by
  induction l generalizing inside with
  | nil => exact Nat.le_refl _
  | cons a l ih =>
    rw [starts]
    cases ha : p a with
    | true =>
      have hle := @ih true
      rw [List.filter_cons_of_pos ha, List.length_cons]
      split <;> omega
    | false =>
      rw [List.filter_cons_of_neg (by simp [ha])]
      simpa using @ih false

theorem starts_eq_zero : starts p false l = 0 ↔ l.filter p = [] := by
  refine ⟨fun h => ?_, starts_eq_zero_of_filter⟩
  by_contra hne
  exact absurd h (Nat.ne_of_gt (starts_pos hne))

theorem filter_eq_nil_of_head {post : List A} (ha : p a = false)
    (h : a :: l = l.filter p ++ post) : l.filter p = [] := by
  cases hl : l.filter p with
  | nil => rfl
  | cons b bs =>
    have hb : p b = true := List.of_mem_filter (hl ▸ List.mem_cons_self)
    rw [hl, List.cons_append] at h
    rw [← (List.cons.inj h).1, ha] at hb
    cases hb

theorem starts_inside_eq_zero : starts p true l = 0 ↔ ∃ post, l = l.filter p ++ post := by
  induction l with
  | nil => exact iff_of_true rfl ⟨[], rfl⟩
  | cons a l ih =>
    cases ha : p a with
    | true =>
      rw [starts, ha, List.filter_cons_of_pos ha]
      simp only [Bool.not_true, Bool.and_false, Bool.false_eq_true, if_false, Nat.zero_add, ih,
        List.cons_append, List.cons.injEq, true_and]
    | false =>
      have hstarts : starts p true (a :: l) = starts p false l := by
        rw [starts, ha]
        exact Nat.zero_add _
      rw [hstarts, starts_eq_zero, List.filter_cons_of_neg (by simp [ha])]
      constructor
      · exact fun hl => ⟨a :: l, by rw [hl]; rfl⟩
      · rintro ⟨post, h⟩
        exact filter_eq_nil_of_head ha h

theorem contiguous_cons_pos (ha : p a = true) :
    Contiguous p (a :: l) ↔ ∃ post, l = l.filter p ++ post := by
  unfold Contiguous
  rw [List.filter_cons_of_pos ha]
  constructor
  · rintro ⟨pre, post, h⟩
    cases pre with
    | nil => exact ⟨post, (List.cons.inj h).2⟩
    | cons b pre =>
      -- The filtered list would then hold one more element than it does.
      simp only [List.cons_append, List.cons.injEq] at h
      have hidem : (l.filter p).filter p = l.filter p := by simp
      have hlen := congrArg (fun l => (l.filter p).length) h.2
      simp only [List.filter_append, List.filter_cons_of_pos ha, hidem, List.length_append,
        List.length_cons] at hlen
      omega
  · rintro ⟨post, h⟩
    exact ⟨[], post, congrArg (a :: ·) h⟩

theorem contiguous_cons_neg (ha : p a = false) : Contiguous p (a :: l) ↔ Contiguous p l := by
  unfold Contiguous
  rw [List.filter_cons_of_neg (by simp [ha])]
  constructor
  · rintro ⟨pre, post, h⟩
    cases pre with
    | nil =>
      rw [filter_eq_nil_of_head ha h]
      exact ⟨l, [], by simp⟩
    | cons b pre => exact ⟨pre, post, (List.cons.inj h).2⟩
  · rintro ⟨pre, post, h⟩
    exact ⟨a :: pre, post, congrArg (a :: ·) h⟩

theorem contiguous_iff : Contiguous p l ↔ starts p false l ≤ 1 := by
  induction l with
  | nil => exact iff_of_true ⟨[], [], rfl⟩ (Nat.zero_le _)
  | cons a l ih =>
    cases ha : p a with
    | true =>
      rw [contiguous_cons_pos ha, ← starts_inside_eq_zero, starts, ha]
      change _ ↔ 1 + _ ≤ 1
      omega
    | false =>
      rw [contiguous_cons_neg ha, ih, starts, ha]
      simp

end Blocks
