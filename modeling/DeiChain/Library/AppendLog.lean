import Mathlib.Data.List.Basic
import Mathlib.Data.Int.Notation
import Mathlib.Data.Nat.Notation

namespace AppendLog

variable {A B M : Type*}

def push (cap : ℕ) (l : List B) (b : B) : ℤ × List B :=
  if l.length < cap then (0, l ++ [b]) else (-1, l)

def callAll (call : M → A → ℤ × M) : M → List A → List ℤ × M
  | m, [] => ([], m)
  | m, a :: as =>
    let (code, m) := call m a
    let (codes, m) := callAll call m as
    (code :: codes, m)

-- A store that answers every call as the list does and still stands for it afterwards.
def Refines (call : M → A → ℤ × M) (cap : ℕ) (value : A → B) (P : A → Prop)
    (R : M → List B → Prop) : Prop :=
  ∀ m l a, P a → R m l →
    (call m a).1 = (push cap l (value a)).1 ∧ R (call m a).2 (push cap l (value a)).2

variable {call : M → A → ℤ × M} {cap : ℕ} {value : A → B} {P : A → Prop} {R : M → List B → Prop}

theorem Refines.callAll {as : List A} (h : Refines call cap value P R) (has : ∀ a ∈ as, P a)
    {m : M} {l : List B} (hm : R m l) :
    (callAll call m as).1 = (AppendLog.callAll (push cap) l (as.map value)).1 ∧
      R (AppendLog.callAll call m as).2 (AppendLog.callAll (push cap) l (as.map value)).2 := by
  induction as generalizing m l with
  | nil => exact ⟨rfl, hm⟩
  | cons a as ih =>
    obtain ⟨ha, has⟩ := List.forall_mem_cons.mp has
    obtain ⟨hcode, hnext⟩ := h m l a ha hm
    obtain ⟨hcodes, hend⟩ := ih has hnext
    exact ⟨congrArg₂ List.cons hcode hcodes, hend⟩

theorem callAll_push (cap : ℕ) (l bs : List B) :
    (callAll (push cap) l bs).2 = l ++ bs.take (cap - l.length) := by
  induction bs generalizing l with
  | nil => simp [callAll]
  | cons b bs ih =>
    have hcons : (callAll (push cap) l (b :: bs)).2 =
        (callAll (push cap) (push cap l b).2 bs).2 := rfl
    rw [hcons, ih, push]
    split
    · rename_i hroom
      have hsucc : cap - l.length = (cap - (l ++ [b]).length) + 1 := by
        rw [List.length_append, List.length_singleton]
        omega
      rw [hsucc, List.take_succ_cons, List.append_assoc, List.singleton_append]
    · rename_i hfull
      have hzero : cap - l.length = 0 := by omega
      rw [hzero, List.take_zero, List.take_zero]

theorem codes_push (cap : ℕ) (l bs : List B) (i : ℕ) (hi : i < bs.length) :
    (callAll (push cap) l bs).1[i]? = some (if l.length + i < cap then 0 else -1) := by
  induction bs generalizing l i with
  | nil => cases hi
  | cons b bs ih =>
    have hcons : (callAll (push cap) l (b :: bs)).1 =
        (push cap l b).1 :: (callAll (push cap) (push cap l b).2 bs).1 := rfl
    rw [hcons]
    cases i with
    | zero =>
      rw [List.getElem?_cons_zero, push]
      split <;> simp_all
    | succ i =>
      rw [List.getElem?_cons_succ, ih _ i (by simpa using hi), push]
      split
      · rw [List.length_append, List.length_singleton, Nat.add_assoc, Nat.add_comm 1]
      · rename_i hfull
        dsimp only
        rw [if_neg (by omega), if_neg (by omega)]

end AppendLog
