import Mathlib.Data.List.Basic
import Mathlib.Data.List.Induction
import Mathlib.Tactic.Common

namespace HashChain

variable {B H : Type*}

structure Linking (B H : Type*) where
  genesis : H
  carries : B → H
  digest : B → H

namespace Linking

variable (K : Linking B H)

def tip (l : List B) : H := (l.getLast?.map K.digest).getD K.genesis

def Linked (l : List B) : Prop := ∀ i (h : i < l.length), K.carries l[i] = K.tip (l.take i)

@[simp] theorem tip_nil : K.tip [] = K.genesis := rfl

@[simp] theorem tip_concat (l : List B) (b : B) : K.tip (l ++ [b]) = K.digest b := by
  simp [tip]

theorem tip_take {l : List B} {i : ℕ} (h : i < l.length) :
    K.tip (l.take i) = if i = 0 then K.genesis else K.digest (l.get ⟨i - 1, by omega⟩) := by
  split
  · rename_i hzero
    rw [hzero, List.take_zero, tip_nil]
  · rename_i hpos
    have hprev : l[i - 1]? = some (l.get ⟨i - 1, by omega⟩) := List.getElem?_eq_getElem (by omega)
    rw [tip, List.getLast?_take, if_neg hpos, hprev, Option.some_or, Option.map_some,
      Option.getD_some]

theorem linked_nil : K.Linked [] := by
  intro i h
  simp at h

theorem linked_concat {l : List B} {b : B} :
    K.Linked (l ++ [b]) ↔ K.Linked l ∧ K.carries b = K.tip l := by
  constructor
  · intro h
    constructor
    · intro i hi
      have hpre := h i (by simp; omega)
      rwa [List.getElem_append_left hi, List.take_append_of_le_length (Nat.le_of_lt hi)] at hpre
    · simpa using h l.length (by simp)
  · rintro ⟨hl, hb⟩ i hi
    rcases Nat.lt_or_ge i l.length with hlt | hge
    · rw [List.getElem_append_left hlt, List.take_append_of_le_length (Nat.le_of_lt hlt)]
      exact hl i hlt
    · obtain rfl : i = l.length := by simp at hi; omega
      simpa using hb

theorem linked_iff_getElem {l : List B} :
    K.Linked l ↔ ∀ i (h : i < l.length),
      K.carries l[i] = if i = 0 then K.genesis else K.digest (l.get ⟨i - 1, by omega⟩) :=
  forall₂_congr (fun _ h => by rw [K.tip_take h])

theorem tip_take_succ {l : List B} {i : ℕ} (h : i < l.length) :
    K.tip (l.take (i + 1)) = K.digest l[i] := by
  rw [List.take_succ_eq_append_getElem h, tip_concat]

-- In a chain without collisions a tip tells how many blocks stand before it.
theorem tip_take_inj {l : List B} (hl : K.Linked l)
    (hinj : ∀ a ∈ l, ∀ b ∈ l, K.digest a = K.digest b → a = b)
    (hgenesis : ∀ a ∈ l, K.digest a ≠ K.genesis) {i j : ℕ} (hi : i ≤ l.length)
    (hj : j ≤ l.length) (htip : K.tip (l.take i) = K.tip (l.take j)) : i = j := by
  induction i generalizing j with
  | zero =>
    cases j with
    | zero => rfl
    | succ j =>
      rw [K.tip_take_succ hj] at htip
      exact absurd htip.symm (hgenesis _ (List.getElem_mem hj))
  | succ i ih =>
    rw [K.tip_take_succ hi] at htip
    cases j with
    | zero => exact absurd htip (hgenesis _ (List.getElem_mem hi))
    | succ j =>
      rw [K.tip_take_succ hj] at htip
      have hsame := hinj _ (List.getElem_mem hi) _ (List.getElem_mem hj) htip
      have hbefore : K.tip (l.take i) = K.tip (l.take j) := by
        rw [← hl i hi, ← hl j hj, hsame]
      rw [ih (Nat.le_of_succ_le hi) (Nat.le_of_succ_le hj) hbefore]

-- Two chains with one tip agree backwards: equal digests are of equal blocks, and equal blocks
-- carry the tip of what stands before them.
theorem eq_of_tip_eq {l l' : List B} (hlen : l.length = l'.length) (hl : K.Linked l)
    (hl' : K.Linked l') (hinj : ∀ a ∈ l, ∀ b ∈ l', K.digest a = K.digest b → a = b)
    (htip : K.tip l = K.tip l') : l = l' := by
  induction l using List.reverseRecOn generalizing l' with
  | nil => exact (List.length_eq_zero_iff.mp hlen.symm).symm
  | append_singleton init a ih =>
    rcases List.eq_nil_or_concat l' with rfl | ⟨init', b, rfl⟩
    · simp at hlen
    · rw [List.concat_eq_append] at hlen hl' hinj htip ⊢
      obtain ⟨hinit, ha⟩ := K.linked_concat.mp hl
      obtain ⟨hinit', hb⟩ := K.linked_concat.mp hl'
      rw [tip_concat, tip_concat] at htip
      obtain rfl : a = b := hinj a (by simp) b (by simp) htip
      have hsame : init = init' := by
        refine ih (by simpa using hlen) hinit hinit' (fun x hx y hy => ?_) (ha.symm.trans hb)
        exact hinj x (List.mem_append_left _ hx) y (List.mem_append_left _ hy)
      rw [hsame]

end Linking

end HashChain
