import DeiChain.Library.Layout
import Mathlib.Tactic.Linarith

namespace ByteMemory

open ByteLayout

-- Addresses are offsets from the start of a segment; an offset that underflows is negative.
abbrev Memory := ℤ → UInt8

def slice (m : Memory) : ℤ → ℕ → List UInt8
  | _, 0 => []
  | a, n + 1 => m a :: slice m (a + 1) n

def write (m : Memory) (a : ℤ) (bs : List UInt8) : Memory :=
  fun x => if a ≤ x then (bs[(x - a).toNat]?).getD (m x) else m x

variable {m m' : Memory} {a b x : ℤ} {n k : ℕ} {α : Type}

@[simp] theorem length_slice : (slice m a n).length = n := by
  induction n generalizing a with
  | zero => rfl
  | succ n ih => simp [slice, ih]

theorem slice_append : slice m a (n + k) = slice m a n ++ slice m (a + n) k := by
  induction n generalizing a with
  | zero => simp [slice]
  | succ n ih =>
    have hshift : a + (n + 1 : ℕ) = a + 1 + n := by push_cast; ring
    rw [show n + 1 + k = n + k + 1 by omega, slice, slice, ih, hshift, List.cons_append]

theorem slice_congr (h : ∀ x, a ≤ x → x < a + n → m x = m' x) : slice m a n = slice m' a n := by
  induction n generalizing a with
  | zero => rfl
  | succ n ih =>
    rw [slice, slice, h a (by omega) (by push_cast; omega)]
    rw [ih (fun x hlo hhi => h x (by omega) (by push_cast; omega))]

theorem write_outside {bs : List UInt8} (h : x < a ∨ a + bs.length ≤ x) :
    write m a bs x = m x := by
  unfold write
  split
  · have hlen : bs.length ≤ (x - a).toNat := by omega
    rw [List.getElem?_eq_none hlen, Option.getD_none]
  · rfl

theorem write_cons (c : UInt8) (bs : List UInt8) :
    write m a (c :: bs) = write (write m (a + 1) bs) a [c] := by
  funext x
  by_cases hx : x = a
  · subst hx
    simp [write]
  · have hout : x < a ∨ a + [c].length ≤ x := by
      simp
      omega
    rw [write_outside hout]
    unfold write
    by_cases hlt : a ≤ x
    · have hsucc : (x - a).toNat = (x - (a + 1)).toNat + 1 := by omega
      rw [if_pos hlt, if_pos (by omega), hsucc, List.getElem?_cons_succ]
    · rw [if_neg hlt, if_neg (by omega)]

theorem slice_write_disjoint {bs : List UInt8} (h : b + n ≤ a ∨ a + bs.length ≤ b) :
    slice (write m a bs) b n = slice m b n :=
  slice_congr (fun x hlo hhi => write_outside (by omega))

theorem slice_write_self (bs : List UInt8) : slice (write m a bs) a bs.length = bs := by
  induction bs generalizing a m with
  | nil => rfl
  | cons c bs ih =>
    have hhead : write m a (c :: bs) a = c := by simp [write]
    have htail : slice (write m a (c :: bs)) (a + 1) bs.length = bs := by
      rw [write_cons, slice_write_disjoint (by simp)]
      exact ih
    rw [List.length_cons, slice, hhead, htail]

theorem slice_write_middle (xs ys zs : List UInt8) :
    slice (write m a (xs ++ (ys ++ zs))) (a + xs.length) ys.length = ys := by
  have h := slice_write_self (m := m) (a := a) (xs ++ (ys ++ zs))
  rw [List.length_append, List.length_append, slice_append, slice_append] at h
  exact (List.append_inj (List.append_inj h (by simp)).2 (by simp)).1

def load (L : ByteLayout α) (m : Memory) (a : ℤ) : α := L.decode (slice m a L.size)

def store (L : ByteLayout α) (m : Memory) (a : ℤ) (v : α) : Memory := write m a (L.encode v)

def loadAll (L : ByteLayout α) (m : Memory) (a : ℤ) (n : ℕ) : List α :=
  L.decodeAll n (slice m a (n * L.size))

variable {L : ByteLayout α}

theorem load_congr (h : ∀ x, a ≤ x → x < a + L.size → m x = m' x) : load L m a = load L m' a :=
  congrArg L.decode (slice_congr h)

theorem loadAll_congr (h : ∀ x, a ≤ x → x < a + (n * L.size : ℕ) → m x = m' x) :
    loadAll L m a n = loadAll L m' a n :=
  congrArg (L.decodeAll n) (slice_congr h)

@[simp] theorem load_store (v : α) : load L (store L m a v) a = v := by
  have h := slice_write_self (m := m) (a := a) (L.encode v)
  rw [L.length_encode] at h
  rw [load, store, h, L.decode_encode]

theorem load_write_middle (xs zs : List UInt8) (v : α) (hb : b = a + xs.length) :
    load L (write m a (xs ++ (L.encode v ++ zs))) b = v := by
  have h := slice_write_middle (m := m) (a := a) xs (L.encode v) zs
  rw [L.length_encode] at h
  rw [load, hb, h, L.decode_encode]

theorem loadAll_write (vs ws : List α) :
    loadAll L (write m a (L.encodeAll (vs ++ ws))) a vs.length = vs := by
  have h := slice_write_middle (m := m) (a := a) [] (L.encodeAll vs) (L.encodeAll ws)
  rw [List.nil_append, ← encodeAll_append, length_encodeAll, List.length_nil, Nat.cast_zero,
    add_zero] at h
  rw [loadAll, h, decodeAll_encodeAll]

theorem loadAll_eq_map (m : Memory) (a : ℤ) (n : ℕ) :
    loadAll L m a n = (List.range n).map (fun j : ℕ => load L m (a + j * L.size)) := by
  induction n generalizing a with
  | zero => rfl
  | succ n ih =>
    have hsplit : slice m a ((n + 1) * L.size) =
        slice m a L.size ++ slice m (a + L.size) (n * L.size) := by
      rw [Nat.succ_mul, Nat.add_comm, slice_append]
    have htake : (slice m a ((n + 1) * L.size)).take L.size = slice m a L.size := by
      rw [hsplit, List.take_left' length_slice]
    have hdrop : (slice m a ((n + 1) * L.size)).drop L.size =
        slice m (a + L.size) (n * L.size) := by
      rw [hsplit, List.drop_left' length_slice]
    have htail := ih (a + L.size)
    rw [loadAll] at htail
    rw [loadAll, decodeAll, htake, hdrop, htail, List.range_succ_eq_map, List.map_cons,
      List.map_map, Nat.cast_zero, zero_mul, add_zero]
    refine congrArg (List.cons _) (List.map_congr_left (fun j _ => ?_))
    rw [Function.comp_apply]
    push_cast
    ring_nf

theorem store_outside {v : α} (h : x < a ∨ a + L.size ≤ x) : store L m a v x = m x :=
  write_outside (by rw [L.length_encode]; exact h)

end ByteMemory
