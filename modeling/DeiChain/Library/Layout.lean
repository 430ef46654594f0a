import Mathlib.Data.Vector.Basic
import Mathlib.Algebra.Order.Group.Nat
import Mathlib.Tactic.Ring

namespace ByteLayout

abbrev Chars (n : ℕ) := List.Vector UInt8 n

def leBytes : ℕ → ℕ → List UInt8
  | 0, _ => []
  | k + 1, x => UInt8.ofNat x :: leBytes k (x / 256)

def leValue : List UInt8 → ℕ
  | [] => 0
  | b :: bs => b.toNat + 256 * leValue bs

@[simp] theorem length_leBytes (k x : ℕ) : (leBytes k x).length = k := by
  induction k generalizing x with
  | zero => rfl
  | succ k ih => simp [leBytes, ih]

theorem leValue_leBytes (k x : ℕ) : leValue (leBytes k x) = x % 256 ^ k := by
  induction k generalizing x with
  | zero => simp [leBytes, leValue, Nat.mod_one]
  | succ k ih =>
    have hb : (UInt8.ofNat x).toNat = x % 256 := UInt8.toNat_ofNat'
    rw [leBytes, leValue, ih, hb, pow_succ', Nat.mod_mul]

end ByteLayout

structure ByteLayout (α : Type) where
  size : ℕ
  encode : α → List UInt8
  decode : List UInt8 → α
  length_encode : ∀ a, (encode a).length = size
  decode_encode : ∀ a, decode (encode a) = a

namespace ByteLayout

variable {α β : Type}

attribute [simp] length_encode decode_encode

def chars (n : ℕ) : ByteLayout (Chars n) where
  size := n
  encode v := v.toList
  decode bs := ⟨(bs ++ List.replicate n 0).take n, by simp⟩
  length_encode v := v.toList_length
  decode_encode v := by
    apply Subtype.ext
    change (v.toList ++ List.replicate n 0).take n = v.toList
    rw [List.take_append_of_le_length (by simp), List.take_of_length_le (by simp)]

def littleEndian (k : ℕ) (toNat : α → ℕ) (ofNat : ℕ → α) (hlt : ∀ a, toNat a < 256 ^ k)
    (hinv : ∀ a, ofNat (toNat a) = a) : ByteLayout α where
  size := k
  encode a := leBytes k (toNat a)
  decode bs := ofNat (leValue bs)
  length_encode a := length_leBytes k _
  decode_encode a := by rw [leValue_leBytes, Nat.mod_eq_of_lt (hlt a), hinv]

def uint32 : ByteLayout UInt32 :=
  littleEndian 4 UInt32.toNat UInt32.ofNat (fun a => a.toNat_lt) (fun _ => UInt32.ofNat_toNat)

def uint64 : ByteLayout UInt64 :=
  littleEndian 8 UInt64.toNat UInt64.ofNat (fun a => a.toNat_lt) (fun _ => UInt64.ofNat_toNat)

def int32 : ByteLayout Int32 :=
  littleEndian 4 (fun a => a.toUInt32.toNat) (fun x => (UInt32.ofNat x).toInt32)
    (fun a => a.toUInt32.toNat_lt) (fun a => by simp)

def int64 : ByteLayout Int64 :=
  littleEndian 8 (fun a => a.toUInt64.toNat) (fun x => (UInt64.ofNat x).toInt64)
    (fun a => a.toUInt64.toNat_lt) (fun a => by simp)

def pair (L : ByteLayout α) (M : ByteLayout β) : ByteLayout (α × β) where
  size := L.size + M.size
  encode p := L.encode p.1 ++ M.encode p.2
  decode bs := (L.decode (bs.take L.size), M.decode (bs.drop L.size))
  length_encode p := by simp
  decode_encode p := by
    have ht : (L.encode p.1 ++ M.encode p.2).take L.size = L.encode p.1 := by
      rw [← L.length_encode p.1, List.take_left]
    have hd : (L.encode p.1 ++ M.encode p.2).drop L.size = M.encode p.2 := by
      rw [← L.length_encode p.1, List.drop_left]
    rw [ht, hd, decode_encode, decode_encode]

def map (L : ByteLayout α) (f : α → β) (g : β → α) (hfg : ∀ b, f (g b) = b) : ByteLayout β where
  size := L.size
  encode b := L.encode (g b)
  decode bs := f (L.decode bs)
  length_encode b := L.length_encode _
  decode_encode b := by rw [decode_encode, hfg]

@[simp] theorem size_chars (n : ℕ) : (chars n).size = n := rfl
@[simp] theorem size_uint32 : uint32.size = 4 := rfl
@[simp] theorem size_uint64 : uint64.size = 8 := rfl
@[simp] theorem size_int32 : int32.size = 4 := rfl
@[simp] theorem size_int64 : int64.size = 8 := rfl

def encodeAll (L : ByteLayout α) (as : List α) : List UInt8 := as.flatMap L.encode

def decodeAll (L : ByteLayout α) : ℕ → List UInt8 → List α
  | 0, _ => []
  | n + 1, bs => L.decode (bs.take L.size) :: decodeAll L n (bs.drop L.size)

@[simp] theorem encodeAll_nil (L : ByteLayout α) : L.encodeAll [] = [] := rfl

@[simp] theorem encodeAll_cons (L : ByteLayout α) (a : α) (as : List α) :
    L.encodeAll (a :: as) = L.encode a ++ L.encodeAll as := rfl

@[simp] theorem length_encodeAll (L : ByteLayout α) (as : List α) :
    (L.encodeAll as).length = as.length * L.size := by
  induction as with
  | nil => simp
  | cons a as ih => simp [ih, Nat.add_mul, Nat.add_comm]

@[simp] theorem length_decodeAll (L : ByteLayout α) (n : ℕ) (bs : List UInt8) :
    (L.decodeAll n bs).length = n := by
  induction n generalizing bs with
  | zero => rfl
  | succ n ih => simp [decodeAll, ih]

theorem encodeAll_append (L : ByteLayout α) (as bs : List α) :
    L.encodeAll (as ++ bs) = L.encodeAll as ++ L.encodeAll bs := List.flatMap_append

theorem decodeAll_encodeAll_append (L : ByteLayout α) (as : List α) (rest : List UInt8) :
    L.decodeAll as.length (L.encodeAll as ++ rest) = as := by
  induction as with
  | nil => rfl
  | cons a as ih =>
    have ht : (L.encode a ++ (L.encodeAll as ++ rest)).take L.size = L.encode a := by
      rw [← L.length_encode a, List.take_left]
    have hd : (L.encode a ++ (L.encodeAll as ++ rest)).drop L.size = L.encodeAll as ++ rest := by
      rw [← L.length_encode a, List.drop_left]
    rw [List.length_cons, encodeAll_cons, List.append_assoc, decodeAll, ht, hd, decode_encode, ih]

theorem decodeAll_encodeAll (L : ByteLayout α) (as : List α) :
    L.decodeAll as.length (L.encodeAll as) = as := by
  simpa using L.decodeAll_encodeAll_append as []

def alignUp (x align : ℕ) : ℕ := (x + align - 1) / align * align

-- The size of a struct from the sizes and the alignments of its members.
def structSize (members : List (ℕ × ℕ)) : ℕ :=
  alignUp (members.foldl (fun offset member => alignUp offset member.2 + member.1) 0)
    ((members.map Prod.snd).foldl max 1)

end ByteLayout
