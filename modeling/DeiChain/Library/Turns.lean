import Mathlib.Data.Nat.Notation
import Mathlib.Logic.Basic

namespace Turns

-- A program that works on shared data in turns; what it does next depends on what it has read.
inductive Program (D X : Type) where
  | last (f : D → D × X)
  | more (f : D → D) (next : D → Program D X)

variable {D X Y : Type}

namespace Program

def run : Program D X → D → D × X
  | last f, d => f d
  | more f next, d => run (next d) (f d)

-- The turns the program takes when nobody else works on the data.
def turns : Program D X → D → ℕ
  | last _, _ => 1
  | more f next, d => turns (next d) (f d) + 1

def bind : Program D X → (X → Program D Y) → Program D Y
  | last f, g => more (fun d => (f d).1) (fun d => g (f d).2)
  | more f next, g => more f (fun d => bind (next d) g)

def map (g : X → Y) : Program D X → Program D Y
  | last f => last (fun d => ((f d).1, g (f d).2))
  | more f next => more f (fun d => map g (next d))

instance : Monad (Program D) where
  pure x := last (fun d => (d, x))
  bind := bind
  map := map

def access (f : D → D × X) : Program D X := last f

def read (f : D → X) : Program D X := access (fun d => (d, f d))

def modify (f : D → D) : Program D Unit := access (fun d => (f d, ()))

@[simp] theorem run_pure (x : X) (d : D) : (pure x : Program D X).run d = (d, x) := rfl

@[simp] theorem run_read (f : D → X) (d : D) : (read f).run d = (d, f d) := rfl

@[simp] theorem run_modify (f : D → D) (d : D) : (modify f).run d = (f d, ()) := rfl

@[simp] theorem run_bind (p : Program D X) (g : X → Program D Y) (d : D) :
    (p >>= g).run d = (g (p.run d).2).run (p.run d).1 := by
  change (p.bind g).run d = _
  induction p generalizing d with
  | last f => rfl
  | more f next ih => exact ih d (f d)

@[simp] theorem run_map (p : Program D X) (g : X → Y) (d : D) :
    (g <$> p).run d = ((p.run d).1, g (p.run d).2) := by
  change (p.map g).run d = _
  induction p generalizing d with
  | last f => rfl
  | more f next ih => exact ih d (f d)

@[simp] theorem turns_pure (x : X) (d : D) : (pure x : Program D X).turns d = 1 := rfl

@[simp] theorem turns_read (f : D → X) (d : D) : (read f).turns d = 1 := rfl

@[simp] theorem turns_modify (f : D → D) (d : D) : (modify f).turns d = 1 := rfl

@[simp] theorem turns_bind (p : Program D X) (g : X → Program D Y) (d : D) :
    (p >>= g).turns d = p.turns d + (g (p.run d).2).turns (p.run d).1 := by
  change (p.bind g).turns d = _
  induction p generalizing d with
  | last f => exact Nat.add_comm _ _
  | more f next ih =>
    have hrest := ih d (f d)
    simp only [bind, turns, run, hrest]
    omega

@[simp] theorem turns_map (p : Program D X) (g : X → Y) (d : D) :
    (g <$> p).turns d = p.turns d := by
  change (p.map g).turns d = _
  induction p generalizing d with
  | last f => rfl
  | more f next ih => exact congrArg (· + 1) (ih d (f d))

-- What holds of the data after every turn but the last.
def Keeps (I : D → Prop) : Program D X → D → Prop
  | last _, _ => True
  | more f next, d => I (f d) ∧ Keeps I (next d) (f d)

@[simp] theorem keeps_read (I : D → Prop) (f : D → X) (d : D) : (read f).Keeps I d := trivial

@[simp] theorem keeps_modify (I : D → Prop) (f : D → D) (d : D) : (modify f).Keeps I d := trivial

@[simp] theorem keeps_pure (I : D → Prop) (x : X) (d : D) :
    (pure x : Program D X).Keeps I d := trivial

@[simp] theorem keeps_bind (I : D → Prop) (p : Program D X) (g : X → Program D Y) (d : D) :
    (p >>= g).Keeps I d ↔ p.Keeps I d ∧ I (p.run d).1 ∧ (g (p.run d).2).Keeps I (p.run d).1 := by
  change (p.bind g).Keeps I d ↔ _
  induction p generalizing d with
  | last f => simp [bind, Keeps, run]
  | more f next ih =>
    have hrest := ih d (f d)
    simp only [bind, Keeps, run, hrest, and_assoc]

-- A result is converted in the turn that gives it.
@[simp] theorem keeps_map (I : D → Prop) (p : Program D X) (g : X → Y) (d : D) :
    (g <$> p).Keeps I d ↔ p.Keeps I d := by
  change (p.map g).Keeps I d ↔ _
  induction p generalizing d with
  | last f => exact Iff.rfl
  | more f next ih => exact and_congr_right' (ih d (f d))

-- The points a program passes while nobody else works on the data.
inductive Path (p₀ : Program D X) (d₀ : D) : Program D X → D → Prop
  | refl : Path p₀ d₀ p₀ d₀
  | more {f : D → D} {next : D → Program D X} {d : D} (h : Path p₀ d₀ (.more f next) d) :
      Path p₀ d₀ (next d) (f d)

theorem Path.run_eq {p₀ p : Program D X} {d₀ d : D} (h : Path p₀ d₀ p d) :
    p.run d = p₀.run d₀ := by
  induction h with
  | refl => rfl
  | more _ ih => exact ih

theorem Path.turns_le {p₀ p : Program D X} {d₀ d : D} (h : Path p₀ d₀ p d) :
    p.turns d ≤ p₀.turns d₀ := by
  induction h with
  | refl => exact Nat.le_refl _
  | more _ ih => exact Nat.le_of_succ_le ih

theorem Path.keeps {I : D → Prop} {p₀ p : Program D X} {d₀ d : D} (h : Path p₀ d₀ p d)
    (hkeeps : p₀.Keeps I d₀) (h₀ : I d₀) : I d ∧ p.Keeps I d := by
  induction h with
  | refl => exact ⟨h₀, hkeeps⟩
  | more _ ih => exact ih.2

end Program

end Turns
