import DeiChain.Library.Transition

namespace Transition

variable {S L O : Type*} {step : S → L → Option S} {record : S → L → S → O → O}
  {allow : S → L → Prop}

-- A record kept beside a system, which never decides what the system does.
def watch (step : S → L → Option S) (record : S → L → S → O → O) (p : S × O) (l : L) :
    Option (S × O) :=
  (step p.1 l).map (fun t => (t, record p.1 l t p.2))

def watching (allow : S → L → Prop) (p : S × O) (l : L) : Prop := allow p.1 l

instance [∀ s l, Decidable (allow s l)] (p : S × O) (l : L) : Decidable (watching allow p l) :=
  inferInstanceAs (Decidable (allow p.1 l))

theorem watch_eq_some {p q : S × O} {l : L} (h : watch step record p l = some q) :
    step p.1 l = some q.1 ∧ q.2 = record p.1 l q.1 p.2 := by
  obtain ⟨t, ht, rfl⟩ := Option.map_eq_some_iff.mp h
  exact ⟨ht, rfl⟩

theorem Reachable.forget {p q : S × O} (h : Reachable (watch step record) (watching allow) p q) :
    Reachable step allow p.1 q.1 := by
  refine h.invariant (I := fun q => Reachable step allow p.1 q.1) (.refl _) ?_
  intro a l b ha hallow hstep
  exact ha.tail hallow (watch_eq_some hstep).1

end Transition
