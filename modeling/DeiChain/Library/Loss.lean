import DeiChain.Library.Custody

namespace Custody

variable {X H : Type*} {a b : Account X H} {xs : List X}

def Account.present (a : Account X H) : Set X :=
  {x | x ∈ a.available ∨ (∃ h, x ∈ a.held h) ∨ x ∈ a.spent}

-- Issued tokens that are nowhere any more.
def Account.lost (a : Account X H) : Set X := a.issued \ a.present

theorem mem_present {x : X} :
    x ∈ a.present ↔ x ∈ a.available ∨ (∃ h, x ∈ a.held h) ∨ x ∈ a.spent := Iff.rfl

theorem mem_lost {x : X} : x ∈ a.lost ↔ x ∈ a.issued ∧ x ∉ a.present := Iff.rfl

theorem Sound.present_issued (ha : Sound a) {x : X} (hx : x ∈ a.present) : x ∈ a.issued := by
  rcases hx with hstock | ⟨h, hheld⟩ | hspent
  · exact ha.available_issued x hstock
  · exact ha.held_issued h x hheld
  · exact ha.spent_issued x hspent

-- A move that loses exactly the tokens xs, none of which was lost before.
structure Loses (a b : Account X H) (xs : List X) : Prop where
  nodup : xs.Nodup
  fresh : ∀ x ∈ xs, x ∉ a.lost
  lost : ∀ x, x ∈ b.lost ↔ x ∈ xs ∨ x ∈ a.lost

theorem loses_none (hissued : b.issued = a.issued)
    (hpresent : ∀ x, x ∈ b.present ↔ x ∈ a.present) : Loses a b [] where
  nodup := List.nodup_nil
  fresh x hx := by cases hx
  lost x := by
    rw [mem_lost, mem_lost, hissued, hpresent]
    exact (or_iff_right List.not_mem_nil).symm

theorem loses_keep (hissued : b.issued = a.issued)
    (havailable : ∀ x, x ∈ b.available ↔ x ∈ a.available) (hheld : b.held = a.held)
    (hspent : b.spent = a.spent) : Loses a b [] := by
  refine loses_none hissued (fun x => ?_)
  simp only [mem_present, havailable, hheld, hspent]

theorem loses_issue {x : X} (hfresh : x ∉ a.issued)
    (hissued : b.issued = insert x a.issued)
    (havailable : ∀ y, y ∈ b.available ↔ y = x ∨ y ∈ a.available) (hheld : b.held = a.held)
    (hspent : b.spent = a.spent) : Loses a b [] where
  nodup := List.nodup_nil
  fresh y hy := by cases hy
  lost y := by
    simp only [mem_lost, mem_present, hissued, Set.mem_insert_iff, havailable, hheld, hspent,
      List.not_mem_nil, false_or]
    refine ⟨?_, ?_⟩
    · rintro ⟨rfl | hold, hnot⟩
      · exact absurd (.inl (.inl rfl)) hnot
      · exact ⟨hold, fun hpresent => hnot (hpresent.imp_left .inr)⟩
    · rintro ⟨hold, hnot⟩
      refine ⟨.inr hold, ?_⟩
      rintro ((rfl | hstock) | hrest)
      · exact hfresh hold
      · exact hnot (.inl hstock)
      · exact hnot (.inr hrest)

theorem Sound.loses_refused (ha : Sound a) {x : X} (hfresh : x ∉ a.issued)
    (hissued : b.issued = insert x a.issued)
    (havailable : ∀ y, y ∈ b.available ↔ y ∈ a.available) (hheld : b.held = a.held)
    (hspent : b.spent = a.spent) : Loses a b [x] where
  nodup := List.nodup_singleton x
  fresh y hy hlost := hfresh (List.mem_singleton.mp hy ▸ hlost.1)
  lost y := by
    have hsame : y ∈ b.present ↔ y ∈ a.present := by
      simp only [mem_present, havailable, hheld, hspent]
    have habsent : x ∉ a.present := fun hx => hfresh (ha.present_issued hx)
    rw [mem_lost, mem_lost, hissued, hsame,
      Set.mem_insert_iff, List.mem_singleton, or_and_right]
    refine or_congr_left (and_iff_left_of_imp ?_)
    rintro rfl
    exact habsent

variable [DecidableEq H]

theorem exists_mem_update {held : H → List X} {h : H} {x : X} :
    (∃ g, x ∈ Function.update held h xs g) ↔ x ∈ xs ∨ ∃ g, g ≠ h ∧ x ∈ held g := by
  refine ⟨?_, ?_⟩
  · rintro ⟨g, hg⟩
    rcases mem_update hg with ⟨-, hx⟩ | ⟨hne, hx⟩
    · exact .inl hx
    · exact .inr ⟨g, hne, hx⟩
  · rintro (hx | ⟨g, hne, hx⟩)
    · exact ⟨h, by rwa [Function.update_self]⟩
    · exact ⟨g, by rwa [Function.update_of_ne hne]⟩

theorem exists_mem_held {held : H → List X} (h : H) {x : X} :
    (∃ g, x ∈ held g) ↔ x ∈ held h ∨ ∃ g, g ≠ h ∧ x ∈ held g := by
  rw [← exists_mem_update, Function.update_eq_self]

-- The holder h gives up its tokens: those of xs vanish, the others return to the stock.
theorem Sound.loses_drop (ha : Sound a) (h : H) (hnodup : xs.Nodup)
    (hsub : ∀ x ∈ xs, x ∈ a.held h) (hissued : b.issued = a.issued)
    (havailable : ∀ x, x ∈ b.available ↔ x ∈ a.available ∨ (x ∈ a.held h ∧ x ∉ xs))
    (hheld : b.held = Function.update a.held h []) (hspent : b.spent = a.spent) :
    Loses a b xs where
  nodup := hnodup
  fresh x hx hlost := hlost.2 (.inr (.inl ⟨h, hsub x hx⟩))
  lost x := by
    have hafter : x ∈ b.present ↔ (x ∈ a.available ∨ (x ∈ a.held h ∧ x ∉ xs)) ∨
        (∃ g, g ≠ h ∧ x ∈ a.held g) ∨ x ∈ a.spent := by
      rw [mem_present, havailable, hheld, hspent, exists_mem_update,
        or_iff_right List.not_mem_nil]
    have hbefore : x ∈ a.present ↔ x ∈ a.available ∨
        (x ∈ a.held h ∨ ∃ g, g ≠ h ∧ x ∈ a.held g) ∨ x ∈ a.spent := by
      rw [mem_present, exists_mem_held h]
    rw [mem_lost, mem_lost, hissued]
    by_cases hx : x ∈ xs
    · have hmine := hsub x hx
      have habsent : x ∉ b.present := by
        rw [hafter]
        rintro ((hstock | ⟨-, hnot⟩) | ⟨g, hne, hother⟩ | hgone)
        · exact ha.held_unavailable h x hmine hstock
        · exact hnot hx
        · exact ha.held_disjoint g h hne hother hmine
        · exact ha.spent_unheld h x hmine hgone
      exact iff_of_true ⟨ha.held_issued h x hmine, habsent⟩ (.inl hx)
    · have hsame : x ∈ b.present ↔ x ∈ a.present := by
        rw [hafter, hbefore]
        simp only [hx, not_false_eq_true, and_true]
        simp only [or_assoc]
      rw [hsame]
      exact (or_iff_right hx).symm

theorem loses_take {h : H} (hnone : a.held h = []) (hissued : b.issued = a.issued)
    (havailable : ∀ x, x ∈ a.available ↔ x ∈ b.available ∨ x ∈ xs)
    (hheld : b.held = Function.update a.held h xs) (hspent : b.spent = a.spent) :
    Loses a b [] := by
  refine loses_none hissued (fun x => ?_)
  have hold : (∃ g, x ∈ a.held g) ↔ x ∈ a.held h ∨ ∃ g, g ≠ h ∧ x ∈ a.held g := exists_mem_held h
  rw [hnone, or_iff_right List.not_mem_nil] at hold
  rw [mem_present, mem_present, havailable, hheld,
    hspent, exists_mem_update, hold]
  simp only [or_assoc]

theorem loses_pass (h h' : H) (hne : h' ≠ h) (hnone : a.held h' = [])
    (hissued : b.issued = a.issued) (havailable : ∀ x, x ∈ b.available ↔ x ∈ a.available)
    (hheld : b.held = Function.update (Function.update a.held h []) h' (a.held h))
    (hspent : b.spent = a.spent) : Loses a b [] := by
  refine loses_none hissued (fun x => ?_)
  have hnew : (∃ g, x ∈ b.held g) ↔ ∃ g, x ∈ a.held g := by
    rw [hheld, exists_mem_update, exists_mem_held h]
    refine or_congr_right ⟨?_, ?_⟩
    · rintro ⟨g, -, hg⟩
      rcases mem_update hg with ⟨-, hx⟩ | ⟨hgh, hx⟩
      · cases hx
      · exact ⟨g, hgh, hx⟩
    · rintro ⟨g, hgh, hx⟩
      refine ⟨g, ?_, by rwa [Function.update_of_ne hgh]⟩
      rintro rfl
      rw [hnone] at hx
      cases hx
  rw [mem_present, mem_present, havailable, hnew,
    hspent]

theorem loses_spend {h : H} (hissued : b.issued = a.issued)
    (havailable : ∀ x, x ∈ b.available ↔ x ∈ a.available)
    (hheld : b.held = Function.update a.held h []) (hspent : b.spent = a.spent ++ a.held h) :
    Loses a b [] := by
  refine loses_none hissued (fun x => ?_)
  rw [mem_present, mem_present, havailable, hheld,
    hspent, exists_mem_update, or_iff_right List.not_mem_nil, List.mem_append,
    exists_mem_held h]
  refine or_congr_right ?_
  rw [or_comm (a := x ∈ a.held h), or_assoc, or_comm (a := x ∈ a.held h)]

end Custody
