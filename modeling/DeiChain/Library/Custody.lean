import Mathlib.Data.List.Nodup
import Mathlib.Data.Set.Insert
import Mathlib.Logic.Function.Basic

namespace Custody

variable {X H : Type*}

-- Tokens that are issued once, may lie in a common stock, may be held, and are finally spent.
structure Account (X H : Type*) where
  issued : Set X
  available : Set X
  held : H → List X
  spent : List X

structure Sound (a : Account X H) : Prop where
  available_issued : ∀ x ∈ a.available, x ∈ a.issued
  held_issued : ∀ h, ∀ x ∈ a.held h, x ∈ a.issued
  spent_issued : ∀ x ∈ a.spent, x ∈ a.issued
  held_nodup : ∀ h, (a.held h).Nodup
  held_disjoint : ∀ h h', h ≠ h' → (a.held h).Disjoint (a.held h')
  held_unavailable : ∀ h, ∀ x ∈ a.held h, x ∉ a.available
  spent_nodup : a.spent.Nodup
  spent_unavailable : ∀ x ∈ a.spent, x ∉ a.available
  spent_unheld : ∀ h, ∀ x ∈ a.held h, x ∉ a.spent

theorem sound_of_empty {a : Account X H} (hstock : ∀ x, x ∉ a.available)
    (hheld : ∀ h, a.held h = []) (hspent : a.spent = []) : Sound a where
  available_issued x hx := absurd hx (hstock x)
  held_issued h x hx := by simp [hheld] at hx
  spent_issued x hx := by simp [hspent] at hx
  held_nodup h := by simp [hheld]
  held_disjoint h h' _ := by simp [hheld]
  held_unavailable h x hx := by simp [hheld] at hx
  spent_nodup := by simp [hspent]
  spent_unavailable x hx := by simp [hspent] at hx
  spent_unheld h x hx := by simp [hheld] at hx

theorem Sound.restock {a : Account X H} (ha : Sound a) (stock : Set X)
    (hstock : ∀ x ∈ stock, x ∈ a.issued ∧ (∀ h, x ∉ a.held h) ∧ x ∉ a.spent) :
    Sound { a with available := stock } where
  available_issued x hx := (hstock x hx).1
  held_issued := ha.held_issued
  spent_issued := ha.spent_issued
  held_nodup := ha.held_nodup
  held_disjoint := ha.held_disjoint
  held_unavailable h x hx hmem := (hstock x hmem).2.1 h hx
  spent_nodup := ha.spent_nodup
  spent_unavailable x hx hmem := (hstock x hmem).2.2 hx
  spent_unheld := ha.spent_unheld

theorem Sound.issued_mono {a : Account X H} (ha : Sound a) {issued : Set X}
    (hle : ∀ x ∈ a.issued, x ∈ issued) : Sound { a with issued := issued } where
  available_issued x hx := hle x (ha.available_issued x hx)
  held_issued h x hx := hle x (ha.held_issued h x hx)
  spent_issued x hx := hle x (ha.spent_issued x hx)
  held_nodup := ha.held_nodup
  held_disjoint := ha.held_disjoint
  held_unavailable := ha.held_unavailable
  spent_nodup := ha.spent_nodup
  spent_unavailable := ha.spent_unavailable
  spent_unheld := ha.spent_unheld

variable [DecidableEq H]

-- Each move may also lose tokens of the stock.
inductive Move (a b : Account X H) : Prop
  | keep (issued : b.issued = a.issued) (available : b.available ⊆ a.available)
      (held : b.held = a.held) (spent : b.spent = a.spent)
  | issue (x : X) (fresh : x ∉ a.issued) (issued : b.issued = insert x a.issued)
      (available : b.available ⊆ insert x a.available) (held : b.held = a.held)
      (spent : b.spent = a.spent)
  | take (h : H) (xs : List X) (stock : ∀ x ∈ xs, x ∈ a.available) (nodup : xs.Nodup)
      (issued : b.issued = a.issued) (available : ∀ x ∈ b.available, x ∈ a.available ∧ x ∉ xs)
      (held : b.held = Function.update a.held h xs) (spent : b.spent = a.spent)
  | pass (h h' : H) (issued : b.issued = a.issued) (available : b.available ⊆ a.available)
      (held : b.held = Function.update (Function.update a.held h []) h' (a.held h))
      (spent : b.spent = a.spent)
  | release (h : H) (issued : b.issued = a.issued)
      (available : ∀ x ∈ b.available, x ∈ a.available ∨ x ∈ a.held h)
      (held : b.held = Function.update a.held h []) (spent : b.spent = a.spent)
  | spend (h : H) (issued : b.issued = a.issued) (available : b.available ⊆ a.available)
      (held : b.held = Function.update a.held h []) (spent : b.spent = a.spent ++ a.held h)

theorem mem_update {held : H → List X} {h g : H} {xs : List X} {x : X}
    (hx : x ∈ Function.update held h xs g) : (g = h ∧ x ∈ xs) ∨ (g ≠ h ∧ x ∈ held g) := by
  by_cases hg : g = h
  · subst hg
    rw [Function.update_self] at hx
    exact .inl ⟨rfl, hx⟩
  · rw [Function.update_of_ne hg] at hx
    exact .inr ⟨hg, hx⟩

theorem nodup_update {held : H → List X} {h : H} {xs : List X}
    (hheld : ∀ g, (held g).Nodup) (hxs : xs.Nodup) (g : H) :
    (Function.update held h xs g).Nodup := by
  by_cases hg : g = h
  · rw [hg, Function.update_self]
    exact hxs
  · rw [Function.update_of_ne hg]
    exact hheld g

theorem disjoint_update {held : H → List X} {h : H} {xs : List X}
    (hheld : ∀ g g', g ≠ g' → (held g).Disjoint (held g'))
    (hxs : ∀ g, g ≠ h → xs.Disjoint (held g)) (g g' : H) (hne : g ≠ g') :
    (Function.update held h xs g).Disjoint (Function.update held h xs g') := by
  intro x hg hg'
  rcases mem_update hg with ⟨rfl, hx⟩ | ⟨hgh, hx⟩
  · rcases mem_update hg' with ⟨rfl, -⟩ | ⟨hgh', hx'⟩
    · exact hne rfl
    · exact hxs g' hgh' hx hx'
  · rcases mem_update hg' with ⟨rfl, hx'⟩ | ⟨-, hx'⟩
    · exact hxs g hgh hx' hx
    · exact hheld g g' hne hx hx'

theorem Sound.release_held {a : Account X H} (ha : Sound a) (h : H) :
    Sound { a with held := Function.update a.held h [] } where
  available_issued := ha.available_issued
  held_issued g x hx := by
    rcases mem_update hx with ⟨-, hx⟩ | ⟨-, hx⟩
    · cases hx
    · exact ha.held_issued g x hx
  spent_issued := ha.spent_issued
  held_nodup := nodup_update ha.held_nodup List.nodup_nil
  held_disjoint := disjoint_update ha.held_disjoint (fun _ _ => List.disjoint_nil_left _)
  held_unavailable g x hx := by
    rcases mem_update hx with ⟨-, hx⟩ | ⟨-, hx⟩
    · cases hx
    · exact ha.held_unavailable g x hx
  spent_nodup := ha.spent_nodup
  spent_unavailable := ha.spent_unavailable
  spent_unheld g x hx := by
    rcases mem_update hx with ⟨-, hx⟩ | ⟨-, hx⟩
    · cases hx
    · exact ha.spent_unheld g x hx

theorem Sound.give {a : Account X H} (ha : Sound a) (h : H) {xs : List X} (hnodup : xs.Nodup)
    (hissued : ∀ x ∈ xs, x ∈ a.issued) (hunheld : ∀ g, g ≠ h → xs.Disjoint (a.held g))
    (hunavailable : ∀ x ∈ xs, x ∉ a.available) (hunspent : ∀ x ∈ xs, x ∉ a.spent) :
    Sound { a with held := Function.update a.held h xs } where
  available_issued := ha.available_issued
  held_issued g x hx := by
    rcases mem_update hx with ⟨-, hx⟩ | ⟨-, hx⟩
    · exact hissued x hx
    · exact ha.held_issued g x hx
  spent_issued := ha.spent_issued
  held_nodup := nodup_update ha.held_nodup hnodup
  held_disjoint := disjoint_update ha.held_disjoint hunheld
  held_unavailable g x hx := by
    rcases mem_update hx with ⟨-, hx⟩ | ⟨-, hx⟩
    · exact hunavailable x hx
    · exact ha.held_unavailable g x hx
  spent_nodup := ha.spent_nodup
  spent_unavailable := ha.spent_unavailable
  spent_unheld g x hx := by
    rcases mem_update hx with ⟨-, hx⟩ | ⟨-, hx⟩
    · exact hunspent x hx
    · exact ha.spent_unheld g x hx

theorem Sound.spend_held {a : Account X H} (ha : Sound a) (h : H) :
    Sound { a with
      held := Function.update a.held h []
      spent := a.spent ++ a.held h } where
  available_issued := ha.available_issued
  held_issued := (ha.release_held h).held_issued
  spent_issued x hx := by
    rcases List.mem_append.mp hx with hx | hx
    · exact ha.spent_issued x hx
    · exact ha.held_issued h x hx
  held_nodup := (ha.release_held h).held_nodup
  held_disjoint := (ha.release_held h).held_disjoint
  held_unavailable := (ha.release_held h).held_unavailable
  spent_nodup := List.nodup_append.mpr ⟨ha.spent_nodup, ha.held_nodup h,
    fun x hx y hy hxy => ha.spent_unheld h y hy (hxy ▸ hx)⟩
  spent_unavailable x hx := by
    rcases List.mem_append.mp hx with hx | hx
    · exact ha.spent_unavailable x hx
    · exact ha.held_unavailable h x hx
  spent_unheld g x hx hmem := by
    rcases mem_update hx with ⟨-, hx⟩ | ⟨hg, hx⟩
    · cases hx
    · rcases List.mem_append.mp hmem with hmem | hmem
      · exact ha.spent_unheld g x hx hmem
      · exact ha.held_disjoint g h hg hx hmem

theorem Move.sound {a b : Account X H} (hmove : Move a b) (ha : Sound a) : Sound b := by
  obtain ⟨issued, stock, held, spent⟩ := b
  cases hmove with
  | keep hissued havailable hheld hspent =>
    subst hissued hheld hspent
    exact ha.restock _ (fun x hx => ⟨ha.available_issued x (havailable hx),
      fun h hmem => ha.held_unavailable h x hmem (havailable hx),
      fun hmem => ha.spent_unavailable x hmem (havailable hx)⟩)
  | issue x hfresh hissued havailable hheld hspent =>
    subst hissued hheld hspent
    have hmore := ha.issued_mono (fun y hy => Set.mem_insert_of_mem x hy)
    refine hmore.restock _ (fun y hy => ?_)
    rcases havailable hy with rfl | hold
    · exact ⟨Set.mem_insert _ _, fun h hmem => hfresh (ha.held_issued h _ hmem),
        fun hmem => hfresh (ha.spent_issued _ hmem)⟩
    · exact ⟨hmore.available_issued y hold, fun h hmem => ha.held_unavailable h y hmem hold,
        fun hmem => ha.spent_unavailable y hmem hold⟩
  | take h xs hstock hnodup hissued havailable hheld hspent =>
    subst hissued hheld hspent
    have hless := ha.restock stock (fun x hx => ⟨ha.available_issued x
      (havailable x hx).1, fun g hmem => ha.held_unavailable g x hmem (havailable x hx).1,
      fun hmem => ha.spent_unavailable x hmem (havailable x hx).1⟩)
    exact hless.give h hnodup (fun x hx => ha.available_issued x (hstock x hx))
      (fun g _ x hx hmem => ha.held_unavailable g x hmem (hstock x hx))
      (fun x hx hmem => (havailable x hmem).2 hx)
      (fun x hx hmem => ha.spent_unavailable x hmem (hstock x hx))
  | pass h h' hissued havailable hheld hspent =>
    subst hissued hheld hspent
    have hless := (ha.release_held h).restock stock (fun x hx =>
      ⟨ha.available_issued x (havailable hx), fun g hmem =>
        (ha.release_held h).held_unavailable g x hmem (havailable hx),
        fun hmem => ha.spent_unavailable x hmem (havailable hx)⟩)
    refine hless.give h' (ha.held_nodup h) (ha.held_issued h) ?_
      (fun x hx hmem => ha.held_unavailable h x hx (havailable hmem)) (ha.spent_unheld h)
    intro g _ x hx hmem
    rcases mem_update hmem with ⟨-, hmem⟩ | ⟨hg, hmem⟩
    · cases hmem
    · exact ha.held_disjoint g h hg hmem hx
  | release h hissued havailable hheld hspent =>
    subst hissued hheld hspent
    refine (ha.release_held h).restock _ (fun x hx => ?_)
    rcases havailable x hx with hold | hback
    · exact ⟨ha.available_issued x hold, fun g hmem =>
        (ha.release_held h).held_unavailable g x hmem hold,
        fun hmem => ha.spent_unavailable x hmem hold⟩
    · refine ⟨ha.held_issued h x hback, fun g hmem => ?_, ha.spent_unheld h x hback⟩
      rcases mem_update hmem with ⟨-, hmem⟩ | ⟨hg, hmem⟩
      · cases hmem
      · exact ha.held_disjoint g h hg hmem hback
  | spend h hissued havailable hheld hspent =>
    subst hissued hheld hspent
    exact (ha.spend_held h).restock _ (fun x hx => ⟨ha.available_issued x (havailable hx),
      fun g hmem => (ha.spend_held h).held_unavailable g x hmem (havailable hx),
      fun hmem => (ha.spend_held h).spent_unavailable x hmem (havailable hx)⟩)

end Custody
