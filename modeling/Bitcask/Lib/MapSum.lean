import Mathlib.Data.Finmap
import Mathlib.Algebra.BigOperators.Group.Multiset.Basic
import Mathlib.Tactic

/-!
# Sums over finite maps

`total f m` adds `f a b` over the entries of `m`. An insertion adds the new entry and takes off the
one it replaces (`total_insert`), an erasure takes off one entry (`total_erase`), and a weight that
grows at one entry makes the sum grow by as much (`total_grow`).
-/

namespace MapSum

variable {α β : Type} [DecidableEq α] {f g : α → β → ℕ} {m : Finmap fun _ : α => β} {a : α} {b : β}

def total (f : α → β → ℕ) (m : Finmap fun _ : α => β) : ℕ := (m.entries.map fun e => f e.1 e.2).sum

/-- The weight of the entry of `a`, if there is one. -/
def weightAt (f : α → β → ℕ) (m : Finmap fun _ : α => β) (a : α) : ℕ := ((m.lookup a).map (f a)).getD 0

theorem total_insert_new (h : m.lookup a = none) : total f (m.insert a b) = total f m + f a b := by
  unfold total
  rw [Finmap.entries_insert_of_notMem (Finmap.lookup_eq_none.mp h), Multiset.map_cons,
    Multiset.sum_cons, Nat.add_comm]

theorem insert_erase (h : m.lookup a = some b) : (m.erase a).insert a b = m := by
  apply Finmap.ext_lookup
  intro x
  by_cases hx : x = a
  · subst hx
    rw [Finmap.lookup_insert, h]
  · rw [Finmap.lookup_insert_of_ne _ hx, Finmap.lookup_erase_ne hx]

theorem total_erase (f : α → β → ℕ) (m : Finmap fun _ : α => β) (a : α) :
    total f (m.erase a) + weightAt f m a = total f m := by
  unfold weightAt
  cases h : m.lookup a with
  | none =>
    have hsame : m.erase a = m := by
      apply Finmap.ext_lookup
      intro x
      by_cases hx : x = a
      · subst hx
        rw [Finmap.lookup_erase, h]
      · rw [Finmap.lookup_erase_ne hx]
    rw [hsame]
    rfl
  | some b =>
    have hnew := total_insert_new (f := f) (b := b) (Finmap.lookup_erase a m)
    rw [insert_erase h] at hnew
    exact hnew.symm

theorem total_insert (f : α → β → ℕ) (m : Finmap fun _ : α => β) (a : α) (b : β) :
    total f (m.insert a b) + weightAt f m a = total f m + f a b := by
  have hsame : m.insert a b = (m.erase a).insert a b := by
    apply Finmap.ext_lookup
    intro x
    by_cases hx : x = a
    · subst hx
      rw [Finmap.lookup_insert, Finmap.lookup_insert]
    · rw [Finmap.lookup_insert_of_ne _ hx, Finmap.lookup_insert_of_ne _ hx, Finmap.lookup_erase_ne hx]
  rw [hsame, total_insert_new (Finmap.lookup_erase a m), ← total_erase f m a]
  omega

theorem total_congr (h : ∀ a b, m.lookup a = some b → g a b = f a b) : total g m = total f m := by
  unfold total
  rw [Multiset.map_congr rfl]
  intro e he
  exact h e.1 e.2 (Finmap.lookup_eq_some_iff.mpr he)

/-- A weight that grows by `n` at one entry. -/
theorem total_grow {n : ℕ} (ha : m.lookup a = some b) (hab : g a b = f a b + n)
    (h : ∀ a' b', a' ≠ a → m.lookup a' = some b' → g a' b' = f a' b') :
    total g m = total f m + n := by
  have hrest : total g (m.erase a) = total f (m.erase a) := by
    apply total_congr
    intro x y hxy
    have hx : x ≠ a := by
      rintro rfl
      rw [Finmap.lookup_erase] at hxy
      cases hxy
    rw [Finmap.lookup_erase_ne hx] at hxy
    exact h x y hx hxy
  have hf := total_insert_new (f := f) (b := b) (Finmap.lookup_erase a m)
  have hg := total_insert_new (f := g) (b := b) (Finmap.lookup_erase a m)
  rw [insert_erase ha] at hf hg
  rw [hf, hg, hrest, hab, Nat.add_assoc]

end MapSum
