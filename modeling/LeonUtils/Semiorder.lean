import Mathlib.Order.Lattice

/-!
# Smaller by a margin

A relation between elements that are compared with a margin: what is smaller is smaller by more than
the margin. Steps within the margin add up, so that what is not smaller is not the same. What is
left of an order is a semiorder: the relation is transitive, by `cross` and `irrefl`, and one margin
goes for all elements.

## Main definitions

* `IsSemiorder` — the laws

## Main results

* `IsSemiorder.of_lower` — comparing with a lowered element
-/

variable {α β : Type*}

/-- The laws of a relation that compares with a margin. -/
structure IsSemiorder (r : α → α → Prop) : Prop where
  irrefl : ∀ a, ¬ r a a
  cross : ∀ {a b c d}, r a b → r c d → r a d ∨ r c b
  between : ∀ {a b c}, r a b → r b c → ∀ d, r a d ∨ r d c

namespace IsSemiorder

/-- Comparing with a lowered element. -/
theorem of_lower [LinearOrder β] {lower : β → β} (hmono : Monotone lower)
    (hle : ∀ b, lower b ≤ b) (f : α → β) : IsSemiorder fun a b => f a < lower (f b) where
  irrefl a := not_lt.mpr (hle (f a))
  cross {a b c d} hab hcd := by
    by_contra hnot
    obtain ⟨had, hcb⟩ := not_or.mp hnot
    have hlt : f a < f a :=
      calc f a < lower (f b) := hab
        _ ≤ f c := not_lt.mp hcb
        _ < lower (f d) := hcd
        _ ≤ f a := not_lt.mp had
    exact lt_irrefl _ hlt
  between {a b c} hab hbc d := by
    by_contra hnot
    obtain ⟨had, hdc⟩ := not_or.mp hnot
    have hbd : f b < f d := hbc.trans_le (not_lt.mp hdc)
    have hlt : f a < f a :=
      calc f a < lower (f b) := hab
        _ ≤ lower (f d) := hmono hbd.le
        _ ≤ f a := not_lt.mp had
    exact lt_irrefl _ hlt

end IsSemiorder
