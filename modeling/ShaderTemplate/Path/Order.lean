import ShaderTemplate.Path.Basic

/-!
# The order of paths

Paths are ordered step by step: the root comes before `.`, which comes before `..`, which comes
before every name, and names are ordered character by character. The order is that of a key, a list
of lists of numbers, so it is a linear order on steps; paths that take the same steps have the same
key.
-/

namespace ShaderTemplate

/-- The key of a step; names follow the other steps and are ordered by their characters. -/
def Component.orderKey : Component → List Nat
  | .root => [0]
  | .current => [1]
  | .parent => [2]
  | .name text => 3 :: text.toList.map Char.toNat

theorem Component.orderKey_inj {a b : Component} (h : a.orderKey = b.orderKey) : a = b := by
  cases a <;> cases b <;> simp_all [Component.orderKey]
  next s t =>
    exact String.toList_inj.mp ((List.map_inj_right fun _ _ => Char.toNat_inj.mp).mp h)

namespace Path

/-- The key that orders paths. -/
def orderKey (p : Path) : List (List Nat) :=
  p.components.map Component.orderKey

/-- Decide whether a path comes before another. -/
def Before (p q : Path) : Prop :=
  p.orderKey < q.orderKey

instance (p q : Path) : Decidable (p.Before q) :=
  inferInstanceAs (Decidable (p.orderKey < q.orderKey))

/-- Paths with the same key take the same steps. -/
theorem same_iff_orderKey_eq {p q : Path} : p.Same q ↔ p.orderKey = q.orderKey :=
  (List.map_inj_right fun _ _ => Component.orderKey_inj).symm

theorem Before.trans {p q r : Path} (h : p.Before q) (h' : q.Before r) : p.Before r :=
  List.lt_trans h h'

theorem not_before_self (p : Path) : ¬ p.Before p :=
  List.lt_irrefl _

/-- Of two paths that do not take the same steps one comes first. -/
theorem same_of_not_before {p q : Path} (h : ¬ p.Before q) (h' : ¬ q.Before p) : p.Same q :=
  same_iff_orderKey_eq.mpr (Std.Trichotomous.trichotomous _ _ h h')

end Path

end ShaderTemplate
