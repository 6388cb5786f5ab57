import Mathlib.Data.List.Induction
import ShaderTemplate.Source.Position

/-!
# Positions and the text before them

The position of a character counts the text before it: its line is told by the line feeds there, its
column by the characters since the last one. So a position determines how much text stands before
it, and a span cuts one stretch of characters out of a source.

Main statements:

- `advance_first`: stepping over a text leads to the position that counts it;
- `before_behind`: a longer text is counted by a later position;
- `Span.cut_append`: the span between the two ends of a stretch of a source cuts that stretch out.
-/

namespace ShaderTemplate

namespace Position

/-- The position just behind a text that starts at the first position. -/
def behind (text : List Char) : Position where
  line := text.count '\n' + 1
  column := (text.reverse.takeWhile (· != '\n')).length + 1

/-- A position comes earlier in a source than another. -/
def Before (p q : Position) : Prop :=
  p.line < q.line ∨ p.line = q.line ∧ p.column < q.column

instance (p q : Position) : Decidable (p.Before q) :=
  inferInstanceAs (Decidable (_ ∨ _ ∧ _))

/-- No position comes before itself. -/
theorem not_before_self (p : Position) : ¬ p.Before p := by
  rintro (h | ⟨-, h⟩) <;> exact absurd h (Nat.lt_irrefl _)

theorem Before.trans {p q r : Position} (h : p.Before q) (h' : q.Before r) : p.Before r := by
  unfold Before at *
  omega

/-- Of two positions at most one comes before the other. -/
theorem Before.asymm {p q : Position} (h : p.Before q) : ¬ q.Before p :=
  fun h' => not_before_self p (h.trans h')

/-- A further character moves the position behind a text. -/
theorem behind_concat (text : List Char) (c : Char) :
    behind (text ++ [c]) = (behind text).next c := by
  by_cases h : c = '\n'
  · simp [behind, next, h]
  · simp [behind, next, h]

/-- Stepping over a text leads to the position that counts it. -/
theorem advance_first (text : List Char) : first.advance text = behind text := by
  induction text using List.reverseRecOn with
  | nil => rfl
  | append_singleton text c ih => rw [advance_append, ih, behind_concat, advance_cons, advance_nil]

/-- Stepping over a character leads to a later position. -/
theorem before_next (p : Position) (c : Char) : p.Before (p.next c) := by
  unfold next Before
  split <;> simp

/-- A longer text is counted by a later position. -/
theorem before_behind (text : List Char) {more : List Char} (h : more ≠ []) :
    (behind text).Before (behind (text ++ more)) := by
  induction more using List.reverseRecOn with
  | nil => exact absurd rfl h
  | append_singleton more c ih =>
    rw [← List.append_assoc, behind_concat]
    by_cases hmore : more = []
    · rw [hmore, List.append_nil]
      exact before_next _ c
    · exact (ih hmore).trans (before_next _ c)

/-- The positions behind two first parts of a source are in the order of their lengths. -/
theorem behind_take_before_iff {source : List Char} {j k : Nat} (hj : j ≤ source.length)
    (hk : k ≤ source.length) :
    (behind (source.take j)).Before (behind (source.take k)) ↔ j < k := by
  have shorter : ∀ j k, j < k → k ≤ source.length →
      (behind (source.take j)).Before (behind (source.take k)) := by
    intro j k hjk hk
    -- The longer part is the shorter one and some more text.
    have hsplit : source.take k = source.take j ++ (source.take k).drop j := by
      conv_lhs => rw [← List.take_append_drop j (source.take k), List.take_take,
        Nat.min_eq_left (Nat.le_of_lt hjk)]
    rw [hsplit]
    refine before_behind _ (List.ne_nil_of_length_pos ?_)
    rw [List.length_drop, List.length_take]
    omega
  constructor
  · intro h
    apply Nat.lt_of_not_le
    intro hkj
    rcases Nat.eq_or_lt_of_le hkj with rfl | hlt
    · exact not_before_self _ h
    · exact h.asymm (shorter k j hlt hj)
  · intro h
    exact shorter j k h hk

end Position

namespace Span

/-- A position lies in a span. -/
def Holds (span : Span) (p : Position) : Prop :=
  ¬ p.Before span.start ∧ p.Before span.stop

instance (span : Span) (p : Position) : Decidable (span.Holds p) :=
  inferInstanceAs (Decidable (_ ∧ _))

/-- Cut the characters out of a source whose positions lie in a span. -/
def cut (span : Span) (source : List Char) : List Char :=
  (source.zipIdx.filter fun entry =>
    span.Holds (Position.behind (source.take entry.2))).map Prod.fst

/-- The span between the two ends of a stretch holds the positions of the characters of the stretch,
and no others. -/
theorem holds_behind_take_iff (front middle rest : List Char) {i : Nat}
    (hi : i < (front ++ middle ++ rest).length) :
    Holds ⟨.behind front, .behind (front ++ middle)⟩
        (.behind ((front ++ middle ++ rest).take i)) ↔
      front.length ≤ i ∧ i < front.length + middle.length := by
  -- Both ends of the span are positions behind first parts of the source.
  have hfront : Position.behind front =
      .behind ((front ++ middle ++ rest).take front.length) := by simp
  have hmiddle : Position.behind (front ++ middle) =
      .behind ((front ++ middle ++ rest).take (front.length + middle.length)) := by
    rw [← List.length_append, List.take_left]
  have hlength : (front ++ middle ++ rest).length =
      front.length + middle.length + rest.length := by simp [Nat.add_assoc]
  rw [Holds, hfront, hmiddle, Position.behind_take_before_iff (by omega) (by omega),
    Position.behind_take_before_iff (by omega) (by omega), Nat.not_lt]

/-- The span between the two ends of a stretch of a source cuts that stretch out. -/
theorem cut_append (front middle rest : List Char) :
    cut ⟨.behind front, .behind (front ++ middle)⟩ (front ++ middle ++ rest) = middle := by
  have kept : ∀ entry ∈ (front ++ middle ++ rest).zipIdx,
      decide (Holds ⟨.behind front, .behind (front ++ middle)⟩
        (.behind ((front ++ middle ++ rest).take entry.2))) =
      decide (front.length ≤ entry.2 ∧ entry.2 < front.length + middle.length) := by
    intro entry hentry
    have hi := List.snd_lt_of_mem_zipIdx hentry
    exact decide_eq_decide.mpr (holds_behind_take_iff front middle rest (by simpa using hi))
  rw [cut, List.filter_congr kept, List.zipIdx_append, List.zipIdx_append, List.filter_append,
    List.filter_append]
  -- Of the three parts of the source only the middle one is kept, and all of it.
  have before : (front.zipIdx.filter fun entry =>
      decide (front.length ≤ entry.2 ∧ entry.2 < front.length + middle.length)) = [] := by
    refine List.filter_eq_nil_iff.mpr fun entry hentry => ?_
    have := List.snd_lt_of_mem_zipIdx hentry
    simp only [decide_eq_true_eq]
    omega
  have inside : ((middle.zipIdx (0 + front.length)).filter fun entry =>
      decide (front.length ≤ entry.2 ∧ entry.2 < front.length + middle.length)) =
        middle.zipIdx (0 + front.length) := by
    refine List.filter_eq_self.mpr fun entry hentry => ?_
    have := List.snd_lt_of_mem_zipIdx hentry
    have := List.le_snd_of_mem_zipIdx hentry
    simp only [decide_eq_true_eq]
    omega
  have behind : ((rest.zipIdx (0 + (front ++ middle).length)).filter fun entry =>
      decide (front.length ≤ entry.2 ∧ entry.2 < front.length + middle.length)) = [] := by
    refine List.filter_eq_nil_iff.mpr fun entry hentry => ?_
    have := List.le_snd_of_mem_zipIdx hentry
    simp only [decide_eq_true_eq, List.length_append] at *
    omega
  rw [before, inside, behind, List.nil_append, List.append_nil, List.zipIdx_map_fst]

end Span

end ShaderTemplate
