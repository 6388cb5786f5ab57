import Mathlib.Data.List.Nodup
import ShaderTemplate.Value.Options

/-!
# The order in which values are set

The values of a map are set in some order of its names, one after the other. If all names are
variable names the order makes no difference. Otherwise the first name in the order that is none
ends the run, and the values in front of it stay set: which ones these are depends on the order, so
setting a map is not all or nothing (`not_allOrNothing`).

Main statements:

- `Options.setAll_append`: values under variable names are set before the others are looked at;
- `Options.overlays_insertAll`: what options hold after values were put in;
- `Options.setAll_any_order`: the outcome of setting a map, for every order of its names.
-/

namespace ShaderTemplate

namespace Options

variable {options next other : Options} {values before rest : List (String × Value)}

/-- Both options hold the same values under the same names. -/
def Same (options other : Options) : Prop :=
  ∀ key, options.get? key = other.get? key

/-- Every value has a variable name. -/
def AllNamed (values : List (String × Value)) : Prop :=
  ∀ pair ∈ values, isIdentifier pair.1.toList = true

/-- The options `next` are `options` overlaid with the rendered values. -/
structure Overlays (options : Options) (values : List (String × Value)) (next : Options) :
    Prop where
  /-- Every value is held under its name. -/
  set : ∀ pair ∈ values, next.get? pair.1 = some pair.2.render
  /-- Under other names nothing changes. -/
  kept : ∀ key, key ∉ values.map Prod.fst → next.get? key = options.get? key

/-- Setting values is all or nothing, whatever the order: either every name is a variable name and
all values are set, or some name is none, this is reported, and no value is changed. -/
def AllOrNothing (options : Options) (values : List (String × Value)) : Prop :=
  ∀ order, order.Perm values →
    (AllNamed values ∧ (options.setAll order).2 = .ok () ∧
      Overlays options values (options.setAll order).1) ∨
    (¬ AllNamed values ∧ (∃ name, (options.setAll order).2 = .error (.invalidVariable name)) ∧
      Same (options.setAll order).1 options)

/-- The value in front of a name that is no variable name stays set. -/
theorem not_allOrNothing :
    ([("a", Value.text "1"), ("1b", .text "2")].map Prod.fst).Nodup ∧
      ¬ AllOrNothing {} [("a", .text "1"), ("1b", .text "2")] := by
  refine ⟨by decide, fun hall => ?_⟩
  rcases hall _ (List.Perm.refl _) with ⟨hnamed, -⟩ | ⟨-, -, hsame⟩
  · exact absurd (hnamed ("1b", .text "2") (by simp)) (by decide)
  · exact absurd (hsame "a") (by decide +kernel)

/-- Put values under their names one after the other, whatever the names. -/
def insertAll (options : Options) (values : List (String × Value)) : Options :=
  values.foldl (fun options pair => options.insert pair.1 pair.2.render) options

/-- Values under variable names are all put in before the values behind them are looked at. -/
theorem setAll_append (h : AllNamed before) :
    options.setAll (before ++ rest) = (options.insertAll before).setAll rest := by
  induction before generalizing options with
  | nil => rfl
  | cons pair before ih =>
    obtain ⟨hname, hbefore⟩ := List.forall_mem_cons.mp h
    rw [List.cons_append, setAll, set, if_pos hname]
    exact ih hbefore

/-- Values under variable names are all set. -/
theorem setAll_of_allNamed (h : AllNamed values) :
    options.setAll values = (options.insertAll values, .ok ()) := by
  have happend : options.setAll (values ++ []) = (options.insertAll values).setAll [] :=
    setAll_append h
  rwa [List.append_nil] at happend

/-- Values in front of the first name that is no variable name are set, and none behind it. -/
theorem setAll_of_first {bad : String} {value : Value} (h : AllNamed before)
    (hbad : isIdentifier bad.toList = false) :
    options.setAll (before ++ (bad, value) :: rest) =
      (options.insertAll before, .error (.invalidVariable bad)) := by
  rw [setAll_append h, setAll, set, if_neg (by simp [hbad])]

/-- Values of distinct names that are put in overlay the options. -/
theorem overlays_insertAll (h : (values.map Prod.fst).Nodup) :
    Overlays options values (options.insertAll values) := by
  induction values generalizing options with
  | nil => exact ⟨by simp, fun _ _ => rfl⟩
  | cons pair values ih =>
    obtain ⟨hnew, hnodup⟩ := List.nodup_cons.mp h
    have hrest : Overlays (options.insert pair.1 pair.2.render) values
        (options.insertAll (pair :: values)) := ih hnodup
    refine ⟨List.forall_mem_cons.mpr ⟨?_, hrest.set⟩, fun key hkey => ?_⟩
    · -- No later value has the name of the first one.
      refine (hrest.kept pair.1 hnew).trans ?_
      rw [get?_insert, if_pos rfl]
    · obtain ⟨hne, hkey⟩ := not_or.mp (mt List.mem_cons.mpr hkey)
      refine (hrest.kept key hkey).trans ?_
      rw [get?_insert, if_neg hne]

/-- Options overlaid with the same values, in whatever order, are the same. -/
theorem Overlays.same (h : Overlays options values next) (hother : Overlays options values other) :
    Same next other := by
  intro key
  by_cases hkey : key ∈ values.map Prod.fst
  · obtain ⟨pair, hpair, rfl⟩ := List.mem_map.mp hkey
    rw [h.set pair hpair, hother.set pair hpair]
  · rw [h.kept key hkey, hother.kept key hkey]

/-- An overlay may be told in any order of the values. -/
theorem Overlays.of_perm {order : List (String × Value)} (h : Overlays options order next)
    (hperm : order.Perm values) : Overlays options values next :=
  ⟨fun pair hpair => h.set pair (hperm.mem_iff.mpr hpair),
    fun key hkey => h.kept key fun hmem => hkey ((hperm.map Prod.fst).mem_iff.mp hmem)⟩

/-- An overlay changes nothing exactly if it was there already. -/
theorem Overlays.same_iff (h : Overlays options values next) :
    Same next options ↔ ∀ pair ∈ values, options.get? pair.1 = some pair.2.render := by
  constructor
  · intro hsame pair hpair
    rw [← hsame, h.set pair hpair]
  · intro halready key
    by_cases hkey : key ∈ values.map Prod.fst
    · obtain ⟨pair, hpair, rfl⟩ := List.mem_map.mp hkey
      rw [h.set pair hpair, halready pair hpair]
    · exact h.kept key hkey

/-- Values either all have variable names, or there is a first one that has none. -/
theorem allNamed_or_exists_first (values : List (String × Value)) :
    AllNamed values ∨ ∃ before bad value after, values = before ++ (bad, value) :: after ∧
      AllNamed before ∧ isIdentifier bad.toList = false := by
  cases hfind : values.find? fun pair => !isIdentifier pair.1.toList with
  | none => exact .inl (by simpa [AllNamed] using hfind)
  | some pair =>
    obtain ⟨hbad, before, after, hvalues, hbefore⟩ := List.find?_eq_some_iff_append.mp hfind
    exact .inr ⟨before, pair.1, pair.2, after, hvalues, by simpa [AllNamed] using hbefore,
      by simpa using hbad⟩

section AnyOrder

variable {order : List (String × Value)} (options : Options)
  (hnodup : (values.map Prod.fst).Nodup) (hperm : order.Perm values)

include hnodup hperm

/-- If every name is a variable name, setting the values in any order sets all of them. -/
theorem setAll_perm_of_allNamed (h : AllNamed values) :
    (options.setAll order).2 = .ok () ∧ Overlays options values (options.setAll order).1 := by
  have hnamed : AllNamed order := fun pair hpair => h pair (hperm.mem_iff.mp hpair)
  rw [setAll_of_allNamed hnamed]
  have hdistinct : (order.map Prod.fst).Nodup := (hperm.map Prod.fst).nodup_iff.mpr hnodup
  exact ⟨rfl, (overlays_insertAll hdistinct).of_perm hperm⟩

/-- If some name is no variable name, setting the values in any order sets those in front of the
first such name. -/
theorem exists_setAll_perm_of_not_allNamed (h : ¬ AllNamed values) :
    ∃ before bad value after, order = before ++ (bad, value) :: after ∧ AllNamed before ∧
      isIdentifier bad.toList = false ∧
      (options.setAll order).2 = .error (.invalidVariable bad) ∧
      Overlays options before (options.setAll order).1 := by
  have hnot : ¬ AllNamed order := fun hnamed =>
    h fun pair hpair => hnamed pair (hperm.mem_iff.mpr hpair)
  obtain ⟨before, bad, value, after, rfl, hbefore, hbad⟩ :=
    (allNamed_or_exists_first order).resolve_left hnot
  have hdistinct : (before.map Prod.fst).Nodup := by
    have hwhole := (hperm.map Prod.fst).nodup_iff.mpr hnodup
    rw [List.map_append] at hwhole
    exact hwhole.of_append_left
  rw [setAll_of_first hbefore hbad]
  exact ⟨before, bad, value, after, rfl, hbefore, hbad, rfl, overlays_insertAll hdistinct⟩

end AnyOrder

/-- Setting a map is all or nothing if there is nothing to report or nothing to change. -/
theorem allOrNothing_iff (hnodup : (values.map Prod.fst).Nodup) :
    AllOrNothing options values ↔ AllNamed values ∨ ∀ pair ∈ values,
      isIdentifier pair.1.toList = true → options.get? pair.1 = some pair.2.render := by
  by_cases hnamed : AllNamed values
  -- Without a bad name nothing is reported.
  · refine iff_of_true (fun order hperm => .inl ⟨hnamed, ?_⟩) (.inl hnamed)
    exact setAll_perm_of_allNamed options hnodup hperm hnamed
  · rw [or_iff_right hnamed]
    constructor
    · intro hall pair hpair hname
      -- In an order that starts with the pair, it is set before the failure.
      obtain ⟨front, back, rfl⟩ := List.append_of_mem hpair
      have hperm : (pair :: (front ++ back)).Perm (front ++ pair :: back) :=
        List.perm_middle.symm
      obtain ⟨-, -, hsame⟩ := (hall _ hperm).resolve_left fun h => hnamed h.1
      obtain ⟨before, bad, value, after, horder, -, hbad, -, hoverlays⟩ :=
        exists_setAll_perm_of_not_allNamed options hnodup hperm hnamed
      cases before with
      | nil =>
        obtain ⟨rfl, -⟩ := List.cons.inj horder
        exact absurd hname (by simp [hbad])
      | cons first before =>
        obtain ⟨rfl, -⟩ := List.cons.inj horder
        exact hoverlays.same_iff.mp hsame pair List.mem_cons_self
    · intro halready order hperm
      obtain ⟨before, bad, value, after, rfl, hbefore, -, herror, hoverlays⟩ :=
        exists_setAll_perm_of_not_allNamed options hnodup hperm hnamed
      refine .inr ⟨hnamed, ⟨bad, herror⟩, hoverlays.same_iff.mpr fun pair hpair => ?_⟩
      have hmem := hperm.mem_iff.mp (List.mem_append_left _ hpair)
      exact halready pair hmem (hbefore pair hpair)

/-- The values of a map, whose names are distinct, are set in any order. If every name is a variable
name, setting them succeeds and leaves the options overlaid with all rendered values, the same for
every order. Otherwise the first name in the order that is none is reported, and the options are
left overlaid with the rendered values in front of it; so they are what they were exactly if they
held these values already. It is all or nothing whatever the order exactly if every name is a
variable name or all values of variable names were held already. -/
theorem setAll_any_order (options : Options) (values : List (String × Value))
    (h : (values.map Prod.fst).Nodup) :
    (AllNamed values →
      (∀ order, order.Perm values → (options.setAll order).2 = .ok () ∧
        Overlays options values (options.setAll order).1) ∧
      ∀ order other, order.Perm values → other.Perm values →
        Same (options.setAll order).1 (options.setAll other).1) ∧
    (¬ AllNamed values → ∀ order, order.Perm values → ∃ before bad value after,
      order = before ++ (bad, value) :: after ∧ AllNamed before ∧
      isIdentifier bad.toList = false ∧
      (options.setAll order).2 = .error (.invalidVariable bad) ∧
      Overlays options before (options.setAll order).1 ∧
      (Same (options.setAll order).1 options ↔
        ∀ pair ∈ before, options.get? pair.1 = some pair.2.render)) ∧
    (AllOrNothing options values ↔ AllNamed values ∨ ∀ pair ∈ values,
      isIdentifier pair.1.toList = true → options.get? pair.1 = some pair.2.render) := by
  refine ⟨fun hnamed => ⟨fun order hperm => setAll_perm_of_allNamed options h hperm hnamed,
    fun order other hperm hother => ?_⟩, fun hnamed order hperm => ?_, allOrNothing_iff h⟩
  · have hset := (setAll_perm_of_allNamed options h hperm hnamed).2
    exact hset.same (setAll_perm_of_allNamed options h hother hnamed).2
  · obtain ⟨before, bad, value, after, horder, hbefore, hbad, herror, hoverlays⟩ :=
      exists_setAll_perm_of_not_allNamed options h hperm hnamed
    exact ⟨before, bad, value, after, horder, hbefore, hbad, herror, hoverlays,
      hoverlays.same_iff⟩

/-- Values of variable names in the reverse order, and a value that is held already next to a name
that is no variable name. -/
theorem setAll_any_order_held :
    let options : Options := ⟨[("a", "1")]⟩
    let named : List (String × Value) := [("a", .text "2"), ("b", .integer 3)]
    let mixed : List (String × Value) := [("a", .text "1"), ("1b", .text "2")]
    (named.map Prod.fst).Nodup ∧ Overlays options named (options.setAll named.reverse).1 ∧
      (mixed.map Prod.fst).Nodup ∧ AllOrNothing options mixed := by
  intro options named mixed
  have named_nodup : (named.map Prod.fst).Nodup := by decide
  have mixed_nodup : (mixed.map Prod.fst).Nodup := by decide
  have hnamed : AllNamed named := fun pair hpair => by
    rcases List.mem_pair.mp hpair with rfl | rfl <;> decide
  obtain ⟨hset, -, -⟩ := setAll_any_order options named named_nodup
  obtain ⟨-, -, hiff⟩ := setAll_any_order options mixed mixed_nodup
  refine ⟨named_nodup, ((hset hnamed).1 _ (List.reverse_perm _)).2, mixed_nodup,
    hiff.mpr (.inr fun pair hpair hname => ?_)⟩
  rcases List.mem_pair.mp hpair with rfl | rfl
  · decide +kernel
  · exact absurd hname (by decide)

end Options

end ShaderTemplate
