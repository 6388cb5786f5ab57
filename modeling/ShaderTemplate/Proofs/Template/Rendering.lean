import ShaderTemplate.Proofs.Template.Decomposition
import ShaderTemplate.Template.Evaluation

/-!
# Evaluation as a substitution in the source

A template is evaluated segment by segment. In terms of the source from which it was compiled this
is one reading from left to right: where a variable starts, its marker and its longest name are
replaced by its value, and every other character is kept (`Substituted`). What is put in is not read
again, so a value may hold markers, and the first variable without a value ends the reading
(`Misses`). The reading says nothing about templates or segments.

The two are compared by the marks of the source, of which the variables have a value or not.

Main statements:

- `Mark.substituted_of_greedy`, `Mark.exists_of_substituted`: the reading as a front part of the
  marks of a source;
- `Template.evaluate_eq_error_iff`: an evaluation fails with the first variable without a value;
- `Template.evaluate_compile`: an evaluation is a substitution in the source.
-/

namespace ShaderTemplate

/-- In the front of a source every variable is replaced by its value, as it is, and nothing else is
changed: what stands before `rest` has become `result`. -/
inductive Substituted (marker : List Char) (options : Options) :
    List Char → List Char → List Char → Prop
  /-- Nothing is read. -/
  | done {source : List Char} : Substituted marker options source [] source
  /-- A character at which no variable starts is kept. -/
  | plain {c : Char} {source result rest : List Char}
      (hstarts : ¬ Mark.StartsVariable marker (c :: source))
      (h : Substituted marker options source result rest) :
      Substituted marker options (c :: source) (c :: result) rest
  /-- A marker and the longest name behind it are replaced. -/
  | var {name value : String} {source result rest : List Char}
      (hname : isIdentifier name.toList = true)
      (hstops : ∀ c ∈ source.head?, Identifier.isContinuation c = false)
      (hvalue : options.get? name = some value)
      (h : Substituted marker options source result rest) :
      Substituted marker options (marker ++ name.toList ++ source) (value.toList ++ result) rest

/-- The first variable of a source that has no value is `name`: those before it are replaced, and
then it stands there. -/
def Misses (marker : List Char) (options : Options) (source : List Char) (name : String) : Prop :=
  ∃ result rest, Substituted marker options source result (marker ++ name.toList ++ rest) ∧
    isIdentifier name.toList = true ∧
    (∀ c ∈ rest.head?, Identifier.isContinuation c = false) ∧ options.get? name = none

namespace Mark

variable {marker : List Char} {options : Options}

/-- The name of a variable. -/
def name? : Mark → Option String
  | .plain _ => none
  | .var name => some (String.ofList name)

/-- What a mark is replaced by, which a variable without a value is not. -/
def value? (options : Options) : Mark → Option (List Char)
  | .plain c => some [c]
  | .var name => (options.get? (String.ofList name)).map String.toList

/-- What a mark is replaced by; a variable without a value is left out. -/
def valueText (options : Options) (mark : Mark) : List Char :=
  (mark.value? options).getD []

/-- A mark has a value unless it is a variable that has none. -/
theorem isSome_value?_iff {mark : Mark} : (mark.value? options).isSome = true ↔
    ∀ name ∈ mark.name?, (options.get? name).isSome = true := by
  cases mark <;> simp [value?, name?]

/-- Marks that are leftmost and longest are replaced one after the other. -/
theorem substituted_of_greedy {before after : List Mark} (h : Greedy marker (before ++ after))
    (hvalues : ∀ mark ∈ before, (mark.value? options).isSome = true) :
    Substituted marker options ((before ++ after).flatMap (text marker))
      (before.flatMap (valueText options)) (after.flatMap (text marker)) := by
  induction before with
  | nil => exact .done
  | cons mark before ih =>
    have hvalue := hvalues mark List.mem_cons_self
    have hbefore := fun other hother => hvalues other (List.mem_cons_of_mem mark hother)
    cases h with
    | plain hstarts hmarks => exact .plain hstarts (ih hmarks hbefore)
    | @var name _ hname hstops hmarks =>
      obtain ⟨value, hget⟩ : ∃ value, options.get? (String.ofList name) = some value :=
        Option.isSome_iff_exists.mp (by simpa [value?] using hvalue)
      have hidentifier : isIdentifier (String.ofList name).toList = true := by
        rwa [String.toList_ofList]
      have hreplaced := @Substituted.var marker _ _ _ _ _ _ hidentifier hstops hget
        (ih hmarks hbefore)
      rw [String.toList_ofList] at hreplaced
      simpa [valueText, value?, hget, text] using hreplaced

/-- What has been replaced is a front part of the marks of a source. -/
theorem exists_of_substituted {source result rest : List Char}
    (h : Substituted marker options source result rest) :
    ∃ before, ofSource marker source = before ++ ofSource marker rest ∧
      (∀ mark ∈ before, (mark.value? options).isSome = true) ∧
      result = before.flatMap (valueText options) := by
  induction h with
  | done => exact ⟨[], rfl, by simp, rfl⟩
  | @plain c source result rest hstarts _ ih =>
    obtain ⟨before, hmarks, hvalues, rfl⟩ := ih
    refine ⟨.plain c :: before, ?_, List.forall_mem_cons.mpr ⟨rfl, hvalues⟩, rfl⟩
    rw [ofSource_of_marked?_eq_none (marked?_eq_none_iff.mpr hstarts), hmarks, List.cons_append]
  | @var name value source result rest hname hstops hvalue _ ih =>
    obtain ⟨before, hmarks, hvalues, rfl⟩ := ih
    have hmarked : marked? marker (marker ++ name.toList ++ source) = some (name.toList, source) :=
      marked?_eq_some_iff.mpr ⟨rfl, hname, hstops⟩
    refine ⟨.var name.toList :: before, ?_, List.forall_mem_cons.mpr ⟨?_, hvalues⟩, ?_⟩
    · rw [ofSource_of_marked? hmarked, hmarks, List.cons_append]
    · simp [value?, hvalue]
    · simp [valueText, value?, hvalue]

/-- A source is replaced to its end if every variable has a value, and by the values. -/
theorem substituted_nil_iff {source result : List Char} :
    Substituted marker options source result [] ↔
      (∀ mark ∈ ofSource marker source, (mark.value? options).isSome = true) ∧
        result = (ofSource marker source).flatMap (valueText options) := by
  constructor
  · intro h
    obtain ⟨before, hmarks, hvalues, hresult⟩ := exists_of_substituted h
    rw [ofSource_nil, List.append_nil] at hmarks
    rw [hmarks]
    exact ⟨hvalues, hresult⟩
  · rintro ⟨hvalues, rfl⟩
    have hgreedy := greedy_ofSource marker source
    rw [← List.append_nil (ofSource marker source)] at hgreedy
    have h := substituted_of_greedy hgreedy hvalues
    rwa [List.append_nil, flatMap_text_ofSource] at h

/-- The variable that a source misses is the first mark without a value. -/
theorem misses_iff {source : List Char} {name : String} :
    Misses marker options source name ↔
      (ofSource marker source).find? (fun mark => (mark.value? options).isNone) =
        some (.var name.toList) := by
  rw [List.find?_eq_some_iff_append]
  constructor
  · rintro ⟨result, rest, hreplaced, hname, hstops, hnone⟩
    obtain ⟨before, hmarks, hvalues, -⟩ := exists_of_substituted hreplaced
    rw [ofSource_of_marked? (marked?_eq_some_iff.mpr ⟨rfl, hname, hstops⟩)] at hmarks
    refine ⟨by simp [value?, hnone], before, _, hmarks, fun mark hmark => ?_⟩
    simpa using hvalues mark hmark
  · rintro ⟨hnone, before, after, hmarks, hvalues⟩
    have hgreedy := greedy_ofSource marker source
    rw [hmarks] at hgreedy
    have hgiven : ∀ mark ∈ before, (mark.value? options).isSome = true := fun mark hmark => by
      simpa using hvalues mark hmark
    have hreplaced := substituted_of_greedy hgreedy hgiven
    rw [← hmarks, flatMap_text_ofSource] at hreplaced
    -- The marks from the variable on are leftmost and longest as well.
    have hlast : Greedy marker (.var name.toList :: after) := by
      clear hreplaced hgiven hvalues hmarks
      induction before with
      | nil => exact hgreedy
      | cons _ before ih => cases hgreedy <;> exact ih ‹_›
    cases hlast with
    | var hname hstops _ =>
      exact ⟨_, _, hreplaced, hname, hstops, by simpa [value?] using hnone⟩

end Mark

namespace Segment

/-- The names of the marks of segments are those of their variables. -/
theorem filterMap_name?_flatMap_marks (segments : List Segment) :
    (segments.flatMap marks).filterMap Mark.name? = segments.filterMap name? := by
  induction segments with
  | nil => rfl
  | cons segment rest ih =>
    rw [List.flatMap_cons, List.filterMap_append, ih]
    cases segment with
    | literal text =>
      have hmarks : (marks (.literal text)).filterMap Mark.name? = [] :=
        List.filterMap_eq_nil_iff.mpr fun mark hmark => by
          obtain ⟨c, -, rfl⟩ := List.mem_map.mp hmark
          rfl
      rw [hmarks, List.nil_append, List.filterMap_cons_none rfl]
    | var name => simp [marks, name?, Mark.name?]

/-- The marks of segments are replaced as the segments are. -/
theorem flatMap_valueText_marks (options : Options) (segments : List Segment) :
    (segments.flatMap marks).flatMap (Mark.valueText options) =
      (Template.concat (Template.valueText options) segments).toList := by
  refine flatMap_marks_eq_concat (fun segment => ?_) segments
  cases segment with
  | literal text =>
    simp [marks, Template.valueText, List.flatMap_map, Mark.valueText, Mark.value?]
  | var name =>
    cases h : options.get? name <;>
      simp [marks, Template.valueText, Mark.valueText, Mark.value?, h]

end Segment

/-- What comes first of the items that satisfy `p` does not depend on the repetitions. -/
theorem find?_eraseDups {α : Type} [DecidableEq α] (p : α → Bool) (items : List α) :
    items.eraseDups.find? p = items.find? p := by
  have head?_eraseDups : ∀ items : List α, items.eraseDups.head? = items.head? := by
    intro items
    cases items with
    | nil => rfl
    | cons item items => rw [List.eraseDups_cons, List.head?_cons, List.head?_cons]
  rw [← List.head?_filter, ← eraseDups_filter, head?_eraseDups, List.head?_filter]

namespace Template

variable {options : Options}

/-- An evaluation of segments fails with their first variable that has no value. -/
theorem evaluateSegments_eq_error_iff {segments : List Segment} {e : Error} :
    evaluateSegments options segments = .error e ↔
      ∃ name, (segments.filterMap Segment.name?).find? (fun name => (options.get? name).isNone) =
        some name ∧ e = .missingVariable name := by
  induction segments with
  | nil => simp [evaluateSegments]
  | cons segment rest ih =>
    cases segment with
    | literal text =>
      rw [evaluateSegments, map_eq_error_iff, ih]
      rfl
    | var first =>
      rw [evaluateSegments, List.filterMap_cons_some (show (Segment.var first).name? = _ from rfl)]
      cases hfirst : options.get? first with
      | none => simp [hfirst, eq_comm]
      | some value =>
        rw [List.find?_cons_of_neg (by simp [hfirst])]
        exact map_eq_error_iff.trans ih

/-- An evaluation fails with the first variable of the template that has no value. -/
theorem evaluate_eq_error_iff {t : Template} {e : Error} : t.evaluate options = .error e ↔
    ∃ name, t.variableNames.find? (fun name => (options.get? name).isNone) = some name ∧
      e = .missingVariable name := by
  rw [evaluate, evaluateSegments_eq_error_iff, variableNames, find?_eraseDups]

/-- An evaluation succeeds if every variable of the template has a value. -/
theorem exists_evaluate_eq_ok_iff {t : Template} : (∃ text, t.evaluate options = .ok text) ↔
    ∀ name ∈ t.variableNames, (options.get? name).isSome = true := by
  have hnone : (t.variableNames.find? fun name => (options.get? name).isNone) = none ↔
      ∀ name ∈ t.variableNames, (options.get? name).isSome = true := by
    simp [List.find?_eq_none, Option.isSome_iff_ne_none]
  rw [← hnone]
  cases hevaluate : t.evaluate options with
  | ok text =>
    refine iff_of_true ⟨text, rfl⟩ (Option.eq_none_iff_forall_ne_some.mpr fun name hname => ?_)
    have herror := evaluate_eq_error_iff.mpr ⟨name, hname, rfl⟩
    exact absurd (hevaluate.symm.trans herror) (by simp)
  | error e =>
    obtain ⟨name, hname, -⟩ := evaluate_eq_error_iff.mp hevaluate
    exact iff_of_false (by simp) (by simp [hname])

/-- If every variable of a template has a value, an evaluation writes each segment by its value. -/
theorem evaluate_eq_ok {t : Template}
    (h : ∀ name ∈ t.variableNames, (options.get? name).isSome = true) :
    t.evaluate options = .ok (concat (valueText options) t.segments) := by
  refine evaluateSegments_eq_ok fun segment hsegment name hname => h name ?_
  exact List.mem_eraseDups.mpr (List.mem_filterMap.mpr ⟨segment, hsegment, hname⟩)

/-- Segments are written alike if each of them is. -/
theorem concat_congr {write other : Segment → String} {segments : List Segment}
    (h : ∀ segment ∈ segments, write segment = other segment) :
    concat write segments = concat other segments := by
  induction segments with
  | nil => rfl
  | cons segment rest ih =>
    rw [concat_cons, concat_cons, h segment List.mem_cons_self,
      ih fun other hother => h other (List.mem_cons_of_mem _ hother)]

/-- The marks of a compiled template are those of its source. -/
theorem flatMap_marks_compile (source marker : String) :
    (compile source marker).segments.flatMap Segment.marks =
      Mark.ofSource marker.toList source.toList :=
  Segment.flatMap_marks_ofMarks _

/-- The first variable of a compiled template without a value is the one that the source misses. -/
theorem find?_variableNames_compile {source marker name : String} :
    (compile source marker).variableNames.find? (fun name => (options.get? name).isNone) =
        some name ↔ Misses marker.toList options source.toList name := by
  have hvalue : (fun mark : Mark => mark.name?.any fun name => (options.get? name).isNone) =
      fun mark => (mark.value? options).isNone := by
    funext mark
    cases mark with
    | plain c => rfl
    | var letters => simp [Mark.name?, Mark.value?]
  rw [Mark.misses_iff, variableNames, find?_eraseDups, ← Segment.filterMap_name?_flatMap_marks,
    flatMap_marks_compile, List.find?_filterMap, hvalue, Option.bind_eq_some_iff]
  constructor
  · rintro ⟨mark, hfind, hname⟩
    cases mark with
    | plain c => exact absurd hname (by simp [Mark.name?])
    | var letters =>
      obtain rfl : String.ofList letters = name := Option.some.inj hname
      rwa [String.toList_ofList]
  · intro hfind
    exact ⟨_, hfind, by rw [Mark.name?, String.ofList_toList]⟩

/-- A compiled template is evaluated to what becomes of the source when every variable is replaced
by its value. -/
theorem evaluate_compile_eq_ok_iff {source marker text : String} :
    (compile source marker).evaluate options = .ok text ↔
      Substituted marker.toList options source.toList text.toList [] := by
  have hconcat := Segment.flatMap_valueText_marks options (compile source marker).segments
  rw [flatMap_marks_compile] at hconcat
  rw [Mark.substituted_nil_iff, hconcat]
  -- A name of the template is that of a mark.
  have hvalues : (∀ name ∈ (compile source marker).variableNames,
      (options.get? name).isSome = true) ↔
        ∀ mark ∈ Mark.ofSource marker.toList source.toList,
          (mark.value? options).isSome = true := by
    simp only [variableNames, List.mem_eraseDups, ← Segment.filterMap_name?_flatMap_marks,
      flatMap_marks_compile, Mark.isSome_value?_iff, List.mem_filterMap, Option.mem_def]
    constructor
    · intro h mark hmark name hname
      exact h name ⟨mark, hmark, hname⟩
    · rintro h name ⟨mark, hmark, hname⟩
      exact h mark hmark name hname
  rw [← hvalues]
  constructor
  · intro h
    have hevery := exists_evaluate_eq_ok_iff.mp ⟨text, h⟩
    rw [evaluate_eq_ok hevery] at h
    exact ⟨hevery, congrArg String.toList (Except.ok.inj h).symm⟩
  · rintro ⟨hevery, htext⟩
    rw [evaluate_eq_ok hevery, String.toList_inj.mp htext]

/-- Options that give the same values to the variables of a template are evaluated alike. -/
theorem evaluate_congr {t : Template} {other : Options}
    (h : ∀ name ∈ t.variableNames, options.get? name = other.get? name) :
    t.evaluate options = t.evaluate other := by
  have hsegments : ∀ name ∈ t.segments.filterMap Segment.name?,
      options.get? name = other.get? name := fun name hname => h name (List.mem_eraseDups.mpr hname)
  rw [evaluate, evaluate]
  generalize t.segments = segments at hsegments
  induction segments with
  | nil => rfl
  | cons segment rest ih =>
    cases segment with
    | literal text => rw [evaluateSegments, evaluateSegments, ih hsegments]
    | var name =>
      obtain ⟨hname, hrest⟩ := List.forall_mem_cons.mp hsegments
      rw [evaluateSegments, evaluateSegments, hname, ih hrest]

/-- If the value of every variable is its own marker, an evaluation gives the source back. -/
theorem evaluate_compile_of_markers {source marker : String}
    (h : ∀ name ∈ (compile source marker).variableNames,
      options.get? name = some (marker ++ name)) :
    (compile source marker).evaluate options = .ok source := by
  have hsegments : ∀ segment ∈ (compile source marker).segments,
      valueText options segment = segment.render marker := by
    intro segment hsegment
    cases segment with
    | literal text => rfl
    | var name =>
      have hname : name ∈ (compile source marker).variableNames :=
        List.mem_eraseDups.mpr (List.mem_filterMap.mpr ⟨_, hsegment, rfl⟩)
      rw [valueText, h name hname, Option.getD_some, Segment.render]
  rw [evaluate_eq_ok fun name hname => by rw [h name hname, Option.isSome_some],
    concat_congr hsegments]
  exact congrArg Except.ok (render_compile source marker)

/-- An evaluation of a compiled template is one substitution in the source. It succeeds exactly if
every variable has a value, and gives the source with every marker and name replaced by the value,
which is not read again, and nothing else changed. It fails with the first variable of the template
that has no value, which is the first one in the source that has none. Only the values of the
variables matter, and if they are the markers themselves, the source is given back. -/
theorem evaluate_compile (source marker : String) (options : Options) :
    let t := compile source marker
    ((∃ text, t.evaluate options = .ok text) ↔
        ∀ name ∈ t.variableNames, (options.get? name).isSome = true) ∧
      (∀ text, t.evaluate options = .ok text ↔
        Substituted marker.toList options source.toList text.toList []) ∧
      (∀ e, t.evaluate options = .error e ↔
        ∃ name, t.variableNames.find? (fun name => (options.get? name).isNone) = some name ∧
          e = .missingVariable name) ∧
      (∀ name, t.variableNames.find? (fun name => (options.get? name).isNone) = some name ↔
        Misses marker.toList options source.toList name) ∧
      (∀ other : Options, (∀ name ∈ t.variableNames, options.get? name = other.get? name) →
        t.evaluate options = t.evaluate other) ∧
      ((∀ name ∈ t.variableNames, options.get? name = some (marker ++ name)) →
        t.evaluate options = .ok source) :=
  ⟨exists_evaluate_eq_ok_iff, fun _ => evaluate_compile_eq_ok_iff, fun _ => evaluate_eq_error_iff,
    fun _ => find?_variableNames_compile, fun _ => evaluate_congr, evaluate_compile_of_markers⟩

/-- A value is not read again, whatever markers it holds. -/
example : (compile "$a+$b" "$").evaluate ⟨[("a", "$b"), ("b", "1")]⟩ = .ok "$b+1" := by
  decide +kernel

end Template

end ShaderTemplate
