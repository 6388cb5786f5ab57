import ShaderTemplate.Proofs.Template.Concatenation

/-!
# The segments of a source as a decomposition

A source has many cuts into literals and variables. One of them is leftmost and longest: no variable
could start inside a literal, and no name could go on behind its variable. There is no second such
cut without empty and neighbouring literals, so it is the one that `compile` makes
(`decomposes_iff`). This holds for every marker, also one that overlaps itself, that looks like a
name, or that is empty.

The cut is compared by its marks, one for each character of a literal. Read from the left, a text
leaves no choice: either a variable starts at its front or the first character is plain
(`ofSource_eq_iff`).

Main statements:

- `Mark.marked?_eq_none_iff`: a variable is split off wherever one could start;
- `Mark.ofSource_eq_iff`: a source has one list of marks that is leftmost and longest;
- `Segment.greedy_flatMap_marks_iff`: what this means for the segments;
- `Template.decomposes_iff`: a source has one decomposition, its compiled segments.
-/

namespace ShaderTemplate

namespace Mark

variable {marker : List Char}

/-- A variable could start at the front of a text: the marker stands there, and a character that
starts a name behind it. -/
def StartsVariable (marker text : List Char) : Prop :=
  ∃ c rest, text = marker ++ c :: rest ∧ Identifier.isStart c = true

/-- A variable is split off wherever one could start. -/
theorem marked?_eq_none_iff {source : List Char} :
    marked? marker source = none ↔ ¬ StartsVariable marker source := by
  constructor
  · rintro hnone ⟨c, rest, rfl, hstart⟩
    -- The longest name from `c` on would have been split off.
    have hmarked : marked? marker (marker ++ c :: rest) =
        some (c :: rest.takeWhile Identifier.isContinuation,
          rest.dropWhile Identifier.isContinuation) := by
      refine marked?_eq_some_iff.mpr ⟨?_, ?_, ?_⟩
      · rw [List.append_assoc, List.cons_append, List.takeWhile_append_dropWhile]
      · exact isIdentifier_cons_iff.mpr
          ⟨hstart, fun d hd => List.all_eq_true.mp List.all_takeWhile d hd⟩
      · intro d hd
        have hstop := List.head?_dropWhile_not Identifier.isContinuation rest
        rw [Option.mem_def.mp hd] at hstop
        simpa using hstop
    exact absurd (hnone.symm.trans hmarked) (by simp)
  · intro hstarts
    rw [Option.eq_none_iff_forall_ne_some]
    rintro ⟨name, rest⟩ hmarked
    obtain ⟨rfl, hname, -⟩ := marked?_eq_some_iff.mp hmarked
    cases name with
    | nil => exact absurd hname (by simp [isIdentifier])
    | cons c letters =>
      refine hstarts ⟨c, letters ++ rest, ?_, (isIdentifier_cons_iff.mp hname).1⟩
      rw [List.append_assoc, List.cons_append]

/-- The marks are leftmost and longest in their own text: where a character is plain no variable
could start, and no name could go on behind its variable. -/
inductive Greedy (marker : List Char) : List Mark → Prop
  /-- There is nothing to read. -/
  | nil : Greedy marker []
  /-- No variable could start at a plain character. -/
  | plain {c : Char} {marks : List Mark}
      (hstarts : ¬ StartsVariable marker (c :: marks.flatMap (text marker)))
      (hmarks : Greedy marker marks) : Greedy marker (.plain c :: marks)
  /-- A variable has a name, and it does not go on. -/
  | var {name : List Char} {marks : List Mark} (hname : isIdentifier name = true)
      (hstops : ∀ c ∈ (marks.flatMap (text marker)).head?, Identifier.isContinuation c = false)
      (hmarks : Greedy marker marks) : Greedy marker (.var name :: marks)

/-- The marks that are read in a source are leftmost and longest. -/
theorem greedy_ofSource (marker source : List Char) : Greedy marker (ofSource marker source) := by
  induction hn : source.length using Nat.strongRecOn generalizing source with
  | _ n ih =>
    subst hn
    cases source with
    | nil =>
      rw [ofSource_nil]
      exact .nil
    | cons c rest =>
      cases hmarked : marked? marker (c :: rest) with
      | none =>
        rw [ofSource_of_marked?_eq_none hmarked]
        refine .plain ?_ (ih rest.length (by simp) rest rfl)
        rw [flatMap_text_ofSource]
        exact marked?_eq_none_iff.mp hmarked
      | some parts =>
        obtain ⟨name, after⟩ := parts
        obtain ⟨-, hname, hstops⟩ := marked?_eq_some_iff.mp hmarked
        rw [ofSource_of_marked? hmarked]
        refine .var hname ?_ (ih after.length (length_lt_of_marked? hmarked) after rfl)
        rwa [flatMap_text_ofSource]

/-- Marks that are leftmost and longest are those that are read in their text. -/
theorem Greedy.ofSource_eq {marks : List Mark} (h : Greedy marker marks) :
    ofSource marker (marks.flatMap (text marker)) = marks := by
  induction h with
  | nil => exact ofSource_nil marker
  | @plain c marks hstarts _ ih =>
    rw [List.flatMap_cons, text, List.singleton_append,
      ofSource_of_marked?_eq_none (marked?_eq_none_iff.mpr hstarts), ih]
  | @var name marks hname hstops _ ih =>
    have hmarked : marked? marker (marker ++ name ++ marks.flatMap (text marker)) =
        some (name, marks.flatMap (text marker)) :=
      marked?_eq_some_iff.mpr ⟨rfl, hname, hstops⟩
    rw [List.flatMap_cons, text, ofSource_of_marked? hmarked, ih]

/-- A source has one list of marks that is leftmost and longest. -/
theorem ofSource_eq_iff {source : List Char} {marks : List Mark} :
    ofSource marker source = marks ↔
      marks.flatMap (text marker) = source ∧ Greedy marker marks := by
  constructor
  · rintro rfl
    exact ⟨flatMap_text_ofSource marker source, greedy_ofSource marker source⟩
  · rintro ⟨rfl, hgreedy⟩
    exact hgreedy.ofSource_eq

/-- A run of plain characters is leftmost if no variable could start at any of them. -/
theorem greedy_map_plain_append_iff {run : List Char} {marks : List Mark} :
    Greedy marker (run.map .plain ++ marks) ↔
      (∀ back, back <:+ run → back ≠ [] →
        ¬ StartsVariable marker (back ++ marks.flatMap (text marker))) ∧ Greedy marker marks := by
  have text_run : ∀ run : List Char, (run.map Mark.plain).flatMap (text marker) = run := by
    intro run
    induction run with
    | nil => rfl
    | cons c run ih => rw [List.map_cons, List.flatMap_cons, ih, text, List.singleton_append]
  induction run with
  | nil => simp
  | cons c run ih =>
    have hcons : Greedy marker (.plain c :: (run.map .plain ++ marks)) ↔
        ¬ StartsVariable marker (c :: run ++ marks.flatMap (text marker)) ∧
          Greedy marker (run.map .plain ++ marks) := by
      have htext : (run.map Mark.plain ++ marks).flatMap (text marker) =
          run ++ marks.flatMap (text marker) := by rw [List.flatMap_append, text_run]
      constructor
      · rintro (_ | ⟨hstarts, hmarks⟩)
        rw [htext] at hstarts
        exact ⟨hstarts, hmarks⟩
      · rintro ⟨hstarts, hmarks⟩
        refine .plain ?_ hmarks
        rwa [htext]
    rw [List.map_cons, List.cons_append]
    refine hcons.trans ((and_congr_right fun _ => ih).trans ?_)
    rw [← and_assoc]
    refine and_congr_left fun _ => ?_
    -- The texts at the end of a run are the run itself and those at the end of its tail.
    simp only [List.suffix_cons_iff, or_imp, forall_and, forall_eq]
    exact and_congr_left fun _ => ⟨fun h _ => h, fun h => h (by simp)⟩

end Mark

namespace Segment

/-- The marks of a segment, one for each character of a literal. -/
def marks : Segment → List Mark
  | .literal text => text.toList.map .plain
  | .var name => [.var name.toList]

/-- If the marks of every segment are written as the segment is, the marks of segments are written
as the segments one after the other. -/
theorem flatMap_marks_eq_concat {write : Segment → String} {writeMark : Mark → List Char}
    (h : ∀ segment : Segment, segment.marks.flatMap writeMark = (write segment).toList)
    (segments : List Segment) :
    (segments.flatMap marks).flatMap writeMark = (Template.concat write segments).toList := by
  induction segments with
  | nil => rfl
  | cons segment rest ih =>
    rw [List.flatMap_cons, List.flatMap_append, ih, h, Template.concat_cons, String.toList_append]

/-- The text of the marks of segments is that of the segments. -/
theorem flatMap_text_marks (marker : String) (segments : List Segment) :
    (segments.flatMap marks).flatMap (Mark.text marker.toList) =
      (Template.concat (render marker) segments).toList := by
  refine flatMap_marks_eq_concat (fun segment => ?_) segments
  cases segment with
  | literal text => simp [marks, render, List.flatMap_map, Mark.text]
  | var name => simp [marks, render, Mark.text]

/-- The marks of grouped marks are the marks themselves. -/
theorem flatMap_marks_ofMarks (list : List Mark) : (ofMarks list).flatMap marks = list := by
  have prepended : ∀ (run : List Char) (segments : List Segment),
      (prepend run segments).flatMap marks = run.map .plain ++ segments.flatMap marks := by
    intro run segments
    unfold prepend
    split
    next hrun => rw [hrun, List.map_nil, List.nil_append]
    next => rw [List.flatMap_cons, marks, String.toList_ofList]
  unfold ofMarks
  rw [prepended]
  induction list with
  | nil => rfl
  | cons mark list ih =>
    cases mark with
    | plain c => rw [group, List.map_cons, List.cons_append, ih]
    | var name =>
      rw [group, List.map_nil, List.nil_append, List.flatMap_cons, prepended, ih, marks,
        String.toList_ofList, List.singleton_append]

/-- A run of plain characters at the front joins the one behind it. -/
theorem group_map_plain_append (run : List Char) (list : List Mark) :
    group (run.map .plain ++ list) = (run ++ (group list).1, (group list).2) := by
  induction run with
  | nil => rfl
  | cons c run ih => rw [List.map_cons, List.cons_append, group, ih, List.cons_append]

/-- Segments are grouped again from their marks, if no literal is empty or next to another. -/
theorem ofMarks_flatMap_marks {segments : List Segment}
    (hne : ∀ text, .literal text ∈ segments → text ≠ "") (hapart : segments.IsChain Apart) :
    ofMarks (segments.flatMap marks) = segments := by
  induction segments with
  | nil => rfl
  | cons segment rest ih =>
    have hrest := ih (fun text htext => hne text (List.mem_cons_of_mem _ htext)) hapart.tail
    cases segment with
    | var name =>
      rw [List.flatMap_cons, marks, List.singleton_append, ofMarks, group, String.ofList_toList]
      exact congrArg (Segment.var name :: ·) hrest
    | literal text =>
      -- What follows the literal is a variable or the end, so its run ends with it.
      have hrun : (group (rest.flatMap marks)).1 = [] := by
        cases rest with
        | nil => rfl
        | cons next rest =>
          cases next with
          | var name => rfl
          | literal more => exact absurd hapart.rel (by simp [Apart, name?])
      have htext : text.toList ≠ [] := fun h =>
        hne text List.mem_cons_self (String.toList_eq_nil_iff.mp h)
      rw [ofMarks, hrun] at hrest
      rw [List.flatMap_cons, marks, ofMarks, group_map_plain_append, hrun, List.append_nil,
        prepend, if_neg htext, String.ofList_toList]
      exact congrArg (Segment.literal text :: ·) hrest

/-- No literal of grouped marks is empty. -/
theorem ne_empty_of_mem_ofMarks {list : List Mark} {text : String}
    (h : .literal text ∈ ofMarks list) : text ≠ "" := by
  have prepended : ∀ (run : List Char) (segments : List Segment),
      .literal text ∈ prepend run segments → text ≠ "" ∨ .literal text ∈ segments := by
    intro run segments hmem
    unfold prepend at hmem
    split at hmem
    next => exact .inr hmem
    next hrun =>
      rcases List.mem_cons.mp hmem with heq | hmem
      · obtain rfl := Segment.literal.inj heq
        exact .inl (by simpa using hrun)
      · exact .inr hmem
  rcases prepended _ _ h with hne | hmem
  · exact hne
  · clear h
    induction list with
    | nil => exact absurd hmem (by simp [group])
    | cons mark list ih =>
      cases mark with
      | plain c => exact ih hmem
      | var name =>
        have hrest : .literal text ∈ prepend (group list).1 (group list).2 := by
          simpa [group] using hmem
        exact (prepended _ _ hrest).elim id ih

/-- A segment is leftmost and longest in front of the segments `after`. -/
def Fits (marker : String) (after : List Segment) : Segment → Prop
  -- Nowhere inside the literal could a variable start.
  | .literal text => ∀ back, back <:+ text.toList → back ≠ [] →
      ¬ Mark.StartsVariable marker.toList (back ++ (Template.concat (render marker) after).toList)
  -- The name is a variable name, and no character that continues it follows.
  | .var name => isIdentifier name.toList = true ∧
      ∀ c ∈ (Template.concat (render marker) after).toList.head?,
        Identifier.isContinuation c = false

/-- The marks of a segment and of what follows it are leftmost and longest if the segment is, and
the marks of what follows. -/
theorem greedy_marks_append_iff {marker : String} {segment : Segment} {after : List Segment} :
    Mark.Greedy marker.toList (segment.marks ++ after.flatMap marks) ↔
      segment.Fits marker after ∧ Mark.Greedy marker.toList (after.flatMap marks) := by
  cases segment with
  | literal text =>
    rw [marks, Fits, ← flatMap_text_marks]
    exact Mark.greedy_map_plain_append_iff
  | var name =>
    rw [marks, Fits, ← flatMap_text_marks, List.singleton_append]
    constructor
    · rintro (_ | _ | ⟨hname, hstops, hmarks⟩)
      exact ⟨⟨hname, hstops⟩, hmarks⟩
    · rintro ⟨⟨hname, hstops⟩, hmarks⟩
      exact .var hname hstops hmarks

/-- The marks of segments are leftmost and longest if every segment is. -/
theorem greedy_flatMap_marks_iff {marker : String} {segments : List Segment} :
    Mark.Greedy marker.toList (segments.flatMap marks) ↔
      ∀ segment after, segment :: after <:+ segments → segment.Fits marker after := by
  induction segments with
  | nil => simp [Mark.Greedy.nil]
  | cons first rest ih =>
    rw [List.flatMap_cons, greedy_marks_append_iff, ih]
    constructor
    · rintro ⟨hfirst, hrest⟩ segment after hsuffix
      rcases List.suffix_cons_iff.mp hsuffix with hwhole | hsuffix
      · obtain ⟨rfl, rfl⟩ := List.cons.inj hwhole
        exact hfirst
      · exact hrest segment after hsuffix
    · intro every
      refine ⟨every first rest (List.suffix_refl _), fun segment after hsuffix => ?_⟩
      exact every segment after (hsuffix.trans (List.suffix_cons first rest))

end Segment

namespace Template

/-- A cut of a source into literals and variables that is leftmost and longest. -/
structure Decomposes (marker source : String) (segments : List Segment) : Prop where
  /-- Written one after the other, the segments are the source. -/
  renders : concat (Segment.render marker) segments = source
  /-- Every segment is leftmost and longest: no variable could start inside a literal, and a name
  does not go on behind its variable. -/
  fits : ∀ segment after, segment :: after <:+ segments → segment.Fits marker after
  /-- No literal is empty. -/
  ne_empty : ∀ text, .literal text ∈ segments → text ≠ ""
  /-- No literal is next to another one. -/
  apart : segments.IsChain Segment.Apart

/-- A source has exactly one decomposition, its compiled segments. -/
theorem decomposes_iff (marker source : String) (segments : List Segment) :
    Decomposes marker source segments ↔ segments = (compile source marker).segments := by
  constructor
  · intro h
    have hmarks : Mark.ofSource marker.toList source.toList = segments.flatMap Segment.marks := by
      refine Mark.ofSource_eq_iff.mpr ⟨?_, Segment.greedy_flatMap_marks_iff.mpr h.fits⟩
      rw [Segment.flatMap_text_marks, h.renders]
    rw [compile, hmarks, Segment.ofMarks_flatMap_marks h.ne_empty h.apart]
  · rintro rfl
    have hgreedy : Mark.Greedy marker.toList
        ((compile source marker).segments.flatMap Segment.marks) := by
      rw [compile, Segment.flatMap_marks_ofMarks]
      exact Mark.greedy_ofSource _ _
    exact ⟨render_compile source marker, Segment.greedy_flatMap_marks_iff.mp hgreedy,
      fun _ => Segment.ne_empty_of_mem_ofMarks, isChain_segments_compile source marker⟩

/-- Of the places where a marker overlaps itself the first one counts. -/
example : (compile "baaaa1" "aa").segments = [.literal "b", .var "aa1"] := by decide +kernel

end Template

end ShaderTemplate
