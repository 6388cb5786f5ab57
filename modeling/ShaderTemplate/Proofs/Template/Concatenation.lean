import Mathlib.Data.List.Basic
import ShaderTemplate.Proofs.Template.Segments

/-!
# Templates of concatenated texts

A text may be cut wherever one of the two characters around the cut can be part of no variable: the
variables on both sides are then read as if each side stood alone (`ofSource_append`). What one side
has at its end and the other at its start may be one literal of the whole, so the segments of the
whole are those of the two sides with neighbouring literals merged.

Main statements:

- `Mark.marked?_append_of_ends`: what is split off in front of a text that it does not go over into;
- `Mark.ofSource_append`: the marks on both sides of a seam are those of the whole;
- `Template.segments_compile_of_ofSource`: the segments of a text, if its marks are those of its
  pieces.
-/

namespace ShaderTemplate

namespace Mark

variable {marker a b : List Char}

/-! ## Seams -/

/-- A character that is part of no variable: it is not in the marker and continues no name. -/
def IsFree (marker : List Char) (c : Char) : Prop :=
  c ∉ marker ∧ Identifier.isContinuation c = false

/-- No variable goes over the end of `a` into `b`, because the last character of `a` or the first of
`b` is free. There is nothing to go over next to an empty text. -/
def Seam (marker a b : List Char) : Prop :=
  (∀ c ∈ a.getLast?, IsFree marker c) ∨ ∀ c ∈ b.head?, IsFree marker c

/-- A free character is in no variable. -/
theorem IsFree.notMem {c : Char} (h : IsFree marker c) {name : List Char}
    (hname : isIdentifier name = true) : c ∉ marker ++ name := by
  intro hc
  rcases List.mem_append.mp hc with hc | hc
  · exact h.1 hc
  · exact absurd (isContinuation_of_mem hname hc) (by simp [h.2])

/-- Text in front of a seam may be left out. -/
theorem Seam.of_append {front : List Char} (h : Seam marker (front ++ a) b) : Seam marker a b := by
  refine h.imp_left fun hlast c hc => hlast c ?_
  rw [List.getLast?_append, Option.mem_def.mp hc]
  rfl

/-- A variable is split off exactly if it stands at the front and its name does not go on. -/
theorem marked?_eq_some_iff {source name rest : List Char} :
    marked? marker source = some (name, rest) ↔ source = marker ++ name ++ rest ∧
      isIdentifier name = true ∧ ∀ c ∈ rest.head?, Identifier.isContinuation c = false := by
  refine ⟨eq_append_of_marked?, ?_⟩
  rintro ⟨rfl, hname, hrest⟩
  cases name with
  | nil => exact absurd hname (by simp [isIdentifier])
  | cons first letters =>
    obtain ⟨hstart, hletters⟩ := isIdentifier_cons_iff.mp hname
    -- The name is the longest one, as what follows it does not continue it.
    have hstop : rest.takeWhile Identifier.isContinuation = [] ∧
        rest.dropWhile Identifier.isContinuation = rest := by
      cases rest with
      | nil => exact ⟨rfl, rfl⟩
      | cons c rest => simp [hrest c rfl]
    have hmarker : marker.isPrefixOf (marker ++ first :: letters ++ rest) = true := by
      rw [List.append_assoc]
      exact List.isPrefixOf_iff_prefix.mpr (List.prefix_append _ _)
    have hdrop : (marker ++ first :: letters ++ rest).drop marker.length =
        first :: (letters ++ rest) := by
      rw [List.append_assoc, List.drop_left, List.cons_append]
    rw [marked?, if_pos hmarker, hdrop]
    simp only [hstart, if_true, List.takeWhile_append_of_pos hletters, hstop,
      List.dropWhile_append_of_pos hletters, List.append_nil]

/-- If no variable at the front of `a` goes over into `b`, neither by more of its name nor by what
is left of it, a variable is split off as if nothing followed. -/
theorem marked?_append_of_ends
    (hstops : ∀ name, isIdentifier name = true → a = marker ++ name →
      ∀ c ∈ b.head?, Identifier.isContinuation c = false)
    (hends : ∀ name crossing, isIdentifier name = true → marker ++ name = a ++ crossing →
      crossing <+: b → crossing = []) :
    marked? marker (a ++ b) = (marked? marker a).map fun parts => (parts.1, parts.2 ++ b) := by
  cases hmarked : marked? marker a with
  | some parts =>
    obtain ⟨name, rest⟩ := parts
    obtain ⟨ha, hname, hrest⟩ := marked?_eq_some_iff.mp hmarked
    refine marked?_eq_some_iff.mpr ⟨by rw [ha, List.append_assoc], hname, fun c hc => ?_⟩
    cases rest with
    | cons d rest => exact hrest c hc
    | nil => exact hstops name hname (by rw [ha, List.append_nil]) c hc
  | none =>
    rw [Option.map_none, Option.eq_none_iff_forall_ne_some]
    rintro ⟨name, rest⟩ hwhole
    obtain ⟨hsource, hname, hrest⟩ := marked?_eq_some_iff.mp hwhole
    -- A variable of the whole text that ends in `a` would have been found in `a`.
    have notWithin : ∀ more, a = marker ++ name ++ more → rest ≠ more ++ b := by
      rintro more ha rfl
      have hfound : marked? marker a = some (name, more) := by
        refine marked?_eq_some_iff.mpr ⟨ha, hname, fun c hc => hrest c ?_⟩
        rw [List.head?_append, Option.mem_def.mp hc]
        rfl
      exact absurd (hmarked.symm.trans hfound) (by simp)
    rcases List.append_eq_append_iff.mp hsource with ⟨crossing, hcrossing, hb⟩ | ⟨more, ha, hrest⟩
    · obtain rfl := hends name crossing hname hcrossing ⟨rest, hb.symm⟩
      exact notWithin [] (by simpa using hcrossing.symm) hb.symm
    · exact notWithin more ha hrest

/-- Whether a variable stands at the front of a text does not depend on what follows a seam. -/
theorem marked?_append (h : Seam marker a b) (ha : a ≠ []) :
    marked? marker (a ++ b) = (marked? marker a).map fun parts => (parts.1, parts.2 ++ b) := by
  have hlast := List.getLast?_eq_some_getLast ha
  refine marked?_append_of_ends (fun name hname hwhole c hc => ?_)
    fun name crossing hname hcrossing hb => ?_
  · -- The name ends at the seam, and its last letter is not free.
    rcases h with hfree | hfree
    · exact absurd (hwhole ▸ List.getLast_mem ha) ((hfree _ hlast).notMem hname)
    · exact (hfree c hc).2
  · -- Both characters next to the seam would be in the variable, and one of them is free.
    obtain _ | ⟨d, crossing⟩ := crossing
    · rfl
    obtain ⟨rest, rfl⟩ := hb
    rcases h with hfree | hfree
    · refine absurd ?_ ((hfree _ hlast).notMem hname)
      rw [hcrossing]
      exact List.mem_append_left _ (List.getLast_mem ha)
    · refine absurd ?_ ((hfree d rfl).notMem hname)
      rw [hcrossing]
      exact List.mem_append_right _ List.mem_cons_self

/-- If nowhere in `a` the text `b` behind it makes a difference to what is split off, the marks of
both texts are those of the whole. -/
theorem ofSource_append_of_marked? (h : ∀ back, back <:+ a → back ≠ [] →
      marked? marker (back ++ b) =
        (marked? marker back).map fun parts => (parts.1, parts.2 ++ b)) :
    ofSource marker (a ++ b) = ofSource marker a ++ ofSource marker b := by
  -- What is left of `a`, behind a character or behind a variable, is an end of it.
  induction hn : a.length using Nat.strongRecOn generalizing a with
  | _ n ih =>
    subst hn
    cases a with
    | nil => simp
    | cons c rest =>
      have hwhole := h (c :: rest) (List.suffix_refl _) (List.cons_ne_nil c rest)
      cases hmarked : marked? marker (c :: rest) with
      | none =>
        rw [hmarked, Option.map_none, List.cons_append] at hwhole
        have hrest := ih rest.length (by simp)
          (fun back hback => h back (hback.trans (List.suffix_cons c rest))) rfl
        rw [List.cons_append, ofSource_of_marked?_eq_none hwhole,
          ofSource_of_marked?_eq_none hmarked, hrest, List.cons_append]
      | some parts =>
        obtain ⟨name, after⟩ := parts
        rw [hmarked, Option.map_some] at hwhole
        have hsuffix : after <:+ c :: rest :=
          ⟨marker ++ name, (eq_append_of_marked? hmarked).1.symm⟩
        have hafter := ih after.length (length_lt_of_marked? hmarked)
          (fun back hback => h back (hback.trans hsuffix)) rfl
        rw [ofSource_of_marked? hwhole, ofSource_of_marked? hmarked, hafter, List.cons_append]

/-- The marks on both sides of a seam are those of the whole text. -/
theorem ofSource_append (h : Seam marker a b) :
    ofSource marker (a ++ b) = ofSource marker a ++ ofSource marker b := by
  refine ofSource_append_of_marked? fun back hback hne => marked?_append ?_ hne
  -- The seam is behind every end of `a`.
  obtain ⟨front, rfl⟩ := hback
  exact h.of_append

end Mark

/-! ## Neighbouring literals -/

namespace Segment

/-- Put a segment in front of segments. A literal is joined with one that they start with. -/
def attach : Segment → List Segment → List Segment
  | .literal text, .literal more :: rest => .literal (text ++ more) :: rest
  | first, rest => first :: rest

/-- Join the literals that follow each other. -/
def merged (segments : List Segment) : List Segment :=
  segments.foldr attach []

/-- The segment of a mark alone. -/
def ofMark : Mark → Segment
  | .plain c => .literal (String.singleton c)
  | .var name => .var (String.ofList name)

theorem merged_cons (first : Segment) (rest : List Segment) :
    merged (first :: rest) = attach first (merged rest) := rfl

/-- A variable is joined with nothing. -/
@[simp] theorem attach_var (name : String) (segments : List Segment) :
    attach (.var name) segments = .var name :: segments := by
  rw [attach]
  simp

/-- A segment may be joined with the first segments before or after these with what follows. -/
theorem foldr_attach_attach (first : Segment) (segments rest : List Segment) :
    (attach first segments).foldr attach rest = attach first (segments.foldr attach rest) := by
  cases first with
  | var name => simp
  | literal text =>
    cases segments with
    | nil => rfl
    | cons next segments =>
      cases next with
      | var name => simp [attach]
      | literal more =>
        simp only [attach, List.foldr_cons]
        -- The two literals meet what follows, which may start with a third.
        cases segments.foldr attach rest with
        | nil => rfl
        | cons third others => cases third <;> simp [String.append_assoc]

/-- Segments may be merged before they are merged with what follows. -/
theorem foldr_attach_merged (segments rest : List Segment) :
    (merged segments).foldr attach rest = segments.foldr attach rest := by
  induction segments with
  | nil => rfl
  | cons first segments ih => rw [merged_cons, foldr_attach_attach, ih, List.foldr_cons]

/-- The parts of a list of segments may be merged before the whole. -/
theorem merged_flatMap_merged {α : Type} (f : α → List Segment) (parts : List α) :
    merged (parts.flatMap fun part => merged (f part)) = merged (parts.flatMap f) := by
  have append : ∀ front back, merged (front ++ back) = front.foldr attach (merged back) :=
    fun front back => List.foldr_append
  induction parts with
  | nil => rfl
  | cons part parts ih =>
    rw [List.flatMap_cons, List.flatMap_cons, append, append, foldr_attach_merged, ih]

/-- A segment that no literal may follow goes in front of the others. -/
theorem attach_of_head?_ne {text : String} {segments : List Segment}
    (h : ∀ first ∈ segments.head?, first.name? ≠ none) :
    attach (.literal text) segments = .literal text :: segments := by
  cases segments with
  | nil => rfl
  | cons first rest =>
    cases first with
    | var name => rfl
    | literal more => exact absurd rfl (h (.literal more) rfl)

/-- Grouping marks is merging their segments. -/
theorem ofMarks_eq_merged (marks : List Mark) : ofMarks marks = merged (marks.map ofMark) := by
  induction marks with
  | nil => rfl
  | cons mark marks ih =>
    rw [List.map_cons, merged_cons, ← ih]
    cases mark with
    | var name =>
      rw [ofMark, attach_var]
      rfl
    | plain c =>
      -- The character joins the run at the front, or it starts one in front of a variable.
      obtain ⟨hhead, -⟩ := isChain_group marks
      have hplain : ofMarks (.plain c :: marks) =
          .literal (String.ofList (c :: (group marks).1)) :: (group marks).2 := by
        simp [ofMarks, group, prepend]
      rw [hplain, ofMark, ofMarks, prepend]
      split
      next hrun => rw [hrun, attach_of_head?_ne hhead, String.singleton_eq_ofList]
      next => rw [attach, String.singleton_eq_ofList, ← String.ofList_append, List.singleton_append]

/-- Merging keeps the variables. -/
theorem filterMap_name?_merged (segments : List Segment) :
    (merged segments).filterMap name? = segments.filterMap name? := by
  have attached : ∀ (first : Segment) (rest : List Segment),
      (attach first rest).filterMap name? = (first :: rest).filterMap name? := by
    intro first rest
    cases first with
    | var name => rw [attach_var]
    | literal text =>
      cases rest with
      | nil => rfl
      | cons next rest => cases next <;> rfl
  induction segments with
  | nil => rfl
  | cons first segments ih =>
    rw [merged_cons, attached, List.filterMap_cons, List.filterMap_cons, ih]

end Segment

/-! ## First appearances -/

section FirstAppearances

variable {α : Type} [DecidableEq α]

/-- A class of items may be left out before or after the repetitions. -/
theorem eraseDups_filter (p : α → Bool) (items : List α) :
    (items.filter p).eraseDups = items.eraseDups.filter p := by
  induction hn : items.length using Nat.strongRecOn generalizing items with
  | _ n ih =>
    subst hn
    cases items with
    | nil => rfl
    | cons item items =>
      have hlt := Nat.lt_succ_of_le (List.length_filter_le (fun b => !b == item) items)
      have hrest := ih _ hlt _ rfl
      rw [List.eraseDups_cons]
      by_cases hitem : p item = true
      · rw [List.filter_cons_of_pos hitem, List.filter_cons_of_pos hitem, List.eraseDups_cons,
          ← hrest, List.filter_filter, List.filter_filter]
        simp only [Bool.and_comm]
      · rw [List.filter_cons_of_neg hitem, List.filter_cons_of_neg hitem, ← hrest,
          List.filter_filter]
        -- The item itself is left out, so it need not be left out as a repetition.
        congr 1
        refine List.filter_congr fun b _ => ?_
        by_cases hb : b = item
        · simp [hb, hitem]
        · simp [hb]

/-- There are no repetitions left. -/
theorem eraseDups_eraseDups (items : List α) : items.eraseDups.eraseDups = items.eraseDups := by
  induction hn : items.length using Nat.strongRecOn generalizing items with
  | _ n ih =>
    subst hn
    cases items with
    | nil => rfl
    | cons item items =>
      -- The item was left out of what follows it already.
      rw [List.eraseDups_cons, List.eraseDups_cons, ← eraseDups_filter, List.filter_filter]
      simp only [Bool.and_self]
      rw [ih _ (Nat.lt_succ_of_le (List.length_filter_le _ items)) _ rfl]

/-- The repetitions in each part may be left out before those in the whole. -/
theorem eraseDups_flatMap_eraseDups {β : Type} (f : β → List α) (parts : List β) :
    (parts.flatMap fun part => (f part).eraseDups).eraseDups = (parts.flatMap f).eraseDups := by
  induction parts with
  | nil => rfl
  | cons part parts ih =>
    rw [List.flatMap_cons, List.flatMap_cons, List.eraseDups_append, List.eraseDups_append,
      eraseDups_eraseDups]
    simp only [List.removeAll, eraseDups_filter, ih, List.elem_eq_mem, List.mem_eraseDups]

end FirstAppearances

namespace Template

variable {marker : String} {pieces : List String}

/-- The segments of a text whose marks are those of its pieces are the segments of the pieces, with
neighbouring literals merged. -/
theorem segments_compile_of_ofSource {text : String}
    (h : Mark.ofSource marker.toList text.toList =
      pieces.flatMap fun piece => Mark.ofSource marker.toList piece.toList) :
    (compile text marker).segments =
      Segment.merged (pieces.flatMap fun piece => (compile piece marker).segments) := by
  simp only [compile, Segment.ofMarks_eq_merged]
  rw [Segment.merged_flatMap_merged, h, List.map_flatMap]

/-- The variables of a text whose segments are those of its pieces are the variables of the pieces,
each where it appears first. -/
theorem variableNames_compile_of_segments {text : String}
    (h : (compile text marker).segments =
      Segment.merged (pieces.flatMap fun piece => (compile piece marker).segments)) :
    (compile text marker).variableNames =
      (pieces.flatMap fun piece => (compile piece marker).variableNames).eraseDups := by
  simp only [variableNames]
  rw [eraseDups_flatMap_eraseDups, h, Segment.filterMap_name?_merged, List.filterMap_flatMap]

end Template

end ShaderTemplate
