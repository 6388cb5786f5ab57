import ShaderTemplate.Config.Basic
import ShaderTemplate.Proofs.Template.Decomposition
import ShaderTemplate.Value.Options

/-!
# Names behind markers

Three tests of characters have to fit together: what a marker may start with, for which names a
value may be set, and what is read as a name behind a marker. No name goes on into a marker that
starts with a character of no name, so a name that a value may be set for is read back wherever it
is marked, also where the next marker follows at once. Further on a marker may look like a name.

In front of a marked name there may be any text that does not end in the middle of a marker
(`MarkerCrosses`).

Main statements:

- `Mark.ofSource_append_of_not_markerCrosses`: where a text may be cut in front of a marker;
- `Template.segments_compile_append_marked`: a marked name between two texts;
- `Template.compile_marked_iff_settable`: marked names are read back if values may be set for them.
-/

namespace ShaderTemplate

namespace Config

/-- What continues a variable name continues a name in some script. -/
theorem isNameChar_of_isContinuation {c : Char} (h : Identifier.isContinuation c = true) :
    isNameChar c = true := by
  rcases Bool.or_eq_true_iff.mp h with halphanum | hunderscore
  · exact Bool.or_eq_true_iff.mpr (.inl (Text.isAlphanumeric_of_isAlphanum halphanum))
  · exact Bool.or_eq_true_iff.mpr (.inr hunderscore)

/-- The marker of a usable configuration starts with a character that continues no variable name. -/
theorem Usable.exists_marker_eq_cons {config : Config} (h : config.Usable) :
    ∃ c rest, config.marker.toList = c :: rest ∧ Identifier.isContinuation c = false := by
  unfold Usable fault? at h
  split at h
  · exact absurd h (by simp)
  next c rest hmarker =>
    split at h
    · exact absurd h (by simp)
    next hname =>
      refine ⟨c, rest, hmarker, Bool.eq_false_iff.mpr fun hcontinues => hname ?_⟩
      exact isNameChar_of_isContinuation hcontinues

end Config

namespace Mark

variable {marker a b : List Char}

/-- A marker stands over the end of `a` and the start of `b`, a part of it in each. -/
def MarkerCrosses (marker a b : List Char) : Prop :=
  ∃ n < marker.length, 0 < n ∧ marker.take n <:+ a ∧ marker.drop n <+: b

instance (marker a b : List Char) : Decidable (MarkerCrosses marker a b) :=
  inferInstanceAs (Decidable (∃ n < marker.length, _))

/-- A marker whose parts are at the end of `a` and at the start of `b` crosses over. -/
theorem markerCrosses_append {part more : List Char} (hpart : part ≠ []) (hmore : more ≠ [])
    (ha : part <:+ a) (hb : more <+: b) : MarkerCrosses (part ++ more) a b := by
  refine ⟨part.length, ?_, List.length_pos_iff.mpr hpart, ?_, ?_⟩
  · rw [List.length_append]
    exact Nat.lt_add_of_pos_right (List.length_pos_iff.mpr hmore)
  · rwa [List.take_left]
  · rwa [List.drop_left]

/-- If no marker crosses over the end of a text and what follows continues no name, a variable is
split off as if nothing followed. -/
theorem marked?_append_of_not_markerCrosses (hcrosses : ¬ MarkerCrosses marker a b) (hne : a ≠ [])
    (hb : ∀ c ∈ b.head?, Identifier.isContinuation c = false) :
    marked? marker (a ++ b) = (marked? marker a).map fun parts => (parts.1, parts.2 ++ b) := by
  refine marked?_append_of_ends (fun _ _ _ => hb) fun name crossing hname hcrossing hprefix => ?_
  -- What is in the name continues one, so no end of the name stands at the front of `b`.
  have hinside : ∀ letters, letters <:+ name → letters <+: b → letters = [] := by
    rintro (_ | ⟨c, letters⟩) hletters ⟨more, rfl⟩
    · rfl
    · have hc := isContinuation_of_mem hname (hletters.subset List.mem_cons_self)
      exact absurd hc (by simp [hb c rfl])
  rcases List.append_eq_append_iff.mp hcrossing with ⟨part, rfl, rfl⟩ | ⟨part, rfl, rfl⟩
  · exact hinside crossing (List.suffix_append _ _) hprefix
  · -- The marker ends in `b`. If it ends where `b` starts, the name starts there.
    by_cases hpart : part = []
    · subst hpart
      exact hinside _ (List.suffix_refl _) hprefix
    · have hmarker := markerCrosses_append hne hpart (List.suffix_refl a)
        ((List.prefix_append part name).trans hprefix)
      exact absurd hmarker hcrosses

/-- A text that no marker crosses the end of may be cut off in front of what continues no name. -/
theorem ofSource_append_of_not_markerCrosses (hcrosses : ¬ MarkerCrosses marker a b)
    (hb : ∀ c ∈ b.head?, Identifier.isContinuation c = false) :
    ofSource marker (a ++ b) = ofSource marker a ++ ofSource marker b := by
  refine ofSource_append_of_marked? fun back hback hne =>
    marked?_append_of_not_markerCrosses ?_ hne hb
  rintro ⟨n, hn, hpos, htake, hdrop⟩
  exact hcrosses ⟨n, hn, hpos, htake.trans hback, hdrop⟩

end Mark

namespace Segment

/-- Nothing is joined over a variable. -/
theorem foldr_attach_var (segments : List Segment) (name : String) (rest : List Segment) :
    segments.foldr attach (.var name :: rest) = merged segments ++ .var name :: rest := by
  have attached : ∀ first front,
      attach first (front ++ .var name :: rest) = attach first front ++ .var name :: rest := by
    intro first front
    cases first with
    | var other => rw [attach_var, attach_var, List.cons_append]
    | literal text =>
      cases front with
      | nil => rfl
      | cons next front => cases next <;> rfl
  induction segments with
  | nil => rfl
  | cons first segments ih => rw [List.foldr_cons, ih, attached, merged_cons]

/-- A variable at the front is a segment of its own. -/
theorem ofMarks_cons_var (name : List Char) (back : List Mark) :
    ofMarks (.var name :: back) = .var (String.ofList name) :: ofMarks back := rfl

/-- The marks on both sides of a variable are grouped by themselves. -/
theorem ofMarks_append_var (front : List Mark) (name : List Char) (back : List Mark) :
    ofMarks (front ++ .var name :: back) =
      ofMarks front ++ .var (String.ofList name) :: ofMarks back := by
  have happend : ∀ marks : List Mark, ofMarks (front ++ marks) =
      (front.map ofMark).foldr attach (ofMarks marks) := fun marks => by
    rw [ofMarks_eq_merged, ofMarks_eq_merged, List.map_append, merged, List.foldr_append, merged]
  rw [happend, ofMarks_cons_var, foldr_attach_var, ← ofMarks_eq_merged]

end Segment

namespace Template

variable {marker name front back : String}

/-- Whether a value may be set for a name depends on neither the value nor the options. -/
theorem exists_set_eq_ok_iff {options : Options} {value : Value} :
    (∃ next, options.set name value = .ok next) ↔ isIdentifier name.toList = true := by
  simp only [Options.set_eq_ok_iff, exists_and_left, exists_eq, and_true]

/-- A marker stops the name in front of it. -/
theorem isContinuation_head_marker
    (hmarker : ∃ c rest, marker.toList = c :: rest ∧ Identifier.isContinuation c = false)
    (text : String) : ∀ c ∈ (marker ++ text).toList.head?, Identifier.isContinuation c = false := by
  obtain ⟨first, rest, hfirst, hcontinues⟩ := hmarker
  intro c hc
  rw [String.toList_append, hfirst] at hc
  obtain rfl : first = c := by simpa using hc
  exact hcontinues

/-- A marked name at the front of a source is one mark. -/
theorem ofSource_marked (hname : isIdentifier name.toList = true)
    (hback : ∀ c ∈ back.toList.head?, Identifier.isContinuation c = false) :
    Mark.ofSource marker.toList (marker ++ name ++ back).toList =
      .var name.toList :: Mark.ofSource marker.toList back.toList := by
  rw [String.toList_append, String.toList_append]
  exact Mark.ofSource_of_marked? (Mark.marked?_eq_some_iff.mpr ⟨rfl, hname, hback⟩)

/-- A text that no marker crosses the end of is read in front of a marked name as if it stood
alone. -/
theorem segments_compile_append_marked (hname : isIdentifier name.toList = true)
    (hmarker : ∃ c rest, marker.toList = c :: rest ∧ Identifier.isContinuation c = false)
    (hfront : ¬ Mark.MarkerCrosses marker.toList front.toList (marker ++ name ++ back).toList)
    (hback : ∀ c ∈ back.toList.head?, Identifier.isContinuation c = false) :
    (compile (front ++ (marker ++ name ++ back)) marker).segments =
      (compile front marker).segments ++ .var name :: (compile back marker).segments := by
  have hhead : ∀ c ∈ (marker ++ name ++ back).toList.head?,
      Identifier.isContinuation c = false := by
    rw [String.append_assoc]
    exact isContinuation_head_marker hmarker _
  rw [compile, String.toList_append, Mark.ofSource_append_of_not_markerCrosses hfront hhead,
    ofSource_marked hname hback, Segment.ofMarks_append_var, String.ofList_toList]
  rfl

/-- Marked names are read back if all of them are variable names. -/
theorem segments_compile_join_marked
    (hmarker : ∃ c rest, marker.toList = c :: rest ∧ Identifier.isContinuation c = false)
    {names : List String} (hnames : ∀ name ∈ names, isIdentifier name.toList = true) :
    (compile (String.join (names.map (marker ++ ·))) marker).segments = names.map .var := by
  induction names with
  | nil => simp [compile, Segment.ofMarks, Segment.group, Segment.prepend]
  | cons name names ih =>
    obtain ⟨hname, hrest⟩ := List.forall_mem_cons.mp hnames
    -- The name stops where the next marker starts, or at the end.
    have hback : ∀ c ∈ (String.join (names.map (marker ++ ·))).toList.head?,
        Identifier.isContinuation c = false := by
      cases names with
      | nil => simp
      | cons next names =>
        rw [List.map_cons, String.join_cons, String.append_assoc]
        exact isContinuation_head_marker hmarker _
    rw [List.map_cons, List.map_cons, ← ih hrest, String.join_cons, compile,
      ofSource_marked hname hback, Segment.ofMarks_cons_var, String.ofList_toList]
    rfl

/-- What may be marked is what a value may be set for. In a usable configuration, whatever the
options and the value:

- a text of names, each behind a marker and nothing between them, is read as these variables exactly
  if the value is accepted under every one of the names;
- an accepted name may be marked in any place: behind a text that no marker crosses the end of, and
  in front of a text that does not go on with the name, which may be the next marker. The name is
  read as a variable there, and the texts as if each stood alone;
- under no marker is a rejected name a variable of a template.
-/
theorem compile_marked_iff_settable (config : Config) (h : config.Usable) (options : Options)
    (value : Value) :
    (∀ names : List String,
      (compile (String.join (names.map (config.marker ++ ·))) config.marker).segments =
          names.map .var ↔
        ∀ name ∈ names, ∃ next, options.set name value = .ok next) ∧
    (∀ (name : String) (next : Options) (front back : String),
      options.set name value = .ok next →
      ¬ Mark.MarkerCrosses config.marker.toList front.toList
        (config.marker ++ name ++ back).toList →
      (∀ c ∈ back.toList.head?, Identifier.isContinuation c = false) →
        (compile (front ++ (config.marker ++ name ++ back)) config.marker).segments =
          (compile front config.marker).segments ++
            .var name :: (compile back config.marker).segments) ∧
    ∀ (name : String) (e : Error), options.set name value = .error e →
      ∀ source marker, name ∉ (compile source marker).variableNames := by
  have hmarker := h.exists_marker_eq_cons
  -- What is read as a variable is a variable name under every marker. That every variable name is
  -- read back needs a marker that no name goes on into.
  refine ⟨fun names => ⟨fun hread name hname => ?_, fun hset => ?_⟩,
    fun name next front back hset hfront hback => ?_, fun name e hset source marker hmem => ?_⟩
  · have hvar : .var name ∈ (compile (String.join (names.map (config.marker ++ ·)))
        config.marker).segments := hread ▸ List.mem_map_of_mem hname
    exact exists_set_eq_ok_iff.mpr (isIdentifier_of_mem_compile hvar)
  · exact segments_compile_join_marked hmarker fun name hname =>
      exists_set_eq_ok_iff.mp (hset name hname)
  · exact segments_compile_append_marked (Options.set_eq_ok_iff.mp hset).1 hmarker hfront hback
  · have hname := isIdentifier_of_mem_compile (mem_variableNames_iff.mp hmem)
    obtain ⟨next, hnext⟩ := exists_set_eq_ok_iff.mpr hname
    exact absurd (hset.symm.trans hnext) (by simp)

/-- A marker that goes on like a name and overlaps itself: between names, behind the first character
of a marker, and in front of a digit, which starts no name. -/
theorem compile_marked_iff_settable_overlapping :
    let config : Config := { marker := "-a-" }
    config.Usable ∧
      (compile "-a-a-a-_b1" "-a-").segments = [.var "a", .var "_b1"] ∧
      (compile "x--a-b-a-1" "-a-").segments = [.literal "x-", .var "b", .literal "-a-1"] ∧
      "1" ∉ (compile "x--a-b-a-1" "-a-").variableNames := by
  intro config
  have usable : config.Usable := by decide +kernel
  obtain ⟨hread, hanywhere, hnever⟩ :=
    compile_marked_iff_settable config usable {} (.text "red")
  have hadjacent := (hread ["a", "_b1"]).mpr fun name hname => by
    rcases List.mem_pair.mp hname with rfl | rfl <;> exact ⟨_, rfl⟩
  have hstops : ∀ c ∈ "-a-1".toList.head?, Identifier.isContinuation c = false := fun c hc => by
    obtain rfl := Option.some.inj hc
    decide
  have hbetween := hanywhere "b" _ "x-" "-a-1" rfl (by decide +kernel) hstops
  have hfront : (compile "x-" "-a-").segments = [.literal "x-"] := by decide +kernel
  have hback : (compile "-a-1" "-a-").segments = [.literal "-a-1"] := by decide +kernel
  rw [show config.marker = "-a-" from rfl, hfront, hback] at hbetween
  exact ⟨usable, hadjacent, hbetween, hnever "1" _ rfl _ _⟩

end Template

end ShaderTemplate
