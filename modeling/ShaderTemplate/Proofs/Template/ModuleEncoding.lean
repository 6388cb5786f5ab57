import ShaderTemplate.Proofs.Template.Decomposition
import ShaderTemplate.Proofs.Template.ModuleContract

/-!
# The encoding of a template in its module

A module holds its template as the text of a template literal. The text is read from left to right:
a backslash keeps the character behind it, `${v("…")}` looks a variable up, and every other character
stands for itself, but a backtick ends the literal and `${` opens a substitution. Read in this way,
the module of a compiled template gives the segments back (`decode?_moduleSource`), so modules of
different segments differ. No character of a literal segment can end the literal or open a
substitution, whatever the segments around it are, because what is written for a segment is read as
the segment in front of any text (`Segment.ofText_moduleText_append`).

This reading is simpler than that of `Script.read?`: a carriage return is a character like others
here, and a backslash keeps every character.
-/

namespace ShaderTemplate

/-- What is read at one place of a template literal. -/
inductive Lexeme where
  /-- A character that stands for itself. -/
  | plain (c : Char)
  /-- A character behind a backslash. -/
  | escaped (c : Char)
  /-- A substitution that looks a variable up. -/
  | lookup (name : String)
  /-- A dollar and a brace that open a substitution of another kind. -/
  | opening
  /-- A backtick, which ends the literal. -/
  | ending
  deriving Repr, DecidableEq

namespace Lexeme

/-- Read the lexeme at the front of `c :: rest` and what follows it. -/
def read (c : Char) (rest : List Char) : Lexeme × List Char :=
  match c, rest with
  | '\\', d :: more => (.escaped d, more)
  | '$', '\x7b' :: more =>
    match Script.readCall? more with
    | some (name, after) => (.lookup name, after)
    | none => (.opening, more)
  | '\x60', rest => (.ending, rest)
  | c, rest => (.plain c, rest)

theorem length_read_le (c : Char) (rest : List Char) : (read c rest).2.length ≤ rest.length := by
  unfold read
  split
  · simp
  · split
    next hcall =>
      have := Script.length_lt_of_readCall? hcall
      simp only [List.length_cons]
      omega
    next => simp
  · exact le_rfl
  · exact le_rfl

/-- Read the text of a template literal, and what may stand behind it. -/
def ofText : List Char → List Lexeme
  | [] => []
  | c :: rest => (read c rest).1 :: ofText (read c rest).2
termination_by text => text.length
decreasing_by exact Nat.lt_succ_of_le (length_read_le c rest)

@[simp] theorem ofText_nil : ofText [] = [] := by
  rw [ofText]

theorem ofText_cons (c : Char) (rest : List Char) :
    ofText (c :: rest) = (read c rest).1 :: ofText (read c rest).2 := by
  rw [ofText]

/-- What a lexeme stands for: a character, or a variable. What ends the literal or opens a
substitution of another kind stands for its own characters. -/
def marks : Lexeme → List Mark
  | .plain c => [.plain c]
  | .escaped c => [.plain c]
  | .lookup name => [.var name.toList]
  | .opening => [.plain '$', .plain '\x7b']
  | .ending => [.plain '\x60']

/-- The lexeme that a character of a literal segment is written as. -/
def ofChar (c : Char) : Lexeme :=
  if c == '\x60' || c == '\\' || c == '$' then .escaped c else .plain c

theorem marks_ofChar (c : Char) : (ofChar c).marks = [.plain c] := by
  unfold ofChar
  split <;> rfl

/-- What is written for a character of a literal segment is read as the character, in front of any
text. -/
theorem ofText_escapedChar (c : Char) (rest : List Char) :
    ofText (Template.escapedChar c ++ rest) = ofChar c :: ofText rest := by
  unfold Template.escapedChar ofChar
  split
  next => exact ofText_cons '\\' (c :: rest)
  next h =>
    -- A character that is not escaped starts nothing.
    have hne : (¬ c = '\x60' ∧ ¬ c = '\\') ∧ ¬ c = '$' := by simpa using h
    have hread : read c rest = (.plain c, rest) := by simp [read, hne]
    rw [List.singleton_append, ofText_cons, hread]

/-- What is written for a variable is read as a look-up of it, in front of any text. -/
theorem ofText_substitution {name : String} (h : isIdentifier name.toList = true)
    (rest : List Char) :
    ofText ((Template.substitution name).toList ++ rest) = .lookup name :: ofText rest := by
  have hread : read '$' ('\x7b' ::
      (['v', '(', '\x22'] ++ (name.toList ++ '\x22' :: ([')', '\x7d'] ++ rest)))) =
        (.lookup name, rest) := by
    simp only [read, Script.readCall?_append h rest]
  rw [Script.toList_substitution_append, ofText_cons, hread]

end Lexeme

namespace Segment

/-- The lexemes that a segment is written as: one for each character of a literal, which stands for
the character, and a look-up for a variable. -/
def lexemes : Segment → List Lexeme
  | .literal text => text.toList.map Lexeme.ofChar
  | .var name => [.lookup name]

/-- No lexeme of a segment ends the template literal or opens a substitution of another kind. -/
theorem ne_of_mem_lexemes {segment : Segment} {lexeme : Lexeme} (h : lexeme ∈ segment.lexemes) :
    lexeme ≠ .ending ∧ lexeme ≠ .opening := by
  cases segment with
  | literal text =>
    obtain ⟨c, -, rfl⟩ := List.mem_map.mp h
    unfold Lexeme.ofChar
    split <;> simp
  | var name =>
    obtain rfl := List.mem_singleton.mp h
    simp

/-- The lexemes of a segment stand for its marks. -/
theorem flatMap_marks_lexemes (segment : Segment) :
    segment.lexemes.flatMap Lexeme.marks = segment.marks := by
  cases segment with
  | literal text =>
    simp only [lexemes, marks, List.flatMap_map, Lexeme.marks_ofChar]
    exact List.map_eq_flatMap.symm
  | var name => rfl

/-- What is written for a segment is read as the segment, in front of any text. -/
theorem ofText_moduleText_append {segment : Segment}
    (h : ∀ name ∈ segment.name?, isIdentifier name.toList = true) (rest : List Char) :
    Lexeme.ofText ((Template.moduleText segment).toList ++ rest) =
      segment.lexemes ++ Lexeme.ofText rest := by
  cases segment with
  | literal text =>
    rw [Template.moduleText, Template.escaped, String.toList_ofList, lexemes]
    induction text.toList with
    | nil => rfl
    | cons c letters ih =>
      rw [List.flatMap_cons, List.append_assoc, Lexeme.ofText_escapedChar, ih, List.map_cons,
        List.cons_append]
  | var name => exact Lexeme.ofText_substitution (h name rfl) rest

/-- What is written for segments is read as the segments, in front of any text. -/
theorem ofText_concat_append {segments : List Segment}
    (h : ∀ name, .var name ∈ segments → isIdentifier name.toList = true) (rest : List Char) :
    Lexeme.ofText ((Template.concat Template.moduleText segments).toList ++ rest) =
      segments.flatMap lexemes ++ Lexeme.ofText rest := by
  induction segments with
  | nil => rfl
  | cons segment later ih =>
    have hsegment : ∀ name ∈ segment.name?, isIdentifier name.toList = true := by
      intro name hname
      cases segment with
      | literal text => exact absurd hname (by simp [name?])
      | var other =>
        obtain rfl : other = name := Option.some.inj hname
        exact h other List.mem_cons_self
    rw [Template.concat_cons, String.toList_append, List.append_assoc,
      ofText_moduleText_append hsegment, ih fun name hname => h name (List.mem_cons_of_mem _ hname),
      List.flatMap_cons, List.append_assoc]

end Segment

namespace Template

/-- Strip what stands before and after the text of the template in a module. -/
def moduleBody? (source : String) : Option (List Char) :=
  (Script.after? moduleHead.toList source.toList).bind fun text =>
    (Script.after? moduleTail.toList.reverse text.reverse).map List.reverse

/-- Read the segments of the template in a module: a backslash and a character are the character,
`${v("…")}` is a variable, and every other character is itself. -/
def decode? (source : String) : Option (List Segment) :=
  (moduleBody? source).map fun body =>
    Segment.ofMarks ((Lexeme.ofText body).flatMap Lexeme.marks)

/-- The text of the template stands between the head and the tail of its module. -/
theorem moduleBody?_moduleSource (t : Template) :
    moduleBody? t.moduleSource = some (concat moduleText t.segments).toList := by
  simp only [moduleBody?, moduleSource, String.toList_append, List.append_assoc,
    Script.after?_append, Option.bind_some, List.reverse_append, Option.map_some,
    List.reverse_reverse]

/-- The text of the tail of a module ends the template literal and goes on behind it. -/
theorem ofText_moduleTail :
    Lexeme.ofText moduleTail.toList = .ending :: Script.closing.toList.map .plain := by
  decide +kernel

/-- The module of a compiled template is read as its segments. Behind its head, the module is read
as the lexemes of the segments, and then as its tail: nothing before the tail ends the template
literal, and nothing but a variable opens a substitution. So templates with different segments have
different modules. -/
theorem decode?_moduleSource (source marker : String) :
    decode? (compile source marker).moduleSource = some (compile source marker).segments ∧
      (∃ body, moduleBody? (compile source marker).moduleSource = some body ∧
        Lexeme.ofText (body ++ moduleTail.toList) =
          (compile source marker).segments.flatMap Segment.lexemes ++
            .ending :: Script.closing.toList.map .plain ∧
        Lexeme.ofText body = (compile source marker).segments.flatMap Segment.lexemes ∧
        ∀ lexeme ∈ Lexeme.ofText body, lexeme ≠ .ending ∧ lexeme ≠ .opening) ∧
      ∀ source' marker',
        (compile source' marker').moduleSource = (compile source marker).moduleSource →
          (compile source' marker').segments = (compile source marker).segments := by
  have hnames : ∀ source marker name, .var name ∈ (compile source marker).segments →
      isIdentifier name.toList = true := fun _ _ _ => isIdentifier_of_mem_compile
  have hbody : ∀ source marker,
      Lexeme.ofText (concat moduleText (compile source marker).segments).toList =
        (compile source marker).segments.flatMap Segment.lexemes := by
    intro source marker
    have h := Segment.ofText_concat_append (hnames source marker) []
    rwa [List.append_nil, Lexeme.ofText_nil, List.append_nil] at h
  have hdecode : ∀ source marker, decode? (compile source marker).moduleSource =
      some (compile source marker).segments := by
    intro source marker
    rw [decode?, moduleBody?_moduleSource, Option.map_some, hbody, List.flatMap_assoc]
    simp only [Segment.flatMap_marks_lexemes]
    exact congrArg some (Segment.ofMarks_flatMap_marks
      (fun _ h => Segment.ne_empty_of_mem_ofMarks h) (isChain_segments_compile source marker))
  refine ⟨hdecode source marker, ⟨_, moduleBody?_moduleSource _, ?_, hbody source marker, ?_⟩, ?_⟩
  · rw [Segment.ofText_concat_append (hnames source marker), ofText_moduleTail]
  · rw [hbody]
    intro lexeme hlexeme
    obtain ⟨segment, -, hmem⟩ := List.mem_flatMap.mp hlexeme
    exact Segment.ne_of_mem_lexemes hmem
  · intro source' marker' hsame
    have h := (congrArg decode? hsame).symm.trans (hdecode source' marker')
    exact Option.some.inj (h.symm.trans (hdecode source marker))

end Template

end ShaderTemplate
