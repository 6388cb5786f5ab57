import ShaderTemplate.Proofs.Template.Script
import ShaderTemplate.Proofs.Template.Segments
import ShaderTemplate.Template.Evaluation
import ShaderTemplate.Template.Module

/-!
# The contract of emitted modules

The function that an emitted module exports is meant to make of an object what an evaluation makes
of the same options: the same text, or an error that names the same missing variable. It does so
but for two things (`agrees_call_iff`). A carriage return in a literal segment is not escaped, and
comes out as a line feed. A variable that the object does not have, but inherits, is not missed, and
the text of what is inherited is written.

The proof reads the module first: the body that is read has one part for each character of a
literal, the ends of its lines made line feeds, and one for each variable (`read?_moduleSource`).
-/

namespace ShaderTemplate

/-- Make every end of a line a line feed. -/
def normalLines : List Char → List Char
  | [] => []
  | '\r' :: '\n' :: rest => '\n' :: normalLines rest
  | '\r' :: rest => '\n' :: normalLines rest
  | c :: rest => c :: normalLines rest

/-- No carriage return is left. -/
theorem notMem_normalLines (text : List Char) : '\r' ∉ normalLines text := by
  fun_induction normalLines text with
  | case1 => simp
  | case2 rest ih => simpa using ih
  | case3 rest _ ih => simpa using ih
  | case4 c rest _ hc ih =>
    have hne : '\r' ≠ c := fun h => hc h.symm
    simpa [hne] using ih

/-- A text without carriage returns is kept. -/
theorem normalLines_eq_self {text : List Char} (h : '\r' ∉ text) : normalLines text = text := by
  fun_induction normalLines text with
  | case1 => rfl
  | case2 rest ih => exact absurd h (by simp)
  | case3 rest _ ih => exact absurd h (by simp)
  | case4 c rest _ _ ih => rw [ih fun hmem => h (List.mem_cons_of_mem _ hmem)]

namespace Segment

/-- The parts that a segment is written as in a module. -/
def parts : Segment → List Part
  | .literal text => (normalLines text.toList).map .char
  | .var name => [.call name]

/-- The characters of a literal. -/
def letters : Segment → List Char
  | .literal text => text.toList
  | .var _ => []

/-- A character is one of the literals if one of the literals has it. -/
theorem mem_flatMap_letters {segments : List Segment} {c : Char} :
    c ∈ segments.flatMap letters ↔ ∃ text, .literal text ∈ segments ∧ c ∈ text.toList := by
  rw [List.mem_flatMap]
  constructor
  · rintro ⟨segment, hsegment, hc⟩
    cases segment with
    | literal text => exact ⟨text, hsegment, hc⟩
    | var name => exact absurd hc (by simp [letters])
  · rintro ⟨text, htext, hc⟩
    exact ⟨.literal text, htext, hc⟩

end Segment

/-- What the module of a template is read as. -/
def Template.script (t : Template) : Script where
  message := "MissingVariable: "
  body := t.segments.flatMap Segment.parts

namespace Script

variable {segments : List Segment} {name : String} {rest : List Char}

/-! ## Reading a module -/

-- In what follows the reader is run on texts whose first characters are known.
attribute [local simp] readLiteral?

@[simp] theorem after?_append (expected rest : List Char) :
    after? expected (expected ++ rest) = some rest := by
  simp [after?]

@[simp] theorem prepend_nil (later : Option (List Part × List Char)) :
    prepend [] later = later := by
  simp [prepend]

theorem prepend_prepend (first second : List Part) (later : Option (List Part × List Char)) :
    prepend first (prepend second later) = prepend (first ++ second) later := by
  simp [prepend, Function.comp_def]

/-- A string is read up to its closing quote. -/
theorem readString?_append {letters : List Char} (h : ∀ c ∈ letters, isStringChar c = true)
    (rest : List Char) :
    readString? (letters ++ '\x22' :: rest) = some (String.ofList letters, rest) := by
  have htake : (letters ++ '\x22' :: rest).takeWhile isStringChar = letters := by
    rw [List.takeWhile_append_of_pos h]
    simp [isStringChar]
  have hdrop : (letters ++ '\x22' :: rest).dropWhile isStringChar = ['\x22'] ++ rest := by
    rw [List.dropWhile_append_of_pos h]
    simp [isStringChar]
  rw [readString?, htake, hdrop, after?_append, Option.map_some]

/-- The characters of a variable name stand for themselves in a string. -/
theorem isStringChar_of_isIdentifier {letters : List Char} (h : isIdentifier letters = true)
    {c : Char} (hc : c ∈ letters) : isStringChar c = true := by
  have hcontinues : Identifier.isContinuation c = true := isContinuation_of_mem h hc
  -- None of the four characters that do not stand for themselves continues a name.
  simp only [isStringChar, Bool.and_eq_true, bne_iff_ne]
  refine ⟨⟨⟨?_, ?_⟩, ?_⟩, ?_⟩ <;> rintro rfl <;> exact absurd hcontinues (by decide)

/-- The call of a variable is read up to the closing brace. -/
theorem readCall?_append (h : isIdentifier name.toList = true) (rest : List Char) :
    readCall? (['v', '(', '\x22'] ++ (name.toList ++ '\x22' :: ([')', '\x7d'] ++ rest))) =
      some (name, rest) := by
  simp only [readCall?, after?_append, Option.bind_eq_bind, Option.bind_some,
    readString?_append fun c hc => isStringChar_of_isIdentifier h hc, Option.pure_def,
    String.ofList_toList]

/-- A variable is written as a call of `v` between a dollar and braces. -/
theorem toList_substitution_append (name : String) (rest : List Char) :
    (Template.substitution name).toList ++ rest = '$' :: '\x7b' ::
      (['v', '(', '\x22'] ++ (name.toList ++ '\x22' :: ([')', '\x7d'] ++ rest))) := by
  simp [Template.substitution, Template.lookupName]

/-- A variable is read as a call. -/
theorem readLiteral?_substitution (h : isIdentifier name.toList = true) (rest : List Char) :
    readLiteral? ((Template.substitution name).toList ++ rest) =
      prepend [.call name] (readLiteral? rest) := by
  rw [toList_substitution_append, readLiteral?]
  split
  next hnone => exact absurd ((readCall?_append h rest).symm.trans hnone) (by simp)
  next other after hsome =>
    have hpair : (name, rest) = (other, after) :=
      Option.some.inj ((readCall?_append h rest).symm.trans hsome)
    obtain ⟨rfl, rfl⟩ := Prod.mk.inj hpair
    rfl

/-- An escaped character is read as the character, unless it is a carriage return. -/
theorem readLiteral?_escapedChar {c : Char} (hc : c ≠ '\r') (rest : List Char) :
    readLiteral? (Template.escapedChar c ++ rest) = prepend [.char c] (readLiteral? rest) := by
  unfold Template.escapedChar
  split
  next h =>
    have hcases : (c = '\x60' ∨ c = '\\') ∨ c = '$' := by simpa using h
    rcases hcases with (rfl | rfl) | rfl <;> simp [escape?]
  next h =>
    have hne : (¬ c = '\x60' ∧ ¬ c = '\\') ∧ ¬ c = '$' := by simpa using h
    simp [hne, hc]

/-- A carriage return is read as a line feed, if no line feed follows. -/
theorem readLiteral?_carriageReturn (h : ∀ c ∈ rest.head?, c ≠ '\n') :
    readLiteral? ('\r' :: rest) = prepend [.char '\n'] (readLiteral? rest) := by
  cases rest with
  | nil => simp
  | cons c tail =>
    have hc : c ≠ '\n' := h c rfl
    simp [hc]

/-- A literal is read as its characters, the ends of its lines made line feeds. What follows must
not go on with the end of a line. -/
theorem readLiteral?_escaped (text : List Char) (hrest : ∀ c ∈ rest.head?, c ≠ '\n') :
    readLiteral? (text.flatMap Template.escapedChar ++ rest) =
      prepend ((normalLines text).map .char) (readLiteral? rest) := by
  -- The reader takes the ends of the lines as `normalLines` does, so the cases are the same.
  fun_induction normalLines text with
  | case1 => simp
  | case2 tail ih =>
    have htext : ('\r' :: '\n' :: tail).flatMap Template.escapedChar ++ rest =
        '\r' :: '\n' :: (tail.flatMap Template.escapedChar ++ rest) := by
      simp [Template.escapedChar]
    rw [htext, readLiteral?, ih, prepend_prepend]
    rfl
  | case3 tail htail ih =>
    have htext : ('\r' :: tail).flatMap Template.escapedChar ++ rest =
        '\r' :: (tail.flatMap Template.escapedChar ++ rest) := by
      simp [Template.escapedChar]
    -- A character that is escaped starts with a backslash, and a line feed is not.
    have hhead : ∀ c ∈ (tail.flatMap Template.escapedChar ++ rest).head?, c ≠ '\n' := by
      cases tail with
      | nil => simpa using hrest
      | cons c more =>
        have hc : c ≠ '\n' := fun h => htail more (by rw [h])
        simp only [List.flatMap_cons, Template.escapedChar]
        split <;> simp [hc]
    rw [htext, readLiteral?_carriageReturn hhead, ih, prepend_prepend]
    rfl
  | case4 c tail _ hc ih =>
    have hne : c ≠ '\r' := hc
    rw [List.flatMap_cons, List.append_assoc, readLiteral?_escapedChar hne, ih, prepend_prepend]
    rfl

/-- The text of the segments is read as their parts, up to the end of the template literal. -/
theorem readLiteral?_moduleText (hnames : ∀ name, .var name ∈ segments →
      isIdentifier name.toList = true) (hchain : segments.IsChain Segment.Apart)
    (rest : List Char) :
    readLiteral? ((Template.concat Template.moduleText segments).toList ++ '\x60' :: rest) =
      some (segments.flatMap Segment.parts, rest) := by
  induction segments with
  | nil => simp
  | cons segment later ih =>
    have hlater := ih (fun name hname => hnames name (List.mem_cons_of_mem _ hname)) hchain.tail
    rw [Template.concat_cons, String.toList_append, List.append_assoc]
    cases segment with
    | literal text =>
      -- What follows a literal is a variable or the end of the template literal.
      have hhead : ∀ c ∈ ((Template.concat Template.moduleText later).toList ++
          '\x60' :: rest).head?, c ≠ '\n' := by
        cases later with
        | nil => simp
        | cons next more =>
          have hapart : Segment.Apart (.literal text) next := hchain.rel
          cases next with
          | literal other => exact absurd hapart (by simp [Segment.Apart, Segment.name?])
          | var name => simp [Template.moduleText, Template.substitution]
      rw [Template.moduleText, Template.escaped, String.toList_ofList,
        readLiteral?_escaped text.toList hhead, hlater]
      rfl
    | var name =>
      rw [Template.moduleText, readLiteral?_substitution (hnames name List.mem_cons_self), hlater]
      rfl

/-- The module of a compiled template is read as the parts of its segments. -/
theorem read?_moduleSource (source marker : String) :
    read? (Template.compile source marker).moduleSource =
      some (Template.compile source marker).script := by
  have hhead : Template.moduleHead = opening ++ "MissingVariable: " ++ "\x22" ++ middle := by
    decide +kernel
  have htail : Template.moduleTail = "\x60" ++ closing := by decide +kernel
  have htext : (Template.compile source marker).moduleSource.toList =
      opening.toList ++ ("MissingVariable: ".toList ++ '\x22' :: (middle.toList ++
        ((Template.concat Template.moduleText (Template.compile source marker).segments).toList ++
          '\x60' :: closing.toList))) := by
    simp [Template.moduleSource, hhead, htail]
  have hmessage : ∀ c ∈ "MissingVariable: ".toList, isStringChar c = true := by
    simp [isStringChar]
  have hbody := readLiteral?_moduleText
    (fun _ hname => Template.isIdentifier_of_mem_compile hname)
    (Template.isChain_segments_compile source marker) closing.toList
  simp only [read?, htext, after?_append, Option.bind_eq_bind, Option.bind_some,
    readString?_append hmessage, hbody, String.ofList_toList, if_true, Option.pure_def,
    Template.script]

/-! ## Calling the exported function -/

variable {script : Script} {object : PlainObject}

/-- Characters are written as they are. -/
theorem write_char_append (letters : List Char) (later : List Part) :
    script.write object (letters.map .char ++ later) =
      (script.write object later).map (String.ofList letters ++ ·) := by
  induction letters with
  | nil => cases hlater : script.write object later <;> simp [Except.map, hlater]
  | cons c letters ih =>
    rw [List.map_cons, List.cons_append, write, ih]
    cases script.write object later with
    | error message => rfl
    | ok text =>
      simp only [Except.map, Except.ok.injEq]
      rw [← String.append_assoc, ← String.toList_inj]
      simp

/-- A call fails only on a name that the object does not have. -/
theorem exists_of_write_eq_error {parts : List Part} {message : String}
    (h : script.write object parts = .error message) :
    ∃ name, message = script.message ++ name ∧ object.has name = false := by
  induction parts with
  | nil => exact absurd h (by simp [write])
  | cons part later ih =>
    cases part with
    | char c =>
      rw [write, map_eq_error_iff] at h
      exact ih h
    | call name =>
      rw [write, lookup] at h
      by_cases hhas : object.has name = true
      · rw [if_pos hhas] at h
        exact ih (map_eq_error_iff.mp h)
      · rw [if_neg hhas] at h
        exact ⟨name, (Except.error.inj h).symm, by simpa using hhas⟩

variable {own : Options} {inherited : String → Option String}

/-- A variable is written as the own property under its name. -/
theorem write_call_of_own {text : String} (h : own.get? name = some text) (later : List Part) :
    script.write ⟨own, inherited⟩ (.call name :: later) =
      (script.write ⟨own, inherited⟩ later).map (text ++ ·) := by
  simp [write, lookup, PlainObject.has, PlainObject.text, h]

/-- A variable that is neither an own property nor inherited is reported. -/
theorem write_call_of_missing (hown : own.get? name = none) (hinherited : inherited name = none)
    (later : List Part) :
    script.write ⟨own, inherited⟩ (.call name :: later) = .error (script.message ++ name) := by
  simp [write, lookup, PlainObject.has, hown, hinherited]

/-- If an evaluation succeeds, the call does. What it returns has fewer carriage returns by those of
the literals, and is the same text if these have none. -/
theorem exists_write_of_evaluateSegments (script : Script) (inherited : String → Option String)
    {text : String} (h : Template.evaluateSegments own segments = .ok text) :
    ∃ returned, script.write ⟨own, inherited⟩ (segments.flatMap Segment.parts) = .ok returned ∧
      returned.toList.count '\r' + (segments.flatMap Segment.letters).count '\r' =
        text.toList.count '\r' ∧
      ('\r' ∉ segments.flatMap Segment.letters → returned = text) := by
  induction segments generalizing text with
  | nil =>
    obtain rfl : "" = text := Except.ok.inj h
    exact ⟨"", rfl, rfl, fun _ => rfl⟩
  | cons segment later ih =>
    cases segment with
    | literal letters =>
      obtain ⟨tail, hlater, rfl⟩ := map_eq_ok_iff.mp h
      obtain ⟨returned, hreturned, hcount, hsame⟩ := ih hlater
      refine ⟨String.ofList (normalLines letters.toList) ++ returned, ?_, ?_, ?_⟩
      · rw [List.flatMap_cons, Segment.parts, write_char_append, hreturned]
        rfl
      · -- The carriage returns of the literal are lost, all others are kept.
        have hnone : (normalLines letters.toList).count '\r' = 0 :=
          List.count_eq_zero.mpr (notMem_normalLines _)
        simp only [String.toList_append, String.toList_ofList, List.flatMap_cons, Segment.letters,
          List.count_append]
        omega
      · intro hfree
        have hboth : '\r' ∉ letters.toList ∧ '\r' ∉ later.flatMap Segment.letters := by
          simpa [Segment.letters] using hfree
        rw [normalLines_eq_self hboth.1, String.ofList_toList, hsame hboth.2]
    | var name =>
      rw [Template.evaluateSegments] at h
      cases hname : own.get? name with
      | none => simp [hname] at h
      | some value =>
        rw [hname] at h
        obtain ⟨tail, hlater, rfl⟩ := map_eq_ok_iff.mp h
        obtain ⟨returned, hreturned, hcount, hsame⟩ := ih hlater
        refine ⟨value ++ returned, ?_, ?_, ?_⟩
        · rw [List.flatMap_cons, Segment.parts, List.singleton_append, write_call_of_own hname,
            hreturned]
          rfl
        · simp only [String.toList_append, List.flatMap_cons, Segment.letters, List.nil_append,
            List.count_append]
          omega
        · intro hfree
          rw [hsame (by simpa [Segment.letters] using hfree)]

/-- If an evaluation fails, it misses a variable, and the call reports the same one unless it is
inherited. -/
theorem exists_of_evaluateSegments_eq_error (script : Script)
    (inherited : String → Option String) {e : Error}
    (h : Template.evaluateSegments own segments = .error e) :
    ∃ name, e = .missingVariable name ∧ own.get? name = none ∧
      (inherited name = none →
        script.write ⟨own, inherited⟩ (segments.flatMap Segment.parts) =
          .error (script.message ++ name)) := by
  induction segments with
  | nil => exact absurd h (by simp [Template.evaluateSegments])
  | cons segment later ih =>
    cases segment with
    | literal letters =>
      obtain ⟨name, rfl, hown, hwrite⟩ := ih (map_eq_error_iff.mp h)
      refine ⟨name, rfl, hown, fun hinherited => ?_⟩
      rw [List.flatMap_cons, Segment.parts, write_char_append, hwrite hinherited]
      rfl
    | var first =>
      rw [Template.evaluateSegments] at h
      cases hfirst : own.get? first with
      | none =>
        -- This is the variable that the evaluation misses.
        rw [hfirst] at h
        refine ⟨first, (Except.error.inj h).symm, hfirst, fun hinherited => ?_⟩
        rw [List.flatMap_cons, Segment.parts, List.singleton_append,
          write_call_of_missing hfirst hinherited]
      | some value =>
        rw [hfirst] at h
        obtain ⟨name, rfl, hown, hwrite⟩ := ih (map_eq_error_iff.mp h)
        refine ⟨name, rfl, hown, fun hinherited => ?_⟩
        rw [List.flatMap_cons, Segment.parts, List.singleton_append, write_call_of_own hfirst,
          hwrite hinherited]
        rfl

end Script

/-- A call ends as an evaluation does: it returns the same text, or its error names the variable
that the evaluation misses. -/
def Agrees : Except Error String → Except String String → Prop
  | .ok text, .ok returned => returned = text
  | .error (.missingVariable name), .error message => message = "MissingVariable: " ++ name
  | _, _ => False

namespace Template

variable {t : Template} {own : Options} {inherited : String → Option String}

/-- A call that follows an evaluation that succeeds returns the same text if no literal has a
carriage return, and only then. -/
theorem agrees_call_iff_of_ok {text : String} (h : t.evaluate own = .ok text) :
    Agrees (.ok text) (t.script.call ⟨own, inherited⟩) ↔
      ∀ letters, .literal letters ∈ t.segments → '\r' ∉ letters.toList := by
  have hfree : (∀ letters, .literal letters ∈ t.segments → '\r' ∉ letters.toList) ↔
      '\r' ∉ t.segments.flatMap Segment.letters := by
    simp only [Segment.mem_flatMap_letters, not_exists, not_and]
  obtain ⟨returned, hreturned, hcount, hsame⟩ :=
    Script.exists_write_of_evaluateSegments t.script inherited h
  have hcall : t.script.call ⟨own, inherited⟩ = .ok returned := hreturned
  rw [hfree, hcall]
  constructor
  · intro hagrees
    -- Texts that are the same have the same number of carriage returns.
    obtain rfl : returned = text := hagrees
    exact List.count_eq_zero.mp (by omega)
  · exact hsame

/-- A call that follows an evaluation that misses a variable reports the same one if it is not
inherited, and only then. -/
theorem agrees_call_iff_of_error {name : String}
    (h : t.evaluate own = .error (.missingVariable name)) :
    Agrees (.error (.missingVariable name)) (t.script.call ⟨own, inherited⟩) ↔
      inherited name = none := by
  obtain ⟨other, hother, hown, hwrite⟩ :=
    Script.exists_of_evaluateSegments_eq_error t.script inherited h
  obtain rfl : name = other := Error.missingVariable.inj hother
  constructor
  · intro hagrees
    cases hcall : t.script.call ⟨own, inherited⟩ with
    | ok returned => exact absurd (hcall ▸ hagrees) (by simp [Agrees])
    | error message =>
      rw [hcall] at hagrees
      have hmessage : message = "MissingVariable: " ++ name := hagrees
      -- The name that is reported is not inherited, and it is this one.
      obtain ⟨reported, hreported, hhas⟩ := Script.exists_of_write_eq_error hcall
      obtain rfl : reported = name := by
        rw [hmessage] at hreported
        exact ((String.append_right_inj _).mp hreported).symm
      simpa [PlainObject.has, hown] using hhas
  · intro hinherited
    have hcall : t.script.call ⟨own, inherited⟩ = .error ("MissingVariable: " ++ name) :=
      hwrite hinherited
    rw [hcall]
    rfl

/-- The module of a compiled template can be read. Where the evaluation of the own properties of an
object succeeds, a call with the object agrees with it exactly if no literal has a carriage return;
where the evaluation fails, exactly if the variable that is missed is not inherited. -/
theorem agrees_call_iff (source marker : String) (own : Options)
    (inherited : String → Option String) :
    let t := compile source marker
    ∃ script, Script.read? t.moduleSource = some script ∧
      (Agrees (t.evaluate own) (script.call ⟨own, inherited⟩) ↔
        match t.evaluate own with
        | .ok _ => ∀ text, .literal text ∈ t.segments → '\r' ∉ text.toList
        | .error e => ∃ name, e = .missingVariable name ∧ inherited name = none) := by
  intro t
  refine ⟨t.script, Script.read?_moduleSource source marker, ?_⟩
  cases hevaluate : t.evaluate own with
  | ok text => exact agrees_call_iff_of_ok hevaluate
  | error e =>
    obtain ⟨name, rfl, -⟩ :=
      Script.exists_of_evaluateSegments_eq_error t.script inherited hevaluate
    rw [agrees_call_iff_of_error hevaluate]
    simp

/-- What every plain object inherits, as it is written in a template literal. -/
def objectPrototype (name : String) : Option String :=
  if name = "__proto__" then some "[object Object]"
  else if name = "constructor" then some "function Object() \x7b [native code] \x7d"
  else if name ∈ ["__defineGetter__", "__defineSetter__", "__lookupGetter__", "__lookupSetter__",
      "hasOwnProperty", "isPrototypeOf", "propertyIsEnumerable", "toLocaleString", "toString",
      "valueOf"] then
    some ("function " ++ name ++ "() \x7b [native code] \x7d")
  else none

/-- The contract is broken in both ways: a carriage return in a literal comes out as a line feed,
and a variable with the name of an inherited property is not missed. -/
theorem not_agrees_call :
    (∃ script, Script.read? (compile "a\rb" "$").moduleSource = some script ∧
      ¬ Agrees ((compile "a\rb" "$").evaluate {}) (script.call ⟨{}, objectPrototype⟩)) ∧
    ∃ script, Script.read? (compile "$toString" "$").moduleSource = some script ∧
      ¬ Agrees ((compile "$toString" "$").evaluate {}) (script.call ⟨{}, objectPrototype⟩) := by
  constructor
  · have hsegments : (compile "a\rb" "$").segments = [.literal "a\rb"] := by decide +kernel
    have hevaluate : (compile "a\rb" "$").evaluate {} = .ok "a\rb" := by
      simp [evaluate, hsegments, evaluateSegments, Except.map]
    refine ⟨_, Script.read?_moduleSource _ _, ?_⟩
    rw [hevaluate, agrees_call_iff_of_ok hevaluate]
    intro hfree
    exact hfree "a\rb" (by simp [hsegments]) (by decide)
  · have hsegments : (compile "$toString" "$").segments = [.var "toString"] := by decide +kernel
    have hevaluate : (compile "$toString" "$").evaluate {} =
        .error (.missingVariable "toString") := by
      simp [evaluate, hsegments, evaluateSegments, Options.get?]
    refine ⟨_, Script.read?_moduleSource _ _, ?_⟩
    rw [hevaluate, agrees_call_iff_of_error hevaluate]
    decide

end Template

end ShaderTemplate
