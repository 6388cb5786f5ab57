import ShaderTemplate.Include.Request
import ShaderTemplate.Proofs.Parser.DirectiveParts
import ShaderTemplate.Proofs.Parser.Lines

/-!
# Spellings of an include line

An include line is written in many ways: its specifier stands in quotes, in angles or bare, blanks
stand around its parts, and semicolons and a comment may stand at its end. All spellings mean the
same specifier.

Behind the specifier stand blanks and semicolons, which no comment starts among, and a comment, which
is cut off. What is left is the specifier in its form (`IncludeLine.value_body`), and the form is
taken off when the file is requested (`SpecifierForm.cleaned_write`).

In a source the line is one directive between the tokens above and below it
(`IncludeLine.tokens_insert`), and it opens and closes nothing, so the source is accepted with it
exactly if it is without it (`parseChunk_includeLine`).
-/

namespace ShaderTemplate

/-! ## The parts of an include line -/

/-- The text of a specifier: it is on one line, has no backslashes and no blanks at its ends. -/
structure Specifier.IsPlain (s : List Char) : Prop where
  ne_nil : s ≠ []
  newline_notMem : '\n' ∉ s
  backslash_notMem : '\\' ∉ s
  isBlank_first : ∀ c ∈ s.head?, Text.isBlank c = false
  isBlank_last : ∀ c ∈ s.getLast?, Text.isBlank c = false

/-- A form that a specifier is written in. -/
inductive SpecifierForm where
  /-- In quotes. -/
  | quoted
  /-- Between a less-than and a greater-than sign. -/
  | angled
  /-- As it is. -/
  | bare
  deriving Repr, DecidableEq

namespace SpecifierForm

/-- Write a specifier. -/
def write : SpecifierForm → List Char → List Char
  | .quoted, s => '\x22' :: (s ++ ['\x22'])
  | .angled, s => '<' :: (s ++ ['>'])
  | .bare, s => s

/-- A specifier may be written in the form: it does not end early, and if it stands as it is, it looks
like none of the other forms and has no part that is cut off. -/
def Admits : SpecifierForm → List Char → Prop
  | .quoted, s => '\x22' ∉ s
  | .angled, s => '>' ∉ s
  | .bare, s => s.head? ≠ some '\x22' ∧ s.head? ≠ some '<' ∧
      ¬ ['/', '/'] <:+: s ∧ ¬ ['/', '*'] <:+: s ∧ s.getLast? ≠ some ';'

instance (form : SpecifierForm) (s : List Char) : Decidable (form.Admits s) :=
  match form with
  | .quoted => inferInstanceAs (Decidable ('\x22' ∉ s))
  | .angled => inferInstanceAs (Decidable ('>' ∉ s))
  | .bare => inferInstanceAs (Decidable (_ ∧ _))

end SpecifierForm

/-- A comment at the end of a line. -/
inductive LineComment where
  /-- A comment behind two slashes. -/
  | line (body : List Char)
  /-- A comment between `/*` and `*/`. -/
  | block (body : List Char)
  deriving Repr, DecidableEq

/-- The characters of a comment. -/
def LineComment.text : LineComment → List Char
  | .line body => '/' :: '/' :: body
  | .block body => '/' :: '*' :: (body ++ ['*', '/'])

/-- An include line for the specifier `s`. -/
structure IncludeLine (s : List Char) where
  /-- The blanks before the `#`. -/
  indent : List LineBlank
  /-- The blanks behind the `#`. -/
  beforeName : List LineBlank
  /-- The blanks behind the name. -/
  beforeForm : List LineBlank
  /-- The form of the specifier. -/
  form : SpecifierForm
  /-- The blanks behind the specifier. -/
  afterForm : List LineBlank
  /-- How many semicolons follow. -/
  semicolons : Nat
  /-- The blanks behind the semicolons. -/
  afterSemicolons : List LineBlank
  /-- The comment at the end. -/
  comment : Option LineComment
  /-- The specifier may be written in the form. -/
  admits : form.Admits s
  /-- A specifier without delimiters stands apart from the name. -/
  form_apart : form = .bare → beforeForm ≠ []
  /-- A comment stands apart from what is before it. -/
  comment_apart : comment ≠ none → afterSemicolons ≠ []
  /-- Every line feed in the comment stands behind a backslash. -/
  comment_on_line : ∀ c ∈ comment, Token.splitLine c.text = (c.text, [])

namespace IncludeLine

variable {s : List Char}

/-- The characters of the comment. -/
def commentText (line : IncludeLine s) : List Char :=
  line.comment.elim [] LineComment.text

/-- The characters behind the specifier. -/
def trailer (line : IncludeLine s) : List Char :=
  line.afterForm.flatMap LineBlank.text ++ (List.replicate line.semicolons ';' ++
    (line.afterSemicolons.flatMap LineBlank.text ++ line.commentText))

/-- The characters behind the `#`. -/
def body (line : IncludeLine s) : List Char :=
  line.beforeName.flatMap LineBlank.text ++ ("include".toList ++
    (line.beforeForm.flatMap LineBlank.text ++ (line.form.write s ++ line.trailer)))

/-- The characters of the line. -/
def text (line : IncludeLine s) : List Char :=
  line.indent.flatMap LineBlank.text ++ '#' :: line.body

/-- The value that is read on the line. -/
def value (line : IncludeLine s) : String :=
  String.ofList (line.form.write s)

/-- The tokens of the line. -/
def tokens (line : IncludeLine s) : List Token :=
  line.indent.flatMap LineBlank.tokens ++ [.directive line.body]

end IncludeLine

/-! ## The form of the specifier -/

namespace SpecifierForm

variable {form : SpecifierForm} {s : List Char}

/-- A written specifier has characters. -/
theorem write_ne_nil (hs : Specifier.IsPlain s) : form.write s ≠ [] := by
  cases form <;> simp [write, hs.ne_nil]

/-- A written specifier does not start with a blank. -/
theorem isBlank_head_write (hs : Specifier.IsPlain s) :
    ∀ c ∈ (form.write s).head?, Text.isBlank c = false := by
  intro c hc
  cases form with
  | quoted =>
    obtain rfl : '\x22' = c := Option.some.inj hc
    decide
  | angled =>
    obtain rfl : '<' = c := Option.some.inj hc
    decide
  | bare => exact hs.isBlank_first c hc

/-- A written specifier ends neither in a blank nor in a semicolon. -/
theorem isBlank_getLast_write (hs : Specifier.IsPlain s) (h : form.Admits s) :
    ∀ c ∈ (form.write s).getLast?, Text.isBlank c = false ∧ (c == ';') = false := by
  intro c hc
  cases form with
  | quoted =>
    obtain rfl : '\x22' = c := by simpa [write, List.getLast?_cons] using hc
    decide
  | angled =>
    obtain rfl : '>' = c := by simpa [write, List.getLast?_cons] using hc
    decide
  | bare =>
    refine ⟨hs.isBlank_last c hc, beq_eq_false_iff_ne.mpr ?_⟩
    rintro rfl
    exact h.2.2.2.2 hc

/-- A written specifier has no backslash. -/
theorem backslash_notMem_write (hs : Specifier.IsPlain s) : '\\' ∉ form.write s := by
  cases form <;> simp [write, hs.backslash_notMem]

/-- A written specifier is on one line. -/
theorem newline_notMem_write (hs : Specifier.IsPlain s) : '\n' ∉ form.write s := by
  cases form <;> simp [write, hs.newline_notMem]

/-- A delimited part is split off, and no comment starts in a specifier without delimiters. -/
theorem withoutComment_write_append (h : form.Admits s) (hne : s ≠ []) {rest : List Char}
    (hrest : ∀ c ∈ rest.head?, c ≠ '/' ∧ c ≠ '*') :
    (DirectiveLine.splitDelimited (form.write s ++ rest)).1 ++
        DirectiveLine.beforeComment (DirectiveLine.splitDelimited (form.write s ++ rest)).2 =
      form.write s ++ DirectiveLine.beforeComment rest := by
  cases form with
  | quoted =>
    have hsplit : DirectiveLine.splitDelimited (write .quoted s ++ rest) =
        (write .quoted s, rest) := by
      have happend : write .quoted s ++ rest = '\x22' :: (s ++ '\x22' :: rest) := by simp [write]
      rw [happend]
      exact DirectiveLine.splitBehind_append '\x22' h rest
    rw [hsplit]
  | angled =>
    have hsplit : DirectiveLine.splitDelimited (write .angled s ++ rest) =
        (write .angled s, rest) := by
      have happend : write .angled s ++ rest = '<' :: (s ++ '>' :: rest) := by simp [write]
      rw [happend]
      exact DirectiveLine.splitBehind_append '<' h rest
    rw [hsplit]
  | bare =>
    obtain ⟨hquote, hangle, hline, hblock, -⟩ := h
    obtain ⟨c, tail, rfl⟩ := List.exists_cons_of_ne_nil hne
    have hsplit : DirectiveLine.splitDelimited (c :: tail ++ rest) = ([], c :: tail ++ rest) := by
      simp only [List.head?_cons, ne_eq, Option.some_inj] at hquote hangle
      simp [DirectiveLine.splitDelimited, hquote, hangle]
    rw [write, hsplit]
    exact DirectiveLine.beforeComment_append hline hblock fun _ => hrest

/-- Cleaning takes the form off and leaves the specifier. -/
theorem cleaned_write (hs : Specifier.IsPlain s) (h : form.Admits s) :
    Specifier.cleaned (form.write s) = s := by
  have hlast := isBlank_getLast_write hs h
  have htrim : Text.trim (form.write s) = form.write s :=
    Text.trim_eq_self (isBlank_head_write hs) fun c hc => (hlast c hc).1
  have htrimmed : Specifier.trimmed (form.write s) = form.write s := by
    rw [Specifier.trimmed, htrim, Text.dropEndWhile_eq_self fun c hc => (hlast c hc).2, htrim]
  have hself : Text.trim s = s := Text.trim_eq_self hs.isBlank_first hs.isBlank_last
  rw [Specifier.cleaned, htrimmed]
  cases form with
  | quoted => simpa [write, Specifier.undelimited?] using hself
  | angled => simpa [write, Specifier.undelimited?] using hself
  | bare =>
    obtain ⟨hquote, hangle, -⟩ := h
    obtain ⟨c, tail, rfl⟩ := List.exists_cons_of_ne_nil hs.ne_nil
    simp only [List.head?_cons, ne_eq, Option.some_inj] at hquote hangle
    simp [write, Specifier.undelimited?, hquote, hangle]

end SpecifierForm

/-! ## The line -/

namespace IncludeLine

variable {s : List Char}

/-- The characters behind the specifier as they are read. -/
theorem unfold_trailer (line : IncludeLine s) : DirectiveLine.unfold line.trailer =
    line.afterForm.map LineBlank.char ++ (List.replicate line.semicolons ';' ++
      (line.afterSemicolons.map LineBlank.char ++ DirectiveLine.unfold line.commentText)) := by
  have hsemicolons : '\\' ∉ List.replicate line.semicolons ';' := by simp
  rw [trailer, LineBlank.unfold_flatMap_append,
    DirectiveLine.unfold_append_of_notMem hsemicolons, LineBlank.unfold_flatMap_append]

/-- The characters behind the `#` as they are read. -/
theorem unfold_body (hs : Specifier.IsPlain s) (line : IncludeLine s) :
    DirectiveLine.unfold line.body = line.beforeName.map LineBlank.char ++ ("include".toList ++
      (line.beforeForm.map LineBlank.char ++
        (line.form.write s ++ DirectiveLine.unfold line.trailer))) := by
  rw [body, LineBlank.unfold_flatMap_append, DirectiveLine.unfold_append_of_notMem (by decide),
    LineBlank.unfold_flatMap_append,
    DirectiveLine.unfold_append_of_notMem (SpecifierForm.backslash_notMem_write hs)]

/-- A comment is all cut off. -/
theorem beforeComment_unfold_commentText (line : IncludeLine s) :
    DirectiveLine.beforeComment (DirectiveLine.unfold line.commentText) = [] := by
  unfold commentText
  cases line.comment with
  | none => rfl
  | some comment => cases comment <;> rfl

/-- What stands behind the specifier does not make a comment of a slash at its end. -/
theorem head?_unfold_trailer (line : IncludeLine s) :
    ∀ c ∈ (DirectiveLine.unfold line.trailer).head?, c ≠ '/' ∧ c ≠ '*' := by
  have hblank : ∀ {blank : LineBlank} {c : Char}, some blank.char = some c → c ≠ '/' ∧ c ≠ '*' := by
    intro blank c hc
    obtain rfl := Option.some.inj hc
    cases blank <;> decide
  intro c hc
  rw [unfold_trailer] at hc
  cases hfront : line.afterForm with
  | cons blank _ => exact hblank (by simpa [hfront] using hc)
  | nil =>
    cases hsemicolons : line.semicolons with
    | succ n =>
      obtain rfl : ';' = c := by simpa [hfront, hsemicolons, List.replicate_succ] using hc
      decide
    | zero =>
      cases hback : line.afterSemicolons with
      | cons blank _ => exact hblank (by simpa [hfront, hsemicolons, hback] using hc)
      | nil =>
        -- Without anything before it there is no comment.
        have hnone : line.comment = none :=
          Classical.byContradiction fun h => line.comment_apart h hback
        rw [hfront, hsemicolons, hback, commentText, hnone] at hc
        exact absurd hc (by simp [DirectiveLine.unfold])

/-- Of what stands behind the specifier, the blanks and semicolons stand before the comment. -/
theorem beforeComment_unfold_trailer (line : IncludeLine s) :
    DirectiveLine.beforeComment (DirectiveLine.unfold line.trailer) =
      line.afterForm.map LineBlank.char ++ (List.replicate line.semicolons ';' ++
        line.afterSemicolons.map LineBlank.char) := by
  have hsemicolons : '/' ∉ List.replicate line.semicolons ';' := by simp
  rw [unfold_trailer, DirectiveLine.beforeComment_append_of_notMem (LineBlank.slash_notMem_map _),
    DirectiveLine.beforeComment_append_of_notMem hsemicolons,
    DirectiveLine.beforeComment_append_of_notMem (LineBlank.slash_notMem_map _),
    beforeComment_unfold_commentText, List.append_nil]

/-- The name ends where the blanks or the delimiter behind it start. -/
theorem isNameChar_head (line : IncludeLine s) :
    ∃ c rest, line.beforeForm.map LineBlank.char ++
        (line.form.write s ++ DirectiveLine.unfold line.trailer) = c :: rest ∧
      DirectiveLine.isNameChar c = false := by
  cases hblanks : line.beforeForm with
  | cons blank blanks => exact ⟨_, _, rfl, by cases blank <;> decide +kernel⟩
  | nil =>
    cases hform : line.form with
    | quoted => exact ⟨_, _, rfl, by decide +kernel⟩
    | angled => exact ⟨_, _, rfl, by decide +kernel⟩
    | bare => exact absurd hblanks (line.form_apart hform)

/-- Behind the `#`, the line is split into its name and what follows. -/
theorem span_body (hs : Specifier.IsPlain s) (line : IncludeLine s) :
    DirectiveLine.name line.body = "include".toList ∧
      (Text.trimStart (DirectiveLine.unfold line.body)).dropWhile DirectiveLine.isNameChar =
        line.beforeForm.map LineBlank.char ++
          (line.form.write s ++ DirectiveLine.unfold line.trailer) := by
  obtain ⟨c, rest, hrest, hc⟩ := line.isNameChar_head
  have hname : ∀ c ∈ "include".toList, DirectiveLine.isNameChar c = true :=
    List.all_eq_true.mp (by decide +kernel)
  have hstart : Text.trimStart (DirectiveLine.unfold line.body) = "include".toList ++ c :: rest := by
    rw [unfold_body hs, Text.trimStart, List.dropWhile_append_of_pos LineBlank.isBlank_of_mem_map,
      hrest]
    rfl
  rw [DirectiveLine.name, hstart, List.takeWhile_append_of_pos hname,
    List.dropWhile_append_of_pos hname, hrest]
  simp [hc]

/-- The value of the line is the specifier in its form. -/
theorem value_body (hs : Specifier.IsPlain s) (line : IncludeLine s) :
    DirectiveLine.value line.body = line.form.write s := by
  have hlast := SpecifierForm.isBlank_getLast_write hs line.admits
  have hfirst : ∀ rest, Text.trimStart (line.form.write s ++ rest) = line.form.write s ++ rest :=
    Text.trimStart_append (SpecifierForm.write_ne_nil hs) (SpecifierForm.isBlank_head_write hs)
  have hrest : Text.trimStart (line.beforeForm.map LineBlank.char ++
      (line.form.write s ++ DirectiveLine.unfold line.trailer)) =
        line.form.write s ++ DirectiveLine.unfold line.trailer := by
    rw [Text.trimStart, List.dropWhile_append_of_pos LineBlank.isBlank_of_mem_map]
    exact hfirst _
  have hcut := SpecifierForm.withoutComment_write_append line.admits hs.ne_nil
    line.head?_unfold_trailer
  simp only [DirectiveLine.value, (line.span_body hs).2, DirectiveLine.withoutComment, hrest, hcut,
    beforeComment_unfold_trailer, Text.trim, hfirst]
  exact Text.trimEnd_dropEndWhile_trimEnd hlast LineBlank.isBlank_of_mem_map
    LineBlank.isBlank_of_mem_map line.semicolons

/-- The line ends behind its comment. -/
theorem splitLine_body (hs : Specifier.IsPlain s) (line : IncludeLine s) :
    Token.splitLine line.body = (line.body, []) := by
  have hcomment : Token.splitLine line.commentText = (line.commentText, []) := by
    unfold commentText
    cases hcase : line.comment with
    | none => rfl
    | some comment => exact line.comment_on_line comment hcase
  have htrailer : Token.splitLine line.trailer = (line.trailer, []) := by
    rw [trailer, LineBlank.splitLine_flatMap_append, Token.splitLine_append_of_notMem (by simp)
      (by simp), LineBlank.splitLine_flatMap_append, hcomment]
  rw [body, LineBlank.splitLine_flatMap_append, Token.splitLine_append_of_notMem (by decide)
    (by decide), LineBlank.splitLine_flatMap_append,
    Token.splitLine_append_of_notMem (SpecifierForm.backslash_notMem_write hs)
      (SpecifierForm.newline_notMem_write hs), htrailer]

/-- The line is in order. -/
theorem fault?_read_body (hs : Specifier.IsPlain s) (line : IncludeLine s) (location : Span) :
    (DirectiveLine.read line.body location).fault? = none := by
  have hvalue : String.ofList (DirectiveLine.value line.body) ≠ "" := by
    rw [line.value_body hs]
    exact fun h => SpecifierForm.write_ne_nil hs (String.ofList_eq_empty_iff.mp h)
  simp [Directive.fault?, DirectiveLine.read, (line.span_body hs).1, hvalue]

/-- The tokens of the line have its text. -/
theorem flatMap_text_tokens (line : IncludeLine s) : line.tokens.flatMap Token.text = line.text := by
  rw [tokens, List.flatMap_append, LineBlank.flatMap_text_flatMap_tokens, List.flatMap_singleton]
  rfl

/-- Behind the line the next one may start. -/
theorem freshAfterAll_tokens (line : IncludeLine s) :
    Token.freshAfterAll true line.tokens = true := by
  rw [tokens, Token.freshAfterAll, List.foldl_append]
  exact LineBlank.freshAfterAll_flatMap_tokens line.indent

/-- The line is read as its tokens where it ends. -/
theorem spelled_tokens (hs : Specifier.IsPlain s) (line : IncludeLine s) {below : List Char}
    (hbelow : (Token.directive line.body).Stops below.head?) :
    Token.Spelled true line.tokens below := by
  refine Token.spelled_append_iff.mpr ⟨LineBlank.spelled_flatMap_tokens _ _, ?_, trivial⟩
  rw [LineBlank.freshAfterAll_flatMap_tokens]
  exact (Token.leads_directive_iff _).mpr ⟨⟨rfl, line.splitLine_body hs⟩, hbelow⟩

/-- The line opens and closes nothing. -/
theorem run?_tokens (hs : Specifier.IsPlain s) (line : IncludeLine s) (n : Nesting) :
    n.run? line.tokens = some n := by
  have hpart : (Token.directive line.body).part? = none := by
    rw [Token.part?, (line.span_body hs).1]
    decide
  rw [tokens, Nesting.run?_append, LineBlank.run?_flatMap_tokens, Option.bind_some, Nesting.run?,
    Nesting.step?, line.fault?_read_body hs, hpart]
  rfl

/-- The line is read as an include directive with the specifier in its form. -/
theorem filterMap_reading?_tokens (hs : Specifier.IsPlain s) (line : IncludeLine s) :
    line.tokens.filterMap Token.reading? = [("include", line.value)] := by
  have hblanks : (line.indent.flatMap LineBlank.tokens).filterMap Token.reading? = [] := by
    induction line.indent with
    | nil => rfl
    | cons blank blanks ih =>
      rw [List.flatMap_cons, List.filterMap_append, ih]
      cases blank <;> rfl
  rw [tokens, List.filterMap_append, hblanks, value, ← line.value_body hs]
  simp [Token.reading?, (line.span_body hs).1]

end IncludeLine

namespace Token

/-- A line starts behind the text: what is read last of it is a line feed. -/
def LineStarts (above : List Char) : Prop :=
  ∀ t ∈ (tokens true above).getLast?, t = .newline

instance (above : List Char) : Decidable (LineStarts above) :=
  inferInstanceAs (Decidable (∀ t ∈ (tokens true above).getLast?, t = .newline))

/-- What stands on new lines is read on its own. -/
theorem tokens_append_of_lineStarts {above : List Char} (h : LineStarts above) (below : List Char) :
    tokens true (above ++ below) = tokens true above ++ tokens true below := by
  have hspelled : Spelled true (tokens true above) below :=
    spelled_of_stops (spelled_tokens true above) fun t ht => by
      rw [h t ht]
      trivial
  have hfresh : freshAfterAll true (tokens true above) = true := by
    unfold LineStarts at h
    generalize tokens true above = ts at h
    cases hlast : ts.getLast? with
    | none => rw [List.getLast?_eq_none_iff.mp hlast]; rfl
    | some t =>
      obtain ⟨front, rfl⟩ := List.getLast?_eq_some_iff.mp hlast
      rw [h t hlast, freshAfterAll, List.foldl_append]
      rfl
  have hcut := tokens_append_of_spelled hspelled
  rwa [text_tokens, hfresh] at hcut

end Token

/-- A source with an include line in it is cut into the tokens above the line, those of the line and
those below it. -/
theorem IncludeLine.tokens_insert {s : List Char} (hs : Specifier.IsPlain s) (line : IncludeLine s)
    {above below : List Char} (habove : Token.LineStarts above)
    (hbelow : (Token.directive line.body).Stops below.head?) :
    Token.tokens true (above ++ (line.text ++ below)) =
      Token.tokens true above ++ (line.tokens ++ Token.tokens true below) := by
  have hline := Token.tokens_append_of_spelled (line.spelled_tokens hs hbelow)
  rw [line.flatMap_text_tokens, line.freshAfterAll_tokens] at hline
  rw [Token.tokens_append_of_lineStarts habove, hline]

/-- The names and values of the directives in a text. -/
def Token.readings (text : List Char) : List (String × String) :=
  (tokens true text).filterMap reading?

/-- An include line is read as one include directive, whose value is cleaned to the specifier,
whatever the spelling of the line is. In a source it is one directive more, between those above it
and those below it, and the source is accepted with the line exactly if it is without it. -/
theorem parseChunk_includeLine {s : List Char} (hs : Specifier.IsPlain s) (line : IncludeLine s) :
    Specifier.clean line.value = String.ofList s ∧
      (∃ t d, parseChunk (String.ofList line.text) = .ok t ∧ t.directives = [d] ∧
        d.isInclude = true ∧ d.value = line.value) ∧
      ∀ above below, Token.LineStarts above → (Token.directive line.body).Stops below.head? →
        ((∃ t, parseChunk (String.ofList (above ++ (line.text ++ below))) = .ok t) ↔
          ∃ u, parseChunk (String.ofList (above ++ below)) = .ok u) ∧
        ∀ t u, parseChunk (String.ofList (above ++ (line.text ++ below))) = .ok t →
          parseChunk (String.ofList (above ++ below)) = .ok u →
          u.readings = Token.readings above ++ Token.readings below ∧
            t.readings =
              Token.readings above ++ ("include", line.value) :: Token.readings below := by
  refine ⟨?_, ?_, fun above below habove hbelow => ?_⟩
  · rw [Specifier.clean, IncludeLine.value, String.toList_ofList,
      SpecifierForm.cleaned_write hs line.admits]
  · have htokens := Token.tokens_of_spelled (line.spelled_tokens hs (.inl rfl))
    rw [line.flatMap_text_tokens, ← String.toList_ofList (l := line.text)] at htokens
    have hread : parseChunk (String.ofList line.text) =
        .ok (Region.tree .first (Region.ofTokens line.tokens)) := by
      refine parseChunk_eq_ok_iff.mpr ⟨⟨.initial, ?_, rfl⟩, by rw [htokens]⟩
      rw [htokens, line.run?_tokens hs]
    have hreadings := Region.readings_tree .first line.tokens
    rw [line.filterMap_reading?_tokens hs] at hreadings
    obtain ⟨d, hd, hpair⟩ := List.map_eq_singleton_iff.mp hreadings
    exact ⟨_, d, hread, hd, beq_iff_eq.mpr (congrArg Prod.fst hpair), congrArg Prod.snd hpair⟩
  · have hwith := line.tokens_insert hs habove hbelow
    have hwithout := Token.tokens_append_of_lineStarts habove below
    have hrun : Nesting.initial.run? (Token.tokens true (above ++ (line.text ++ below))) =
        Nesting.initial.run? (Token.tokens true (above ++ below)) := by
      rw [hwith, hwithout]
      simp only [Nesting.run?_append, line.run?_tokens hs, Option.bind_some]
    constructor
    · simp only [parseChunk_eq_ok_iff, String.toList_ofList, hrun, exists_and_left, exists_eq,
        and_true]
    · intro t u ht hu
      obtain ⟨-, rfl⟩ := parseChunk_eq_ok_iff.mp ht
      obtain ⟨-, rfl⟩ := parseChunk_eq_ok_iff.mp hu
      simp only [Region.readings_tree, String.toList_ofList, hwith, hwithout,
        List.filterMap_append, line.filterMap_reading?_tokens hs]
      exact ⟨rfl, rfl⟩

/-- A line with continued line ends, semicolons and a comment, whose specifier has what looks like a
comment and a string. -/
def continuedLine : IncludeLine "a//b; /*\x22c".toList where
  indent := [.space, .continuation, .tab]
  beforeName := [.continuation]
  beforeForm := []
  form := .angled
  afterForm := [.continuation, .space]
  semicolons := 2
  afterSemicolons := [.tab]
  comment := some (.block " \x22>\x22 \\\n; ".toList)
  admits := by decide
  form_apart := by decide
  comment_apart := by decide
  comment_on_line := by decide

/-- The line is read in a pair of braces, before another include line. -/
theorem parseChunk_includeLine_continued :
    String.ofList continuedLine.text =
        " \\\n\t#\\\ninclude<a//b; /*\x22c>\\\n ;;\t/* \x22>\x22 \\\n; */" ∧
      Specifier.IsPlain "a//b; /*\x22c".toList ∧
      Specifier.clean continuedLine.value = "a//b; /*\x22c" ∧
      (∃ t d, parseChunk (String.ofList continuedLine.text) = .ok t ∧ t.directives = [d] ∧
        d.isInclude = true ∧ d.value = continuedLine.value) ∧
      ∃ t, parseChunk (String.ofList ("\x7b // (\n".toList ++
          (continuedLine.text ++ "\n#include b\n\x7d".toList))) = .ok t ∧
        t.readings = [("include", continuedLine.value), ("include", "b")] := by
  have hplain : Specifier.IsPlain "a//b; /*\x22c".toList :=
    ⟨by decide, by decide, by decide, by rintro _ ⟨⟩; decide, by rintro _ ⟨⟩; decide⟩
  obtain ⟨hclean, halone, hinserted⟩ := parseChunk_includeLine hplain continuedLine
  obtain ⟨haccepted, hreadings⟩ := hinserted "\x7b // (\n".toList "\n#include b\n\x7d".toList
    (by decide +kernel) (.inr ⟨by decide, by decide +kernel⟩)
  have hwithout : (parseChunk (String.ofList ("\x7b // (\n".toList ++
      "\n#include b\n\x7d".toList))).toOption.isSome = true := by decide +kernel
  obtain ⟨u, hu⟩ := Option.isSome_iff_exists.mp hwithout
  have hu := toOption_eq_some_iff.mp hu
  obtain ⟨t, ht⟩ := haccepted.mpr ⟨u, hu⟩
  have habove : Token.readings "\x7b // (\n".toList = [] := by decide +kernel
  have hbelow : Token.readings "\n#include b\n\x7d".toList = [("include", "b")] := by decide +kernel
  refine ⟨by decide +kernel, hplain, hclean, halone, t, ht, ?_⟩
  rw [(hreadings t u ht hu).2, habove, hbelow]
  rfl

end ShaderTemplate
