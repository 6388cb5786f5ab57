import ShaderTemplate.Proofs.Parser.Boundary
import ShaderTemplate.Proofs.Parser.Nesting
import ShaderTemplate.Proofs.Parser.Regions

/-!
# Line endings

A source can be written with a carriage return before every line feed. A carriage return is a blank
to the parser, it is trimmed off names and values, and a comment of two slashes may end in one. So
the tokens of the source stay the same up to carriage returns, and with them its directives and the
outcome of the check, unless a directive line goes on over a line feed: such a line ends at its
first line feed when the carriage returns are written, since no backslash is in front of the line
feed any more.

Main statements:

- `tokens_withReturns_iff`: when the tokens stay the same up to carriage returns;
- `Nesting.run?_withReturns`, `filterMap_reading?_withReturns`: such tokens are checked in the same
  way and have the same names and values;
- `lineEndingsAgree_of_uncontinued`: a source is read in the same way with both line endings, if no
  directive line of it goes on over a line feed.
-/

namespace ShaderTemplate

namespace Text

/-- Write a carriage return before every line feed. -/
def withReturns (text : List Char) : List Char :=
  text.flatMap fun c => if c = '\n' then ['\r', '\n'] else [c]

theorem withReturns_append (a b : List Char) :
    withReturns (a ++ b) = withReturns a ++ withReturns b :=
  List.flatMap_append

theorem withReturns_newline_cons (text : List Char) :
    withReturns ('\n' :: text) = '\r' :: '\n' :: withReturns text := rfl

theorem withReturns_cons_of_ne {c : Char} (h : c ≠ '\n') (text : List Char) :
    withReturns (c :: text) = c :: withReturns text := by
  simp [withReturns, h]

/-- A text of one line is left as it is. -/
theorem withReturns_eq_self {text : List Char} (h : '\n' ∉ text) : withReturns text = text := by
  induction text with
  | nil => rfl
  | cons c text ih =>
    simp only [List.mem_cons, not_or] at h
    rw [withReturns_cons_of_ne (Ne.symm h.1), ih h.2]

/-- A text starts with a carriage return if it started with a line feed. -/
theorem head?_withReturns (text : List Char) :
    (withReturns text).head? = text.head?.map fun c => if c = '\n' then '\r' else c := by
  cases text with
  | nil => rfl
  | cons c text =>
    by_cases h : c = '\n'
    · simp [withReturns, h]
    · simp [withReturns_cons_of_ne h, h]

/-- The text `b` is `a`, or `a` and a carriage return. -/
def SameButReturn (a b : List Char) : Prop :=
  b = a ∨ b = a ++ ['\r']

namespace SameButReturn

variable {a b : List Char}

/-- A text may be put in front of both. -/
theorem append_left (h : SameButReturn a b) (front : List Char) :
    SameButReturn (front ++ a) (front ++ b) := by
  rcases h with rfl | rfl
  · exact .inl rfl
  · exact .inr (List.append_assoc _ _ _).symm

/-- A class of characters may be dropped at the front of both. -/
theorem dropWhile (h : SameButReturn a b) (p : Char → Bool) :
    SameButReturn (a.dropWhile p) (b.dropWhile p) := by
  rcases h with rfl | rfl
  · exact .inl rfl
  · rw [List.dropWhile_append]
    split
    next hempty =>
      rw [List.isEmpty_iff.mp hempty]
      by_cases hp : p '\r' = true
      · exact .inl (by simp [hp])
      · exact .inr (by simp [hp])
    next => exact .inr rfl

/-- The characters of a class at the front of both are the same. -/
theorem takeWhile_eq (h : SameButReturn a b) {p : Char → Bool} (hp : p '\r' = false) :
    b.takeWhile p = a.takeWhile p := by
  rcases h with rfl | rfl
  · rfl
  · rw [List.takeWhile_append]
    split
    next hall =>
      rw [(List.takeWhile_prefix p).eq_of_length hall]
      simp [hp]
    next => rfl

/-- The carriage return is trimmed off. -/
theorem trim_eq (h : SameButReturn a b) : trim b = trim a := by
  rcases h.dropWhile isBlank with hstart | hstart
  · rw [trim, trim, trimStart, trimStart, hstart]
  · rw [trim, trim, trimStart, trimStart, hstart, trimEnd, trimEnd,
      dropEndWhile_concat_of_pos _ (by decide)]

end SameButReturn

end Text

namespace DirectiveLine

open Text

/-- What a text starts with when a carriage return is put behind it, it starts with before. -/
theorem exists_of_concat_return_eq_cons {d : Char} (hd : d ≠ '\r') {text tail : List Char}
    (h : text ++ ['\r'] = d :: tail) : ∃ more, text = d :: more := by
  cases text with
  | nil => exact absurd (List.cons.inj h).1.symm hd
  | cons c text => exact ⟨text, by rw [(List.cons.inj h).1]⟩

/-- A carriage return continues no line. -/
theorem unfold_concat_return (line : List Char) :
    unfold (line ++ ['\r']) = unfold line ++ ['\r'] := by
  fun_induction unfold line with
  | case1 => rfl
  | case2 rest ih => rw [List.cons_append, List.cons_append, unfold, ih, List.cons_append]
  | case3 c rest h ih =>
    rw [List.cons_append, unfold, ih, List.cons_append]
    rintro tail rfl htail
    obtain ⟨more, hrest⟩ := exists_of_concat_return_eq_cons (by decide) htail
    exact h more rfl hrest

/-- A carriage return closes nothing. -/
theorem splitBehind_concat_return {close : Char} (hclose : close ≠ '\r') (first : Char)
    (rest : List Char) : splitBehind close (first :: rest ++ ['\r']) =
      ((splitBehind close (first :: rest)).1, (splitBehind close (first :: rest)).2 ++ ['\r']) := by
  by_cases hall : rest.length = (rest.takeWhile (· != close)).length
  · -- There is no `close` in either text.
    have hbody : (rest ++ ['\r']).takeWhile (· != close) = rest ++ ['\r'] := by
      rw [List.takeWhile_append, if_pos hall.symm]
      simp [Ne.symm hclose]
    have hshort : splitBehind close (first :: rest) = ([], first :: rest) := if_pos hall
    have hlong : splitBehind close (first :: (rest ++ ['\r'])) = ([], first :: (rest ++ ['\r'])) :=
      if_pos (congrArg List.length hbody.symm)
    rw [List.cons_append, hlong, hshort, List.cons_append]
  · -- Both texts are cut behind the same `close`.
    have hbody : (rest ++ ['\r']).takeWhile (· != close) = rest.takeWhile (· != close) := by
      rw [List.takeWhile_append, if_neg (Ne.symm hall)]
    have hle := (List.takeWhile_prefix (l := rest) (· != close)).length_le
    have hlt : (rest.takeWhile (· != close)).length + 2 ≤ (first :: rest).length := by
      rw [List.length_cons]
      omega
    have hne : (rest ++ ['\r']).length ≠ ((rest ++ ['\r']).takeWhile (· != close)).length := by
      rw [hbody, List.length_append]
      omega
    have hshort : splitBehind close (first :: rest) =
        ((first :: rest).take ((rest.takeWhile (· != close)).length + 2),
          (first :: rest).drop ((rest.takeWhile (· != close)).length + 2)) := if_neg hall
    have hlong : splitBehind close (first :: (rest ++ ['\r'])) =
        ((first :: rest ++ ['\r']).take (((rest ++ ['\r']).takeWhile (· != close)).length + 2),
          (first :: rest ++ ['\r']).drop (((rest ++ ['\r']).takeWhile (· != close)).length + 2)) :=
      if_neg hne
    rw [List.cons_append, hlong, hshort, hbody, List.take_append_of_le_length hlt,
      List.drop_append_of_le_length hlt]

/-- A carriage return stands behind a quoted or angled part. -/
theorem splitDelimited_concat_return (text : List Char) : splitDelimited (text ++ ['\r']) =
    ((splitDelimited text).1, (splitDelimited text).2 ++ ['\r']) := by
  cases text with
  | nil => rfl
  | cons first rest =>
    by_cases hquote : first = '\x22'
    · subst hquote
      exact @splitBehind_concat_return '\x22' (by decide) _ rest
    · by_cases hangle : first = '<'
      · subst hangle
        exact @splitBehind_concat_return '>' (by decide) _ rest
      · simp [splitDelimited, hquote, hangle]

/-- A carriage return starts no comment. -/
theorem beforeComment_concat_return (text : List Char) :
    SameButReturn (beforeComment text) (beforeComment (text ++ ['\r'])) := by
  fun_induction beforeComment text with
  | case1 => exact .inr rfl
  | case2 => exact .inl rfl
  | case3 => exact .inl rfl
  | case4 c rest hline hblock ih =>
    have hcons : beforeComment (c :: (rest ++ ['\r'])) = c :: beforeComment (rest ++ ['\r']) := by
      rw [beforeComment]
      · rintro tail rfl htail
        obtain ⟨more, hrest⟩ := exists_of_concat_return_eq_cons (by decide) htail
        exact hline more rfl hrest
      · rintro tail rfl htail
        obtain ⟨more, hrest⟩ := exists_of_concat_return_eq_cons (by decide) htail
        exact hblock more rfl hrest
    rw [List.cons_append, hcons]
    exact ih.append_left [c]

/-- A carriage return at the end of a line is no part of the name. -/
theorem name_concat_return (line : List Char) : name (line ++ ['\r']) = name line := by
  have hline : SameButReturn (unfold line) (unfold (line ++ ['\r'])) :=
    .inr (unfold_concat_return line)
  exact (hline.dropWhile isBlank).takeWhile_eq (by decide +kernel)

/-- A carriage return at the end of a value stays there or is cut off with a comment. -/
theorem withoutComment_sameButReturn {a b : List Char} (h : SameButReturn a b) :
    SameButReturn (withoutComment a) (withoutComment b) := by
  rcases h.dropWhile isBlank with hstart | hstart
  · rw [withoutComment, withoutComment, trimStart, trimStart, hstart]
    exact .inl rfl
  · rw [withoutComment, withoutComment, trimStart, trimStart, hstart, splitDelimited_concat_return]
    exact (beforeComment_concat_return _).append_left _

/-- A carriage return at the end of a line is no part of the value. -/
theorem value_concat_return (line : List Char) : value (line ++ ['\r']) = value line := by
  have hline : SameButReturn (unfold line) (unfold (line ++ ['\r'])) :=
    .inr (unfold_concat_return line)
  have hrest := (hline.dropWhile isBlank).dropWhile isNameChar
  have htrim := (withoutComment_sameButReturn hrest).trim_eq
  simp only [value]
  exact congrArg (fun text => trimEnd (dropEndWhile (· == ';') text)) htrim

end DirectiveLine

namespace Token

open Text

/-- The token is no directive line that goes on over a line feed. -/
def IsUncontinued : Token → Prop
  | .directive line => '\n' ∉ line
  | _ => True

instance (t : Token) : Decidable t.IsUncontinued :=
  match t with
  | .directive line => inferInstanceAs (Decidable ('\n' ∉ line))
  | .lineComment _ | .blockComment _ | .openComment _ | .newline | .blank _ | .opener _ | .closer _
  | .other _ => instDecidableTrue

/-- No directive line goes on over a line feed. -/
def Uncontinued (ts : List Token) : Prop :=
  ∀ t ∈ ts, t.IsUncontinued

instance (ts : List Token) : Decidable (Uncontinued ts) :=
  inferInstanceAs (Decidable (∀ t ∈ ts, t.IsUncontinued))

theorem uncontinued_iff {ts : List Token} :
    Uncontinued ts ↔ ∀ line, .directive line ∈ ts → '\n' ∉ line := by
  refine ⟨fun h line hline => h _ hline, fun h t ht => ?_⟩
  cases t with
  | directive line => exact h line ht
  | _ => trivial

theorem Uncontinued.tail {t : Token} {ts : List Token} (h : Uncontinued (t :: ts)) :
    Uncontinued ts :=
  (List.forall_mem_cons.mp h).2

/-- The tokens of a text when a carriage return is written before every line feed. A comment of two
slashes and a directive line take the carriage return at their end in; elsewhere it is a blank. -/
def withReturns : List Token → List Token
  | .lineComment body :: .newline :: ts =>
    .lineComment (body ++ ['\r']) :: .newline :: withReturns ts
  | .directive line :: .newline :: ts => .directive (line ++ ['\r']) :: .newline :: withReturns ts
  | .newline :: ts => .blank '\r' :: .newline :: withReturns ts
  | .blockComment body :: ts => .blockComment (Text.withReturns body) :: withReturns ts
  | .openComment body :: ts => .openComment (Text.withReturns body) :: withReturns ts
  | t :: ts => t :: withReturns ts
  | [] => []

/-- A comment ends at the same place when carriage returns are written. -/
theorem splitComment?_withReturns (text : List Char) : splitComment? (Text.withReturns text) =
    (splitComment? text).map fun parts => (Text.withReturns parts.1, Text.withReturns parts.2) := by
  induction text with
  | nil => rfl
  | cons c rest ih =>
    by_cases hc : c = '\n'
    · subst hc
      rw [withReturns_newline_cons, splitComment?_cons, if_neg (by simp), splitComment?_cons,
        if_neg (by simp), ih, splitComment?_cons, if_neg (by simp)]
      simp only [Option.map_map]
      rfl
    · rw [withReturns_cons_of_ne hc, splitComment?_cons, splitComment?_cons, ih]
      have hslash : (Text.withReturns rest).head? = some '/' ↔ rest.head? = some '/' := by
        rw [head?_withReturns]
        cases rest with
        | nil => simp
        | cons d rest => by_cases hd : d = '\n' <;> simp [hd]
      by_cases h : c = '*' ∧ rest.head? = some '/'
      · obtain ⟨rfl, hrest⟩ := h
        obtain ⟨tail, rfl⟩ := List.head?_eq_some_iff.mp hrest
        rfl
      · rw [if_neg h, if_neg (by rwa [hslash]), Option.map_map, Option.map_map]
        refine congrArg (Option.map · _) (funext fun parts => ?_)
        simp [withReturns_cons_of_ne hc]

/-- A token that is read as one line has no line feed in it. -/
theorem newline_notMem_text {fresh : Bool} {t : Token} {rest : List Char}
    (h : t.Leads fresh rest) (hnewline : t ≠ .newline) (hblock : ∀ body, t ≠ .blockComment body)
    (hopen : ∀ body, t ≠ .openComment body) (hline : t.IsUncontinued) : '\n' ∉ t.text := by
  cases t with
  | newline => exact absurd rfl hnewline
  | blockComment body => exact absurd rfl (hblock body)
  | openComment body => exact absurd rfl (hopen body)
  | lineComment body => simpa [text] using ((leads_lineComment_iff body).mp h).1
  | directive line => simpa [text] using show '\n' ∉ line from hline
  | opener bracket => cases bracket <;> decide
  | closer bracket => cases bracket <;> decide
  | blank c | other c =>
    -- A line feed is read as a token of its own.
    intro hmem
    obtain rfl : '\n' = c := by simpa [text] using hmem
    exact absurd (eq_ofChar_of_leads rfl (by simp) h) (by decide)

/-- The text of a directive line is one line. -/
theorem splitLine_of_notMem {line : List Char} (h : '\n' ∉ line) : splitLine line = (line, []) := by
  induction line with
  | nil => rfl
  | cons c line ih =>
    simp only [List.mem_cons, not_or] at h
    rw [splitLine_cons_of_ne (Ne.symm h.1), ih h.2]
    rintro ⟨-, hhead⟩
    exact h.2 (List.mem_of_head? hhead)

variable {fresh : Bool} {ts : List Token}

/-- The text of the tokens with carriage returns is the text with carriage returns. -/
theorem text_withReturns (h : Spelled fresh ts []) (hlines : Uncontinued ts) :
    (withReturns ts).flatMap text = Text.withReturns (ts.flatMap text) := by
  have newline_text : Text.withReturns newline.text = ['\r', '\n'] := withReturns_newline_cons []
  -- Only line feeds, comments of several lines and what ends a line before a line feed change.
  fun_induction withReturns ts generalizing fresh with
  | case1 body ts ih =>
    have hts := ih h.2.2 hlines.tail.tail
    have hbody : '\n' ∉ (lineComment body).text :=
      newline_notMem_text h.1 (by simp) (by simp) (by simp) trivial
    simp only [List.flatMap_cons, withReturns_append, withReturns_eq_self hbody, newline_text, hts]
    simp [text]
  | case2 line ts ih =>
    have hts := ih h.2.2 hlines.tail.tail
    have hline : '\n' ∉ (directive line).text :=
      newline_notMem_text h.1 (by simp) (by simp) (by simp) (hlines _ List.mem_cons_self)
    simp only [List.flatMap_cons, withReturns_append, withReturns_eq_self hline, newline_text, hts]
    simp [text]
  | case3 ts ih =>
    have hts := ih h.2 hlines.tail
    simp only [List.flatMap_cons, withReturns_append, newline_text, hts]
    simp [text]
  | case4 body ts ih =>
    have hts := ih h.2 hlines.tail
    have hbody : (blockComment (Text.withReturns body)).text =
        Text.withReturns (blockComment body).text := by
      simp [text, withReturns_append, withReturns_cons_of_ne]
      rfl
    rw [List.flatMap_cons, List.flatMap_cons, withReturns_append, hbody, hts]
  | case5 body ts ih =>
    have hts := ih h.2 hlines.tail
    have hbody : (openComment (Text.withReturns body)).text =
        Text.withReturns (openComment body).text := by
      simp [text, withReturns_cons_of_ne]
    rw [List.flatMap_cons, List.flatMap_cons, withReturns_append, hbody, hts]
  | case6 t ts hline hdirective hnewline hblock hopen ih =>
    have hts := ih h.2 hlines.tail
    have htext : '\n' ∉ t.text :=
      newline_notMem_text h.1 hnewline hblock hopen (hlines t List.mem_cons_self)
    rw [List.flatMap_cons, List.flatMap_cons, withReturns_append, withReturns_eq_self htext, hts]
  | case7 => rfl

/-- What may follow a token may follow it when carriage returns are written, if the token is not one
that would take a carriage return in. -/
theorem Stops.withReturns {t : Token} {next : Option Char} (h : t.Stops next)
    (hline : ∀ body, t = .lineComment body → next ≠ some '\n')
    (hdirective : ∀ line, t = .directive line → next ≠ some '\n') :
    t.Stops (next.map fun c => if c = '\n' then '\r' else c) := by
  cases t with
  | lineComment body =>
    obtain rfl := h.resolve_right (hline body rfl)
    exact .inl rfl
  | openComment body =>
    obtain rfl : next = none := h
    rfl
  | directive line =>
    obtain rfl := h.resolve_right fun hnext => hdirective line rfl hnext.1
    exact .inl rfl
  | other c =>
    intro hc
    obtain ⟨hslash, hstar⟩ := h hc
    cases next with
    | none => simp
    | some d => by_cases hd : d = '\n' <;> simp_all
  | blockComment | newline | blank | opener | closer => trivial

/-- The tokens with carriage returns are spelled by their text. -/
theorem spelled_withReturns (h : Spelled fresh ts []) (hlines : Uncontinued ts) :
    Spelled fresh (withReturns ts) [] := by
  fun_induction withReturns ts generalizing fresh with
  | case1 body ts ih =>
    have hts := ih h.2.2 hlines.tail.tail
    refine ⟨(leads_lineComment_iff _).mpr ⟨?_, by simp [text]⟩, leads_newline _ _, hts⟩
    simpa using ((leads_lineComment_iff body).mp h.1).1
  | case2 line ts ih =>
    have hts := ih h.2.2 hlines.tail.tail
    obtain ⟨⟨hfresh, -⟩, -⟩ := (leads_directive_iff line).mp h.1
    refine ⟨(leads_directive_iff _).mpr ⟨⟨hfresh, ?_⟩, by simp [text]⟩, leads_newline _ _, hts⟩
    have hline : '\n' ∉ line := hlines _ List.mem_cons_self
    exact splitLine_of_notMem (by simpa using hline)
  | case3 ts ih =>
    have hts := ih h.2 hlines.tail
    -- Behind no comment of two slashes and no directive line, the carriage return is a blank.
    have hreturn : ofChar '\r' = .blank '\r' := by decide
    refine ⟨?_, leads_newline _ _, hts⟩
    rw [← hreturn]
    exact (leads_ofChar_iff '\r').mpr ⟨by simp, by simp⟩
  | case4 body ts ih =>
    have hts := ih h.2 hlines.tail
    refine ⟨(leads_blockComment_iff _).mpr ?_, hts⟩
    have hbody := splitComment?_withReturns (body ++ ['*', '/'])
    rw [(leads_blockComment_iff body).mp h.1, withReturns_append] at hbody
    exact hbody
  | case5 body ts ih =>
    have hts := ih h.2 hlines.tail
    obtain ⟨hsplit, hrest⟩ := (leads_openComment_iff body).mp h.1
    refine ⟨(leads_openComment_iff _).mpr ⟨?_, ?_⟩, hts⟩
    · rw [splitComment?_withReturns, hsplit, Option.map_none]
    · rw [List.append_nil] at hrest
      rw [text_withReturns h.2 hlines.tail, hrest]
      rfl
  | case6 t ts hline hdirective hnewline hblock hopen ih =>
    refine ⟨?_, ih h.2 hlines.tail⟩
    -- A line feed behind the token is a token of its own.
    have hnext : (ts.flatMap text).head? = some '\n' → ∃ more, ts = .newline :: more := by
      intro hhead
      cases ts with
      | nil => exact absurd hhead (by simp)
      | cons u more =>
        obtain rfl := eq_newline_of_leads h.2.1 (by simpa using hhead)
        exact ⟨more, rfl⟩
    have hleads := h.1
    rw [List.append_nil, leads_iff] at hleads ⊢
    rw [text_withReturns h.2 hlines.tail, head?_withReturns]
    refine ⟨hleads.1, hleads.2.withReturns ?_ ?_⟩
    · rintro body rfl hhead
      obtain ⟨more, hmore⟩ := hnext hhead
      exact hline body more rfl hmore
    · rintro line rfl hhead
      obtain ⟨more, hmore⟩ := hnext hhead
      exact hdirective line more rfl hmore
  | case7 => trivial

/-- A line feed in a directive line stands behind a backslash. -/
theorem infix_of_splitLine {line : List Char} (h : splitLine line = (line, []))
    (hmem : '\n' ∈ line) : ['\\', '\n'] <:+: line := by
  fun_induction splitLine line with
  | case1 => simp at hmem
  | case2 line ih => exact (List.prefix_append _ line).isInfix
  | case3 line hline => simp at h
  | case4 c line hline hc ih =>
    simp only [Prod.mk.injEq, List.cons.injEq, true_and] at h
    have hmem : '\n' ∈ line := (List.mem_cons.mp hmem).resolve_left (Ne.symm hc)
    exact (ih (Prod.ext h.1 h.2) hmem).trans (List.suffix_cons c line).isInfix

/-- With carriage returns no line feed stands behind a backslash. -/
theorem not_infix_withReturns (source : List Char) :
    ¬ ['\\', '\n'] <:+: Text.withReturns source := by
  induction source with
  | nil => simp [Text.withReturns]
  | cons c source ih =>
    by_cases hc : c = '\n'
    · subst hc
      simp [withReturns_newline_cons, List.infix_cons_iff, ih]
    · rw [withReturns_cons_of_ne hc, List.infix_cons_iff, not_or]
      refine ⟨fun hprefix => ?_, ih⟩
      obtain ⟨-, tail, htail⟩ := List.cons_prefix_cons.mp hprefix
      have hhead := head?_withReturns source
      rw [← htail] at hhead
      cases source with
      | nil => simp at hhead
      | cons d source => by_cases hd : d = '\n' <;> simp [hd, eq_comm] at hhead

/-- With carriage returns no directive line goes on over a line feed. -/
theorem uncontinued_tokens_withReturns (source : List Char) :
    Uncontinued (tokens fresh (Text.withReturns source)) := by
  refine uncontinued_iff.mpr fun line h hmem => ?_
  obtain ⟨front, back, hts⟩ := List.append_of_mem h
  have hspelled := spelled_tokens fresh (Text.withReturns source)
  rw [hts, spelled_append_iff] at hspelled
  have hline := ((leads_directive_iff line).mp hspelled.2.1).1.2
  refine not_infix_withReturns source ((infix_of_splitLine hline hmem).trans ?_)
  rw [← text_tokens fresh (Text.withReturns source), hts]
  exact ⟨front.flatMap text ++ ['#'], back.flatMap text, by simp [text]⟩

/-- With carriage returns there is the same directive line, up to a carriage return. -/
theorem exists_mem_withReturns {line : List Char} (h : .directive line ∈ ts) :
    ∃ other, .directive other ∈ withReturns ts ∧ SameButReturn line other := by
  fun_induction withReturns ts with
  | case1 body ts ih | case3 ts ih | case4 body ts ih | case5 body ts ih =>
    obtain ⟨other, hmem, hother⟩ := ih (by simpa using h)
    exact ⟨other, by simp [hmem], hother⟩
  | case2 first ts ih =>
    simp only [List.mem_cons, directive.injEq, reduceCtorEq, false_or] at h
    rcases h with rfl | h
    · exact ⟨_, List.mem_cons_self, .inr rfl⟩
    · obtain ⟨other, hmem, hother⟩ := ih h
      exact ⟨other, by simp [hmem], hother⟩
  | case6 t ts _ _ _ _ _ ih =>
    rcases List.mem_cons.mp h with rfl | h
    · exact ⟨line, List.mem_cons_self, .inl rfl⟩
    · obtain ⟨other, hmem, hother⟩ := ih h
      exact ⟨other, List.mem_cons_of_mem _ hmem, hother⟩
  | case7 => simp at h

/-- A text with carriage returns is cut into the tokens with carriage returns exactly if no
directive line of the text goes on over a line feed. -/
theorem tokens_withReturns_iff {source : List Char} :
    tokens fresh (Text.withReturns source) = withReturns (tokens fresh source) ↔
      Uncontinued (tokens fresh source) := by
  constructor
  · -- A line feed in a directive line would be one with the carriage returns, too.
    refine fun h => uncontinued_iff.mpr fun line hline hmem => ?_
    obtain ⟨other, hother, hsame⟩ := exists_mem_withReturns hline
    refine uncontinued_iff.mp (uncontinued_tokens_withReturns source) other (h ▸ hother) ?_
    rcases hsame with rfl | rfl
    · exact hmem
    · exact List.mem_append_left _ hmem
  · intro hlines
    have hspelled := spelled_tokens fresh source
    have htext := text_withReturns hspelled hlines
    rw [text_tokens] at htext
    rw [← htext]
    exact tokens_of_spelled (spelled_withReturns hspelled hlines)

/-- The name and the value of a directive line. -/
def reading? : Token → Option (String × String)
  | .directive line =>
    some (String.ofList (DirectiveLine.name line), String.ofList (DirectiveLine.value line))
  | _ => none

/-- Carriage returns change no name and no value. -/
theorem filterMap_reading?_withReturns (ts : List Token) :
    (withReturns ts).filterMap reading? = ts.filterMap reading? := by
  fun_induction withReturns ts with
  | case2 line ts ih =>
    simp only [List.filterMap_cons, reading?, DirectiveLine.name_concat_return,
      DirectiveLine.value_concat_return, ih]
  | case1 body ts ih | case3 ts ih | case4 body ts ih | case5 body ts ih => exact ih
  | case6 t ts _ _ _ _ _ ih => rw [List.filterMap_cons, List.filterMap_cons, ih]
  | case7 => rfl

end Token

/-- Tokens with carriage returns are checked in the same way. -/
theorem Nesting.run?_withReturns (n : Nesting) (ts : List Token) :
    n.run? (Token.withReturns ts) = n.run? ts := by
  fun_induction Token.withReturns ts generalizing n with
  | case1 body ts ih => exact ih n
  | case2 line ts ih =>
    have hfault : (DirectiveLine.read (line ++ ['\r']) default).fault? =
        (DirectiveLine.read line default).fault? := by
      simp only [DirectiveLine.read, DirectiveLine.name_concat_return,
        DirectiveLine.value_concat_return]
      rfl
    have hstep : n.step? (.directive (line ++ ['\r'])) = n.step? (.directive line) := by
      simp only [step?, hfault, Token.part?, DirectiveLine.name_concat_return]
    rw [run?, run?, hstep]
    exact congrArg _ (funext fun next => ih next)
  | case3 ts ih => exact ih n
  | case4 body ts ih => exact ih n
  | case5 body ts ih => rfl
  | case6 t ts _ _ _ _ _ ih =>
    rw [run?, run?]
    exact congrArg _ (funext fun next => ih next)
  | case7 => rfl

/-- List the directives of a tree, those of a chunk in its place. -/
def Tree.directives : Tree → List Directive
  | .empty => []
  | .leaf (.text _) rest => rest.directives
  | .leaf (.directive d) rest => d :: rest.directives
  | .chunk _ inner rest => inner.directives ++ rest.directives

/-- The names and values of the directives of a tree. -/
def Tree.readings (t : Tree) : List (String × String) :=
  t.directives.map fun d => (d.name, d.value)

/-- Read the directive of a token that starts at `position`. -/
def Token.directive? (position : Position) : Token → Option Directive
  | .directive line => some (DirectiveLine.read line ⟨position, position.advance ('#' :: line)⟩)
  | _ => none

theorem Token.directive?_of_ne {t : Token} (ht : ¬ ∃ line, t = .directive line)
    (position : Position) : t.directive? position = none := by
  cases t with
  | directive line => exact absurd ⟨line, rfl⟩ ht
  | _ => rfl

/-- Read the directives of tokens, the first of which starts at `position`. -/
def Token.directives (position : Position) : List Token → List Directive
  | [] => []
  | t :: ts => (t.directive? position).toList ++ directives (position.advance t.text) ts

/-- The directives in a tree of tokens are those of the tokens, each at its place. -/
theorem Region.directives_tree (position : Position) (ts : List Token) :
    (tree position (ofTokens ts)).directives = Token.directives position ts := by
  have prepended : ∀ (content : List Char) (regions : List Region) (position : Position),
      (tree position (prepend content regions)).directives =
        (tree (position.advance content) regions).directives := by
    intro content regions position
    unfold prepend
    split
    next more rest => simp [tree, leaf, Tree.directives, Region.content, Position.advance_append]
    next => simp [tree, leaf, Tree.directives, Region.content]
  induction ts generalizing position with
  | nil => rfl
  | cons t ts ih =>
    obtain ⟨line, rfl⟩ | ht := Classical.em (∃ line, t = .directive line)
    · rw [ofTokens, tree, leaf, Tree.directives, ih]
      rfl
    · rw [ofTokens_cons_of_ne ht, prepended, ih, Token.directives, Token.directive?_of_ne ht]
      rfl

/-- The names and values in a tree of tokens are those on its directive lines. -/
theorem Region.readings_tree (position : Position) (ts : List Token) :
    (tree position (ofTokens ts)).readings = ts.filterMap Token.reading? := by
  rw [Tree.readings, directives_tree]
  induction ts generalizing position with
  | nil => rfl
  | cons t ts ih =>
    rw [Token.directives, List.map_append, ih]
    cases t <;> rfl

/-- The source with a carriage return before every line feed. -/
def crlf (source : String) : String :=
  String.ofList (Text.withReturns source.toList)

/-- A source is accepted with both line endings or with none, and its directives have the same names
and values with both. -/
def LineEndingsAgree (source : String) : Prop :=
  ((∃ t, parseChunk source = .ok t) ↔ ∃ u, parseChunk (crlf source) = .ok u) ∧
    ∀ t u, parseChunk source = .ok t → parseChunk (crlf source) = .ok u → t.readings = u.readings

/-- A source is read in the same way with both line endings, if no directive line of it goes on over
a line feed. -/
theorem lineEndingsAgree_of_uncontinued {source : String}
    (hlines : Token.Uncontinued (Token.tokens true source.toList)) : LineEndingsAgree source := by
  have htokens : Token.tokens true (crlf source).toList =
      Token.withReturns (Token.tokens true source.toList) := by
    rw [crlf, String.toList_ofList, Token.tokens_withReturns_iff.mpr hlines]
  constructor
  · simp only [parseChunk_eq_ok_iff, htokens, Nesting.run?_withReturns, exists_and_left,
      exists_eq, and_true]
  · intro t u ht hu
    obtain ⟨-, rfl⟩ := parseChunk_eq_ok_iff.mp ht
    obtain ⟨-, rfl⟩ := parseChunk_eq_ok_iff.mp hu
    rw [Region.readings_tree, Region.readings_tree, htokens, Token.filterMap_reading?_withReturns]

/-- A source with comments, and with a conditional that opens a bracket in both of its branches. -/
def branchedSource : String :=
  "#include \"a\"; // b\n/* (\n*/ #ifdef C /* d */\n\x7b\n#else\n\x7b //\n#endif\n\x7d"

/-- The source is read in the same way with both line endings. -/
theorem lineEndingsAgree_of_uncontinued_branched :
    crlf branchedSource = "#include \"a\"; // b\r\n/* (\r\n*/ #ifdef C /* d */\r\n\x7b\r\n#else" ++
        "\r\n\x7b //\r\n#endif\r\n\x7d" ∧
      ∃ t u, parseChunk branchedSource = .ok t ∧ parseChunk (crlf branchedSource) = .ok u ∧
        t.readings = [("include", "\"a\""), ("ifdef", "C"), ("else", ""), ("endif", "")] ∧
        t.readings = u.readings := by
  have hcomputed : (parseChunk branchedSource).toOption.map Tree.readings =
      some [("include", "\"a\""), ("ifdef", "C"), ("else", ""), ("endif", "")] := by
    decide +kernel
  obtain ⟨t, ht, hreadings⟩ := exists_tree_of_eq hcomputed
  have hlines : Token.Uncontinued (Token.tokens true branchedSource.toList) := by decide +kernel
  obtain ⟨haccepted, hsame⟩ := lineEndingsAgree_of_uncontinued hlines
  obtain ⟨u, hu⟩ := haccepted.mp ⟨t, ht⟩
  exact ⟨by decide +kernel, t, u, ht, hu, hreadings, hsame t u ht hu⟩

/-- Not every source is read in the same way with both line endings. A directive line that goes on
over a line feed ends there when the carriage returns are written: what follows is read as text,
with its brackets, or as a directive line of its own. -/
theorem not_lineEndingsAgree_continued :
    (crlf "#define A \\\n(\n" = "#define A \\\r\n(\r\n" ∧
      (parseChunk "#define A \\\n(\n").toOption.map Tree.readings = some [("define", "A  (")] ∧
      parseChunk "#define A \\\r\n(\r\n" = .error ⟨.unclosed .paren, ⟨⟨2, 1⟩, ⟨2, 2⟩⟩⟩ ∧
      ¬ LineEndingsAgree "#define A \\\n(\n") ∧
    (crlf "#define A \\\n#include b\n" = "#define A \\\r\n#include b\r\n" ∧
      (parseChunk "#define A \\\n#include b\n").toOption.map Tree.readings =
        some [("define", "A  #include b")] ∧
      (parseChunk "#define A \\\r\n#include b\r\n").toOption.map Tree.readings =
        some [("define", "A \\"), ("include", "b")] ∧
      ¬ LineEndingsAgree "#define A \\\n#include b\n") := by
  have haccepted : (parseChunk "#define A \\\n(\n").toOption.map Tree.readings =
      some [("define", "A  (")] := by decide +kernel
  have hopen : parseChunk "#define A \\\r\n(\r\n" =
      .error ⟨.unclosed .paren, ⟨⟨2, 1⟩, ⟨2, 2⟩⟩⟩ := by decide +kernel
  have hcrlf : crlf "#define A \\\n(\n" = "#define A \\\r\n(\r\n" := by decide +kernel
  have hone : (parseChunk "#define A \\\n#include b\n").toOption.map Tree.readings =
      some [("define", "A  #include b")] := by decide +kernel
  have htwo : (parseChunk (crlf "#define A \\\n#include b\n")).toOption.map Tree.readings =
      some [("define", "A \\"), ("include", "b")] := by decide +kernel
  refine ⟨⟨hcrlf, haccepted, hopen, fun h => ?_⟩,
    by decide +kernel, hone, by decide +kernel, fun h => ?_⟩
  · obtain ⟨t, ht, -⟩ := exists_tree_of_eq haccepted
    obtain ⟨u, hu⟩ := h.1.mp ⟨t, ht⟩
    rw [hcrlf, hopen] at hu
    exact absurd hu (by simp)
  · obtain ⟨t, ht, hreadings⟩ := exists_tree_of_eq hone
    obtain ⟨u, hu, hother⟩ := exists_tree_of_eq htwo
    have hsame := h.2 t u ht hu
    rw [hreadings, hother] at hsame
    exact absurd hsame (by decide)

end ShaderTemplate
