import ShaderTemplate.Parser.Token

/-!
# Where tokens end

A token is read as it stands in front of some texts and not in front of others: a slash before a
slash starts a comment, and a directive line goes on over the end of a line behind a backslash. What
a text has to look like depends on its first character only (`leads_iff`), so a token is read in the
same way in front of every text that starts in a way that stops it (`Stops`).

Tokens are spelled by a text when each of them leads what follows it. The cut of a text spells it
(`spelled_tokens`), and a text is cut into the tokens that it spells (`tokens_append_of_spelled`).
-/

namespace ShaderTemplate.Token

variable {fresh : Bool} {t : Token} {rest : List Char}

/-- Read the token at the front of a text. -/
def readFront? (fresh : Bool) : List Char → Option (Token × List Char)
  | [] => none
  | c :: rest => some (read fresh c rest)

/-- The token `t` is read from its own text in front of `rest`. -/
def Leads (fresh : Bool) (t : Token) (rest : List Char) : Prop :=
  readFront? fresh (t.text ++ rest) = some (t, rest)

/-- The characters that may follow a token, where `none` is the end of the text. -/
def Stops : Token → Option Char → Prop
  | .lineComment _, next => next = none ∨ next = some '\n'
  | .openComment _, next => next = none
  | .directive line, next => next = none ∨ next = some '\n' ∧ line.getLast? ≠ some '\\'
  | .other c, next => c = '/' → next ≠ some '/' ∧ next ≠ some '*'
  | _, _ => True

instance (t : Token) (next : Option Char) : Decidable (t.Stops next) :=
  match t with
  | .lineComment _ => inferInstanceAs (Decidable (_ ∨ _))
  | .openComment _ => inferInstanceAs (Decidable (_ = _))
  | .directive _ => inferInstanceAs (Decidable (_ ∨ _ ∧ _))
  | .other _ => inferInstanceAs (Decidable (_ → _))
  | .blockComment _ | .newline | .blank _ | .opener _ | .closer _ => instDecidableTrue

/-! ## Comments and directive lines -/

/-- A comment ends at its first star before a slash. -/
theorem splitComment?_cons (c : Char) (rest : List Char) :
    splitComment? (c :: rest) =
      if c = '*' ∧ rest.head? = some '/' then some ([], rest.tail)
      else (splitComment? rest).map fun parts => (c :: parts.1, parts.2) := by
  by_cases h : c = '*' ∧ rest.head? = some '/'
  · obtain ⟨rfl, hrest⟩ := h
    obtain ⟨tail, rfl⟩ := List.head?_eq_some_iff.mp hrest
    simp [splitComment?]
  · rw [if_neg h, splitComment?]
    rintro tail rfl rfl
    exact h ⟨rfl, rfl⟩

/-- Where a comment ends does not depend on what follows it. -/
theorem splitComment?_append_iff (body rest : List Char) :
    splitComment? (body ++ '*' :: '/' :: rest) = some (body, rest) ↔
      splitComment? (body ++ ['*', '/']) = some (body, []) := by
  induction body with
  | nil => simp [splitComment?]
  | cons c body ih =>
    -- The next character decides whether the comment ends here, and it is the same in both texts.
    have head : (body ++ '*' :: '/' :: rest).head? = (body ++ ['*', '/']).head? := by
      cases body <;> rfl
    rw [List.cons_append, List.cons_append, splitComment?_cons, splitComment?_cons, head]
    split
    · simp
    · have cons_iff : ∀ (parts : Option (List Char × List Char)) (tail : List Char),
          parts.map (fun parts => (c :: parts.1, parts.2)) = some (c :: body, tail) ↔
            parts = some (body, tail) := by
        rintro (_ | ⟨front, back⟩) tail <;> simp
      rw [cons_iff, cons_iff, ih]

/-- A character other than a line feed is part of its line. -/
theorem splitLine_cons_of_ne {c : Char} (hc : c ≠ '\n')
    (h : ¬ (c = '\\' ∧ rest.head? = some '\n')) :
    splitLine (c :: rest) = (c :: (splitLine rest).1, (splitLine rest).2) := by
  rw [splitLine, if_neg hc]
  rintro tail rfl rfl
  exact h ⟨rfl, rfl⟩

/-- A directive line ends at the end of the text, or at a line feed if no backslash is its last
character. -/
theorem splitLine_append_iff (line rest : List Char) :
    splitLine (line ++ rest) = (line, rest) ↔
      splitLine line = (line, []) ∧
        (rest.head? = none ∨ rest.head? = some '\n' ∧ line.getLast? ≠ some '\\') := by
  fun_induction splitLine line with
  | case1 =>
    cases rest with
    | nil => simp [splitLine]
    | cons c rest =>
      by_cases hc : c = '\n'
      · subst hc
        simp [splitLine]
      · by_cases h : c = '\\' ∧ rest.head? = some '\n'
        · obtain ⟨rfl, hrest⟩ := h
          obtain ⟨tail, rfl⟩ := List.head?_eq_some_iff.mp hrest
          simp [splitLine]
        · simp [splitLine_cons_of_ne hc h, hc]
  | case2 line ih =>
    have last : ('\\' :: '\n' :: line).getLast? = some '\\' ↔ line.getLast? = some '\\' := by
      cases line <;> simp
    simp only [List.cons_append, splitLine, Prod.mk.injEq, List.cons.injEq, true_and, ne_eq, last]
    have := ih
    simp only [Prod.ext_iff, ne_eq] at this
    exact this
  | case3 line h => simp [splitLine]
  | case4 c line h hc ih =>
    by_cases across : c = '\\' ∧ (line ++ rest).head? = some '\n'
    · -- The line ends in the backslash and goes on with the rest.
      obtain ⟨rfl, hrest⟩ := across
      cases line with
      | cons d line =>
        obtain rfl : d = '\n' := by simpa using hrest
        exact (h line rfl rfl).elim
      | nil =>
        obtain ⟨tail, rfl⟩ := List.head?_eq_some_iff.mp hrest
        simp [splitLine]
    · rw [List.cons_append, splitLine_cons_of_ne hc across]
      have cons_iff : ∀ (parts : List Char × List Char) (tail : List Char),
          (c :: parts.1, parts.2) = (c :: line, tail) ↔ parts = (line, tail) := by
        rintro ⟨front, back⟩ tail
        simp
      rw [cons_iff, cons_iff, ih]
      refine and_congr_right fun _ => ?_
      cases line with
      | cons d line => simp
      | nil =>
        simp only [List.nil_append, not_and] at across
        refine or_congr_right (and_congr_right fun hrest => ?_)
        simpa using fun hc => across hc hrest

/-- A text is cut at the first `c` behind a part without one, or at its end. -/
theorem takeWhile_ne_append_iff (c : Char) (body rest : List Char) :
    ((body ++ rest).takeWhile (· != c), (body ++ rest).dropWhile (· != c)) = (body, rest) ↔
      c ∉ body ∧ (rest.head? = none ∨ rest.head? = some c) := by
  induction body with
  | nil =>
    cases rest with
    | nil => simp
    | cons d rest =>
      by_cases h : d = c
      · simp [h]
      · simp [h]
  | cons d body ih =>
    by_cases h : d = c
    · simp [h]
    · simp only [Prod.mk.injEq] at ih
      simp [h, Ne.symm h, ih]

/-- A comment of two slashes is read up to the end of its line. -/
theorem leads_lineComment_iff (body : List Char) : (lineComment body).Leads fresh rest ↔
    '\n' ∉ body ∧ (rest.head? = none ∨ rest.head? = some '\n') := by
  rw [← takeWhile_ne_append_iff]
  simp [Leads, text, readFront?, read]

/-- A closed comment is read in front of any text. -/
theorem leads_blockComment_iff (body : List Char) : (blockComment body).Leads fresh rest ↔
    splitComment? (body ++ ['*', '/']) = some (body, []) := by
  rw [← splitComment?_append_iff body rest]
  simp only [Leads, text, readFront?, read, List.cons_append, List.append_assoc,
    List.nil_append, Option.some_inj]
  cases splitComment? (body ++ '*' :: '/' :: rest) <;> simp [Prod.ext_iff]

/-- An open comment takes the whole text in. -/
theorem leads_openComment_iff (body : List Char) : (openComment body).Leads fresh rest ↔
    splitComment? body = none ∧ rest = [] := by
  simp only [Leads, text, readFront?, read, List.cons_append, Option.some_inj]
  by_cases h : rest = []
  · subst h
    rw [List.append_nil]
    cases splitComment? body <;> simp
  · cases splitComment? (body ++ rest) <;> simp [h, Ne.symm h]

/-- A directive line is read on a fresh line only, up to a line feed without a backslash. -/
theorem leads_directive_iff (line : List Char) : (directive line).Leads fresh rest ↔
    (fresh = true ∧ splitLine line = (line, [])) ∧
      (rest.head? = none ∨ rest.head? = some '\n' ∧ line.getLast? ≠ some '\\') := by
  have hash : ofChar '#' = .other '#' := by decide
  rw [and_assoc, ← splitLine_append_iff]
  cases fresh <;> simp [Leads, text, readFront?, read, hash, Prod.ext_iff]

/-! ## Tokens of one character -/

/-- A token of one character is read wherever its character starts neither a comment nor a directive
line. -/
theorem leads_ofChar_iff (c : Char) : (ofChar c).Leads fresh rest ↔
    (c = '/' → rest.head? ≠ some '/' ∧ rest.head? ≠ some '*') ∧ ¬ (c = '#' ∧ fresh = true) := by
  -- A slash and a `#` alone are characters like others; only `read` makes more of them.
  have slash : ofChar '/' = .other '/' := by decide
  have hash : ofChar '#' = .other '#' := by decide
  rw [Leads, text_ofChar, List.singleton_append, readFront?, Option.some_inj]
  unfold read
  split
  next => simp [slash]
  next => split <;> simp [slash]
  next noLine noBlock =>
    have stops : c = '/' → rest.head? ≠ some '/' ∧ rest.head? ≠ some '*' := by
      rintro rfl
      refine ⟨fun h => ?_, fun h => ?_⟩
      · obtain ⟨tail, rfl⟩ := List.head?_eq_some_iff.mp h
        exact noLine tail rfl rfl
      · obtain ⟨tail, rfl⟩ := List.head?_eq_some_iff.mp h
        exact noBlock tail rfl rfl
    split
    next h =>
      obtain ⟨rfl, rfl⟩ := h
      simp [hash]
    next h => exact iff_of_true rfl ⟨stops, h⟩

/-- A token of one character that is read somewhere is the one of its character. -/
theorem eq_ofChar_of_leads {c : Char} (ht : t.text = [c]) (hline : ∀ line, t ≠ .directive line)
    (h : t.Leads fresh rest) : t = ofChar c := by
  rw [Leads, ht, List.singleton_append, readFront?, Option.some_inj] at h
  unfold read at h
  split at h
  next more =>
    obtain rfl := (Prod.mk.inj h).1
    simp [text] at ht
  next more =>
    split at h <;> obtain rfl := (Prod.mk.inj h).1 <;> simp [text] at ht
  next =>
    split at h
    · exact absurd (Prod.mk.inj h).1.symm (hline _)
    · exact (Prod.mk.inj h).1.symm

/-- Before what a token of one character may stand depends on whether it could start a comment. -/
theorem leads_iff_of_text_eq {c : Char} (ht : t.text = [c]) (hline : ∀ line, t ≠ .directive line) :
    t.Leads fresh rest ↔ t.Leads fresh [] ∧
      (c = '/' → rest.head? ≠ some '/' ∧ rest.head? ≠ some '*') := by
  by_cases hc : t = ofChar c
  · rw [hc, leads_ofChar_iff, leads_ofChar_iff]
    simp [and_comm]
  · refine iff_of_false (fun h => hc (eq_ofChar_of_leads ht hline h)) fun h => ?_
    exact hc (eq_ofChar_of_leads ht hline h.1)

/-! ## What may follow a token -/

/-- A token is read in front of a text exactly if it is read at the end of a text and the first
character of the text stops it. -/
theorem leads_iff (fresh : Bool) (t : Token) (rest : List Char) :
    t.Leads fresh rest ↔ t.Leads fresh [] ∧ t.Stops rest.head? := by
  cases t with
  | lineComment body =>
    rw [leads_lineComment_iff, leads_lineComment_iff]
    simp [Stops]
  | blockComment body =>
    rw [leads_blockComment_iff, leads_blockComment_iff]
    simp [Stops]
  | openComment body =>
    rw [leads_openComment_iff, leads_openComment_iff]
    simp [Stops]
  | directive line =>
    rw [leads_directive_iff, leads_directive_iff]
    simp [Stops]
  | newline =>
    rw [leads_iff_of_text_eq rfl (by simp)]
    simp [Stops]
  | blank c =>
    by_cases hc : c = '/'
    · -- There is no blank slash, so neither side holds.
      subst hc
      have never : ∀ rest, ¬ (blank '/').Leads fresh rest := fun rest h =>
        absurd (eq_ofChar_of_leads rfl (by simp) h) (by decide)
      exact iff_of_false (never rest) fun h => never [] h.1
    · rw [leads_iff_of_text_eq rfl (by simp)]
      simp [Stops, hc]
  | opener bracket =>
    rw [leads_iff_of_text_eq rfl (by simp)]
    cases bracket <;> simp [Stops, Bracket.opener]
  | closer bracket =>
    rw [leads_iff_of_text_eq rfl (by simp)]
    cases bracket <;> simp [Stops, Bracket.closer]
  | other c =>
    rw [leads_iff_of_text_eq rfl (by simp)]
    simp [Stops]

-- A directive line with a backslash at its end goes on behind the line feed.
example : ¬ (directive ['d', ' ', '\\']).Stops (some '\n') := by decide

/-- Whether a token is read in front of a text depends on the first character of the text only. -/
theorem Leads.congr {other : List Char} (h : t.Leads fresh rest)
    (hhead : other.head? = rest.head?) : t.Leads fresh other := by
  rw [leads_iff] at h ⊢
  rwa [hhead]

/-- A token that leaves its line fresh in front of a `#` may stand in front of anything. -/
theorem stops_of_hash (hfresh : t.freshAfter fresh = true) (h : t.Stops (some '#'))
    (next : Option Char) : t.Stops next := by
  cases t with
  | lineComment | openComment | directive => simp [Stops] at h
  | blockComment | newline | blank => trivial
  | opener | closer | other => simp [freshAfter] at hfresh

/-- A line feed is a token wherever it stands. -/
theorem leads_newline (fresh : Bool) (rest : List Char) : newline.Leads fresh rest :=
  (leads_ofChar_iff '\n').mpr ⟨by simp, by simp⟩

/-- The token at the front of a text that starts with a line feed is the line feed. -/
theorem eq_newline_of_leads (h : t.Leads fresh rest)
    (hhead : (t.text ++ rest).head? = some '\n') : t = newline := by
  obtain ⟨tail, htail⟩ := List.head?_eq_some_iff.mp hhead
  rw [Leads, htail] at h
  have hnewline : some (newline, tail) = some (t, rest) := (leads_newline fresh tail).symm.trans h
  exact (Prod.mk.inj (Option.some.inj hnewline)).1.symm

/-! ## Texts that spell tokens -/

/-- Each of the tokens is read where it stands, when they are spelled in front of `rest` on a line
that is fresh or not. -/
def Spelled : Bool → List Token → List Char → Prop
  | _, [], _ => True
  | fresh, t :: ts, rest =>
    t.Leads fresh (ts.flatMap text ++ rest) ∧ Spelled (t.freshAfter fresh) ts rest

/-- Whether the line is fresh after some tokens. -/
def freshAfterAll (fresh : Bool) (ts : List Token) : Bool :=
  ts.foldl freshAfter fresh

/-- A token that leads a text is the first token of the text in front of which it stands. -/
theorem tokens_of_leads (h : t.Leads fresh rest) :
    tokens fresh (t.text ++ rest) = t :: tokens (t.freshAfter fresh) rest := by
  cases hsource : t.text ++ rest with
  | nil => exact absurd (List.append_eq_nil_iff.mp hsource).1 t.text_ne_nil
  | cons c source =>
    rw [Leads, hsource, readFront?] at h
    rw [tokens_cons, Option.some.inj h]

/-- A text is cut into the tokens that it spells. -/
theorem tokens_append_of_spelled {ts : List Token} (h : Spelled fresh ts rest) :
    tokens fresh (ts.flatMap text ++ rest) = ts ++ tokens (freshAfterAll fresh ts) rest := by
  induction ts generalizing fresh with
  | nil => rfl
  | cons t ts ih =>
    obtain ⟨hleads, hrest⟩ := h
    rw [List.flatMap_cons, List.append_assoc, tokens_of_leads hleads, ih hrest]
    rfl

/-- A text that spells some tokens up to its end is cut into them. -/
theorem tokens_of_spelled {ts : List Token} (h : Spelled fresh ts []) :
    tokens fresh (ts.flatMap text) = ts := by
  simpa using tokens_append_of_spelled h

/-- The cut of a text spells it. -/
theorem spelled_tokens (fresh : Bool) (source : List Char) :
    Spelled fresh (tokens fresh source) [] := by
  fun_induction tokens fresh source with
  | case1 => trivial
  | case2 fresh c rest step ih =>
    refine ⟨?_, ih⟩
    rw [List.append_nil, text_tokens, Leads, text_read_append, readFront?]

/-- Behind a line feed it does not matter how the line before was. -/
theorem spelled_newline_cons {ts : List Token} (h : Spelled fresh (newline :: ts) rest)
    (other : Bool) : Spelled other (newline :: ts) rest :=
  ⟨leads_newline _ _, h.2⟩

/-- Tokens that are spelled one after the other. -/
theorem spelled_append_iff {ts us : List Token} : Spelled fresh (ts ++ us) rest ↔
    Spelled fresh ts (us.flatMap text ++ rest) ∧ Spelled (freshAfterAll fresh ts) us rest := by
  induction ts generalizing fresh with
  | nil => simp [Spelled, freshAfterAll]
  | cons t ts ih =>
    rw [List.cons_append, Spelled, Spelled, ih, List.flatMap_append, List.append_assoc, and_assoc]
    rfl

end ShaderTemplate.Token
