import ShaderTemplate.Error
import ShaderTemplate.Proofs.Parser.Boundary
import ShaderTemplate.Proofs.Parser.Nesting
import ShaderTemplate.Proofs.Source.ExcerptLayout
import ShaderTemplate.Proofs.Source.Excerpts

/-!
# Where faults are found

The check of a source stops at the first token that is not in order, and its error is located there.
Only a bracket that is left open is found later than where it stands: at the end of the source. Its
place was recorded when it was opened, and may have been saved for a further branch of a conditional
and restored since. What carries over all this is that every recorded bracket, open or saved, is an
opening bracket of the source at its position (`Balance.Follows`).

So every error is located at a token that it blames (`exists_blamed`), whose first character is the
one that its message speaks of; and the excerpt of the error points at this character.

Main statements:

- `Balance.Follows.run`: the check keeps track of the brackets of the source;
- `exists_blamed`: the token that an error is located at;
- `culprit_of_parseChunk`: the character that an error is located at, and its excerpt;
- `Error.inSource?_eq_some_iff`: when the report of an error can be written.
-/

namespace ShaderTemplate

variable {ts : List Token}

/-- The bracket was opened by one of the tokens, and its position is the place of that token. -/
def OpenBracket.StandsIn (b : OpenBracket) (ts : List Token) : Prop :=
  ∃ front back, ts = front ++ .opener b.bracket :: back ∧
    b.position = .behind (front.flatMap Token.text)

/-- A bracket stands among more tokens, too. -/
theorem OpenBracket.StandsIn.append {b : OpenBracket} (h : b.StandsIn ts) (more : List Token) :
    b.StandsIn (ts ++ more) := by
  obtain ⟨front, back, rfl, hposition⟩ := h
  exact ⟨front, back ++ more, by simp, hposition⟩

namespace Balance

variable {s last : Balance} {t : Token} {e : SyntaxError}

/-- The state is behind the tokens, and all brackets in it stand among them. -/
structure Follows (s : Balance) (ts : List Token) : Prop where
  /-- The next token stands behind the text of the tokens. -/
  position : s.position = .behind (ts.flatMap Token.text)
  /-- The open brackets stand among the tokens. -/
  opened : ∀ b ∈ s.opened, b.StandsIn ts
  /-- The brackets that are saved for further branches stand among the tokens. -/
  conditionals : ∀ saved ∈ s.conditionals, ∀ b ∈ saved, b.StandsIn ts

/-- In front of all tokens no bracket is open. -/
theorem follows_initial : initial.Follows [] :=
  ⟨rfl, by simp [initial], by simp [initial]⟩

/-- A directive brings no bracket into the state that was not there. -/
theorem Follows.follow (h : s.Follows ts) (d : Directive) : (s.follow d).Follows ts := by
  unfold Balance.follow
  cases ConditionalPart.ofName? d.name with
  | none => exact h
  | some part =>
    cases part with
    | begins =>
      refine ⟨h.position, h.opened, fun saved hsaved => ?_⟩
      rcases List.mem_cons.mp hsaved with rfl | hsaved
      · exact h.opened
      · exact h.conditionals saved hsaved
    | branches =>
      refine ⟨h.position, ?_, h.conditionals⟩
      -- The branch starts from the brackets that were saved, if there are any.
      cases hconditionals : s.conditionals with
      | nil => simpa using h.opened
      | cons saved outer => simpa using h.conditionals saved (by rw [hconditionals]; simp)
    | ends => exact ⟨h.position, h.opened, fun saved hsaved =>
        h.conditionals saved (List.mem_of_mem_tail hsaved)⟩

/-- A token leads to a state behind it. -/
theorem Follows.step (h : s.Follows ts) (hstep : s.step t = .ok last) :
    last.Follows (ts ++ [t]) := by
  obtain ⟨next, hcheck, rfl⟩ := step_eq_ok_iff.mp hstep
  have hposition : s.position.advance t.text = .behind ((ts ++ [t]).flatMap Token.text) := by
    rw [h.position, ← Position.advance_first, ← Position.advance_append, Position.advance_first]
    simp
  -- What was there stands among more tokens now.
  have opened : ∀ b ∈ s.opened, b.StandsIn (ts ++ [t]) := fun b hb => (h.opened b hb).append [t]
  have conditionals : ∀ saved ∈ s.conditionals, ∀ b ∈ saved, b.StandsIn (ts ++ [t]) :=
    fun saved hsaved b hb => (h.conditionals saved hsaved b hb).append [t]
  obtain ⟨bracket, rfl, rfl⟩ | ⟨innermost, outer, -, hopened, rfl⟩ | ⟨line, -, rfl⟩ | ⟨-, rfl⟩ :=
    check_eq_ok_cases hcheck
  · refine ⟨hposition, fun b hb => ?_, conditionals⟩
    rcases List.mem_cons.mp hb with rfl | hb
    · exact ⟨ts, [], rfl, h.position⟩
    · exact opened b hb
  · exact ⟨hposition, fun b hb => opened b (hopened ▸ List.mem_cons_of_mem _ hb), conditionals⟩
  · have hfollow := h.follow (DirectiveLine.read line ⟨s.position, s.position.advance t.text⟩)
    exact ⟨hposition, fun b hb => (hfollow.opened b hb).append [t],
      fun saved hsaved b hb => (hfollow.conditionals saved hsaved b hb).append [t]⟩
  · exact ⟨hposition, opened, conditionals⟩

/-- The check keeps track of the brackets of the source. -/
theorem Follows.run {us : List Token} (h : s.Follows ts) (hrun : s.run us = .ok last) :
    last.Follows (ts ++ us) := by
  induction us generalizing s ts with
  | nil =>
    obtain rfl := Except.ok.inj hrun
    rwa [List.append_nil]
  | cons t us ih =>
    rw [Balance.run] at hrun
    cases hstep : s.step t with
    | error e => simp [hstep] at hrun
    | ok next =>
      rw [hstep] at hrun
      have hlast := ih (h.step hstep) hrun
      rwa [List.append_assoc, List.singleton_append] at hlast

/-- A check that fails stops at a token. -/
theorem exists_of_run_eq_error {us : List Token} (h : s.run us = .error e) :
    ∃ front t back mid, us = front ++ t :: back ∧ s.run front = .ok mid ∧
      mid.step t = .error e := by
  induction us generalizing s with
  | nil => exact absurd h (by simp [Balance.run])
  | cons t us ih =>
    rw [Balance.run] at h
    cases hstep : s.step t with
    | error other =>
      rw [hstep] at h
      obtain rfl := Except.error.inj h
      exact ⟨[], t, us, s, rfl, rfl, hstep⟩
    | ok next =>
      rw [hstep] at h
      obtain ⟨front, u, back, mid, rfl, hfront, hmid⟩ := ih h
      exact ⟨t :: front, u, back, mid, rfl, by rw [Balance.run, hstep]; exact hfront, hmid⟩

end Balance

/-! ## The token that an error blames -/

/-- What a fault says of the token `t`, which stands between `front` and `back` in its source. A
bracket that is unclosed is the innermost one that the check leaves open at the end. -/
def SyntaxFault.Blames (fault : SyntaxFault) (front : List Token) (t : Token)
    (back : List Token) : Prop :=
  match fault with
  | .unclosed bracket => t = .opener bracket ∧
      ∃ s, Balance.initial.run (front ++ t :: back) = .ok s ∧
        s.opened.head? = some ⟨bracket, .behind (front.flatMap Token.text)⟩
  | .unexpected bracket => t = .closer bracket ∧
      ∃ s, Balance.initial.run front = .ok s ∧ s.opened = []
  | .mismatched wanted found => t = .closer found ∧ wanted ≠ found ∧
      ∃ s, Balance.initial.run front = .ok s ∧ s.opened.head?.map OpenBracket.bracket = some wanted
  | .unterminatedComment => ∃ body, t = .openComment body
  | .missingName | .missingPath => ∃ line, t = .directive line
  | .other _ => False

/-- A token that is not in order is blamed by its fault. -/
theorem Balance.blames_of_check {s : Balance} {stop : Position} {t : Token} {fault : SyntaxFault}
    (hrun : initial.run ts = .ok s) (h : s.check stop t = .error fault) (back : List Token) :
    fault.Blames ts t back := by
  obtain ⟨body, rfl, rfl⟩ | ⟨bracket, rfl, hopened, rfl⟩ |
      ⟨innermost, outer, bracket, rfl, hopened, hne, rfl⟩ | ⟨line, rfl, hfault⟩ :=
    check_eq_error_cases h
  · exact ⟨body, rfl⟩
  · exact ⟨rfl, s, hrun, hopened⟩
  · exact ⟨rfl, hne, s, hrun, by rw [hopened]; rfl⟩
  · rcases Directive.eq_of_fault?_eq_some hfault with rfl | rfl <;> exact ⟨line, rfl⟩

/-- A bracket that is left open is blamed. -/
theorem Balance.exists_blamed_of_finish {s : Balance} {e : SyntaxError}
    (hrun : initial.run ts = .ok s) (h : s.finish = .error e) :
    ∃ front t back, ts = front ++ t :: back ∧ e.fault.Blames front t back ∧
      e.location.start = .behind (front.flatMap Token.text) ∧
      e.location.start.Before e.location.stop := by
  unfold finish at h
  split at h
  · exact absurd h (by simp)
  next bracket position outer hopened =>
    obtain rfl := Except.error.inj h
    -- The bracket stands where it was opened.
    obtain ⟨front, back, hts, hposition⟩ :=
      (follows_initial.run hrun).opened ⟨bracket, position⟩ (by rw [hopened]; simp)
    rw [List.nil_append] at hts
    refine ⟨front, .opener bracket, back, hts, ⟨rfl, s, hts ▸ hrun, ?_⟩, hposition, ?_⟩
    · rw [hopened, List.head?_cons, ← hposition]
    · exact .inr ⟨rfl, Nat.lt_succ_self _⟩

/-- Every error is located at a token that it blames, and ends behind its start. -/
theorem exists_blamed {source : String} {e : SyntaxError} (h : parseChunk source = .error e) :
    ∃ front t back, Token.tokens true source.toList = front ++ t :: back ∧
      e.fault.Blames front t back ∧ e.location.start = .behind (front.flatMap Token.text) ∧
      e.location.start.Before e.location.stop := by
  unfold parseChunk checkSource at h
  cases hrun : Balance.initial.run (Token.tokens true source.toList) with
  | ok s =>
    refine Balance.exists_blamed_of_finish hrun ?_
    rw [hrun, Except.bind] at h
    split at h
    next hfinish => rw [hfinish, Except.error.inj h]
    next => exact absurd h (by simp)
  | error other =>
    rw [hrun] at h
    obtain rfl : other = e := Except.error.inj h
    obtain ⟨front, t, back, mid, hts, hfront, hstep⟩ := Balance.exists_of_run_eq_error hrun
    obtain ⟨fault, hcheck, rfl⟩ := Balance.step_eq_error_iff.mp hstep
    have hposition := (Balance.follows_initial.run hfront).position
    refine ⟨front, t, back, hts, Balance.blames_of_check hfront hcheck back, hposition, ?_⟩
    rw [hposition, ← Position.advance_first, ← Position.advance_append, Position.advance_first,
      Position.advance_first]
    exact Position.before_behind _ t.text_ne_nil

/-! ## The character that an error blames -/

/-- What a fault says of the character `c` at which it is located, and of the text behind it. -/
def SyntaxFault.Shows (fault : SyntaxFault) (c : Char) (after : List Char) : Prop :=
  match fault with
  | .unclosed bracket => c = bracket.opener
  | .unexpected bracket | .mismatched _ bracket => c = bracket.closer
  | .unterminatedComment => c = '/' ∧ ∃ body, after = '*' :: body ∧ ¬ ['*', '/'] <:+: body
  | .missingName | .missingPath => c = '#'
  | .other _ => False

/-- A comment that does not end has no star before a slash in it. -/
theorem Token.not_infix_of_splitComment? {body : List Char} (h : splitComment? body = none) :
    ¬ ['*', '/'] <:+: body := by
  induction body with
  | nil => simp
  | cons c rest ih =>
    rw [splitComment?_cons] at h
    split at h
    · exact absurd h (by simp)
    next hstar =>
      rw [List.infix_cons_iff, not_or]
      refine ⟨fun hprefix => hstar ?_, ih (Option.map_eq_none_iff.mp h)⟩
      obtain ⟨hc, tail, htail⟩ := List.cons_prefix_cons.mp hprefix
      exact ⟨hc.symm, by rw [← htail]; rfl⟩

/-- A bracket is no line break. -/
theorem Bracket.opener_closer_ne (b : Bracket) :
    (b.opener ≠ '\n' ∧ b.opener ≠ '\r') ∧ b.closer ≠ '\n' ∧ b.closer ≠ '\r' := by
  cases b <;> decide

/-- The first character of a token that is blamed is the one that the fault speaks of, and no line
break. -/
theorem SyntaxFault.Blames.exists_shows {fault : SyntaxFault} {front back : List Token} {t : Token}
    (h : fault.Blames front t back) (hspelled : Token.Spelled true (front ++ t :: back) []) :
    ∃ c more, t.text = c :: more ∧ fault.Shows c (more ++ back.flatMap Token.text) ∧
      c ≠ '\n' ∧ c ≠ '\r' := by
  cases fault with
  | unclosed bracket =>
    obtain ⟨rfl, -⟩ := h
    exact ⟨_, _, rfl, rfl, (Bracket.opener_closer_ne bracket).1⟩
  | unexpected bracket =>
    obtain ⟨rfl, -⟩ := h
    exact ⟨_, _, rfl, rfl, (Bracket.opener_closer_ne bracket).2⟩
  | mismatched wanted found =>
    obtain ⟨rfl, -⟩ := h
    exact ⟨_, _, rfl, rfl, (Bracket.opener_closer_ne found).2⟩
  | unterminatedComment =>
    obtain ⟨body, rfl⟩ := h
    -- An open comment takes in all that follows it.
    have hleads := (Token.spelled_append_iff.mp hspelled).2.1
    obtain ⟨hsplit, hrest⟩ := (Token.leads_openComment_iff body).mp hleads
    rw [List.append_nil] at hrest
    refine ⟨'/', '*' :: body, rfl,
      ⟨rfl, body, ?_, Token.not_infix_of_splitComment? hsplit⟩, by decide⟩
    rw [hrest, List.append_nil]
  | missingName | missingPath =>
    obtain ⟨line, rfl⟩ := h
    exact ⟨'#', line, rfl, rfl, by decide⟩
  | other message => exact h.elim

/-- Every error points at its culprit. It is located at a character of the source, by line and
column, and ends behind its start. The character is the bracket that the message names, the slash of
a comment that does not end, or the `#` of a directive; it is the first one of a token of this kind,
and of an unclosed bracket it is the one that is left open. The excerpt of the error points at it. -/
theorem culprit_of_parseChunk {source : String} {e : SyntaxError} (h : parseChunk source = .error e)
    (file : Option Path) :
    ∃ before c after, source.toList = before ++ c :: after ∧
      e.location.start = .behind before ∧ e.location.start.Before e.location.stop ∧
      e.fault.Shows c after ∧
      (∃ front t back, Token.tokens true source.toList = front ++ t :: back ∧
        front.flatMap Token.text = before ∧ e.fault.Blames front t back) ∧
      ∃ excerpt, (Error.inSource e file source).excerpt? = some excerpt ∧
        Excerpt.PointsAt excerpt source e.location.start c := by
  obtain ⟨front, t, back, hts, hblames, hstart, hbefore⟩ := exists_blamed h
  have hspelled := Token.spelled_tokens true source.toList
  rw [hts] at hspelled
  obtain ⟨c, more, htext, hshows, hnewline, hreturn⟩ := hblames.exists_shows hspelled
  have hsource : source.toList =
      front.flatMap Token.text ++ c :: (more ++ back.flatMap Token.text) := by
    rw [← Token.text_tokens true source.toList, hts, List.flatMap_append, List.flatMap_cons, htext]
    rfl
  exact ⟨_, c, _, hsource, hstart, hbefore, hshows, ⟨front, t, back, hts, rfl, hblames⟩, _, rfl,
    Excerpt.pointsAt_render hsource hnewline hreturn hstart⟩

/-- A text in which a parenthesis is closed in one branch of a conditional and not in the other. -/
def reopenedSource : String :=
  "é( // )\r\n#ifdef A\n)\n#else\n/* ) */\n#endif\n"

/-- The parenthesis that the last branch leaves open is pointed at where it was opened. -/
theorem culprit_of_parseChunk_reopened :
    parseChunk reopenedSource = .error ⟨.unclosed .paren, ⟨⟨1, 2⟩, ⟨1, 3⟩⟩⟩ ∧
      ∃ before after, reopenedSource.toList = before ++ '(' :: after ∧
        .behind before = Position.mk 1 2 ∧
        ∃ excerpt, (Error.inSource ⟨.unclosed .paren, ⟨⟨1, 2⟩, ⟨1, 3⟩⟩⟩ none
            reopenedSource).excerpt? = some excerpt ∧
          Excerpt.PointsAt excerpt reopenedSource ⟨1, 2⟩ '(' := by
  have hparse : parseChunk reopenedSource = .error ⟨.unclosed .paren, ⟨⟨1, 2⟩, ⟨1, 3⟩⟩⟩ := by
    decide +kernel
  obtain ⟨before, c, after, hsource, hstart, -, hc, -, hexcerpt⟩ :=
    culprit_of_parseChunk hparse none
  obtain rfl : c = '(' := hc
  exact ⟨hparse, before, after, hsource, hstart.symm, hexcerpt⟩

/-- A report that is written is the report with the excerpt, and it is written exactly if the
excerpt can be handed out. -/
theorem Error.inSource?_eq_some_iff {e : SyntaxError} {file : Option Path} {source : String}
    {report : Error} : inSource? e file source = some report ↔
      report = inSource e file source ∧
        Excerpt.endLine (Text.pieces '\n' source.toList).length e.location + excerptContext ≤
          UInt64.size ∧
        (Excerpt.render source e.location excerptContext).utf8ByteSize < Excerpt.sizeLimit := by
  rw [inSource?, Excerpt.render?_eq_ite]
  split
  next hwritten => simp [inSource, hwritten, eq_comm]
  next hrefused => simp [hrefused]

end ShaderTemplate
