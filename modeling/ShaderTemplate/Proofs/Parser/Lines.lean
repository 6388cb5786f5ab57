import ShaderTemplate.Proofs.Parser.LineEndings
import ShaderTemplate.Proofs.Source.Location

/-!
# Texts below each other

A text that is put below another one on a new line is read there as it is read alone, only further
down: its directives are the same, and its first fault is the same, with a line number that counts
the lines above. All that the text above has to do for this is to be in order, to close its
conditionals, and not to continue its last line.

The line feed between the two texts is a token of its own, since nothing that is read of the text
above goes on behind it (`Token.tokens_append_newline`). Behind it the check starts as it does at
the first line: no bracket is open, and none is kept for another branch. From there on every step of
it is the same, further down (`Balance.run_down`).

Main statements:

- `Token.tokens_append_newline`: the tokens of a text below another one;
- `Balance.run_down`: the check of the same tokens further down;
- `parseChunk_append_line`: a text is read below another one as it is read alone.
-/

namespace ShaderTemplate

/-! ## Further down in a source -/

/-- The position in the same column, some lines further down. -/
def Position.down (lines : Nat) (p : Position) : Position :=
  { p with line := p.line + lines }

/-- The span in the same columns, some lines further down. -/
def Span.down (lines : Nat) (span : Span) : Span :=
  ⟨span.start.down lines, span.stop.down lines⟩

/-- The directive some lines further down. -/
def Directive.down (lines : Nat) (d : Directive) : Directive :=
  { d with location := d.location.down lines }

/-- The error some lines further down. -/
def SyntaxError.down (lines : Nat) (e : SyntaxError) : SyntaxError :=
  { e with location := e.location.down lines }

/-- The open bracket some lines further down. -/
def OpenBracket.down (lines : Nat) (b : OpenBracket) : OpenBracket :=
  { b with position := b.position.down lines }

namespace Position

/-- A character leads to the same column further down. -/
theorem next_down (lines : Nat) (p : Position) (c : Char) :
    (p.down lines).next c = (p.next c).down lines := by
  unfold next
  split
  · simp [down, Nat.add_right_comm]
  · rfl

/-- A text leads to the same column further down. -/
theorem advance_down (lines : Nat) (p : Position) (text : List Char) :
    (p.down lines).advance text = (p.advance text).down lines := by
  induction text generalizing p with
  | nil => rfl
  | cons c text ih => rw [advance_cons, advance_cons, next_down, ih]

/-- Behind a line feed the first column starts again. -/
theorem behind_newline (text : List Char) :
    behind (text ++ ['\n']) = first.down (text.count '\n' + 1) := by
  rw [behind_concat, next, if_pos rfl]
  simp [behind, first, down, Nat.add_comm]

end Position

/-- The directives of the same tokens are the same further down. -/
theorem Token.directives_down (lines : Nat) (p : Position) (ts : List Token) :
    directives (p.down lines) ts = (directives p ts).map (Directive.down lines) := by
  have head : ∀ (t : Token) (p : Position), t.directive? (p.down lines) =
      (t.directive? p).map (Directive.down lines) := by
    intro t p
    cases t with
    | directive line => rw [directive?, Position.advance_down]; rfl
    | _ => rfl
  induction ts generalizing p with
  | nil => rfl
  | cons t ts ih =>
    rw [directives, head, Position.advance_down, ih, directives, List.map_append]
    cases t.directive? p <;> rfl

/-- The directives of two lists of tokens are those of the first and then those of the second, behind
the text of the first. -/
theorem Token.directives_append (p : Position) (ts us : List Token) :
    directives p (ts ++ us) = directives p ts ++ directives (p.advance (ts.flatMap text)) us := by
  induction ts generalizing p with
  | nil => rfl
  | cons t ts ih =>
    rw [List.cons_append, directives, ih, directives, List.append_assoc, List.flatMap_cons,
      Position.advance_append]

namespace Balance

variable {s last : Balance}

/-- The state of the check some lines further down. -/
def down (lines : Nat) (s : Balance) : Balance where
  position := s.position.down lines
  opened := s.opened.map (OpenBracket.down lines)
  conditionals := s.conditionals.map (List.map (OpenBracket.down lines))

/-- A directive is followed in the same way further down. -/
theorem follow_down (lines : Nat) (s : Balance) (d : Directive) :
    (s.down lines).follow (d.down lines) = (s.follow d).down lines := by
  have hname : (d.down lines).name = d.name := rfl
  unfold follow
  rw [hname]
  cases ConditionalPart.ofName? d.name with
  | none => rfl
  | some part =>
    cases part with
    | begins => rfl
    | branches => cases hsaved : s.conditionals <;> simp [down, hsaved]
    | ends => simp [down]

/-- A bracket is closed in the same way further down. -/
theorem close_down (lines : Nat) (s : Balance) (bracket : Bracket) :
    (s.down lines).close bracket = (s.close bracket).map (down lines) := by
  unfold close
  cases hopened : s.opened with
  | nil => simp [down, hopened, Except.map]
  | cons innermost outer =>
    by_cases h : innermost.bracket = bracket <;>
      simp [down, hopened, OpenBracket.down, h, Except.map]

/-- A token is checked in the same way further down. -/
theorem check_down (lines : Nat) (s : Balance) (stop : Position) (t : Token) :
    (s.down lines).check (stop.down lines) t = (s.check stop t).map (down lines) := by
  cases t with
  | closer bracket => exact close_down lines s bracket
  | directive line =>
    -- Where a directive stands has no part in its fault.
    have fault : ∀ location, (DirectiveLine.read line location).fault? =
        (DirectiveLine.read line default).fault? := fun _ => rfl
    simp only [check, fault]
    cases (DirectiveLine.read line default).fault? with
    | some _ => rfl
    | none =>
      exact congrArg Except.ok (follow_down lines s (DirectiveLine.read line ⟨s.position, stop⟩))
  | _ => rfl

/-- A token is stepped over in the same way further down. -/
theorem step_down (lines : Nat) (s : Balance) (t : Token) :
    (s.down lines).step t =
      ((s.step t).map (down lines)).mapError (SyntaxError.down lines) := by
  have hstop : (s.down lines).position.advance t.text =
      (s.position.advance t.text).down lines := Position.advance_down _ _ _
  rw [step, step, hstop, check_down]
  cases s.check (s.position.advance t.text) t <;> rfl

/-- The same tokens are checked in the same way further down. -/
theorem run_down (lines : Nat) (s : Balance) (ts : List Token) :
    (s.down lines).run ts = ((s.run ts).map (down lines)).mapError (SyntaxError.down lines) := by
  induction ts generalizing s with
  | nil => rfl
  | cons t ts ih =>
    rw [run, run, step_down]
    cases s.step t with
    | error e => rfl
    | ok next => exact ih next

/-- A bracket that is left open is named in the same way further down. -/
theorem finish_down (lines : Nat) (s : Balance) :
    (s.down lines).finish = s.finish.mapError (SyntaxError.down lines) := by
  unfold finish
  cases hopened : s.opened with
  | nil => simp [down, hopened, Except.mapError]
  | cons innermost outer =>
    simp [down, hopened, Except.mapError, SyntaxError.down, OpenBracket.down, Span.down,
      Position.down]

end Balance

/-! ## Behind the last line -/

/-- The number of open conditionals behind a directive, `depth` of them being open before it.
Outside all conditionals there is none to end. -/
def Directive.depthBehind (depth : Nat) (d : Directive) : Nat :=
  match ConditionalPart.ofName? d.name with
  | some .begins => depth + 1
  | some .ends => depth - 1
  | some .branches | none => depth

/-- Every conditional that begins among some directives ends among them. -/
def Directive.ConditionalsEnd (ds : List Directive) : Prop :=
  ds.foldl depthBehind 0 = 0

instance (ds : List Directive) : Decidable (Directive.ConditionalsEnd ds) :=
  inferInstanceAs (Decidable (_ = _))

namespace Balance

variable {s last : Balance}

/-- A directive changes the number of open conditionals by its part in one. -/
theorem length_conditionals_follow (s : Balance) (d : Directive) :
    (s.follow d).conditionals.length = d.depthBehind s.conditionals.length := by
  unfold follow Directive.depthBehind
  cases ConditionalPart.ofName? d.name with
  | none => rfl
  | some part => cases part <;> simp

/-- A step leads behind its token, and changes the number of open conditionals by the directive of
the token. -/
theorem behind_of_step {t : Token} (h : s.step t = .ok last) :
    last.position = s.position.advance t.text ∧
      last.conditionals.length =
        (t.directive? s.position).toList.foldl Directive.depthBehind s.conditionals.length := by
  obtain ⟨next, hcheck, rfl⟩ := step_eq_ok_iff.mp h
  refine ⟨rfl, ?_⟩
  obtain ⟨bracket, rfl, rfl⟩ | ⟨innermost, outer, rfl, -, rfl⟩ | ⟨line, rfl, rfl⟩ | ⟨hne, rfl⟩ :=
    check_eq_ok_cases hcheck
  · rfl
  · rfl
  · exact length_conditionals_follow s _
  · rw [Token.directive?_of_ne hne]
    rfl

/-- A run leads behind its tokens, and leaves as many conditionals open as their directives do. -/
theorem behind_of_run {ts : List Token} (h : s.run ts = .ok last) :
    last.position = s.position.advance (ts.flatMap Token.text) ∧
      last.conditionals.length =
        (Token.directives s.position ts).foldl Directive.depthBehind s.conditionals.length := by
  induction ts generalizing s with
  | nil =>
    obtain rfl := Except.ok.inj h
    exact ⟨rfl, rfl⟩
  | cons t ts ih =>
    rw [run] at h
    cases hstep : s.step t with
    | error e => simp [hstep] at h
    | ok next =>
      rw [hstep] at h
      obtain ⟨hposition, hdepth⟩ := behind_of_step hstep
      obtain ⟨hlast, hlength⟩ := ih h
      rw [hlast, hlength, hposition, hdepth, List.flatMap_cons, Position.advance_append,
        Token.directives, List.foldl_append]
      exact ⟨rfl, rfl⟩

/-- Behind a text that is in order and closes its conditionals, the check is as before the first line,
but for the position. -/
theorem run_of_conditionalsEnd {source : String} {t : Tree} (h : parseChunk source = .ok t)
    (hend : Directive.ConditionalsEnd t.directives) :
    initial.run (Token.tokens true source.toList) = .ok ⟨.behind source.toList, [], []⟩ := by
  unfold parseChunk checkSource at h
  cases hrun : initial.run (Token.tokens true source.toList) with
  | error e => simp [hrun, Except.bind] at h
  | ok s =>
    rw [hrun, Except.bind] at h
    obtain ⟨hposition, hlength⟩ := behind_of_run hrun
    split at h
    · exact absurd h (by simp)
    next hfinish =>
      obtain rfl := Except.ok.inj h
      have hopened : s.opened = [] := by
        unfold finish at hfinish
        split at hfinish
        next hnil => exact hnil
        next => exact absurd hfinish (by simp)
      rw [Directive.ConditionalsEnd, Region.directives_tree] at hend
      have hconditionals : s.conditionals = [] :=
        List.eq_nil_of_length_eq_zero (hlength.trans hend)
      have hbehind : s.position = .behind source.toList := by
        rw [hposition, Token.text_tokens]
        exact Position.advance_first _
      cases s
      simp_all

end Balance

namespace Token

/-- Tokens that are spelled at the end of a text are spelled in front of what stops the last one. -/
theorem spelled_of_stops {fresh : Bool} {ts : List Token} {rest : List Char}
    (h : Spelled fresh ts []) (hstops : ∀ t, ts.getLast? = some t → t.Stops rest.head?) :
    Spelled fresh ts rest := by
  induction ts generalizing fresh with
  | nil => trivial
  | cons t ts ih =>
    obtain ⟨hleads, hrest⟩ := h
    rw [List.append_nil] at hleads
    cases ts with
    | nil => exact ⟨(leads_iff _ _ _).mpr ⟨hleads, hstops t rfl⟩, trivial⟩
    | cons next ts =>
      refine ⟨hleads.congr ?_, ih hrest fun last hlast => hstops last ?_⟩
      · obtain ⟨c, more, hnext⟩ := List.exists_cons_of_ne_nil next.text_ne_nil
        rw [List.flatMap_cons, hnext]
        rfl
      · rwa [List.getLast?_cons_cons]

/-- A line feed stops every token but an open comment and a directive line that is continued. -/
theorem stops_newline {t : Token} (hopen : ∀ body, t ≠ .openComment body)
    (hend : t.text.getLast? ≠ some '\\') : t.Stops (some '\n') := by
  cases t with
  | lineComment body => exact .inr rfl
  | openComment body => exact absurd rfl (hopen body)
  | directive line =>
    refine .inr ⟨rfl, fun hline => hend ?_⟩
    rw [text, List.getLast?_cons, hline, Option.getD_some]
  | other c => exact fun _ => by simp
  | _ => trivial

/-- A text is cut below another one as it is cut alone, if the text above does not end in an open
comment or a backslash. -/
theorem tokens_append_newline {above : List Char} (below : List Char)
    (hopen : ∀ body, .openComment body ∉ tokens true above) (hend : above.getLast? ≠ some '\\') :
    tokens true (above ++ '\n' :: below) = tokens true above ++ newline :: tokens true below := by
  have hspelled : Spelled true (tokens true above) ('\n' :: below) := by
    refine spelled_of_stops (spelled_tokens true above) fun t ht => ?_
    obtain ⟨front, hfront⟩ := List.getLast?_eq_some_iff.mp ht
    refine stops_newline (fun body ht => hopen body ?_) fun htext => hend ?_
    · rw [hfront, ht]
      exact List.mem_append_right _ List.mem_cons_self
    · rw [← text_tokens true above, hfront, List.flatMap_append, List.flatMap_singleton,
        List.getLast?_append, htext, Option.some_or]
  have hcut := tokens_append_of_spelled hspelled
  rw [text_tokens] at hcut
  rw [hcut]
  exact congrArg _ (tokens_of_leads (leads_newline _ below))

end Token

/-- Below a text that is in order and closes its conditionals the check is as at the first line, only
further down. -/
theorem checkSource_append_newline {above : List Char} (below : List Char)
    (hrun : Balance.initial.run (Token.tokens true above) = .ok ⟨.behind above, [], []⟩)
    (hcut : Token.tokens true (above ++ '\n' :: below) =
      Token.tokens true above ++ .newline :: Token.tokens true below) :
    checkSource (above ++ '\n' :: below) =
      (checkSource below).mapError (SyntaxError.down (above.count '\n' + 1)) := by
  have hnewline : Balance.step ⟨.behind above, [], []⟩ .newline =
      .ok (Balance.initial.down (above.count '\n' + 1)) := by
    rw [Balance.step_eq_ok_iff]
    refine ⟨_, rfl, ?_⟩
    have hposition := Position.behind_newline above
    rw [Position.behind_concat] at hposition
    simp [Balance.down, Balance.initial, Token.text, hposition]
  rw [checkSource, hcut, Balance.run_append, hrun]
  simp only [Except.bind, Balance.run, hnewline]
  rw [Balance.run_down, checkSource]
  cases Balance.initial.run (Token.tokens true below) with
  | error e => rfl
  | ok s => exact Balance.finish_down _ s

/-- A text is read below another one as it is read alone, only further down, if the text above is in
order, closes its conditionals and does not end in a backslash. -/
theorem parseChunk_append_line {above : String} {t : Tree} (h : parseChunk above = .ok t)
    (hconditionals : Directive.ConditionalsEnd t.directives)
    (hend : above.toList.getLast? ≠ some '\\') (below : String) :
    match parseChunk below with
    | .ok u => ∃ v, parseChunk (above ++ "\n" ++ below) = .ok v ∧
        v.directives =
          t.directives ++ u.directives.map (Directive.down (above.toList.count '\n' + 1))
    | .error e => parseChunk (above ++ "\n" ++ below) =
        .error (e.down (above.toList.count '\n' + 1)) := by
  have hsource : (above ++ "\n" ++ below).toList = above.toList ++ '\n' :: below.toList := by
    simp
  obtain ⟨⟨n, hnesting, -⟩, htree⟩ := parseChunk_eq_ok_iff.mp h
  have hcut := Token.tokens_append_newline below.toList
    (Nesting.openComment_notMem_of_run? hnesting) hend
  have hrun := Balance.run_of_conditionalsEnd h hconditionals
  have hcheck := checkSource_append_newline below.toList hrun hcut
  rw [← hsource] at hcheck hcut
  have hposition : (Position.first.advance above.toList).advance ['\n'] =
      Position.first.down (above.toList.count '\n' + 1) := by
    rw [← Position.advance_append, Position.advance_first, Position.behind_newline]
  simp only [parseChunk, hcheck]
  cases checkSource below.toList with
  | error e => rfl
  | ok _ =>
    refine ⟨_, rfl, ?_⟩
    rw [htree, Region.directives_tree, Region.directives_tree, Region.directives_tree, hcut,
      Token.directives_append, Token.text_tokens, ← Token.directives_down, ← hposition]
    rfl

/-- A text that opens a bracket in both branches of a conditional, and ends in a comment. -/
def bracketSource : String :=
  "#ifdef A\n(\n#else\n(\n#endif\n) // b"

/-- Below six lines an include directive is read, and a bracket that closes nothing is found. -/
theorem parseChunk_append_line_bracket :
    (∃ t, parseChunk bracketSource = .ok t ∧ Directive.ConditionalsEnd t.directives ∧
      bracketSource.toList.getLast? ≠ some '\\') ∧
    (∃ v, parseChunk (bracketSource ++ "\n" ++ "\n #include c") = .ok v ∧
      v.directives.map (fun d => (d.name, d.value, d.location.start)) =
        [("ifdef", "A", ⟨1, 1⟩), ("else", "", ⟨3, 1⟩), ("endif", "", ⟨5, 1⟩),
          ("include", "c", ⟨8, 2⟩)]) ∧
    parseChunk (bracketSource ++ "\n" ++ "\x7b\n]") =
      .error ⟨.mismatched .brace .square, ⟨⟨8, 1⟩, ⟨8, 2⟩⟩⟩ := by
  have habove : (parseChunk bracketSource).toOption.map Tree.directives =
      some [⟨"ifdef", "A", "#ifdef A", ⟨⟨1, 1⟩, ⟨1, 9⟩⟩⟩, ⟨"else", "", "#else", ⟨⟨3, 1⟩, ⟨3, 6⟩⟩⟩,
        ⟨"endif", "", "#endif", ⟨⟨5, 1⟩, ⟨5, 7⟩⟩⟩] := by decide +kernel
  have hbelow : (parseChunk "\n #include c").toOption.map Tree.directives =
      some [⟨"include", "c", "#include c", ⟨⟨2, 2⟩, ⟨2, 12⟩⟩⟩] := by decide +kernel
  have hfault : parseChunk "\x7b\n]" = .error ⟨.mismatched .brace .square, ⟨⟨2, 1⟩, ⟨2, 2⟩⟩⟩ := by
    decide +kernel
  obtain ⟨t, ht, hdirectives⟩ := exists_tree_of_eq habove
  obtain ⟨u, hu, hincludes⟩ := exists_tree_of_eq hbelow
  have hconditionals : Directive.ConditionalsEnd t.directives := by
    rw [hdirectives]
    decide
  have hend : bracketSource.toList.getLast? ≠ some '\\' := by decide +kernel
  have hlines : bracketSource.toList.count '\n' + 1 = 6 := by decide +kernel
  have hread := parseChunk_append_line ht hconditionals hend
  rw [hlines] at hread
  refine ⟨⟨t, ht, hconditionals, hend⟩, ?_, ?_⟩
  · have hok := hread "\n #include c"
    rw [hu] at hok
    obtain ⟨v, hv, hall⟩ := hok
    refine ⟨v, hv, ?_⟩
    rw [hall, hdirectives, hincludes]
    decide
  · have herror := hread "\x7b\n]"
    rw [hfault] at herror
    exact herror

end ShaderTemplate
