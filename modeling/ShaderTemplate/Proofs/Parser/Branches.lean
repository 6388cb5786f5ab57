import ShaderTemplate.Proofs.Parser.Nesting

/-!
# Brackets in the branches of conditionals

The check of a source goes over it once, with a stack of open brackets and a stack of such stacks
for the conditionals. What it accepts can be told without them. In front of a place of the source,
keep of every conditional the branch that came last: of a conditional that is open there this is the
branch that the place stands in, and of one that is closed it is its last branch. A source is in
order if at every closing bracket the innermost bracket left open by what is kept in front of it is
of the same kind, and if what is kept of the whole source leaves no bracket open
(`parseChunk_isOk_iff`).

A branch is given up when a further branch of its conditional begins. What is kept then is what was
kept in front of the conditional (`kept_branch`), and this is what the check has saved for it
(`Conditionals`, `stateOf`).

Main statements:

- `kept_branch`: what is kept when a branch begins;
- `step?_stateOf`: what the check of one token makes of what is kept in front of it;
- `parseChunk_isOk_iff`: which sources the check accepts.
-/

namespace ShaderTemplate

/-- A directive line has a name, unless it is empty, and names a path if it asks for a file. -/
def DirectiveLine.WellFormed (line : List Char) : Prop :=
  (name line = [] → value line = []) ∧ (String.ofList (name line) = "include" → value line ≠ [])

instance (line : List Char) : Decidable (DirectiveLine.WellFormed line) :=
  inferInstanceAs (Decidable (_ ∧ _))

/-- Well-formed directive lines are those without a fault. -/
theorem DirectiveLine.wellFormed_iff (line : List Char) :
    WellFormed line ↔ (read line default).fault? = none := by
  have empty_iff : ∀ text : List Char, String.ofList text = "" ↔ text = [] := by
    intro text
    rw [← String.toList_inj, String.toList_ofList]
    rfl
  simp only [WellFormed, Directive.fault?, read, Directive.isInclude, beq_iff_eq, empty_iff, ne_eq]
  grind

namespace Token

/-- The token is in order on its own: it is neither a comment that does not end nor a directive line
that is not well formed. -/
def IsComplete : Token → Prop
  | .openComment _ => False
  | .directive line => DirectiveLine.WellFormed line
  | _ => True

instance (t : Token) : Decidable t.IsComplete :=
  match t with
  | .openComment _ => instDecidableFalse
  | .directive line => inferInstanceAs (Decidable (DirectiveLine.WellFormed line))
  | .lineComment _ | .blockComment _ | .newline | .blank _ | .opener _ | .closer _ | .other _ =>
    instDecidableTrue

/-! ## What is kept of a text -/

/-- Decide whether a conditional around the place in front of some tokens goes on with a further
branch among them. Of the conditionals that began behind the place `inner` are open. -/
def branchesBehind (inner : Nat) : List Token → Bool
  | [] => false
  | t :: later =>
    match t.part? with
    | some .begins => branchesBehind (inner + 1) later
    | some .branches => inner == 0 || branchesBehind inner later
    | some .ends => branchesBehind (inner - 1) later
    | none => branchesBehind inner later

/-- Keep of every conditional in a text the branch that comes last: drop every token behind which a
conditional around it goes on with a further branch. -/
def kept : List Token → List Token
  | [] => []
  | t :: later => if branchesBehind 0 later then kept later else t :: kept later

/-- The brackets that a text leaves open, innermost first; a closing bracket closes the innermost
one that is open. -/
def unclosed (ts : List Token) : List Bracket :=
  ts.foldl (fun opened t =>
    match t with
    | .opener bracket => bracket :: opened
    | .closer _ => opened.tail
    | _ => opened) []

/-- A further token opens or closes one bracket, or none. -/
theorem unclosed_concat (ts : List Token) (t : Token) : unclosed (ts ++ [t]) =
    match t with
    | .opener bracket => bracket :: unclosed ts
    | .closer _ => (unclosed ts).tail
    | _ => unclosed ts := by
  rw [unclosed, List.foldl_append]
  cases t <;> rfl

/-- A directive opens and closes no bracket. -/
theorem unclosed_concat_directive (ts : List Token) (line : List Char) :
    unclosed (ts ++ [directive line]) = unclosed ts :=
  unclosed_concat ts (directive line)

variable {t begin branch : Token} {front middle later : List Token} {inner depth last : Nat}

/-- Tokens that branch no conditional around them do not count. -/
theorem branchesBehind_append (h : ∀ inner, branchesBehind inner later = false) (inner : Nat)
    (front : List Token) :
    branchesBehind inner (front ++ later) = branchesBehind inner front := by
  induction front generalizing inner with
  | nil => exact h inner
  | cons t front ih => simp only [List.cons_append, branchesBehind, ih]

/-- Tokens that branch no conditional around them do not change what is kept in front of them. -/
theorem kept_append (h : ∀ inner, branchesBehind inner later = false) (front : List Token) :
    kept (front ++ later) = kept front ++ kept later := by
  induction front with
  | nil => rfl
  | cons t front ih =>
    rw [List.cons_append, kept, kept, branchesBehind_append h, ih]
    split <;> rfl

/-- A token that begins no branch is kept, and so is what was kept in front of it. -/
theorem kept_concat (h : t.part? ≠ some .branches) (front : List Token) :
    kept (front ++ [t]) = kept front ++ [t] := by
  refine kept_append (fun inner => ?_) front
  unfold branchesBehind
  split <;> simp_all [branchesBehind]

/-! ## Conditionals that are open -/

/-- The number of conditionals that are open after a token inside a branch, of those that began in
it; `depth` of these are open before. The conditional of the branch may branch again, but it does
not end. -/
def innerStep? (part? : Option ConditionalPart) (depth : Nat) : Option Nat :=
  match part? with
  | none => some depth
  | some .begins => some (depth + 1)
  | some .branches => some depth
  | some .ends => if depth = 0 then none else some (depth - 1)

/-- The number of conditionals that are open after some tokens inside a branch, of those that began
in it. -/
def innerAfter? : Nat → List Token → Option Nat
  | depth, [] => some depth
  | depth, t :: ts => (innerStep? t.part? depth).bind fun depth => innerAfter? depth ts

theorem innerAfter?_append (depth : Nat) (front later : List Token) :
    innerAfter? depth (front ++ later) =
      (innerAfter? depth front).bind fun depth => innerAfter? depth later := by
  induction front generalizing depth with
  | nil => rfl
  | cons t front ih =>
    rw [List.cons_append, innerAfter?, innerAfter?, Option.bind_assoc]
    exact congrArg _ (funext fun depth => ih depth)

/-- Inside further conditionals the same ones are open. -/
theorem innerAfter?_add (h : innerAfter? depth front = some last) (more : Nat) :
    innerAfter? (depth + more) front = some (last + more) := by
  induction front generalizing depth with
  | nil =>
    obtain rfl := Option.some.inj h
    rfl
  | cons t front ih =>
    obtain ⟨next, hstep, hrest⟩ := Option.bind_eq_some_iff.mp h
    have step : innerStep? t.part? (depth + more) = some (next + more) := by
      unfold innerStep? at hstep ⊢
      split at hstep <;> grind
    rw [innerAfter?, step, Option.bind_some]
    exact ih hrest

/-- What stands inside a branch does not branch the conditionals around it. -/
theorem branchesBehind_of_innerAfter? (h : innerAfter? depth middle = some last) (inner : Nat)
    (later : List Token) : branchesBehind (inner + 1 + depth) (middle ++ later) =
      branchesBehind (inner + 1 + last) later := by
  induction middle generalizing depth with
  | nil =>
    obtain rfl := Option.some.inj h
    rfl
  | cons t middle ih =>
    obtain ⟨next, hstep, hrest⟩ := Option.bind_eq_some_iff.mp h
    rw [← ih hrest, List.cons_append, branchesBehind]
    unfold innerStep? at hstep
    split at hstep <;> grind

/-- A branch that begins at the end is one of a conditional around every place inside the branch
before. -/
theorem branchesBehind_concat_branch (hbranch : branch.part? = some .branches)
    (h : innerAfter? depth middle = some 0) (hinner : inner ≤ depth) :
    branchesBehind inner (middle ++ [branch]) = true := by
  induction middle generalizing depth inner with
  | nil =>
    obtain rfl := Option.some.inj h
    obtain rfl := Nat.le_zero.mp hinner
    simp [branchesBehind, hbranch]
  | cons t middle ih =>
    obtain ⟨next, hstep, hrest⟩ := Option.bind_eq_some_iff.mp h
    rw [List.cons_append, branchesBehind]
    cases hpart : t.part? with
    | none =>
      obtain rfl : depth = next := by simpa [innerStep?, hpart] using hstep
      exact ih hrest hinner
    | some part =>
      cases part with
      | begins =>
        obtain rfl : depth + 1 = next := by simpa [innerStep?, hpart] using hstep
        exact ih hrest (Nat.succ_le_succ hinner)
      | branches =>
        obtain rfl : depth = next := by simpa [innerStep?, hpart] using hstep
        simp [ih hrest hinner]
      | ends =>
        obtain ⟨-, rfl⟩ : depth ≠ 0 ∧ depth - 1 = next := by simpa [innerStep?, hpart] using hstep
        exact ih hrest (Nat.sub_le_sub_right hinner 1)

/-- Nothing inside a branch is kept when the next branch begins. -/
theorem kept_concat_branch (hbranch : branch.part? = some .branches)
    (h : innerAfter? depth middle = some 0) : kept (middle ++ [branch]) = [branch] := by
  induction middle generalizing depth with
  | nil => rfl
  | cons t middle ih =>
    obtain ⟨next, -, hrest⟩ := Option.bind_eq_some_iff.mp h
    rw [List.cons_append, kept, if_pos (branchesBehind_concat_branch hbranch hrest (Nat.zero_le _)),
      ih hrest]

/-- When a conditional branches, there is kept what is kept in front of the conditional. -/
theorem kept_branch (hbegin : begin.part? = some .begins) (hbranch : branch.part? = some .branches)
    (h : innerAfter? 0 middle = some 0) (front : List Token) :
    kept (front ++ begin :: middle ++ [branch]) = kept front ++ [branch] := by
  -- For the places in front of the conditional the branch is one of an inner conditional.
  have outside : ∀ inner, branchesBehind inner (begin :: (middle ++ [branch])) = false := by
    intro inner
    simp only [branchesBehind, hbegin]
    have hmiddle := branchesBehind_of_innerAfter? h inner [branch]
    simp only [Nat.add_zero] at hmiddle
    rw [hmiddle]
    simp [branchesBehind, hbranch]
  have hbehind := branchesBehind_concat_branch hbranch h (Nat.le_refl 0)
  rw [List.append_assoc, List.cons_append, kept_append outside, kept, if_pos hbehind,
    kept_concat_branch hbranch h]

/-- The conditionals that are open behind a text, told by the text in front of each of them,
innermost first. -/
inductive Conditionals : List Token → List (List Token) → Prop
  /-- Every conditional of the text is closed. -/
  | outside {front : List Token} (h : innerAfter? 0 front = some 0) : Conditionals front []
  /-- A conditional begins behind `front`, and those that began in it are closed. -/
  | inside {front middle : List Token} {fronts : List (List Token)} {begin : Token}
      (hfront : Conditionals front fronts) (hbegin : begin.part? = some .begins)
      (h : innerAfter? 0 middle = some 0) :
      Conditionals (front ++ begin :: middle) (front :: fronts)

namespace Conditionals

variable {fronts : List (List Token)}

/-- A token that neither begins nor ends a conditional leaves the same ones open. -/
theorem concat (h : Conditionals front fronts)
    (ht : t.part? = none ∨ t.part? = some .branches) : Conditionals (front ++ [t]) fronts := by
  have step : ∀ ts, innerAfter? 0 ts = some 0 → innerAfter? 0 (ts ++ [t]) = some 0 := by
    intro ts hts
    rw [innerAfter?_append, hts, Option.bind_some]
    rcases ht with ht | ht <;> simp [innerAfter?, innerStep?, ht]
  cases h with
  | outside h => exact .outside (step _ h)
  | @inside front middle _ begin hfront hbegin h =>
    rw [List.append_assoc, List.cons_append]
    exact .inside hfront hbegin (step _ h)

/-- A conditional begins. -/
theorem concat_begins (h : Conditionals front fronts) (ht : t.part? = some .begins) :
    Conditionals (front ++ [t]) (front :: fronts) :=
  .inside h ht rfl

/-- The innermost conditional ends. -/
theorem concat_ends {before : List Token} (h : Conditionals front (before :: fronts))
    (ht : t.part? = some .ends) : Conditionals (front ++ [t]) fronts := by
  cases h with
  | @inside _ middle _ begin hbefore hbegin h =>
    -- All of the conditional stands inside the branch around it.
    have whole : innerAfter? 0 (begin :: middle ++ [t]) = some 0 := by
      have hmiddle := innerAfter?_add h 1
      simp only [Nat.zero_add] at hmiddle
      rw [List.cons_append, innerAfter?, hbegin, innerStep?, Option.bind_some, innerAfter?_append,
        hmiddle]
      simp [innerAfter?, innerStep?, ht]
    have step : ∀ ts, innerAfter? 0 ts = some 0 →
        innerAfter? 0 (ts ++ (begin :: middle ++ [t])) = some 0 := by
      intro ts hts
      rw [innerAfter?_append, hts, Option.bind_some, whole]
    rw [List.append_assoc]
    cases hbefore with
    | outside h => exact .outside (step _ h)
    | @inside outer between _ first houter hfirst h =>
      rw [List.append_assoc, List.cons_append]
      exact .inside houter hfirst (step _ h)

/-- When the innermost conditional branches, there is kept what is kept in front of it. -/
theorem kept_concat {before : List Token} (h : Conditionals front (before :: fronts))
    (ht : t.part? = some .branches) : kept (front ++ [t]) = kept before ++ [t] := by
  cases h with
  | inside _ hbegin h => exact kept_branch hbegin ht h before

end Conditionals

/-! ## The check of a text -/

/-- The state of the check behind a text, told by what is kept: the brackets that are open there,
and those that were open in front of each open conditional. -/
def stateOf (front : List Token) (fronts : List (List Token)) : Nesting where
  opened := unclosed (kept front)
  saved := fronts.map fun before => unclosed (kept before)

/-- If the token is a closing bracket, it closes the innermost bracket left open by what is kept in
front of it. -/
def Closes (front : List Token) (t : Token) : Prop :=
  ∀ bracket, t = .closer bracket → (unclosed (kept front)).head? = some bracket

variable {fronts : List (List Token)}

/-- The check follows a directive to what is kept behind it. -/
theorem follow_stateOf {line : List Char} (h : Conditionals front fronts)
    (hdepth : ConditionalPart.depthAfter? (directive line).part? fronts.length = some depth) :
    ∃ next, Conditionals (front ++ [directive line]) next ∧ next.length = depth ∧
      (stateOf front fronts).follow (directive line).part? =
        stateOf (front ++ [directive line]) next := by
  cases hpart : (directive line).part? with
  | none =>
    rw [hpart] at hdepth
    refine ⟨fronts, h.concat (.inl hpart), Option.some.inj hdepth, ?_⟩
    rw [stateOf, stateOf, kept_concat (by simp [hpart]), unclosed_concat_directive]
    rfl
  | some part =>
    rw [hpart] at hdepth
    cases part with
    | begins =>
      -- What is kept in front of the directive is what the check saves for the conditional.
      refine ⟨front :: fronts, h.concat_begins hpart, Option.some.inj hdepth, ?_⟩
      rw [stateOf, stateOf, kept_concat (by simp [hpart]), unclosed_concat_directive]
      rfl
    | branches =>
      cases fronts with
      | nil => exact absurd hdepth (by simp [ConditionalPart.depthAfter?])
      | cons before fronts =>
        -- The check goes back to what it saved, and the branch before is given up.
        refine ⟨before :: fronts, h.concat (.inr hpart), Option.some.inj hdepth, ?_⟩
        rw [stateOf, stateOf, h.kept_concat hpart, unclosed_concat_directive]
        rfl
    | ends =>
      cases fronts with
      | nil => exact absurd hdepth (by simp [ConditionalPart.depthAfter?])
      | cons before fronts =>
        refine ⟨fronts, h.concat_ends hpart, Option.some.inj hdepth, ?_⟩
        rw [stateOf, stateOf, kept_concat (by simp [hpart]), unclosed_concat_directive]
        rfl

/-- A token that closes what it should leads the check to what is kept behind it. -/
theorem step?_stateOf (h : Conditionals front fronts) (ht : t.IsComplete)
    (hdepth : ConditionalPart.depthAfter? t.part? fronts.length = some depth)
    (hcloses : Closes front t) :
    ∃ next, Conditionals (front ++ [t]) next ∧ next.length = depth ∧
      (stateOf front fronts).step? t = some (stateOf (front ++ [t]) next) := by
  cases t with
  | openComment body => exact absurd ht id
  | directive line =>
    obtain ⟨next, hnext, hlength, hfollow⟩ := follow_stateOf h hdepth
    refine ⟨next, hnext, hlength, ?_⟩
    rw [Nesting.step?, (DirectiveLine.wellFormed_iff line).mp ht, hfollow]
    rfl
  | closer bracket =>
    refine ⟨fronts, h.concat (.inl rfl), Option.some.inj hdepth, ?_⟩
    obtain ⟨outer, houter⟩ := List.head?_eq_some_iff.mp (hcloses bracket rfl)
    rw [stateOf, stateOf, kept_concat (by simp [part?]), unclosed_concat]
    simp [Nesting.step?, Nesting.close?, houter]
  | lineComment | blockComment | newline | blank | opener | other =>
    refine ⟨fronts, h.concat (.inl rfl), Option.some.inj hdepth, ?_⟩
    rw [stateOf, stateOf, kept_concat (by simp [part?]), unclosed_concat]
    rfl

/-- A token that is checked closes what it should. -/
theorem closes_of_step? {next : Nesting} (h : (stateOf front fronts).step? t = some next) :
    Closes front t := by
  rintro bracket rfl
  simp only [Nesting.step?, Nesting.close?, stateOf] at h
  split at h
  · exact absurd h (by simp)
  next innermost outer hopened =>
    rw [hopened, List.head?_cons]
    by_cases hkind : innermost = bracket
    · rw [hkind]
    · exact absurd h (by simp [hkind])

/-- The check of a text ends with no bracket open exactly if every token closes what it should and
what is kept of the text leaves no bracket open. -/
theorem run?_stateOf_iff {ts : List Token} (h : Conditionals front fronts)
    (hts : ∀ t ∈ ts, t.IsComplete) (hdepth : depthAfter? fronts.length ts = some depth) :
    (∃ n, (stateOf front fronts).run? ts = some n ∧ n.opened = []) ↔
      (∀ before t after, ts = before ++ t :: after → Closes (front ++ before) t) ∧
        unclosed (kept (front ++ ts)) = [] := by
  -- `front` is what was checked already, so each step moves one token over to it.
  induction ts generalizing front fronts with
  | nil => simp [Nesting.run?, stateOf]
  | cons t ts ih =>
    obtain ⟨next, hnext, hrest⟩ := Option.bind_eq_some_iff.mp hdepth
    -- The places of the text are the one in front of its first token and those behind it.
    have places : (∀ before u after, t :: ts = before ++ u :: after →
          Closes (front ++ before) u) ↔
        Closes front t ∧ ∀ before u after, ts = before ++ u :: after →
          Closes (front ++ [t] ++ before) u := by
      constructor
      · intro hevery
        refine ⟨by simpa using hevery [] t ts rfl, fun before u after hsplit => ?_⟩
        simpa using hevery (t :: before) u after (by rw [hsplit, List.cons_append])
      · rintro ⟨first, hevery⟩ before u after hsplit
        rcases List.cons_eq_append_iff.mp hsplit with ⟨rfl, hu⟩ | ⟨before, rfl, hrest⟩
        · obtain ⟨rfl, -⟩ := List.cons.inj hu
          simpa using first
        · simpa using hevery before u after hrest
    rw [places, Nesting.run?]
    by_cases hcloses : Closes front t
    · obtain ⟨fronts', hfronts, hlength, hstep⟩ :=
        step?_stateOf h (hts t List.mem_cons_self) hnext hcloses
      rw [hstep, Option.bind_some]
      have hlater := ih hfronts (fun u hu => hts u (List.mem_cons_of_mem _ hu)) (hlength ▸ hrest)
      rw [hlater, List.append_assoc, List.singleton_append]
      simp [hcloses]
    · -- The check fails at the token, and the condition fails at its place.
      refine iff_of_false ?_ fun hevery => hcloses hevery.1.1
      rintro ⟨n, hrun, -⟩
      obtain ⟨next, hstep, -⟩ := Option.bind_eq_some_iff.mp hrun
      exact hcloses (closes_of_step? hstep)

end Token

/-- A source whose comments end, whose directive lines are well formed and whose branches and ends
of conditionals stand in conditionals is in order exactly under two conditions. At every closing
bracket, what is kept in front of it leaves a bracket open, and the innermost such bracket is of the
same kind; and what is kept of the whole source leaves no bracket open. -/
theorem parseChunk_isOk_iff (source : String)
    (hcomplete : ∀ t ∈ Token.tokens true source.toList, t.IsComplete)
    (hconditionals : (Token.depthAfter? 0 (Token.tokens true source.toList)).isSome = true) :
    (∃ t, parseChunk source = .ok t) ↔
      (∀ front bracket back,
        Token.tokens true source.toList = front ++ .closer bracket :: back →
          (Token.unclosed (Token.kept front)).head? = some bracket) ∧
        Token.unclosed (Token.kept (Token.tokens true source.toList)) = [] := by
  obtain ⟨depth, hdepth⟩ := Option.isSome_iff_exists.mp hconditionals
  have outside : Token.Conditionals [] [] := .outside rfl
  have hrun := Token.run?_stateOf_iff outside hcomplete hdepth
  rw [show Token.stateOf [] [] = Nesting.initial from rfl] at hrun
  simp only [parseChunk_eq_ok_iff, exists_and_left, exists_eq, and_true, hrun, List.nil_append,
    Token.Closes]
  refine and_congr_left fun _ => ⟨fun hevery front bracket back hsplit => ?_, ?_⟩
  · exact hevery front _ back hsplit bracket rfl
  · rintro hevery front t back hsplit bracket rfl
    exact hevery front bracket back hsplit

/-- A text with a conditional in a branch of another. Every branch but one closes the parenthesis in
front of the conditionals and opens a brace, which is closed behind them; the one that opens a
square bracket is given up. Brackets in comments and in directive lines do not count. -/
def branchingSource : String :=
  "(\n#ifdef A /* ( */\n) \x7b\n#else // ]\n# ifdef B /* [\n[\n# else\n) \x7b // )\n# endif\n#endif\n\x7d"

theorem parseChunk_isOk_iff_branchingSource :
    (∃ t, parseChunk branchingSource = .ok t) ∧
      (∀ front bracket back,
        Token.tokens true branchingSource.toList = front ++ .closer bracket :: back →
          (Token.unclosed (Token.kept front)).head? = some bracket) ∧
        Token.unclosed (Token.kept (Token.tokens true branchingSource.toList)) = [] := by
  have hiff := parseChunk_isOk_iff branchingSource (by decide +kernel) (by decide +kernel)
  have haccepted : (parseChunk branchingSource).toOption.isSome = true := by decide +kernel
  obtain ⟨t, ht⟩ := Option.isSome_iff_exists.mp haccepted
  have hparse : ∃ t, parseChunk branchingSource = .ok t := ⟨t, toOption_eq_some_iff.mp ht⟩
  exact ⟨hparse, hiff.mp hparse⟩

end ShaderTemplate
