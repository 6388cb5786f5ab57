import ShaderTemplate.Parser.Conditional
import ShaderTemplate.Parser.DirectiveLine
import ShaderTemplate.Parser.Token

/-!
# Checking shader text

The check goes over the tokens once, keeping the brackets that are open. Every branch of a
conditional starts from the brackets that were open before the conditional, and what follows it
starts from the brackets that its last branch leaves. The first fault in the order of the text is
reported; brackets left open count last, and of them the innermost is named.
-/

namespace ShaderTemplate

/-- A bracket that is not closed yet. -/
structure OpenBracket where
  /-- The kind of the bracket. -/
  bracket : Bracket
  /-- Where it was opened. -/
  position : Position
  deriving Repr, DecidableEq

/-- The state of the check between two tokens. -/
structure Balance where
  /-- The position of the next token. -/
  position : Position
  /-- The open brackets, innermost first. -/
  opened : List OpenBracket
  /-- For each open conditional, innermost first, the brackets open before it. -/
  conditionals : List (List OpenBracket)
  deriving Repr, DecidableEq

namespace Balance

/-- The state before the first token. -/
def initial : Balance := ⟨.first, [], []⟩

/-- Follow a directive into, within or out of a conditional. -/
def follow (s : Balance) (d : Directive) : Balance :=
  match ConditionalPart.ofName? d.name with
  | some .begins => { s with conditionals := s.opened :: s.conditionals }
  -- A branch outside any conditional goes on with the brackets that are open.
  | some .branches => { s with opened := s.conditionals.head?.getD s.opened }
  | some .ends => { s with conditionals := s.conditionals.tail }
  | none => s

/-- Close the innermost bracket. -/
def close (s : Balance) (bracket : Bracket) : Except SyntaxFault Balance :=
  match s.opened with
  | [] => .error (.unexpected bracket)
  | innermost :: outer =>
    if innermost.bracket = bracket then .ok { s with opened := outer }
    else .error (.mismatched innermost.bracket bracket)

/-- Check one token, which ends at `stop`. -/
def check (s : Balance) (stop : Position) : Token → Except SyntaxFault Balance
  | .openComment _ => .error .unterminatedComment
  | .opener bracket => .ok { s with opened := ⟨bracket, s.position⟩ :: s.opened }
  | .closer bracket => s.close bracket
  | .directive line =>
    -- Brackets on a directive line do not count.
    let d := DirectiveLine.read line ⟨s.position, stop⟩
    match d.fault? with
    | some fault => .error fault
    | none => .ok (s.follow d)
  | _ => .ok s

/-- Check one token and step over it; a fault is placed at the token. -/
def step (s : Balance) (t : Token) : Except SyntaxError Balance :=
  let stop := s.position.advance t.text
  match s.check stop t with
  | .error fault => .error ⟨fault, ⟨s.position, stop⟩⟩
  | .ok next => .ok { next with position := stop }

variable {s last : Balance} {stop : Position} {t : Token}

/-- What a token does to the brackets. An opening bracket is put in front of the open ones, a closing
one takes the innermost away, which is of its kind, and a directive is followed; no other token
counts. -/
theorem check_eq_ok_cases (h : s.check stop t = .ok last) :
    (∃ bracket, t = .opener bracket ∧
      last = { s with opened := ⟨bracket, s.position⟩ :: s.opened }) ∨
    (∃ innermost outer, t = .closer innermost.bracket ∧ s.opened = innermost :: outer ∧
      last = { s with opened := outer }) ∨
    (∃ line, t = .directive line ∧ last = s.follow (DirectiveLine.read line ⟨s.position, stop⟩)) ∨
    (¬ ∃ line, t = .directive line) ∧ last = s := by
  cases t with
  | openComment body => exact absurd h (by simp [check])
  | opener bracket => exact .inl ⟨bracket, rfl, (Except.ok.inj h).symm⟩
  | closer bracket =>
    simp only [check, close] at h
    split at h
    · exact absurd h (by simp)
    next innermost outer hopened =>
      split at h
      next hbracket =>
        exact .inr (.inl ⟨innermost, outer, by rw [hbracket], hopened, (Except.ok.inj h).symm⟩)
      next => exact absurd h (by simp)
  | directive line =>
    simp only [check] at h
    split at h
    · exact absurd h (by simp)
    · exact .inr (.inr (.inl ⟨line, rfl, (Except.ok.inj h).symm⟩))
  | _ => exact .inr (.inr (.inr ⟨by simp, (Except.ok.inj h).symm⟩))

/-- What is found wrong with a token: a comment that does not end, a closing bracket that is not of
the kind of the innermost open one, or the fault of a directive. -/
theorem check_eq_error_cases {fault : SyntaxFault} (h : s.check stop t = .error fault) :
    (∃ body, t = .openComment body ∧ fault = .unterminatedComment) ∨
    (∃ bracket, t = .closer bracket ∧ s.opened = [] ∧ fault = .unexpected bracket) ∨
    (∃ innermost outer bracket, t = .closer bracket ∧ s.opened = innermost :: outer ∧
      innermost.bracket ≠ bracket ∧ fault = .mismatched innermost.bracket bracket) ∨
    ∃ line, t = .directive line ∧
      (DirectiveLine.read line ⟨s.position, stop⟩).fault? = some fault := by
  cases t with
  | openComment body => exact .inl ⟨body, rfl, (Except.error.inj h).symm⟩
  | closer bracket =>
    simp only [check, close] at h
    split at h
    next hopened => exact .inr (.inl ⟨bracket, rfl, hopened, (Except.error.inj h).symm⟩)
    next innermost outer hopened =>
      split at h
      · exact absurd h (by simp)
      next hbracket =>
        exact .inr (.inr (.inl
          ⟨innermost, outer, bracket, rfl, hopened, hbracket, (Except.error.inj h).symm⟩))
  | directive line =>
    simp only [check] at h
    split at h
    next other hother =>
      obtain rfl := Except.error.inj h
      exact .inr (.inr (.inr ⟨line, rfl, hother⟩))
    · exact absurd h (by simp)
  | _ => exact absurd h (by simp [check])

/-- A token that is stepped over is in order. -/
theorem step_eq_ok_iff : s.step t = .ok last ↔
    ∃ next, s.check (s.position.advance t.text) t = .ok next ∧
      last = { next with position := s.position.advance t.text } := by
  rw [step]
  cases s.check (s.position.advance t.text) t <;> simp [eq_comm]

/-- A token that is not stepped over is where the error is. -/
theorem step_eq_error_iff {e : SyntaxError} : s.step t = .error e ↔
    ∃ fault, s.check (s.position.advance t.text) t = .error fault ∧
      e = ⟨fault, ⟨s.position, s.position.advance t.text⟩⟩ := by
  rw [step]
  cases s.check (s.position.advance t.text) t <;> simp [eq_comm]

/-- Check that no bracket is left open. -/
def finish (s : Balance) : Except SyntaxError Unit :=
  match s.opened with
  | [] => .ok ()
  | ⟨bracket, position⟩ :: _ =>
    .error ⟨.unclosed bracket, ⟨position, ⟨position.line, position.column + 1⟩⟩⟩

/-- Check a list of tokens. -/
def run (s : Balance) : List Token → Except SyntaxError Balance
  | [] => .ok s
  | t :: rest =>
    match s.step t with
    | .error e => .error e
    | .ok next => next.run rest

/-- Check two lists of tokens in turn. -/
theorem run_append (s : Balance) (first second : List Token) :
    s.run (first ++ second) = (s.run first).bind fun next => next.run second := by
  induction first generalizing s with
  | nil => rfl
  | cons t rest ih =>
    simp only [List.cons_append, run]
    cases s.step t with
    | error e => rfl
    | ok next => exact ih next

end Balance

end ShaderTemplate
