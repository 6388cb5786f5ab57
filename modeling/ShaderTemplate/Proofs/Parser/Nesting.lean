import ShaderTemplate.Parser.Chunk

/-!
# The check without positions

Whether a source is in order depends on the kinds of its open brackets and on those that stood open
before each open conditional, not on where they stand. `Nesting` is the state of the check with the
positions left out; both checks accept the same tokens (`Balance.toOption_run`,
`checkSource_eq_ok_iff`).

A text that is in order on its own and closes its own conditionals is in order inside any other
text, and leaves the brackets and conditionals around it as they are (`Nesting.run?_of_closed`).
-/

namespace ShaderTemplate

/-- The number of open conditionals after a part of one, `depth` of them being open before it. There
is no outcome for a branch or an end outside all conditionals. -/
def ConditionalPart.depthAfter? : Option ConditionalPart → Nat → Option Nat
  | none, depth => some depth
  | some .begins, depth => some (depth + 1)
  | some .branches, depth + 1 => some (depth + 1)
  | some .ends, depth + 1 => some depth
  | some _, 0 => none

namespace Token

/-- The part that a token plays in a conditional. -/
def part? : Token → Option ConditionalPart
  | .directive line => ConditionalPart.ofName? (String.ofList (DirectiveLine.name line))
  | _ => none

/-- The number of open conditionals after some tokens, `depth` of them being open before. -/
def depthAfter? : Nat → List Token → Option Nat
  | depth, [] => some depth
  | depth, t :: ts =>
    (ConditionalPart.depthAfter? t.part? depth).bind fun depth => depthAfter? depth ts

end Token

/-- The kinds of the brackets that are open between two tokens. -/
structure Nesting where
  /-- The open brackets, innermost first. -/
  opened : List Bracket
  /-- For each open conditional, innermost first, the brackets open before it. -/
  saved : List (List Bracket)
  deriving Repr, DecidableEq

namespace Nesting

/-- Nothing is open. -/
def initial : Nesting := ⟨[], []⟩

/-- Follow a directive into, within or out of a conditional. -/
def follow (n : Nesting) : Option ConditionalPart → Nesting
  | some .begins => { n with saved := n.opened :: n.saved }
  | some .branches => { n with opened := n.saved.head?.getD n.opened }
  | some .ends => { n with saved := n.saved.tail }
  | none => n

/-- Close the innermost bracket, if it is of the given kind. -/
def close? (n : Nesting) (bracket : Bracket) : Option Nesting :=
  match n.opened with
  | [] => none
  | innermost :: outer => if innermost = bracket then some { n with opened := outer } else none

/-- Check one token. -/
def step? (n : Nesting) (t : Token) : Option Nesting :=
  match t with
  | .openComment _ => none
  | .opener bracket => some { n with opened := bracket :: n.opened }
  | .closer bracket => n.close? bracket
  | .directive line =>
    if (DirectiveLine.read line default).fault?.isSome then none else some (n.follow t.part?)
  | _ => some n

/-- Check a list of tokens. -/
def run? (n : Nesting) : List Token → Option Nesting
  | [] => some n
  | t :: ts => (n.step? t).bind fun next => next.run? ts

/-- No comment is left open by tokens that are in order. -/
theorem openComment_notMem_of_run? {n last : Nesting} {ts : List Token}
    (h : n.run? ts = some last) (body : List Char) : Token.openComment body ∉ ts := by
  induction ts generalizing n with
  | nil => simp
  | cons t ts ih =>
    obtain ⟨next, hstep, hrest⟩ := Option.bind_eq_some_iff.mp h
    refine List.not_mem_cons_of_ne_of_not_mem ?_ (ih hrest)
    rintro rfl
    exact absurd hstep (by simp [step?])

/-- Two lists of tokens are checked in turn. -/
theorem run?_append (n : Nesting) (ts us : List Token) :
    n.run? (ts ++ us) = (n.run? ts).bind fun next => next.run? us := by
  induction ts generalizing n with
  | nil => rfl
  | cons t ts ih =>
    rw [List.cons_append, run?, run?, Option.bind_assoc]
    exact congrArg _ (funext fun next => ih next)

end Nesting

/-! ## The check with positions -/

namespace Balance

/-- Leave the positions out. -/
def nesting (s : Balance) : Nesting where
  opened := s.opened.map OpenBracket.bracket
  saved := s.conditionals.map (List.map OpenBracket.bracket)

/-- A directive is followed in the same way with and without positions. -/
theorem nesting_follow (s : Balance) (d : Directive) :
    (s.follow d).nesting = s.nesting.follow (ConditionalPart.ofName? d.name) := by
  unfold follow Nesting.follow
  cases ConditionalPart.ofName? d.name with
  | none => rfl
  | some part =>
    cases part with
    | begins => rfl
    | branches => cases hsaved : s.conditionals <;> simp [nesting, hsaved]
    | ends => simp [nesting]

/-- A bracket is closed in the same way with and without positions. -/
theorem toOption_close (s : Balance) (bracket : Bracket) :
    (s.close bracket).toOption.map nesting = s.nesting.close? bracket := by
  unfold close Nesting.close?
  cases hopened : s.opened with
  | nil => simp [nesting, hopened, Except.toOption]
  | cons innermost outer =>
    by_cases h : innermost.bracket = bracket <;> simp [nesting, hopened, h, Except.toOption]

/-- The position of a token counts for the place of a fault only. -/
theorem toOption_step_eq (s : Balance) (t : Token) : (s.step t).toOption.map nesting =
    (s.check (s.position.advance t.text) t).toOption.map nesting := by
  rw [step]
  cases s.check (s.position.advance t.text) t <;> rfl

/-- One token is checked in the same way with and without positions. -/
theorem toOption_step (s : Balance) (t : Token) :
    (s.step t).toOption.map nesting = s.nesting.step? t := by
  rw [toOption_step_eq]
  cases t with
  | closer bracket => exact toOption_close s bracket
  | directive line =>
    -- Where a directive stands has no part in its fault.
    have fault : ∀ location, (DirectiveLine.read line location).fault? =
        (DirectiveLine.read line default).fault? := fun _ => rfl
    simp only [check, Nesting.step?, fault]
    cases (DirectiveLine.read line default).fault? with
    | some _ => rfl
    | none => exact congrArg some (nesting_follow s _)
  | _ => rfl

/-- Tokens are checked in the same way with and without positions. -/
theorem toOption_run (s : Balance) (ts : List Token) :
    (s.run ts).toOption.map nesting = s.nesting.run? ts := by
  induction ts generalizing s with
  | nil => rfl
  | cons t ts ih =>
    rw [run, Nesting.run?, ← toOption_step]
    cases s.step t with
    | error e => rfl
    | ok next => exact ih next

end Balance

/-- A source is in order exactly if its tokens are and leave no bracket open. -/
theorem checkSource_eq_ok_iff (source : List Char) : checkSource source = .ok () ↔
    ∃ n, Nesting.initial.run? (Token.tokens true source) = some n ∧ n.opened = [] := by
  have hrun := Balance.toOption_run .initial (Token.tokens true source)
  rw [show Balance.initial.nesting = Nesting.initial from rfl] at hrun
  rw [checkSource, ← hrun]
  cases Balance.initial.run (Token.tokens true source) with
  | error e => simp [Except.bind, Except.toOption]
  | ok s =>
    cases hopened : s.opened <;>
      simp [Except.bind, Except.toOption, Balance.finish, Balance.nesting, hopened]

/-- A source that is in order is read as the regions of its tokens. -/
theorem parseChunk_eq_ok_iff {source : String} {t : Tree} : parseChunk source = .ok t ↔
    (∃ n, Nesting.initial.run? (Token.tokens true source.toList) = some n ∧ n.opened = []) ∧
      t = Region.tree .first (Region.ofTokens (Token.tokens true source.toList)) := by
  rw [← checkSource_eq_ok_iff, parseChunk]
  cases checkSource source.toList with
  | error e => simp
  | ok _ => simp [eq_comm]

/-- Decide whether two outcomes are the same. -/
instance decidableEqExcept {ε α : Type} [DecidableEq ε] [DecidableEq α] :
    DecidableEq (Except ε α)
  | .error e, .error e' => decidable_of_iff (e = e') (by simp)
  | .ok a, .ok a' => decidable_of_iff (a = a') (by simp)
  | .error _, .ok _ => isFalse (by simp)
  | .ok _, .error _ => isFalse (by simp)

/-- What is left of an outcome without its error. -/
theorem toOption_eq_some_iff {ε α : Type} {x : Except ε α} {a : α} :
    x.toOption = some a ↔ x = .ok a := by
  cases x <;> simp [Except.toOption]

/-- What is computed of the tree of a source holds of a tree. -/
theorem exists_tree_of_eq {source : String} {α : Type} {f : Tree → α} {a : α}
    (h : (parseChunk source).toOption.map f = some a) :
    ∃ t, parseChunk source = .ok t ∧ f t = a := by
  obtain ⟨t, ht, hf⟩ := Option.map_eq_some_iff.mp h
  exact ⟨t, toOption_eq_some_iff.mp ht, hf⟩

/-! ## Inside another text -/

namespace Nesting

/-- The state of a text inside another text, in which `base` is open. -/
def inside (n base : Nesting) : Nesting where
  opened := n.opened ++ base.opened
  saved := n.saved.map (· ++ base.opened) ++ base.saved

/-- Around a text that has not started stands what it is put into. -/
@[simp] theorem initial_inside (base : Nesting) : initial.inside base = base := rfl

/-- Inside another text a directive does the same, if it plays its part in a conditional of its own
text. -/
theorem follow_inside (n base : Nesting) (part : Option ConditionalPart)
    (h : n.saved = [] → part = none ∨ part = some .begins) :
    (n.inside base).follow part = (n.follow part).inside base := by
  cases hsaved : n.saved with
  | nil =>
    -- A branch or an end would reach into the conditionals of the text around.
    rcases h hsaved with rfl | rfl
    · rfl
    · simp [follow, inside]
  | cons first rest =>
    cases part with
    | none => rfl
    | some part => cases part <;> simp [follow, inside, hsaved]

/-- Inside another text a token does the same, if it plays its part in a conditional of its own
text. -/
theorem step?_inside {n next : Nesting} {t : Token} (base : Nesting) (h : n.step? t = some next)
    (hpart : n.saved = [] → t.part? = none ∨ t.part? = some .begins) :
    (n.inside base).step? t = some (next.inside base) := by
  cases t with
  | openComment body => exact absurd h (by simp [step?])
  | opener bracket =>
    obtain rfl := Option.some.inj h
    rfl
  | closer bracket =>
    cases hopened : n.opened with
    | nil => simp [step?, close?, hopened] at h
    | cons innermost outer =>
      by_cases hkind : innermost = bracket
      · simp only [step?, close?, hopened, if_pos hkind, Option.some_inj] at h
        obtain rfl := h
        simp [step?, close?, inside, hopened, hkind]
      · simp [step?, close?, hopened, hkind] at h
  | directive line =>
    simp only [step?] at h ⊢
    split at h
    · exact absurd h (by simp)
    next hfault =>
      obtain rfl := Option.some.inj h
      rw [if_neg hfault, follow_inside n base _ hpart]
  | _ =>
    obtain rfl := Option.some.inj h
    rfl

/-- A token changes the open conditionals only by the part that it plays in one. -/
theorem saved_of_step? {n next : Nesting} {t : Token} (h : n.step? t = some next) :
    next.saved = (n.follow t.part?).saved := by
  cases t with
  | openComment body => exact absurd h (by simp [step?])
  | closer bracket =>
    simp only [step?, close?] at h
    split at h
    · exact absurd h (by simp)
    · split at h
      · obtain rfl := Option.some.inj h
        rfl
      · exact absurd h (by simp)
  | directive line =>
    simp only [step?] at h
    split at h
    · exact absurd h (by simp)
    · obtain rfl := Option.some.inj h
      rfl
  | _ =>
    obtain rfl := Option.some.inj h
    rfl

/-- As many conditionals are open after a part of one as there should be, and outside all of them
there is no branch and no end. -/
theorem length_saved_follow {n : Nesting} {part : Option ConditionalPart} {depth : Nat}
    (h : ConditionalPart.depthAfter? part n.saved.length = some depth) :
    (n.follow part).saved.length = depth ∧
      (n.saved = [] → part = none ∨ part = some .begins) := by
  cases part with
  | none => exact ⟨Option.some.inj h, fun _ => .inl rfl⟩
  | some part =>
    cases part with
    | begins => exact ⟨Option.some.inj h, fun _ => .inr rfl⟩
    | branches | ends =>
      cases hsaved : n.saved with
      | nil =>
        rw [hsaved] at h
        exact absurd h (by simp [ConditionalPart.depthAfter?])
      | cons first rest =>
        rw [hsaved] at h
        exact ⟨by simpa [follow, hsaved] using Option.some.inj h, by simp⟩

/-- Inside another text a text does the same, if its branches and ends stand in conditionals of its
own; as many conditionals are open after it as it says. -/
theorem run?_inside {n last : Nesting} {ts : List Token} {depth : Nat} (base : Nesting)
    (h : n.run? ts = some last) (hdepth : Token.depthAfter? n.saved.length ts = some depth) :
    (n.inside base).run? ts = some (last.inside base) ∧ last.saved.length = depth := by
  induction ts generalizing n with
  | nil =>
    obtain rfl := Option.some.inj h
    exact ⟨rfl, Option.some.inj hdepth⟩
  | cons t ts ih =>
    obtain ⟨next, hstep, hrest⟩ := Option.bind_eq_some_iff.mp h
    obtain ⟨after, hafter, hdepth⟩ := Option.bind_eq_some_iff.mp hdepth
    obtain ⟨hlength, hpart⟩ := length_saved_follow hafter
    rw [← hlength, ← saved_of_step? hstep] at hdepth
    rw [run?, step?_inside base hstep hpart, Option.bind_some]
    exact ih hrest hdepth

/-- A text that is in order and closes its own conditionals leaves everything around it as it is. -/
theorem run?_of_closed {last : Nesting} {ts : List Token} (h : initial.run? ts = some last)
    (hopened : last.opened = []) (hclosed : Token.depthAfter? 0 ts = some 0) (base : Nesting) :
    base.run? ts = some base := by
  obtain ⟨hrun, hlength⟩ := run?_inside base h hclosed
  -- Nothing is open at the end, neither a bracket nor a conditional.
  have hlast : last = initial := by
    cases last
    simp_all [initial]
  rwa [hlast, initial_inside] at hrun

end Nesting

end ShaderTemplate
