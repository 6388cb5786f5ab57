import Mathlib.Data.List.Induction
import ShaderTemplate.Proofs.Parser.Nesting

/-!
# The ends of branches

A conditional is a list of branches and the directive that ends it. Every branch is checked from the
brackets that are open in front of the conditional, and what follows the conditional is checked from
those that its last branch leaves open (`Nesting.run?_tokens`). So a source is in order exactly if
every branch is, from the brackets in front, and if the source is with the last branch alone in the
place of the conditional (`parseChunk_isOk_iff_branches`). What the other branches leave open is
given up, and nothing compares it.

Main statements:

- `Nesting.run?_of_nested`: the check of tokens that open and close their own conditionals;
- `Nesting.run?_tokens`: the check of a conditional;
- `parseChunk_isOk_iff_branches`: when a source with a conditional is in order;
- `branchEnds_of_parseChunk`: the brackets that are open at the ends of the branches.
-/

namespace ShaderTemplate

namespace Nesting

variable {n : Nesting} {t : Token} {ts : List Token} {depth : Nat}

/-- The state inside further conditionals, those that `saved` tells. -/
def under (n : Nesting) (saved : List (List Bracket)) : Nesting :=
  { n with saved := n.saved ++ saved }

@[simp] theorem opened_under (n : Nesting) (saved : List (List Bracket)) :
    (n.under saved).opened = n.opened := rfl

@[simp] theorem saved_under (n : Nesting) (saved : List (List Bracket)) :
    (n.under saved).saved = n.saved ++ saved := rfl

/-- The conditionals around a token do not count, if it plays its part in an inner one. -/
theorem step?_under (saved : List (List Bracket))
    (h : n.saved = [] → t.part? = none ∨ t.part? = some .begins) :
    (n.under saved).step? t = (n.step? t).map (under · saved) := by
  cases t with
  | closer bracket =>
    cases hopened : n.opened with
    | nil => simp [step?, close?, hopened]
    | cons innermost outer =>
      by_cases hkind : innermost = bracket <;> simp [step?, close?, hopened, hkind, under]
  | directive line =>
    simp only [step?]
    split
    · rfl
    · refine congrArg some ?_
      cases hsaved : n.saved with
      | nil => rcases h hsaved with hpart | hpart <;> simp [hpart, follow, under]
      | cons first rest =>
        cases (Token.directive line).part? with
        | none => rfl
        | some part => cases part <;> simp [follow, under, hsaved]
  | _ => rfl

/-- The conditionals around some tokens do not count, if these branch and end only conditionals of
their own. -/
theorem run?_under (saved : List (List Bracket))
    (h : Token.depthAfter? n.saved.length ts = some depth) :
    (n.under saved).run? ts = (n.run? ts).map (under · saved) ∧
      ∀ last, n.run? ts = some last → last.saved.length = depth := by
  -- The depth follows the inner conditionals, so that no part is played in those around.
  induction ts generalizing n with
  | nil =>
    refine ⟨rfl, fun last hlast => ?_⟩
    obtain rfl := Option.some.inj hlast
    exact Option.some.inj h
  | cons t ts ih =>
    obtain ⟨after, hafter, hrest⟩ := Option.bind_eq_some_iff.mp h
    obtain ⟨hlength, hpart⟩ := length_saved_follow hafter
    rw [run?, run?, step?_under saved hpart]
    cases hstep : n.step? t with
    | none => simp
    | some next =>
      rw [← hlength, ← saved_of_step? hstep] at hrest
      exact ih hrest

end Nesting

namespace Token

/-- The brackets that are open behind some tokens, if the check finds no fault in them. -/
def openedAfter? (ts : List Token) : Option (List Bracket) :=
  (Nesting.initial.run? ts).map Nesting.opened

/-- The brackets that some tokens leave open, if they are checked outside all conditionals with
`opened` open in front of them. -/
def leaves? (opened : List Bracket) (ts : List Token) : Option (List Bracket) :=
  ((⟨opened, []⟩ : Nesting).run? ts).map Nesting.opened

end Token

open Token

/-- Tokens that open and close their own conditionals only change the open brackets. -/
theorem Nesting.run?_of_nested {ts : List Token} (h : Token.depthAfter? 0 ts = some 0)
    (n : Nesting) : n.run? ts = (leaves? n.opened ts).map (⟨·, n.saved⟩) := by
  obtain ⟨hrun, hlength⟩ := run?_under (n := ⟨n.opened, []⟩) n.saved h
  have hunder : (⟨n.opened, []⟩ : Nesting).under n.saved = n := rfl
  rw [← hunder, hrun, leaves?, Option.map_map, hunder]
  -- At the end no inner conditional is open.
  refine Option.map_congr fun last hlast => ?_
  have hsaved := List.eq_nil_of_length_eq_zero (hlength last hlast)
  rw [under, hsaved]
  rfl

/-- A directive of a conditional is in order. -/
theorem Nesting.step?_of_part? {t : Token} {part : ConditionalPart} (h : t.part? = some part)
    (n : Nesting) : n.step? t = some (n.follow (some part)) := by
  cases t with
  | directive line =>
    -- The name is neither empty nor `include`.
    have hname : String.ofList (DirectiveLine.name line) ≠ "" ∧
        String.ofList (DirectiveLine.name line) ≠ "include" := by
      constructor <;> intro hname <;> simp [part?, hname, ConditionalPart.ofName?] at h
    have hfault : (DirectiveLine.read line default).fault? = none := by
      simp [Directive.fault?, DirectiveLine.read, Directive.isInclude, hname]
    rw [step?, hfault, h]
    rfl
  | _ => exact absurd h (by simp [part?])

/-- A branch of a conditional. -/
structure Branch where
  /-- The directive that begins the branch. -/
  begin : Token
  /-- The tokens between this directive and the next one of the conditional. -/
  body : List Token
  /-- The conditionals that the branch opens are closed in it. -/
  nested : Token.depthAfter? 0 body = some 0

/-- The tokens of a branch. -/
def Branch.tokens (b : Branch) : List Token :=
  b.begin :: b.body

/-- A conditional that is closed. -/
structure Conditional where
  /-- The branch that the conditional begins with. -/
  first : Branch
  /-- The further branches in order. -/
  further : List Branch
  /-- The directive that ends the conditional. -/
  close : Token
  begins : first.begin.part? = some .begins
  goesOn : ∀ b ∈ further, b.begin.part? = some .branches
  ends : close.part? = some .ends

namespace Conditional

/-- The branches of a conditional in order. -/
def branches (c : Conditional) : List Branch :=
  c.first :: c.further

theorem branches_ne_nil (c : Conditional) : c.branches ≠ [] :=
  List.cons_ne_nil _ _

/-- The branch that comes last. -/
def last (c : Conditional) : Branch :=
  c.branches.getLast c.branches_ne_nil

/-- The tokens of a conditional. -/
def tokens (c : Conditional) : List Token :=
  c.branches.flatMap Branch.tokens ++ [c.close]

/-- No branch of a conditional has a fault if the brackets `base` are open in front of it. -/
def InOrder (base : List Bracket) (c : Conditional) : Prop :=
  ∀ b ∈ c.branches, (leaves? base b.body).isSome = true

variable {c : Conditional} {before after : List Branch} {b other : Branch}

/-- A branch behind another is begun by the directive of a further branch. -/
theorem part?_of_branches_eq (h : c.branches = before ++ other :: b :: after) :
    b.begin.part? = some .branches := by
  refine c.goesOn b ?_
  cases before with
  | nil => simp [(List.cons.inj h).2]
  | cons first before => simp [(List.cons.inj h).2]

end Conditional

/-! ## The check of a conditional -/

/-- The brackets open at the end of some branches, the last of which counts, when `base` is open in
front of each. There is an outcome only if no branch has a fault. -/
def lastLeaves? (base : List Bracket) (branches : List Branch) : Option (List Bracket) :=
  branches.foldlM (fun _ b => leaves? base b.body) base

theorem lastLeaves?_concat (base : List Bracket) (before : List Branch) (b : Branch) :
    lastLeaves? base (before ++ [b]) =
      (lastLeaves? base before).bind fun _ => leaves? base b.body := by
  simp [lastLeaves?, List.foldlM_append]

/-- Branches without a fault have an outcome. -/
theorem isSome_lastLeaves?_iff (base : List Bracket) (branches : List Branch) :
    (lastLeaves? base branches).isSome = true ↔
      ∀ b ∈ branches, (leaves? base b.body).isSome = true := by
  induction branches using List.reverseRecOn with
  | nil => simp [lastLeaves?]
  | append_singleton before b ih =>
    rw [lastLeaves?_concat, List.forall_mem_append, ← ih]
    cases lastLeaves? base before <;> simp

/-- The last branch counts, if the others have no fault. -/
theorem lastLeaves?_eq {base : List Bracket} {before : List Branch} {b : Branch}
    (h : ∀ b ∈ before, (leaves? base b.body).isSome = true) :
    lastLeaves? base (before ++ [b]) = leaves? base b.body := by
  obtain ⟨opened, hopened⟩ :=
    Option.isSome_iff_exists.mp ((isSome_lastLeaves?_iff base before).mpr h)
  rw [lastLeaves?_concat, hopened, Option.bind_some]

namespace Nesting

/-- The check of a branch goes back to what is open in front of the conditional. -/
theorem run?_branch {b : Branch} (h : b.begin.part? = some .branches)
    (opened base : List Bracket) (saved : List (List Bracket)) :
    (⟨opened, base :: saved⟩ : Nesting).run? b.tokens =
      (leaves? base b.body).map (⟨·, base :: saved⟩) := by
  rw [Branch.tokens, run?, step?_of_part? h, Option.bind_some, run?_of_nested b.nested]
  rfl

/-- The check of the branch that a conditional begins with. -/
theorem run?_first {b : Branch} (h : b.begin.part? = some .begins) (n : Nesting) :
    n.run? b.tokens = (leaves? n.opened b.body).map (⟨·, n.opened :: n.saved⟩) := by
  rw [Branch.tokens, run?, step?_of_part? h, Option.bind_some, run?_of_nested b.nested]
  rfl

/-- The check of the branches of a conditional up to one of them. -/
theorem run?_branches {c : Conditional} {before after : List Branch} {b : Branch}
    (h : c.branches = before ++ b :: after) (n : Nesting) :
    n.run? ((before ++ [b]).flatMap Branch.tokens) =
      (lastLeaves? n.opened (before ++ [b])).map (⟨·, n.opened :: n.saved⟩) := by
  induction before using List.reverseRecOn generalizing b after with
  | nil =>
    obtain ⟨rfl, -⟩ := List.cons.inj h
    simp [run?_first c.begins, lastLeaves?]
  | append_singleton before other ih =>
    rw [List.append_assoc, List.singleton_append] at h
    have hbefore := ih h
    -- Behind `other` the brackets in front of the conditional are still saved.
    rw [List.flatMap_append, run?_append, hbefore, lastLeaves?_concat n.opened (before ++ [other])]
    cases lastLeaves? n.opened (before ++ [other]) with
    | none => rfl
    | some opened =>
      rw [Option.map_some, Option.bind_some, Option.bind_some, List.flatMap_singleton,
        run?_branch (Conditional.part?_of_branches_eq h)]

/-- What follows a conditional is checked from the brackets that its last branch leaves open. -/
theorem run?_tokens (c : Conditional) (n : Nesting) :
    n.run? c.tokens = (lastLeaves? n.opened c.branches).map (⟨·, n.saved⟩) := by
  have hbranches := (List.dropLast_concat_getLast c.branches_ne_nil).symm
  rw [Conditional.tokens, run?_append, hbranches, run?_branches hbranches, Option.bind_map]
  cases lastLeaves? n.opened (c.branches.dropLast ++ [c.branches.getLast c.branches_ne_nil]) with
  | none => rfl
  | some opened =>
    simp only [Option.bind_some, Option.map_some, Function.comp, run?, step?_of_part? c.ends]
    rfl

variable {c : Conditional} {n : Nesting} {before after : List Branch} {b : Branch}

/-- At the end of a branch those brackets are open that it leaves. -/
theorem run?_branches_of_inOrder (hbranches : c.branches = before ++ b :: after)
    (h : c.InOrder n.opened) :
    n.run? ((before ++ [b]).flatMap Branch.tokens) =
      (leaves? n.opened b.body).map (⟨·, n.opened :: n.saved⟩) := by
  rw [run?_branches hbranches, lastLeaves?_eq fun b hb => h b (by simp [hbranches, hb])]

/-- At the start of a branch those brackets are open that are open in front of the conditional. -/
theorem run?_begin_of_inOrder (hbranches : c.branches = before ++ b :: after)
    (h : c.InOrder n.opened) :
    n.run? (before.flatMap Branch.tokens ++ [b.begin]) = some ⟨n.opened, n.opened :: n.saved⟩ := by
  cases before using List.reverseRecOn with
  | nil =>
    obtain ⟨rfl, -⟩ := List.cons.inj hbranches
    simp only [List.flatMap_nil, List.nil_append, run?, step?_of_part? c.begins]
    rfl
  | append_singleton before other =>
    rw [List.append_assoc, List.singleton_append] at hbranches
    obtain ⟨opened, hopened⟩ :=
      Option.isSome_iff_exists.mp (h other (by simp [hbranches]))
    rw [run?_append, run?_branches_of_inOrder hbranches h, hopened, Option.map_some,
      Option.bind_some, run?, step?_of_part? (Conditional.part?_of_branches_eq hbranches)]
    rfl

/-- A conditional counts as its last branch does, if no branch has a fault. -/
theorem run?_tokens_of_inOrder (h : c.InOrder n.opened) :
    n.run? c.tokens = n.run? c.last.body := by
  have hbranches := (List.dropLast_concat_getLast c.branches_ne_nil).symm
  rw [run?_tokens, hbranches, lastLeaves?_eq fun b hb => h b (List.dropLast_subset _ hb),
    run?_of_nested c.last.nested]
  rfl

/-- No branch of a conditional that is in order has a fault. -/
theorem inOrder_of_run? {last : Nesting} (h : n.run? c.tokens = some last) :
    c.InOrder n.opened := by
  rw [run?_tokens] at h
  obtain ⟨opened, hopened, -⟩ := Option.map_eq_some_iff.mp h
  exact (isSome_lastLeaves?_iff _ _).mp (Option.isSome_iff_exists.mpr ⟨opened, hopened⟩)

end Nesting

/-! ## Sources with a conditional -/

/-- A source is accepted if the check finds no fault in it and no bracket is left open. -/
theorem parseChunk_isOk_iff_openedAfter? (source : String) : (∃ t, parseChunk source = .ok t) ↔
    openedAfter? (Token.tokens true source.toList) = some [] := by
  simp only [parseChunk_eq_ok_iff, exists_and_left, exists_eq, and_true, openedAfter?,
    Option.map_eq_some_iff]

variable {source : String} {front back : List Token} {c : Conditional} {n : Nesting}

/-- Further tokens are checked from the state behind those in front. -/
theorem openedAfter?_append (h : Nesting.initial.run? front = some n) (ts : List Token) :
    openedAfter? (front ++ ts) = (n.run? ts).map Nesting.opened := by
  rw [openedAfter?, Nesting.run?_append, h, Option.bind_some]

/-- A branch in the place of its conditional leaves there what it leaves anywhere with the same
brackets in front of it. -/
theorem openedAfter?_append_body (h : Nesting.initial.run? front = some n) (b : Branch) :
    openedAfter? (front ++ b.body) = leaves? n.opened b.body := by
  rw [openedAfter?_append h, Nesting.run?_of_nested b.nested, Option.map_map]
  exact Option.map_id'

/-- A source with a conditional is accepted exactly if every branch is in order in the place of the
conditional, up to its own end, and the last branch is so up to the end of the source. -/
theorem parseChunk_isOk_iff_branches
    (hts : Token.tokens true source.toList = front ++ c.tokens ++ back) :
    (∃ t, parseChunk source = .ok t) ↔
      (∀ b ∈ c.branches, (openedAfter? (front ++ b.body)).isSome = true) ∧
        openedAfter? (front ++ c.last.body ++ back) = some [] := by
  rw [parseChunk_isOk_iff_openedAfter?, hts, List.append_assoc, List.append_assoc]
  cases hfront : Nesting.initial.run? front with
  | none => simp [openedAfter?, Nesting.run?_append, hfront]
  | some n =>
    have hlast : c.InOrder n.opened →
        n.run? (c.tokens ++ back) = n.run? (c.last.body ++ back) := by
      intro hbranches
      rw [Nesting.run?_append, Nesting.run?_tokens_of_inOrder hbranches, ← Nesting.run?_append]
    simp only [openedAfter?_append_body hfront, openedAfter?_append hfront]
    constructor
    · intro h
      have hbranches : c.InOrder n.opened := by
        obtain ⟨last, hrun, -⟩ := Option.map_eq_some_iff.mp h
        rw [Nesting.run?_append] at hrun
        obtain ⟨middle, hmiddle, -⟩ := Option.bind_eq_some_iff.mp hrun
        exact Nesting.inOrder_of_run? hmiddle
      exact ⟨hbranches, hlast hbranches ▸ h⟩
    · rintro ⟨hbranches, h⟩
      rwa [hlast hbranches]

/-- Every branch of a conditional of an accepted source is checked from the brackets that are open
in front of the conditional, and ends with those open that it leaves in the place of the
conditional. What follows the conditional is checked from those that are open at the end of the
last branch; a branch that leaves the same ones can stand in the place of the conditional. -/
theorem branchEnds_of_parseChunk {t : Tree} (h : parseChunk source = .ok t)
    (hts : Token.tokens true source.toList = front ++ c.tokens ++ back) :
    ∃ base, openedAfter? front = some base ∧
      ∀ before b after, c.branches = before ++ b :: after →
        openedAfter? (front ++ before.flatMap Branch.tokens ++ [b.begin]) = some base ∧
          ∃ opened,
            openedAfter? (front ++ (before ++ [b]).flatMap Branch.tokens) = some opened ∧
              openedAfter? (front ++ b.body) = some opened ∧
              (after = [] → openedAfter? (front ++ c.tokens) = some opened) ∧
              (openedAfter? (front ++ c.tokens) = some opened →
                openedAfter? (front ++ b.body ++ back) = some []) := by
  obtain ⟨hok, hback⟩ := (parseChunk_isOk_iff_branches hts).mp ⟨t, h⟩
  cases hfront : Nesting.initial.run? front with
  | none =>
    have hfirst := hok c.first List.mem_cons_self
    simp [openedAfter?, Nesting.run?_append, hfront] at hfirst
  | some n =>
    have hbranches : c.InOrder n.opened := by
      intro b hb
      rw [← openedAfter?_append_body hfront]
      exact hok b hb
    have hbase : openedAfter? front = some n.opened := by rw [openedAfter?, hfront, Option.map_some]
    refine ⟨n.opened, hbase, fun before b after hsplit => ?_⟩
    obtain ⟨opened, hopened⟩ := Option.isSome_iff_exists.mp (hbranches b (by simp [hsplit]))
    have hbody : openedAfter? (front ++ b.body) = some opened := by
      rw [openedAfter?_append_body hfront, hopened]
    refine ⟨?_, opened, ?_, hbody, ?_, ?_⟩
    · rw [List.append_assoc, openedAfter?_append hfront,
        Nesting.run?_begin_of_inOrder hsplit hbranches, Option.map_some]
    · rw [openedAfter?_append hfront, Nesting.run?_branches_of_inOrder hsplit hbranches, hopened]
      rfl
    · rintro rfl
      have hlast : c.last = b := by simp [Conditional.last, hsplit]
      rw [openedAfter?_append hfront, Nesting.run?_tokens_of_inOrder hbranches, hlast,
        ← openedAfter?_append hfront, hbody]
    · intro hsame
      -- What the last branch and this one leave open is the same.
      have hlast : leaves? n.opened c.last.body = leaves? n.opened b.body := by
        rw [openedAfter?_append hfront, Nesting.run?_tokens_of_inOrder hbranches,
          ← openedAfter?_append hfront, openedAfter?_append_body hfront] at hsame
        rw [hsame, hopened]
      rw [List.append_assoc, openedAfter?_append hfront, Nesting.run?_append] at hback ⊢
      rwa [Nesting.run?_of_nested b.nested, ← hlast, ← Nesting.run?_of_nested c.last.nested]

/-- A conditional of three branches. The first and the last close the parenthesis in front and open
a brace; the last has a conditional in it. -/
def threeBranches : Conditional where
  first :=
    ⟨.directive "ifdef A".toList, Token.tokens true "\n) \x7b\n".toList, by decide +kernel⟩
  further :=
    [⟨.directive "elif B".toList, Token.tokens true "\n[(\n".toList, by decide +kernel⟩,
      ⟨.directive "else".toList, Token.tokens true "\n# if C\n# endif\n) \x7b\n".toList,
        by decide +kernel⟩]
  close := .directive "endif".toList
  begins := by decide +kernel
  goesOn := by decide +kernel
  ends := by decide +kernel

/-- A source with this conditional, between the brackets that its last branch closes and opens. -/
def threeBranchesSource : String :=
  "(\n#ifdef A\n) \x7b\n#elif B\n[(\n#else\n# if C\n# endif\n) \x7b\n#endif\n\x7d\n"

/-- The first branch ends as the conditional does and can stand in its place. The second one leaves
two more brackets open, which are given up. -/
theorem branchEnds_of_parseChunk_threeBranches :
    ∃ front back, (∃ t, parseChunk threeBranchesSource = .ok t) ∧
      Token.tokens true threeBranchesSource.toList = front ++ threeBranches.tokens ++ back ∧
      openedAfter? front = some [.paren] ∧
      openedAfter? (front ++ [threeBranches.first].flatMap Branch.tokens) = some [.brace] ∧
      openedAfter? (front ++ (threeBranches.branches.take 2).flatMap Branch.tokens) =
        some [.paren, .square, .paren] ∧
      openedAfter? (front ++ threeBranches.tokens) = some [.brace] ∧
      openedAfter? (front ++ threeBranches.first.body ++ back) = some [] := by
  have haccepted : (parseChunk threeBranchesSource).toOption.isSome = true := by decide +kernel
  obtain ⟨t, ht⟩ := Option.isSome_iff_exists.mp haccepted
  have hparse := toOption_eq_some_iff.mp ht
  obtain ⟨front, back, hts, hfront, hfirst, hsecond, hlast⟩ : ∃ front back,
      Token.tokens true threeBranchesSource.toList = front ++ threeBranches.tokens ++ back ∧
        openedAfter? front = some [.paren] ∧
        openedAfter? (front ++ [threeBranches.first].flatMap Branch.tokens) = some [.brace] ∧
        openedAfter? (front ++ (threeBranches.branches.take 2).flatMap Branch.tokens) =
          some [.paren, .square, .paren] ∧
        openedAfter? (front ++ threeBranches.tokens) = some [.brace] :=
    ⟨[.opener .paren, .newline], [.newline, .closer .brace, .newline], by decide +kernel⟩
  obtain ⟨base, -, hends⟩ := branchEnds_of_parseChunk hparse hts
  obtain ⟨-, opened, hopened, -, -, htaken⟩ := hends [] threeBranches.first _ rfl
  rw [List.nil_append, hfirst] at hopened
  exact ⟨front, back, ⟨t, hparse⟩, hts, hfront, hfirst, hsecond, hlast,
    htaken (hlast.trans hopened)⟩

/-- A conditional with an `#else`, the first branch of which leaves a parenthesis open. -/
def unclosedBranch : Conditional where
  first := ⟨.directive "ifdef A".toList, Token.tokens true "\n(\n".toList, by decide +kernel⟩
  further := [⟨.directive "else".toList, Token.tokens true "\n".toList, by decide +kernel⟩]
  close := .directive "endif".toList
  begins := by decide +kernel
  goesOn := by decide +kernel
  ends := by decide +kernel

/-- The branches of a conditional in an accepted source need not leave the same brackets open. -/
theorem branchEnds_ne_unclosedBranch :
    (∃ t, parseChunk "#ifdef A\n(\n#else\n#endif\n" = .ok t) ∧
      Token.tokens true "#ifdef A\n(\n#else\n#endif\n".toList =
        unclosedBranch.tokens ++ [.newline] ∧
      unclosedBranch.branches.map Branch.begin =
        [.directive "ifdef A".toList, .directive "else".toList] ∧
      openedAfter? ((unclosedBranch.branches.take 1).flatMap Branch.tokens) = some [.paren] ∧
      openedAfter? ((unclosedBranch.branches.take 2).flatMap Branch.tokens) = some [] := by
  have haccepted : (parseChunk "#ifdef A\n(\n#else\n#endif\n").toOption.isSome = true := by
    decide +kernel
  obtain ⟨t, ht⟩ := Option.isSome_iff_exists.mp haccepted
  exact ⟨⟨t, toOption_eq_some_iff.mp ht⟩, by decide +kernel⟩

end ShaderTemplate
