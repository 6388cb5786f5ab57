import Mathlib.Data.List.Induction
import ShaderTemplate.Host.Volume
import ShaderTemplate.Proofs.Path.Joining

/-!
# What normalizing makes of a path

Followed from any place, the steps of a path lead up some levels and then down through some names
(`Route`). A `..` goes up when no name is left to undo. The normal form keeps the names, but a `..`
that has nothing to undo is kept as a step and undone by the next such one, so of all of them one is
left or none, according to their number (`components_normalize_eq`).

At the root this does no harm, since going up from there leads nowhere: an absolute path and its
normal form lead to the same place, though a `..` may stand behind the root. From anywhere else two
levels up are lost with every pair of such `..`. So a normal form is the lexical one, with the
meaning of the path, exactly if the `..` that have nothing to undo are at most one in a relative
path, and of an even number in an absolute one (`normalizedLexically_iff`).

Main statements:

- `components_normalize_eq`: the steps of a normal form;
- `destination_join_normalize`: where a normal form leads from a base;
- `normalizedLexically_iff`: when a normal form is the lexical one and keeps the meaning.
-/

namespace ShaderTemplate

/-- Where the steps of a path lead, told from any place. -/
structure Route where
  /-- The number of levels to go up first. -/
  up : Nat
  /-- The names to go down through then. -/
  down : List String
  deriving Repr, DecidableEq

namespace Route

/-- Stay in place. -/
def stay : Route := ⟨0, []⟩

/-- Go on by one step. -/
def step (route : Route) : Component → Route
  | .root => stay
  | .current => route
  | .name text => { route with down := route.down ++ [text] }
  | .parent =>
    if route.down = [] then { route with up := route.up + 1 }
    else { route with down := route.down.dropLast }

/-- The place that a route leads to from the place that `here` leads to. -/
def apply (route : Route) (here : List String) : List String :=
  here.take (here.length - route.up) ++ route.down

/-- The steps that a normal form keeps of a route behind the steps `start`, the last one first. -/
def kept (route : Route) (start : List Component) : List Component :=
  (route.down.map .name).reverse ++ (List.replicate (route.up % 2) .parent ++ start)

variable {route : Route} {c : Component} {steps : List Component}

theorem apply_stay (here : List String) : stay.apply here = here := by
  simp [apply, stay]

theorem apply_nil (route : Route) : route.apply [] = route.down := by
  simp [apply]

/-- Steps other than to the root lead on from the place that the steps before lead to. -/
theorem apply_step (hc : c ≠ .root) (here : List String) :
    (route.step c).apply here = Volume.place (route.apply here) c := by
  cases c with
  | root => exact absurd rfl hc
  | current => rfl
  | name text => simp [step, apply, Volume.place]
  | parent =>
    by_cases hdown : route.down = []
    · simp only [step, hdown, if_pos, apply, Volume.place, List.append_nil]
      rw [List.dropLast_eq_take, List.take_take, List.length_take]
      congr 1
      omega
    · simp [step, hdown, apply, Volume.place, List.dropLast_append_of_ne_nil]

/-- Following steps other than to the root is going by their route. -/
theorem foldl_place (route : Route) (hsteps : .root ∉ steps) (here : List String) :
    steps.foldl Volume.place (route.apply here) = (steps.foldl step route).apply here := by
  induction steps generalizing route with
  | nil => rfl
  | cons c steps ih =>
    simp only [List.mem_cons, not_or] at hsteps
    rw [List.foldl_cons, List.foldl_cons, ← apply_step (Ne.symm hsteps.1), ih _ hsteps.2]

/-- Only a `..` leads up, by one level at most. -/
theorem up_foldl_step_le (route : Route) (steps : List Component) :
    (steps.foldl step route).up ≤ route.up + steps.count .parent := by
  induction steps generalizing route with
  | nil => exact Nat.le_refl _
  | cons c steps ih =>
    have hstep : (route.step c).up ≤ route.up + if c = .parent then 1 else 0 := by
      cases c with
      | parent =>
        simp only [step]
        split <;> simp
      | root | current | name => simp [step, stay]
    have hrest := ih (route.step c)
    rw [List.foldl_cons, List.count_cons, beq_eq_decide]
    simp only [decide_eq_true_eq]
    omega

/-- One step is kept of a route in the same way in which it is followed. -/
theorem follow_kept {start : List Component} (hstart : start = [] ∧ c ≠ .root ∨ start = [.root]) :
    Path.follow (route.kept start) c = (route.step c).kept start := by
  cases c with
  | root =>
    obtain ⟨-, hc⟩ | rfl := hstart
    · exact absurd rfl hc
    · rfl
  | current => rfl
  | name text => simp [Path.follow, step, kept]
  | parent =>
    obtain ⟨up, down⟩ := route
    induction down using List.reverseRecOn with
    | append_singleton down text =>
      -- The last name is undone.
      simp [step, kept, Path.follow]
    | nil =>
      -- There is no name to undo, so the number of levels decides what is on top.
      have htop : start = [] ∨ start = [.root] := hstart.imp_left And.left
      rcases Nat.mod_two_eq_zero_or_one up with heven | hodd
      · have hnext : (up + 1) % 2 = 1 := by omega
        rcases htop with rfl | rfl <;> simp [step, kept, heven, hnext, Path.follow]
      · have hnext : (up + 1) % 2 = 0 := by omega
        simp [step, kept, hodd, hnext, Path.follow]

/-- What is kept of some steps is what is kept of their route. -/
theorem foldl_follow_kept {start : List Component}
    (hstart : start = [] ∧ .root ∉ steps ∨ start = [.root]) :
    steps.foldl Path.follow (route.kept start) = (steps.foldl step route).kept start := by
  induction steps generalizing route with
  | nil => rfl
  | cons c steps ih =>
    simp only [List.mem_cons, not_or] at hstart
    rw [List.foldl_cons, List.foldl_cons,
      follow_kept (hstart.imp_left (And.imp_right fun h => Ne.symm h.1)),
      ih (hstart.imp_left (And.imp_right And.right))]

end Route

namespace Path

variable {p q : Path}

/-- The route of a path. -/
def route (p : Path) : Route :=
  p.components.foldl Route.step .stay

/-- The place that the steps of a path lead to from the root. -/
def destination (p : Path) : List String :=
  p.components.foldl Volume.place []

/-- The step that every absolute path starts with, and no relative one. -/
def start (p : Path) : List Component :=
  if p.isAbsolute then [.root] else []

/-- An absolute path has one step to the root, the first one. -/
theorem exists_components_of_isAbsolute (h : p.isAbsolute = true) :
    ∃ steps, p.components = .root :: steps ∧ .root ∉ steps := by
  obtain ⟨piece, more, hpieces⟩ := exists_pieces_of_isAbsolute h
  refine ⟨(piece :: more).filterMap Component.ofPiece?, ?_, fun hmem => ?_⟩
  · rw [components, hpieces]
    rfl
  · exact (Component.ne_of_mem_filterMap hmem).1 rfl

/-- What is kept of a path is what is kept of its route. -/
theorem way_eq_kept (p : Path) : p.way = p.route.kept p.start := by
  cases h : p.isAbsolute with
  | false =>
    have hkept : p.components.foldl follow (Route.stay.kept []) = p.route.kept [] :=
      Route.foldl_follow_kept (.inl ⟨rfl, root_notMem_components h⟩)
    rw [start, h]
    exact hkept
  | true =>
    obtain ⟨steps, hsteps, -⟩ := exists_components_of_isAbsolute h
    have hkept : steps.foldl follow (Route.stay.kept [.root]) =
        (steps.foldl Route.step .stay).kept [.root] := Route.foldl_follow_kept (.inr rfl)
    rw [start, h, way, route, hsteps]
    exact hkept

/-- The steps of a normal form: the root, if the path is absolute, one `..` if the path has an odd
number of them with no name to undo, and the names that are left. -/
theorem components_normalize_eq (p : Path) :
    p.normalize.components =
      p.start ++ (List.replicate (p.route.up % 2) .parent ++ p.route.down.map .name) := by
  have hstart : p.start.reverse = p.start := by
    unfold start
    split <;> rfl
  rw [components_normalize, ← reverse_way, way_eq_kept, Route.kept]
  simp [hstart]

/-- A normal form is absolute if its path is, and only then. -/
theorem isAbsolute_normalize_eq (p : Path) : p.normalize.isAbsolute = p.isAbsolute := by
  cases h : p.isAbsolute with
  | true => exact isAbsolute_normalize h
  | false =>
    refine Bool.eq_false_iff.mpr fun habsolute => ?_
    have hroot := List.mem_of_mem_head? (head?_components habsolute)
    rw [components_normalize_eq, start, h] at hroot
    simp at hroot

/-- The route of a normal form goes up one level or none, and down through the names of the path. -/
theorem route_normalize (p : Path) : p.normalize.route = ⟨p.route.up % 2, p.route.down⟩ := by
  have hstart : p.start.foldl Route.step .stay = .stay := by
    unfold start
    split <;> rfl
  have hup : (List.replicate (p.route.up % 2) Component.parent).foldl Route.step .stay =
      ⟨p.route.up % 2, []⟩ := by
    rcases Nat.mod_two_eq_zero_or_one p.route.up with h | h <;> rw [h] <;> rfl
  have hdown : ∀ (names : List String) (r : Route),
      (names.map Component.name).foldl Route.step r = ⟨r.up, r.down ++ names⟩ := by
    intro names
    induction names with
    | nil => exact fun r => by simp
    | cons name names ih => exact fun r => by simp [ih, Route.step]
  rw [route, components_normalize_eq, List.foldl_append, List.foldl_append, hstart, hup, hdown,
    List.nil_append]

/-! ## Where a path leads -/

/-- A path that is appended to a base leads on from there. -/
theorem destination_join (base p : Path) :
    (base.join p).destination = p.components.foldl Volume.place base.destination :=
  foldl_components_join (fun _ _ => rfl) (fun _ => rfl) base p []

/-- A relative path leads by its route from any base. -/
theorem destination_join_of_relative (base : Path) (h : p.isAbsolute = false) :
    (base.join p).destination = p.route.apply base.destination := by
  rw [destination_join, route, ← Route.foldl_place _ (root_notMem_components h), Route.apply_stay]

/-- An absolute path leads down from the root through the names of its route, whatever it is
appended to. -/
theorem destination_join_of_isAbsolute (base : Path) (h : p.isAbsolute = true) :
    (base.join p).destination = p.route.down := by
  obtain ⟨steps, hsteps, hroot⟩ := exists_components_of_isAbsolute h
  have hplace := Route.foldl_place .stay hroot []
  rw [Route.apply_stay, Route.apply_nil] at hplace
  rw [destination_join, route, hsteps]
  exact hplace

/-- A normal form leads from a base to the same place as its path, if this is absolute or has at
most one `..` with no name to undo. -/
theorem destination_join_normalize (base : Path) (h : p.isAbsolute = true ∨ p.route.up ≤ 1) :
    (base.join p.normalize).destination = (base.join p).destination := by
  cases habsolute : p.isAbsolute with
  | true =>
    rw [destination_join_of_isAbsolute base habsolute, destination_join_of_isAbsolute base
      (isAbsolute_normalize habsolute), route_normalize]
  | false =>
    have hup : p.route.up % 2 = p.route.up :=
      Nat.mod_eq_of_lt (Nat.lt_succ_of_le (h.resolve_left (by simp [habsolute])))
    rw [destination_join_of_relative base habsolute, destination_join_of_relative base
      (by rw [isAbsolute_normalize_eq, habsolute]), route_normalize, hup]

/-- The number of names that a path goes down through. -/
def nameCount (p : Path) : Nat :=
  p.components.countP fun c => match c with
    | .name _ => true
    | _ => false

/-- No more levels are gone up than there are `..`. -/
theorem up_route_le (p : Path) : p.route.up ≤ p.components.count .parent := by
  calc p.route.up ≤ Route.stay.up + p.components.count .parent := Route.up_foldl_step_le _ _
    _ = p.components.count .parent := Nat.zero_add _

/-- The absolute path that goes down `depth` times. -/
def downward (depth : Nat) : Path :=
  ofComponents (.root :: List.replicate depth (.name "d"))

theorem components_downward (depth : Nat) :
    (downward depth).components = .root :: List.replicate depth (.name "d") := by
  have hname : (Component.name "d").Ordinary := by
    unfold Component.Ordinary
    decide
  refine components_ofComponents (fun c hc => ?_) (fun c hc => ?_)
  · rwa [List.eq_of_mem_replicate hc]
  · exact .inl (by simpa using hc.symm)

theorem nameCount_downward (depth : Nat) : (downward depth).nameCount = depth := by
  simp [nameCount, components_downward, List.countP_replicate]

theorem length_destination_downward (depth : Nat) : (downward depth).destination.length = depth := by
  have hplace : ∀ here : List String,
      ((List.replicate depth (Component.name "d")).foldl Volume.place here).length =
        here.length + depth := by
    induction depth with
    | zero => exact fun here => rfl
    | succ depth ih =>
      intro here
      rw [List.replicate_succ, List.foldl_cons, ih, Volume.place, List.length_append,
        List.length_singleton]
      omega
  rw [destination, components_downward, List.foldl_cons, hplace]
  exact Nat.zero_add depth

/-- If a normal form leads to the place of its relative path from a base that is deep enough, the
path has at most one `..` with no name to undo. -/
theorem up_route_le_one (h : p.isAbsolute = false)
    (hplace : ((downward (p.components.count .parent)).join p.normalize).destination =
      ((downward (p.components.count .parent)).join p).destination) : p.route.up ≤ 1 := by
  rw [destination_join_of_relative _ h, destination_join_of_relative _
    (by rw [isAbsolute_normalize_eq, h]), route_normalize] at hplace
  -- The two places differ by the levels that are lost.
  have hlength := congrArg List.length hplace
  simp only [Route.apply, List.length_append, List.length_take,
    length_destination_downward] at hlength
  have := up_route_le p
  omega

/-- The normal form of a path is the lexical one and keeps its meaning. That of an absolute path has
neither `.` nor `..`, and that of a relative one has no `..` but those that it starts with; and from
any absolute base with at least as many names as the path has `..`, both lead to the same place. -/
def NormalizedLexically (p : Path) : Prop :=
  (p.isAbsolute = true →
    .current ∉ p.normalize.components ∧ .parent ∉ p.normalize.components) ∧
  (p.isAbsolute = false → ∃ levels rest,
    p.normalize.components = List.replicate levels .parent ++ rest ∧ .parent ∉ rest) ∧
  ∀ base : Path, base.isAbsolute = true → p.components.count .parent ≤ base.nameCount →
    (base.join p.normalize).destination = (base.join p).destination

/-- The normal form of an absolute path is the lexical one exactly if the `..` that have no name to
undo are even in number, and that of a relative path exactly if they are one at most. -/
theorem normalizedLexically_iff (p : Path) : p.NormalizedLexically ↔
    (p.isAbsolute = true → p.route.up % 2 = 0) ∧ (p.isAbsolute = false → p.route.up ≤ 1) := by
  constructor
  · rintro ⟨hshape, -, hplace⟩
    refine ⟨fun h => ?_, fun h => ?_⟩
    · have hparent := (hshape h).2
      rw [components_normalize_eq] at hparent
      rcases Nat.mod_two_eq_zero_or_one p.route.up with heven | hodd
      · exact heven
      · exact absurd (by simp [hodd]) hparent
    · exact up_route_le_one h
        (hplace _ (isAbsolute_ofComponents _) (Nat.le_of_eq (nameCount_downward _).symm))
  · rintro ⟨heven, hone⟩
    refine ⟨fun h => ?_, fun h => ?_, fun base _ _ => destination_join_normalize base ?_⟩
    · rw [components_normalize_eq, heven h, start, h]
      simp
    · refine ⟨p.route.up % 2, p.route.down.map .name, ?_, by simp⟩
      rw [components_normalize_eq, start, h]
      rfl
    · cases h : p.isAbsolute with
      | true => exact .inl rfl
      | false => exact .inr (hone h)

/-- Not every normal form is the lexical one. A `..` at the root is kept, and two `..` at the start
of a relative path undo each other. -/
theorem not_normalizedLexically_climbing :
    (normalize ⟨"/.."⟩ = ⟨"/.."⟩ ∧ ¬ NormalizedLexically ⟨"/.."⟩) ∧
      normalize ⟨"../.."⟩ = ⟨""⟩ ∧
      (join ⟨"/a/b"⟩ (normalize ⟨"../.."⟩)).destination = ["a", "b"] ∧
      (join ⟨"/a/b"⟩ ⟨"../.."⟩).destination = [] ∧ ¬ NormalizedLexically ⟨"../.."⟩ := by
  have hroot : normalize ⟨"/.."⟩ = ⟨"/.."⟩ := by decide +kernel
  have hnormal : normalize ⟨"../.."⟩ = ⟨""⟩ := by decide +kernel
  refine ⟨⟨hroot, fun h => ?_⟩, hnormal, by decide +kernel, by decide +kernel, fun h => ?_⟩
  · have hparent := (h.1 (by decide)).2
    rw [hroot] at hparent
    exact hparent (by decide)
  · have hplace := h.2.2 ⟨"/a/b"⟩ (by decide) (by decide)
    rw [hnormal] at hplace
    exact absurd hplace (by decide)

end Path

end ShaderTemplate
