import ShaderTemplate.Include.Resolution
import ShaderTemplate.Include.Site
import ShaderTemplate.Parser.Chunk

/-!
# Loading included files

The files of one pass are loaded concurrently. A load is polled once in every round until it ends;
the loads are polled in document order. A load that fails to resolve, or whose file is already being
expanded around it, ends when it is first polled; one that reads a file ends after as many further
rounds as the host puts the read off. A file is registered as a dependency before it is read, so
the loads of a pass register their files in document order, whatever order their reads end in
(`registered_of_error?_eq_none`).

How the loads of a pass are waited for depends on their number. Few loads are waited for together:
the first failure met ends the pass. Of many loads the results are taken in document order, so the
first failing load in the document decides, as soon as it and the loads before it have ended.
-/

namespace ShaderTemplate

/-- What an expansion works with. -/
structure Setup where
  /-- The configuration. -/
  config : Config
  /-- The files. -/
  host : Host
  /-- The reader of source texts. -/
  parser : Parser

/-- The loading of one included file. -/
structure Load where
  /-- The round, counted from zero, in which the load ends. -/
  rounds : Nat
  /-- What is noted when it starts. -/
  starting : Note
  /-- The file that is registered as a dependency before it is read. -/
  registering : Option Path
  /-- What is noted when its file has been read. -/
  reading : Option Note
  /-- What it comes to. -/
  result : Except Error Chunk
  deriving Repr

namespace Load

/-- The error of a load that fails. -/
def error? (load : Load) : Option Error :=
  match load.result with
  | .ok _ => none
  | .error e => some e

/-- The chunk of a load that succeeds. -/
def chunk? (load : Load) : Option Chunk :=
  load.result.toOption

end Load

/-- Load the file that a site asks for. -/
def Setup.load (setup : Setup) (site : Site) : Load :=
  let starting := resolvingNote site.value site.issuer setup.config
  match resolve setup.host site.value site.issuer setup.config with
  | .error e => ⟨0, starting, none, none, .error e⟩
  | .ok path =>
    -- The file stands around the directive already.
    if site.chain.any fun file => path.Same file then
      ⟨0, starting, none, none, .error (.cyclicInclude (site.chain ++ [path]))⟩
    else
      let rounds := setup.host.delay path
      match setup.host.read path with
      | .error cause => ⟨rounds, starting, some path, none, .error (.unreadable path cause)⟩
      | .ok source =>
        -- The note is made before the text is parsed, so it is made of a malformed file too.
        let reading := Note.included path site.issuer source.utf8ByteSize
        match setup.parser source with
        | .error e =>
          ⟨rounds, starting, some path, some reading, .error (.inSource e (some path) source)⟩
        | .ok tree => ⟨rounds, starting, some path, some reading, .ok ⟨path, tree⟩⟩

/-- One poll of a load. -/
structure Poll where
  /-- The round, counted from zero. -/
  round : Nat
  /-- The place of the load in the document, counted from zero. -/
  place : Nat
  /-- The load. -/
  load : Load
  deriving Repr

namespace Poll

/-- Decide whether the load ends with this poll. -/
def ends (poll : Poll) : Bool :=
  poll.load.rounds == poll.round

/-- Decide whether the load fails with this poll. -/
def fails (poll : Poll) : Bool :=
  poll.ends && poll.load.error?.isSome

/-- What is noted during the poll. -/
def notes (poll : Poll) : List Note :=
  (if poll.round = 0 then [poll.load.starting] else []) ++
    (if poll.ends then poll.load.reading.toList else [])

/-- What is registered during the poll. -/
def registering (poll : Poll) : Option Path :=
  if poll.round = 0 then poll.load.registering else none

end Poll

namespace Loads

/-- The number of rounds after which all loads have ended. -/
def rounds (loads : List Load) : Nat :=
  loads.foldr (fun load most => max (load.rounds + 1) most) 0

/-- The polls of one round: every load that has not ended in an earlier round, in document order. -/
def pollsOfRound (loads : List Load) (round : Nat) : List Poll :=
  (loads.zipIdx.filter fun entry => round ≤ entry.1.rounds).map fun entry =>
    ⟨round, entry.2, entry.1⟩

/-- The polls of all loads, round by round. -/
def polls (loads : List Load) : List Poll :=
  (List.range (rounds loads)).flatMap (pollsOfRound loads)

/-- The greatest number of loads that are waited for together. -/
def fewest : Nat := 30

/-- Keep the polls up to the first that satisfies `p`. -/
def throughFirst (p : Poll → Bool) : List Poll → List Poll
  | [] => []
  | poll :: rest => if p poll then [poll] else poll :: throughFirst p rest

/-- The polls that take place before the outcome of a pass is known. -/
def pollsNeeded (loads : List Load) : List Poll :=
  if loads.length ≤ fewest then throughFirst Poll.fails (polls loads)
  else
    match loads.findIdx? fun load => load.error?.isSome with
    | none => polls loads
    | some place =>
      -- The results before the failing one are taken first, however late they come.
      Text.dropEndWhile (fun poll => !(poll.ends && decide (poll.place ≤ place))) (polls loads)

/-- The error that a pass reports, if one of its loads fails. -/
def error? (loads : List Load) : Option Error :=
  if loads.length ≤ fewest then
    ((polls loads).find? Poll.fails).bind fun poll => poll.load.error?
  else loads.findSome? Load.error?

/-- Wait for the loads of a pass; their chunks come in document order. -/
def await (loads : List Load) : Traced Error (List Chunk) where
  log := (pollsNeeded loads).flatMap Poll.notes
  outcome :=
    match error? loads with
    | some e => .error e
    | none => .ok (loads.filterMap Load.chunk?)

/-- The files that the loads of a pass register while they are waited for, in the order of their
polls. -/
def registered (loads : List Load) : List Path :=
  (pollsNeeded loads).filterMap Poll.registering

/-! ## When a pass fails -/

theorem rounds_lt {loads : List Load} {load : Load} (h : load ∈ loads) :
    load.rounds < rounds loads := by
  induction loads with
  | nil => exact absurd h (by simp)
  | cons first rest ih =>
    rw [rounds, List.foldr_cons, ← rounds]
    rcases List.mem_cons.mp h with rfl | h
    · omega
    · have := ih h
      omega

/-- Every load is polled in the round in which it ends. -/
theorem exists_poll_ends {loads : List Load} {load : Load} (h : load ∈ loads) :
    ∃ poll ∈ polls loads, poll.ends = true ∧ poll.load = load := by
  obtain ⟨place, hget⟩ := List.mem_iff_getElem?.mp h
  have hplace : (load, place) ∈ loads.zipIdx := List.mk_mem_zipIdx_iff_getElem?.mpr hget
  refine ⟨⟨load.rounds, place, load⟩, ?_, by simp [Poll.ends], rfl⟩
  refine List.mem_flatMap.mpr ⟨load.rounds, List.mem_range.mpr (rounds_lt h), ?_⟩
  exact List.mem_map.mpr ⟨(load, place), List.mem_filter.mpr ⟨hplace, by simp⟩, rfl⟩

/-- Only loads of the pass are polled. -/
theorem load_mem_of_mem_polls {loads : List Load} {poll : Poll} (h : poll ∈ polls loads) :
    poll.load ∈ loads := by
  obtain ⟨round, -, hround⟩ := List.mem_flatMap.mp h
  obtain ⟨entry, hentry, rfl⟩ := List.mem_map.mp hround
  exact List.fst_mem_of_mem_zipIdx (List.mem_filter.mp hentry).1

/-- A pass fails exactly if one of its loads does. -/
theorem error?_eq_none_iff {loads : List Load} :
    error? loads = none ↔ ∀ load ∈ loads, load.error? = none := by
  unfold error?
  split
  · -- Few loads: the error is that of the first poll that fails.
    constructor
    · intro h load hload
      obtain ⟨poll, hpoll, hends, rfl⟩ := exists_poll_ends hload
      cases herror : poll.load.error? with
      | none => rfl
      | some e =>
        exfalso
        cases hfind : (polls loads).find? Poll.fails with
        | none =>
          have := List.find?_eq_none.mp hfind poll hpoll
          simp [Poll.fails, hends, herror] at this
        | some found =>
          have hfound := List.find?_some hfind
          rw [hfind, Option.bind_some] at h
          simp [Poll.fails, h] at hfound
    · intro h
      cases hfind : (polls loads).find? Poll.fails with
      | none => rfl
      | some found =>
        exact h _ (load_mem_of_mem_polls (List.mem_of_find?_eq_some hfind))
  · -- Many loads: it is that of the first load that fails.
    exact List.findSome?_eq_none_iff

/-- A pass whose loads all succeed gives their chunks. -/
theorem outcome_await_eq_ok_iff {loads : List Load} {chunks : List Chunk} :
    (await loads).outcome = .ok chunks ↔
      (∀ load ∈ loads, load.error? = none) ∧ chunks = loads.filterMap Load.chunk? := by
  rw [← error?_eq_none_iff]
  unfold await
  cases error? loads <;> simp [eq_comm]

/-! ## What a pass registers -/

theorem throughFirst_eq_self {p : Poll → Bool} {polls : List Poll}
    (h : ∀ poll ∈ polls, p poll = false) : throughFirst p polls = polls := by
  induction polls with
  | nil => rfl
  | cons poll rest ih =>
    rw [throughFirst, h poll List.mem_cons_self,
      ih fun poll hpoll => h poll (List.mem_cons_of_mem _ hpoll)]
    simp

/-- Every load is polled until it ends, if none fails. -/
theorem pollsNeeded_of_error?_eq_none {loads : List Load}
    (h : ∀ load ∈ loads, load.error? = none) : pollsNeeded loads = polls loads := by
  unfold pollsNeeded
  split
  · refine throughFirst_eq_self fun poll hpoll => ?_
    simp [Poll.fails, h _ (load_mem_of_mem_polls hpoll)]
  · have hnone : (loads.findIdx? fun load => load.error?.isSome) = none := by
      simpa [List.findIdx?_eq_none_iff] using h
    rw [hnone]

/-- What is registered in a round: everything in the first one, nothing later. -/
theorem filterMap_registering_pollsOfRound (loads : List Load) (round : Nat) :
    (pollsOfRound loads round).filterMap Poll.registering =
      if round = 0 then loads.filterMap Load.registering else [] := by
  by_cases h : round = 0
  · have every : loads.zipIdx.filter (fun entry => decide (0 ≤ entry.1.rounds)) = loads.zipIdx :=
      List.filter_eq_self.mpr (by simp)
    calc (pollsOfRound loads round).filterMap Poll.registering
        = loads.zipIdx.filterMap (Load.registering ∘ Prod.fst) := by
          rw [h, pollsOfRound, every, List.filterMap_map]
          rfl
      _ = (loads.zipIdx.map Prod.fst).filterMap Load.registering := List.filterMap_map.symm
      _ = if round = 0 then loads.filterMap Load.registering else [] := by
          rw [List.zipIdx_map_fst, if_pos h]
  · rw [if_neg h]
    refine List.filterMap_eq_nil_iff.mpr fun poll hpoll => ?_
    obtain ⟨entry, -, rfl⟩ := List.mem_map.mp hpoll
    exact if_neg h

/-- The files of a pass are registered in document order, if none of its loads fails. -/
theorem registered_of_error?_eq_none {loads : List Load}
    (h : ∀ load ∈ loads, load.error? = none) :
    registered loads = loads.filterMap Load.registering := by
  rw [registered, pollsNeeded_of_error?_eq_none h, polls, List.filterMap_flatMap]
  simp only [filterMap_registering_pollsOfRound]
  cases loads with
  | nil => rfl
  | cons first rest =>
    -- There is a first round, as there is a load.
    have hrounds : first.rounds < rounds (first :: rest) := rounds_lt List.mem_cons_self
    obtain ⟨more, hmore⟩ := Nat.exists_eq_add_one_of_ne_zero (Nat.ne_zero_of_lt hrounds)
    rw [hmore, List.range_succ_eq_map, List.flatMap_cons, List.flatMap_map]
    simp

end Loads

end ShaderTemplate
