import Mathlib.Data.Prod.Lex
import ShaderTemplate.Proofs.Expansion.Failure
import ShaderTemplate.Proofs.Expansion.Termination

/-!
# Which error is reported

Several includes of one pass may fail, and only one error is reported. Which one it is follows from
the number of polls that each load takes and from the order of the directives in the document; it
need not be found by playing the rounds. A lookup that fails and a file that stands around its own
directive end a load when it is first polled; a file that cannot be read, and one that is malformed,
end it after the delay of the file (`Setup.FailsAfter`). Of the failing loads of a pass the one with
the least number of polls decides, and of several such ones the first in the document; of more than
thirty loads the first in the document that fails at all (`Setup.Blames`).

The polls of a pass come in the order of their rounds, and in the order of the document within a
round (`Loads.pairwise_polls`), and the first of them that fails is the least one in this order.

Main statements:

- `Loads.error?_eq_some_iff`: the error of a pass as that of the least load that fails;
- `Setup.failsAfter_iff`: when a load fails, told without the rounds;
- `Setup.expand_eq_error_iff`: the error of an expansion.
-/

namespace ShaderTemplate

/-- In a list in increasing order, the first item that satisfies `p` is the least one that does. -/
theorem find?_eq_some_iff_least {α β : Type} [LinearOrder β] {key : α → β} {list : List α}
    (h : list.Pairwise fun a b => key a < key b) {p : α → Bool} {a : α} :
    list.find? p = some a ↔
      a ∈ list ∧ p a = true ∧ ∀ b ∈ list, p b = true → key a ≤ key b := by
  induction list with
  | nil => simp
  | cons first rest ih =>
    obtain ⟨hfirst, hrest⟩ := List.pairwise_cons.mp h
    cases hp : p first with
    | true =>
      rw [List.find?_cons_of_pos hp, Option.some.injEq]
      constructor
      · rintro rfl
        refine ⟨List.mem_cons_self, hp, fun b hb _ => ?_⟩
        rcases List.mem_cons.mp hb with rfl | hb
        · exact le_rfl
        · exact (hfirst b hb).le
      · rintro ⟨ha, -, hleast⟩
        rcases List.mem_cons.mp ha with rfl | ha
        · rfl
        · -- An item behind the first one is not the least.
          exact absurd (hleast first List.mem_cons_self hp) (not_le.mpr (hfirst a ha))
    | false =>
      rw [List.find?_cons_of_neg (by simp [hp]), ih hrest]
      constructor
      · rintro ⟨ha, hpa, hleast⟩
        refine ⟨List.mem_cons_of_mem _ ha, hpa, fun b hb hpb => ?_⟩
        rcases List.mem_cons.mp hb with rfl | hb
        · exact absurd (hp.symm.trans hpb) (by simp)
        · exact hleast b hb hpb
      · rintro ⟨ha, hpa, hleast⟩
        rcases List.mem_cons.mp ha with rfl | ha
        · exact absurd (hp.symm.trans hpa) (by simp)
        · exact ⟨ha, hpa, fun b hb => hleast b (List.mem_cons_of_mem _ hb)⟩

/-! ## The order of the polls -/

/-- Where a poll comes in a pass: by its round, and by its place in the document within a round. -/
def Poll.key (poll : Poll) : Nat ×ₗ Nat :=
  toLex (poll.round, poll.place)

namespace Loads

variable {loads : List Load} {poll : Poll} {e : Error}

/-- The polls of a round are those of the loads that have not ended before it. -/
theorem mem_pollsOfRound_iff {round : Nat} : poll ∈ pollsOfRound loads round ↔
    poll.round = round ∧ loads[poll.place]? = some poll.load ∧ round ≤ poll.load.rounds := by
  rw [pollsOfRound, List.mem_map]
  constructor
  · rintro ⟨⟨load, place⟩, hentry, rfl⟩
    obtain ⟨hplace, hround⟩ := List.mem_filter.mp hentry
    exact ⟨rfl, List.mk_mem_zipIdx_iff_getElem?.mp hplace, of_decide_eq_true hround⟩
  · rintro ⟨rfl, hplace, hround⟩
    refine ⟨(poll.load, poll.place), List.mem_filter.mpr ⟨?_, decide_eq_true hround⟩, rfl⟩
    exact List.mk_mem_zipIdx_iff_getElem?.mpr hplace

/-- The polls of a pass are those of its loads, each up to the round in which it ends. -/
theorem mem_polls_iff : poll ∈ polls loads ↔
    loads[poll.place]? = some poll.load ∧ poll.round ≤ poll.load.rounds := by
  simp only [polls, List.mem_flatMap, List.mem_range, mem_pollsOfRound_iff]
  constructor
  · rintro ⟨_, _, rfl, hplace, hround⟩
    exact ⟨hplace, hround⟩
  · rintro ⟨hplace, hround⟩
    refine ⟨poll.round, ?_, rfl, hplace, hround⟩
    exact Nat.lt_of_le_of_lt hround (rounds_lt (List.mem_of_getElem? hplace))

/-- The polls of a round come in document order. -/
theorem pairwise_pollsOfRound (loads : List Load) (round : Nat) :
    (pollsOfRound loads round).Pairwise fun a b => a.key < b.key := by
  have hplaces : loads.zipIdx.Pairwise fun a b => a.2 < b.2 := by
    rw [← List.pairwise_map (f := Prod.snd), List.zipIdx_map_snd]
    exact List.pairwise_lt_range'
  refine List.pairwise_map.mpr ((hplaces.filter _).imp fun hlt => ?_)
  exact Prod.Lex.toLex_lt_toLex.mpr (.inr ⟨rfl, hlt⟩)

/-- The polls of a pass come round by round, and in document order within a round. -/
theorem pairwise_polls (loads : List Load) :
    (polls loads).Pairwise fun a b => a.key < b.key := by
  refine List.pairwise_flatMap.mpr ⟨fun round _ => pairwise_pollsOfRound loads round, ?_⟩
  refine List.pairwise_lt_range.imp fun hlt a ha b hb => Prod.Lex.toLex_lt_toLex.mpr (.inl ?_)
  rwa [(mem_pollsOfRound_iff.mp ha).1, (mem_pollsOfRound_iff.mp hb).1]

/-- A poll fails if its load does and ends with it. -/
theorem fails_iff : poll.fails = true ↔
    poll.load.rounds = poll.round ∧ poll.load.error?.isSome = true := by
  rw [Poll.fails, Bool.and_eq_true, Poll.ends, beq_iff_eq]

/-- The first poll that fails is the last poll of the load that fails after the fewest polls, and of
several such loads that of the first one. -/
theorem find?_fails_eq_some_iff : (polls loads).find? Poll.fails = some poll ↔
    (loads[poll.place]? = some poll.load ∧ poll.fails = true) ∧
      ∀ (place : Nat) (load : Load), loads[place]? = some load → load.error?.isSome = true →
        poll.key ≤ toLex (load.rounds, place) := by
  rw [find?_eq_some_iff_least (pairwise_polls loads), and_assoc]
  constructor
  · rintro ⟨hmem, hfails, hleast⟩
    refine ⟨(mem_polls_iff.mp hmem).1, hfails, fun place load hplace herror => ?_⟩
    -- The load is polled in the round in which it ends.
    exact hleast ⟨load.rounds, place, load⟩ (mem_polls_iff.mpr ⟨hplace, le_rfl⟩)
      (fails_iff.mpr ⟨rfl, herror⟩)
  · rintro ⟨hplace, hfails, hleast⟩
    refine ⟨mem_polls_iff.mpr ⟨hplace, (fails_iff.mp hfails).1.ge⟩, hfails, ?_⟩
    intro other hother hfailsOther
    obtain ⟨hround, herror⟩ := fails_iff.mp hfailsOther
    have hle := hleast other.place other.load (mem_polls_iff.mp hother).1 herror
    rwa [hround] at hle

/-- Of the loads that fail, the first one is the one before which none fails. -/
theorem findSome?_error?_eq_some_iff : loads.findSome? Load.error? = some e ↔
    ∃ (place : Nat) (load : Load), loads[place]? = some load ∧ load.error? = some e ∧
      ∀ (other : Nat) (load' : Load), loads[other]? = some load' → load'.error?.isSome = true →
        place ≤ other := by
  rw [List.findSome?_eq_some_iff]
  constructor
  · rintro ⟨before, load, after, rfl, herror, hbefore⟩
    refine ⟨before.length, load, by simp, herror, fun other load' hother hfails => ?_⟩
    -- A load that is not behind the failing one stands before it, and does not fail.
    refine not_lt.mp fun hlt => ?_
    rw [List.getElem?_append_left hlt] at hother
    rw [hbefore load' (List.mem_of_getElem? hother)] at hfails
    exact absurd hfails (by simp)
  · rintro ⟨place, load, hplace, herror, hleast⟩
    obtain ⟨hlt, hget⟩ := List.getElem?_eq_some_iff.mp hplace
    refine ⟨loads.take place, load, loads.drop (place + 1), ?_, herror, fun load' hload' => ?_⟩
    · rw [← hget, List.getElem_cons_drop, List.take_append_drop]
    · obtain ⟨other, hother⟩ := List.mem_iff_getElem?.mp hload'
      have hbefore : other < place := by
        have := (List.getElem?_eq_some_iff.mp hother).1
        rw [List.length_take] at this
        omega
      rw [List.getElem?_take_of_lt hbefore] at hother
      refine Option.not_isSome_iff_eq_none.mp fun hfails => ?_
      exact absurd (hleast other load' hother hfails) (not_le.mpr hbefore)

/-- The error that is reported is that of the load that fails after the fewest polls, and of several
such loads that of the first one. If there are more loads than are waited for together, it is that
of the first load that fails. -/
theorem error?_eq_some_iff : error? loads = some e ↔
    ∃ (place : Nat) (load : Load), loads[place]? = some load ∧ load.error? = some e ∧
      ∀ (other : Nat) (load' : Load), loads[other]? = some load' → load'.error?.isSome = true →
        if loads.length ≤ fewest then toLex (load.rounds, place) ≤ toLex (load'.rounds, other)
        else place ≤ other := by
  unfold error?
  by_cases hfew : loads.length ≤ fewest
  · simp only [if_pos hfew, Option.bind_eq_some_iff, find?_fails_eq_some_iff]
    constructor
    · rintro ⟨⟨round, place, load⟩, ⟨⟨hplace, hfails⟩, hleast⟩, herror⟩
      obtain rfl : load.rounds = round := (fails_iff.mp hfails).1
      exact ⟨place, load, hplace, herror, hleast⟩
    · rintro ⟨place, load, hplace, herror, hleast⟩
      refine ⟨⟨load.rounds, place, load⟩, ⟨⟨hplace, fails_iff.mpr ⟨rfl, ?_⟩⟩, hleast⟩, herror⟩
      rw [herror, Option.isSome_some]
  · simp only [if_neg hfew, findSome?_error?_eq_some_iff]

end Loads

namespace Setup

variable {setup : Setup} {file : Path} {site : Site} {e : Error} {number count : Nat}
  {current last : Expansion}

/-! ## When a load fails -/

/-- The load of a site fails with an error when it has been polled so many times without an end. A
file that is not found and one that stands around the directive already fail it at once. A file that
cannot be read, and one that is malformed, fail it when the delay of the file is over. -/
inductive FailsAfter (setup : Setup) (site : Site) : Nat → Error → Prop
  /-- The file is not found. -/
  | notFound {e : Error}
      (hpath : resolve setup.host site.value site.issuer setup.config = .error e) :
      FailsAfter setup site 0 e
  /-- The file stands around the directive already. -/
  | cyclic {path p : Path}
      (hpath : resolve setup.host site.value site.issuer setup.config = .ok path)
      (hp : p ∈ site.chain) (same : path.Same p) :
      FailsAfter setup site 0 (.cyclicInclude (site.chain ++ [path]))
  /-- The file cannot be read. -/
  | unreadable {path : Path} {cause : HostFault}
      (hpath : resolve setup.host site.value site.issuer setup.config = .ok path)
      (hnew : ∀ p ∈ site.chain, ¬ path.Same p) (hread : setup.host.read path = .error cause) :
      FailsAfter setup site (setup.host.delay path) (.unreadable path cause)
  /-- The file is malformed. -/
  | malformed {path : Path} {source : String} {fault : SyntaxError}
      (hpath : resolve setup.host site.value site.issuer setup.config = .ok path)
      (hnew : ∀ p ∈ site.chain, ¬ path.Same p) (hread : setup.host.read path = .ok source)
      (hparse : setup.parser source = .error fault) :
      FailsAfter setup site (setup.host.delay path) (.inSource fault (some path) source)

/-- The round in which a load ends: the first one if there is no file to read, and otherwise the one
in which its delay is over. -/
theorem rounds_load_of_ok {path : Path}
    (hpath : resolve setup.host site.value site.issuer setup.config = .ok path) :
    (setup.load site).rounds =
      if ∃ p ∈ site.chain, path.Same p then 0 else setup.host.delay path := by
  simp only [load, hpath]
  by_cases hmem : ∃ p ∈ site.chain, path.Same p
  · have hchain : (site.chain.any fun p => decide (path.Same p)) = true := by simpa using hmem
    rw [if_pos hmem, if_pos hchain]
  · have hchain : ¬ (site.chain.any fun p => decide (path.Same p)) = true := by simpa using hmem
    rw [if_neg hmem, if_neg hchain]
    cases setup.host.read path with
    | error cause => rfl
    | ok source =>
      simp only
      split <;> rfl

/-- A load that finds no file ends when it is first polled. -/
theorem rounds_load_of_error
    (hpath : resolve setup.host site.value site.issuer setup.config = .error e) :
    (setup.load site).rounds = 0 := by
  simp only [load, hpath]

/-- A load fails with its error in the round in which it ends. -/
theorem failsAfter_iff {turns : Nat} : setup.FailsAfter site turns e ↔
    (setup.load site).error? = some e ∧ (setup.load site).rounds = turns := by
  constructor
  · intro h
    rw [error?_load_eq_some_iff]
    cases h with
    | notFound hpath => exact ⟨.inl hpath, rounds_load_of_error hpath⟩
    | cyclic hpath hp same =>
      refine ⟨.inr ⟨_, hpath, .inl ⟨⟨_, hp, same⟩, rfl⟩⟩, ?_⟩
      rw [rounds_load_of_ok hpath, if_pos ⟨_, hp, same⟩]
    | unreadable hpath hnew hread =>
      refine ⟨.inr ⟨_, hpath, .inr ⟨hnew, .inl ⟨_, hread, rfl⟩⟩⟩, ?_⟩
      rw [rounds_load_of_ok hpath, if_neg (by simpa using hnew)]
    | malformed hpath hnew hread hparse =>
      refine ⟨.inr ⟨_, hpath, .inr ⟨hnew, .inr ⟨_, _, hread, hparse, rfl⟩⟩⟩, ?_⟩
      rw [rounds_load_of_ok hpath, if_neg (by simpa using hnew)]
  · rintro ⟨herror, rfl⟩
    obtain hpath | ⟨path, hpath, ⟨⟨p, hp, same⟩, rfl⟩ | ⟨hnew, hrest⟩⟩ :=
      error?_load_eq_some_iff.mp herror
    · rw [rounds_load_of_error hpath]
      exact .notFound hpath
    · rw [rounds_load_of_ok hpath, if_pos ⟨p, hp, same⟩]
      exact .cyclic hpath hp same
    · rw [rounds_load_of_ok hpath, if_neg (by simpa using hnew)]
      rcases hrest with ⟨cause, hread, rfl⟩ | ⟨source, fault, hread, hparse, rfl⟩
      · exact .unreadable hpath hnew hread
      · exact .malformed hpath hnew hread hparse

/-- A site loads if its load never fails. -/
theorem isSome_chunkAt_iff : (setup.chunkAt site).isSome = true ↔
    ∀ turns e, ¬ setup.FailsAfter site turns e := by
  simp only [← error?_load_eq_none_iff, failsAfter_iff, Option.eq_none_iff_forall_ne_some]
  exact ⟨fun h turns e hfails => h e hfails.1, fun h e herror => h _ e ⟨herror, rfl⟩⟩

/-! ## The error of a pass -/

/-- The error of one of some sites that are loaded in one pass, in document order: of those whose
loads fail, the one with the least number of polls, and of several such ones the first. Of more than
thirty sites it is the first one that fails, however long the others take. -/
def Blames (setup : Setup) (sites : List Site) (e : Error) : Prop :=
  ∃ (place : Nat) (site : Site) (turns : Nat), sites[place]? = some site ∧
    setup.FailsAfter site turns e ∧
    ∀ (place' : Nat) (site' : Site) (turns' : Nat) (e' : Error), sites[place']? = some site' →
      setup.FailsAfter site' turns' e' →
      if sites.length ≤ 30 then toLex (turns, place) ≤ toLex (turns', place')
      else place ≤ place'

/-- The loads of sites report the error of the site that is to blame. -/
theorem error?_map_load_iff {sites : List Site} :
    Loads.error? (sites.map setup.load) = some e ↔ setup.Blames sites e := by
  rw [Loads.error?_eq_some_iff]
  have hfewest : Loads.fewest = 30 := rfl
  simp only [Blames, failsAfter_iff, List.length_map, List.getElem?_map, Option.map_eq_some_iff,
    hfewest]
  constructor
  · rintro ⟨place, -, ⟨site, hsite, rfl⟩, herror, hleast⟩
    refine ⟨place, site, _, hsite, ⟨herror, rfl⟩, ?_⟩
    rintro place' site' _ e' hsite' ⟨herror', rfl⟩
    exact hleast place' _ ⟨site', hsite', rfl⟩ (by rw [herror', Option.isSome_some])
  · rintro ⟨place, site, _, hsite, ⟨herror, rfl⟩, hleast⟩
    refine ⟨place, _, ⟨site, hsite, rfl⟩, herror, ?_⟩
    rintro place' _ ⟨site', hsite', rfl⟩ hfails
    obtain ⟨e', herror'⟩ := Option.isSome_iff_exists.mp hfails
    exact hleast place' site' _ e' hsite' ⟨herror', rfl⟩

/-- A pass fails with the error of the site that is to blame. -/
theorem outcome_pass_eq_error_iff : (setup.pass file number current).outcome = .error e ↔
    setup.Blames (current.tree.sites [] file.normalize) e := by
  rw [← error?_map_load_iff]
  refine ⟨error?_of_outcome_pass, fun herror => ?_⟩
  simp only [pass, map_load_siteAt, Loads.await, herror]
  rfl

/-! ## The error of an expansion -/

/-- Before a pass that succeeds has been followed by another one, no load of it has failed. -/
theorem Passed.not_failsAfter {earlier : Nat} {state : Expansion}
    (h : Passed setup file number count current last)
    (hstate : Passed setup file number earlier current state) (hlt : earlier < count) :
    ∀ site ∈ state.tree.sites [] file.normalize, ∀ turns e, ¬ setup.FailsAfter site turns e := by
  -- The passes lead from one state to one next state, so both ways make the same passes.
  induction hstate generalizing count with
  | start =>
    cases h with
    | start => exact absurd hlt (by simp)
    | pass _ hpasses _ =>
      exact fun site hsite =>
        isSome_chunkAt_iff.mp ((outcome_pass_eq_ok_iff.mp hpasses).1 site hsite)
  | pass _ hpasses' _ ih =>
    cases h with
    | start => exact absurd hlt (by simp)
    | pass _ hpasses hrest =>
      obtain rfl := Except.ok.inj (hpasses.symm.trans hpasses')
      exact ih hrest (Nat.lt_of_succ_lt_succ hlt)

/-- If a pass fails after some that succeed, the run fails with its error. -/
theorem Passed.exists_run_of_error (h : Passed setup file number count current last)
    (hne : last.tree.query Node.isInclude ≠ [])
    (hfails : (setup.pass file (number + count) last).outcome = .error e) :
    ∃ result, Run setup file number current result ∧ result.outcome = .error e := by
  induction h with
  | @start number current =>
    refine ⟨_, .failed (fun hnil => hne ?_) hfails, rfl⟩
    exact (Tree.query_isInclude_eq_nil_iff _ _ _).mpr hnil
  | @pass number count current next last hcurrent hpasses _ ih =>
    rw [Nat.add_comm count 1, ← Nat.add_assoc] at hfails
    obtain ⟨later, hlater, herror⟩ := ih hne hfails
    refine ⟨_, .passed (fun hnil => hcurrent ?_) hpasses hlater, herror⟩
    exact (Tree.query_isInclude_eq_nil_iff _ _ _).mpr hnil

/-- An expansion fails exactly if, after some passes in none of which the load of a site fails, there
is a pass in which one does. It fails with the error of the site of that pass that is to blame. -/
theorem expand_eq_error_iff (setup : Setup) (file : Path) (tree : Tree) (e : Error) :
    (setup.expand file tree).outcome = .error e ↔
      ∃ count last, setup.Passed file 1 count ⟨tree, .empty⟩ last ∧
        (∀ earlier state, earlier < count →
          setup.Passed file 1 earlier ⟨tree, .empty⟩ state →
            ∀ site ∈ state.tree.sites [] file.normalize,
              ∀ turns e', ¬ setup.FailsAfter site turns e') ∧
        setup.Blames (last.tree.sites [] file.normalize) e := by
  constructor
  · intro herror
    obtain ⟨count, last, hpassed, ⟨-, hok, -⟩ | ⟨-, ⟨e', hfails, he'⟩, -⟩⟩ :=
      (run_expand setup file tree).exists_passed
    · exact absurd (herror.symm.trans hok) (by simp)
    · obtain rfl : e = e' := Except.error.inj (herror.symm.trans he')
      exact ⟨count, last, hpassed, fun earlier state hlt hstate =>
        hpassed.not_failsAfter hstate hlt, outcome_pass_eq_error_iff.mp hfails⟩
  · rintro ⟨count, last, hpassed, -, hblames⟩
    have hne : last.tree.query Node.isInclude ≠ [] := by
      obtain ⟨place, site, -, hsite, -⟩ := hblames
      intro hnil
      rw [(Tree.query_isInclude_eq_nil_iff _ _ _).mp hnil] at hsite
      exact absurd hsite (by simp)
    obtain ⟨result, hrun, hresult⟩ :=
      hpassed.exists_run_of_error hne (outcome_pass_eq_error_iff.mpr hblames)
    rw [hrun.eq_expand, hresult]

end Setup

end ShaderTemplate
