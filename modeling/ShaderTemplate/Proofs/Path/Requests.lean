import ShaderTemplate.Proofs.Path.Joining

/-!
# Requests stay below their base

A request is looked up by appending its specifier to a directory. An absolute specifier would
replace the directory, so the slashes that it starts with are taken off and the configured root is
put in the place of the issuer's directory. What is left is never absolute, whatever the value of
the directive and the configured extension are.

How many slashes there are makes no difference. They are no steps of the path that the specifier
spells, so they have no part in its extension, and cleaning the value of a directive keeps all of
them: cleaning a value with further slashes in front of its first one (`Text.slashed`) puts the same
slashes in front of the cleaned specifier.

Main statements:

- `Specifier.cleaned_slashed`: cleaning keeps further slashes;
- `Request.exists_anchored`: a specifier that starts with slashes is looked up from the root;
- `Request.ofValue_anchored`: what a request asks for stays below its context.
-/

namespace ShaderTemplate

namespace Text

variable {n : Nat} {p : Char → Bool} {text front back : List Char}

/-- Put `n` further slashes in front of the first slash of a text. -/
def slashed (n : Nat) : List Char → List Char
  | [] => []
  | c :: rest => if c = '/' then List.replicate n '/' ++ c :: rest else c :: slashed n rest

@[simp] theorem slashed_nil (n : Nat) : slashed n [] = [] := rfl

theorem slashed_slash_cons (n : Nat) (rest : List Char) :
    slashed n ('/' :: rest) = List.replicate n '/' ++ '/' :: rest := rfl

theorem slashed_cons_of_ne {c : Char} (h : c ≠ '/') (n : Nat) (rest : List Char) :
    slashed n (c :: rest) = c :: slashed n rest :=
  if_neg h

/-- What stands in front of the first slash stays there. -/
theorem slashed_append_slash (h : '/' ∉ front) (n : Nat) (back : List Char) :
    slashed n (front ++ '/' :: back) = front ++ (List.replicate n '/' ++ '/' :: back) := by
  induction front with
  | nil => rfl
  | cons c front ih =>
    obtain ⟨hc, hfront⟩ := List.ne_and_not_mem_of_not_mem_cons h
    rw [List.cons_append, slashed_cons_of_ne (Ne.symm hc), ih hfront, List.cons_append]

/-- What has no slash stays at the end. -/
theorem slashed_append (h : '/' ∉ back) (n : Nat) (front : List Char) :
    slashed n (front ++ back) = slashed n front ++ back := by
  induction front with
  | nil =>
    induction back with
    | nil => rfl
    | cons c back ih =>
      obtain ⟨hc, hback⟩ := List.ne_and_not_mem_of_not_mem_cons h
      rw [List.nil_append, slashed_cons_of_ne (Ne.symm hc), ← List.nil_append back, ih hback]
      rfl
  | cons c front ih =>
    by_cases hc : c = '/'
    · subst hc
      rw [List.cons_append, slashed_slash_cons, slashed_slash_cons, List.append_assoc,
        List.cons_append]
    · rw [List.cons_append, slashed_cons_of_ne hc, slashed_cons_of_ne hc, ih, List.cons_append]

/-- The last character stays the last one. -/
theorem getLast?_slashed (n : Nat) (text : List Char) :
    (slashed n text).getLast? = text.getLast? := by
  induction text with
  | nil => rfl
  | cons c rest ih =>
    by_cases hc : c = '/'
    · subst hc
      rw [slashed_slash_cons, List.getLast?_append, List.getLast?_cons, Option.some_or]
    · rw [slashed_cons_of_ne hc, List.getLast?_cons, List.getLast?_cons, ih]

theorem trimStart_slashed (n : Nat) (text : List Char) :
    trimStart (slashed n text) = slashed n (trimStart text) := by
  induction text with
  | nil => rfl
  | cons c rest ih =>
    by_cases hc : c = '/'
    · subst hc
      -- No slash is blank, so the first one of them stops the cut.
      have hblank : isBlank '/' = false := by decide
      have hhead : (List.replicate n '/' ++ '/' :: rest).head? = some '/' := by cases n <;> rfl
      have htext : trimStart ('/' :: rest) = '/' :: rest :=
        trimStart_eq_self (by simpa using hblank)
      rw [htext, slashed_slash_cons]
      refine trimStart_eq_self fun d hd => ?_
      obtain rfl := Option.some.inj (hhead.symm.trans hd)
      exact hblank
    · rw [slashed_cons_of_ne hc, trimStart, trimStart, List.dropWhile_cons, List.dropWhile_cons]
      split
      · exact ih
      · rw [slashed_cons_of_ne hc]

/-- A cut at the end that a slash stops does not come to the further slashes. -/
theorem dropEndWhile_slashed (h : p '/' = false) (n : Nat) (text : List Char) :
    dropEndWhile p (slashed n text) = slashed n (dropEndWhile p text) := by
  obtain ⟨dropped, happend, hdropped⟩ := exists_append_dropEndWhile p text
  -- No slash is in the class, so the first one is kept, or there is none.
  have hslash : '/' ∉ dropped := fun hmem => by simpa [h] using hdropped '/' hmem
  have hlast : ∀ c ∈ (slashed n (dropEndWhile p text)).getLast?, p c = false := by
    intro c hc
    rw [getLast?_slashed] at hc
    exact eq_false_of_mem_getLast?_dropEndWhile hc
  calc dropEndWhile p (slashed n text)
      = dropEndWhile p (slashed n (dropEndWhile p text) ++ dropped) := by
        rw [← slashed_append hslash, ← happend]
    _ = dropEndWhile p (slashed n (dropEndWhile p text)) :=
        dropEndWhile_append_of_forall _ hdropped
    _ = slashed n (dropEndWhile p text) := dropEndWhile_eq_self hlast

theorem trim_slashed (n : Nat) (text : List Char) :
    trim (slashed n text) = slashed n (trim text) := by
  rw [trim, trim, trimEnd, trimEnd, trimStart_slashed, dropEndWhile_slashed (by decide)]

end Text

namespace Specifier

variable {opening closing : Char}

/-- Delimiters are told by characters that are no slashes. -/
theorem undelimited?_slashed (hopening : opening ≠ '/') (hclosing : closing ≠ '/') (n : Nat)
    (text : List Char) : undelimited? opening closing (Text.slashed n text) =
      (undelimited? opening closing text).map (Text.slashed n) := by
  cases text with
  | nil => rfl
  | cons c body =>
    by_cases hc : c = '/'
    · subst hc
      rw [Text.slashed_slash_cons]
      cases n <;> simp [undelimited?, List.replicate_succ, Ne.symm hopening]
    · rw [Text.slashed_cons_of_ne hc, undelimited?, undelimited?, Text.getLast?_slashed]
      split
      next hdelimited =>
        -- The body ends in the closing delimiter, which has no part in the further slashes.
        obtain ⟨inside, rfl⟩ := List.getLast?_eq_some_iff.mp hdelimited.2
        rw [Text.slashed_append (by simpa using Ne.symm hclosing), List.dropLast_concat,
          List.dropLast_concat, Option.map_some]
      next => rfl

theorem trimmed_slashed (n : Nat) (raw : List Char) :
    trimmed (Text.slashed n raw) = Text.slashed n (trimmed raw) := by
  rw [trimmed, trimmed, Text.trim_slashed, Text.dropEndWhile_slashed (by decide), Text.trim_slashed]

/-- Further slashes in the value of a directive are further slashes in its specifier. -/
theorem cleaned_slashed (n : Nat) (raw : List Char) :
    cleaned (Text.slashed n raw) = Text.slashed n (cleaned raw) := by
  rw [cleaned, cleaned, trimmed_slashed, undelimited?_slashed (by decide) (by decide),
    undelimited?_slashed (by decide) (by decide)]
  cases undelimited? '\x22' '\x22' (trimmed raw) with
  | some body => exact Text.trim_slashed n body
  | none =>
    cases undelimited? '<' '>' (trimmed raw) with
    | some body => exact Text.trim_slashed n body
    | none => rfl

end Specifier

namespace Path

variable {p q : Path}

/-- The steps of a path that starts with a slash. -/
theorem components_slash_cons (rest : List Char) : components ⟨String.ofList ('/' :: rest)⟩ =
    .root :: (Text.pieces '/' rest).filterMap Component.ofPiece? := by
  rw [components, pieces, String.toList_ofList, Text.pieces_sep_cons,
    componentsOfPieces_cons fun _ => Text.pieces_ne_nil '/' rest, firstSteps, if_pos rfl,
    List.singleton_append]

/-- Further slashes at the start of a path spell no step. -/
theorem same_slashes (n : Nat) (rest : List Char) :
    Path.Same ⟨String.ofList (List.replicate n '/' ++ '/' :: rest)⟩
      ⟨String.ofList ('/' :: rest)⟩ := by
  -- The slashes are taken off from behind, so the text after them grows.
  induction n generalizing rest with
  | zero => exact .rfl
  | succ n ih =>
    have hnext : Path.Same ⟨String.ofList ('/' :: '/' :: rest)⟩ ⟨String.ofList ('/' :: rest)⟩ := by
      rw [Path.Same, components_slash_cons, components_slash_cons, Text.pieces_sep_cons]
      rfl
    rw [List.replicate_succ', List.append_assoc]
    exact (ih ('/' :: rest)).trans hnext

/-- The extension of a path is told by its steps. -/
theorem Same.extension?_eq (h : p.Same q) : p.extension? = q.extension? := by
  rw [extension?, extension?, fileName?, fileName?, h]

/-- What is appended to a path and is not absolute keeps the steps of the path. -/
theorem prefix_components_join (p : Path) (h : q.isAbsolute = false) :
    p.components <+: (p.join q).components := by
  by_cases hp : p.spelling = ""
  · have hnone : p.components = [] := by
      rw [components, pieces, hp]
      decide
    rw [hnone]
    exact List.nil_prefix
  · rw [components_join hp h]
    exact List.prefix_append _ _

end Path

namespace Specifier

/-- Specifiers that spell the same steps get the same extension. -/
theorem exists_withExtension_eq (specifier : String) (config : Config) :
    ∃ ending : String, ∀ other : String, Path.Same ⟨other⟩ ⟨specifier⟩ →
      withExtension other config = other ++ ending := by
  cases hextension : Path.extension? ⟨specifier⟩ with
  | some extension =>
    refine ⟨"", fun other hsame => ?_⟩
    rw [withExtension, hsame.extension?_eq, hextension]
    exact String.append_empty.symm
  | none =>
    refine ⟨"." ++ config.bareExtension, fun other hsame => ?_⟩
    rw [withExtension, hsame.extension?_eq, hextension]
    exact String.append_assoc

/-- The extension puts no slash at the start of a specifier. -/
theorem isAbsolute_withExtension {specifier : String} (config : Config)
    (h : Path.isAbsolute ⟨specifier⟩ = false) :
    Path.isAbsolute ⟨withExtension specifier config⟩ = false := by
  unfold withExtension
  split
  · exact h
  · simp only [Path.isAbsolute, String.toList_append] at h ⊢
    cases hspecifier : specifier.toList with
    | nil => rfl
    | cons c rest => simpa [hspecifier] using h

end Specifier

namespace Request

/-- No request asks for an absolute specifier. -/
theorem isAbsolute_specifier (raw : String) (issuer : Path) (config : Config) :
    Path.isAbsolute ⟨(ofValue raw issuer config).specifier⟩ = false := by
  unfold ofValue
  generalize Specifier.withExtension (Specifier.clean raw) config = specifier
  dsimp only
  split
  next => simp [Path.isAbsolute]
  next hslash =>
    refine Bool.eq_false_iff.mpr fun habsolute => ?_
    obtain ⟨rest, hrest⟩ := List.head?_eq_some_iff.mp (beq_iff_eq.mp habsolute)
    exact hslash rest hrest

/-- A specifier that starts with slashes, however many, is looked up from the configured root,
whatever file asks for it. -/
theorem exists_anchored (rest : List Char) (config : Config) :
    ∃ specifier, ∀ (n : Nat) (raw : String) (issuer : Path),
      (Specifier.clean raw).toList = List.replicate n '/' ++ '/' :: rest →
      ofValue raw issuer config = ⟨config.rootPath, specifier⟩ := by
  obtain ⟨ending, hending⟩ :=
    Specifier.exists_withExtension_eq (String.ofList ('/' :: rest)) config
  refine ⟨String.ofList ('.' :: '/' :: (rest ++ ending.toList).dropWhile (· == '/')), ?_⟩
  intro n raw issuer hraw
  have hclean : Specifier.clean raw = String.ofList (List.replicate n '/' ++ '/' :: rest) := by
    rw [← hraw, String.ofList_toList]
  -- All slashes are taken off, the one that makes the specifier absolute and the others.
  have hspecifier : (Specifier.withExtension (Specifier.clean raw) config).toList =
      '/' :: (List.replicate n '/' ++ (rest ++ ending.toList)) := by
    rw [hclean, hending _ (Path.same_slashes n rest), String.toList_append, String.toList_ofList,
      List.append_cons, ← List.replicate_succ', List.replicate_succ, List.append_assoc,
      List.cons_append]
  unfold ofValue
  simp only [hspecifier]
  rw [List.dropWhile_append_of_pos fun c hc => by simp [List.eq_of_mem_replicate hc]]

/-- A specifier that does not start with a slash is looked up from the directory of the issuer, or
from the configured root if there is none. -/
theorem context_of_relative {raw : String} (issuer : Path) (config : Config)
    (h : Path.isAbsolute ⟨Specifier.clean raw⟩ = false) :
    (ofValue raw issuer config).context = issuer.parent?.getD config.rootPath := by
  have hrelative := Specifier.isAbsolute_withExtension config h
  unfold ofValue
  dsimp only
  split
  next rest hrest => simp [Path.isAbsolute, hrest] at hrelative
  next => rfl

/-- What a request asks for stays below its context: the specifier is not absolute, so appending it
keeps the steps of the context. If the value of the directive means an absolute path, the context is
the configured root, and neither the issuer nor further slashes, in the specifier or in front of the
first slash of the value, make a difference. Otherwise the context is the directory of the issuer,
or the root if the issuer has none. -/
theorem ofValue_anchored (raw : String) (issuer : Path) (config : Config) :
    let request := ofValue raw issuer config
    Path.isAbsolute ⟨request.specifier⟩ = false ∧
    request.context.components <+: (request.context.join ⟨request.specifier⟩).components ∧
    (Path.isAbsolute ⟨Specifier.clean raw⟩ = true →
      request.context = config.rootPath ∧
      (∀ other : Path, ofValue raw other config = request) ∧
      (∀ (n : Nat) (other : String), (Specifier.clean other).toList =
          List.replicate n '/' ++ (Specifier.clean raw).toList →
        ofValue other issuer config = request) ∧
      ∀ (n : Nat) (front back : List Char), raw.toList = front ++ '/' :: back → '/' ∉ front →
        ofValue (String.ofList (front ++ (List.replicate n '/' ++ '/' :: back))) issuer config =
          request) ∧
    (Path.isAbsolute ⟨Specifier.clean raw⟩ = false →
      request.context =
        match issuer.parent? with
        | some directory => directory
        | none => config.rootPath) := by
  intro request
  have hrelative : Path.isAbsolute ⟨request.specifier⟩ = false :=
    isAbsolute_specifier raw issuer config
  refine ⟨hrelative, Path.prefix_components_join _ hrelative, fun h => ?_, fun h => ?_⟩
  · obtain ⟨rest, hrest⟩ := List.head?_eq_some_iff.mp (beq_iff_eq.mp h)
    obtain ⟨specifier, hspecifier⟩ := exists_anchored rest config
    have hrequest : request = ⟨config.rootPath, specifier⟩ := hspecifier 0 raw issuer hrest
    refine ⟨by rw [hrequest], fun other => ?_, fun n other hother => ?_, ?_⟩
    · rw [hrequest]
      exact hspecifier 0 raw other hrest
    · rw [hrequest]
      exact hspecifier n other issuer (hother.trans (congrArg _ hrest))
    · intro n front back hraw hfront
      rw [hrequest]
      refine hspecifier n _ issuer ?_
      have hcleaned : Specifier.cleaned raw.toList = '/' :: rest := by
        rw [← hrest, Specifier.clean, String.toList_ofList]
      rw [Specifier.clean, String.toList_ofList, String.toList_ofList,
        ← Text.slashed_append_slash hfront, ← hraw, Specifier.cleaned_slashed, hcleaned,
        Text.slashed_slash_cons]
  · have hcontext : request.context = issuer.parent?.getD config.rootPath :=
      context_of_relative issuer config h
    rw [hcontext]
    cases issuer.parent? <;> rfl

/-- A quoted value with a slash in front, from two files and with further slashes, and a value
without one from a file that has no directory. -/
theorem ofValue_anchored_quoted :
    let config : Config := { rootPath := ⟨"/srv/shaders"⟩ }
    let request := ofValue " \x22 /lib/a \x22; " ⟨"/srv/main.glsl"⟩ config
    request = ⟨⟨"/srv/shaders"⟩, "./lib/a.glsl"⟩ ∧
      ofValue " \x22 /lib/a \x22; " ⟨"/other/x/b.glsl"⟩ config = request ∧
      ofValue "<///lib/a>" ⟨"/srv/main.glsl"⟩ config = request ∧
      ofValue " \x22 ////lib/a \x22; " ⟨"/srv/main.glsl"⟩ config = request ∧
      (ofValue "a" ⟨"/"⟩ config).context = ⟨"/srv/shaders"⟩ := by
  intro config request
  have hanchored := ofValue_anchored " \x22 /lib/a \x22; " ⟨"/srv/main.glsl"⟩ config
  obtain ⟨-, hissuer, hclean, hraw⟩ := hanchored.2.2.1 (by decide +kernel)
  refine ⟨by decide +kernel, hissuer _, hclean 2 _ (by decide +kernel), ?_, ?_⟩
  · exact hraw 3 " \x22 ".toList "lib/a \x22; ".toList (by decide +kernel) (by decide +kernel)
  · exact (ofValue_anchored "a" ⟨"/"⟩ config).2.2.2 (by decide +kernel)

end Request

end ShaderTemplate
