import ShaderTemplate.Proofs.Tree.Query

/-!
# Replacing nodes by handle

A handle leads level by level: its first index chooses a node among those of the tree, and the rest
of it goes on inside that node (`get?_cons`). Replacing follows the same way and changes nothing but
the chosen node at each level (`toList_replace_cons`). So every law is an induction on the handle
with one step on lists: a node of a list is modified, and the others keep their places.

Main statements:

- `get?_replace_apart`, `get?_replace_append`: what handles find after a replacement;
- `replace_comm`: replacements in different places commute;
- `exists_render_replace`: the text changes in one place;
- `replace?_eq`, `replaceAll_cons`: an expansion splices its chunks by replacements;
- `replace_lawful`: the laws of a replacement, together.
-/

namespace ShaderTemplate

namespace Tree

/-- Exchange the node that a handle leads to. The node that stood there is the answer, along with
the tree as it is then; a handle that leads nowhere changes nothing. -/
def replace (t : Tree) (handle : Handle) (node : Node) : Option Node × Tree :=
  match handle with
  | [] => (none, t)
  | [index] => (t.toList[index]?, ofList (t.toList.set index node))
  | index :: next :: deeper =>
    match t.toList[index]? with
    | some (.chunk path inner) =>
      let exchanged := inner.replace (next :: deeper) node
      (exchanged.1, ofList (t.toList.set index (.chunk path exchanged.2)))
    | _ => (none, t)

end Tree

namespace Node

/-- A node with the node exchanged that a handle leads to from it. -/
def exchanged (node : Node) (handle : Handle) (other : Node) : Node :=
  match handle, node with
  | [], _ => other
  | index :: deeper, .chunk path inner => .chunk path (inner.replace (index :: deeper) other).2
  | _ :: _, .leaf item => .leaf item

end Node

namespace Tree

variable {t u : Tree} {p q rest : Handle} {n m old : Node} {index : Nat}

/-! ## One level -/

/-- A tree is told by its nodes. -/
theorem ext_toList (h : t.toList = u.toList) : t = u := by
  rw [← ofList_toList t, h, ofList_toList]

/-- Replacing changes the node that the handle chooses, and no other of its level. -/
theorem toList_replace_cons (t : Tree) (index : Nat) (deeper : Handle) (n : Node) :
    (t.replace (index :: deeper) n).2.toList = t.toList.modify index (·.exchanged deeper n) := by
  cases deeper with
  | nil =>
    rw [replace, toList_ofList, List.set_eq_modify]
    rfl
  | cons next deeper =>
    rw [replace, List.modify_eq_set_getElem?]
    cases hnode : t.toList[index]? with
    | none => rfl
    | some node =>
      cases node with
      | leaf item =>
        obtain ⟨hlt, hitem⟩ := List.getElem?_eq_some_iff.mp hnode
        exact (hitem ▸ List.set_getElem_self hlt).symm
      | chunk path inner => exact toList_ofList _

/-- Nothing changes if the chosen node does not. -/
theorem snd_replace_cons_eq_self {deeper : Handle}
    (h : ∀ node, t.toList[index]? = some node → node.exchanged deeper n = node) :
    (t.replace (index :: deeper) n).2 = t := by
  refine ext_toList ?_
  rw [toList_replace_cons, List.modify_eq_set_getElem?]
  cases hnode : t.toList[index]? with
  | none => rfl
  | some node =>
    obtain ⟨hlt, hself⟩ := List.getElem?_eq_some_iff.mp hnode
    change t.toList.set index (node.exchanged deeper n) = t.toList
    rw [h node hnode, ← hself, List.set_getElem_self hlt]

/-! ## The handle itself -/

/-- The answer of a replacement is the node that the handle leads to. -/
theorem fst_replace (t : Tree) (p : Handle) (n : Node) : (t.replace p n).1 = t.get? p := by
  induction p generalizing t with
  | nil => rfl
  | cons index deeper ih =>
    rw [get?_cons]
    cases deeper with
    | nil =>
      rw [replace]
      cases t.toList[index]? <;> rfl
    | cons next deeper =>
      rw [replace]
      cases t.toList[index]? with
      | none => rfl
      | some node =>
        cases node with
        | leaf item => rfl
        | chunk path inner => exact ih inner

/-- Nothing changes if the handle leads nowhere, or to the node that is put in its place. -/
theorem snd_replace_eq_self (h : ∀ old ∈ t.get? p, old = n) : (t.replace p n).2 = t := by
  induction p generalizing t with
  | nil => rfl
  | cons index deeper ih =>
    refine snd_replace_cons_eq_self fun node hnode => ?_
    rw [get?_cons, hnode, Option.bind_some] at h
    cases deeper with
    | nil => exact (h node rfl).symm
    | cons next deeper =>
      cases node with
      | leaf item => rfl
      | chunk path inner => exact congrArg _ (ih h)

/-- Of two replacements at one place the last one counts. -/
theorem snd_replace_replace (t : Tree) (p : Handle) (n m : Node) :
    ((t.replace p n).2.replace p m).2 = (t.replace p m).2 := by
  induction p generalizing t with
  | nil => rfl
  | cons index deeper ih =>
    refine ext_toList ?_
    rw [toList_replace_cons, toList_replace_cons, toList_replace_cons, List.modify_modify_eq]
    congr 1
    funext node
    cases deeper with
    | nil => rfl
    | cons next deeper =>
      cases node with
      | leaf item => rfl
      | chunk path inner => exact congrArg _ (ih inner)

/-! ## Other handles -/

/-- A handle that is continued goes on from the node that it leads to. -/
theorem get?_append (t : Tree) (hq : q ≠ []) (rest : Handle) :
    t.get? (q ++ rest) = (t.get? q).bind (·.get? rest) := by
  induction q generalizing t with
  | nil => exact absurd rfl hq
  | cons index deeper ih =>
    rw [List.cons_append, get?_cons, get?_cons, Option.bind_assoc]
    refine Option.bind_congr fun node _ => ?_
    cases deeper with
    | nil => rfl
    | cons next deeper =>
      cases node with
      | leaf item => rfl
      | chunk path inner => exact ih inner (List.cons_ne_nil _ _)

/-- A handle that the replacement passes through, or ends at, finds its node with the other one
inside. -/
theorem get?_replace_append (t : Tree) (hq : q ≠ []) (rest : Handle) (n : Node) :
    (t.replace (q ++ rest) n).2.get? q = (t.get? q).map (·.exchanged rest n) := by
  induction q generalizing t with
  | nil => exact absurd rfl hq
  | cons index deeper ih =>
    rw [List.cons_append, get?_cons, get?_cons, toList_replace_cons, List.getElem?_modify]
    cases t.toList[index]? with
    | none => rfl
    | some node =>
      simp only [if_true, Option.map_eq_map, Option.map_some, Option.bind_some]
      -- The handle ends at the chosen node, or both go on inside it.
      cases deeper with
      | nil => rfl
      | cons next deeper =>
        cases node with
        | leaf item => rfl
        | chunk path inner => exact ih inner (List.cons_ne_nil _ _)

/-- A handle that neither leads into the place of a replacement nor is passed by it finds what it
found. -/
theorem get?_replace_apart (hp : ¬ p <+: q) (hq : ¬ q <+: p) :
    (t.replace p n).2.get? q = t.get? q := by
  induction p generalizing t q with
  | nil => exact absurd List.nil_prefix hp
  | cons i p ih =>
    cases q with
    | nil => exact absurd List.nil_prefix hq
    | cons j q =>
      rw [get?_cons, get?_cons, toList_replace_cons, List.getElem?_modify]
      by_cases hij : i = j
      · subst hij
        rw [List.cons_prefix_cons, not_and] at hp hq
        simp only [if_true, Option.map_eq_map, Option.bind_map]
        refine Option.bind_congr fun node _ => ?_
        -- Both handles go on inside the chosen node.
        cases p with
        | nil => exact absurd List.nil_prefix (hp rfl)
        | cons next p =>
          cases q with
          | nil => exact absurd List.nil_prefix (hq rfl)
          | cons other q =>
            cases node with
            | leaf item => rfl
            | chunk path inner => exact ih (hp rfl) (hq rfl)
      · simp [hij]

/-- Replacements commute if neither of the two handles leads into the place of the other. -/
theorem replace_comm (hp : ¬ p <+: q) (hq : ¬ q <+: p) :
    ((t.replace p n).2.replace q m).2 = ((t.replace q m).2.replace p n).2 := by
  induction p generalizing t q with
  | nil => exact absurd List.nil_prefix hp
  | cons i p ih =>
    cases q with
    | nil => exact absurd List.nil_prefix hq
    | cons j q =>
      refine ext_toList ?_
      rw [toList_replace_cons, toList_replace_cons, toList_replace_cons, toList_replace_cons]
      by_cases hij : i = j
      · subst hij
        rw [List.cons_prefix_cons, not_and] at hp hq
        rw [List.modify_modify_eq, List.modify_modify_eq]
        congr 1
        funext node
        -- Both handles go on inside the chosen node.
        cases p with
        | nil => exact absurd List.nil_prefix (hp rfl)
        | cons next p =>
          cases q with
          | nil => exact absurd List.nil_prefix (hq rfl)
          | cons other q =>
            cases node with
            | leaf item => rfl
            | chunk path inner => exact congrArg _ (ih (hp rfl) (hq rfl))
      · exact List.modify_modify_ne _ _ _ hij

/-! ## The text -/

/-- Replacing changes the text of a tree in one place, where the text of the other node comes to
stand for that of the node before. -/
theorem exists_render_replace (h : t.get? p = some old) :
    ∃ before after, t.render = before ++ old.render ++ after ∧
      ∀ other, (t.replace p other).2.render = before ++ other.render ++ after := by
  induction p generalizing t with
  | nil => exact absurd h (by simp [get?])
  | cons index deeper ih =>
    rw [get?_cons] at h
    obtain ⟨node, hnode, hold⟩ := Option.bind_eq_some_iff.mp h
    obtain ⟨hlt, hget⟩ := List.getElem?_eq_some_iff.mp hnode
    -- The text inside the chosen node, which is the old node itself or a chunk around it.
    have hinside : ∃ before after, node.render = before ++ old.render ++ after ∧
        ∀ other, (node.exchanged deeper other).render = before ++ other.render ++ after := by
      cases deeper with
      | nil =>
        obtain rfl := Option.some.inj hold
        exact ⟨"", "", by simp, fun other => by simp [Node.exchanged]⟩
      | cons next deeper =>
        cases node with
        | leaf item => exact absurd hold (by simp [Node.get?])
        | chunk path inner => exact ih hold
    obtain ⟨before, after, hrender, hother⟩ := hinside
    -- The nodes in front of the chosen one and behind it keep their texts.
    have haround : ∀ f : Node → Node, (ofList (t.toList.modify index f)).render =
        (ofList (t.toList.take index)).render ++ (f node).render ++
          (ofList (t.toList.drop (index + 1))).render := by
      intro f
      rw [List.modify_eq_take_cons_drop hlt, hget, render_ofList_append, String.append_assoc]
      exact congrArg _ (render_cons _ _)
    refine ⟨(ofList (t.toList.take index)).render ++ before,
      after ++ (ofList (t.toList.drop (index + 1))).render, ?_, fun other => ?_⟩
    · have hself := haround id
      rw [List.modify_id, ofList_toList, id, hrender] at hself
      rw [hself]
      simp only [String.append_assoc]
    · rw [← ofList_toList (t.replace (index :: deeper) other).2, toList_replace_cons, haround,
        hother]
      simp only [String.append_assoc]

/-! ## Replacing in an expansion -/

/-- Exchanging a node of a level exchanges it in the list of nodes. -/
theorem setAt?_eq (t : Tree) (index : Nat) (n : Node) :
    t.setAt? index n = t.toList[index]?.map fun _ => ofList (t.toList.set index n) := by
  have hsome := isSome_setAt? t index n
  rw [nodeAt?_eq_getElem?] at hsome
  cases hset : t.setAt? index n with
  | none =>
    rw [hset, Option.isSome_none, eq_comm, Option.isSome_eq_false_iff, Option.isNone_iff_eq_none]
      at hsome
    rw [hsome, Option.map_none]
  | some u =>
    rw [hset, Option.isSome_some, eq_comm, Option.isSome_iff_exists] at hsome
    obtain ⟨node, hnode⟩ := hsome
    rw [hnode, Option.map_some, ← toList_of_setAt? hset, ofList_toList]

/-- A tree with a node exchanged is there exactly if the handle leads to a node, and it is the one
that replacing gives. -/
theorem replace?_eq (t : Tree) (p : Handle) (n : Node) :
    t.replace? p n = (t.get? p).map fun _ => (t.replace p n).2 := by
  induction p generalizing t with
  | nil => rfl
  | cons index deeper ih =>
    cases deeper with
    | nil =>
      rw [replace?, setAt?_eq, get?, nodeAt?_eq_getElem?]
      rfl
    | cons next deeper =>
      rw [replace?, replace, get?_cons, nodeAt?_eq_getElem?]
      · cases hnode : t.toList[index]? with
        | none => rfl
        | some node =>
          cases node with
          | leaf item => rfl
          | chunk path inner =>
            simp only [Option.bind_some, Node.get?]
            rw [ih, Option.bind_map]
            cases inner.get? (next :: deeper) with
            | none => rfl
            | some old =>
              simp only [Option.bind_some, Option.map_some, Function.comp_apply]
              rw [setAt?_eq, hnode, Option.map_some]
      · simp

/-- An expansion splices its chunks one after the other, each by a replacement. -/
theorem replaceAll_cons (t : Tree) (p : Handle) (n : Node) (entries : List (Handle × Node)) :
    t.replaceAll ((p, n) :: entries) = (t.replace p n).2.replaceAll entries := by
  have hfirst : (t.replace? p n).getD t = (t.replace p n).2 := by
    rw [replace?_eq]
    cases hold : t.get? p with
    | none => exact (snd_replace_eq_self (by simp [hold])).symm
    | some old => rfl
  rw [replaceAll, List.foldl_cons, hfirst, ← replaceAll]

/-! ## The laws of a replacement -/

/-- A handle that a replacement passes through leads to a chunk before and afterwards, of the same
file. -/
theorem exists_chunk_above (h : (t.get? (q ++ rest)).isSome = true) (hq : q ≠ [])
    (hrest : rest ≠ []) (n : Node) :
    ∃ path inner inner', t.get? q = some (.chunk path inner) ∧
      (t.replace (q ++ rest) n).2.get? q = some (.chunk path inner') := by
  rw [get?_append t hq rest] at h
  obtain ⟨node, hnode⟩ := Option.isSome_iff_exists.mp (Option.isSome_of_isSome_bind h)
  rw [get?_replace_append t hq, hnode]
  obtain ⟨next, deeper, rfl⟩ := List.exists_cons_of_ne_nil hrest
  cases node with
  | leaf item => simp [hnode, Node.get?] at h
  | chunk path inner => exact ⟨path, inner, _, rfl, rfl⟩

/-- A handle that does not lead into the place of a replacement leads to a node afterwards exactly
if it did before. -/
theorem isSome_get?_replace (n : Node) (hp : ¬ p <+: q) :
    ((t.replace p n).2.get? q).isSome = (t.get? q).isSome := by
  by_cases hq : q <+: p
  · obtain ⟨rest, rfl⟩ := hq
    cases q with
    | nil => rfl
    | cons index deeper =>
      rw [get?_replace_append t (List.cons_ne_nil _ _), Option.isSome_map]
  · rw [get?_replace_apart hp hq]

/-- The laws of a replacement. It answers the node that its handle leads to, and changes nothing if
there is none. Otherwise the handle leads to the other node then; handles that do not lead into its
place lead to what they led to, those that it passes through to chunks of the same files; putting
the old node back restores the tree; and the text changes in the place of the node only.
Replacements whose handles do not lead into each other's places commute. An expansion splices its
chunks by such replacements. -/
theorem replace_lawful (t : Tree) (p : Handle) (n : Node) :
    (t.replace p n).1 = t.get? p ∧
    (t.get? p = none → t.replace p n = (none, t)) ∧
    (∀ old, t.get? p = some old →
      (t.replace p n).2.get? p = some n ∧
      (∀ q, ¬ p <+: q → ((t.replace p n).2.get? q).isSome = (t.get? q).isSome) ∧
      (∀ q, ¬ p <+: q → ¬ q <+: p → (t.replace p n).2.get? q = t.get? q) ∧
      (∀ q node, q <+: p → q ≠ p → t.get? q = some node →
        ∃ path inner inner', node = .chunk path inner ∧
          (t.replace p n).2.get? q = some (.chunk path inner')) ∧
      (t.replace p n).2.replace p old = (some n, t) ∧
      ∃ before after, t.render = before ++ old.render ++ after ∧
        ∀ other, (t.replace p other).2.render = before ++ other.render ++ after) ∧
    (∀ q m, ¬ p <+: q → ¬ q <+: p →
      ((t.replace p n).2.replace q m).1 = (t.replace q m).1 ∧
      ((t.replace p n).2.replace q m).2 = ((t.replace q m).2.replace p n).2) ∧
    t.replace? p n = ((t.get? p).map fun _ => (t.replace p n).2) ∧
    ∀ entries, t.replaceAll ((p, n) :: entries) = (t.replace p n).2.replaceAll entries := by
  refine ⟨fst_replace t p n, fun hnone => ?_, fun old hold => ?_, fun q m hp hq => ?_,
    replace?_eq t p n, replaceAll_cons t p n⟩
  · exact Prod.ext ((fst_replace t p n).trans hnone) (snd_replace_eq_self (by simp [hnone]))
  · have hsome : (t.get? p).isSome = true := Option.isSome_of_eq_some hold
    have hne : p ≠ [] := by
      rintro rfl
      exact absurd hold (by simp [get?])
    have hself : (t.replace p n).2.get? p = some n := by
      have happend := get?_replace_append t hne [] n
      rw [List.append_nil, hold] at happend
      exact happend
    refine ⟨hself, fun q hp => isSome_get?_replace n hp,
      fun q hp hq => get?_replace_apart hp hq, ?_, ?_, exists_render_replace hold⟩
    · rintro q node ⟨rest, rfl⟩ hproper hnode
      have hq : q ≠ [] := by
        rintro rfl
        exact absurd hnode (by simp [get?])
      have hrest : rest ≠ [] := by
        rintro rfl
        exact hproper (List.append_nil q).symm
      obtain ⟨path, inner, inner', hbefore, hafter⟩ := exists_chunk_above hsome hq hrest n
      exact ⟨path, inner, inner', Option.some.inj (hnode.symm.trans hbefore), hafter⟩
    · refine Prod.ext ((fst_replace _ _ _).trans hself) ?_
      rw [snd_replace_replace, snd_replace_eq_self (by simp [hold])]
  · refine ⟨?_, replace_comm hp hq⟩
    rw [fst_replace, fst_replace, get?_replace_apart hp hq]

/-- A text inside a chunk is replaced by a chunk and put back; its neighbour inside the chunk, the
chunk around it and a directive behind the chunk are still found. -/
theorem replace_lawful_nested :
    let line : Directive := ⟨"include", "b", "#include b", ⟨⟨1, 1⟩, ⟨1, 11⟩⟩⟩
    let inner : Tree := .ofList [.leaf (.text "x"), .leaf (.text "y")]
    let t : Tree := .ofList [.leaf (.text "a"), .chunk ⟨"/a.glsl"⟩ inner, .leaf (.directive line)]
    let n : Node := .chunk ⟨"/x.glsl"⟩ (.ofList [.leaf (.text "z")])
    let u := (t.replace [1, 0] n).2
    t.get? [1, 0] = some (.leaf (.text "x")) ∧
      u.get? [1, 0] = some n ∧ u.get? [1, 1] = some (.leaf (.text "y")) ∧
      (∃ inner', u.get? [1] = some (.chunk ⟨"/a.glsl"⟩ inner')) ∧
      (u.get? [2, 0]).isSome = false ∧
      u.replace [1, 0] (.leaf (.text "x")) = (some n, t) ∧
      (u.replace [2] n).2 = ((t.replace [2] n).2.replace [1, 0] n).2 ∧
      (t.replace [1, 2] n) = (none, t) := by
  intro line inner t n u
  have hold : t.get? [1, 0] = some (.leaf (.text "x")) := by decide
  obtain ⟨-, -, hsome, hcomm, -, -⟩ := replace_lawful t [1, 0] n
  obtain ⟨hself, hvalid, hapart, hinside, hback, -⟩ := hsome _ hold
  refine ⟨hold, hself, ?_, ?_, ?_, hback, (hcomm [2] n (by decide) (by decide)).2, ?_⟩
  · exact (hapart [1, 1] (by decide) (by decide)).trans (by decide)
  · obtain ⟨path, before, inner', hchunk, hafter⟩ :=
      hinside [1] (.chunk ⟨"/a.glsl"⟩ inner) (by decide) (by decide) (by decide)
    obtain ⟨rfl, -⟩ := Node.chunk.inj hchunk
    exact ⟨inner', hafter⟩
  · exact (hvalid [2, 0] (by decide)).trans (by decide)
  · exact (replace_lawful t [1, 2] n).2.1 (by decide)

end Tree

end ShaderTemplate
