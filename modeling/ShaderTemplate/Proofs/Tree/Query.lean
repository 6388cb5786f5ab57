import Mathlib.Data.List.Basic
import ShaderTemplate.Tree.Handle

/-!
# What a query finds

A query walks down a tree and lists handles on its way; looking a handle up walks down from the
root again. Both go level by level: the first index of a handle chooses a node among those of the
tree, and the rest of it goes on inside that node (`get?_cons`, `cons_mem_query_iff`). So the
handles found are those that lead to a node with the property, and no others.

They come in document order, which is the order of handles as lists of indices: a handle stands
before every handle that goes on from it, and before those of the nodes behind.

Main statements:

- `mem_query_iff`: the handles that a query finds;
- `pairwise_query`: their order;
- `join_render_query`: the texts of the leaves found make up the text of the tree;
- `query_exact`: all of it together.
-/

namespace ShaderTemplate

namespace Handle

variable {handle other : Handle} {handles : List Handle} {index : Nat}

/-- A handle into the nodes behind the first one is a moved one. -/
theorem succ_cons_mem_map_next :
    (index + 1) :: handle ∈ handles.map next ↔ index :: handle ∈ handles := by
  rw [List.mem_map]
  constructor
  · rintro ⟨_ | ⟨i, deeper⟩, hmem, hnext⟩
    · exact absurd hnext (by simp [next])
    · obtain ⟨hindex, rfl⟩ := List.cons.inj hnext
      obtain rfl := Nat.succ.inj hindex
      exact hmem
  · exact fun hmem => ⟨_, hmem, rfl⟩

/-- No moved handle leads to the first node. -/
theorem zero_cons_notMem_map_next : 0 :: handle ∉ handles.map next := by
  rw [List.mem_map]
  rintro ⟨_ | ⟨i, deeper⟩, -, hnext⟩ <;> simp [next] at hnext

/-- Handles keep their order when they are moved. -/
theorem next_lt_next (h : handle < other) : handle.next < other.next := by
  cases handle with
  | nil =>
    cases other with
    | nil => exact h
    | cons j other => exact List.nil_lt_cons _ _
  | cons i handle =>
    cases other with
    | nil => exact absurd h (List.not_lt_nil _)
    | cons j other =>
      rw [List.cons_lt_cons_iff] at h
      exact List.cons_lt_cons_iff.mpr (h.imp Nat.succ_lt_succ (And.imp_left (congrArg _)))

/-- A handle into the first node comes before the moved ones. -/
theorem zero_cons_lt_next (handle : Handle) (h : other ≠ []) : 0 :: handle < other.next := by
  obtain ⟨index, deeper, rfl⟩ := List.exists_cons_of_ne_nil h
  exact List.cons_lt_cons_iff.mpr (.inl (Nat.succ_pos index))

/-- A handle comes before those that go on from it. -/
theorem lt_append (handle : Handle) (h : other ≠ []) : handle < handle ++ other := by
  induction handle with
  | nil =>
    obtain ⟨index, deeper, rfl⟩ := List.exists_cons_of_ne_nil h
    exact List.nil_lt_cons _ _
  | cons index handle ih => exact List.cons_lt_cons_iff.mpr (.inr ⟨rfl, ih⟩)

end Handle

namespace Node

/-- Decide whether a node is a text or a directive. -/
def isLeaf : Node → Bool
  | .leaf _ => true
  | .chunk .. => false

/-- The node that a handle leads to from a node: the node itself, or one inside a chunk. -/
def get? (node : Node) (handle : Handle) : Option Node :=
  match handle, node with
  | [], node => some node
  | index :: deeper, .chunk _ inner => inner.get? (index :: deeper)
  | _ :: _, .leaf _ => none

/-- List the handles that lead from a node to a node that satisfies `p`. -/
def query (p : Node → Bool) (node : Node) : List Handle :=
  (if p node then [[]] else []) ++
    match node with
    | .leaf _ => []
    | .chunk _ inner => inner.query p

end Node

namespace Tree

variable {p : Node → Bool} {t : Tree} {index : Nat} {handle deeper : Handle}

/-! ## One level -/

/-- A handle chooses a node and goes on from there. -/
theorem get?_cons (t : Tree) (index : Nat) (deeper : Handle) :
    t.get? (index :: deeper) = t.toList[index]?.bind (·.get? deeper) := by
  cases deeper with
  | nil =>
    rw [get?, nodeAt?_eq_getElem?]
    cases t.toList[index]? <;> rfl
  | cons next deeper =>
    rw [get?, nodeAt?_eq_getElem?]
    · cases t.toList[index]? with
      | none => rfl
      | some node => cases node <;> rfl
    · simp

/-- The handles into the first node come before those into the nodes behind it. -/
theorem query_cons (p : Node → Bool) (node : Node) (rest : Tree) :
    (cons node rest).query p = (node.query p).map (0 :: ·) ++ (rest.query p).map Handle.next := by
  cases node with
  | leaf item =>
    rw [cons, query_leaf, Node.query]
    split <;> rfl
  | chunk path inner =>
    rw [cons, query_chunk, Node.query]
    split <;> rfl

/-- A query finds a handle that chooses a node if it finds the rest of the handle from there. -/
theorem cons_mem_query_iff : index :: deeper ∈ t.query p ↔
    ∃ node, t.toList[index]? = some node ∧ deeper ∈ node.query p := by
  rw [← ofList_toList t]
  generalize t.toList = nodes
  rw [toList_ofList]
  -- The nodes inside chunks have no part in it, so the induction is on the nodes of the level.
  induction nodes generalizing index with
  | nil => simp [ofList, query_empty]
  | cons node nodes ih =>
    have hcons : ofList (node :: nodes) = cons node (ofList nodes) := rfl
    rw [hcons, query_cons, List.mem_append]
    cases index with
    | zero => simp [Handle.zero_cons_notMem_map_next]
    | succ index =>
      rw [Handle.succ_cons_mem_map_next, ih, List.getElem?_cons_succ]
      simp

/-! ## The handles found -/

/-- A query finds the handles that lead to a node with the property. -/
theorem mem_query_iff :
    handle ∈ t.query p ↔ ∃ node, t.get? handle = some node ∧ p node = true := by
  induction handle generalizing t with
  | nil =>
    have hnil : [] ∉ t.query p := fun hmem => ne_nil_of_mem_query hmem rfl
    simp [hnil, get?]
  | cons index deeper ih =>
    -- From the chosen node the rest of the handle is looked up as it is found.
    have hinside : ∀ node : Node, deeper ∈ node.query p ↔
        ∃ found, node.get? deeper = some found ∧ p found = true := by
      intro node
      cases deeper with
      | nil =>
        have hnil : ∀ inner : Tree, [] ∉ inner.query p := fun inner hmem =>
          ne_nil_of_mem_query hmem rfl
        cases node <;> simp [Node.query, Node.get?, hnil]
      | cons next deeper =>
        cases node with
        | leaf item => simp [Node.query, Node.get?]
        | chunk path inner => simpa [Node.query, Node.get?] using @ih inner
    simp only [cons_mem_query_iff, get?_cons, Option.bind_eq_some_iff, hinside]
    constructor
    · rintro ⟨node, hnode, found, hfound, hp⟩
      exact ⟨found, ⟨node, hnode, hfound⟩, hp⟩
    · rintro ⟨found, ⟨node, hnode, hfound⟩, hp⟩
      exact ⟨node, hnode, found, hfound, hp⟩

/-! ## Their order -/

/-- The handles into a tree are ordered if those into its first node and those behind it are. -/
theorem pairwise_query_cons (node : Node) {rest : Tree} (hnode : (node.query p).Pairwise (· < ·))
    (hrest : (rest.query p).Pairwise (· < ·)) :
    ((cons node rest).query p).Pairwise (· < ·) := by
  rw [query_cons, List.pairwise_append]
  refine ⟨?_, ?_, ?_⟩
  · exact List.pairwise_map.mpr (hnode.imp fun h => List.cons_lt_cons_iff.mpr (.inr ⟨rfl, h⟩))
  · exact List.pairwise_map.mpr (hrest.imp Handle.next_lt_next)
  · intro first hfirst behind hbehind
    obtain ⟨deeper, -, rfl⟩ := List.mem_map.mp hfirst
    obtain ⟨handle, hhandle, rfl⟩ := List.mem_map.mp hbehind
    exact Handle.zero_cons_lt_next deeper (ne_nil_of_mem_query hhandle)

/-- A query lists handles in document order. -/
theorem pairwise_query (p : Node → Bool) (t : Tree) : (t.query p).Pairwise (· < ·) := by
  induction t with
  | empty => exact .nil
  | leaf item rest ih =>
    refine pairwise_query_cons (.leaf item) ?_ ih
    rw [Node.query]
    split <;> simp
  | chunk path inner rest ihInner ihRest =>
    refine pairwise_query_cons (.chunk path inner) ?_ ihRest
    rw [Node.query, List.pairwise_append]
    refine ⟨by split <;> simp, ihInner, fun self hself deeper hdeeper => ?_⟩
    -- The chunk itself comes before the nodes inside it.
    have hnil : self = [] := by
      split at hself <;> simp_all
    rw [hnil, ← List.nil_append deeper]
    exact Handle.lt_append [] (ne_nil_of_mem_query hdeeper)

/-- A handle is listed before a later one. -/
theorem sublist_query {other : Handle} (hmem : handle ∈ t.query p) (hother : other ∈ t.query p)
    (h : handle < other) : [handle, other].Sublist (t.query p) := by
  have horder := pairwise_query p t
  obtain ⟨front, back, hsplit⟩ := List.append_of_mem hmem
  rw [hsplit] at horder hother ⊢
  obtain ⟨-, -, hfront⟩ := List.pairwise_append.mp horder
  have hback : other ∈ back := by
    -- In front of the handle there are only earlier ones.
    rcases List.mem_append.mp hother with hother | hother
    · exact absurd (hfront other hother handle List.mem_cons_self) (List.lt_asymm h)
    · rcases List.mem_cons.mp hother with rfl | hother
      · exact absurd h (List.lt_irrefl _)
      · exact hother
  exact ((List.singleton_sublist.mpr hback).cons_cons handle).trans (List.sublist_append_right _ _)

/-! ## The text of the leaves -/

/-- The texts of the leaves that a query finds make up the text of the tree. -/
theorem join_render_query (t : Tree) :
    String.join ((t.query Node.isLeaf).filterMap fun handle => (t.get? handle).map Node.render) =
      t.render := by
  induction t with
  | empty => rfl
  | leaf item rest ih =>
    have hnext : ∀ handle : Handle, (leaf item rest).get? handle.next = rest.get? handle :=
      get?_cons_next (.leaf item) rest
    rw [query_leaf, List.filterMap_append, List.filterMap_map, String.join_append]
    simp only [Function.comp_def, hnext]
    rw [ih]
    simp [Node.isLeaf, get?, nodeAt?, render, Node.render]
  | chunk path inner rest ihInner ihRest =>
    have hnext : ∀ handle : Handle, (chunk path inner rest).get? handle.next = rest.get? handle :=
      get?_cons_next (.chunk path inner) rest
    -- What is found inside the chunk is looked up there.
    have henter : ((inner.query Node.isLeaf).filterMap fun handle =>
        ((chunk path inner rest).get? (0 :: handle)).map Node.render) =
          (inner.query Node.isLeaf).filterMap fun handle => (inner.get? handle).map Node.render :=
      List.filterMap_congr fun handle hhandle => by
        rw [get?_chunk_enter path inner rest (ne_nil_of_mem_query hhandle)]
    rw [query_chunk, List.filterMap_append, List.filterMap_append, List.filterMap_map,
      List.filterMap_map, String.join_append, String.join_append]
    simp only [Function.comp_def, hnext, henter]
    rw [ihInner, ihRest]
    simp [Node.isLeaf, render]

/-! ## Queries -/

/-- A query is exact. It finds the handles that lead to a node with the property, each once and in
document order, so that a chunk comes before the nodes inside it; and the texts of the leaves that
it finds make up the text of the tree. -/
theorem query_exact (t : Tree) (p : Node → Bool) :
    (∀ handle, handle ∈ t.query p ↔ ∃ node, t.get? handle = some node ∧ p node = true) ∧
    (t.query p).Nodup ∧ (t.query p).Pairwise (· < ·) ∧
    (∀ outer deeper : Handle, deeper ≠ [] → outer ∈ t.query p → outer ++ deeper ∈ t.query p →
      [outer, outer ++ deeper].Sublist (t.query p)) ∧
    String.join ((t.query Node.isLeaf).filterMap fun handle => (t.get? handle).map Node.render) =
      t.render := by
  refine ⟨fun handle => mem_query_iff, ?_, pairwise_query p t, ?_, join_render_query t⟩
  · refine (pairwise_query p t).imp fun h => ?_
    rintro rfl
    exact List.lt_irrefl _ h
  · intro outer deeper hdeeper houter hinside
    exact sublist_query houter hinside (Handle.lt_append outer hdeeper)

/-- The nodes of a tree with a chunk inside a chunk. Both chunks come before the text inside. -/
theorem query_exact_nested :
    let inner : Tree := .ofList [.chunk ⟨"/b.glsl"⟩ (.ofList [.leaf (.text "x")])]
    let t : Tree := .ofList [.leaf (.text "a"), .chunk ⟨"/a.glsl"⟩ inner, .leaf (.text "z")]
    t.query (fun _ => true) = [[0], [1], [1, 0], [1, 0, 0], [2]] ∧
      [[1], [1, 0, 0]].Sublist (t.query fun _ => true) ∧ t.render = "axz" := by
  intro inner t
  obtain ⟨hmem, -, -, hbefore, htext⟩ := query_exact t fun _ => true
  have hchunk : [1] ∈ t.query fun _ => true := (hmem [1]).mpr ⟨_, rfl, rfl⟩
  have hleaf : [1] ++ [0, 0] ∈ t.query fun _ => true := (hmem [1, 0, 0]).mpr ⟨_, rfl, rfl⟩
  refine ⟨by decide, hbefore [1] [0, 0] (by decide) hchunk hleaf, ?_⟩
  rw [← htext]
  decide

end Tree

end ShaderTemplate
