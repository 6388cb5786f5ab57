import ShaderTemplate.Tree.Basic

/-!
# Handles of nodes

A handle addresses a node by position: the index of a node at each level, outermost first. Every
level but the last leads into a chunk. Nodes are found by `query`, read by `get?`, exchanged by
`replace?`, and `ancestry` names the files around a node. Replacing exchanges one node for one, so
a handle keeps its meaning when a node that it does not pass through is replaced.

A handle into the nodes behind the first node of a level is moved by `Handle.next` when it is used
from that level. Main statements: looking up and replacing by a moved handle is looking up and
replacing behind the first node (`get?_cons_next`, `replaceAll_cons_next`), and replacing by handles
that enter a chunk is replacing inside it (`replaceAll_chunk_enter`).
-/

namespace ShaderTemplate

/-- The indices that lead to a node, outermost first. -/
abbrev Handle : Type := List Nat

/-- The handle of the same node when one more node stands in front of its level. -/
def Handle.next : Handle → Handle
  | [] => []
  | index :: deeper => (index + 1) :: deeper

namespace Tree

/-- List the handles of the nodes that satisfy `p` in document order, counting the nodes of this
level from `start`. A chunk comes before the nodes inside it. -/
def queryFrom (p : Node → Bool) (start : Nat) : Tree → List Handle
  | .empty => []
  | .leaf item rest =>
    (if p (.leaf item) then [[start]] else []) ++ rest.queryFrom p (start + 1)
  | .chunk path inner rest =>
    (if p (.chunk path inner) then [[start]] else []) ++
      (inner.queryFrom p 0).map (start :: ·) ++ rest.queryFrom p (start + 1)

/-- List the handles of the nodes that satisfy `p`, in document order. -/
def query (p : Node → Bool) (t : Tree) : List Handle :=
  t.queryFrom p 0

/-- The node at an index of this level. -/
def nodeAt? (t : Tree) (index : Nat) : Option Node :=
  match t, index with
  | .empty, _ => none
  | .leaf item _, 0 => some (.leaf item)
  | .chunk path inner _, 0 => some (.chunk path inner)
  | .leaf _ rest, index + 1 => rest.nodeAt? index
  | .chunk _ _ rest, index + 1 => rest.nodeAt? index

/-- Exchange the node at an index of this level. -/
def setAt? (t : Tree) (index : Nat) (node : Node) : Option Tree :=
  match t, index with
  | .empty, _ => none
  | .leaf _ rest, 0 => some (cons node rest)
  | .chunk _ _ rest, 0 => some (cons node rest)
  | .leaf item rest, index + 1 => (rest.setAt? index node).map (.leaf item)
  | .chunk path inner rest, index + 1 => (rest.setAt? index node).map (.chunk path inner)

/-- The node that a handle leads to. -/
def get? (t : Tree) : Handle → Option Node
  | [] => none
  | [index] => t.nodeAt? index
  | index :: deeper =>
    match t.nodeAt? index with
    | some (.chunk _ inner) => inner.get? deeper
    | _ => none

/-- Exchange the node that a handle leads to. -/
def replace? (t : Tree) (handle : Handle) (node : Node) : Option Tree :=
  match handle with
  | [] => none
  | [index] => t.setAt? index node
  | index :: deeper =>
    match t.nodeAt? index with
    | some (.chunk path inner) =>
      (inner.replace? deeper node).bind fun inner => t.setAt? index (.chunk path inner)
    | _ => none

/-- Exchange the nodes that handles lead to, one after the other; a handle that leads nowhere
changes nothing. -/
def replaceAll (t : Tree) (entries : List (Handle × Node)) : Tree :=
  entries.foldl (fun t entry => (t.replace? entry.1 entry.2).getD t) t

/-- Name the files of the chunks that a handle passes through or ends at, outermost first. -/
def ancestry (t : Tree) : Handle → List Path
  | [] => []
  | index :: deeper =>
    match t.nodeAt? index with
    | some (.chunk path inner) => path :: inner.ancestry deeper
    | _ => []

/-- Exchanging a node succeeds exactly where there is one. -/
theorem isSome_setAt? (t : Tree) (index : Nat) (node : Node) :
    (t.setAt? index node).isSome = (t.nodeAt? index).isSome := by
  induction t generalizing index with
  | empty => rfl
  | leaf item rest ih => cases index <;> simp [setAt?, nodeAt?, ih]
  | chunk path inner rest _ ih => cases index <;> simp [setAt?, nodeAt?, ih]

/-- The nodes of a level are those of its list. -/
theorem nodeAt?_eq_getElem? (t : Tree) (index : Nat) : t.nodeAt? index = t.toList[index]? := by
  induction t generalizing index with
  | empty => rfl
  | leaf item rest ih => cases index <;> simp [nodeAt?, toList, ih]
  | chunk path inner rest _ ih => cases index <;> simp [nodeAt?, toList, ih]

/-- Exchanging a node of a level exchanges it in its list. -/
theorem toList_of_setAt? {t u : Tree} {index : Nat} {node : Node}
    (h : t.setAt? index node = some u) : u.toList = t.toList.set index node := by
  induction t generalizing index u with
  | empty => simp [setAt?] at h
  | leaf item rest ih =>
    cases index with
    | zero =>
      obtain rfl := Option.some.inj h
      simp [toList]
    | succ index =>
      obtain ⟨v, hv, rfl⟩ := Option.map_eq_some_iff.mp h
      simp [toList, ih hv]
  | chunk path inner rest _ ih =>
    cases index with
    | zero =>
      obtain rfl := Option.some.inj h
      simp [toList]
    | succ index =>
      obtain ⟨v, hv, rfl⟩ := Option.map_eq_some_iff.mp h
      simp [toList, ih hv]

/-! ## Handles behind the first node -/

/-- Counting from the next index moves every handle. -/
theorem queryFrom_succ (p : Node → Bool) (start : Nat) (t : Tree) :
    t.queryFrom p (start + 1) = (t.queryFrom p start).map Handle.next := by
  induction t generalizing start with
  | empty => rfl
  | leaf item rest ih =>
    rw [queryFrom, queryFrom, List.map_append, ih (start + 1)]
    split <;> rfl
  | chunk path inner rest _ ih =>
    rw [queryFrom, queryFrom, List.map_append, List.map_append, ih (start + 1), List.map_map]
    congr 2
    split <;> rfl

theorem query_empty (p : Node → Bool) : Tree.empty.query p = [] := rfl

/-- The handles into a tree that starts with a leaf. -/
theorem query_leaf (p : Node → Bool) (item : Leaf) (rest : Tree) :
    (leaf item rest).query p =
      (if p (.leaf item) then [[0]] else []) ++ (rest.query p).map Handle.next := by
  rw [query, queryFrom, queryFrom_succ, ← query]

/-- The handles into a tree that starts with a chunk. -/
theorem query_chunk (p : Node → Bool) (path : Path) (inner rest : Tree) :
    (chunk path inner rest).query p = (if p (.chunk path inner) then [[0]] else []) ++
      (inner.query p).map (0 :: ·) ++ (rest.query p).map Handle.next := by
  rw [query, queryFrom, queryFrom_succ, ← query, ← query]

theorem ne_nil_of_mem_queryFrom {p : Node → Bool} {start : Nat} {t : Tree} {handle : Handle}
    (h : handle ∈ t.queryFrom p start) : handle ≠ [] := by
  induction t generalizing start with
  | empty => exact absurd h (by simp [queryFrom])
  | leaf item rest ih =>
    rcases List.mem_append.mp h with h | h
    · rintro rfl
      split at h <;> simp at h
    · exact ih h
  | chunk path inner rest _ ih =>
    rcases List.mem_append.mp h with h | h
    · rintro rfl
      rcases List.mem_append.mp h with h | h
      · split at h <;> simp at h
      · simp at h
    · exact ih h

/-- No handle that a query answers is empty. -/
theorem ne_nil_of_mem_query {p : Node → Bool} {t : Tree} {handle : Handle}
    (h : handle ∈ t.query p) : handle ≠ [] :=
  ne_nil_of_mem_queryFrom h

@[simp] theorem nodeAt?_cons_zero (node : Node) (rest : Tree) :
    (cons node rest).nodeAt? 0 = some node := by
  cases node <;> rfl

@[simp] theorem nodeAt?_cons_succ (node : Node) (rest : Tree) (index : Nat) :
    (cons node rest).nodeAt? (index + 1) = rest.nodeAt? index := by
  cases node <;> rfl

@[simp] theorem setAt?_cons_zero (node other : Node) (rest : Tree) :
    (cons node rest).setAt? 0 other = some (cons other rest) := by
  cases node <;> rfl

@[simp] theorem setAt?_cons_succ (node other : Node) (rest : Tree) (index : Nat) :
    (cons node rest).setAt? (index + 1) other = (rest.setAt? index other).map (cons node) := by
  cases node <;> rfl

/-- A moved handle finds what the handle finds behind the first node. -/
theorem get?_cons_next (node : Node) (rest : Tree) (handle : Handle) :
    (cons node rest).get? handle.next = rest.get? handle := by
  match handle with
  | [] => rfl
  | [index] => simp [Handle.next, get?]
  | index :: next :: deeper => simp [Handle.next, get?]

/-- A moved handle passes the files that the handle passes behind the first node. -/
theorem ancestry_cons_next (node : Node) (rest : Tree) (handle : Handle) :
    (cons node rest).ancestry handle.next = rest.ancestry handle := by
  cases handle with
  | nil => rfl
  | cons index deeper => simp [Handle.next, ancestry]

/-- Replacing by a moved handle is replacing behind the first node. -/
theorem replace?_cons_next (node other : Node) (rest : Tree) (handle : Handle) :
    (cons node rest).replace? handle.next other =
      (rest.replace? handle other).map (cons node) := by
  match handle with
  | [] => rfl
  | [index] => simp [Handle.next, replace?]
  | index :: next :: deeper =>
    simp only [Handle.next, replace?, nodeAt?_cons_succ]
    split
    · simp only [setAt?_cons_succ]
      exact Option.map_bind.symm
    · rfl

/-- Replacing by moved handles is replacing behind the first node. -/
theorem replaceAll_cons_next (node : Node) (rest : Tree) (handles : List Handle)
    (nodes : List Node) :
    (cons node rest).replaceAll ((handles.map Handle.next).zip nodes) =
      cons node (rest.replaceAll (handles.zip nodes)) := by
  induction handles generalizing rest nodes with
  | nil => rfl
  | cons handle handles ih =>
    cases nodes with
    | nil => rfl
    | cons other nodes =>
      simp only [replaceAll, List.map_cons, List.zip_cons_cons, List.foldl_cons] at ih ⊢
      rw [← ih, replace?_cons_next]
      cases rest.replace? handle other <;> rfl

/-! ## Handles into a chunk -/

theorem get?_chunk_enter (path : Path) (inner rest : Tree) {handle : Handle} (h : handle ≠ []) :
    (chunk path inner rest).get? (0 :: handle) = inner.get? handle := by
  obtain ⟨index, deeper, rfl⟩ := List.exists_cons_of_ne_nil h
  rfl

theorem ancestry_chunk_enter (path : Path) (inner rest : Tree) (handle : Handle) :
    (chunk path inner rest).ancestry (0 :: handle) = path :: inner.ancestry handle := rfl

/-- Replacing by a handle that enters the first chunk is replacing inside it. -/
theorem replace?_chunk_enter (path : Path) (inner rest : Tree) {handle : Handle} (other : Node)
    (h : handle ≠ []) : (chunk path inner rest).replace? (0 :: handle) other =
      (inner.replace? handle other).map fun inner => chunk path inner rest := by
  obtain ⟨index, deeper, rfl⟩ := List.exists_cons_of_ne_nil h
  simp only [replace?, nodeAt?]
  cases inner.replace? (index :: deeper) other <;> rfl

/-- Replacing by handles that enter the first chunk is replacing inside it. -/
theorem replaceAll_chunk_enter (path : Path) (inner rest : Tree) {handles : List Handle}
    (h : ∀ handle ∈ handles, handle ≠ []) (nodes : List Node) :
    (chunk path inner rest).replaceAll ((handles.map (0 :: ·)).zip nodes) =
      chunk path (inner.replaceAll (handles.zip nodes)) rest := by
  induction handles generalizing inner nodes with
  | nil => rfl
  | cons handle handles ih =>
    cases nodes with
    | nil => rfl
    | cons other nodes =>
      simp only [replaceAll, List.map_cons, List.zip_cons_cons, List.foldl_cons] at ih ⊢
      rw [← ih _ fun handle hhandle => h handle (List.mem_cons_of_mem _ hhandle),
        replace?_chunk_enter path inner rest _ (h handle List.mem_cons_self)]
      cases inner.replace? handle other <;> rfl

theorem replaceAll_append (t : Tree) (first second : List (Handle × Node)) :
    t.replaceAll (first ++ second) = (t.replaceAll first).replaceAll second :=
  List.foldl_append

end Tree

end ShaderTemplate
