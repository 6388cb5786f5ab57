import ShaderTemplate.Path.Basic
import ShaderTemplate.Source.Position

/-!
# Trees of shader text

A tree is a sequence of nodes: runs of text, directives, and chunks, each chunk holding the tree of
another file. Texts and directives are the leaves. A tree is built from the front: `empty`, or a
leaf or a chunk followed by the `rest`, so that a proof about trees is one induction.

Main statements: a tree is determined by its nodes (`ofList_toList`), and its text is the text of
its nodes in order (`render_ofList`).
-/

namespace ShaderTemplate

/-- A directive line, such as `#include utils;`. -/
structure Directive where
  /-- The name after the `#`. -/
  name : String
  /-- What follows the name, trimmed and without comments and semicolons at the end. -/
  value : String
  /-- The line as it stands in the source. -/
  raw : String
  /-- Where the line stands in the source. -/
  location : Span
  deriving Repr, DecidableEq, Inhabited

/-- The directive asks for another file when it is called `include`. -/
def Directive.isInclude (d : Directive) : Bool :=
  d.name == "include"

/-- A node without nodes inside. -/
inductive Leaf where
  /-- A run of text, kept as it is. -/
  | text (content : String)
  /-- A directive line. -/
  | directive (line : Directive)
  deriving Repr, DecidableEq, Inhabited

/-- The text of a leaf. -/
def Leaf.render : Leaf → String
  | .text content => content
  | .directive line => line.raw

/-- The directive that a leaf holds, if it asks for another file. -/
def Leaf.include? : Leaf → Option Directive
  | .text _ => none
  | .directive line => if line.isInclude then some line else none

/-- A sequence of texts, directives and chunks. -/
inductive Tree where
  /-- No nodes. -/
  | empty
  /-- A leaf, then the rest. -/
  | leaf (item : Leaf) (rest : Tree)
  /-- The tree of the file `path`, then the rest. -/
  | chunk (path : Path) (inner rest : Tree)
  deriving Repr, DecidableEq, Inhabited

/-- One node of a tree. -/
inductive Node where
  /-- A text or a directive. -/
  | leaf (item : Leaf)
  /-- The tree of the file `path`. -/
  | chunk (path : Path) (inner : Tree)
  deriving Repr, DecidableEq, Inhabited

namespace Node

/-- Decide whether a node is a directive that asks for another file. -/
def isInclude : Node → Bool
  | .leaf item => item.include?.isSome
  | .chunk .. => false

end Node

namespace Tree

/-- Put a node in front of a tree. -/
def cons (node : Node) (rest : Tree) : Tree :=
  match node with
  | .leaf item => .leaf item rest
  | .chunk path inner => .chunk path inner rest

/-- Build a tree from its nodes. -/
def ofList (nodes : List Node) : Tree :=
  nodes.foldr cons .empty

/-- List the nodes of a tree. -/
def toList : Tree → List Node
  | .empty => []
  | .leaf item rest => .leaf item :: rest.toList
  | .chunk path inner rest => .chunk path inner :: rest.toList

@[simp] theorem toList_cons (node : Node) (rest : Tree) :
    (cons node rest).toList = node :: rest.toList := by
  cases node <;> rfl

@[simp] theorem ofList_toList (t : Tree) : ofList t.toList = t := by
  induction t with
  | empty => rfl
  | leaf item rest ih => exact congrArg (Tree.leaf item) ih
  | chunk path inner rest _ ih => exact congrArg (Tree.chunk path inner) ih

@[simp] theorem toList_ofList (nodes : List Node) : (ofList nodes).toList = nodes := by
  induction nodes with
  | nil => rfl
  | cons node rest ih => simpa [ofList] using ih

/-- Write the text of a tree, the text of a chunk standing in the place of its node. -/
def render : Tree → String
  | .empty => ""
  | .leaf item rest => item.render ++ rest.render
  | .chunk _ inner rest => inner.render ++ rest.render

end Tree

/-- The text of a node. -/
def Node.render : Node → String
  | .leaf item => item.render
  | .chunk _ inner => inner.render

namespace Tree

@[simp] theorem render_cons (node : Node) (rest : Tree) :
    (cons node rest).render = node.render ++ rest.render := by
  cases node <;> rfl

/-- The text of a tree is the text of its nodes, one after the other. -/
theorem render_ofList (nodes : List Node) :
    (ofList nodes).render = nodes.foldr (fun node text => node.render ++ text) "" := by
  induction nodes with
  | nil => rfl
  | cons node rest ih => simpa [ofList] using ih

/-- The text of two lists of nodes in turn. -/
theorem render_ofList_append (front back : List Node) :
    (ofList (front ++ back)).render = (ofList front).render ++ (ofList back).render := by
  induction front with
  | nil => simp [ofList, render]
  | cons node front ih =>
    simp only [ofList, List.cons_append, List.foldr_cons, render_cons] at ih ⊢
    rw [ih, String.append_assoc]

end Tree

end ShaderTemplate
