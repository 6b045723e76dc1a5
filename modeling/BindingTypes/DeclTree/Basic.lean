import BindingTypes.DeclTree.Node

namespace BindingTypes

/-- Nodes are numbered in the order in which they were added. -/
abbrev NodeId := Nat

/-- A node with its place in the tree. -/
structure LinkedNode where
  node : Node
  parent : Option NodeId := none
  children : List NodeId := []
deriving DecidableEq, Repr

/-- Declarations that are never taken away; one without a parent may still be reached by its
number. -/
structure DeclTree where
  nodes : List LinkedNode := []
deriving DecidableEq, Repr

namespace DeclTree

def size (t : DeclTree) : Nat := t.nodes.length

def get (t : DeclTree) (id : NodeId) : Except Fault LinkedNode :=
  match t.nodes[id]? with
  | some n => .ok n
  | none => .error (.missingNode id)

def node (t : DeclTree) (id : NodeId) : Except Fault Node := (t.get id).map (·.node)

def children (t : DeclTree) (id : NodeId) : Except Fault (List NodeId) :=
  (t.get id).map (·.children)

def modifyLinks (t : DeclTree) (id : NodeId) (f : LinkedNode → LinkedNode) : DeclTree :=
  ⟨t.nodes.modify id f⟩

def modifyNode (t : DeclTree) (id : NodeId) (f : Node → Node) : DeclTree :=
  t.modifyLinks id fun n => { n with node := f n.node }

/-- Adds a node without parent and children. -/
def add (t : DeclTree) (n : Node) : NodeId × DeclTree :=
  (t.nodes.length, ⟨t.nodes ++ [⟨n, none, []⟩]⟩)

/-- Takes a node away from its parent, if it has one. -/
def detach (t : DeclTree) (child : NodeId) : Except Fault DeclTree := do
  match (← t.get child).parent with
  | none => return t
  | some parent =>
    return (t.modifyLinks child fun n => { n with parent := none }).modifyLinks parent fun n =>
      { n with children := n.children.filter (· ≠ child) }

/-- Makes a node the last child of another; it leaves the parent it had. -/
def attach (t : DeclTree) (parent child : NodeId) : Except Fault DeclTree := do
  let t ← t.detach child
  let _ ← t.get parent
  return (t.modifyLinks child fun n => { n with parent := some parent }).modifyLinks parent fun n =>
    { n with children := n.children ++ [child] }

/-- Adds a node as the last child of another. -/
def addChild (t : DeclTree) (parent : NodeId) (n : Node) : Except Fault (NodeId × DeclTree) := do
  let (id, t) := t.add n
  return (id, ← t.attach parent id)

/-- The subtrees of the listed nodes in pre-order. -/
def preorder (t : DeclTree) : (fuel : Nat) → List NodeId → Except Fault (List NodeId)
  | _, [] => .ok []
  | 0, _ :: _ => .error .exhausted
  | n + 1, id :: ids => do
    return id :: (← t.preorder n ((← t.children id) ++ ids))

/-- The subtree of a node in pre-order. It holds no more nodes than the tree. -/
def descendants (t : DeclTree) (id : NodeId) : Except Fault (List NodeId) :=
  t.preorder (t.size + 1) [id]

/-- Copies of the listed nodes as children of `target`, each with the node it was made from. -/
def copyChildren (t : DeclTree) (target : NodeId) :
    List NodeId → Except Fault (List (NodeId × NodeId) × DeclTree)
  | [] => .ok ([], t)
  | child :: rest => do
    let (copy, t) ← t.addChild target (← t.node child)
    let (pairs, t) ← t.copyChildren target rest
    return ((child, copy) :: pairs, t)

/-- Copies the children of each listed node under its copy, last node first. -/
def copyBelow (t : DeclTree) : (fuel : Nat) → List (NodeId × NodeId) → Except Fault DeclTree
  | _, [] => .ok t
  | 0, _ :: _ => .error .exhausted
  | n + 1, (source, target) :: work => do
    let (pairs, t) ← t.copyChildren target (← t.children source)
    t.copyBelow n (pairs.reverse ++ work)

/-- A copy of a subtree, without a parent. -/
def deepCopy (t : DeclTree) (id : NodeId) : Except Fault (NodeId × DeclTree) := do
  let (root, copied) := t.add (← t.node id)
  return (root, ← copied.copyBelow (t.size + 1) [(id, root)])

end DeclTree

end BindingTypes
