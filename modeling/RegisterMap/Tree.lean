/-! # Trees

Trees with data at the nodes and ordered children.  All walks are in post-order: children in their
order, then their parent. -/

namespace RegisterMap

/-- Trees with data at all nodes. -/
inductive Tree (α : Type) where
  | node (data : α) (children : List (Tree α))
deriving Repr

namespace Tree

variable {α β : Type}

instance [Inhabited α] : Inhabited (Tree α) := ⟨.node default []⟩

def data : Tree α → α
  | node a _ => a

def children : Tree α → List (Tree α)
  | node _ ts => ts

def setData (t : Tree α) (a : α) : Tree α := node a t.children

mutual

/-- All subtrees in post-order. -/
def subtrees : Tree α → List (Tree α)
  | node a ts => subtreesIn ts ++ [node a ts]

def subtreesIn : List (Tree α) → List (Tree α)
  | [] => []
  | t :: ts => subtrees t ++ subtreesIn ts

end

/-- The data of all nodes in post-order. -/
def toList (t : Tree α) : List α := t.subtrees.map data

mutual

/-- The data of all nodes in post-order, each with the data of its parent. -/
def withParents (parent : Option α) : Tree α → List (Option α × α)
  | node a ts => withParentsIn a ts ++ [(parent, a)]

/-- The data of all nodes below `parent`. -/
def withParentsIn (parent : α) : List (Tree α) → List (Option α × α)
  | [] => []
  | t :: ts => withParents (some parent) t ++ withParentsIn parent ts

end

mutual

/-- Change all data in post-order; nodes see the old data of their parents. -/
def mapM {m : Type → Type} [Monad m] (f : Option α → α → m β) (parent : Option α) :
    Tree α → m (Tree β)
  | node a ts => do
    let children ← mapAllM f a ts
    return node (← f parent a) children

def mapAllM {m : Type → Type} [Monad m] (f : Option α → α → m β) (parent : α) :
    List (Tree α) → m (List (Tree β))
  | [] => return []
  | t :: ts => do
    let first ← mapM f (some parent) t
    return first :: (← mapAllM f parent ts)

end

end Tree

end RegisterMap
