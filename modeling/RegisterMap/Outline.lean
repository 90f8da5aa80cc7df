import RegisterMap.Value.Printer

/-! # Outlines

An outline is a nested table whose inner tables are nodes with a mark.  There is no stack of nodes
still to visit: `Outline.seek` looks for the next node from a fixed starting node, into the first child
that is not marked while there is one, and up to the parent where nothing is left.  `Outline.next`
marks the node found, and `Outline.run` goes on until none is.  A walk removes all marks and starts at
the node found first. -/

namespace RegisterMap

mutual

/-- A nested table whose nodes can be marked. -/
inductive Outline where
  | node (key : Value) (marked : Bool) (members : OutlineMembers)

/-- The members of a node: values and nodes. -/
inductive OutlineMembers where
  | nil
  | leaf (key value : Value) (rest : OutlineMembers)
  | branch (key : Value) (child : Outline) (rest : OutlineMembers)

end

instance : Inhabited Outline := ⟨.node .none false .nil⟩

instance : Inhabited OutlineMembers := ⟨.nil⟩

namespace OutlineMembers

def child? : OutlineMembers → Nat → Option Outline
  | nil, _ => none
  | leaf _ _ _, 0 => none
  | branch _ child _, 0 => some child
  | leaf _ _ rest, i + 1 => rest.child? i
  | branch _ _ rest, i + 1 => rest.child? i

def modify (f : Outline → Outline) : OutlineMembers → Nat → OutlineMembers
  | nil, _ => nil
  | leaf key value rest, 0 => leaf key value rest
  | branch key child rest, 0 => branch key (f child) rest
  | leaf key value rest, i + 1 => leaf key value (rest.modify f i)
  | branch key child rest, i + 1 => branch key child (rest.modify f i)

end OutlineMembers

namespace Outline

mutual

/-- The outline of a table; any other value is a node without members. -/
def ofValue (key : Value) : Value → Outline
  | .table kvs => .node key false (ofMembers kvs)
  | _ => .node key false .nil

def ofMembers : List (Value × Value) → OutlineMembers
  | [] => .nil
  | (k, .table kvs) :: rest => .branch k (.node k false (ofMembers kvs)) (ofMembers rest)
  | (k, v) :: rest => .leaf k v (ofMembers rest)

end

def key : Outline → Value
  | node key _ _ => key

def marked : Outline → Bool
  | node _ marked _ => marked

def members : Outline → OutlineMembers
  | node _ _ members => members

def setMark (b : Bool) : Outline → Outline
  | node key _ members => node key b members

mutual

/-- Number of members without a key, in all nodes. -/
def keylessCount : Outline → Nat
  | node _ _ members => keylessIn members

def keylessIn : OutlineMembers → Nat
  | .nil => 0
  | .leaf key _ rest => (if key.isNone then 1 else 0) + keylessIn rest
  | .branch key child rest => (if key.isNone then 1 else 0) + keylessCount child + keylessIn rest

end

/-- A warning for each member without a key. -/
def warnings (o : Outline) : List String :=
  List.replicate o.keylessCount "WARNING! key is None! val = \x7bval\x7d"

mutual

/-- Set the marks of a node and of all below. -/
def setMarks (b : Bool) : Outline → Outline
  | node key _ members => node key b (setMarksIn b members)

def setMarksIn (b : Bool) : OutlineMembers → OutlineMembers
  | .nil => .nil
  | .leaf key value rest => .leaf key value (setMarksIn b rest)
  | .branch key child rest => .branch key (setMarks b child) (setMarksIn b rest)

end

/-! ### Walks -/

/-- Where a node is: the numbers of the members that lead to it. -/
abbrev Path := List Nat

/-- The node at a path. -/
def at? : Path → Outline → Option Outline
  | [], o => some o
  | i :: p, node _ _ members => (members.child? i).bind (at? p)

/-- Mark the node at a path. -/
def markAt : Path → Outline → Outline
  | [], o => o.setMark true
  | i :: p, node key marked members => node key marked (members.modify (markAt p) i)

mutual

/-- The node to visit next at or below a node: in its first open child, or itself. -/
def ready? : Outline → Option Path
  | node _ marked members =>
    match readyIn? members with
    | some (i, p) => some (i :: p)
    | none => if marked then none else some []

/-- The node to visit next in a list of members. -/
def readyIn? : OutlineMembers → Option (Nat × Path)
  | .nil => none
  | .leaf _ _ rest => (readyIn? rest).map fun (i, p) => (i + 1, p)
  | .branch _ child rest =>
    if child.marked then (readyIn? rest).map fun (i, p) => (i + 1, p)
    else (ready? child).map fun p => (0, p)

end

/-- The node to visit next from a path: below it, or from its parent. -/
def seek : Path → Outline → Option Path
  | [], o => o.ready?
  | i :: p, o =>
    match (o.members.child? i).bind (seek p) with
    | some q => some (i :: q)
    | none => o.ready?

/-- Find the next node from a node and mark it. -/
def next (start : Path) (o : Outline) : Option (Path × Outline) :=
  (o.seek start).map fun p => (p, o.markAt p)

mutual

/-- Number of nodes that are not marked. -/
def openCount : Outline → Nat
  | node _ marked members => openCountIn members + (if marked then 0 else 1)

def openCountIn : OutlineMembers → Nat
  | .nil => 0
  | .leaf _ _ rest => openCountIn rest
  | .branch _ child rest => openCount child + openCountIn rest

end

theorem openCountIn_modify {f : Outline → Outline} {ms : OutlineMembers} {i : Nat} {c : Outline}
    (hc : ms.child? i = some c) (hf : (f c).openCount < c.openCount) :
    openCountIn (ms.modify f i) < openCountIn ms := by
  fun_induction OutlineMembers.child? ms i with
  | case1 => cases hc
  | case2 => cases hc
  | case3 key child rest =>
    cases hc
    simp only [OutlineMembers.modify, openCountIn]
    omega
  | case4 i key value rest ih =>
    simp only [OutlineMembers.modify, openCountIn]
    exact ih hc
  | case5 i key child rest ih =>
    have := ih hc
    simp only [OutlineMembers.modify, openCountIn]
    omega

mutual

theorem openCount_ready {p : Path} : ∀ {o : Outline}, o.ready? = some p → (o.markAt p).openCount < o.openCount
  | node key marked members, h => by
    rw [ready?] at h
    cases hin : readyIn? members with
    | some found =>
      obtain ⟨i, q⟩ := found
      rw [hin] at h
      cases h
      obtain ⟨c, hc, hlt⟩ := openCount_readyIn hin
      have := openCountIn_modify hc hlt
      simp only [markAt, openCount]
      omega
    | none =>
      rw [hin] at h
      cases marked with
      | true => cases h
      | false =>
        cases h
        simp [markAt, setMark, openCount]

theorem openCount_readyIn {p : Path} :
    ∀ {i : Nat} {ms : OutlineMembers}, readyIn? ms = some (i, p) →
      ∃ c, ms.child? i = some c ∧ (c.markAt p).openCount < c.openCount
  | _, .nil, h => by cases h
  | _, .leaf _ _ rest, h => by
    rw [readyIn?] at h
    obtain ⟨⟨j, q⟩, hj, heq⟩ := Option.map_eq_some_iff.mp h
    cases heq
    obtain ⟨c, hc, hlt⟩ := openCount_readyIn hj
    exact ⟨c, hc, hlt⟩
  | _, .branch _ child rest, h => by
    rw [readyIn?] at h
    split at h
    · obtain ⟨⟨j, q⟩, hj, heq⟩ := Option.map_eq_some_iff.mp h
      cases heq
      obtain ⟨c, hc, hlt⟩ := openCount_readyIn hj
      exact ⟨c, hc, hlt⟩
    · obtain ⟨q, hq, heq⟩ := Option.map_eq_some_iff.mp h
      cases heq
      exact ⟨child, rfl, openCount_ready hq⟩

end

theorem openCount_seek {start p : Path} {o : Outline} (h : o.seek start = some p) :
    (o.markAt p).openCount < o.openCount := by
  induction start generalizing o p with
  | nil => exact openCount_ready h
  | cons i start ih =>
    rw [seek] at h
    split at h
    · next q hbelow =>
      cases h
      obtain ⟨c, hc, hq⟩ := Option.bind_eq_some_iff.mp hbelow
      obtain ⟨key, marked, members⟩ := o
      have : openCountIn (members.modify (markAt q) i) < openCountIn members := openCountIn_modify hc (ih hq)
      simp only [markAt, openCount]
      omega
    · exact openCount_ready h

theorem openCount_next {start p : Path} {o o' : Outline} (h : o.next start = some (p, o')) :
    o'.openCount < o.openCount := by
  obtain ⟨q, hq, heq⟩ := Option.map_eq_some_iff.mp h
  cases heq
  exact openCount_seek hq

/-- Take steps from a node as long as there is a next one. -/
def run (start : Path) (o : Outline) : Outline × List Path :=
  match h : o.next start with
  | none => (o, [])
  | some (p, o') =>
    have := openCount_next h
    let (final, ps) := run start o'
    (final, p :: ps)
termination_by o.openCount

/-- The keys of the nodes on these paths. -/
def keysAt (o : Outline) (ps : List Path) : List Value := ps.filterMap fun p => (o.at? p).map key

/-- Go on from the root: the keys of the visited nodes. -/
def traverse (o : Outline) : Outline × List Value :=
  let (final, ps) := o.run []
  (final, o.keysAt ps)

/-- Where a walk starts: at the first node in order. -/
def start (o : Outline) : Path := o.ready?.getD []

/-- A walk from the start: the keys of all nodes. -/
def walk (o : Outline) : Outline × List Value :=
  let fresh := o.setMarks false
  let (final, ps) := fresh.run fresh.start
  (final, fresh.keysAt ps)

end Outline

namespace OutlineMembers

def length : OutlineMembers → Nat
  | nil => 0
  | leaf _ _ rest => rest.length + 1
  | branch _ _ rest => rest.length + 1

/-- The members: a value, or the key of a node. -/
def toList : OutlineMembers → List (Value × (Value ⊕ Value))
  | nil => []
  | leaf key value rest => (key, .inl value) :: rest.toList
  | branch key child rest => (key, .inr child.key) :: rest.toList

/-- Put a value under a key: in its place, or at the end. -/
def put (k v : Value) : OutlineMembers → OutlineMembers
  | nil => leaf k v nil
  | leaf key value rest =>
    if key == k then leaf key v rest else leaf key value (rest.put k v)
  | branch key child rest =>
    if key == k then leaf key v rest else branch key child (rest.put k v)

end OutlineMembers

end RegisterMap
