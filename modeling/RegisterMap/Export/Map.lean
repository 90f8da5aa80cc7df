import RegisterMap.Export.Name
import RegisterMap.Value.Json
import RegisterMap.Register.Declaration

/-! # Exported register maps

A map describes each register by access, widths, sign and address.  In a *flat* map all registers
stand side by side under their full names and absolute addresses.  In a *nested* map each module has
its registers and its inner modules, with addresses inside the module. -/

namespace RegisterMap.Export

/-- The description of an item in a map. -/
def entry (base access aw dw signed : Value) (description : Option String) :
    Result (List (Value × Value)) := do
  let name ← Access.nameOf access
  let sign := if signed.truthy then "signed" else "unsigned"
  return [(.text "access", .text name), (.text "addr_width", aw), (.text "sign", .text sign),
    (.text "base_addr", base), (.text "data_width", dw)] ++
    (match description with
     | some text => [(.text "desc", .text text)]
     | none => [])

/-- The map of a module without items. -/
def emptyModule (instanceOf base aw : Value) : List (Value × Value) :=
  [(.text "instanceof", instanceOf), (.text "base_addr", base), (.text "addr_width", aw),
   (.text "regs", .table []), (.text "modules", .table [])]

/-- Put a member into the table of a module, which must be there. -/
def putInside (module : List (Value × Value)) (key : String) (name member : Value) :
    Result (List (Value × Value)) :=
  match Table.get? module (.text key) with
  | some (.table kvs) => .ok (Table.put module (.text key) (.table (Table.put kvs name member)))
  | some _ => fail .wrongType
  | none => fail .missingKey

/-- What an export needs to know of a register or a passenger. -/
structure Subject where
  base : Option Int
  aw : Int
  dw : Option Int
  access : Access
  /-- The sign, which only what was read from a netlist has. -/
  signed : Option Value
  description : Option String
  otherName : Option String
  name : Result String
  label : Option String

/-- A register as a subject. -/
def registerSubject (id : RegisterId) : Build Subject := do
  let r ← id.get
  let signed := if r.kind.isDeclared then some r.signed else none
  return ⟨r.base, r.aw, some r.dw, r.access, signed, r.description, r.otherName, r.name, r.label⟩

/-- A passenger as a subject. -/
def passengerSubject (id : PassengerId) : Build Subject := do
  let p ← id.get
  let bus ← p.bus.get
  return ⟨p.base bus, p.aw, bus.dataWidth, p.access, some p.signed, none, none, .ok p.name,
    some p.inst⟩

/-- The subjects that an item stands for: with aligned loops, all copies. -/
def subjects (item : Occupant) : Build (List Subject) := do
  let aligned := (← getThe Workspace).policy.alignedLoops
  match item with
  | .register id =>
    if aligned && !(← id.get).kind.isDeclared then Build.refuse .noSuchField
    let ids ← if aligned && (← id.inLoop) then pure (← id.get).copies else pure [id]
    ids.mapM registerSubject
  | .passenger id =>
    let ids ← if aligned && (← id.inLoop) then pure (← id.get).copies else pure [id]
    ids.mapM passengerSubject
  | _ => return []

def nonEmpty (s : Option String) : Option String := s.filter fun s => !s.isEmpty

/-- Name of a subject in a flat map: its alias, or its path and name. -/
def flatName (above : List String) (s : Subject) : Result String :=
  match nonEmpty s.otherName with
  | some otherName => .ok otherName
  | none => do
    let name ← s.name
    Source.flatPath ((above ++ [name]).filter fun part => !part.isEmpty)

/-- The entry of what is shown. -/
def subjectEntry (base : Value) (s : Subject) : Result Value :=
  match s.signed with
  | none => fail .noSuchField
  | some signed => do
    return .table
      (← entry base (.int s.access) (.int s.aw) (.ofInt? s.dw) signed (nonEmpty s.description))

/-- Add a subject to a map. -/
def addSubject (flat : Bool) (regionBase : Int) (above drops : List String)
    (map : List (Value × Value)) (s : Subject) : Result (List (Value × Value)) := do
  if flat then
    match s.base with
    | none => fail .wrongType
    | some base =>
      let described ← subjectEntry (.int (regionBase + base)) s
      let name ← flatName above s
      return if drops.contains name then map else Table.put map (.text name) described
  else
    let described ← subjectEntry (.ofInt? s.base) s
    if (s.label.map drops.contains).getD false then return map
    putInside map "regs" (.ofText? s.label) described

/-- Add all that is shown for an item. -/
def addSubjects (flat : Bool) (regionBase : Int) (above drops : List String)
    (map : List (Value × Value)) (item : Occupant) : Build (List (Value × Value)) := do
  (← subjects item).foldlM (fun map s => addSubject flat regionBase above drops map s) map

/-- Only a space of a bus domain is a module. -/
def requireModule (id : SpaceId) : Build Unit := do
  if (← id.get).kind ≠ .bus then Build.refuse .noSuchField

mutual

/-- The map of a space; below the top one without the first name of the path. -/
def mapUpTo (flat : Bool) (drops : List String) : (fuel : Nat) → SpaceId → (top : Bool) →
    Build (List (Value × Value))
  | 0, _, _ => tooDeep
  | fuel + 1, id, top => do
    if !flat then requireModule id
    let r ← id.region
    let start : List (Value × Value) :=
      if flat then [] else emptyModule (.text r.label) (.int r.relativeBase) (.int r.aw)
    let contents ← id.contents
    let above ←
      if top then pure []
      else
        match r.path with
        | some path => pure (path.names.drop 1)
        | none => Build.refuse .wrongType
    contents.foldlM (fun map (_, _, item) => addItemUpTo flat drops fuel r.base above map item)
      start

/-- Add an inner space, a joined passenger or another item to a map. -/
def addItemUpTo (flat : Bool) (drops : List String) : (fuel : Nat) → Int → List String →
    List (Value × Value) → Occupant → Build (List (Value × Value))
  | 0, _, _, _, _ => tooDeep
  | fuel + 1, base, above, map, item => do
    match item with
    | .space inner =>
      let sub ← mapUpTo flat drops fuel inner false
      if flat then mergeDistinct map sub
      else
        requireModule inner
        let name ← (← inner.region).shortName
        putInside map "modules" (.text name) (.table sub)
    | .passenger id =>
      let p ← id.get
      match p.joined with
      | some joined =>
        let sub ← mapUpTo flat drops fuel joined false
        if flat then mergeDistinct map sub
        else putInside map "modules" (.text p.inst) (.table sub)
      | none => addSubjects flat base above drops map item
    | _ => addSubjects flat base above drops map item

end

/-- The map of a space. -/
def map (id : SpaceId) (flat top : Bool) (drops : List String) :
    Build (List (Value × Value)) := do
  mapUpTo flat drops (4 * (← depthBound)) id top

/-- Write the map of a space to a file. -/
def write (id : SpaceId) (drops : List String) (file : String) (folder : Option String)
    (flat mangle short : Bool) : Build Unit := do
  let path := (folder.map fun f => Source.joinPath f file).getD file
  let members ← finishNames (← map id flat true drops) flat mangle short
  Build.write path (Json.render (.table members))

end RegisterMap.Export
