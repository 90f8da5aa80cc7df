import RegisterMap.Register.Declaration

/-! # Registers and memories in loops

The netlist lists each copy that a loop makes of a register or a memory.  The copies are collected by
the block and the name inside it (`LoopGroups.add`).  When the module is read, the copies of each
name must be complete, and the copy that was listed first stands for all of them
(`LoopGroups.settle`). -/

namespace RegisterMap.Design

/-- The copies of a register in a loop, with their indices. -/
structure LoopCopies where
  places : List Int := []
  registers : List RegisterId := []
deriving Repr, Inhabited

/-- The registers and memories of a loop. -/
structure LoopGroup where
  /-- A place in the source inside the loop. -/
  source : Option String
  nets : Table String LoopCopies := []
  memories : Table String LoopCopies := []
deriving Repr, Inhabited

/-- The loops of a module, by block. -/
abbrev LoopGroups := Table String LoopGroup

def LoopCopies.add (c : LoopCopies) (place : Int) (id : RegisterId) : LoopCopies :=
  ⟨c.places ++ [place], c.registers ++ [id]⟩

namespace LoopGroups

/-- Add a copy to its loop. -/
def add (groups : LoopGroups) (parts : Source.BlockName) (place : Nat) (source : Option String)
    (isMemory : Bool) (id : RegisterId) : LoopGroups :=
  Table.update groups parts.block { source := source } fun g =>
    let g := { g with source := g.source.or source }
    let more (t : Table String LoopCopies) : Table String LoopCopies :=
      Table.update t parts.inner {} fun c => c.add place id
    if isMemory then { g with memories := more g.memories } else { g with nets := more g.nets }

/-- Let the first copy stand for all; the names before have `length` copies. -/
def settleCopies (module block : String) (length : Option Nat) (copies : LoopCopies) :
    Build (Option RegisterId × Nat) := do
  match copies.registers with
  | [] => return (none, length.getD 0)
  | first :: _ =>
    let count := copies.places.length
    if !Number.isPermutedRange copies.places then
      let name ← (← first.get).name
      throw (.inconsistency s!"Did not find all indices for {name} in {module}")
    if (length.getD count) ≠ count then Build.refuse .wrongType
    let _ ← first.readDeclaration
    for id in copies.registers do
      match (← id.get).block with
      | some b => b.updateLoop fun l => { l with length := some count }
      | none => pure ()
      id.takeDeclaration first
    first.update fun r => { r with copies := copies.registers }
    let r ← first.get
    let name ← r.name
    Build.note s!"Generate Loop {block} of len {count}: {name} now has AW {r.aw}"
    return (some first, count)

/-- The registers and memories of a loop, with equally many copies. -/
def settleGroup (module block : String) (group : LoopGroup) : Build (List RegisterId) := do
  match group.source with
  | none => Build.refuse .wrongType
  | some source =>
    if (← Block.ofSource (← getThe Workspace).files block source).isNone then
      throw (.design s!"Failed to find for-loop around {source}")
    let copies := Table.values group.nets ++ Table.values group.memories
    let (ids, _) ← copies.foldlM (fun (ids, length) c => do
      let (id, count) ← settleCopies module block length c
      return (ids ++ id.toList, some count)) (([] : List RegisterId), (none : Option Nat))
    return ids

/-- Settle all loops of a module. -/
def settle (groups : LoopGroups) (module : String) : Build (List RegisterId) := do
  return (← groups.mapM fun (block, group) => settleGroup module block group).flatten

end LoopGroups

end RegisterMap.Design
