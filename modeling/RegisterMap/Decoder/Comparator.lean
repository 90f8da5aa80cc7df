import RegisterMap.Number.Double
import RegisterMap.Number.Numeral

/-! # Comparisons of addresses

An item with an address width of `aw` bits stands on `2 ^ aw` addresses from a multiple of `2 ^ aw`
on.  It is hit when the address bits above the lowest `aw` equal a constant.  A `Comparator` is such
a comparison, a `LoopComparator` one for all copies that a loop makes: copy `i` stands `i` blocks
behind the first one. -/

namespace RegisterMap.Decoder

/-- The bits `[high:low]` of an address net against a constant of `width` bits. -/
structure Comparator where
  net : String
  high : Int
  low : Int
  width : Int
  value : Int
deriving DecidableEq, Repr, Inhabited

namespace Comparator

/-- The comparison for the block of `2 ^ aw` addresses at `base`. -/
def ofBlock (net : String) (busAw base aw : Int) : Result Comparator := do
  let size ← Number.powerOfTwo aw
  return ⟨net, busAw - 1, aw, busAw - aw, base.fdiv size⟩

/-- The comparison as an expression. -/
def text (c : Comparator) : Result String := do
  let constant ← Number.sizedConstant c.value c.width
  return s!"{c.net}[{c.high}:{c.low}] == {constant}"

end Comparator

/-- A comparison whose constant grows with the index of a loop. -/
structure LoopComparator where
  net : String
  high : String
  low : Int
  width : Int
  value : Int
  index : String
  /-- Number of bits of the index that take part, as an expression. -/
  indexBits : String
deriving DecidableEq, Repr, Inhabited

namespace LoopComparator

/-- The comparison for blocks of `2 ^ aw` addresses from `base` on, by index. -/
def ofBlocks (net high : String) (busAw base aw : Int) (index indexBits : String) :
    Result LoopComparator := do
  let size ← Number.powerOfTwo aw
  return ⟨net, high, aw, busAw - aw, base.fdiv size, index, indexBits⟩

def text (c : LoopComparator) : Result String := do
  let constant ← Number.sizedConstant c.value c.width
  return s!"{c.net}[{c.high}:{c.low}] == {constant} + {c.index}[{c.indexBits}-1:0]"

end LoopComparator

/-- The addresses of a block. -/
def spanText (base aw : Int) : Result String := do
  let size ← Number.powerOfTwo aw
  return s!"0x{Number.hex base}-0x{Number.hex (base + size - 1)}"

def loopSpanText (base aw : Int) (index : String) : Result String := do
  let span ← spanText base aw
  let size ← Number.powerOfTwo aw
  return s!"{span} (+{index}*0x{Number.hex size})"

/-- Set the hit signal of a block; one as wide as the bus is always hit. -/
def hitLine (keyword signal net : String) (base busAw aw : Int) : Result String := do
  let span ← spanText base aw
  if busAw = aw then return s!"{keyword} {signal} = 1'b1; // {span}"
  let condition ← (← Comparator.ofBlock net busAw base aw).text
  return s!"{keyword} {signal} = {condition}; // {span}"

/-- The hit signal of blocks that follow each other by an index. -/
def loopHitLine (keyword signal net : String) (base busAw aw : Int) (index : String) :
    Result String := do
  let size ← Number.powerOfTwo aw
  let span ← spanText base aw
  let c ← LoopComparator.ofBlocks net (toString (busAw - 1)) busAw base aw index s!"{busAw}-{aw}"
  let condition ← c.text
  return s!"{keyword} {signal} = {condition}; // {span} + 0x{Number.hex size}*{index}"

end RegisterMap.Decoder
