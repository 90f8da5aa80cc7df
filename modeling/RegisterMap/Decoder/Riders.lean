import RegisterMap.Decoder.Scope

/-! # Passengers

The outputs and the clock of a passenger's bus are driven from the host bus, enables and strobes only
while the passenger is addressed.  The words read from the copies in a loop share one net, which each
copy drives only while it is addressed. -/

namespace RegisterMap.Decoder

/-- The hit signal of a passenger. -/
def Rider.hitLine (r : Rider) (host : Bus) (base : Option Int) : Result String := do
  Decoder.hitLine "wire" s!"addrhit_{r.passenger.inst}" (host.netText .addr) (← known base)
    (← known host.addrWidth) r.passenger.aw

/-- The address of a passenger relative to its block. -/
def maskLine (host : Bus) (module inst addrNet : String) (aw : Int) : Result String := do
  let busAw ← known host.addrWidth
  let declared := s!"wire [{busAw - 1}:0] {addrNet}_{inst}"
  let lower := s!"{host.netText .addr}[{aw - 1}:0]"
  let note := "// address relative to own base (0x0)"
  if busAw < aw then
    .error (.design (s!"Module {module} requires address width of {aw}, which is greater than that" ++
      s!" of the bus ({busAw})!"))
  else if busAw = aw then return s!"{declared} = {lower}; {note}"
  else
    let zeros ← Number.sizedConstant 0 (busAw - aw)
    let address := braced s!"{zeros}, {lower}"
    return s!"{declared} = {address}; {note}"

namespace Scope

/-- The statement that drives a port of a passenger from its host. -/
def hookupLine (r : Rider) (block : Option Block) (key : PortKey) (net hostNet : String) :
    Result String := do
  let p := r.passenger
  if some net == r.bus.net? .addr && p.aw != p.trueAw then
    let width ← r.bus.widthOf key.name
    let address := zeroExtended s!"{width.display}-{p.aw}" s!"{hostNet}[{p.aw}-1:0]"
    return s!"assign {net} = {address};"
  match r.bus.rangeOf key.name with
  | some range => return s!"assign {net} = {hostNet}[{range.high}:{range.low}];"
  | none =>
    if [.we, .re, .wstb, .rstb].contains key then
      let copy := match block.bind Block.loop with
        | some loop => s!"[{loop.index}]"
        | none => ""
      let name ← r.netName
      return s!"assign {net} = {hostNet} & addrhit_{name}{copy};"
    else return s!"assign {net} = {hostNet};"

/-- The statements that drive the ports of a passenger. -/
def hookup (s : Scope) (r : Rider) (block : Option Block) : Result (List Code) :=
  (r.bus.byDirection [.output, .clock]).filterMapM fun (key, net) => do
    match net with
    | none => return none
    | some net =>
      let hostNet ← s.bus.get key.name
      return some (.line .hookup (← hookupLine r block key net hostNet.display))

/-- The net that copies share for reads. -/
def sharedReadNet (r : Rider) : Result String := do
  match ← r.bus.get "dw_range" with
  | .tuple [high, low] =>
    let name ← r.netName
    return s!"wire [{high.display}:{low.display}] {name}_rdata_topscope;"
  | _ => fail .wrongType

/-- The nets of a passenger in a block. -/
def blockRiderNets (s : Scope) (r : Rider) (block : Block) : Result (List Code) := do
  let net ← r.netName
  let lines ←
    if block.isLoop then do
      let any ←
        if s.policy.alignedLoops then
          Decoder.hitLine "wire" s!"addrhit_{net}_any" s.addr (← known r.base) (← s.busAw)
            r.passenger.blockAw
        else pure s!"wire addrhit_{net}_any = |addrhit_{net};"
      pure [s!"wire [{block.unrolledSize}-1:0] addrhit_{net};", any]
    else do pure [← r.hitLine s.bus r.base]
  let shared ← sharedReadNet r
  return .comment s!"Extmod {net}" :: (lines ++ [shared]).map fun l => .line .passengerNets l

/-- The nets of all passengers. -/
def riderNets (s : Scope) : Result (List Code) := do
  let direct ← s.riders.mapM fun (base, r) => do
    let hit ← r.hitLine s.bus base
    return [.comment s!"External Module Instance {r.passenger.name}", .line .passengers hit] ++
      (← s.hookup r none)
  let inBlocks ← s.blockRiders.mapM fun (branch, items) => do
    let nets ← items.mapM fun (r, block) => s.blockRiderNets r block
    return .comment s!"Generate Block {branch}" :: nets.flatten
  let title := if inBlocks.isEmpty then [] else [.comment "Bus passengers in block scope"]
  return direct.flatten ++ title ++ inBlocks.flatten

/-- The logic of a passenger inside its block. -/
def blockRiderCode (s : Scope) (r : Rider) (block : Block) : Result (List Code) := do
  let net ← r.netName
  let drivers ← s.hookup r (some block)
  let shared := s!"assign {net}_rdata_topscope"
  let read := r.bus.net? .din
  let rest ← match block.loop with
    | none => pure (read.toList.map fun din => s!"{shared} = {din};")
    | some loop =>
      let signal := s!"addrhit_{net}[{loop.index}]"
      let hit ← loopHitLine "assign" signal s.addr (← known r.base) (← s.busAw) r.passenger.aw
        loop.index
      let reads ← match read with
        | none => pure []
        | some din => do
          let released := repeated (← r.bus.widthText .data) "1'bZ"
          pure [s!"{shared} = {signal} ? {din} : {released};"]
      pure (hit :: reads)
  return .comment s!"Extmod {net}" :: drivers ++ rest.map fun l => .line .blockLogic l

end Scope

end RegisterMap.Decoder
