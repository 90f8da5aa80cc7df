import RegisterMap.Design.Basic
import RegisterMap.Proofs.Value
import RegisterMap.Proofs.Workspace.Run

/-! # Nets without annotations

A net without annotations is passed over (`Module.readNet_unrelated`), but it may be the net that was
looked at last when the memories are read, and whether the words of a memory are signed is read off
that net.  So a net at the end of a module leaves a design as it is if it is signed like the net before
it, or if no annotated memory comes up before the next net. -/

namespace RegisterMap

open Build List

namespace Value

variable {v : Value} {key : String}

/-- A document with the member under a key changed. -/
def change (v : Value) (key : String) (f : Value → Value) : Value :=
  match v with
  | table kvs => table (kvs.map fun e => if e.1 == text key then (e.1, f e.2) else e)
  | v => v

def addLast (v : Value) (key : String) (x : Value) : Value :=
  match v with
  | table kvs => table (kvs ++ [(text key, x)])
  | v => v

theorem beq_text_iff {s : String} : (v == text s) = true ↔ v = text s := by
  refine ⟨eq_text_of_same, ?_⟩
  rintro rfl
  exact same_self (text s) rfl

theorem get?_change (kvs : List (Value × Value)) (key k : String) (f : Value → Value) :
    Table.get? (kvs.map fun e => if e.1 == text key then (e.1, f e.2) else e) (text k) =
      (Table.get? kvs (text k)).map (if k = key then f else id) := by
  induction kvs with
  | nil => rfl
  | cons e kvs ih =>
    obtain ⟨k', v⟩ := e
    rw [map_cons, Table.get?.eq_def, Table.get?.eq_def (_ :: kvs)]
    by_cases hk : k' = text k
    · subst hk
      by_cases hkey : k = key
      · simp [beq_text_iff, hkey]
      · simp [beq_text_iff, hkey]
    · by_cases hkey : k' = text key
      · have hne : key ≠ k := fun h => hk (hkey.trans (congrArg text h))
        simp [beq_text_iff, hkey, hne, ih]
      · simp [beq_text_iff, hk, hkey, ih]

theorem member?_change (v : Value) (key k : String) (f : Value → Value) :
    (v.change key f).member? k = (v.member? k).map (Option.map (if k = key then f else id)) := by
  cases v with
  | table kvs => exact congrArg Except.ok (get?_change kvs key k f)
  | _ => rfl

theorem member_change_of_ne {k : String} (h : k ≠ key) (v : Value) (f : Value → Value) :
    (v.change key f).member k = v.member k := by
  rw [member, member, member?_change, if_neg h, Option.map_id]
  cases v.member? k <;> rfl

theorem field_change_of_ne {k : String} (h : k ≠ key) (v : Value) (f : Value → Value) :
    (v.change key f).field k = v.field k := by
  cases v with
  | table kvs =>
    have hget := get?_change kvs key k f
    rw [if_neg h, Option.map_id] at hget
    simp only [change, field, hget, id]
  | _ => rfl

theorem field_change_self {f : Value → Value} {x : Value}
    (h : v.field key = .ok x) : (v.change key f).field key = .ok (f x) := by
  cases v with
  | table kvs =>
    have hget := get?_change kvs key key f
    rw [if_pos rfl] at hget
    simp only [field] at h
    split at h
    · rename_i y hy
      obtain rfl := Except.ok.inj h
      simp only [change, field, hget, hy, Option.map_some]
    · cases h
  | _ => cases h

theorem member_change_self {f : Value → Value} {x : Value} (hx : x.isNone = false)
    (h : v.member key = .ok x) : (v.change key f).member key = .ok (f x) := by
  rw [member] at h
  obtain ⟨y, hy, h⟩ := Result.bind_ok h
  cases y with
  | none =>
    cases h
    cases hx
  | some y =>
    obtain rfl : y = x := Except.ok.inj h
    rw [member, member?_change, hy, if_pos rfl]
    rfl

end Value

namespace Design

variable {β : Type} {v : Value}

/-- A net without annotations. -/
def Unrelated (net : Value) : Prop :=
  ∃ attributes, net.field "attributes" = .ok (.table attributes) ∧
    ∀ e ∈ attributes, e.1.text?.bind (Table.get? Aspect.attributes) = none

theorem decode_unrelated {attributes : List (Value × Value)}
    (h : ∀ e ∈ attributes, e.1.text?.bind (Table.get? Aspect.attributes) = none) :
    Annotations.decode (.table attributes) = .ok [] := by
  have hwritten : ∀ found, Annotations.written found attributes = .ok found := by
    intro found
    induction attributes with
    | nil => rfl
    | cons e attributes ih =>
      rw [Annotations.written, h e mem_cons_self]
      exact ih fun e' he' => h e' (mem_cons_of_mem _ he')
  show (Annotations.written [] attributes >>= fun a => pure (Annotations.imply a)) = _
  rw [hwritten]
  rfl

namespace Module

theorem readNet_unrelated {net : Value} (h : Unrelated net) (m : Module) (name : String) :
    m.readNet name net = pure m := by
  obtain ⟨attributes, hfield, hnone⟩ := h
  unfold readNet
  rw [hfield]
  show (liftM (Annotations.decode (.table attributes)) >>= _ : Build Module) = _
  rw [decode_unrelated hnone]
  rfl

/-- Whether memories are signed, as the net says that was looked at last. -/
def signOf (lastNet : Option Value) : Build Value :=
  match lastNet with
  | some net => net.member "signed"
  | none => Build.refuse .unsetQuantity

/-- A memory with annotations. -/
def Annotated (memory : Value) : Prop :=
  ∃ attributes a, memory.field "attributes" = .ok attributes ∧
    Annotations.decode attributes = .ok a ∧ a.isEmpty = false

theorem readMemory_congr {a b : Option Value} {memory : Value}
    (h : signOf a = signOf b ∨ ¬Annotated memory) (m : Module) (name : String) :
    readMemory a m name memory = readMemory b m name memory := by
  unfold readMemory
  refine bind_congr fun parts => ?_
  cases hfield : memory.field "attributes" with
  | error e => rfl
  | ok attributes =>
    show (liftM (Annotations.decode attributes) >>= _ : Build Module) =
      liftM (Annotations.decode attributes) >>= _
    cases hdecode : Annotations.decode attributes with
    | error e => rfl
    | ok annotations =>
      show (if annotations.isEmpty = true then _ else _ : Build Module) =
        if annotations.isEmpty = true then _ else _
      cases hempty : annotations.isEmpty with
      | true => rfl
      | false =>
        have hsign := h.resolve_right fun hnot =>
          hnot ⟨attributes, annotations, hfield, hdecode, hempty⟩
        refine bind_congr fun source => bind_congr fun inner => ?_
        cases a <;> cases b <;> exact congrArg (· >>= _) hsign

/-- A module with one more net at the end. -/
def withNet (module : Value) (name : String) (net : Value) : Value :=
  module.change "netnames" fun nets => nets.addLast name net

theorem part_withNet {key : String} (hkey : key ≠ "netnames") (v : Value) (name : String) (net : Value) :
    part (withNet v name net) key = part v key := by
  rw [part, part, withNet, Value.member_change_of_ne hkey]

/-- The nets of a module. -/
def Nets (module : Value) (nets : List (String × Value)) : Prop :=
  ∃ kvs, module.member "netnames" = .ok (.table kvs) ∧ part module "netnames" = .ok nets

theorem part_netnames {v : Value} {nets : List (String × Value)} (h : Nets v nets) (name : String)
    (net : Value) : part (withNet v name net) "netnames" = .ok (nets ++ [(name, net)]) := by
  obtain ⟨kvs, hmember, hpart⟩ := h
  have hmember' := Value.member_change_self (f := fun nets => nets.addLast name net) rfl hmember
  rw [part, hmember] at hpart
  rw [part, withNet, hmember']
  have hmap : kvs.mapM (fun e => do return (← e.1.keyText, e.2) : Value × Value → Result _) = .ok nets := hpart
  show (kvs ++ [(Value.text name, net)]).mapM (fun e => do return (← e.1.keyText, e.2) : Value × Value → Result _) = _
  rw [mapM_append, hmap]
  rfl

end Module

open Design.Module

/-! ### Reading a module -/

theorem lift_error_bind {α : Type} (e : Error) (f : α → Build β) :
    (liftM (.error e : Result α) >>= f : Build β) = throw e := rfl

/-- The net that is looked at last when a module has been read. -/
def lastNetAfter (lastNet : Option Value) (module : Value) : Option Value :=
  match part module "netnames" with
  | .ok nets => (nets.getLast?.map Prod.snd).or lastNet
  | .error _ => lastNet

/-- What is read of a module, where `lastNet` tells whether its memories are signed. -/
def readParts (lastNet : Option Value) (key : String) (v : Value) :
    Build (Bool × Module × List BusId) := do
  let attributes ← (← v.field "attributes").visited
  let m : Module := { name := Source.moduleName key }
  let m ← (← Module.part v "cells").foldlM (fun m (name, cell) => m.readInstance name cell) m
  let m ← (← Module.part v "netnames").foldlM (fun m (name, net) => m.readNet name net) m
  let m ← (← Module.part v "memories").foldlM
    (fun m (name, memory) => Module.readMemory lastNet m name memory) m
  let (m, busses) ← m.settle
  return (attributes.contains (.text "top"), m, busses)

def Progress.extend (p : Progress) (key : String) (lastNet : Option Value)
    (x : Bool × Module × List BusId) : Progress where
  modules := Table.put p.modules key x.2.1
  busses := p.busses ++ x.2.2
  top := if x.1 then some key else p.top
  lastNet := lastNet

theorem readModule_eq (p : Progress) (key : String) (v : Value) :
    readModule p key v = (do
      let x ← readParts (lastNetAfter p.lastNet v) key v
      return p.extend key (lastNetAfter p.lastNet v) x) := by
  unfold readModule readParts lastNetAfter
  simp only [bind_assoc]
  refine bind_congr fun attributes => bind_congr fun visited => bind_congr fun cells => bind_congr fun m => ?_
  cases part v "netnames" with
  | error e => rw [lift_error_bind, lift_error_bind]
  | ok nets =>
    show (pure nets >>= _ : Build Progress) = pure nets >>= _
    rw [pure_bind, pure_bind]
    refine bind_congr fun m => bind_congr fun memories => bind_congr fun m => bind_congr fun y => ?_
    rfl

/-- A module with an annotated memory. -/
def HasMemory (module : Value) : Prop :=
  ∃ memories, part module "memories" = .ok memories ∧ ∃ e ∈ memories, Annotated e.2

theorem foldlM_congr {α : Type} {f g : β → α → Build β} {xs : List α}
    (h : ∀ x ∈ xs, ∀ b, f b x = g b x) (b : β) : xs.foldlM f b = xs.foldlM g b := by
  induction xs generalizing b with
  | nil => rfl
  | cons x xs ih =>
    rw [foldlM_cons, foldlM_cons, h x mem_cons_self]
    exact bind_congr fun c => ih (fun y hy => h y (mem_cons_of_mem _ hy)) c

/-- The net that was looked at last matters for annotated memories only. -/
theorem readParts_congr {a b : Option Value} (h : signOf a = signOf b ∨ ¬HasMemory v)
    (key : String) : readParts a key v = readParts b key v := by
  unfold readParts
  refine bind_congr fun attributes => bind_congr fun visited => bind_congr fun cells => ?_
  refine bind_congr fun m => bind_congr fun nets => bind_congr fun m => ?_
  cases hpart : part v "memories" with
  | error e => rw [lift_error_bind, lift_error_bind]
  | ok memories =>
    show (pure memories >>= _ : Build _) = pure memories >>= _
    rw [pure_bind, pure_bind]
    refine congrArg (· >>= _) (foldlM_congr (fun e he m => readMemory_congr ?_ m e.1) m)
    exact h.imp_right fun hnot hannotated => hnot ⟨memories, hpart, e, he, hannotated⟩

theorem readParts_of_error {e : Error} (h : part v "netnames" = .error e)
    (a b : Option Value) (key : String) : readParts a key v = readParts b key v := by
  unfold readParts
  rw [h]
  refine bind_congr fun attributes => bind_congr fun visited => bind_congr fun cells => ?_
  exact bind_congr fun m => by rw [lift_error_bind, lift_error_bind]

theorem nets_of_readParts {a : Option Value} {key : String} {x : Bool × Module × List BusId}
    {ws ws' : Workspace} (h : readParts a key v ws = .ok x ws') : ∃ nets, part v "netnames" = .ok nets := by
  unfold readParts at h
  obtain ⟨_, _, -, h⟩ := bind_ok h
  obtain ⟨_, _, -, h⟩ := bind_ok h
  obtain ⟨_, _, -, h⟩ := bind_ok h
  obtain ⟨_, _, -, h⟩ := bind_ok h
  obtain ⟨nets, _, hnets, -⟩ := bind_ok h
  exact ⟨nets, (lift_ok hnets).1⟩

theorem readParts_withNet {net : Value} {nets : List (String × Value)} (hv : Nets v nets)
    (hnet : Unrelated net) (lastNet : Option Value) (key name : String) :
    readParts lastNet key (withNet v name net) = readParts lastNet key v := by
  unfold readParts
  rw [part_withNet (show "cells" ≠ "netnames" by decide), part_netnames hv, hv.choose_spec.2,
    part_withNet (show "memories" ≠ "netnames" by decide), withNet,
    Value.field_change_of_ne (show "attributes" ≠ "netnames" by decide)]
  refine bind_congr fun attributes => bind_congr fun visited => bind_congr fun cells => ?_
  refine bind_congr fun m => ?_
  show (pure _ >>= _ : Build _) = pure _ >>= _
  rw [pure_bind, pure_bind, foldlM_append, bind_assoc]
  refine bind_congr fun m => ?_
  rw [foldlM_cons]
  dsimp only
  rw [readNet_unrelated hnet, pure_bind, foldlM_nil, pure_bind]

theorem lastNetAfter_withNet {nets : List (String × Value)} (hv : Nets v nets)
    (lastNet : Option Value) (name : String) (net : Value) :
    lastNetAfter lastNet (withNet v name net) = some net := by
  rw [lastNetAfter, part_netnames hv]
  simp

/-! ### Reading all modules -/

/-- An annotated memory comes up in some modules before a net does. -/
def Awaits : List (Value × Value) → Prop
  | [] => False
  | e :: rest => part e.2 "netnames" = .ok [] ∧ (HasMemory e.2 ∨ Awaits rest)

/-- Read one more module under its key. -/
def readNext (p : Progress) (e : Value × Value) : Build Progress := do readModule p (← e.1.keyText) e.2

/-- The net looked at last matters only for annotated memories that come up before the next net. -/
theorem readAll_congr {k : Progress → Build β} (hk : ∀ p x, k { p with lastNet := x } = k p)
    {modules : List (Value × Value)} {p : Progress} {x : Option Value}
    (h : signOf x = signOf p.lastNet ∨ ¬Awaits modules) (ws : Workspace) :
    (modules.foldlM readNext { p with lastNet := x } >>= k) ws = (modules.foldlM readNext p >>= k) ws := by
  induction modules generalizing p ws with
  | nil =>
    rw [foldlM_nil, foldlM_nil, pure_bind, pure_bind, hk]
  | cons e rest ih =>
    rw [foldlM_cons, foldlM_cons, bind_assoc, bind_assoc, readNext, readNext, bind_assoc,
      bind_assoc]
    refine bind_congr fun key ws1 _ => ?_
    rw [readModule_eq, readModule_eq, bind_assoc, bind_assoc]
    cases hpart : part e.2 "netnames" with
    | error err =>
      rw [readParts_of_error hpart _ (lastNetAfter p.lastNet e.2)]
      refine bind_congr fun y ws2 hy => ?_
      obtain ⟨nets, hnets⟩ := nets_of_readParts hy
      rw [hpart] at hnets
      cases hnets
    | ok nets =>
      simp only [lastNetAfter, hpart, pure_bind]
      cases hlast : nets.getLast? with
      | some net => rfl
      | none =>
        obtain rfl := getLast?_eq_none_iff.mp hlast
        simp only [Option.map_none, Option.none_or]
        rw [readParts_congr (h.imp_right fun hnot hmem => hnot ⟨hpart, .inl hmem⟩)]
        refine bind_congr fun y ws2 _ => ?_
        exact ih (p := p.extend key p.lastNet y) (h.imp_right fun hnot hrest => hnot ⟨hpart, .inr hrest⟩) ws2

/-- The net that was looked at last in some modules. -/
def lastNetIn (modules : List (Value × Value)) : Option Value :=
  modules.foldl (fun lastNet e => lastNetAfter lastNet e.2) none

theorem lastNet_of_readAll {modules : List (Value × Value)} {p : Progress} {ws ws' : Workspace}
    (h : modules.foldlM readNext {} ws = .ok p ws') : p.lastNet = lastNetIn modules := by
  refine foldlM_ok h (fun done p _ => p.lastNet = lastNetIn done) rfl ?_
  intro done e rest _ p q w w1 hp hq
  obtain ⟨key, w2, -, hq⟩ := bind_ok hq
  rw [readModule_eq] at hq
  obtain ⟨x, w3, -, hq⟩ := bind_ok hq
  obtain ⟨rfl, -⟩ := pure_ok hq
  rw [lastNetIn, foldl_append]
  exact congrArg (fun l => lastNetAfter l e.2) hp

end Design

/-- A netlist with one more net at the end of a module. -/
def Netlist.withNet (n : Netlist) (module name : String) (net : Value) : Netlist :=
  { n with document := n.document.change "modules" fun modules =>
      modules.change module fun v => Design.Module.withNet v name net }

namespace Design

open Design.Module

/-- What is done when all modules have been read. -/
def finish (p : Progress) : Build Design := do
  let verdicts ← p.busses.mapM BusId.validate
  if p.busses.isEmpty then throw (.design "No ghostbus found in codebase.")
  let keys ← (graphOf p.modules).tree p.top
  let tree ← keys.mapM (fun _ key => populate p.modules key) none
  let (tree, maps) ← resolveTree tree
  Build.say s!"Number of independent memory maps: {maps.length}"
  return ⟨p.modules, p.busses, verdicts.all Prod.fst, tree, maps⟩

theorem read_eq_finish {n : Netlist} {modules : List (Value × Value)}
    (h : n.document.field "modules" = .ok (.table modules)) :
    Design.read n = modules.foldlM readNext {} >>= finish := by
  unfold Design.read
  rw [h]
  rfl

/-- A net without annotations at the end of a module leaves the design as it is, if it is signed like
the net looked at last, or if no annotated memory comes up before the next net. -/
theorem read_withNet (n : Netlist) (module name : String) (net : Value) {v : Value}
    {before behind : List (Value × Value)} {nets : List (String × Value)}
    (hmodules : n.document.field "modules" = .ok (.table (before ++ (.text module, v) :: behind)))
    (honce : ∀ e ∈ before ++ behind, e.1 ≠ .text module) (hv : Nets v nets) (hnet : Unrelated net)
    (hsign : signOf (some net) = signOf (lastNetIn (before ++ [(.text module, v)])) ∨
      ¬(HasMemory v ∨ Awaits behind)) :
    Design.read (n.withNet module name net) = Design.read n := by
  have hmodules' : (n.withNet module name net).document.field "modules" =
      .ok (.table (before ++ (.text module, withNet v name net) :: behind)) := by
    rw [Netlist.withNet, Value.field_change_self hmodules, Value.change]
    have hkeep : ∀ ms : List (Value × Value), (∀ e ∈ ms, e.1 ≠ .text module) →
        (ms.map fun e => if e.1 == .text module then (e.1, withNet e.2 name net) else e) = ms := fun ms hms =>
      (map_congr_left fun e he => if_neg fun h => hms e he (Value.beq_text_iff.mp h)).trans
        (map_id _)
    rw [map_append, map_cons, hkeep before fun e he => honce e (mem_append_left _ he),
      hkeep behind fun e he => honce e (mem_append_right _ he)]
    simp only [if_pos (Value.beq_text_iff.mpr rfl)]
  funext ws
  rw [read_eq_finish hmodules', read_eq_finish hmodules, foldlM_append, foldlM_append,
    bind_assoc, bind_assoc]
  refine Build.bind_congr fun p ws1 hp => ?_
  have hlast : lastNetAfter p.lastNet v = lastNetIn (before ++ [(.text module, v)]) := by
    rw [lastNet_of_readAll hp, lastNetIn, lastNetIn, foldl_append]
    rfl
  have hkey : ∀ w, readNext p (.text module, w) = readModule p module w := fun w => pure_bind _ _
  rw [foldlM_cons, foldlM_cons, bind_assoc, bind_assoc, hkey, hkey, readModule_eq, readModule_eq,
    lastNetAfter_withNet hv, readParts_withNet hv hnet, hlast, bind_assoc, bind_assoc,
    readParts_congr (hsign.imp_right fun hnot hmem => hnot (.inl hmem))]
  refine Build.bind_congr fun x ws2 _ => ?_
  rw [pure_bind, pure_bind]
  have hrest : signOf (some net) = signOf (lastNetIn (before ++ [(.text module, v)])) ∨ ¬Awaits behind :=
    hsign.imp_right fun hnot hrest => hnot (.inr hrest)
  exact readAll_congr (p := p.extend module _ x) (fun p x => rfl) hrest ws2

open Value (ofMembers netOf netWith moduleOf)

def spareNet : Value := netWith 30 1 [("src", "t:9.6-9.7")]

def driver (first width : Nat) (port source : String) : Value :=
  netOf first width "ghostbus_driver" port source

/-- The nets of a bus of four address bits, and a register. -/
def memoryNets : List (String × Value) :=
  [("k", driver 2 1 "clk" "t:2.7-2.8"), ("a", driver 3 4 "addr" "t:3.13-3.14"),
    ("w", driver 7 8 "wdata" "t:4.13-4.14"), ("r", driver 15 8 "rdata" "t:5.14-5.15"),
    ("e", driver 23 1 "wen, wstb" "t:6.7-6.8"), ("c", netOf 24 1 "ghostbus" "1" "t:7.5-7.6")]

/-- A module with a bus, a register and a memory of four bytes. -/
def memoryModule : Value :=
  moduleOf [] [("m", ofMembers [("attributes", ofMembers [("ghostbus", .text "1"), ("src", .text "t:8.11-8.12")]),
    ("width", .int 8), ("start_offset", .int 0), ("size", .int 4)])] memoryNets [("top", .text "1")]

def memoryNetlist : Netlist :=
  { document := ofMembers [("modules", ofMembers [("top", memoryModule)])], top := some "top" }

def memoryFiles : Workspace :=
  { files := { texts := [("t", "module top(\ninput k,\ninput [3:0] a,\ninput [7:0] w,\noutput [7:0] r,\n" ++
      "input e);\nreg c;\nreg [7:0] m [0:3];\nwire s;\n")] } }

/-- A design with a memory behind which a net is added is read as before. -/
theorem read_withNet_memory : HasMemory memoryModule ∧ ∃ d ws', Design.read memoryNetlist memoryFiles = .ok d ws' ∧
    Design.read (memoryNetlist.withNet "top" "s" spareNet) memoryFiles = .ok d ws' := by
  refine ⟨⟨_, rfl, _, mem_cons_self, _, _, rfl, rfl, rfl⟩, ?_⟩
  obtain ⟨d, ws', hread⟩ := Build.exists_ok
    (show (Design.read memoryNetlist).isOk memoryFiles = true by decide +kernel)
  have hmodules : memoryNetlist.document.field "modules" =
      .ok (.table ([] ++ (.text "top", memoryModule) :: [])) := rfl
  have hsame := read_withNet memoryNetlist "top" "s" spareNet hmodules (by simp)
    ⟨memoryNets.map fun e => (.text e.1, e.2), rfl, rfl⟩ ⟨_, rfl, by decide⟩ (.inl rfl)
  exact ⟨d, ws', hread, by rw [hsame, hread]⟩

end Design

end RegisterMap
