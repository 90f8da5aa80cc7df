import RegisterMap.Proofs.Decoder.Routes

/-! # Instances in loops

The copies that a loop makes of an instance are placed one by one, each at the address that it gets in
the space of the module.  The logic of the module knows one address for all of them, the absolute
address of the first copy, and takes the others to stand behind it by their indices. -/

namespace RegisterMap

open Build List

namespace Decoder

variable {ws ws' : Workspace} {c : Child}

/-! ### Where copies are hit -/

/-- A copy of an instance that a loop makes. -/
structure LoopCopy where
  index : Nat
  /-- The space through which the copy is reached. -/
  space : SpaceId
  /-- Where it stands in the space around it. -/
  slot : Slot Occupant

/-- A copy of a child of a module stands in a space of the module, under its name in the loop. -/
structure LoopCopy.Stands (ws : Workspace) (v : InstanceTree) (host : SpaceId) (inner : String)
    (x : LoopCopy) : Prop where
  child : ∃ c ∈ v.children, x.space ∈ c.data.spaces
  slot : ws.Contains host x.slot x.space
  name : ∃ s path name b, ws.space? x.space = some s ∧ s.region.path = some path ∧ path.last = .ok name ∧
    Source.blockName name = .ok (some b) ∧ b.index = some x.index ∧ b.inner = inner

section

variable {d : Design} {ws1 : Workspace} {t v i : InstanceTree} {st : Design.Resolution} {busses : Array Bus}

theorem placeIn_looped {w : Workspace} {block : Option BlockId} {domain domain' : Value} {branch : String}
    {start start' : Int} (h : placeIn w block domain start = .looped domain' branch start') :
    domain' = domain ∧ start' = start ∧
      ∃ b, block.bind (fun id => w.blocks[id.index]?) = some b ∧ b.isLoop = true := by
  unfold placeIn at h
  cases hblock : block.bind (fun id => w.blocks[id.index]?) with
  | none =>
    rw [hblock] at h
    cases h
  | some b =>
    rw [hblock] at h
    dsimp only at h
    split at h
    · cases h
      exact ⟨rfl, rfl, b, rfl, ‹_›⟩
    · cases h

variable {u k : Tree Node} {key domain : Value} {dom : Domain} {branch : String}
  {grown : List (Tree Node)} {copies : List (Nat × Tree Node)} {p : Nat × Tree Node}

section

variable (h : Design.Origin d ws ws1 t st) (hv : v ∈ d.tree.subtrees)

include h hv

theorem Copies.enters (hcopies : Copies grown domain branch copies k)
    (hgrown : ∀ g ∈ grown, ∃ i ∈ v.children, Enters { ws with busses := busses } v.data i.data g.data ∧
      Fits { ws with busses := busses } i g) (hp : p ∈ copies) :
    ∃ i ∈ v.children, ∃ main host slot, p.2.data.main = .ok main ∧ p.2.data.inst = main.inst ∧
      main.space ∈ i.data.spaces ∧ Domain.Describes { ws with busses := busses } main.space main ∧
      v.data.spaces.find? (fun j => ws.domainOf j == i.data.parentDomain) = some host ∧
      ws.Contains host slot main.space ∧ (i.data.parentDomain == domain) = true ∧
      p.2.data.place = .looped i.data.parentDomain branch slot.lo ∧
      ∃ b, (p.2.data.block.bind fun id => ws.blocks[id.index]?) = some b ∧ b.isLoop = true := by
  obtain ⟨hmem, ⟨domain', start, hlooped, hdomain⟩, -⟩ := hcopies.mem p hp
  obtain ⟨i, hi, henters, hfits⟩ := hgrown p.2 hmem
  obtain ⟨main, host, slot, hmain, hinst, hin, hdesc, hhost, hslot, hplace⟩ :=
    henters.seat h hv hi hfits.describes
  obtain ⟨rfl, rfl, hblock⟩ := placeIn_looped (hplace.symm.trans hlooped)
  exact ⟨i, hi, main, host, slot, hmain, hinst, hin, hdesc, hhost, hslot, hdomain, hlooped, hblock⟩

theorem Copies.stands (hcopies : Copies grown domain branch copies k)
    (hgrown : ∀ g ∈ grown, ∃ i ∈ v.children, Enters { ws with busses := busses } v.data i.data g.data ∧
      Fits { ws with busses := busses } i g)
    (hspace : dom.space ∈ v.data.spaces) (hkey : (ws.domainOf dom.space).isKey = true)
    (hdomain : (ws.domainOf dom.space == domain) = true) (hp : p ∈ copies) :
    ∃ x : LoopCopy, x.index = p.1 ∧ x.Stands ws v dom.space k.data.inst ∧
      ∃ main, p.2.data.main = .ok main ∧ main.space = x.space := by
  obtain ⟨i, hi, main, host, slot, hmain, hinst, hin, hdesc, hhost, hslot, hpd, -⟩ :=
    hcopies.enters h hv hgrown hp
  obtain ⟨-, -, b, hname, hindex, hinner⟩ := hcopies.mem p hp
  have hpk := h.isKey_parentDomain hv hi hin hslot
  obtain rfl : dom.space = host := h.eq_host hv hi hin hslot hhost hspace
    (Value.same_trans hkey hdomain (Value.same_symm hpk hpd))
  obtain ⟨s, hs, -, -, -, path, hpath, hlast⟩ := hdesc.entry
  refine ⟨⟨p.1, main.space, slot⟩, rfl, ⟨⟨i, hi, hin⟩, hslot, ?_⟩, main, hmain, rfl⟩
  exact ⟨s, path, main.inst, b, hs, hpath, hlast, hinst ▸ hname, hindex, hinner⟩

end

end

open Value (ofMembers netOf moduleOf cellOf)

/-- A top module with a register and an instance `m`, in which a loop `g` makes two copies of an
instance `u` with one register. -/
def nestedLoop : Netlist :=
  let driver (first width : Nat) (port source : String) := netOf first width "ghostbus_driver" port source
  let register (bit : Nat) := netOf bit 1 "ghostbus" "1" "word:1.5-1.6"
  let copy := cellOf "u" "loop:1.42-1.43"
  { top := some "top"
    document := ofMembers [("modules", ofMembers [
      ("top", moduleOf [("m", cellOf "mid" "loop:1.1-1.2")] []
        [("k", driver 2 1 "clk" "bit:1.7-1.8"), ("a", driver 3 4 "addr" "bits:1.13-1.14"),
          ("w", driver 7 1 "wdata" "bit:1.7-1.8"), ("e", driver 8 1 "wen" "bit:1.7-1.8"), ("q", register 9)]
        [("top", .text "1")]),
      ("mid", moduleOf [("g[0].u", copy), ("g[1].u", copy)] [] [] []),
      ("u", moduleOf [] [] [("c", register 2)] [])])] }

/-- The slots of a space, with the address widths of what they hold. -/
def slotsOf (ws : Workspace) (host : SpaceId) : Option (List (Int × Int × Int)) :=
  (ws.space? host).map fun a => a.region.taken.map fun x => (x.lo, x.hi, ws.widthOf x.item)

end Decoder

end RegisterMap
