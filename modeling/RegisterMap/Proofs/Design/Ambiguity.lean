import RegisterMap.Proofs.Decoder.LoopedInstances

/-! # Modules that declare several busses

A module that no bus enters and that declares several busses is to name the domain of each of its
items. The test for that (`settleDomains`) asks which spaces hold something, and it does so when the
spaces of the instance are still waiting to be resolved: all of them are empty.  So no design is
refused for it. Reading goes on as if there was no test (`settleLone`), and what names no domain ends
up in an address map of its own. -/

namespace RegisterMap

open Build

def Workspace.filled (ws : Workspace) (id : SpaceId) : Bool :=
  ((ws.space? id).map fun s => !s.region.taken.isEmpty).getD false

theorem Tree.eq_of_shape {α : Type} {t u : Tree α} (hs : t.shape = u.shape) (h : t.toList = u.toList) :
    t = u := by
  have hrel : Tree.Rel Eq t u := Tree.rel_of_shape hs (by rw [h]; exact List.forall₂_refl _)
  clear hs h
  induction t using Tree.induct generalizing u with
  | _ a ts ih =>
    obtain ⟨b, us⟩ := u
    obtain ⟨rfl, hbelow⟩ := Tree.rel_node.mp hrel
    congr 1
    clear hrel
    induction hbelow with
    | nil => rfl
    | cons htu _ ihs =>
      rw [ih _ List.mem_cons_self htu, ihs fun t ht => ih t (List.mem_cons_of_mem _ ht)]

namespace Design

open Workspace

/-- Settle the domains without the test. -/
def settleLone (i : Instance) : Build Unit :=
  if 2 ≤ i.declared.length then return () else settleDomains i

/-- Resolve the spaces of an instance, when `settle` settles the domains. -/
def resolveInstanceBy (settle : Instance → Build Unit) (parent : Option Instance) (i : Instance) :
    Resolving Instance := do
  let isTop ← (parent.map fun p => fromParent p.tops i).getD (.ok true)
  let block ← (parent.map fun p => fromParent p.blocks i).getD (.ok none)
  let i := { i with block := block }
  if isTop then settle i
  let (order, found) ← memoryOrder i.spaces i.label
  let spaces := order.filterMap fun n => i.spaces[n]?
  let _ ← spaces.foldlM (fun found id => do
    let found ← joinPassengers i.spaces found id
    resolveSpace id
    return found) found
  placeSpaces parent isTop i spaces

/-- Resolve the tree, when `settle` settles the domains. -/
def resolveTreeBy (settle : Instance → Build Unit) (t : InstanceTree) :
    Build (InstanceTree × List SpaceId) := do
  let (t, found) ← (t.mapM (resolveInstanceBy settle) none).run {}
  for id in t.data.spaces do id.resolve
  for join in found.joins do settleJoin join
  let t ← t.mapM (fun _ i => dropEmpty i) none
  return (t, found.maps)

/-- Read a design, when `settle` settles the domains. -/
def readBy (settle : Instance → Build Unit) (n : Netlist) : Build Design := do
  let (p, verdicts, t) ← plant n
  let (tree, maps) ← resolveTreeBy settle t
  Build.say s!"Number of independent memory maps: {maps.length}"
  return ⟨p.modules, p.busses, verdicts.all Prod.fst, tree, maps⟩

variable {ws ws' : Workspace} {i : Instance} {walk done rest : List (Option Instance × Instance)}
  {e : Option Instance × Instance} {st : Resolution}

/-! ### Work that differs in unreachable cases -/

namespace Resolving

variable {α β : Type}

theorem bind_congr {x : Resolving α} {f g : α → Resolving β}
    (h : ∀ a st' ws', x st ws = .ok (a, st') ws' → f a st' ws' = g a st' ws') :
    (x >>= f) st ws = (x >>= g) st ws :=
  Build.bind_congr fun a ws' hx => h a.1 a.2 ws' hx

theorem bind_congr_left {x y : Resolving α} (h : x st ws = y st ws) (f : α → Resolving β) :
    (x >>= f) st ws = (y >>= f) st ws :=
  Build.bind_congr_left h fun a => f a.1 a.2

theorem lift_congr {x y : Build α} (h : x ws = y ws) :
    (liftM x : Resolving α) st ws = (liftM y : Resolving α) st ws :=
  Build.bind_congr_left h fun a => pure (a, st)

theorem mapM_congr {f g : α → Resolving β} {xs : List α}
    (h : ∀ done x rest, xs = done ++ x :: rest → ∀ ys st' ws', done.mapM f st ws = .ok (ys, st') ws' →
      f x st' ws' = g x st' ws') : xs.mapM f st ws = xs.mapM g st ws := by
  induction xs using List.reverseRecOn with
  | nil => rfl
  | append_singleton done x ih =>
    have hdone := ih fun met y later hsplit => h met y (later ++ [x]) (by rw [hsplit]; simp)
    rw [List.mapM_append, List.mapM_append]
    refine Eq.trans (bind_congr fun ys st' ws' hys => ?_) (bind_congr_left hdone _)
    have hx := h done x [] rfl ys st' ws' hys
    rw [List.mapM_cons, List.mapM_cons]
    exact bind_congr_left (bind_congr_left hx _) _

theorem mapTree_congr {f g : Option α → α → Resolving β} {p : Option α} {t : Tree α}
    (h : ((t.withParents p).mapM fun e => f e.1 e.2) st ws =
      ((t.withParents p).mapM fun e => g e.1 e.2) st ws) : t.mapM f p st ws = t.mapM g p st ws := by
  have hmaps : ((fun u : Tree β => (u.shape, u.toList)) <$> t.mapM f p) st ws =
      ((fun u : Tree β => (u.shape, u.toList)) <$> t.mapM g p) st ws := by
    rw [Tree.mapM_eq, Tree.mapM_eq]
    exact Build.bind_congr_left h fun a => pure ((t.shape, a.1), a.2)
  refine Build.eq_of_map (k := fun a : Tree β × Resolution => ((a.1.shape, a.1.toList), a.2)) ?_ hmaps
  intro a b hab
  obtain ⟨hwalk, hst⟩ := Prod.mk.inj hab
  obtain ⟨hshape, hlist⟩ := Prod.mk.inj hwalk
  exact Prod.ext (Tree.eq_of_shape hshape hlist) hst

end Resolving

/-! ### The test -/

theorem settleDomains_of_several (ho : ∀ id ∈ i.spaces, ∃ s, ws.space? id = some s ∧ s.Open)
    (hd : 2 ≤ i.declared.length) : settleDomains i ws = .ok () ws := by
  unfold settleDomains
  rcases hds : i.declared with _ | ⟨d, _ | ⟨d', ds⟩⟩
  · simp [hds] at hd
  · simp [hds] at hd
  dsimp only
  generalize i.spaces = ids at ho
  induction ids with
  | nil => rfl
  | cons id ids ih =>
    obtain ⟨s, hs, hopen⟩ := ho id List.mem_cons_self
    have hsize : id.size ws = .ok 0 ws := by
      unfold SpaceId.size
      rw [bind_of_ok (SpaceId.region_of_space? hs), hopen.fresh.taken]
      rfl
    rw [List.forIn_cons, bind_assoc, bind_assoc, bind_of_ok (SpaceId.get_of_space? hs), bind_assoc,
      bind_of_ok hsize]
    simp only [lt_irrefl, decide_false, Bool.and_false, Bool.false_eq_true, if_false, pure_bind]
    exact ih fun j hj => ho j (List.mem_cons_of_mem _ hj)

theorem settleDomains_eq (ho : ∀ id ∈ i.spaces, ∃ s, ws.space? id = some s ∧ s.Open) :
    settleDomains i ws = settleLone i ws := by
  unfold settleLone
  split
  · rename_i hd
    exact settleDomains_of_several ho hd
  · rfl

theorem resolveInstance_eq (ho : ∀ id ∈ e.2.spaces, ∃ s, ws.space? id = some s ∧ s.Open) :
    resolveInstance e.1 e.2 st ws = resolveInstanceBy settleLone e.1 e.2 st ws := by
  unfold resolveInstance resolveInstanceBy
  refine Resolving.bind_congr fun isTop st1 ws1 htop => ?_
  obtain ⟨htop', rfl⟩ := Resolving.lift_ok htop
  obtain ⟨-, rfl⟩ := lift_ok htop'
  refine Resolving.bind_congr fun block st1 ws1 hblock => ?_
  obtain ⟨hblock', rfl⟩ := Resolving.lift_ok hblock
  obtain ⟨-, rfl⟩ := lift_ok hblock'
  dsimp only
  split
  · exact Resolving.bind_congr_left (Resolving.lift_congr (settleDomains_eq ho)) _
  · rfl

theorem resolveTree_eq {t : InstanceTree} (hp : Planted ws (t.withParents none)) :
    resolveTree t ws = resolveTreeBy settleLone t ws := by
  unfold resolveTree resolveTreeBy
  refine Build.bind_congr_left (Resolving.mapTree_congr (Resolving.mapM_congr ?_)) _
  intro done e rest hwalk is st ws' hdone
  rw [hwalk] at hp
  obtain ⟨hu, -, -⟩ := resolveFront_ok hp hdone
  exact resolveInstance_eq (hu.opened hp)

/-! ### Whole designs -/

theorem read_eq_readBy {n : Netlist} (hb : ws.Blank) : Design.read n ws = readBy settleLone n ws := by
  rw [read_eq_plant]
  refine Build.bind_congr fun x ws' hplant => ?_
  exact Build.bind_congr_left (resolveTree_eq (plant_ok hb hplant)) _

theorem Drops.tops {joined : List SpaceId} {i : Instance} (h : Drops joined e i) :
    i.tops = e.2.tops ∧ i.label = e.2.label := by
  obtain ⟨i0, spaces, hhoused, -, rfl⟩ := h
  obtain ⟨b, domain, rfl⟩ := hhoused.inst
  exact ⟨rfl, rfl⟩

namespace Origin

variable {d : Design} {t : InstanceTree} {id : SpaceId}

/-- The spaces of an instance that no bus enters are roots of address maps. -/
theorem mem_maps (h : Origin d ws' ws t st) (he : e ∈ t.withParents none)
    (htop : (e.1.filter fun p => entered p e.2) = none) (hid : id ∈ e.2.spaces) : id ∈ d.maps := by
  rw [h.maps]
  exact h.resolved.roots e he htop hid

theorem mem_maps_root (h : Origin d ws' ws t st) (hid : id ∈ d.tree.data.spaces) :
    id ∈ d.maps := by
  have hdrops := h.drops
  obtain ⟨i, ts⟩ := t
  generalize d.tree = tree at hdrops hid
  obtain ⟨i', us⟩ := tree
  rw [Tree.traced_node] at hdrops
  obtain ⟨hroot, -⟩ := Tree.rel_node.mp hdrops
  refine h.mem_maps (e := (none, i)) ?_ rfl (hroot.sublist.subset hid)
  rw [Tree.withParents_node]
  simp

theorem mem_maps_child (h : Origin d ws' ws t st) {v c : InstanceTree}
    (hv : v ∈ d.tree.subtrees) (hc : c ∈ v.children) (htop : fromParent v.data.tops c.data = .ok true)
    (hid : id ∈ c.data.spaces) : id ∈ d.maps := by
  obtain ⟨e, -, hdrops, hbelow⟩ := h.exists_before hv
  obtain ⟨e', he', hparent, hdrops'⟩ := hbelow c hc
  refine h.mem_maps he' ?_ (hdrops'.sublist.subset hid)
  -- the parent said the same before the resolution
  have hsame : fromParent e.2.tops e'.2 = .ok true := by
    rw [← htop]
    unfold fromParent
    rw [hdrops.tops.1, hdrops'.tops.2]
  rw [hparent, filter_entered hsame]
  rfl

end Origin

/-- No design is refused because a module that declares several busses has items without a domain:
reading is the same without the test.  All spaces of the root and of the other instances that no bus
enters are roots of address maps. -/
theorem unnamed_domains_read {n : Netlist} (hb : ws.Blank) :
    Design.read n ws = readBy settleLone n ws ∧
      ∀ d ws', Design.read n ws = .ok d ws' →
        (∀ id ∈ d.tree.data.spaces, id ∈ d.maps) ∧
        ∀ v ∈ d.tree.subtrees, ∀ c ∈ v.children, fromParent v.data.tops c.data = .ok true →
          ∀ id ∈ c.data.spaces, id ∈ d.maps := by
  refine ⟨read_eq_readBy hb, fun d ws' hread => ?_⟩
  obtain ⟨ws1, t, st, horigin⟩ := read_ok hb hread
  exact ⟨fun id hid => horigin.mem_maps_root hid, fun v hv c hc htop id hid =>
    horigin.mem_maps_child hv hc htop hid⟩

/-! ### A design with two busses -/

/-- A net of a bus in a domain. -/
def driverIn (domain : String) (first width : Nat) (port source : String) : Value :=
  Value.netWith first width [("ghostbus_driver", port), ("ghostbus_domain", domain), ("src", source)]

/-- A module with busses in the domains `p` and `q`, and with a register that is in neither of them. -/
def twoBusses : Netlist :=
  { top := some "top"
    document := Value.ofMembers [("modules", Value.ofMembers [
      ("top", Value.moduleOf [] []
        [("k", driverIn "p" 2 1 "clk" "t:2.6-2.7"), ("a", driverIn "p" 3 4 "addr" "t:3.12-3.13"),
          ("l", driverIn "q" 7 1 "clk" "t:4.6-4.7"), ("b", driverIn "q" 8 4 "addr" "t:5.12-5.13"),
          ("c", Value.netOf 12 1 "ghostbus" "1" "t:6.5-6.6")]
        [("top", .text "1")])])] }

def twoBussesFiles : Workspace :=
  { files := { texts := [("t", "module top;\nwire k;\nwire [3:0] a;\nwire l;\nwire [3:0] b;\nreg c;\n")] } }

/-- Does the root declare two busses, and have a space that holds something without a domain? -/
def unnamedAtRoot (d : Design) (ws : Workspace) : Bool :=
  d.tree.data.declared.length == 2 &&
    d.tree.data.spaces.any fun id => (ws.domainOf id).isNone && ws.filled id

theorem unnamedAtRoot_twoBusses :
    (do return unnamedAtRoot (← Design.read twoBusses) (← get) : Build Bool).isTrue twoBussesFiles =
      true := by decide +kernel

theorem unnamed_domains_read_twoBusses :
    twoBussesFiles.Blank ∧ Design.read twoBusses twoBussesFiles = readBy settleLone twoBusses twoBussesFiles ∧
      ∃ d ws', Design.read twoBusses twoBussesFiles = .ok d ws' ∧ d.tree.data.declared.length = 2 ∧
        ∃ id ∈ d.maps, (ws'.domainOf id).isNone = true ∧ ws'.filled id = true := by
  have hblank : twoBussesFiles.Blank := ⟨rfl, rfl, rfl, rfl⟩
  obtain ⟨hsame, hmaps⟩ := unnamed_domains_read (n := twoBusses) hblank
  obtain ⟨ws1, hrun⟩ := Build.exists_of_isTrue unnamedAtRoot_twoBusses
  obtain ⟨d, ws2, hread, hrun1⟩ := Build.bind_ok hrun
  obtain ⟨ws3, ws4, hget, hrun2⟩ := Build.bind_ok hrun1
  cases hget
  obtain ⟨htrue, rfl⟩ := Build.pure_ok hrun2
  obtain ⟨hlen, hany⟩ := Bool.and_eq_true_iff.mp htrue.symm
  obtain ⟨id, hid, hspace⟩ := List.any_eq_true.mp hany
  obtain ⟨hnone, hfilled⟩ := Bool.and_eq_true_iff.mp hspace
  exact ⟨hblank, hsame, d, ws1, hread, beq_iff_eq.mp hlen, id, (hmaps d ws1 hread).1 id hid, hnone, hfilled⟩

end Design

end RegisterMap
