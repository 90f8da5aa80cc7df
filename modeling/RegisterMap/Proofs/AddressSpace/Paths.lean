import RegisterMap.Proofs.AddressSpace.Closed
import RegisterMap.Proofs.AddressSpace.Explicit
import RegisterMap.Proofs.AddressSpace.Passes

/-! # Paths of spaces inside spaces

A space that gets a path hands it on to the spaces in its slots.  Most other work leaves all paths and
the spaces in all slots as they are (`Workspace.Unrenamed`).

A tree *spells* its paths when the path of every space consists of the names on the way to it
(`Workspace.Spells`).  A new path for the root of such a tree is handed on to all its spaces
(`SpaceId.setPathUpTo_spells`). -/

namespace RegisterMap

open Build List

namespace Region

variable {r r' r'' : Region Occupant}

/-- The spaces in the slots of a region. -/
def inside (r : Region Occupant) : List SpaceId := r.taken.filterMap fun slot => slot.item.inner?

/-- The names on the path of a region. -/
def names? (r : Region Occupant) : Option (List String) := r.path.map Path.names

/-- The names on the path and the spaces in the slots are as they were. -/
structure Unrenamed (r r' : Region Occupant) : Prop where
  names : r'.names? = r.names?
  inside : r'.inside.Perm r.inside
  reserved : r'.reserved = r.reserved

theorem Unrenamed.refl (r : Region Occupant) : r.Unrenamed r := ⟨rfl, List.Perm.refl _, rfl⟩

theorem Unrenamed.trans (h : r.Unrenamed r') (h' : r'.Unrenamed r'') : r.Unrenamed r'' :=
  ⟨h'.names.trans h.names, h'.inside.trans h.inside, h'.reserved.trans h.reserved⟩

theorem inside_perm (h : r'.taken.Perm r.taken) : r'.inside.Perm r.inside := h.filterMap _

theorem unrenamed_sorted (r : Region Occupant) : r.Unrenamed r.sorted :=
  ⟨rfl, inside_perm r.sorted_taken_perm, rfl⟩

theorem unrenamed_shrink {u : Unit} (h : r.shrink = (r', .ok u)) : r.Unrenamed r' := by
  obtain ⟨ht, hp, hr⟩ := shrink_keeps h
  exact ⟨congrArg (Option.map Path.names) hp, inside_perm ht, hr⟩

theorem place_keeps {width base : Int} {item : Occupant} {addr : Option Int}
    (h : r.place Occupant.isSome width item addr .item = (r', .ok base)) :
    r'.path = r.path ∧ r'.reserved = r.reserved ∧
      r'.inside.Perm (item.inner?.toList ++ r.inside) := by
  have hinside : r'.inside.Perm (item.inner?.toList ++ r.inside) := by
    obtain ⟨w, -, hgain⟩ := place_eq_ok h
    refine (hgain.taken.filterMap _).trans ?_
    cases hi : item.inner? <;> simp [hi, inside]
  cases addr with
  | none =>
    have h : r.push width item = (r', .ok base) := h
    rcases r.push_cases width item with ⟨e, he⟩ | ⟨w, start, gaps, -, -, he⟩
    · rw [he] at h
      cases h
    · rw [he] at h
      cases h
      exact ⟨rfl, rfl, hinside⟩
  | some addr =>
    have h : r.insert Occupant.isSome addr width .item item = (r', .ok base) := h
    rcases r.insert_cases Occupant.isSome addr width .item item with
      ⟨e, he⟩ | ⟨e, he⟩ | ⟨w, gaps, -, -, -, -, he⟩
    · rw [he] at h
      cases h
    · rw [he] at h
      cases h
    · rw [he] at h
      cases h
      exact ⟨rfl, rfl, hinside⟩

theorem walk_inside (hk : r.reserved = []) :
    (r.walk.entries.filterMap fun e => e.item.bind Occupant.inner?).Perm r.inside := by
  have hwalk : r.walk.entries.Perm (r.taken.map Slot.entry ++ r.vacant.map Gap.entry) := by
    have := Walk.merge_perm r.taken r.vacant [] (Walk.complete_merge _ _)
    unfold walk
    rw [hk]
    simpa using this
  refine (hwalk.filterMap _).trans ?_
  rw [filterMap_append, filterMap_map, filterMap_map]
  have hgaps : r.vacant.filterMap ((fun e => e.item.bind Occupant.inner?) ∘ Gap.entry) = [] := by
    rw [filterMap_eq_nil_iff]
    exact fun _ _ => rfl
  rw [hgaps, append_nil]
  exact List.Perm.refl _

end Region

/-! ### Work that leaves the paths -/

/-- Requests, path and inner spaces of the space are as they were. -/
structure AddressSpace.Unrenamed (s s' : AddressSpace) : Prop where
  kind : s'.kind = s.kind
  ledger : s'.ledger = s.ledger
  region : s.region.Unrenamed s'.region

theorem AddressSpace.Unrenamed.refl (s : AddressSpace) : s.Unrenamed s := ⟨rfl, rfl, .refl _⟩

theorem AddressSpace.Unrenamed.trans {s s' s'' : AddressSpace} (h : s.Unrenamed s')
    (h' : s'.Unrenamed s'') : s.Unrenamed s'' :=
  ⟨h'.kind.trans h.kind, h'.ledger.trans h.ledger, h.region.trans h'.region⟩

namespace Workspace

/-- But for the spaces `ids`, requests, paths and inner spaces of all spaces are as they were. -/
def Unrenamed (ids : List SpaceId) (ws ws' : Workspace) : Prop :=
  ∀ j, j ∉ ids → ∀ s, ws.space? j = some s → ∃ s', ws'.space? j = some s' ∧ s.Unrenamed s'

variable {ids ids' : List SpaceId} {ws ws' ws'' : Workspace} {id : SpaceId} {s s' : AddressSpace}

instance : IsPreorder Workspace (Unrenamed ids) where
  refl _ := fun _ _ s hs => ⟨s, hs, .refl s⟩
  trans _ _ _ h h' := fun j hj s hs => by
    obtain ⟨s', hs', hu⟩ := h j hj s hs
    obtain ⟨s'', hs'', hu'⟩ := h' j hj s' hs'
    exact ⟨s'', hs'', hu.trans hu'⟩

namespace Unrenamed

theorem trans (h : Unrenamed ids ws ws') (h' : Unrenamed ids ws' ws'') : Unrenamed ids ws ws'' :=
  IsTrans.trans _ _ _ h h'

theorem mono (h : Unrenamed ids ws ws') (hi : ids ⊆ ids') : Unrenamed ids' ws ws' :=
  fun j hj => h j fun hm => hj (hi hm)

theorem of_spaces (h : ∀ j, j ∉ ids → ws'.space? j = ws.space? j) : Unrenamed ids ws ws' :=
  fun j hj s hs => ⟨s, (h j hj).trans hs, .refl s⟩

theorem setSpace (hs : ws.space? id = some s) (h : s.Unrenamed s') :
    Unrenamed ids ws (ws.setSpace id s') := by
  intro j _ t ht
  by_cases hj : id = j
  · subst hj
    obtain rfl := Option.mem_unique hs ht
    exact ⟨s', space?_setSpace_self hs s', h⟩
  · exact ⟨t, (space?_setSpace_of_ne hj s').trans ht, .refl t⟩

theorem setSpace_of_mem (hid : id ∈ ids) (s' : AddressSpace) : Unrenamed ids ws (ws.setSpace id s') :=
  .of_spaces fun j hj => space?_setSpace_of_ne (by rintro rfl; exact hj hid) s'

end Unrenamed

end Workspace

open Workspace (Unrenamed)

/-- The work leaves all paths if it goes through. -/
abbrev Build.KeepsPaths {α : Type} (x : Build α) : Prop := Along (Unrenamed []) x

namespace SpaceId

variable {id : SpaceId}

theorem onRegion_keepsPaths {α : Type} {f : Region Occupant → Region.Outcome Occupant α}
    (hf : ∀ r r' a, f r = (r', .ok a) → r.Unrenamed r') : Build.KeepsPaths (id.onRegion f) := by
  intro ws a ws' h
  obtain ⟨s, r, hs, hr, rfl⟩ := onRegion_ok h
  exact .setSpace hs ⟨rfl, rfl, hf _ _ _ hr⟩

theorem setBaseUpTo_keepsPaths (fuel : Nat) (id : SpaceId) (base : Int) :
    Build.KeepsPaths (setBaseUpTo fuel id base) := fun _ _ _ h =>
  setBaseUpTo_along (R := Unrenamed []) (Q := fun _ _ => True) (fun _ _ _ _ _ _ => trivial)
    (fun _ _ _ => trivial) (fun _ _ hs => .setSpace hs ⟨rfl, rfl, rfl, List.Perm.refl _, rfl⟩) fuel
    trivial h

end SpaceId

theorem Occupant.setBase_keepsPaths (o : Occupant) (base : Int) : Build.KeepsPaths (o.setBase base) := by
  intro ws u ws' h
  rcases setBase_cases h with ⟨l, hl⟩ | ⟨-, busses, rfl, -⟩ | ⟨c, s, fuel, ws1, -, hset, hs, rfl⟩
  · exact .of_spaces fun j _ => hl.spaces j
  · exact .of_spaces fun _ _ => rfl
  · refine (SpaceId.setBaseUpTo_keepsPaths fuel c base hset).trans (.setSpace hs ?_)
    exact ⟨rfl, rfl, rfl, List.Perm.refl _, rfl⟩

namespace SpaceId

variable {id : SpaceId} {item : Occupant}

theorem hosts_unrenamed (w0 : Workspace) : Build.Hosts (Unrenamed []) w0 (fun _ => True)
    (fun _ x => x.inner? = none) (fun x => x.inner? = none) where
  place _ hx hs hr := by
    obtain ⟨hp, hk, hinside⟩ := Region.place_keeps hr
    rw [hx] at hinside
    exact .setSpace hs ⟨rfl, rfl, congrArg (Option.map Path.names) hp, hinside, hk⟩
  sort _ hs := .setSpace hs ⟨rfl, rfl, rfl, Region.inside_perm (Region.sorted_taken_perm _), rfl⟩
  path hc := nomatch hc
  tell _ _ h := Occupant.setBase_keepsPaths _ _ h
  note h := .of_spaces h.spaces
  item h := h
  copies _ _ _ y hy := by
    have := Workspace.isLeaf_of_mem_copiesOf hy
    cases y <;> first | rfl | cases this

theorem placeRequest_keepsPaths {shelf : Shelf} (hshelf : shelf ≠ .keepouts) {request : Staged}
    (hitem : request.item.inner? = none) (width : Option Int) :
    Build.KeepsPaths (id.placeRequest shelf request width) := fun _ _ _ h =>
  (hosts_unrenamed _).placeRequest trivial (fun he => absurd he hshelf) hitem h

end SpaceId

/-! ### Trees that spell their paths -/

/-- The spaces of the tree are resolved and have those below in their slots.  The root has the path
`names`, and every other space has that of the one above it with its own name behind. -/
inductive Workspace.Spells (ws : Workspace) (name : SpaceId → String) :
    List String → Tree SpaceId → Prop where
  | node {names : List String} {id : SpaceId} {ts : List (Tree SpaceId)} {s : AddressSpace} :
      ws.space? id = some s → s.ledger.resolved = true → s.region.names? = some names →
      s.region.reserved = [] → s.region.inside.Perm (ts.map Tree.data) →
      (∀ u ∈ ts, ws.Spells name (names ++ [name u.data]) u) → ws.Spells name names (.node id ts)

namespace Workspace

variable {ws ws' : Workspace} {name : SpaceId → String} {names : List String} {t : Tree SpaceId}
  {ids : List SpaceId}

theorem Spells.unrenamed (h : ws.Spells name names t) (hu : Unrenamed ids ws ws')
    (hd : t.toList.Disjoint ids) : ws'.Spells name names t := by
  induction h with
  | @node names id ts s hs hres hnames hk hinside _ ih =>
    have hid : id ∉ ids := fun hm => hd (Tree.data_mem_toList (.node id ts)) hm
    obtain ⟨s', hs', hs''⟩ := hu id hid s hs
    refine .node hs' (by rw [hs''.ledger]; exact hres) (hs''.region.names.trans hnames)
      (hs''.region.reserved.trans hk) (hs''.region.inside.trans hinside) fun u hu => ih u hu ?_
    exact fun j hj => hd (Tree.mem_toList_of_child hu hj)

theorem Spells.setSpace (h : ws.Spells name names t) {id : SpaceId} (hid : id ∉ t.toList)
    (s : AddressSpace) : (ws.setSpace id s).Spells name names t :=
  h.unrenamed (.setSpace_of_mem mem_cons_self s) (disjoint_singleton.mpr hid)

/-- The names on the path of a space. -/
def pathOf (ws : Workspace) (id : SpaceId) : Option (List String) :=
  (ws.space? id).bind fun s => s.region.names?

theorem pathOf_eq {id : SpaceId} {s : AddressSpace} (hs : ws.space? id = some s) :
    ws.pathOf id = s.region.names? := by
  unfold pathOf
  rw [hs]
  rfl

/-- Along every way from the root, the path of the last space goes on from that of the root. -/
theorem Spells.pathOf (h : ws.Spells name names t) {p : List SpaceId} (hp : p ∈ t.paths) :
    ∃ id, p.getLast? = some id ∧ ws.pathOf id = some (names ++ p.tail.map name) := by
  induction h generalizing p with
  | @node names id ts s hs _ hnames _ _ _ ih =>
    rcases Tree.mem_paths_node.mp hp with rfl | ⟨u, hu, q, hq, rfl⟩
    · exact ⟨id, rfl, by simp [pathOf_eq hs, hnames]⟩
    · obtain ⟨j, hj, hpath⟩ := ih u hu hq
      rw [← Tree.cons_tail_of_mem_paths hq] at hj ⊢
      refine ⟨j, by rwa [getLast?_cons_cons], ?_⟩
      rw [hpath, tail_cons, map_cons, append_assoc]
      rfl

theorem Spells.root (h : ws.Spells name names t) :
    ∃ s, ws.space? t.data = some s ∧ s.region.names? = some names := by
  cases h with
  | node hs _ hnames => exact ⟨_, hs, hnames⟩

theorem Spells.root_resolved (h : ws.Spells name names t) :
    ∃ s, ws.space? t.data = some s ∧ s.ledger.resolved = true := by
  cases h with
  | node hs hres => exact ⟨_, hs, hres⟩

end Workspace

theorem Region.shortName_of_names {r : Region Occupant} {front : List String} {last : String}
    (h : r.names? = some (front ++ [last])) : r.shortName = .ok last := by
  unfold names? at h
  obtain ⟨p, hp, hnames⟩ := Option.map_eq_some_iff.mp h
  unfold shortName
  rw [hp]
  dsimp only
  unfold Path.last
  rw [hnames, getLast?_concat]

/-! ### Handing a path on -/

/-- While a space hands its path on: the spaces in its slots that were met go on from the new path, the
others from the old one. -/
structure Workspace.HandsOn (ws1 ws : Workspace) (name : SpaceId → String) (ts : List (Tree SpaceId))
    (old names : List String) (met : List SpaceId) : Prop where
  outside : ∀ j, j ∉ ts.flatMap Tree.toList → ws.space? j = ws1.space? j
  spells : ∀ v ∈ ts, ws.Spells name ((if v.data ∈ met then names else old) ++ [name v.data]) v

theorem Workspace.HandsOn.meet {ws1 ws ws' : Workspace} {name : SpaceId → String} {id : SpaceId}
    {ts : List (Tree SpaceId)} {old names : List String} {met : List SpaceId}
    (h : ws1.HandsOn ws name ts old names met) (hn : (Tree.node id ts).toList.Nodup) {v : Tree SpaceId}
    (hv : v ∈ ts) (hspelled : ws'.Spells name (names ++ [name v.data]) v)
    (haway : ∀ j, j ∉ v.toList → ws'.space? j = ws.space? j) :
    ws1.HandsOn ws' name ts old names (met ++ [v.data]) := by
  refine ⟨fun j hj => ?_, fun v' hv' => ?_⟩
  · rw [haway j fun hm => hj (mem_flatMap.mpr ⟨v, hv, hm⟩)]
    exact h.outside j hj
  · by_cases he : v' = v
    · subst he
      rw [if_pos (by simp)]
      exact hspelled
    · have hne : v'.data ≠ v.data := fun hd => he (Tree.eq_of_data_eq hn hv' hv hd)
      simp only [mem_append, mem_singleton, hne, or_false]
      exact (h.spells v' hv').unrenamed (.of_spaces haway) ((Tree.nodup_node hn).2.2 v' hv' v hv he)

/-- The region with a new path, brought into order. -/
def Region.retitled (r : Region Occupant) (path : Path) : Region Occupant :=
  ({ r with path := some path }).sorted

theorem Region.retitled_inside (r : Region Occupant) (path : Path) :
    (r.retitled path).inside.Perm r.inside :=
  Region.inside_perm (Region.sorted_taken_perm _)

namespace SpaceId

variable {ws ws' : Workspace} {name : SpaceId → String} {u : Unit} {fuel : Nat} {path : Path}
  {e : Entry Occupant} {s : AddressSpace} {id : SpaceId} {ts : List (Tree SpaceId)}
  {old : List String}

/-- Hand the path of a space on to the space in one of its ranges. -/
def titleInside (fuel : Nat) (path : Path) (e : Entry Occupant) : Build Unit :=
  match e.item with
  | some (.space inner) => do
    let last ← (← inner.region).shortName
    setPathUpTo fuel inner ⟨path.names ++ [last], false⟩
  | _ => pure ()

theorem titleInside_space {c : SpaceId} (h : e.item.bind Occupant.inner? = some c)
    (hs : ws.space? c = some s) {front : List String} {last : String}
    (hnames : s.region.names? = some (front ++ [last])) :
    titleInside fuel path e ws = setPathUpTo fuel c ⟨path.names ++ [last], false⟩ ws := by
  obtain ⟨o, ho, hinner⟩ := Option.bind_eq_some_iff.mp h
  rw [Occupant.inner?_eq_some.mp hinner] at ho
  unfold titleInside
  simp only [ho]
  rw [bind_of_ok (region_of_space? hs), Region.shortName_of_names hnames]
  rfl

theorem titleInside_other (h : e.item.bind Occupant.inner? = none) : titleInside fuel path e = pure () := by
  unfold titleInside
  split
  · rename_i c hc
    rw [hc] at h
    cases h
  · rfl

/-- A space without reserved ranges takes its path and hands it on. -/
theorem setPathUpTo_eq (hs : ws.space? id = some s) (hk : s.region.reserved = []) :
    setPathUpTo (fuel + 1) id path ws =
      forM (s.region.retitled path).walk.entries (titleInside fuel path)
        (ws.setSpace id { s with region := s.region.retitled path }) := by
  have hcomplete : (s.region.retitled path).walk.complete = true := by
    have hk' : (s.region.retitled path).reserved = [] := hk
    unfold Region.walk
    rw [hk']
    exact Walk.complete_merge _ _
  have hself := Workspace.space?_setSpace_self hs { s with region := s.region.retitled path }
  rw [setPathUpTo, updateRegion, bind_of_ok (update_of_space? hs _)]
  change (id.region >>= _) (ws.setSpace id { s with region := s.region.retitled path }) = _
  rw [bind_of_ok (region_of_space? hself), forIn_eq_forM (g := titleInside fuel path)]
  · simp only [hcomplete, Bool.not_true, Bool.false_eq_true, ↓reduceIte]
    exact congrFun (bind_pure_unit (x := forM _ (titleInside fuel path))) _
  · intro e
    unfold titleInside
    cases hi : e.item with
    | none => rfl
    | some o =>
      cases o with
      | space c => simp only [bind_assoc]
      | _ => rfl

theorem titleInside_meets {ws1 w w' : Workspace}
    {met : List SpaceId} (h : ws1.HandsOn w name ts old path.names met)
    (hn : (Tree.node id ts).toList.Nodup)
    (he : ∀ c, e.item.bind Occupant.inner? = some c → c ∈ ts.map Tree.data)
    (hinner : ∀ v ∈ ts, setPathUpTo fuel v.data ⟨path.names ++ [name v.data], false⟩ w = .ok u w' →
      w'.Spells name (path.names ++ [name v.data]) v ∧ ∀ j, j ∉ v.toList → w'.space? j = w.space? j)
    (hrun : titleInside fuel path e w = .ok u w') :
    ws1.HandsOn w' name ts old path.names
      (met ++ [e].filterMap fun e => e.item.bind Occupant.inner?) := by
  cases hc : e.item.bind Occupant.inner? with
  | none =>
    rw [titleInside_other hc] at hrun
    obtain ⟨-, rfl⟩ := pure_ok hrun
    simp only [filterMap_cons, hc, filterMap_nil, append_nil]
    exact h
  | some c =>
    obtain ⟨v, hv, rfl⟩ := mem_map.mp (he c hc)
    obtain ⟨s, hs, hnames⟩ := (h.spells v hv).root
    rw [titleInside_space hc hs hnames] at hrun
    obtain ⟨hspelled, haway⟩ := hinner v hv hrun
    simp only [filterMap_cons, hc, filterMap_nil]
    exact h.meet hn hv hspelled haway

theorem mem_of_walk {r : Region Occupant} (hk : r.reserved = [])
    (hinside : r.inside.Perm (ts.map Tree.data)) (he : e ∈ r.walk.entries) {c : SpaceId}
    (hc : e.item.bind Occupant.inner? = some c) : c ∈ ts.map Tree.data :=
  hinside.mem_iff.mp ((Region.walk_inside hk).mem_iff.mp (mem_filterMap.mpr ⟨e, he, hc⟩))

theorem handsOn_start (hn : (Tree.node id ts).toList.Nodup)
    (hbelow : ∀ v ∈ ts, ws.Spells name (old ++ [name v.data]) v) (s' : AddressSpace)
    (names : List String) :
    (ws.setSpace id s').HandsOn (ws.setSpace id s') name ts old names [] := by
  refine ⟨fun _ _ => rfl, fun v hv => ?_⟩
  rw [if_neg (by simp)]
  exact (hbelow v hv).setSpace ((Tree.nodup_node hn).2.1 v hv) _

theorem handsOn_end (hn : (Tree.node id ts).toList.Nodup) (hs : ws.space? id = some s)
    (hres : s.ledger.resolved = true) (hk : s.region.reserved = [])
    (hinside : s.region.inside.Perm (ts.map Tree.data))
    (h : (ws.setSpace id { s with region := s.region.retitled path }).HandsOn ws' name ts old path.names
      ((s.region.retitled path).walk.entries.filterMap fun e => e.item.bind Occupant.inner?)) :
    ws'.Spells name path.names (.node id ts) ∧
      ∀ j, j ∉ (Tree.node id ts).toList → ws'.space? j = ws.space? j := by
  have hinside' := (s.region.retitled_inside path).trans hinside
  have hid : id ∉ ts.flatMap Tree.toList := fun hm => by
    obtain ⟨v, hv, hm⟩ := mem_flatMap.mp hm
    exact (Tree.nodup_node hn).2.1 v hv hm
  refine ⟨.node ((h.outside id hid).trans (Workspace.space?_setSpace_self hs _)) hres rfl hk
    hinside' fun v hv => ?_, fun j hj => ?_⟩
  · have hmet := (Region.walk_inside (r := s.region.retitled path) hk).mem_iff.mpr
      (hinside'.mem_iff.mpr (mem_map_of_mem hv))
    have := h.spells v hv
    rwa [if_pos hmet] at this
  · rw [Tree.toList_node, mem_append, not_or, mem_singleton] at hj
    rw [h.outside j hj.1, Workspace.space?_setSpace_of_ne (Ne.symm hj.2)]

/-- **A new path for the root of a tree** is handed on to all its spaces. -/
theorem setPathUpTo_spells (fuel : Nat) {t : Tree SpaceId} (hn : t.toList.Nodup)
    (h : ws.Spells name old t) (hrun : setPathUpTo fuel t.data path ws = .ok u ws') :
    ws'.Spells name path.names t ∧ ∀ j, j ∉ t.toList → ws'.space? j = ws.space? j := by
  induction fuel generalizing t old path ws ws' u with
  | zero => cases hrun
  | succ fuel ih =>
    cases h with
    | @node _ id ts s hs hres hnames hk hinside hbelow =>
      replace hrun : setPathUpTo (fuel + 1) id path ws = .ok u ws' := hrun
      rw [setPathUpTo_eq hs hk] at hrun
      have hinside' := (s.region.retitled_inside path).trans hinside
      refine handsOn_end hn hs hres hk hinside (Build.forM_ok hrun (fun done w =>
        Workspace.HandsOn _ w name ts old path.names
          (done.filterMap fun e => e.item.bind Occupant.inner?)) (handsOn_start hn hbelow _ _) ?_)
      intro done e rest hsplit w w1 hw hbody
      have he : e ∈ (s.region.retitled path).walk.entries := by simp [hsplit]
      rw [filterMap_append]
      exact titleInside_meets hw hn
        (fun c hc => mem_of_walk (r := s.region.retitled path) hk hinside' he hc)
        (fun v hv hset => ih ((Tree.nodup_node hn).1 v hv) (hw.spells v hv) hset) hbody

end SpaceId

end RegisterMap
