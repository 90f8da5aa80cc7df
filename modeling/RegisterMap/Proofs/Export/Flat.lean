import RegisterMap.Proofs.Table
import RegisterMap.Proofs.Workspace.Frame
import RegisterMap.Export.Map

/-! # What a flat map holds

Everything that stands in a tree of spaces gets a row, which says under which name and with which
description a flat map shows it (`Lists`).  An item in a loop gets a row for each copy, and the rows of
an inner space, or of the space that a passenger is joined to, stand in its place.  The trail of a row
gives the numbers of the slots in which the spaces around the item stand.

The main result says that a flat map is the table of these rows in which a later row replaces an earlier
one of the same name (`flat_map_rows`).  So the map has one entry for each row exactly when the names
differ.  Of rows with the same name only those come through where the space of the later item also holds
the earlier one, at any depth: all others are refused. -/

namespace RegisterMap

open Build List

namespace Workspace

/-- The space shown in place of an item: an inner one, or the one that a passenger is joined to. -/
def behind? (ws : Workspace) : Occupant → Option SpaceId
  | .space inner => some inner
  | .passenger id => ws.passengers[id.index]?.bind Passenger.joined
  | _ => none

/-- Does a register or passenger stand in a loop? -/
def loops (ws : Workspace) : Occupant → Bool
  | .register id =>
    ((ws.registers[id.index]?.bind Register.block).bind (ws.blocks[·.index]?)).any Block.isLoop
  | .passenger id =>
    (((ws.passengers[id.index]?.bind (ws.busses[·.bus.index]?)).bind Bus.block).bind
      (ws.blocks[·.index]?)).any Block.isLoop
  | _ => false

/-- What an item stands for: with aligned loops, all copies of an item in a loop. -/
def standsFor (ws : Workspace) (x : Occupant) : List Occupant :=
  match x with
  | .register _ | .passenger _ => if ws.policy.alignedLoops && ws.loops x then ws.copiesOf x else [x]
  | _ => []

end Workspace

/-- The items of a space: those in its slots, or its requests before they are placed. -/
def AddressSpace.shown (s : AddressSpace) : List Occupant :=
  if s.kind ≠ .plain && !s.ledger.resolved then s.singles else s.region.taken.map Slot.item

theorem SpaceId.contents_ok {id : SpaceId} {ws ws' : Workspace}
    {xs : List (Option Int × Option Int × Occupant)} (h : id.contents ws = .ok xs ws') :
    ∃ s, ws.space? id = some s ∧ xs.map (fun x => x.2.2) = s.shown ∧ ws' = ws := by
  obtain ⟨s, hs, h1⟩ := SpaceId.bind_get_ok h
  refine ⟨s, hs, ?_⟩
  unfold AddressSpace.shown
  split at h1
  · rename_i hc
    obtain ⟨rfl, rfl⟩ := pure_ok h1
    rw [if_pos hc]
    refine ⟨?_, rfl⟩
    rw [map_map, map_append]
    rfl
  · rename_i hc
    obtain ⟨rfl, rfl⟩ := pure_ok h1
    rw [if_neg hc]
    refine ⟨?_, rfl⟩
    simp

namespace Export

variable {t : Table String Value} {m : List (Value × Value)} {id : RegisterId} {s : Subject}
  {ss : List Subject} {before : List Row} {k : Nat}

/-- A table with texts for keys, as a map has it. -/
def keyed (t : Table String Value) : List (Value × Value) := t.map fun kv => (.text kv.1, kv.2)

theorem text_beq (a b : String) : (Value.text a == Value.text b) = (a == b) := by
  show Value.same _ _ = _
  rw [Value.same]

theorem put_keyed (t : Table String Value) (k : String) (v : Value) :
    Table.put (keyed t) (.text k) v = keyed (Table.put t k v) := by
  induction t with
  | nil => rfl
  | cons kv rest ih =>
    obtain ⟨k', v'⟩ := kv
    unfold keyed at ih ⊢
    rw [map_cons, Table.put, Table.put, text_beq]
    split
    · rfl
    · rw [ih, map_cons]

theorem merge_keyed (t u : Table String Value) :
    Table.merge (keyed t) (keyed u) = keyed (Table.merge t u) := by
  induction u generalizing t with
  | nil => rfl
  | cons kv rest ih =>
    have := ih (Table.put t kv.1 kv.2)
    rw [← put_keyed] at this
    exact this

theorem get?_keyed (t : Table String Value) (k : String) :
    Table.get? (keyed t) (.text k) = Table.get? t k := by
  induction t with
  | nil => rfl
  | cons kv rest ih =>
    obtain ⟨k', v'⟩ := kv
    unfold keyed at ih ⊢
    rw [map_cons, Table.get?, Table.get?, text_beq, ih]

theorem has_keyed (t : Table String Value) (k : String) :
    Table.has (keyed t) (.text k) = Table.has t k := by
  unfold Table.has
  rw [get?_keyed]

theorem mergeDistinct_ok {u : Table String Value} (h : mergeDistinct (keyed t) (keyed u) = .ok m) :
    m = keyed (Table.merge t u) ∧ ∀ k ∈ u.keys, k ∉ t.keys := by
  unfold mergeDistinct at h
  split at h
  · rename_i hnone
    obtain rfl := Except.ok.inj h
    refine ⟨merge_keyed t u, fun k hk hk' => ?_⟩
    obtain ⟨kv, hkv, rfl⟩ := mem_map.mp hk
    have hmem : (Value.text kv.1, kv.2) ∈ keyed u := mem_map_of_mem hkv
    have := filter_eq_nil_iff.mp hnone _ hmem
    rw [has_keyed] at this
    exact this (Table.has_iff.mpr hk')
  · split at h <;> cases h

/-! ### Rows -/

/-- What a map needs to know of a register or a passenger. -/
def IsSubject (ws : Workspace) : Occupant → Subject → Prop
  | .register id, s => registerSubject id ws = .ok s ws
  | .passenger id, s => passengerSubject id ws = .ok s ws
  | _, _ => False

/-- A row of a flat map. -/
structure Row where
  item : Occupant
  /-- Numbers of the slots in which the spaces around the item stand, from the outside in. -/
  trail : List Nat
  /-- Absolute address. -/
  address : Int
  name : String
  entry : Value

/-- Name and description as a pair of a table. -/
def Row.pair (r : Row) : String × Value := (r.name, r.entry)

/-- The row of an item in a space with the path `above` and the address `base`, which is added to its
own. -/
structure Row.Describes (ws : Workspace) (trail : List Nat) (above : List String) (base : Int)
    (x : Occupant) (r : Row) : Prop where
  item : r.item = x
  trail : r.trail = trail
  subject : ∃ s own, IsSubject ws x s ∧ s.base = some own ∧ r.address = base + own ∧
    flatName above s = .ok r.name ∧ subjectEntry (.int r.address) s = .ok r.entry

/-- The rows of the items `xs` from slot `n` on, in a space with the path `above` and the address
`base`. -/
inductive Lists (ws : Workspace) : (trail : List Nat) → (above : List String) → (base : Int) →
    (n : Nat) → (xs : List Occupant) → List Row → Prop
  | nil {trail above base n} : Lists ws trail above base n [] []
  | own {trail above base n x xs rows more} (hx : ws.behind? x = none)
      (hrows : List.Forall₂ (Row.Describes ws trail above base) (ws.standsFor x) rows)
      (hmore : Lists ws trail above base (n + 1) xs more) :
      Lists ws trail above base n (x :: xs) (rows ++ more)
  | inner {trail above base n x xs rows more id s path} (hx : ws.behind? x = some id)
      (hs : ws.space? id = some s) (hpath : s.region.path = some path)
      (hrows : Lists ws (trail ++ [n]) (path.names.drop 1) s.region.base 0 s.shown rows)
      (hmore : Lists ws trail above base (n + 1) xs more) :
      Lists ws trail above base n (x :: xs) (rows ++ more)

/-- A row may replace an earlier one of the same name if its space is around that one's. -/
def Row.MayReplace (later earlier : Row) : Prop :=
  later.name = earlier.name → later.trail <+: earlier.trail

variable {ws ws' : Workspace} {trail : List Nat} {above : List String} {base : Int} {n : Nat}
  {x : Occupant} {xs : List Occupant} {rows : List Row}

theorem Lists.trail_le (h : Lists ws trail above base n xs rows) : ∀ r ∈ rows, trail <+: r.trail := by
  induction h with
  | nil => simp
  | own hx hrows hmore ih =>
    intro r hr
    rcases mem_append.mp hr with hr | hr
    · obtain ⟨y, -, hy⟩ := forall₂_exists_left hrows hr
      exact hy.trail ▸ prefix_rfl
    · exact ih r hr
  | inner hx hs hpath hrows hmore ihrows ihmore =>
    intro r hr
    rcases mem_append.mp hr with hr | hr
    · exact (prefix_append _ _).trans (ihrows r hr)
    · exact ihmore r hr

theorem Lists.cons {more : List Row} (h : Lists ws trail above base n [x] rows)
    (hmore : Lists ws trail above base (n + 1) xs more) :
    Lists ws trail above base n (x :: xs) (rows ++ more) := by
  cases h with
  | own hx hrows hnil =>
    cases hnil
    rw [append_nil]
    exact .own hx hrows hmore
  | inner hx hs hpath hrows hnil =>
    cases hnil
    rw [append_nil]
    exact .inner hx hs hpath hrows hmore

/-! ### Reading the items -/

theorem registerSubject_ok (h : registerSubject id ws = .ok s ws') : ws' = ws := by
  obtain ⟨r, -, h1⟩ := bind_entryOf_ok h
  exact (pure_ok h1).2

theorem passengerSubject_ok {id : PassengerId} (h : passengerSubject id ws = .ok s ws') : ws' = ws := by
  obtain ⟨p, -, h1⟩ := bind_entryOf_ok h
  obtain ⟨bus, -, h2⟩ := bind_entryOf_ok h1
  exact (pure_ok h2).2

theorem RegisterId.inLoop_ok {b : Bool} (h : id.inLoop ws = .ok b ws') :
    ws' = ws ∧ b = ws.loops (.register id) := by
  obtain ⟨loop, ws1, hloop, h1⟩ := bind_ok h
  obtain ⟨r, hr, h2⟩ := bind_entryOf_ok hloop
  obtain ⟨rfl, rfl⟩ := pure_ok h1
  simp only [Workspace.loops, hr, Option.bind_some]
  cases hb : r.block with
  | none =>
    rw [hb] at h2
    obtain ⟨rfl, rfl⟩ := pure_ok h2
    exact ⟨rfl, rfl⟩
  | some block =>
    rw [hb] at h2
    obtain ⟨bl, hbl, h3⟩ := bind_entryOf_ok h2
    obtain ⟨rfl, rfl⟩ := pure_ok h3
    exact ⟨rfl, by simp [hbl, Block.isLoop]⟩

theorem PassengerId.inLoop_ok {id : PassengerId} {b : Bool} (h : id.inLoop ws = .ok b ws') :
    ws' = ws ∧ b = ws.loops (.passenger id) := by
  obtain ⟨block, ws1, hblock, h1⟩ := bind_ok h
  obtain ⟨p, hp, h2⟩ := bind_entryOf_ok hblock
  obtain ⟨bus, hbus, h3⟩ := bind_entryOf_ok h2
  obtain ⟨rfl, rfl⟩ := pure_ok h1
  simp only [Workspace.loops, hp, hbus, Option.bind_some]
  cases hb : bus.block with
  | none =>
    rw [hb] at h3
    obtain ⟨rfl, rfl⟩ := pure_ok h3
    exact ⟨rfl, rfl⟩
  | some block =>
    rw [hb] at h3
    obtain ⟨bl, hbl, h4⟩ := bind_entryOf_ok h3
    obtain ⟨rfl, rfl⟩ := pure_ok h4
    exact ⟨rfl, by simp [hbl]⟩

theorem registers_ok {ids : List RegisterId} (h : ids.mapM registerSubject ws = .ok ss ws') :
    ws' = ws ∧ List.Forall₂ (IsSubject ws) (ids.map .register) ss := by
  obtain ⟨hws, hall⟩ := mapM_ok h fun _ _ _ _ hs => registerSubject_ok hs
  exact ⟨hws, forall₂_map_left_iff.mpr hall⟩

theorem passengers_ok {ids : List PassengerId} (h : ids.mapM passengerSubject ws = .ok ss ws') :
    ws' = ws ∧ List.Forall₂ (IsSubject ws) (ids.map .passenger) ss := by
  obtain ⟨hws, hall⟩ := mapM_ok h fun _ _ _ _ hs => passengerSubject_ok hs
  exact ⟨hws, forall₂_map_left_iff.mpr hall⟩

theorem subjects_register_ok (h : subjects (.register id) ws = .ok ss ws') :
    ws' = ws ∧ List.Forall₂ (IsSubject ws) (ws.standsFor (.register id)) ss := by
  have h1 := Build.bind_get_ok h
  obtain ⟨r, hr, h2⟩ := bind_entryOf_ok h1
  split at h2
  · obtain ⟨_, _, hrefuse, _⟩ := bind_ok h2
    exact (refuse_ok hrefuse).elim
  obtain ⟨loop, ws3, hloop, h3⟩ := bind_ok h2
  obtain ⟨rfl, rfl⟩ := RegisterId.inLoop_ok hloop
  unfold Workspace.standsFor
  dsimp only
  split at h3
  · rename_i hc
    obtain ⟨r', hr', h4⟩ := bind_entryOf_ok h3
    rw [if_pos hc, show ws3.copiesOf (.register id) = r'.copies.map .register by
      simp [Workspace.copiesOf, Workspace.leaf?, hr', Register.leaf]]
    exact registers_ok h4
  · rename_i hc
    rw [if_neg hc]
    exact @registers_ok ss _ _ [id] h3

theorem subjects_passenger_ok {id : PassengerId} (h : subjects (.passenger id) ws = .ok ss ws') :
    ws' = ws ∧ List.Forall₂ (IsSubject ws) (ws.standsFor (.passenger id)) ss := by
  have h1 := Build.bind_get_ok h
  obtain ⟨loop, ws3, hloop, h3⟩ := bind_ok h1
  obtain ⟨rfl, rfl⟩ := PassengerId.inLoop_ok hloop
  unfold Workspace.standsFor
  dsimp only
  split at h3
  · rename_i hc
    obtain ⟨p, hp, h4⟩ := bind_entryOf_ok h3
    rw [if_pos hc, show ws3.copiesOf (.passenger id) = p.copies.map .passenger by
      simp [Workspace.copiesOf, Workspace.leaf?, hp, Passenger.leaf]]
    exact passengers_ok h4
  · rename_i hc
    rw [if_neg hc]
    exact @passengers_ok ss _ _ [id] h3

theorem subjects_ok (h : subjects x ws = .ok ss ws') :
    ws' = ws ∧ List.Forall₂ (IsSubject ws) (ws.standsFor x) ss := by
  cases x with
  | register id => exact subjects_register_ok h
  | passenger id => exact subjects_passenger_ok h
  | _ =>
    have h1 := Build.bind_get_ok h
    obtain ⟨rfl, rfl⟩ := pure_ok h1
    exact ⟨rfl, .nil⟩

theorem addSubject_ok (h : addSubject true base above [] (keyed t) s = .ok m) :
    ∃ own name entry, s.base = some own ∧ flatName above s = .ok name ∧
      subjectEntry (.int (base + own)) s = .ok entry ∧ m = keyed (Table.put t name entry) := by
  unfold addSubject at h
  rw [if_pos rfl] at h
  cases hb : s.base with
  | none =>
    rw [hb] at h
    cases h
  | some own =>
    rw [hb] at h
    obtain ⟨entry, hentry, h1⟩ := Result.bind_ok h
    obtain ⟨name, hname, h2⟩ := Result.bind_ok h1
    cases h2
    exact ⟨own, name, entry, rfl, hname, hentry, put_keyed t name entry⟩

/-- The rows of an item are put into a flat map one after the other. -/
theorem addSubjects_ok (trail : List Nat)
    (h : addSubjects true base above [] (keyed t) x ws = .ok m ws') :
    ws' = ws ∧ ∃ rows, List.Forall₂ (Row.Describes ws trail above base) (ws.standsFor x) rows ∧
      m = keyed (Table.merge t (rows.map Row.pair)) := by
  obtain ⟨ss, ws1, hss, h1⟩ := bind_ok h
  obtain ⟨rfl, hall⟩ := subjects_ok hss
  clear hss h
  generalize ws1.standsFor x = ys at hall ⊢
  induction hall generalizing t with
  | nil =>
    obtain ⟨rfl, rfl⟩ := pure_ok h1
    exact ⟨rfl, [], .nil, rfl⟩
  | cons hs _ ih =>
    rw [foldlM_cons] at h1
    obtain ⟨m1, hput, h2⟩ := bind_lift_ok h1
    obtain ⟨own, name, entry, hown, hname, hentry, rfl⟩ := addSubject_ok hput
    obtain ⟨hws, rows, hrows, hm⟩ := ih h2
    refine ⟨hws, ⟨_, trail, base + own, name, entry⟩ :: rows, .cons ⟨rfl, rfl, ?_⟩ hrows, hm⟩
    exact ⟨_, own, hs, hown, rfl, hname, hentry⟩

/-! ### The map of a tree -/

/-- Where two rows have one name, the later one may replace the earlier one. -/
abbrev Layered (rows : List Row) : Prop := rows.Pairwise fun earlier later => later.MayReplace earlier

/-- The table of a flat map grows by the rows of the items `xs` behind the rows `before`. -/
def Grows (ws : Workspace) (trail : List Nat) (above : List String) (base : Int) (n : Nat)
    (xs : List Occupant) (before : List Row) (m : List (Value × Value)) : Prop :=
  ∃ rows, Lists ws trail above base n xs rows ∧ Layered (before ++ rows) ∧
    m = keyed (Table.ofPairs ((before ++ rows).map Row.pair))

theorem keys_pairs (rows : List Row) :
    Table.keys (rows.map Row.pair) = rows.map Row.name := by
  unfold Table.keys
  rw [map_map]
  rfl

theorem mayReplace_own {ys : List Occupant} (hbefore : ∀ r ∈ before, trail <+: r.trail)
    (hpair : Layered before) (hrows : List.Forall₂ (Row.Describes ws trail above base) ys rows) :
    Layered (before ++ rows) := by
  have htrail : ∀ r ∈ rows, r.trail = trail := fun r hr => by
    obtain ⟨y, -, hy⟩ := forall₂_exists_left hrows hr
    exact hy.trail
  refine pairwise_append.mpr ⟨hpair, ?_, fun r hr q hq _ => ?_⟩
  · refine pairwise_of_forall_mem_list fun r hr q hq _ => ?_
    have hsame : r.trail = q.trail := (htrail r hr).trans (htrail q hq).symm
    exact hsame ▸ prefix_rfl
  · rw [htrail q hq]
    exact hbefore r hr

theorem mayReplace_inner (hpair : Layered before) (hinner : Layered rows)
    (hnames : ∀ k ∈ rows.map Row.name, k ∉ before.map Row.name) : Layered (before ++ rows) := by
  refine pairwise_append.mpr ⟨hpair, hinner, fun r hr q hq he => ?_⟩
  exact absurd (he ▸ mem_map_of_mem hr) (hnames q.name (mem_map_of_mem hq))

theorem grows_own (hbefore : ∀ r ∈ before, trail <+: r.trail) (hpair : Layered before)
    (hx : ws.behind? x = none)
    (h : addSubjects true base above [] (keyed (Table.ofPairs (before.map Row.pair))) x ws =
      .ok m ws') :
    ws' = ws ∧ Grows ws trail above base n [x] before m := by
  obtain ⟨hws, rows, hrows, rfl⟩ := addSubjects_ok trail h
  refine ⟨hws, ⟨rows, ?_, mayReplace_own hbefore hpair hrows, ?_⟩⟩
  · have : Lists ws trail above base n [x] (rows ++ []) := .own hx hrows .nil
    rwa [append_nil] at this
  · rw [map_append, Table.ofPairs_append]

theorem grows_inner (hpair : Layered before) {id : SpaceId} {s : AddressSpace} {path : Path}
    (hx : ws.behind? x = some id) (hs : ws.space? id = some s) (hpath : s.region.path = some path)
    {sub : List (Value × Value)}
    (hsub : Grows ws (trail ++ [n]) (path.names.drop 1) s.region.base 0 s.shown [] sub)
    (h : mergeDistinct (keyed (Table.ofPairs (before.map Row.pair))) sub = .ok m) :
    Grows ws trail above base n [x] before m := by
  obtain ⟨rows, hrows, hrpair, rfl⟩ := hsub
  rw [nil_append] at h hrpair
  obtain ⟨rfl, hdisjoint⟩ := mergeDistinct_ok h
  have hkeys : ∀ k ∈ Table.keys (rows.map Row.pair),
      k ∉ (Table.ofPairs (before.map Row.pair)).keys :=
    fun k hk => hdisjoint k (Table.mem_keys_ofPairs.mpr hk)
  have hnames : ∀ k ∈ rows.map Row.name, k ∉ before.map Row.name := by
    intro k hk hk'
    rw [← keys_pairs] at hk hk'
    exact hkeys k hk (Table.mem_keys_ofPairs.mpr hk')
  refine ⟨rows, ?_, mayReplace_inner hpair hrpair hnames, ?_⟩
  · have : Lists ws trail above base n [x] (rows ++ []) := .inner hx hs hpath hrows .nil
    rwa [append_nil] at this
  · rw [map_append, Table.ofPairs_append, Table.merge_eq_append hdisjoint,
      Table.merge_eq_append hkeys, Table.ofPairs_eq_self (Table.keys_ofPairs_nodup _)]

/-- What the maps of inner spaces show, which the fuel `k` suffices for. -/
def MapsInner (ws : Workspace) (k : Nat) : Prop :=
  ∀ id m ws', mapUpTo true [] k id false ws = .ok m ws' → ws' = ws ∧
    ∃ s path, ws.space? id = some s ∧ s.region.path = some path ∧
      ∀ trail, Grows ws trail (path.names.drop 1) s.region.base 0 s.shown [] m

theorem addItemUpTo_ok (hinner : MapsInner ws k) (hbefore : ∀ r ∈ before, trail <+: r.trail)
    (hpair : Layered before)
    (h : addItemUpTo true [] (k + 1) base above
      (keyed (Table.ofPairs (before.map Row.pair))) x ws = .ok m ws') :
    ws' = ws ∧ Grows ws trail above base n [x] before m := by
  cases x with
  | space id =>
    obtain ⟨sub, ws1, hsub, h1⟩ := bind_ok h
    obtain ⟨rfl, s, path, hs, hpath, hgrows⟩ := hinner id sub ws1 hsub
    obtain ⟨hmerge, rfl⟩ := lift_ok h1
    exact ⟨rfl, grows_inner hpair rfl hs hpath (hgrows _) hmerge⟩
  | passenger id =>
    obtain ⟨p, hp', h1⟩ := bind_entryOf_ok h
    have hbehind : ws.behind? (.passenger id) = p.joined := by simp [Workspace.behind?, hp']
    cases hj : p.joined with
    | none =>
      rw [hj] at h1 hbehind
      exact grows_own hbefore hpair hbehind h1
    | some joined =>
      rw [hj] at h1 hbehind
      obtain ⟨sub, ws2, hsub, h2⟩ := bind_ok h1
      obtain ⟨rfl, s, path, hs, hpath, hgrows⟩ := hinner joined sub ws2 hsub
      obtain ⟨hmerge, rfl⟩ := lift_ok h2
      exact ⟨rfl, grows_inner hpair hbehind hs hpath (hgrows _) hmerge⟩
  | _ => exact grows_own hbefore hpair rfl h

theorem addItems_ok (hinner : MapsInner ws k) (before : List Row)
    (hbefore : ∀ r ∈ before, trail <+: r.trail) (hpair : Layered before)
    {items : List (Option Int × Option Int × Occupant)}
    (h : items.foldlM (fun map x => addItemUpTo true [] (k + 1) base above map x.2.2)
      (keyed (Table.ofPairs (before.map Row.pair))) ws = .ok m ws') :
    ws' = ws ∧ Grows ws trail above base n (items.map fun x => x.2.2) before m := by
  induction items generalizing before n with
  | nil =>
    obtain ⟨rfl, rfl⟩ := pure_ok h
    exact ⟨rfl, [], .nil, by rwa [append_nil], by rw [append_nil]⟩
  | cons item items ih =>
    rw [foldlM_cons] at h
    obtain ⟨m1, ws1, hitem, h1⟩ := bind_ok h
    obtain ⟨rfl, rows, hrows, hrpair, rfl⟩ := addItemUpTo_ok (n := n) hinner hbefore hpair hitem
    have hbefore' : ∀ r ∈ before ++ rows, trail <+: r.trail := by
      intro r hr
      rcases mem_append.mp hr with hr | hr
      · exact hbefore r hr
      · exact hrows.trail_le r hr
    obtain ⟨hws, more, hmore, hmpair, hm⟩ := ih (n := n + 1) _ hbefore' hrpair h1
    rw [append_assoc] at hmpair hm
    exact ⟨hws, rows ++ more, hrows.cons hmore, hmpair, hm⟩

theorem contents_map_ok (hinner : ∀ j < k, MapsInner ws j)
    {items : List (Option Int × Option Int × Occupant)}
    (h : items.foldlM (fun map x => addItemUpTo true [] k base above map x.2.2) [] ws = .ok m ws') :
    ws' = ws ∧ ∀ trail, Grows ws trail above base 0 (items.map fun x => x.2.2) [] m := by
  cases k with
  | succ j =>
    have hitems (trail : List Nat) :
        ws' = ws ∧ Grows ws trail above base 0 (items.map fun x => x.2.2) [] m :=
      addItems_ok (hinner j (Nat.lt_succ_self j)) [] (by simp) .nil h
    exact ⟨(hitems []).1, fun trail => (hitems trail).2⟩
  | zero =>
    cases items with
    | nil =>
      obtain ⟨rfl, rfl⟩ := pure_ok h
      exact ⟨rfl, fun trail => ⟨[], .nil, .nil, rfl⟩⟩
    | cons item items =>
      rw [foldlM_cons, addItemUpTo] at h
      obtain ⟨_, _, hdeep, _⟩ := bind_ok h
      exact (throw_ok hdeep).elim

/-- The path that the names of a space go on from: none at the top. -/
def Above (top : Bool) (s : AddressSpace) (above : List String) : Prop :=
  if top then above = [] else ∃ path, s.region.path = some path ∧ above = path.names.drop 1

theorem mapUpTo_ok (hinner : ∀ j < k, MapsInner ws j) {id : SpaceId} {top : Bool}
    (h : mapUpTo true [] (k + 1) id top ws = .ok m ws') :
    ws' = ws ∧ ∃ s above, ws.space? id = some s ∧ Above top s above ∧
      ∀ trail, Grows ws trail above s.region.base 0 s.shown [] m := by
  rw [mapUpTo] at h
  obtain ⟨s, hs, h1⟩ := SpaceId.bind_region_ok h
  obtain ⟨items, ws2, hitems, h2⟩ := bind_ok h1
  obtain ⟨s', hs', hshown, rfl⟩ := SpaceId.contents_ok hitems
  obtain rfl := Option.mem_unique hs hs'
  unfold Above
  cases top with
  | true =>
    obtain ⟨hws, hgrows⟩ := contents_map_ok hinner h2
    rw [hshown] at hgrows
    exact ⟨hws, s, [], hs, rfl, hgrows⟩
  | false =>
    dsimp only at h2
    rw [if_neg Bool.false_ne_true] at h2
    cases hpath : s.region.path with
    | none =>
      rw [hpath] at h2
      obtain ⟨_, _, hrefuse, _⟩ := bind_ok h2
      exact (refuse_ok hrefuse).elim
    | some path =>
      rw [hpath] at h2
      obtain ⟨hws, hgrows⟩ := contents_map_ok hinner h2
      rw [hshown] at hgrows
      exact ⟨hws, s, _, hs, ⟨path, hpath, rfl⟩, hgrows⟩

theorem mapsInner (ws : Workspace) (k : Nat) : MapsInner ws k := by
  induction k using Nat.strongRecOn with
  | ind k ih =>
    intro id m ws' h
    cases k with
    | zero =>
      rw [mapUpTo] at h
      exact (throw_ok h).elim
    | succ k =>
      obtain ⟨hws, s, above, hs, ⟨path, hpath, rfl⟩, hgrows⟩ :=
        mapUpTo_ok (fun j hj => ih j (Nat.lt_succ_of_lt hj)) h
      exact ⟨hws, s, path, hs, hpath, hgrows⟩

/-! ### The entries of a flat map -/

theorem Lists.describes (h : Lists ws trail above base n xs rows) :
    ∀ r ∈ rows, ∃ trail above base x, r.Describes ws trail above base x := by
  induction h with
  | nil => simp
  | own hx hrows hmore ih =>
    intro r hr
    rcases mem_append.mp hr with hr | hr
    · obtain ⟨y, -, hy⟩ := forall₂_exists_left hrows hr
      exact ⟨_, _, _, y, hy⟩
    · exact ih r hr
  | inner hx hs hpath hrows hmore ihrows ihmore =>
    intro r hr
    rcases mem_append.mp hr with hr | hr
    · exact ihrows r hr
    · exact ihmore r hr

theorem base_of_subjectEntry {v entry : Value} (h : subjectEntry v s = .ok entry) :
    ∃ members, entry = .table members ∧ Table.get? members (.text "base_addr") = some v := by
  unfold subjectEntry at h
  cases hs : s.signed with
  | none =>
    rw [hs] at h
    cases h
  | some signed =>
    rw [hs] at h
    obtain ⟨members, hmembers, h1⟩ := Result.bind_ok h
    obtain ⟨name, hname, h2⟩ := Result.bind_ok hmembers
    cases h1
    cases h2
    refine ⟨_, rfl, ?_⟩
    simp [Table.get?, text_beq]

/-- A flat map is the table of the rows of the tree, in which a later row replaces an earlier one of
the same name.  It has one entry for each row if and only if all names differ.  The entry of a row
gives the address of its item, that of the space around it included. -/
theorem flat_map_rows {id : SpaceId} {m : List (Value × Value)}
    (h : Export.map id true true [] ws = .ok m ws') :
    ws' = ws ∧ ∃ s rows, ws.space? id = some s ∧ Lists ws [] [] s.region.base 0 s.shown rows ∧
      m = keyed (Table.ofPairs (rows.map Row.pair)) ∧
      (m = keyed (rows.map Row.pair) ↔ (rows.map Row.name).Nodup) ∧
      rows.Pairwise (fun earlier later => later.MayReplace earlier) ∧
      ∀ r ∈ rows, ∃ members, r.entry = .table members ∧
        Table.get? members (.text "base_addr") = some (.int r.address) := by
  obtain ⟨bound, ws1, hbound, h1⟩ := Build.bind_ok h
  obtain ⟨w, ws2, hw, hb⟩ := Build.bind_ok hbound
  obtain ⟨rfl, rfl⟩ := Build.get_ok hw
  obtain ⟨rfl, rfl⟩ := Build.pure_ok hb
  obtain ⟨hws, s, above, hs, rfl, hgrows⟩ := mapUpTo_ok (fun j _ => mapsInner _ j) h1
  obtain ⟨rows, hlists, hpair, hm⟩ := hgrows []
  rw [nil_append] at hpair hm
  refine ⟨hws, s, rows, hs, hlists, hm, ?_, hpair, fun r hr => ?_⟩
  · rw [hm, ← keys_pairs, ← Table.ofPairs_eq_self_iff]
    refine ⟨fun he => ?_, fun he => by rw [he]⟩
    have hinj : Function.Injective fun kv : String × Value => (Value.text kv.1, kv.2) := by
      rintro ⟨k, v⟩ ⟨k', v'⟩ he
      cases he
      rfl
    exact map_injective_iff.mpr hinj he
  · obtain ⟨_, _, _, _, hdesc⟩ := hlists.describes r hr
    obtain ⟨_, _, _, _, _, _, hentry⟩ := hdesc.subject
    exact base_of_subjectEntry hentry

/-- Two registers of one space, the second of which has the name of the first for an alias. -/
def aliasClash : Workspace :=
  let register (name : String) (base : Int) (otherName : Option String) : Register :=
    { kind := .net, given := some name, size := 1, dw := 8, aw := 0, base := some base
      description := none, source := .none, access := Access.readWrite, label := some name
      depth := (some "0", some "0"), blockAw := none, otherName := otherName }
  { registers := #[register "foo" 0 none, register "bar" 1 (some "foo")]
    spaces := #[
      { kind := .bus
        region :=
          { span := (0, 2), base := 0, relativeBase := 0, aw := 1, extent := 2
            taken := [⟨0, 1, .register ⟨0⟩⟩, ⟨1, 2, .register ⟨1⟩⟩]
            vacant := [], reserved := [], path := some ⟨["top"], false⟩, label := "top", inset := 0 }
        ledger := { SpaceKind.bus.ledger with resolved := true } }] }

/-- Both registers have a row, but the map has one entry. -/
theorem flat_map_rows_aliasClash :
    ∃ m s rows, Export.map ⟨0⟩ true true [] aliasClash = .ok m aliasClash ∧
      aliasClash.space? ⟨0⟩ = some s ∧ Lists aliasClash [] [] s.region.base 0 s.shown rows ∧
      rows.length = 2 ∧ m.length = 1 ∧ ¬(rows.map Row.name).Nodup := by
  have hrun : ∃ m ws', Export.map ⟨0⟩ true true [] aliasClash = .ok m ws' ∧ m.length = 1 := by
    have h : (match Export.map ⟨0⟩ true true [] aliasClash with
        | .ok m _ => m.length
        | .error _ _ => 0) = 1 := by decide +kernel
    split at h
    · exact ⟨_, _, ‹_›, h⟩
    · cases h
  obtain ⟨m, ws', h, hlength⟩ := hrun
  obtain ⟨rfl, s, rows, hs, hlists, -, hiff, -⟩ := flat_map_rows h
  have hrows : rows.length = 2 := by
    obtain rfl := Option.some.inj hs
    change Lists aliasClash [] [] 0 0 [.register ⟨0⟩, .register ⟨1⟩] rows at hlists
    cases hlists with
    | inner hx => cases hx
    | own _ hfirst hmore =>
      cases hmore with
      | inner hx => cases hx
      | own _ hsecond hnil =>
        cases hnil
        rw [length_append, length_append, ← hfirst.length_eq, ← hsecond.length_eq]
        rfl
  refine ⟨m, s, rows, h, hs, hlists, hrows, hlength, fun hn => ?_⟩
  have := congrArg List.length (hiff.mpr hn)
  simp [keyed, hrows, hlength] at this

end Export

end RegisterMap
