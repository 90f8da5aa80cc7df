import Mathlib.Data.Finset.Card
import Mathlib.Data.List.Forall2
import Mathlib.Logic.Relation
import RegisterMap.Hierarchy
import RegisterMap.Proofs.Table
import RegisterMap.Proofs.Tree
import RegisterMap.Proofs.Workspace.Run

/-! # The unfolding of the instance graph

In the unfolding of an instance graph (`InstanceGraph.Unfolds`) the children of a node for a module are
the instances in that module whose own modules the graph has, in their order.  There is at most one
below a root (`Unfolds.unique`).

While the tables of instances are rewritten, links to a table are made before and after its own turn.
This does no harm, since a link is the place of a table: a step changes the table of the module whose
turn it is and no other one (`Linkage.prints_relink`), and nothing is read through a link before all
tables have had their turn (`Linkage.prints_relinkAll`).  If no module that the top module reaches
contains itself, a way down meets no module twice, so the copy comes to an end
(`Linkage.copyUpTo_unfolds`). -/

namespace RegisterMap

open List

variable {g g' : InstanceGraph} {inner outer top : String} {α : Type}

namespace InstanceGraph

/-- The instances whose modules a graph has. -/
def knownIn (g : InstanceGraph) (instances : Table String Value) : List InstanceKey :=
  instances.filterMap fun e =>
    match e.2 with
    | .text module => if module ∈ Table.keys g then some ⟨e.1, module⟩ else none
    | _ => none

/-- A tree in which the children of each node are the known instances in its module. -/
inductive Unfolds (g : InstanceGraph) : Tree InstanceKey → Prop
  | node {key : InstanceKey} {instances : Table String Value} {children : List (Tree InstanceKey)}
      (module : (key.module, instances) ∈ g) (below : children.map Tree.data = g.knownIn instances)
      (rest : ∀ t ∈ children, Unfolds g t) : Unfolds g (.node key children)

/-- A module contains an instance of another one. -/
def Contains (g : InstanceGraph) (outer inner : String) : Prop :=
  ∃ instances key, (outer, instances) ∈ g ∧ key ∈ g.knownIn instances ∧ key.module = inner

/-- No module that can be reached from a module contains itself. -/
def AcyclicFrom (g : InstanceGraph) (top : String) : Prop :=
  ∀ module, Relation.ReflTransGen g.Contains top module → ¬Relation.TransGen g.Contains module module

/-- The modules, and the instances in each, have different names, and the types can be looked up. -/
structure WellFormed (g : InstanceGraph) : Prop where
  keys : (Table.keys g).Nodup
  names : ∀ e ∈ g, (Table.keys e.2).Nodup
  types : ∀ e ∈ g, ∀ i ∈ e.2, i.2.isKey = true

/-! ### One unfolding -/

theorem Unfolds.unique {t u : Tree InstanceKey} (hkeys : (Table.keys g).Nodup) (ht : g.Unfolds t)
    (hu : g.Unfolds u) (hdata : t.data = u.data) : t = u := by
  induction ht generalizing u with
  | @node key instances children module below rest ih =>
    cases hu with
    | @node key' instances' children' module' below' rest' =>
      obtain rfl : key = key' := hdata
      obtain rfl : instances = instances' :=
        congrArg Prod.snd (inj_on_of_nodup_map hkeys module module' rfl)
      have hsame : children.map Tree.data = children'.map Tree.data := below.trans below'.symm
      have hlength : children.length = children'.length := by
        simpa using congrArg List.length hsame
      congr 1
      refine ext_getElem hlength fun n hn hn' => ?_
      refine ih _ (getElem_mem hn) (rest' _ (getElem_mem hn')) ?_
      simpa [hn, hn'] using congrArg (·[n]?) hsame

theorem knownIn_perm (h : g.Perm g') (instances : Table String Value) :
    g.knownIn instances = g'.knownIn instances := by
  unfold knownIn
  have hmem : ∀ module, module ∈ Table.keys g ↔ module ∈ Table.keys g' := fun module =>
    (h.map Prod.fst).mem_iff
  simp only [hmem]

theorem Unfolds.perm {t : Tree InstanceKey} (h : g.Perm g') (ht : g.Unfolds t) : g'.Unfolds t := by
  induction ht with
  | node module below _ ih => exact .node (h.mem_iff.mp module) (knownIn_perm h _ ▸ below) ih

theorem contains_perm (h : g.Perm g') : g.Contains = g'.Contains := by
  funext outer inner
  unfold Contains
  simp only [h.mem_iff, knownIn_perm h]

theorem WellFormed.perm (h : g.WellFormed) (hperm : g'.Perm g) : g'.WellFormed :=
  ⟨(hperm.map Prod.fst).nodup_iff.mpr h.keys, fun e he => h.names e (hperm.mem_iff.mp he),
    fun e he => h.types e (hperm.mem_iff.mp he)⟩

/-! ### The depth of the tree -/

theorem mem_keys_of_knownIn {instances : Table String Value} {key : InstanceKey}
    (h : key ∈ g.knownIn instances) : key.module ∈ Table.keys g := by
  obtain ⟨⟨inst, type⟩, -, he⟩ := mem_filterMap.mp h
  cases type with
  | text m =>
    by_cases hm : m ∈ Table.keys g
    · obtain rfl : InstanceKey.mk inst m = key := by simpa [hm] using he
      exact hm
    · simp [hm] at he
  | _ => cases he

theorem mem_keys_of_transGen (h : Relation.TransGen g.Contains outer inner) : inner ∈ Table.keys g := by
  cases h with
  | single h | tail _ h =>
    obtain ⟨_, key, -, hkey, rfl⟩ := h
    exact mem_keys_of_knownIn hkey

open Classical in
/-- The modules inside a module, at any depth. -/
noncomputable def inside (g : InstanceGraph) (module : String) : Finset String :=
  (Table.keys g).toFinset.filter (Relation.TransGen g.Contains module)

theorem mem_inside : inner ∈ g.inside outer ↔ Relation.TransGen g.Contains outer inner := by
  classical
  unfold inside
  rw [Finset.mem_filter, mem_toFinset]
  exact ⟨And.right, fun h => ⟨mem_keys_of_transGen h, h⟩⟩

/-- Fewer modules are inside an instance than inside the module around it. -/
theorem card_inside_lt (hacyclic : g.AcyclicFrom top)
    (hreach : Relation.ReflTransGen g.Contains top outer) (h : g.Contains outer inner) :
    (g.inside inner).card < (g.inside outer).card := by
  refine Finset.card_lt_card ((Finset.ssubset_iff_of_subset fun m hm => ?_).mpr ⟨inner, ?_, ?_⟩)
  · exact mem_inside.mpr ((mem_inside.mp hm).head h)
  · exact mem_inside.mpr (.single h)
  · exact fun hm => hacyclic inner (hreach.tail h) (mem_inside.mp hm)

theorem acyclicFrom_of_rank (rank : String → Nat) (top : String)
    (h : ∀ e ∈ g, ∀ key ∈ g.knownIn e.2, rank key.module < rank e.1) : g.AcyclicFrom top := by
  intro module _ hloop
  have hlt : ∀ inner, Relation.TransGen g.Contains module inner → rank inner < rank module := by
    intro inner hpath
    induction hpath with
    | single hin =>
      obtain ⟨instances, key, hmem, hkey, rfl⟩ := hin
      exact h _ hmem key hkey
    | tail _ hin ih =>
      obtain ⟨instances, key, hmem, hkey, rfl⟩ := hin
      exact (h _ hmem key hkey).trans ih
  exact Nat.lt_irrefl _ (hlt module hloop)

/-! ### Work that prints -/

/-- Work that goes through with an answer and changes the transcript only. -/
def Prints {α : Type} (x : Build α) (a : α) : Prop :=
  ∀ ws, ∃ text, x ws = .ok a { ws with transcript := text }

theorem Prints.bind {β : Type} {x : Build α} {f : α → Build β} {a : α} {b : β} (hx : Prints x a)
    (hf : Prints (f a) b) : Prints (x >>= f) b := by
  intro ws
  obtain ⟨text, hx⟩ := hx ws
  obtain ⟨text', hf⟩ := hf { ws with transcript := text }
  exact ⟨text', by rw [Build.bind_of_ok hx, hf]⟩

theorem prints_pure (a : α) : Prints (pure a) a := fun ws => ⟨ws.transcript, rfl⟩

theorem prints_say (line : String) : Prints (Build.say line) () := fun _ => ⟨_, rfl⟩

theorem prints_lift {x : Result α} {a : α} (h : x = .ok a) : Prints (liftM x : Build α) a := by
  subst h
  exact prints_pure a

end InstanceGraph

namespace Linkage

open InstanceGraph

variable {l : Linkage} {place : Nat} {inst : String} {type : Value}

/-! ### Rewriting the tables -/

/-- A step takes the first name of a table away and puts its link behind, in this table only. -/
theorem prints_relink {rest : List Member} (htype : type.isKey = true)
    (htable : l.tableAt place = .named inst type :: rest) (hrest : ∀ m ∈ rest, m.type? inst = none) :
    Prints (l.relink place inst) (l.setTable place (rest ++ (l.link? inst type).toList)) := by
  have hfound : (l.tableAt place).findSome? (Member.type? inst) = some type := by
    rw [htable, findSome?_cons]
    simp [Member.type?]
  have hothers : (l.tableAt place).filter (fun m => (m.type? inst).isNone) = rest := by
    rw [htable, filter_cons_of_neg (by simp [Member.type?]), filter_eq_self]
    intro m hm
    rw [hrest m hm]
    rfl
  unfold relink
  rw [hfound, hothers]
  have hkey : type.requireKey = .ok () := if_pos htype
  refine (prints_lift hkey).bind ?_
  dsimp only
  split
  · rename_i hlink
    rw [hlink, Option.toList_none, append_nil]
    exact (prints_say _).bind (prints_pure _)
  · rename_i link hlink
    rw [hlink]
    exact prints_pure _

/-- The links for some instances. -/
def links (l : Linkage) (instances : Table String Value) : List Member :=
  instances.flatMap fun e => (l.link? e.1 e.2).toList

theorem type?_eq_none_of_links {instances : Table String Value} {m : Member} (hm : m ∈ l.links instances)
    (inst : String) : m.type? inst = none := by
  obtain ⟨e, -, hm⟩ := mem_flatMap.mp hm
  obtain ⟨module, -, hm⟩ := Option.bind_eq_some_iff.mp (Option.mem_toList.mp hm)
  obtain ⟨place, -, rfl⟩ := Option.map_eq_some_iff.mp hm
  rfl

theorem setTable_setTable (l : Linkage) (place : Nat) (table table' : List Member) :
    (l.setTable place table).setTable place table' = l.setTable place table' := by
  simp [setTable]

theorem tableAt_setTable (hplace : place < l.tables.length) (table : List Member) :
    (l.setTable place table).tableAt place = table := by
  simp [tableAt, setTable, hplace]

/-- The turn of one table:  `done` are rewritten, `rest` are not. -/
theorem prints_relinks (hplace : place < l.tables.length) (done : Table String Value)
    {rest : Table String Value} (htypes : ∀ e ∈ rest, e.2.isKey = true) (hnames : (Table.keys rest).Nodup)
    (htable : l.tableAt place = (rest.map fun e => .named e.1 e.2) ++ l.links done) :
    Prints ((Table.keys rest).foldlM (fun l inst => l.relink place inst) l)
      (l.setTable place (l.links (done ++ rest))) := by
  induction rest generalizing l done with
  | nil =>
    have hself : l.setTable place (l.links (done ++ [])) = l := by
      rw [append_nil, ← show l.tableAt place = l.links done from htable]
      simp [tableAt, setTable, hplace]
    rw [hself]
    exact prints_pure l
  | cons e rest ih =>
    obtain ⟨hfresh, hnames⟩ := nodup_cons.mp hnames
    have hlinks : l.links (done ++ [e]) = l.links done ++ (l.link? e.1 e.2).toList := by
      simp [links]
    have hstep : Prints (l.relink place e.1)
        (l.setTable place ((rest.map fun e => .named e.1 e.2) ++ l.links (done ++ [e]))) := by
      rw [hlinks, ← append_assoc]
      refine prints_relink (htypes e mem_cons_self) htable fun m hm => ?_
      rcases mem_append.mp hm with hm | hm
      · obtain ⟨e', he', rfl⟩ := mem_map.mp hm
        exact if_neg fun heq : e'.1 = e.1 => hfresh (heq ▸ mem_map_of_mem he')
      · exact type?_eq_none_of_links hm e.1
    have hrest := ih (l := l.setTable place ((rest.map fun e => .named e.1 e.2) ++ l.links (done ++ [e])))
      (by simpa [setTable] using hplace) (done ++ [e])
      (fun e' he' => htypes e' (mem_cons_of_mem _ he')) hnames (tableAt_setTable hplace _)
    rw [setTable_setTable, append_assoc] at hrest
    exact hstep.bind hrest

/-- The turns of all tables: those of `done` are rewritten, those of `rest` are not. -/
theorem prints_relinkTables (done : InstanceGraph) {rest : InstanceGraph}
    (htypes : ∀ e ∈ rest, ∀ i ∈ e.2, i.2.isKey = true) (hnames : ∀ e ∈ rest, (Table.keys e.2).Nodup)
    (htables : l.tables = (done.map fun e => l.links e.2) ++
      rest.map fun e => e.2.map fun i => .named i.1 i.2) :
    Prints ((List.range' done.length rest.length).foldlM relinkTable l)
      { l with tables := (done ++ rest).map fun e => l.links e.2 } := by
  induction rest generalizing l done with
  | nil =>
    rw [append_nil, ← show l.tables = done.map _ by simpa using htables]
    exact prints_pure l
  | cons e rest ih =>
    have hplace : done.length < l.tables.length := by simp [htables]
    have htable : l.tableAt done.length = e.2.map fun i => .named i.1 i.2 := by simp [tableAt, htables]
    have hstep : Prints (l.relinkTable done.length) (l.setTable done.length (l.links e.2)) := by
      have hkeys : (l.tableAt done.length).filterMap Member.name? = Table.keys e.2 := by
        rw [htable, filterMap_map]
        exact filterMap_eq_map ▸ rfl
      rw [relinkTable, hkeys]
      exact prints_relinks hplace [] (htypes e mem_cons_self) (hnames e mem_cons_self)
        (by rw [htable]; exact (append_nil _).symm)
    refine hstep.bind ?_
    have hrest := ih (l := l.setTable done.length (l.links e.2)) (done ++ [e])
      (fun e' he' => htypes e' (mem_cons_of_mem _ he'))
      (fun e' he' => hnames e' (mem_cons_of_mem _ he'))
      (by simp [setTable, htables, links, link?])
    rw [length_append, append_assoc] at hrest
    exact hrest

/-- All tables rewritten. -/
def linked (g : InstanceGraph) : Linkage :=
  { ofGraph g with tables := g.map fun e => (ofGraph g).links e.2 }

theorem prints_relinkAll (htypes : ∀ e ∈ g, ∀ i ∈ e.2, i.2.isKey = true)
    (hnames : ∀ e ∈ g, (Table.keys e.2).Nodup) : Prints (ofGraph g).relinkAll (linked g) := by
  have hplaces : Table.values (ofGraph g).places = List.range' 0 g.length :=
    (zipIdx_map_snd ..).trans (by rw [Table.keys, length_map])
  rw [relinkAll, hplaces]
  exact prints_relinkTables [] htypes hnames rfl

/-! ### The copy -/

theorem keys_places (g : InstanceGraph) : Table.keys (ofGraph g).places = Table.keys g :=
  zipIdx_map_fst ..

theorem places_eq_some_iff (hkeys : (Table.keys g).Nodup) {module : String} :
    Table.get? (ofGraph g).places module = some place ↔ (Table.keys g)[place]? = some module := by
  rw [Table.get?_eq_some_iff (keys_places g ▸ hkeys)]
  exact mem_zipIdx_iff_getElem?

/-- The links in a table are those for the known instances, to the tables of their modules. -/
theorem forall₂_links (hkeys : (Table.keys g).Nodup) (instances : Table String Value) :
    List.Forall₂ (fun key m => ∃ place, m = .linked key place ∧ (Table.keys g)[place]? = some key.module)
      (g.knownIn instances) ((ofGraph g).links instances) := by
  induction instances with
  | nil => exact .nil
  | cons e instances ih =>
    obtain ⟨inst, type⟩ := e
    by_cases hknown : ∃ module, type = .text module ∧ module ∈ Table.keys g
    · obtain ⟨module, rfl, hmodule⟩ := hknown
      obtain ⟨place, hplace⟩ := mem_iff_getElem?.mp hmodule
      have hkey : g.knownIn ((inst, .text module) :: instances) = ⟨inst, module⟩ :: g.knownIn instances := by
        simp [knownIn, hmodule]
      have hlink : (ofGraph g).link? inst (.text module) = some (.linked ⟨inst, module⟩ place) := by
        simp [link?, Value.text?, (places_eq_some_iff hkeys).mpr hplace]
      rw [hkey, links, flatMap_cons, hlink]
      exact .cons ⟨place, rfl, hplace⟩ ih
    · have hkey : g.knownIn ((inst, type) :: instances) = g.knownIn instances := by
        unfold knownIn
        rw [filterMap_cons_none]
        cases type with
        | text module => exact if_neg fun hmodule => hknown ⟨module, rfl, hmodule⟩
        | _ => rfl
      have hlink : (ofGraph g).link? inst type = none := by
        cases type with
        | text module =>
          have hmodule : module ∉ Table.keys (ofGraph g).places := fun hmodule =>
            hknown ⟨module, rfl, keys_places g ▸ hmodule⟩
          simp [link?, Value.text?, Table.get?_eq_none_iff.mpr hmodule]
        | _ => rfl
      rw [hkey, links, flatMap_cons, hlink]
      exact ih

/-- Copies of tables whose links lead to unfoldings. -/
theorem exists_copies {f : Member → Result (Tree InstanceKey)} {keys : List InstanceKey}
    {members : List Member}
    (h : List.Forall₂ (fun key m => ∃ t, f m = .ok t ∧ t.data = key ∧ g.Unfolds t) keys members) :
    ∃ ts, members.mapM f = .ok ts ∧ ts.map Tree.data = keys ∧ ∀ t ∈ ts, g.Unfolds t := by
  induction h with
  | nil => exact ⟨[], rfl, rfl, by simp⟩
  | cons hfirst _ ih =>
    obtain ⟨t, hcopy, rfl, ht⟩ := hfirst
    obtain ⟨ts, hcopies, rfl, hts⟩ := ih
    refine ⟨t :: ts, ?_, rfl, by simpa using ⟨ht, hts⟩⟩
    rw [mapM_cons, hcopy, hcopies]
    rfl

/-- A depth above the number of modules inside an instance is enough for its copy. -/
theorem copyUpTo_unfolds (hkeys : (Table.keys g).Nodup) (hacyclic : g.AcyclicFrom top) {depth : Nat}
    {key : InstanceKey} (hplace : (Table.keys g)[place]? = some key.module)
    (hreach : Relation.ReflTransGen g.Contains top key.module)
    (hdepth : (g.inside key.module).card < depth) :
    ∃ t, (linked g).copyUpTo depth key place = .ok t ∧ t.data = key ∧ g.Unfolds t := by
  induction depth generalizing key place with
  | zero => omega
  | succ depth ih =>
    obtain ⟨⟨module, instances⟩, hget, rfl⟩ := Option.map_eq_some_iff.mp (getElem?_map ▸ hplace)
    have hmem : (key.module, instances) ∈ g := mem_of_getElem? hget
    have htable : (linked g).tableAt place = (ofGraph g).links instances := by
      simp [tableAt, linked, hget]
    have hlinks := (forall₂_and_left _ _).mpr ⟨fun _ h => h, forall₂_links hkeys instances⟩
    obtain ⟨children, hcopies, hdata, hchildren⟩ := exists_copies (f := fun m =>
        m.target >>= fun link => (linked g).copyUpTo depth link.1 link.2) (hlinks.imp fun k m h => by
      obtain ⟨hk, place, rfl, hplace⟩ := h
      have hcontains : g.Contains key.module k.module := ⟨instances, k, hmem, hk, rfl⟩
      have hlt := card_inside_lt hacyclic hreach hcontains
      show ∃ t, (linked g).copyUpTo depth k place = .ok t ∧ _
      exact ih hplace (hreach.tail hcontains) (by omega))
    refine ⟨.node key children, ?_, rfl, .node hmem hdata hchildren⟩
    rw [copyUpTo, htable]
    exact Result.bind_of_ok hcopies _

end Linkage

namespace InstanceGraph

/-- The tree below the top module is found, and it is an unfolding. -/
theorem exists_tree (h : g.WellFormed) (htop : top ∈ Table.keys g) (hacyclic : g.AcyclicFrom top) :
    ∃ t, Prints (g.tree (some top)) t ∧ t.data = ⟨top, top⟩ ∧ g.Unfolds t := by
  obtain ⟨place, hplace⟩ := mem_iff_getElem?.mp htop
  have hdepth : (g.inside top).card < g.length := by
    classical
    have hsub : g.inside top ⊂ (Table.keys g).toFinset :=
      (Finset.ssubset_iff_of_subset (Finset.filter_subset _ _)).mpr
        ⟨top, mem_toFinset.mpr htop, fun hm => hacyclic top .refl (mem_inside.mp hm)⟩
    calc (g.inside top).card < (Table.keys g).toFinset.card := Finset.card_lt_card hsub
      _ ≤ (Table.keys g).length := toFinset_card_le _
      _ = g.length := length_map _
  obtain ⟨t, hcopy, hdata, ht⟩ := Linkage.copyUpTo_unfolds h.keys hacyclic
    (show (Table.keys g)[place]? = some (InstanceKey.mk top top).module from hplace) .refl hdepth
  refine ⟨t, ?_, hdata, ht⟩
  simp only [tree, (Linkage.places_eq_some_iff h.keys).mpr hplace]
  exact (Linkage.prints_relinkAll h.types h.names).bind (prints_lift hcopy)

/-- The tree of instances below a top module is the one unfolding of the graph from there, in whatever
order the modules are listed. -/
theorem tree_unfolds (g : InstanceGraph) (top : String) (hg : g.WellFormed) (htop : top ∈ Table.keys g)
    (hacyclic : g.AcyclicFrom top) :
    ∃ t, t.data = ⟨top, top⟩ ∧ g.Unfolds t ∧
      (∀ u, u.data = ⟨top, top⟩ → g.Unfolds u → u = t) ∧
      ∀ g' : InstanceGraph, g'.Perm g → Prints (g'.tree (some top)) t := by
  obtain ⟨t, -, hdata, ht⟩ := exists_tree hg htop hacyclic
  refine ⟨t, hdata, ht, fun u hdata' hu => hu.unique hg.keys ht (hdata'.trans hdata.symm), fun g' hperm => ?_⟩
  have hacyclic' : g'.AcyclicFrom top := by
    unfold AcyclicFrom
    rw [contains_perm hperm]
    exact hacyclic
  obtain ⟨t', hprints, hdata', ht'⟩ :=
    exists_tree (hg.perm hperm) ((hperm.map Prod.fst).mem_iff.mpr htop) hacyclic'
  rw [(ht'.perm hperm).unique hg.keys ht (hdata'.trans hdata.symm)] at hprints
  exact hprints

/-- A module with an instance of a module that is in another one too, and of an unknown one. -/
def diamond : InstanceGraph :=
  [("leaf", []), ("top", [("a", .text "middle"), ("x", .text "box"), ("b", .text "leaf")]),
    ("middle", [("c", .text "leaf")])]

theorem tree_unfolds_diamond : Prints (tree (List.reverse diamond) (some "top"))
    (.node ⟨"top", "top"⟩
      [.node ⟨"a", "middle"⟩ [.node ⟨"c", "leaf"⟩ []], .node ⟨"b", "leaf"⟩ []]) := by
  have hacyclic : diamond.AcyclicFrom "top" :=
    acyclicFrom_of_rank (["leaf", "middle", "top"].idxOf ·) "top" (by decide)
  obtain ⟨t, -, -, hunique, hprints⟩ :=
    tree_unfolds diamond "top" ⟨by decide, by decide, by decide⟩ (by decide) hacyclic
  have hleaf : ∀ inst, diamond.Unfolds (.node ⟨inst, "leaf"⟩ []) := fun inst =>
    .node (show ("leaf", []) ∈ diamond from .head _) rfl (by simp)
  have hmiddle : diamond.Unfolds (.node ⟨"a", "middle"⟩ [.node ⟨"c", "leaf"⟩ []]) :=
    .node (show ("middle", [("c", .text "leaf")]) ∈ diamond from .tail _ (.tail _ (.head _)))
      (by decide) (by simpa using hleaf "c")
  rw [hunique _ rfl (.node (show ("top", _) ∈ diamond from .tail _ (.head _)) (by decide)
    (by simpa using ⟨hmiddle, hleaf "b"⟩))]
  exact hprints _ (reverse_perm _)

end InstanceGraph

end RegisterMap
