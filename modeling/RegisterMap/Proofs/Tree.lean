import Mathlib.Data.List.Forall2
import Mathlib.Data.List.Nodup
import Mathlib.Data.List.Pairwise
import RegisterMap.Tree

/-! # Trees

A property of all nodes of a tree is a property of its root and of all nodes of the trees below it
(`Tree.forall_subtrees_node`).  The nodes of different trees below a node are different when all nodes
of the tree are (`Tree.nodup_node`). -/

namespace RegisterMap.Tree

open List

variable {α β : Type} {P : Tree α → Prop} {a : α} {ts : List (Tree α)} {t u : Tree α}

/-- Induction from the leaves to the root. -/
theorem induct (h : ∀ a ts, (∀ t ∈ ts, P t) → P (.node a ts)) : ∀ t, P t
  | .node a ts => h a ts fun t _ => induct h t

theorem mem_subtreesIn : u ∈ subtreesIn ts ↔ ∃ t ∈ ts, u ∈ t.subtrees := by
  induction ts with
  | nil => simp [subtreesIn]
  | cons t ts ih => simp [subtreesIn, ih]

theorem subtreesIn_eq (ts : List (Tree α)) : subtreesIn ts = ts.flatMap subtrees := by
  induction ts with
  | nil => rfl
  | cons t ts ih => rw [subtreesIn, ih, flatMap_cons]

theorem toList_node (a : α) (ts : List (Tree α)) :
    (node a ts).toList = ts.flatMap toList ++ [a] := by
  unfold toList
  rw [subtrees, subtreesIn_eq, map_append, map_flatMap]
  rfl

theorem forall_subtrees_node :
    (∀ u ∈ (node a ts).subtrees, P u) ↔ P (node a ts) ∧ ∀ t ∈ ts, ∀ u ∈ t.subtrees, P u := by
  simp only [subtrees, mem_append, mem_singleton, mem_subtreesIn]
  constructor
  · exact fun h => ⟨h _ (.inr rfl), fun t ht u hu => h u (.inl ⟨t, ht, hu⟩)⟩
  · rintro ⟨hr, hc⟩ u (⟨t, ht, hu⟩ | rfl)
    · exact hc t ht u hu
    · exact hr

theorem mem_subtrees_self (t : Tree α) : t ∈ t.subtrees := by
  cases t with
  | node a ts => simp [subtrees]

theorem subtrees_subset (hu : u ∈ t.subtrees) : u.subtrees ⊆ t.subtrees := by
  induction t using induct with
  | _ a ts ih =>
    intro v hv
    rw [subtrees] at hu ⊢
    rcases mem_append.mp hu with hu | hu
    · obtain ⟨w, hw, hu⟩ := mem_subtreesIn.mp hu
      exact mem_append_left _ (mem_subtreesIn.mpr ⟨w, hw, ih w hw hu hv⟩)
    · rw [mem_singleton.mp hu, subtrees] at hv
      exact hv

theorem child_mem_subtrees {c : Tree α} (hu : u ∈ t.subtrees) (hc : c ∈ u.children) :
    c ∈ t.subtrees := by
  refine subtrees_subset hu ?_
  cases u with
  | node a ts =>
    rw [subtrees]
    exact mem_append_left _ (mem_subtreesIn.mpr ⟨c, hc, c.mem_subtrees_self⟩)

theorem data_mem_toList (t : Tree α) : t.data ∈ t.toList :=
  mem_map_of_mem t.mem_subtrees_self

theorem mem_toList_of_child {c : α} (ht : t ∈ ts) (hc : c ∈ t.toList) : c ∈ (node a ts).toList := by
  rw [toList_node]
  exact mem_append_left _ (mem_flatMap.mpr ⟨t, ht, hc⟩)

theorem nodup_flatMap_append {ts : List α} {f : α → List β} {xs : List β}
    (h : (ts.flatMap f ++ xs).Nodup) :
    (∀ t ∈ ts, (f t).Nodup) ∧ xs.Nodup ∧ (∀ t ∈ ts, (f t).Disjoint xs) ∧
      ∀ t ∈ ts, ∀ u ∈ ts, t ≠ u → (f t).Disjoint (f u) := by
  obtain ⟨hts, hxs, hdisj⟩ := nodup_append.mp h
  obtain ⟨hone, hpair⟩ := nodup_flatMap.mp hts
  refine ⟨hone, hxs, fun t ht x hx hx' => ?_, fun t ht u hu hne => ?_⟩
  · exact hdisj x (mem_flatMap.mpr ⟨t, ht, hx⟩) x hx' rfl
  · have : Std.Symm (Function.onFun List.Disjoint f) := ⟨fun _ _ h _ hx hy => h hy hx⟩
    exact hpair.forall ht hu hne

theorem nodup_node (h : (node a ts).toList.Nodup) :
    (∀ t ∈ ts, t.toList.Nodup) ∧ (∀ t ∈ ts, a ∉ t.toList) ∧
      ∀ t ∈ ts, ∀ u ∈ ts, t ≠ u → t.toList.Disjoint u.toList := by
  rw [toList_node] at h
  obtain ⟨hone, -, hroot, hpair⟩ := nodup_flatMap_append h
  exact ⟨hone, fun t ht => disjoint_singleton.mp (hroot t ht), hpair⟩

theorem nodup_children (h : (node a ts).toList.Nodup) : (ts.map data).Nodup := by
  rw [toList_node] at h
  obtain ⟨-, hpair⟩ := nodup_flatMap.mp (nodup_append.mp h).1
  refine pairwise_map.mpr (hpair.imp ?_)
  intro t u hd he
  exact hd t.data_mem_toList (he ▸ u.data_mem_toList)

theorem eq_of_data_eq (h : (node a ts).toList.Nodup) (ht : t ∈ ts) (hu : u ∈ ts)
    (he : t.data = u.data) : t = u := by
  by_contra hne
  exact (nodup_node h).2.2 t ht u hu hne t.data_mem_toList (he ▸ u.data_mem_toList)

theorem data_ne_of_child {c : Tree α} (h : t.toList.Nodup) (hu : u ∈ t.subtrees)
    (hc : c ∈ u.children) : c.data ≠ t.data := by
  cases t with
  | node a ts =>
    rw [subtrees] at hu
    obtain ⟨v, hv, hcv⟩ : ∃ v ∈ ts, c ∈ v.subtrees := by
      rcases mem_append.mp hu with hu | hu
      · obtain ⟨v, hv, hu⟩ := mem_subtreesIn.mp hu
        exact ⟨v, hv, child_mem_subtrees hu hc⟩
      · rw [mem_singleton.mp hu] at hc
        exact ⟨c, hc, c.mem_subtrees_self⟩
    rintro he
    refine (nodup_node h).2.1 v hv ?_
    rw [show a = c.data from he.symm]
    exact mem_map_of_mem hcv

/-! ### Other data at the nodes -/

mutual

def map (f : α → β) : Tree α → Tree β
  | node a ts => node (f a) (mapAll f ts)

def mapAll (f : α → β) : List (Tree α) → List (Tree β)
  | [] => []
  | t :: ts => map f t :: mapAll f ts

end

theorem mapAll_eq (f : α → β) (ts : List (Tree α)) : mapAll f ts = ts.map (map f) := by
  induction ts with
  | nil => rfl
  | cons t ts ih => rw [mapAll, ih, map_cons]

theorem map_node (f : α → β) (a : α) (ts : List (Tree α)) :
    (node a ts).map f = node (f a) (ts.map (map f)) := by
  rw [map, mapAll_eq]

theorem data_map (f : α → β) (t : Tree α) : (t.map f).data = f t.data := by
  cases t with
  | node a ts => rw [map_node]; rfl

theorem subtrees_map (f : α → β) (t : Tree α) : (t.map f).subtrees = t.subtrees.map (map f) := by
  induction t using induct with
  | _ a ts ih =>
    rw [map_node, subtrees, subtrees, subtreesIn_eq, subtreesIn_eq, map_append,
      map_flatMap, flatMap_map, map_singleton, map_node]
    congr 1
    exact flatMap_congr fun t ht => ih t ht

theorem toList_map (f : α → β) (t : Tree α) : (t.map f).toList = t.toList.map f := by
  unfold toList
  rw [subtrees_map, map_map, map_map]
  exact map_congr_left fun u _ => data_map f u

/-! ### Walks -/

theorem withParentsIn_eq (a : α) (ts : List (Tree α)) :
    withParentsIn a ts = ts.flatMap (withParents (some a)) := by
  induction ts with
  | nil => rfl
  | cons t ts ih => rw [withParentsIn, ih, flatMap_cons]

theorem withParents_node (p : Option α) (a : α) (ts : List (Tree α)) :
    (node a ts).withParents p = ts.flatMap (withParents (some a)) ++ [(p, a)] := by
  rw [withParents, withParentsIn_eq]

theorem map_snd_withParents (p : Option α) (t : Tree α) : (t.withParents p).map Prod.snd = t.toList := by
  induction t using induct generalizing p with
  | _ a ts ih =>
    rw [withParents_node, toList_node, map_append, map_flatMap]
    congr 1
    exact flatMap_congr fun t ht => ih t ht (some a)

mutual

/-- The tree with the data of its parent beside those of each node. -/
def traced (parent : Option α) : Tree α → Tree (Option α × α)
  | node a ts => node (parent, a) (tracedAll a ts)

/-- Some trees with the data of its parent beside those of each node. -/
def tracedAll (parent : α) : List (Tree α) → List (Tree (Option α × α))
  | [] => []
  | t :: ts => traced (some parent) t :: tracedAll parent ts

end

theorem tracedAll_eq (a : α) (ts : List (Tree α)) : tracedAll a ts = ts.map (traced (some a)) := by
  induction ts with
  | nil => rfl
  | cons t ts ih => rw [tracedAll, ih, map_cons]

theorem traced_node (p : Option α) (a : α) (ts : List (Tree α)) :
    (node a ts).traced p = node (p, a) (ts.map (traced (some a))) := by
  rw [traced, tracedAll_eq]

theorem toList_traced (p : Option α) (t : Tree α) : (t.traced p).toList = t.withParents p := by
  induction t using induct generalizing p with
  | _ a ts ih =>
    rw [traced_node, toList_node, withParents_node, flatMap_map]
    congr 1
    exact flatMap_congr fun t ht => ih t ht (some a)

theorem exists_split_of_flatMap {f : α → List β} {as : List α} {met rest : List β} {x : β}
    (h : as.flatMap f = met ++ x :: rest) :
    ∃ a ∈ as, ∃ met' rest', f a = met' ++ x :: rest' ∧ rest' ⊆ rest := by
  induction as generalizing met with
  | nil => cases met <;> cases h
  | cons a as ih =>
    rw [flatMap_cons] at h
    rcases append_eq_append_iff.mp h with ⟨cs, rfl, hcs⟩ | ⟨cs, hmet, hcs⟩
    · obtain ⟨a', ha', hsplit⟩ := ih hcs
      exact ⟨a', mem_cons_of_mem _ ha', hsplit⟩
    · cases cs with
      | nil =>
        obtain ⟨a', ha', hsplit⟩ := ih (show as.flatMap f = [] ++ x :: rest from hcs.symm)
        exact ⟨a', mem_cons_of_mem _ ha', hsplit⟩
      | cons e cs =>
        obtain ⟨rfl, rfl⟩ := List.cons.inj hcs
        exact ⟨a, mem_cons_self, met, cs, hmet, subset_append_left _ _⟩

theorem withParents_split {p q : Option α} {t : Tree α} {a : α} {met rest : List (Option α × α)}
    (h : t.withParents p = met ++ (q, a) :: rest) :
    (q = p ∧ a = t.data ∧ rest = []) ∨ ∃ b, q = some b ∧ b ∈ rest.map Prod.snd := by
  induction t using induct generalizing p met rest with
  | _ b ts ih =>
    rw [withParents_node] at h
    rcases append_eq_append_iff.mp h with ⟨as, rfl, hlast⟩ | ⟨bs, hmet, hrest⟩
    · -- the node is the root
      cases as with
      | nil =>
        obtain ⟨he, rfl⟩ := List.cons.inj hlast
        cases he
        exact .inl ⟨rfl, rfl, rfl⟩
      | cons e as => cases (append_eq_nil_iff.mp (List.cons.inj hlast).2.symm).2
    · cases bs with
      | nil =>
        obtain ⟨he, rfl⟩ := List.cons.inj hrest
        cases he
        exact .inl ⟨rfl, rfl, rfl⟩
      | cons e bs =>
        obtain ⟨rfl, rfl⟩ := List.cons.inj hrest
        -- the node is in one of the trees below the root
        obtain ⟨u, hu, met', rest', hsplit, hsub⟩ := exists_split_of_flatMap hmet
        rcases ih u hu hsplit with ⟨rfl, -, -⟩ | ⟨c, rfl, hc⟩
        · exact .inr ⟨b, rfl, by simp⟩
        · obtain ⟨e, he, rfl⟩ := mem_map.mp hc
          exact .inr ⟨e.2, rfl, mem_map_of_mem (mem_append_left _ (hsub he))⟩

/-- The tree without its data. -/
def shape (t : Tree α) : Tree Unit := t.map fun _ => ()

theorem shape_node (a : α) (ts : List (Tree α)) : (node a ts).shape = node () (ts.map shape) :=
  map_node _ a ts

theorem shape_traced (p : Option α) (t : Tree α) : (t.traced p).shape = t.shape := by
  induction t using induct generalizing p with
  | _ a ts ih =>
    rw [traced_node, shape_node, shape_node, map_map]
    exact congrArg _ (map_congr_left fun t ht => ih t ht (some a))

theorem mapM_eq {m : Type → Type} [Monad m] [LawfulMonad m] (f : Option α → α → m β) (p : Option α)
    (t : Tree α) :
    (fun u : Tree β => (u.shape, u.toList)) <$> t.mapM f p =
      (fun bs => (t.shape, bs)) <$> (t.withParents p).mapM fun e => f e.1 e.2 := by
  induction t using induct generalizing p with
  | _ a ts ih =>
    have hall : ∀ us : List (Tree α), (∀ u ∈ us, u ∈ ts) →
        (fun vs : List (Tree β) => (vs.map shape, vs.flatMap toList)) <$> mapAllM f a us =
          (fun bs => (us.map shape, bs)) <$>
            (us.flatMap (withParents (some a))).mapM fun e => f e.1 e.2 := by
      intro us
      induction us with
      | nil => intro _; simp [mapAllM]
      | cons u us ihs =>
        intro hus
        have hu := ih u (hus u mem_cons_self) (some a)
        have hrest := ihs fun v hv => hus v (mem_cons_of_mem _ hv)
        rw [mapAllM, flatMap_cons, mapM_append]
        calc _ = ((fun v : Tree β => (v.shape, v.toList)) <$> u.mapM f (some a)) >>= fun x =>
              ((fun vs : List (Tree β) => (vs.map shape, vs.flatMap toList)) <$> mapAllM f a us) >>=
                fun y => pure (x.1 :: y.1, x.2 ++ y.2) := by simp
          _ = _ := by
              rw [hu, hrest]
              simp
    rw [mapM, withParents_node, mapM_append]
    calc _ = ((fun vs : List (Tree β) => (vs.map shape, vs.flatMap toList)) <$> mapAllM f a ts) >>=
          fun x => f p a >>= fun b => pure (node () x.1, x.2 ++ [b]) := by
            simp [shape_node, toList_node]
      _ = _ := by
          rw [hall ts fun u hu => hu]
          simp [shape_node]

/-! ### Trees of one shape -/

mutual

/-- Trees of one shape whose data are related node by node. -/
def Rel (R : α → β → Prop) : Tree α → Tree β → Prop
  | node a ts, node b us => R a b ∧ RelAll R ts us

def RelAll (R : α → β → Prop) : List (Tree α) → List (Tree β) → Prop
  | [], [] => True
  | t :: ts, u :: us => Rel R t u ∧ RelAll R ts us
  | _, _ => False

end

theorem relAll_iff {R : α → β → Prop} {ts : List (Tree α)} {us : List (Tree β)} :
    RelAll R ts us ↔ List.Forall₂ (Rel R) ts us := by
  induction ts generalizing us with
  | nil => cases us <;> simp [RelAll]
  | cons t ts ih => cases us <;> simp [RelAll, ih]

theorem rel_node {R : α → β → Prop} {b : β} {us : List (Tree β)} :
    Rel R (node a ts) (node b us) ↔ R a b ∧ List.Forall₂ (Rel R) ts us := by
  rw [Rel, relAll_iff]

theorem length_toList_of_shape {t : Tree α} {u : Tree β} (h : t.shape = u.shape) :
    t.toList.length = u.toList.length := by
  have := congrArg (fun v => v.toList.length) h
  simpa only [shape, toList_map, length_map] using this

theorem forall₂_split {γ δ : Type} {R : γ → δ → Prop} {xs ys : List γ} {xs' ys' : List δ}
    (hl : xs.length = xs'.length) (h : List.Forall₂ R (xs ++ ys) (xs' ++ ys')) :
    List.Forall₂ R xs xs' ∧ List.Forall₂ R ys ys' := by
  have htake := forall₂_take_append _ _ _ h
  have hdrop := forall₂_drop_append _ _ _ h
  rw [← hl, take_left] at htake
  rw [← hl, drop_left] at hdrop
  exact ⟨htake, hdrop⟩

/-- Trees of one shape are related if their nodes are along a walk. -/
theorem rel_of_shape {R : α → β → Prop} {t : Tree α} {u : Tree β} (hs : t.shape = u.shape)
    (h : List.Forall₂ R t.toList u.toList) : Rel R t u := by
  induction t using induct generalizing u with
  | _ a ts ih =>
    obtain ⟨b, us⟩ := u
    rw [shape_node, shape_node] at hs
    replace hs := (Tree.node.inj hs).2
    rw [toList_node, toList_node] at h
    have hlength : (ts.flatMap toList).length = (us.flatMap toList).length := by
      have := h.length_eq
      simpa using this
    obtain ⟨hbelow, hroot⟩ := forall₂_split hlength h
    obtain ⟨hab, -⟩ := forall₂_cons.mp hroot
    refine rel_node.mpr ⟨hab, ?_⟩
    clear h hlength hab
    induction ts generalizing us with
    | nil =>
      cases us with
      | nil => exact .nil
      | cons u us => cases hs
    | cons t ts ihs =>
      cases us with
      | nil => cases hs
      | cons u us =>
        obtain ⟨hfirst, hrest⟩ := List.cons.inj hs
        rw [flatMap_cons, flatMap_cons] at hbelow
        obtain ⟨htu, hrest'⟩ :=
          forall₂_split (length_toList_of_shape hfirst) hbelow
        exact .cons (ih t mem_cons_self hfirst htu)
          (ihs (fun t ht => ih t (mem_cons_of_mem _ ht)) us hrest hrest')

theorem Rel.comp {γ : Type} {R : α → β → Prop} {S : β → γ → Prop} {T : α → γ → Prop} {t : Tree α}
    {u : Tree β} {v : Tree γ} (h : Rel R t u) (h' : Rel S u v)
    (hrs : ∀ a b c, R a b → S b c → T a c) : Rel T t v := by
  induction t using Tree.induct generalizing u v with
  | _ a ts ih =>
    obtain ⟨b, us⟩ := u
    obtain ⟨c, vs⟩ := v
    obtain ⟨hab, hbelow⟩ := rel_node.mp h
    obtain ⟨hbc, hbelow'⟩ := rel_node.mp h'
    refine rel_node.mpr ⟨hrs a b c hab hbc, ?_⟩
    clear h h' hab hbc
    induction hbelow generalizing vs with
    | nil =>
      cases hbelow'
      exact .nil
    | cons htu _ ihs =>
      cases hbelow' with
      | cons huv hrest =>
        exact .cons (ih _ mem_cons_self htu huv)
          (ihs (fun t ht => ih t (mem_cons_of_mem _ ht)) _ hrest)

theorem Rel.subtrees {R : α → β → Prop} {t : Tree α} {u : Tree β} (h : Rel R t u) :
    List.Forall₂ (Rel R) t.subtrees u.subtrees := by
  induction t using Tree.induct generalizing u with
  | _ a ts ih =>
    obtain ⟨b, us⟩ := u
    obtain ⟨-, hbelow⟩ := rel_node.mp h
    rw [Tree.subtrees, Tree.subtrees, subtreesIn_eq, subtreesIn_eq]
    refine rel_append ?_ (.cons h .nil)
    clear h
    induction hbelow with
    | nil => exact .nil
    | cons htu _ ihs =>
      exact rel_append (ih _ mem_cons_self htu) (ihs fun t ht => ih t (mem_cons_of_mem _ ht))

/-! ### Ways from the root -/

mutual

/-- The ways from the root to all nodes. -/
def paths : Tree α → List (List α)
  | node a ts => [a] :: (pathsIn ts).map (a :: ·)

def pathsIn : List (Tree α) → List (List α)
  | [] => []
  | t :: ts => paths t ++ pathsIn ts

end

theorem mem_pathsIn {p : List α} : p ∈ pathsIn ts ↔ ∃ t ∈ ts, p ∈ t.paths := by
  induction ts with
  | nil => simp [pathsIn]
  | cons t ts ih => simp [pathsIn, ih]

theorem mem_paths_node {p : List α} :
    p ∈ (node a ts).paths ↔ p = [a] ∨ ∃ t ∈ ts, ∃ q ∈ t.paths, p = a :: q := by
  simp only [paths, mem_cons, mem_map, mem_pathsIn]
  constructor
  · rintro (rfl | ⟨q, ⟨t, ht, hq⟩, rfl⟩)
    · exact .inl rfl
    · exact .inr ⟨t, ht, q, hq, rfl⟩
  · rintro (rfl | ⟨t, ht, q, hq, rfl⟩)
    · exact .inl rfl
    · exact .inr ⟨q, ⟨t, ht, hq⟩, rfl⟩

theorem cons_tail_of_mem_paths {p : List α} (h : p ∈ t.paths) : t.data :: p.tail = p := by
  cases t with
  | node a ts =>
    rcases mem_paths_node.mp h with rfl | ⟨_, _, q, _, rfl⟩
    · rfl
    · rfl

end RegisterMap.Tree
