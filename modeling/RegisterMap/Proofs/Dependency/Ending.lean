import Mathlib.Algebra.BigOperators.Group.Finset.Piecewise
import Mathlib.Algebra.Order.BigOperators.Group.Finset
import RegisterMap.Proofs.Dependency.Search

/-! # The end of the search for an order

A move takes a value behind one of its later keys, or the first key of a value in front of it (`Step`).
The two can undo one another at an item that has several keys and is itself the first key of its value
(`forked_never_ends`).  Without such items (`Unforked`) the search ends: moves of the first kind only
push the disorder towards later items, and those of the second kind towards earlier ones. -/

namespace RegisterMap.Dependency

open List

variable {α : Type} [BEq α] [LawfulBEq α] {before behind between : List α} {a v : α}
variable {table : Table α α} {xs ys : List α}

/-! ### The moves -/

/-- A move of the search. -/
inductive Step (table : Table α α) : List α → List α → Prop
  /-- A value before one of its keys, not the first one, goes behind the key and the item after it. -/
  | late {a v : α} {before between behind : List α} (rule : (a, v) ∈ table)
      (other : firstKey? table v ≠ some a) :
      Step table (before ++ v :: (between ++ a :: behind))
        (before ++ between ++ a :: (behind.take 1 ++ v :: behind.drop 1))
  /-- The first key of a value goes before the value. -/
  | early {a v : α} {before between behind : List α} (first : firstKey? table v = some a) :
      Step table (before ++ v :: (between ++ a :: behind)) (before ++ a :: v :: (between ++ behind))

omit [BEq α] [LawfulBEq α] in
theorem insertIdx_length_add (l m : List α) (i : Nat) (a : α) :
    (l ++ m).insertIdx (l.length + i) a = l ++ m.insertIdx i a := by
  induction l with
  | nil => simp
  | cons b l ih => rw [cons_append, length_cons, Nat.add_right_comm,
      insertIdx_succ_cons, ih, cons_append]

omit [BEq α] [LawfulBEq α] in
theorem exists_split {i j : Nat} {b : α} (hij : i < j) (ha : xs[i]? = some a) (hb : xs[j]? = some b) :
    ∃ before between behind, xs = before ++ a :: (between ++ b :: behind) ∧ before.length = i ∧
      before.length + 1 + between.length = j := by
  obtain ⟨hj, rfl⟩ := List.getElem?_eq_some_iff.mp hb
  obtain ⟨hi, rfl⟩ := List.getElem?_eq_some_iff.mp ha
  refine ⟨xs.take i, (xs.take j).drop (i + 1), xs.drop (j + 1), ?_, by simp; omega, by simp; omega⟩
  have htake : xs.take j = xs.take i ++ xs[i] :: (xs.take j).drop (i + 1) := by
    conv_lhs => rw [← take_append_drop i (xs.take j)]
    rw [take_take, Nat.min_eq_left hij.le,
      drop_eq_getElem_cons (by simpa using ⟨hij, hi⟩), getElem_take]
  calc xs = xs.take j ++ xs.drop j := (take_append_drop j xs).symm
    _ = xs.take j ++ xs[j] :: xs.drop (j + 1) := by rw [drop_eq_getElem_cons hj]
    _ = _ := by conv_lhs => rw [htake]; simp only [append_assoc, cons_append]

omit [BEq α] [LawfulBEq α] in
theorem move_behind (before between behind : List α) (a v : α) :
    move (before ++ v :: (between ++ a :: behind)) before.length
        (before.length + 1 + between.length + 1) =
      before ++ between ++ a :: (behind.take 1 ++ v :: behind.drop 1) := by
  have hget : (before ++ v :: (between ++ a :: behind))[before.length]? = some v := by simp
  have herase : (before ++ v :: (between ++ a :: behind)).eraseIdx before.length =
      (before ++ between ++ [a]) ++ behind := by
    simp [eraseIdx_append]
  have htarget : min (before.length + 1 + between.length + 1)
      ((before ++ v :: (between ++ a :: behind)).length - 1) =
        (before ++ between ++ [a]).length + min 1 behind.length := by
    simp only [length_append, length_cons, length_nil]
    omega
  rw [move, hget]
  dsimp only
  rw [herase, htarget, insertIdx_length_add]
  cases behind <;> simp

omit [BEq α] [LawfulBEq α] in
theorem move_before (before between behind : List α) (a v : α) :
    move (before ++ v :: (between ++ a :: behind)) (before.length + 1 + between.length) before.length =
      before ++ a :: v :: (between ++ behind) := by
  have hassoc : before ++ v :: (between ++ a :: behind) = (before ++ v :: between) ++ a :: behind := by
    simp
  have hlength : before.length + 1 + between.length = (before ++ v :: between).length := by
    simp only [length_append, length_cons]
    omega
  rw [move, hassoc, hlength, getElem?_append_right (Nat.le_refl _), Nat.sub_self,
    getElem?_cons_zero]
  dsimp only
  rw [eraseIdx_append_of_length_le (Nat.le_refl _), Nat.sub_self, eraseIdx_zero, tail_cons,
    Nat.min_eq_left (by simp), append_assoc]
  exact insertIdx_length_add before _ 0 a

/-- The search makes a move: the items before the one that asks for it ask for none. -/
theorem step_of_firstMove (hkeys : (Table.keys table).Nodup) (hn : xs.Nodup)
    (h : Rules.firstMove { table := table } xs = some ys) : Step table xs ys := by
  rw [Rules.firstMove_eq] at h
  obtain ⟨done, n, rest, hrange, hmove, hdone⟩ := findSome?_eq_some_iff.mp h
  have hlt : n < xs.length := mem_range.mp (hrange ▸ by simp)
  have hstill : ∀ m < n, Rules.moveAt { table := table } xs m = none := by
    intro m hm
    refine hdone m ?_
    have hmem : m ∈ done ++ n :: rest := hrange ▸ mem_range.mpr (hm.trans hlt)
    have hsorted := pairwise_append.mp (hrange ▸ pairwise_lt_range (n := xs.length))
    have hrest := (pairwise_cons.mp hsorted.2.1).1
    rcases mem_append.mp hmem with hmem | hmem
    · exact hmem
    · rcases mem_cons.mp hmem with rfl | hmem
      · exact absurd hm (Nat.lt_irrefl m)
      · exact absurd (hrest m hmem) (Nat.lt_asymm hm)
  have hx := getElem?_eq_getElem hlt
  rcases Rules.moveAt_eq_some hx hmove with ⟨v, hv, hget, hplace, rfl⟩ | ⟨a, ha, hfirst, hplace, rfl⟩
  · have hvget : xs[xs.idxOf v]? = some v :=
      List.getElem?_eq_some_iff.mpr ⟨List.idxOf_lt_length_iff.mpr hv, List.getElem_idxOf _⟩
    have hother : firstKey? table v ≠ some xs[n] := by
      intro hfirst
      have := ((Rules.moveAt_eq_none_iff hvget).mp (hstill _ hplace)).2 _ (getElem_mem hlt) hfirst
      rw [hn.idxOf_getElem] at this
      omega
    obtain ⟨before, between, behind, heq, hi, hj⟩ := exists_split hplace hvget hx
    have hstep : Step table (before ++ v :: (between ++ xs[n] :: behind)) _ :=
      .late ((Table.get?_eq_some_iff hkeys).mp hget) hother
    rwa [← move_behind, hj, hi, ← heq] at hstep
  · have haget : xs[xs.idxOf a]? = some a :=
      List.getElem?_eq_some_iff.mpr ⟨List.idxOf_lt_length_iff.mpr ha, List.getElem_idxOf _⟩
    obtain ⟨before, between, behind, heq, hi, hj⟩ := exists_split hplace hx haget
    have hstep : Step table (before ++ xs[n] :: (between ++ a :: behind)) _ := .early hfirst
    rwa [← move_before, hj, hi, ← heq] at hstep

/-! ### What a move does to the other items -/

/-- The value of a dependency stands before its key. -/
def Broken (xs : List α) (e : α × α) : Prop := [e.2, e.1].Sublist xs

omit [BEq α] [LawfulBEq α] in
theorem broken_append {l m : List α} (h : a ∈ m) : Broken (l ++ v :: m) (a, v) :=
  ((singleton_sublist.mpr h).cons_cons v).trans (sublist_append_right _ _)

omit [BEq α] [LawfulBEq α] in
theorem mem_of_broken {l m : List α} (hv : v ∉ l) (h : Broken (l ++ v :: m) (a, v)) : a ∈ m := by
  unfold Broken at h
  induction l with
  | nil =>
    cases h with
    | cons _ h | cons_cons _ h => exact h.subset (by simp)
  | cons b l ih =>
    cases h with
    | cons _ h => exact ih (fun hl => hv (mem_cons_of_mem _ hl)) h
    | cons_cons _ h => exact absurd mem_cons_self hv

/-- A move of one item does not change the order of the others. -/
theorem Broken.of_filter {e : α × α} {x : α} (h : Broken ys e) (hkey : e.1 ≠ x) (hvalue : e.2 ≠ x)
    (heq : ys.filter (· != x) = xs.filter (· != x)) : Broken xs e := by
  have hfilter := h.filter (· != x)
  simp only [filter_cons, filter_nil, bne_iff_ne.mpr hkey, bne_iff_ne.mpr hvalue, if_true] at hfilter
  exact (heq ▸ hfilter).trans filter_sublist

/-- A value that goes behind a key is set right for it, and breaks at most its own dependency. -/
theorem broken_late (hn : (before ++ v :: (between ++ a :: behind)).Nodup) :
    ¬Broken (before ++ between ++ a :: (behind.take 1 ++ v :: behind.drop 1)) (a, v) ∧
      ∀ e : α × α, Broken (before ++ between ++ a :: (behind.take 1 ++ v :: behind.drop 1)) e →
        Broken (before ++ v :: (between ++ a :: behind)) e ∨ e.1 = v := by
  obtain ⟨-, hrest, hapart⟩ := nodup_append.mp hn
  obtain ⟨hv, hrest⟩ := nodup_cons.mp hrest
  obtain ⟨-, hrest, -⟩ := nodup_append.mp hrest
  have hassoc : before ++ between ++ a :: (behind.take 1 ++ v :: behind.drop 1) =
      (before ++ between ++ a :: behind.take 1) ++ v :: behind.drop 1 := by simp
  have hfront : v ∉ before ++ between ++ a :: behind.take 1 := by
    intro hmem
    rw [append_assoc] at hmem
    rcases mem_append.mp hmem with hmem | hmem
    · exact hapart v hmem v mem_cons_self rfl
    · refine hv (List.Sublist.subset ?_ hmem)
      exact ((take_sublist 1 behind).cons_cons a).append_left between
  rw [hassoc]
  refine ⟨fun h => ?_, fun e h => ?_⟩
  · exact (nodup_cons.mp hrest).1 (mem_of_mem_drop (mem_of_broken hfront h))
  · by_cases hkey : e.1 = v
    · exact .inr hkey
    refine .inl ?_
    by_cases hvalue : e.2 = v
    · obtain ⟨b, w⟩ := e
      obtain rfl : w = v := hvalue
      have hb := mem_of_mem_drop (mem_of_broken hfront h)
      exact broken_append (mem_append_right _ (mem_cons_of_mem _ hb))
    · refine h.of_filter hkey hvalue ?_
      have hsplit : behind.filter (· != v) =
          (behind.take 1).filter (· != v) ++ (behind.drop 1).filter (· != v) := by
        rw [← filter_append, take_append_drop]
      simp [filter_append, filter_cons, hsplit]

/-- A key that goes before its value is set right, and breaks only dependencies on itself. -/
theorem broken_early (hn : (before ++ v :: (between ++ a :: behind)).Nodup) :
    ¬Broken (before ++ a :: v :: (between ++ behind)) (a, v) ∧
      ∀ e : α × α, e.1 ≠ a → Broken (before ++ a :: v :: (between ++ behind)) e →
        Broken (before ++ v :: (between ++ a :: behind)) e ∨ e.2 = a := by
  refine ⟨fun h => ?_, fun e hkey h => ?_⟩
  · have hmoved : (before ++ a :: v :: (between ++ behind)).Nodup := by
      refine (List.Perm.nodup_iff ?_).mp hn
      refine List.Perm.append_left before ?_
      exact (perm_middle.cons v).trans (List.Perm.swap a v _)
    have hassoc : before ++ a :: v :: (between ++ behind) = (before ++ [a]) ++ v :: (between ++ behind) := by
      simp
    rw [hassoc] at h hmoved
    obtain ⟨-, -, hapart⟩ := nodup_append.mp hmoved
    have hv : v ∉ before ++ [a] := fun hmem => hapart v hmem v mem_cons_self rfl
    have ha := mem_of_broken hv h
    exact hapart a (by simp) a (mem_cons_of_mem _ ha) rfl
  · by_cases hvalue : e.2 = a
    · exact .inr hvalue
    · exact .inl (h.of_filter hkey hvalue (by simp [filter_append, filter_cons]))

/-! ### Disorder -/

/-- Ranks that grow along the dependencies, up to a bound. -/
structure Ranked (table : Table α α) (rank : α → Nat) (bound : Nat) : Prop where
  lt : ∀ e ∈ table, rank e.1 < rank e.2
  le : ∀ e ∈ table, rank e.2 ≤ bound

omit [BEq α] [LawfulBEq α] in
/-- Without a circle the items have ranks that grow along the dependencies. -/
theorem Acyclic.exists_rank (h : Acyclic table) : ∃ rank bound, Ranked table rank bound := by
  classical
  let below (b : α) : Finset α := (Table.keys table).toFinset.filter fun a =>
    Relation.TransGen (fun a b => (a, b) ∈ table) a b
  refine ⟨fun b => (below b).card, (Table.keys table).toFinset.card, fun e he => ?_, fun e he => ?_⟩
  · refine Finset.card_lt_card ((Finset.ssubset_iff_of_subset ?_).mpr ⟨e.1, ?_, ?_⟩)
    · intro a ha
      obtain ⟨hkey, hpath⟩ := Finset.mem_filter.mp ha
      exact Finset.mem_filter.mpr ⟨hkey, hpath.tail he⟩
    · exact Finset.mem_filter.mpr
        ⟨mem_toFinset.mpr (mem_map_of_mem he), Relation.TransGen.single he⟩
    · exact fun hmem => h e.1 (Finset.mem_filter.mp hmem).2
  · exact Finset.card_le_card (Finset.filter_subset _ _)

omit [BEq α] [LawfulBEq α] in
theorem acyclic_of_rank (rank : α → Nat) (h : ∀ e ∈ table, rank e.1 < rank e.2) : Acyclic table := by
  intro a hpath
  have hlt : ∀ b, Relation.TransGen (fun a b => (a, b) ∈ table) a b → rank a < rank b := by
    intro b hpath
    induction hpath with
    | single hab => exact h _ hab
    | tail _ hbc ih => exact ih.trans (h _ hbc)
  exact Nat.lt_irrefl _ (hlt a hpath)

open Classical in
/-- The weights of all broken dependencies. -/
noncomputable def disorder (table : Table α α) (weight : α × α → Nat) (xs : List α) : Nat :=
  ∑ e ∈ table.toFinset, if Broken xs e then weight e else 0

omit [BEq α] [LawfulBEq α] in
/-- A move that sets a dependency right, and breaks at most one that weighs less, lessens the disorder. -/
theorem disorder_lt {weight : α × α → Nat} {fixed : α × α} (hfixed : fixed ∈ table)
    (hbroken : Broken xs fixed) (hright : ¬Broken ys fixed) (hweight : 0 < weight fixed)
    (hless : ∀ e ∈ table, Broken ys e → ¬Broken xs e → weight e < weight fixed)
    (hone : ∀ e ∈ table, ∀ e' ∈ table, Broken ys e → ¬Broken xs e → Broken ys e' → ¬Broken xs e' →
      e = e') :
    disorder table weight ys < disorder table weight xs := by
  classical
  have hmem := mem_toFinset.mpr hfixed
  unfold disorder
  by_cases hnew : ∃ e ∈ table, Broken ys e ∧ ¬Broken xs e
  · obtain ⟨new, hnew, hys, hxs⟩ := hnew
    have hsum : ∑ e ∈ table.toFinset, ((if Broken ys e then weight e else 0) +
          if e = fixed then weight e else 0) ≤
        ∑ e ∈ table.toFinset, ((if Broken xs e then weight e else 0) +
          if e = new then weight e else 0) := by
      refine Finset.sum_le_sum fun e he => ?_
      rw [mem_toFinset] at he
      by_cases he' : e = fixed
      · simp [he', hright, hbroken]
      · by_cases hbe : Broken ys e <;> by_cases hbx : Broken xs e <;> simp [he', hbe, hbx]
        simp [hone e he new hnew hbe hbx hys hxs]
    rw [Finset.sum_add_distrib, Finset.sum_add_distrib, Finset.sum_ite_eq', Finset.sum_ite_eq',
      if_pos hmem, if_pos (mem_toFinset.mpr hnew)] at hsum
    have := hless new hnew hys hxs
    omega
  · refine Finset.sum_lt_sum (fun e he => ?_) ⟨fixed, hmem, by simpa [hright, hbroken]⟩
    by_cases hbe : Broken ys e
    · have hbx : Broken xs e := by
        by_contra hbx
        exact hnew ⟨e, mem_toFinset.mp he, hbe, hbx⟩
      simp [hbe, hbx]
    · simp [hbe]

omit [BEq α] [LawfulBEq α] in
theorem disorder_le {weight : α × α → Nat}
    (h : ∀ e ∈ table, Broken ys e → ¬Broken xs e → weight e = 0) :
    disorder table weight ys ≤ disorder table weight xs := by
  classical
  refine Finset.sum_le_sum fun e he => ?_
  by_cases hys : Broken ys e
  · by_cases hxs : Broken xs e
    · simp [hys, hxs]
    · simp [hys, hxs, h e (mem_toFinset.mp he) hys hxs]
  · simp [hys]

open Classical in
/-- Dependencies on a first key weigh more the later they stand. -/
noncomputable def firsts (table : Table α α) (rank : α → Nat) (e : α × α) : Nat :=
  if firstKey? table e.2 = some e.1 then rank e.2 + 1 else 0

open Classical in
/-- The other dependencies weigh more the earlier they stand. -/
noncomputable def others (table : Table α α) (rank : α → Nat) (bound : Nat) (e : α × α) : Nat :=
  if firstKey? table e.2 = some e.1 then 0 else bound - rank e.2 + 1

variable {rank : α → Nat} {bound : Nat}

/-- A value that goes behind one of its keys can break only its own, later dependency. -/
theorem Ranked.late_lt (hr : Ranked table rank bound)
    (hkeys : (Table.keys table).Nodup) (hn : (before ++ v :: (between ++ a :: behind)).Nodup)
    (rule : (a, v) ∈ table) (other : firstKey? table v ≠ some a) :
    disorder table (others table rank bound)
        (before ++ between ++ a :: (behind.take 1 ++ v :: behind.drop 1)) <
      disorder table (others table rank bound) (before ++ v :: (between ++ a :: behind)) := by
  obtain ⟨hright, hnew⟩ := broken_late hn
  have hweight : others table rank bound (a, v) = bound - rank v + 1 := if_neg other
  refine disorder_lt rule (broken_append (by simp)) hright (by omega) ?_ ?_
  · intro e he hbroken hxs
    obtain rfl := (hnew e hbroken).resolve_left hxs
    have hlt := hr.lt e he
    have hle := hr.le e he
    have : others table rank bound e ≤ bound - rank e.2 + 1 := by
      unfold others
      split <;> omega
    omega
  · intro e he e' he' hbroken hxs hbroken' hxs'
    have hkey := (hnew e hbroken).resolve_left hxs
    have hkey' := (hnew e' hbroken').resolve_left hxs'
    exact inj_on_of_nodup_map hkeys he he' (hkey.trans hkey'.symm)

/-- A key that goes before its value can break only its dependency on its one, earlier key. -/
theorem Ranked.early_lt (hr : Ranked table rank bound)
    (hkeys : (Table.keys table).Nodup) (hunforked : Unforked table)
    (hn : (before ++ v :: (between ++ a :: behind)).Nodup) (first : firstKey? table v = some a) :
    disorder table (others table rank bound) (before ++ a :: v :: (between ++ behind)) ≤
        disorder table (others table rank bound) (before ++ v :: (between ++ a :: behind)) ∧
      disorder table (firsts table rank) (before ++ a :: v :: (between ++ behind)) <
        disorder table (firsts table rank) (before ++ v :: (between ++ a :: behind)) := by
  obtain ⟨hright, hnew⟩ := broken_early hn
  have rule := firstKey?_eq_some first
  have hkey : ∀ e ∈ table, Broken (before ++ a :: v :: (between ++ behind)) e →
      ¬Broken (before ++ v :: (between ++ a :: behind)) e →
        e.2 = a ∧ firstKey? table e.2 = some e.1 := by
    intro e he hbroken hxs
    have hne : e.1 ≠ a := by
      intro heq
      have : e = (a, v) := inj_on_of_nodup_map hkeys he rule heq
      exact hright (this ▸ hbroken)
    have hvalue := (hnew e hne hbroken).resolve_left hxs
    obtain ⟨b, hb⟩ := exists_firstKey he
    have : b = e.1 := hunforked _ rule first _ (firstKey?_eq_some hb) e he hvalue hvalue
    exact ⟨hvalue, hb.trans (congrArg some this)⟩
  refine ⟨disorder_le fun e he hbroken hxs => if_pos (hkey e he hbroken hxs).2, ?_⟩
  have hweight : firsts table rank (a, v) = rank v + 1 := if_pos first
  refine disorder_lt rule (broken_append (by simp)) hright (by omega) ?_ ?_
  · intro e he hbroken hxs
    obtain ⟨rfl, hfirst⟩ := hkey e he hbroken hxs
    have : rank e.2 < rank v := hr.lt _ rule
    have : firsts table rank e = rank e.2 + 1 := if_pos hfirst
    omega
  · intro e he e' he' hbroken hxs hbroken' hxs'
    obtain ⟨hvalue, -⟩ := hkey e he hbroken hxs
    obtain ⟨hvalue', -⟩ := hkey e' he' hbroken' hxs'
    exact Prod.ext (hunforked _ rule first e he e' he' hvalue hvalue') (hvalue.trans hvalue'.symm)

/-! ### The answer -/

/-- Without forks the search ends: one kind of move lessens the disorder of the other dependencies, and
the other kind that of the dependencies on first keys. -/
theorem exists_endsIn (hkeys : (Table.keys table).Nodup) (hacyclic : Acyclic table)
    (hunforked : Unforked table) (hn : xs.Nodup) : ∃ k zs, EndsIn { table := table } k xs zs := by
  obtain ⟨rank, bound, hr⟩ := hacyclic.exists_rank
  suffices key : ∀ (s t : Nat) (xs : List α), xs.Nodup →
      disorder table (others table rank bound) xs = s → disorder table (firsts table rank) xs = t →
        ∃ k zs, EndsIn { table := table } k xs zs from
    key _ _ xs hn rfl rfl
  intro s
  induction s using Nat.strong_induction_on with
  | _ s ihs =>
    intro t
    induction t using Nat.strong_induction_on with
    | _ t iht =>
      rintro xs hn rfl rfl
      cases hmove : Rules.firstMove { table := table } xs with
      | none => exact ⟨0, xs, .stop hmove⟩
      | some ys =>
        have hys := (Rules.firstMove_perm hmove).nodup_iff.mpr hn
        suffices hends : ∃ k zs, EndsIn { table := table } k ys zs by
          obtain ⟨k, zs, hrest⟩ := hends
          exact ⟨k + 1, zs, .move hmove hrest⟩
        cases step_of_firstMove hkeys hn hmove with
        | late rule other => exact ihs _ (hr.late_lt hkeys hn rule other) _ _ hys rfl rfl
        | early first =>
          obtain ⟨hle, hlt⟩ := hr.early_lt hkeys hunforked hn first
          rcases hle.lt_or_eq with hless | heq
          · exact ihs _ hless _ _ hys rfl rfl
          · exact iht _ hlt _ hys heq rfl

/-- The answer has every key and every value once.  It respects all dependencies if and only if the
search ends, as it does if no item with several keys is the first key of its value. -/
theorem dependency_order (table : Table α α) (hkeys : (Table.keys table).Nodup)
    (hacyclic : Acyclic table) :
    (order table).Nodup ∧ (∀ a, a ∈ order table ↔ ∃ e ∈ table, a = e.1 ∨ a = e.2) ∧
      ((∀ e ∈ table, (order table).idxOf e.1 < (order table).idxOf e.2) ↔ Ends table) ∧
      (Unforked table → Ends table) := by
  obtain ⟨hitems, hmem⟩ := items_nodup table
  have hperm := order_perm table
  have hn : (order table).Nodup := hperm.nodup_iff.mpr hitems
  have hall : ∀ a, a ∈ order table ↔ ∃ e ∈ table, a = e.1 ∨ a = e.2 := fun a =>
    hperm.mem_iff.trans (hmem a)
  have hself : ∀ e ∈ table, e.1 ≠ e.2 := by
    rintro ⟨a, v⟩ he heq
    obtain rfl : a = v := heq
    exact hacyclic a (Relation.TransGen.single he)
  refine ⟨hn, hall, ?_, fun hunforked => exists_endsIn hkeys hacyclic hunforked hitems⟩
  rw [ends_iff, Rules.firstMove_eq_none_iff hkeys hself (fun e he => ?_) hn]
  exact ⟨(hall _).mpr ⟨e, he, .inl rfl⟩, (hall _).mpr ⟨e, he, .inr rfl⟩⟩

/-- Two chains that meet in one item. -/
theorem dependency_order_meeting :
    order [(3, 4), (1, 2), (2, 4), (0, 1)] = [3, 0, 1, 2, 4] ∧
      ∀ e ∈ [(3, 4), (1, 2), (2, 4), (0, 1)],
        (order [(3, 4), (1, 2), (2, 4), (0, 1)]).idxOf e.1 <
          (order [(3, 4), (1, 2), (2, 4), (0, 1)]).idxOf e.2 := by
  obtain ⟨-, -, hiff, hends⟩ := dependency_order [(3, 4), (1, 2), (2, 4), (0, 1)] (by decide)
    (acyclic_of_rank id (by decide))
  have hunforked : Unforked [(3, 4), (1, 2), (2, 4), (0, 1)] := by
    unfold Unforked
    decide
  exact ⟨by decide, hiff.mpr (hends hunforked)⟩

/-- An item with two keys that is the first key of its value can go to and fro for ever:  `1` goes
before `0`, and then behind `3` again. -/
theorem forked_never_ends :
    Acyclic [(1, 0), (2, 1), (3, 1)] ∧ ¬Ends [(1, 0), (2, 1), (3, 1)] := by
  refine ⟨acyclic_of_rank (3 - ·) (by decide), ?_⟩
  have hround : ∀ k zs, ¬EndsIn { table := [(1, 0), (2, 1), (3, 1)] } k [2, 1, 0, 3] zs := by
    intro k
    induction k using Nat.strong_induction_on with
    | _ k ih =>
      intro zs h
      obtain ⟨j, hj, h⟩ := h.next (show Rules.firstMove _ _ = some [2, 0, 3, 1] by decide)
      obtain ⟨i, hi, h⟩ := h.next (show Rules.firstMove _ _ = some [2, 1, 0, 3] by decide)
      exact ih i (by omega) zs h
  rintro ⟨k, zs, h⟩
  obtain ⟨_, -, h⟩ := h.next (show Rules.firstMove _ _ = some [1, 0, 2, 3] by decide)
  obtain ⟨_, -, h⟩ := h.next (show Rules.firstMove _ _ = some [2, 1, 0, 3] by decide)
  exact hround _ _ h

end RegisterMap.Dependency
