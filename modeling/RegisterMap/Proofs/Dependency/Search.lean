import Mathlib.Data.List.Permutation
import Mathlib.Data.List.TakeWhile
import Mathlib.Logic.Relation
import RegisterMap.Dependency
import RegisterMap.Proofs.Table

/-! # The search for an order

The search moves one item at a time and loses none (`order_perm`).  It stops exactly at the orders in
which every key stands before its value (`Rules.firstMove_eq_none_iff`).  Its bound is no limit: a
search that ends meets no order twice, so it ends before the bound (`EndsIn.le_passBound`, `ends_iff`). -/

namespace RegisterMap.Dependency

open List

variable {α : Type} [BEq α]

omit [BEq α] in
theorem move_perm (xs : List α) (source target : Nat) : (move xs source target).Perm xs := by
  unfold move
  cases hget : xs[source]? with
  | none => exact List.Perm.refl _
  | some x =>
    obtain ⟨hlt, rfl⟩ := List.getElem?_eq_some_iff.mp hget
    have hlength := length_eraseIdx_of_lt hlt
    exact (perm_insertIdx _ _ (by omega)).trans (getElem_cons_eraseIdx_perm hlt)

namespace Rules

variable {rules : Rules α} {xs ys : List α}

theorem moveAt_perm {n : Nat} (h : rules.moveAt xs n = some ys) : ys.Perm xs := by
  unfold moveAt at h
  obtain ⟨here, -, h⟩ := Option.bind_eq_some_iff.mp h
  dsimp only at h
  split at h
  · rename_i moved hlate
    obtain rfl := Option.some.inj h
    obtain ⟨after, -, hlate⟩ := Option.bind_eq_some_iff.mp hlate
    obtain ⟨place, -, hlate⟩ := Option.bind_eq_some_iff.mp hlate
    split at hlate
    · rw [← Option.some.inj hlate]
      exact move_perm _ _ _
    · cases hlate
  · obtain ⟨rule, -, h⟩ := Option.bind_eq_some_iff.mp h
    obtain ⟨place, -, h⟩ := Option.bind_eq_some_iff.mp h
    split at h
    · rw [← Option.some.inj h]
      exact move_perm _ _ _
    · cases h

theorem firstMove_perm (h : rules.firstMove xs = some ys) : ys.Perm xs := by
  obtain ⟨n, -, hn⟩ := exists_of_findSome?_eq_some h
  exact moveAt_perm hn

theorem passes_perm (fuel : Nat) (xs : List α) : ∀ ys ∈ rules.passes fuel xs, ys.Perm xs := by
  induction fuel generalizing xs with
  | zero => simp [passes]
  | succ fuel ih =>
    intro ys hys
    unfold passes at hys
    split at hys
    · rename_i moved hmove
      rcases mem_cons.mp hys with rfl | hys
      · exact firstMove_perm hmove
      · exact (ih moved ys hys).trans (firstMove_perm hmove)
    · cases hys

theorem last_perm (rules : Rules α) : rules.last.Perm rules.items := by
  unfold last orders
  cases h : (rules.items :: rules.passes rules.passBound rules.items).getLast? with
  | none => cases getLast?_eq_none_iff.mp h
  | some ys =>
    rcases mem_cons.mp (mem_of_getLast? h) with rfl | hys
    · exact List.Perm.refl _
    · exact passes_perm _ _ ys hys

end Rules

theorem order_perm (table : Table α α) : (order table).Perm (Rules.items { table := table }) :=
  Rules.last_perm _

/-! ### The end of the search -/

/-- A search from an order ends at an order after a number of moves. -/
inductive EndsIn (rules : Rules α) : Nat → List α → List α → Prop
  | stop {xs : List α} (h : rules.firstMove xs = none) : EndsIn rules 0 xs xs
  | move {k : Nat} {xs ys zs : List α} (h : rules.firstMove xs = some ys)
      (rest : EndsIn rules k ys zs) : EndsIn rules (k + 1) xs zs

/-- The search for an order ends. -/
def Ends (table : Table α α) : Prop :=
  ∃ k zs, EndsIn { table := table } k (Rules.items { table := table }) zs

namespace EndsIn

variable {rules : Rules α} {xs ys zs ws : List α} {k l : Nat}

section

variable (h : EndsIn rules k xs zs)

include h

theorem next (hmove : rules.firstMove xs = some ys) :
    ∃ j < k, EndsIn rules j ys zs := by
  cases h with
  | stop hstop => rw [hstop] at hmove; cases hmove
  | @move j _ _ _ hmove' rest =>
    obtain rfl := Option.mem_unique hmove hmove'
    exact ⟨j, Nat.lt_succ_self j, rest⟩

theorem unique (h' : EndsIn rules l xs ws) : k = l ∧ zs = ws := by
  induction h generalizing l with
  | stop hstop =>
    cases h' with
    | stop => exact ⟨rfl, rfl⟩
    | move hmove => rw [hstop] at hmove; cases hmove
  | move hmove _ ih =>
    cases h' with
    | stop hstop => rw [hstop] at hmove; cases hmove
    | move hmove' rest =>
      obtain rfl := Option.mem_unique hmove hmove'
      obtain ⟨rfl, rfl⟩ := ih rest
      exact ⟨rfl, rfl⟩

theorem stops : rules.firstMove zs = none := by
  induction h with
  | stop hstop => exact hstop
  | move _ _ ih => exact ih

/-- The orders that a search goes through are told apart by the number of moves that are left. -/
theorem passes {fuel : Nat} (hfuel : k ≤ fuel) :
    (xs :: rules.passes fuel xs).getLast? = some zs ∧ (rules.passes fuel xs).length = k ∧
      (xs :: rules.passes fuel xs).Nodup ∧
      ∀ ys ∈ rules.passes fuel xs, ∃ j < k, EndsIn rules j ys zs := by
  induction h generalizing fuel with
  | stop hstop =>
    have hnil : ∀ xs, rules.firstMove xs = none → rules.passes fuel xs = [] := by
      intro xs hstop
      cases fuel with
      | zero => rfl
      | succ fuel => rw [Rules.passes, hstop]
    rw [hnil _ hstop]
    simp
  | @move k xs ys zs hmove rest ih =>
    obtain ⟨fuel, rfl⟩ : ∃ f, fuel = f + 1 := ⟨fuel - 1, by omega⟩
    obtain ⟨hlast, hlength, hnodup, hleft⟩ := ih (Nat.le_of_succ_le_succ hfuel)
    have hpasses : rules.passes (fuel + 1) xs = ys :: rules.passes fuel ys := by
      rw [Rules.passes, hmove]
    have hless : ∀ ws ∈ ys :: rules.passes fuel ys, ∃ j < k + 1, EndsIn rules j ws zs := by
      intro ws hws
      rcases mem_cons.mp hws with rfl | hws
      · exact ⟨k, Nat.lt_succ_self k, rest⟩
      · obtain ⟨j, hj, hends⟩ := hleft ws hws
        exact ⟨j, by omega, hends⟩
    rw [hpasses]
    refine ⟨by rw [getLast?_cons_cons]; exact hlast, by rw [length_cons, hlength],
      nodup_cons.mpr ⟨fun hmem => ?_, hnodup⟩, hless⟩
    obtain ⟨j, hj, hends⟩ := hless xs hmem
    obtain ⟨rfl, -⟩ := hends.unique (.move hmove rest)
    exact Nat.lt_irrefl _ hj

end

/-- A search that ends makes fewer moves than its bound, as no order comes up twice. -/
theorem le_passBound (h : EndsIn rules k rules.items zs) : k ≤ rules.passBound := by
  obtain ⟨-, hlength, hnodup, -⟩ := h.passes (Nat.le_refl k)
  have hsubset : rules.items :: rules.passes k rules.items ⊆ rules.items.permutations := by
    intro ys hys
    refine mem_permutations.mpr ?_
    rcases mem_cons.mp hys with rfl | hys
    · exact List.Perm.refl _
    · exact Rules.passes_perm _ _ ys hys
  have hle := (subperm_of_subset hnodup hsubset).length_le
  rw [length_permutations, length_cons, hlength] at hle
  calc k ≤ rules.items.length.factorial := by omega
    _ ≤ rules.passBound := Nat.factorial_le_pow _

theorem of_passes {fuel : Nat} (hlast : (xs :: rules.passes fuel xs).getLast? = some zs)
    (hstop : rules.firstMove zs = none) : ∃ k, EndsIn rules k xs zs := by
  induction fuel generalizing xs with
  | zero =>
    obtain rfl : xs = zs := by simpa [Rules.passes] using hlast
    exact ⟨0, .stop hstop⟩
  | succ fuel ih =>
    rw [Rules.passes] at hlast
    split at hlast
    · rename_i ys hmove
      rw [getLast?_cons_cons] at hlast
      obtain ⟨k, hends⟩ := ih hlast
      exact ⟨k + 1, .move hmove hends⟩
    · obtain rfl : xs = zs := by simpa using hlast
      exact ⟨0, .stop hstop⟩

theorem last_eq (h : EndsIn rules k rules.items zs) : rules.last = zs := by
  rw [Rules.last, Rules.orders, (h.passes h.le_passBound).1]
  rfl

end EndsIn

/-- The search ends if and only if its answer asks for no move. -/
theorem ends_iff (table : Table α α) :
    Ends table ↔ Rules.firstMove { table := table } (order table) = none := by
  constructor
  · rintro ⟨k, zs, h⟩
    rw [order, h.last_eq]
    exact h.stops
  · intro hstop
    obtain ⟨k, h⟩ := EndsIn.of_passes (getLast?_eq_some_getLast (by simp)) (by
      rwa [order, Rules.last, Rules.orders, getLast?_eq_some_getLast (by simp)] at hstop)
    exact ⟨k, _, h⟩

variable [LawfulBEq α]

/-! ### The items -/

theorem addNew_nodup {xs : List α} (h : xs.Nodup) (x : α) : (addNew xs x).Nodup := by
  unfold addNew
  split
  · exact h
  · rename_i hx
    refine nodup_append.mpr ⟨h, nodup_singleton x, ?_⟩
    rintro a ha b hb rfl
    rw [mem_singleton.mp hb] at ha
    exact hx (contains_iff_mem.mpr ha)

theorem mem_addNew {xs : List α} {x a : α} : a ∈ addNew xs x ↔ a ∈ xs ∨ a = x := by
  unfold addNew
  split
  · rename_i hx
    exact ⟨.inl, fun h => h.elim id fun h => h ▸ contains_iff_mem.mp hx⟩
  · simp

theorem items_nodup (table : Table α α) : (Rules.items { table := table }).Nodup ∧
    ∀ a, a ∈ Rules.items { table := table } ↔ ∃ rule ∈ table, a = rule.1 ∨ a = rule.2 := by
  suffices key : ∀ (rules : Table α α) (xs : List α), xs.Nodup →
      (rules.foldl (fun xs rule => addNew (addNew xs rule.2) rule.1) xs).Nodup ∧
      ∀ a, a ∈ rules.foldl (fun xs rule => addNew (addNew xs rule.2) rule.1) xs ↔
        a ∈ xs ∨ ∃ rule ∈ rules, a = rule.1 ∨ a = rule.2 by
    have h := key table [] nodup_nil
    exact ⟨h.1, fun a => (h.2 a).trans (by simp)⟩
  intro rules
  induction rules with
  | nil => exact fun xs hn => ⟨hn, by simp⟩
  | cons rule rules ih =>
    intro xs hn
    obtain ⟨hnodup, hmem⟩ := ih _ (addNew_nodup (addNew_nodup hn rule.2) rule.1)
    refine ⟨hnodup, fun a => (hmem a).trans ?_⟩
    simp only [mem_addNew, exists_mem_cons_iff, or_assoc, or_comm (a := a = rule.1)]

/-! ### What an item asks for -/

/-- No item stands before itself. -/
def Acyclic (table : Table α α) : Prop :=
  ∀ a, ¬Relation.TransGen (fun a b => (a, b) ∈ table) a a

/-- The first of the keys with a value. -/
def firstKey? (table : Table α α) (v : α) : Option α :=
  (table.find? fun rule => rule.2 == v).map Prod.fst

/-- Each item that is the first key of its value has at most one key itself. -/
def Unforked (table : Table α α) : Prop :=
  ∀ e ∈ table, firstKey? table e.2 = some e.1 →
    ∀ p ∈ table, ∀ q ∈ table, p.2 = e.1 → q.2 = e.1 → p.1 = q.1

variable {table : Table α α} {xs ys zs : List α} {n : Nat} {x : α}

theorem firstKey?_eq_some {a v : α} (h : firstKey? table v = some a) : (a, v) ∈ table := by
  obtain ⟨⟨a', v'⟩, hfind, rfl⟩ := Option.map_eq_some_iff.mp h
  have hv : (v' == v) = true := (find?_eq_some_iff_append.mp hfind).1
  exact eq_of_beq hv ▸ mem_of_find?_eq_some hfind

theorem exists_firstKey {a v : α} (h : (a, v) ∈ table) : ∃ b, firstKey? table v = some b := by
  cases hfind : table.find? fun rule => rule.2 == v with
  | none => exact absurd (beq_self_eq_true v) (find?_eq_none.mp hfind (a, v) h)
  | some rule => exact ⟨rule.1, by rw [firstKey?, hfind]; rfl⟩

theorem findIdx?_eq_some_iff {a : α} {place : Nat} :
    xs.findIdx? (· == a) = some place ↔ a ∈ xs ∧ xs.idxOf a = place := by
  rw [findIdx?_eq_some_iff_findIdx_eq, ← idxOf_lt_length_iff]
  exact and_congr_left fun h => by rw [← h]; rfl

namespace Rules

theorem moveAt_eq_some (hx : xs[n]? = some x) (h : moveAt { table := table } xs n = some ys) :
    (∃ v ∈ xs, table.get? x = some v ∧ xs.idxOf v < n ∧ ys = move xs (xs.idxOf v) (n + 1)) ∨
      ∃ a ∈ xs, firstKey? table x = some a ∧ n < xs.idxOf a ∧ ys = move xs (xs.idxOf a) n := by
  simp only [moveAt, hx, Option.bind_eq_bind, Option.bind_some] at h
  split at h
  · rename_i moved hlate
    obtain rfl := Option.some.inj h
    obtain ⟨v, hv, hlate⟩ := Option.bind_eq_some_iff.mp hlate
    obtain ⟨place, hplace, hlate⟩ := Option.bind_eq_some_iff.mp hlate
    obtain ⟨hmem, rfl⟩ := findIdx?_eq_some_iff.mp hplace
    split at hlate
    · rename_i hlt
      exact .inl ⟨v, hmem, (Option.filter_eq_some_iff.mp hv).1, hlt, (Option.some.inj hlate).symm⟩
    · cases hlate
  · obtain ⟨rule, hrule, h⟩ := Option.bind_eq_some_iff.mp h
    obtain ⟨place, hplace, h⟩ := Option.bind_eq_some_iff.mp h
    obtain ⟨hmem, rfl⟩ := findIdx?_eq_some_iff.mp hplace
    split at h
    · rename_i hlt
      refine .inr ⟨rule.1, hmem, ?_, hlt, (Option.some.inj h).symm⟩
      rw [firstKey?, (Option.filter_eq_some_iff.mp hrule).1]
      rfl
    · cases h

/-- An item asks for no move if its value is not before it, nor the first of its keys behind it. -/
theorem moveAt_eq_none_iff (hx : xs[n]? = some x) : moveAt { table := table } xs n = none ↔
    (∀ v ∈ xs, table.get? x = some v → n ≤ xs.idxOf v) ∧
      ∀ a ∈ xs, firstKey? table x = some a → xs.idxOf a ≤ n := by
  constructor
  · intro h
    simp only [moveAt, hx, Option.bind_eq_bind, Option.bind_some] at h
    split at h
    · cases h
    · rename_i hlate
      refine ⟨fun v hv hget => ?_, fun a hmem hfirst => ?_⟩
      · simpa [hget, findIdx?_eq_some_iff.mpr ⟨hv, rfl⟩] using hlate
      · obtain ⟨rule, hfind, rfl⟩ := Option.map_eq_some_iff.mp hfirst
        simpa [hfind, findIdx?_eq_some_iff.mpr ⟨hmem, rfl⟩] using h
  · rintro ⟨hlate, hearly⟩
    cases h : moveAt { table := table } xs n with
    | none => rfl
    | some ys =>
      rcases moveAt_eq_some hx h with ⟨v, hv, hget, hlt, -⟩ | ⟨a, hmem, hfirst, hlt, -⟩
      · exact absurd hlt (Nat.not_lt.mpr (hlate v hv hget))
      · exact absurd hlt (Nat.not_lt.mpr (hearly a hmem hfirst))

omit [LawfulBEq α] in
theorem firstMove_eq (xs : List α) :
    firstMove { table := table } xs = (List.range xs.length).findSome? (moveAt { table := table } xs) := by
  rw [firstMove, takeWhile_eq_self_iff.mpr fun _ _ => rfl]

/-- The search stops at the orders in which every key stands before its value. -/
theorem firstMove_eq_none_iff (hkeys : (Table.keys table).Nodup) (hself : ∀ e ∈ table, e.1 ≠ e.2)
    (hxs : ∀ e ∈ table, e.1 ∈ xs ∧ e.2 ∈ xs) (hn : xs.Nodup) :
    firstMove { table := table } xs = none ↔ ∀ e ∈ table, xs.idxOf e.1 < xs.idxOf e.2 := by
  rw [firstMove_eq, findSome?_eq_none_iff]
  constructor
  · rintro h ⟨a, v⟩ he
    obtain ⟨ha, hv⟩ := hxs _ he
    have hlt := idxOf_lt_length_iff.mpr ha
    have hnone := h _ (mem_range.mpr hlt)
    have hle := ((moveAt_eq_none_iff (List.getElem?_eq_some_iff.mpr ⟨hlt, List.getElem_idxOf hlt⟩)).mp
      hnone).1 v hv ((Table.get?_eq_some_iff hkeys).mpr he)
    exact lt_of_le_of_ne hle fun heq => hself _ he ((idxOf_inj ha).mp heq)
  · intro h n hlt
    have hx := getElem?_eq_getElem (mem_range.mp hlt)
    refine (moveAt_eq_none_iff hx).mpr ⟨fun v _ hget => ?_, fun a _ hfirst => ?_⟩
    · have := h _ ((Table.get?_eq_some_iff hkeys).mp hget)
      rw [hn.idxOf_getElem] at this
      exact this.le
    · have := h _ (firstKey?_eq_some hfirst)
      rw [hn.idxOf_getElem] at this
      exact this.le

end Rules

end RegisterMap.Dependency
