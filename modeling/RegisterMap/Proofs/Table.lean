import Mathlib.Data.List.Nodup
import Mathlib.Tactic.Common
import RegisterMap.Table

/-! # Tables

Putting a value under a key changes one value or adds one (`Table.put_cases`).

A table that is built from a list of pairs has the keys of the list, each of them once
(`Table.keys_ofPairs_nodup`, `Table.mem_keys_ofPairs`).  Pairs with keys that the table does not have
go to its end (`Table.merge_append`), so a table is the list that it was built from exactly when no key
comes up twice (`Table.ofPairs_eq_self_iff`). -/

namespace RegisterMap.Table

open List

variable {κ α : Type} [BEq κ] {rows t : Table κ α} {k : κ} {v : α} {e : κ × α}

/-! ### One key -/

theorem put_cases (t : Table κ α) (k : κ) (v : α) :
    (get? t k = none ∧ (∀ e ∈ t, (e.1 == k) = false) ∧ put t k v = t ++ [(k, v)]) ∨
      ∃ xs k' old ys, get? t k = some old ∧ t = xs ++ (k', old) :: ys ∧
        put t k v = xs ++ (k', v) :: ys := by
  induction t with
  | nil => exact .inl ⟨rfl, by simp, rfl⟩
  | cons e t ih =>
    obtain ⟨k0, v0⟩ := e
    by_cases hk : (k0 == k) = true
    · exact .inr ⟨[], k0, v0, t, by simp [get?, hk], rfl, by simp [put, hk]⟩
    · rw [Bool.not_eq_true] at hk
      rcases ih with ⟨hget, hkeys, hput⟩ | ⟨xs, k', old, ys, hget, ht, hput⟩
      · refine .inl ⟨by simp [get?, hk, hget], ?_, by simp [put, hk, hput]⟩
        exact forall_mem_cons.mpr ⟨hk, hkeys⟩
      · exact .inr ⟨(k0, v0) :: xs, k', old, ys, by simp [get?, hk, hget], by simp [ht],
          by simp [put, hk, hput]⟩

theorem put_of_get?_eq_none (h : get? t k = none) (v : α) :
    (∀ e ∈ t, (e.1 == k) = false) ∧ put t k v = t ++ [(k, v)] := by
  rcases put_cases t k v with ⟨-, hkeys, hput⟩ | ⟨_, _, _, _, hget, -⟩
  · exact ⟨hkeys, hput⟩
  · rw [h] at hget
    cases hget

theorem mem_values_of_get? (h : get? t k = some v) : v ∈ values t := by
  rcases put_cases t k v with ⟨hget, -⟩ | ⟨xs, k', old, ys, hget, ht, -⟩
  · rw [h] at hget
    cases hget
  · obtain rfl := Option.mem_unique h hget
    rw [ht]
    simp [values]

/-- A value that is found stands in the table under an equal key. -/
theorem mem_of_get? (h : get? t k = some v) : ∃ k', (k', v) ∈ t ∧ (k' == k) = true := by
  induction t with
  | nil => cases h
  | cons e t ih =>
    obtain ⟨k', v'⟩ := e
    rw [get?] at h
    split at h
    · rename_i hk
      obtain rfl := Option.some.inj h
      exact ⟨k', mem_cons_self, hk⟩
    · obtain ⟨k1, hmem, hk⟩ := ih h
      exact ⟨k1, mem_cons_of_mem _ hmem, hk⟩

/-- A pair of a table after a put stood there before, or has the new value under an equal key. -/
theorem mem_put_cases (h : e ∈ put t k v) : e ∈ t ∨ e.2 = v ∧ (e.1 = k ∨ (e.1 == k) = true) := by
  induction t with
  | nil =>
    rw [mem_singleton.mp h]
    exact .inr ⟨rfl, .inl rfl⟩
  | cons e' t ih =>
    obtain ⟨k', v'⟩ := e'
    rw [put] at h
    split at h
    · rename_i hk
      rcases mem_cons.mp h with rfl | h
      · exact .inr ⟨rfl, .inr hk⟩
      · exact .inl (mem_cons_of_mem _ h)
    · rcases mem_cons.mp h with rfl | h
      · exact .inl mem_cons_self
      · exact (ih h).imp_left (mem_cons_of_mem _)

theorem mem_ofPairs {rows : List (κ × α)} (h : e ∈ ofPairs rows) :
    ∃ row ∈ rows, row.2 = e.2 ∧ (e.1 = row.1 ∨ (e.1 == row.1) = true) := by
  have key : ∀ (rows : List (κ × α)) (t : Table κ α), e ∈ merge t rows →
      e ∈ t ∨ ∃ row ∈ rows, row.2 = e.2 ∧ (e.1 = row.1 ∨ (e.1 == row.1) = true) := by
    intro rows
    induction rows with
    | nil => exact fun t h => .inl h
    | cons row rows ih =>
      intro t h
      rcases ih _ h with h | ⟨row', hrow', hrest⟩
      · rcases mem_put_cases h with h | ⟨hv, hk⟩
        · exact .inl h
        · exact .inr ⟨row, mem_cons_self, hv.symm, hk⟩
      · exact .inr ⟨row', mem_cons_of_mem _ hrow', hrest⟩
  exact (key rows [] h).resolve_left (by simp)

theorem values_put_cases (t : Table κ α) (k : κ) (v : α) :
    values (put t k v) = values t ++ [v] ∨
      ∃ xs old ys, values t = xs ++ old :: ys ∧ values (put t k v) = xs ++ v :: ys := by
  unfold values
  rcases put_cases t k v with ⟨-, -, hput⟩ | ⟨xs, k', old, ys, -, ht, hput⟩
  · exact .inl (by rw [hput]; simp)
  · exact .inr ⟨xs.map Prod.snd, old, ys.map Prod.snd, by rw [ht]; simp, by rw [hput]; simp⟩

theorem erase_sublist (t : Table κ α) (k : κ) : (erase t k).Sublist t := by
  induction t with
  | nil => exact List.Sublist.refl _
  | cons e t ih =>
    obtain ⟨k', v⟩ := e
    unfold erase
    split
    · exact sublist_cons_self _ _
    · exact ih.cons_cons _

theorem mem_values_put {a : α} (h : a ∈ values (put t k v)) : a ∈ values t ∨ a = v := by
  rcases values_put_cases t k v with hput | ⟨xs, old, ys, ht, hput⟩
  · rw [hput] at h
    exact (mem_append.mp h).imp_right mem_singleton.mp
  · rw [hput] at h
    rw [ht]
    rcases mem_append.mp h with h | h
    · exact .inl (mem_append_left _ h)
    · rcases mem_cons.mp h with rfl | h
      · exact .inr rfl
      · exact .inl (mem_append_right _ (mem_cons_of_mem _ h))

/-! ### Many keys -/

variable [LawfulBEq κ]

theorem has_iff : t.has k = true ↔ k ∈ t.keys := by
  unfold has
  induction t with
  | nil => simp [get?, keys]
  | cons kv rest ih =>
    obtain ⟨k', v'⟩ := kv
    by_cases h : k' = k
    · simp [get?, keys, h]
    · simpa [get?, keys, h, Ne.symm h] using ih

theorem get?_eq_some_iff (h : t.keys.Nodup) : get? t k = some v ↔ (k, v) ∈ t := by
  induction t with
  | nil => simp [get?]
  | cons e t ih =>
    obtain ⟨k', v'⟩ := e
    obtain ⟨hk', ht⟩ := nodup_cons.mp h
    rw [get?, mem_cons, Prod.mk.injEq]
    split
    · rename_i hk
      obtain rfl := eq_of_beq hk
      have : (k', v) ∉ t := fun hmem => hk' (mem_map.mpr ⟨_, hmem, rfl⟩)
      simp [this, eq_comm]
    · rename_i hk
      have : k ≠ k' := fun heq => hk (beq_iff_eq.mpr heq.symm)
      simp [ih ht, this]

theorem mem_put (h : e ∈ put t k v) : e ∈ t ∨ e = (k, v) := by
  induction t with
  | nil => exact .inr (mem_singleton.mp h)
  | cons e' t ih =>
    obtain ⟨k', v'⟩ := e'
    unfold put at h
    split at h
    · rename_i hk
      rcases mem_cons.mp h with rfl | h
      · exact .inr (by rw [beq_iff_eq.mp hk])
      · exact .inl (mem_cons_of_mem _ h)
    · rcases mem_cons.mp h with rfl | h
      · exact .inl mem_cons_self
      · exact (ih h).imp_left (mem_cons_of_mem _)

theorem get?_eq_none_iff : get? t k = none ↔ k ∉ t.keys := by
  rw [← has_iff, has, Bool.not_eq_true, Option.isSome_eq_false_iff, Option.isNone_iff_eq_none]

theorem exists_split_of_get? (h : get? t k = some v) :
    ∃ xs ys, t = xs ++ (k, v) :: ys ∧ (∀ w, put t k w = xs ++ (k, w) :: ys) ∧ erase t k = xs ++ ys := by
  induction t with
  | nil => cases h
  | cons e t ih =>
    obtain ⟨k', v'⟩ := e
    by_cases hk : k' = k
    · subst hk
      simp only [get?, beq_self_eq_true, if_true, Option.some.injEq] at h
      subst h
      exact ⟨[], t, rfl, fun w => by simp [put], by simp [erase]⟩
    · rw [get?, if_neg (by simpa using hk)] at h
      obtain ⟨xs, ys, ht, hput, herase⟩ := ih h
      refine ⟨(k', v') :: xs, ys, by simp [ht], fun w => ?_, ?_⟩
      · simp [put, hk, hput]
      · simp [erase, hk, herase]

theorem put_append (h : k ∉ t.keys) (u : Table κ α) (v : α) : put (t ++ u) k v = t ++ put u k v := by
  induction t with
  | nil => rfl
  | cons kv rest ih =>
    obtain ⟨k', v'⟩ := kv
    obtain ⟨hne, hrest⟩ := ne_and_not_mem_of_not_mem_cons h
    simp [put, Ne.symm hne, ih hrest]

theorem put_of_not_mem (h : k ∉ t.keys) (v : α) : put t k v = t ++ [(k, v)] := by
  have := put_append h [] v
  rwa [append_nil] at this

theorem keys_put_of_mem (h : k ∈ t.keys) (v : α) : (put t k v).keys = t.keys := by
  induction t with
  | nil => cases h
  | cons kv rest ih =>
    obtain ⟨k', v'⟩ := kv
    by_cases hk : k' = k
    · simp [put, keys, hk]
    · have hrest : k ∈ keys rest := (mem_cons.mp h).resolve_left (Ne.symm hk)
      simpa [put, keys, hk] using ih hrest

theorem mem_keys_put {k' : κ} : k' ∈ (put t k v).keys ↔ k' ∈ t.keys ∨ k' = k := by
  by_cases h : k ∈ t.keys
  · rw [keys_put_of_mem h]
    constructor
    · exact .inl
    · rintro (h' | rfl)
      · exact h'
      · exact h
  · rw [put_of_not_mem h]
    simp [keys]

theorem keys_put_nodup (h : t.keys.Nodup) (k : κ) (v : α) : (put t k v).keys.Nodup := by
  by_cases hk : k ∈ t.keys
  · rwa [keys_put_of_mem hk]
  · rw [put_of_not_mem hk]
    unfold keys at h hk ⊢
    rw [map_append]
    exact List.Nodup.append h (nodup_singleton k) (by simpa using hk)

theorem merge_append (u rows : Table κ α) (h : ∀ k ∈ rows.keys, k ∉ t.keys) :
    merge (t ++ u) rows = t ++ merge u rows := by
  induction rows generalizing u with
  | nil => rfl
  | cons kv rows ih =>
    have hk := h kv.1 mem_cons_self
    have hrest := ih (put u kv.1 kv.2) fun k hk => h k (mem_cons_of_mem _ hk)
    rw [← put_append hk] at hrest
    exact hrest

theorem merge_eq_append (h : ∀ k ∈ rows.keys, k ∉ t.keys) : merge t rows = t ++ ofPairs rows := by
  have := merge_append [] rows h
  rwa [append_nil] at this

omit [LawfulBEq κ] in
theorem ofPairs_append (rows more : Table κ α) :
    ofPairs (rows ++ more) = merge (ofPairs rows) more :=
  foldl_append

theorem keys_merge_nodup (h : t.keys.Nodup) (rows : Table κ α) : (merge t rows).keys.Nodup := by
  induction rows generalizing t with
  | nil => exact h
  | cons kv rows ih => exact ih (keys_put_nodup h kv.1 kv.2)

theorem keys_ofPairs_nodup (rows : Table κ α) : (ofPairs rows).keys.Nodup :=
  keys_merge_nodup (t := []) nodup_nil rows

theorem mem_keys_merge : k ∈ (merge t rows).keys ↔ k ∈ t.keys ∨ k ∈ rows.keys := by
  induction rows generalizing t with
  | nil => simp [merge, keys]
  | cons kv rows ih =>
    have := ih (t := put t kv.1 kv.2)
    rw [mem_keys_put, or_assoc] at this
    rw [show keys (kv :: rows) = kv.1 :: keys rows from rfl, mem_cons]
    exact this

theorem mem_keys_ofPairs : k ∈ (ofPairs rows).keys ↔ k ∈ rows.keys := by
  unfold ofPairs
  rw [mem_keys_merge]
  simp [keys]

theorem ofPairs_eq_self (h : rows.keys.Nodup) : ofPairs rows = rows := by
  induction rows with
  | nil => rfl
  | cons kv rows ih =>
    obtain ⟨hk, hrest⟩ := nodup_cons.mp h
    have happ := merge_append (t := [kv]) [] rows fun k hk' => by
      rintro hk''
      rw [mem_singleton.mp hk''] at hk'
      exact hk hk'
    rw [show merge [] rows = rows from ih hrest] at happ
    exact happ

/-- A table is the list of pairs that it was built from exactly if no key comes up twice. -/
theorem ofPairs_eq_self_iff : ofPairs rows = rows ↔ rows.keys.Nodup := by
  constructor
  · intro h
    rw [← h]
    exact keys_ofPairs_nodup rows
  · exact ofPairs_eq_self

end RegisterMap.Table
