import Mathlib.Data.List.Induction
import Mathlib.Data.List.Perm.Basic
import Mathlib.Data.List.TakeDrop
import RegisterMap.Export.Name
import RegisterMap.Proofs.Export.Flat
import RegisterMap.Proofs.Source.Folder
import RegisterMap.Proofs.Table

/-! # Short names of a map

Names are filed under their last parts, and each last part that several names share is replaced by
longer endings of them.  As long as no two names with different last parts may get the same short name,
no entry is overwritten on the way: after each replacement the files hold every name once (`Filed`). -/

namespace RegisterMap.Export

open Text List

variable {name : String} {n : Nat} {names : List String}

def lastPart (name : String) : String := (split '.' name).getLast?.getD ""

/-- All parts of a dotted name joined by low lines. -/
def fullForm (name : String) : String := join "_" (split '.' name)

/-- The endings of a dotted name joined by low lines, the whole name first. -/
def endings (name : String) : List String :=
  (List.range (split '.' name).length).map fun k => join "_" ((split '.' name).drop k)

/-- The names that have a last part. -/
def sharing (names : List String) (part : String) : List String :=
  names.filter fun name => lastPart name == part

/-- The short names that a name may get: its last part if it is the only one, else any ending. -/
def candidates (names : List String) (name : String) : List String :=
  if (sharing names (lastPart name)).length ≤ 1 then [lastPart name] else endings name

/-- No two names with different last parts may get the same short name. -/
def Uncrossed (names : List String) : Prop :=
  ∀ a ∈ names, ∀ b ∈ names, ∀ short ∈ candidates names a, short ∈ candidates names b → lastPart a = lastPart b

/-- Of the names with the same last part, the last one has as many parts as any. -/
def LastLongest (names : List String) : Prop :=
  ∀ a ∈ names, ∀ b ∈ (sharing names (lastPart a)).getLast?, (split '.' a).length ≤ (split '.' b).length

/-! ### Endings -/

theorem split_ne_nil (sep : Char) (s : String) : split sep s ≠ [] := by
  unfold split
  rw [Ne, map_eq_nil_iff]
  exact splitChars_ne_nil sep s.toList

theorem length_split_pos (sep : Char) (s : String) : 0 < (split sep s).length :=
  length_pos_iff.mpr (split_ne_nil sep s)

theorem slice_suffix {xs : List String} {k : Nat} (hpos : 0 < k) (hle : k ≤ xs.length) :
    slice xs (-k) xs.length = xs.drop (xs.length - k) := by
  have hlo : clampPlace xs.length (-k) = xs.length - k := by
    unfold clampPlace
    rw [if_pos (by omega)]
    omega
  have hhi : clampPlace xs.length xs.length = xs.length := by
    unfold clampPlace
    rw [if_neg (by omega)]
    omega
  unfold slice
  simp only [hlo, hhi]
  rw [take_of_length_le]
  rw [length_drop]

theorem ending_fst (name : String) (n : Nat) :
    (ending name n).1 = join "_" ((split '.' name).drop ((split '.' name).length - (n + 1))) := by
  have hpos := length_split_pos '.' name
  have hplace : -((if ((split '.' name).length : Int) - 1 < n then ((split '.' name).length : Int) - 1 else n) + 1) =
      -((min (split '.' name).length (n + 1) : Nat) : Int) := by
    split <;> omega
  unfold ending
  simp only [hplace]
  rw [slice_suffix (by omega) (Nat.min_le_left _ _)]
  congr 2
  omega

theorem ending_snd (name : String) (n : Nat) : (ending name n).2 = decide ((split '.' name).length ≤ n) := by
  unfold ending
  simp only [decide_eq_decide]
  omega

theorem ending_mem_endings (name : String) (n : Nat) : (ending name n).1 ∈ endings name := by
  have hpos := length_split_pos '.' name
  rw [ending_fst]
  exact mem_map.mpr ⟨_, mem_range.mpr (by omega), rfl⟩

theorem ending_of_length_le (h : (split '.' name).length ≤ n + 1) :
    (ending name n).1 = fullForm name := by
  rw [ending_fst, Nat.sub_eq_zero_of_le h, drop_zero, fullForm]

theorem lastPart_eq (name : String) : lastPart name = (ending name (0 : Nat)).1 := by
  rw [ending_fst, drop_length_sub_one (split_ne_nil '.' name), lastPart,
    getLast?_eq_some_getLast (split_ne_nil '.' name)]
  exact String.intercalate_singleton.symm

theorem length_le_join {parts : List String} (h : parts ≠ []) :
    (parts.getLast h).length + (parts.length - 1) ≤ (join "_" parts).length := by
  induction parts with
  | nil => exact absurd rfl h
  | cons p parts ih =>
    cases parts with
    | nil => simp [join]
    | cons q parts =>
      have hstep : join "_" (p :: q :: parts) = p ++ "_" ++ join "_" (q :: parts) := String.intercalate_cons_cons
      have hrest := ih (cons_ne_nil q parts)
      rw [hstep, getLast_cons (cons_ne_nil q parts), String.length_append, String.length_append]
      have hline : "_".length = 1 := rfl
      simp only [length_cons] at hrest ⊢
      omega

/-- An ending of two parts is longer than the last part, so it is another text. -/
theorem length_eq_one_of_ending (hn : 1 ≤ n) (h : (ending name n).1 = lastPart name) :
    (split '.' name).length = 1 := by
  have hpos := length_split_pos '.' name
  by_contra hne
  have hdrop : (split '.' name).drop ((split '.' name).length - (n + 1)) ≠ [] := by
    rw [Ne, drop_eq_nil_iff]
    omega
  have hlong := length_le_join hdrop
  rw [getLast_drop, length_drop] at hlong
  rw [ending_fst, lastPart, getLast?_eq_some_getLast (split_ne_nil '.' name), Option.getD_some] at h
  rw [h] at hlong
  omega

theorem lastPart_mem_candidates (names : List String) (name : String) :
    lastPart name ∈ candidates names name := by
  unfold candidates
  split
  · exact mem_singleton_self _
  · rw [lastPart_eq]
    exact ending_mem_endings name 0

theorem ending_mem_candidates
    (h : 2 ≤ (sharing names (lastPart name)).length) (n : Nat) : (ending name n).1 ∈ candidates names name := by
  unfold candidates
  rw [if_neg (by omega)]
  exact ending_mem_endings name n

theorem candidates_subset_endings (names : List String) (name : String) : candidates names name ⊆ endings name := by
  unfold candidates
  split
  · intro short hshort
    rw [mem_singleton.mp hshort, lastPart_eq]
    exact ending_mem_endings name 0
  · exact List.Subset.refl _

/-! ### Telling names apart -/

theorem allDistinct_iff {xs : List String} : allDistinct xs = true ↔ xs.Nodup := by
  induction xs with
  | nil => simp [allDistinct]
  | cons x xs ih => simp [allDistinct, ih]

/-- Names that are told apart are replaced by endings of one length, two parts at least. -/
theorem tellApart_ok {shorts : List String} {fuel : Nat} (h : tellApart names fuel n = .ok shorts) :
    ∃ m, n ≤ m ∧ shorts = names.map (fun name => (ending name m).1) ∧ shorts.Nodup := by
  induction fuel generalizing n with
  | zero => cases h
  | succ fuel ih =>
    rw [tellApart] at h
    simp only [map_map] at h
    split at h
    · next hd =>
      cases h
      exact ⟨n, Nat.le_refl n, rfl, allDistinct_iff.mp hd⟩
    · split at h
      · cases h
      · obtain ⟨m, hm, hshorts⟩ := ih h
        exact ⟨m, by omega, hshorts⟩

/-- Names are told apart if some length does it that the last one has parts for. -/
theorem exists_tellApart {fuel m : Nat} (hm : n ≤ m) (hfuel : m - n < fuel)
    (hd : (names.map fun name => (ending name m).1).Nodup)
    (hlast : ∀ b ∈ names.getLast?, m ≤ (split '.' b).length) :
    ∃ shorts, tellApart names fuel n = .ok shorts := by
  induction fuel generalizing n with
  | zero => omega
  | succ fuel ih =>
    rw [tellApart]
    simp only [map_map]
    split
    · exact ⟨_, rfl⟩
    · next hsame =>
      have hlt : n < m := by
        rcases Nat.lt_or_eq_of_le hm with hlt | rfl
        · exact hlt
        · exact absurd (allDistinct_iff.mpr hd) hsame
      have hflag : (((names.map fun name => ending name n).getLast?).map Prod.snd).getD false = false := by
        rw [getLast?_map]
        cases hb : names.getLast? with
        | none => rfl
        | some b =>
          have := hlast b hb
          rw [Option.map_some, Option.map_some, Option.getD_some, ending_snd, decide_eq_false_iff_not]
          omega
      rw [if_neg (by rw [hflag]; exact Bool.false_ne_true)]
      exact ih (by omega) (by omega)

/-! ### Names by their last parts -/

theorem mem_sharing {part : String} :
    name ∈ sharing names part ↔ name ∈ names ∧ lastPart name = part := by
  simp [sharing]

theorem sharing_concat (names : List String) (name part : String) :
    sharing (names ++ [name]) part = sharing names part ++ if lastPart name = part then [name] else [] := by
  unfold sharing
  rw [filter_append, filter_singleton]
  simp

theorem length_sharing (names : List String) (part : String) :
    (sharing names part).length = (names.map lastPart).count part := by
  rw [sharing, List.count, countP_map, countP_eq_length_filter]
  rfl

theorem mem_repeated {part : String} {seen parts : List String} :
    part ∈ repeated seen parts ↔ (part ∈ seen ∧ part ∈ parts) ∨ 2 ≤ parts.count part := by
  induction parts generalizing seen with
  | nil => simp [repeated]
  | cons p parts ih =>
    have hone : part ∈ parts ↔ 1 ≤ parts.count part := by
      rw [Nat.one_le_iff_ne_zero, ← Nat.pos_iff_ne_zero, count_pos_iff]
    rw [repeated]
    by_cases hp : p ∈ seen
    · rw [if_pos (by simpa using hp), mem_cons, ih]
      by_cases heq : part = p
      · simp [heq, hp]
      · simp [heq, count_cons_of_ne (Ne.symm heq)]
    · rw [if_neg (by simpa using hp), ih]
      by_cases heq : part = p
      · subst heq
        simp only [mem_cons, true_or, true_and, count_cons_self, hone]
        constructor
        · rintro (h | h)
          · exact .inr (by omega)
          · exact .inr (by omega)
        · rintro (h | h)
          · exact absurd h.1 hp
          · exact .inl (by omega)
      · simp [heq, count_cons_of_ne (Ne.symm heq)]

/-- Each last part of some names leads to the names that have it. -/
structure Grouped (names : List String) (t : Table String (List String)) : Prop where
  keys : t.keys.Nodup
  all : (t.flatMap Prod.snd).Perm names
  group : ∀ e ∈ t, e.2 = sharing names e.1 ∧ e.2 ≠ []
  complete : ∀ name ∈ names, lastPart name ∈ t.keys

theorem Grouped.get {t : Table String (List String)} (h : Grouped names t) (part : String) :
    (Table.get? t part).getD [] = sharing names part := by
  cases hget : Table.get? t part with
  | none =>
    symm
    refine eq_nil_iff_forall_not_mem.mpr fun name hname => ?_
    obtain ⟨hmem, rfl⟩ := mem_sharing.mp hname
    exact Table.get?_eq_none_iff.mp hget (h.complete name hmem)
  | some group => exact (h.group _ ((Table.get?_eq_some_iff h.keys).mp hget)).1

theorem Grouped.file {t : Table String (List String)} (h : Grouped names t) (name : String) :
    Grouped (names ++ [name]) (Table.update t (lastPart name) [] (· ++ [name])) := by
  have hkeys : (Table.update t (lastPart name) [] (· ++ [name])).keys.Nodup := Table.keys_put_nodup h.keys _ _
  refine ⟨hkeys, ?_, ?_, ?_⟩
  · unfold Table.update
    cases hget : Table.get? t (lastPart name) with
    | none =>
      rw [Table.put_of_not_mem (Table.get?_eq_none_iff.mp hget), flatMap_append]
      simpa using h.all.append_right [name]
    | some old =>
      obtain ⟨xs, ys, rfl, hput, -⟩ := Table.exists_split_of_get? hget
      have hall := h.all.append_right [name]
      rw [hput]
      simp only [flatMap_append, flatMap_cons, Option.getD_some, append_assoc] at hall ⊢
      refine List.Perm.trans ?_ hall
      exact .append_left _ (.append_left _ perm_append_comm)
  · intro e he
    have hget := (Table.get?_eq_some_iff hkeys).mpr he
    unfold Table.update at hget
    by_cases hpart : lastPart name = e.1
    · rw [hpart, Table.get?_put_self, Option.some.injEq, h.get] at hget
      rw [← hget, sharing_concat, if_pos hpart]
      exact ⟨rfl, by simp⟩
    · rw [Table.get?_put_of_ne _ _ hpart] at hget
      rw [sharing_concat, if_neg hpart, append_nil]
      exact h.group e ((Table.get?_eq_some_iff h.keys).mp hget)
  · intro a ha
    refine Table.mem_keys_put.mpr ?_
    rcases mem_append.mp ha with ha | ha
    · exact .inl (h.complete a ha)
    · exact .inr (by rw [mem_singleton.mp ha])

theorem grouped_byLastPart (names : List String) : Grouped names (byLastPart names) := by
  induction names using List.reverseRecOn with
  | nil => exact ⟨nodup_nil, .nil, by simp [byLastPart], by simp⟩
  | append_singleton names name ih =>
    have hstep : byLastPart (names ++ [name]) =
        Table.update (byLastPart names) (lastPart name) [] (· ++ [name]) := by
      unfold byLastPart
      rw [foldl_append]
      rfl
    rw [hstep]
    exact ih.file name

/-! ### Filed names -/

/-- Names in the course of the replacements: a file holds all names with a last part, still to be
replaced if there are several, or one of these under a longer ending. -/
structure Filed (names todo : List String) (t : Table String (List String)) : Prop where
  keys : t.keys.Nodup
  all : (t.flatMap Prod.snd).Perm names
  file : ∀ e ∈ t, (e.2 = sharing names e.1 ∧ e.2 ≠ [] ∧ (2 ≤ e.2.length → e.1 ∈ todo)) ∨
    ∃ name, ∃ n : Nat, 1 ≤ n ∧ 2 ≤ (sharing names (lastPart name)).length ∧ e = ((ending name n).1, [name])

theorem filed_byLastPart (names : List String) :
    Filed names (repeated [] (names.map lastPart)) (byLastPart names) := by
  have h := grouped_byLastPart names
  refine ⟨h.keys, h.all, fun e he => .inl ⟨(h.group e he).1, (h.group e he).2, fun hlen => ?_⟩⟩
  rw [(h.group e he).1, length_sharing] at hlen
  exact mem_repeated.mpr (.inr hlen)

section

variable {names todo : List String} {t : Table String (List String)} {name part : String}
  {xs ys : Table String (List String)} {e : String × List String} {longs : List String}

section

variable (h : Filed names todo t) (he : e ∈ t)

include h he

theorem Filed.mem_names (hname : name ∈ e.2) : name ∈ names :=
  h.all.subset (mem_flatMap.mpr ⟨e, he, hname⟩)

theorem Filed.ne_nil : e.2 ≠ [] := by
  rcases h.file e he with ⟨-, hne, -⟩ | ⟨name, n, -, -, rfl⟩
  · exact hne
  · exact cons_ne_nil _ _

theorem Filed.candidate (hname : name ∈ e.2) : e.1 ∈ candidates names name := by
  rcases h.file e he with ⟨hgroup, -⟩ | ⟨name, n, -, hshared, rfl⟩
  · rw [hgroup] at hname
    rw [← (mem_sharing.mp hname).2]
    exact lastPart_mem_candidates names name
  · rw [mem_singleton.mp hname]
    exact ending_mem_candidates hshared n

end

/-- The names of the file of a shared last part share their own last part. -/
theorem Filed.shared (h : Filed names todo t)
    (hpart : 2 ≤ (sharing names part).length) (he : (part, longs) ∈ t) (hname : name ∈ longs) :
    2 ≤ (sharing names (lastPart name)).length := by
  rcases h.file _ he with ⟨hgroup, -⟩ | ⟨name', n, -, hshared, heq⟩
  · have hgroup : longs = sharing names part := hgroup
    rw [hgroup] at hname
    rwa [(mem_sharing.mp hname).2]
  · cases heq
    rwa [mem_singleton.mp hname]

section

variable (h : Filed names todo (xs ++ (part, longs) :: ys))

include h

theorem Filed.around :
    (longs ++ (xs ++ ys).flatMap Prod.snd).Perm names := by
  refine List.Perm.trans ?_ h.all
  rw [flatMap_append, flatMap_append, flatMap_cons]
  exact perm_append_comm_assoc _ _ _

theorem Filed.key_fresh : part ∉ Table.keys (xs ++ ys) := by
  have hkeys := h.keys
  unfold Table.keys at hkeys ⊢
  rw [map_append, map_cons] at hkeys
  rw [map_append]
  exact (nodup_middle.mp hkeys).notMem

/-- A longer ending of a name of one file is not the key of another file. -/
theorem Filed.fresh (hnames : names.Nodup) (huncrossed : Uncrossed names)
    (hpart : 2 ≤ (sharing names part).length) {m : Nat} (hm : 1 ≤ m) (hname : name ∈ longs) :
    (ending name m).1 ∉ Table.keys (xs ++ ys) := by
  intro hmem
  obtain ⟨e, he, hkey⟩ := mem_map.mp hmem
  have hin : (part, longs) ∈ xs ++ (part, longs) :: ys := by simp
  have heIn : e ∈ xs ++ (part, longs) :: ys := by
    rcases mem_append.mp he with he | he <;> simp [he]
  obtain ⟨b, hb⟩ := exists_mem_of_ne_nil _ (h.ne_nil heIn)
  have hlast : lastPart name = lastPart b := by
    refine huncrossed name (h.mem_names hin hname) b (h.mem_names heIn hb) (ending name m).1
      (ending_mem_candidates (h.shared hpart hin hname) m) ?_
    rw [← hkey]
    exact h.candidate heIn hb
  rcases h.file _ hin with ⟨hgroup, -⟩ | ⟨name', n, hn, -, heq⟩
  · -- the file holds all names with its last part, so the other name would be in two files
    have hgroup : longs = sharing names part := hgroup
    have hpartname := (mem_sharing.mp (hgroup ▸ hname)).2
    have hblongs : b ∈ longs := by
      rw [hgroup]
      exact mem_sharing.mpr ⟨h.mem_names heIn hb, hlast.symm.trans hpartname⟩
    have hdisjoint := disjoint_of_nodup_append (h.around.nodup_iff.mpr hnames)
    exact hdisjoint hblongs (mem_flatMap.mpr ⟨e, he, hb⟩)
  · -- the file holds one name with one part only, which has no longer ending
    cases heq
    obtain rfl := mem_singleton.mp hname
    obtain ⟨c, hc⟩ := exists_mem_of_length_pos (Nat.lt_of_lt_of_le Nat.zero_lt_two hpart)
    obtain ⟨hc, hclast⟩ := mem_sharing.mp hc
    have hname' : lastPart name = (ending name n).1 := by
      refine (huncrossed name (h.mem_names hin hname) c hc _ (h.candidate hin hname) ?_).trans hclast
      rw [← hclast]
      exact lastPart_mem_candidates names c
    have hone := length_eq_one_of_ending hn hname'.symm
    refine h.key_fresh (mem_map.mpr ⟨e, he, ?_⟩)
    rw [hkey, ending_of_length_le (by omega), ending_of_length_le (by omega)]

end

theorem Filed.replace
    (h : Filed names (part :: todo) (xs ++ (part, longs) :: ys)) (hnames : names.Nodup)
    (huncrossed : Uncrossed names) (hpart : 2 ≤ (sharing names part).length) {m : Nat} (hm : 1 ≤ m)
    (hd : (longs.map fun name => (ending name m).1).Nodup) :
    Filed names todo (xs ++ ys ++ longs.map fun name => ((ending name m).1, [name])) := by
  have hin : (part, longs) ∈ xs ++ (part, longs) :: ys := by simp
  refine ⟨?_, ?_, ?_⟩
  · have hrest : (Table.keys (xs ++ ys)).Nodup := by
      have hkeys := h.keys
      unfold Table.keys at hkeys ⊢
      rw [map_append, map_cons] at hkeys
      rw [map_append]
      exact (nodup_middle.mp hkeys).of_cons
    rw [Table.keys, map_append, map_map]
    refine nodup_append.mpr ⟨hrest, hd, fun key hkey short hshort heq => ?_⟩
    obtain ⟨name, hname, rfl⟩ := mem_map.mp hshort
    subst heq
    exact h.fresh hnames huncrossed hpart hm hname hkey
  · refine List.Perm.trans ?_ h.around
    rw [flatMap_append, flatMap_map, flatMap_singleton']
    exact perm_append_comm
  · intro e he
    rcases mem_append.mp he with he | he
    · have heIn : e ∈ xs ++ (part, longs) :: ys := by
        rcases mem_append.mp he with he | he <;> simp [he]
      rcases h.file e heIn with ⟨hgroup, hne, htodo⟩ | hlonger
      · refine .inl ⟨hgroup, hne, fun hlen => ?_⟩
        rcases mem_cons.mp (htodo hlen) with hkey | htodo
        · exact absurd (mem_map.mpr ⟨e, he, hkey⟩) h.key_fresh
        · exact htodo
      · exact .inr hlonger
    · obtain ⟨name, hname, rfl⟩ := mem_map.mp he
      exact .inr ⟨name, m, hm, h.shared hpart hin hname, rfl⟩

theorem foldl_put_zip (t : Table String (List String)) (short : String → String) (longs : List String) :
    ((longs.map short).zip longs).foldl (fun t (s, name) => Table.put t s [name]) t =
      Table.merge t (longs.map fun name => (short name, [name])) := by
  have hzip : (longs.map short).zip longs = longs.map fun name => (short name, name) := by
    induction longs with
    | nil => rfl
    | cons name longs ih => rw [map_cons, zip_cons_cons, ih, map_cons]
  rw [hzip, foldl_map, Table.merge, foldl_map]

theorem Filed.separate (h : Filed names (part :: todo) t) (hnames : names.Nodup)
    (huncrossed : Uncrossed names) (hpart : 2 ≤ (sharing names part).length)
    (htell : ∃ shorts, tellApart (sharing names part) (mostParts (sharing names part) + 1) 1 = .ok shorts) :
    ∃ t', separate t part = .ok t' ∧ Filed names todo t' := by
  unfold Export.separate
  cases hget : Table.get? t part with
  | none =>
    refine ⟨t, rfl, h.keys, h.all, fun e he => ?_⟩
    rcases h.file e he with ⟨hgroup, hne, htodo⟩ | hlonger
    · refine .inl ⟨hgroup, hne, fun hlen => ?_⟩
      rcases mem_cons.mp (htodo hlen) with hkey | htodo
      · exact absurd (mem_map.mpr ⟨e, he, hkey⟩) (Table.get?_eq_none_iff.mp hget)
      · exact htodo
    · exact .inr hlonger
  | some longs =>
    obtain ⟨xs, ys, rfl, -, herase⟩ := Table.exists_split_of_get? hget
    have htell : ∃ shorts, tellApart longs (mostParts longs + 1) 1 = .ok shorts := by
      rcases h.file (part, longs) (by simp) with ⟨hgroup, -⟩ | ⟨name, n, -, -, heq⟩
      · have hgroup : longs = sharing names part := hgroup
        rwa [hgroup]
      · cases heq
        exact ⟨_, rfl⟩
    obtain ⟨shorts, hshorts⟩ := htell
    obtain ⟨m, hm, rfl, hd⟩ := tellApart_ok hshorts
    refine ⟨_, ?_, h.replace hnames huncrossed hpart hm hd⟩
    simp only [hshorts]
    show Except.ok _ = Except.ok _
    rw [herase, foldl_put_zip, Table.merge_eq_append, Table.ofPairs_eq_self]
    · rw [Table.keys, map_map]
      exact hd
    · intro key hkey
      rw [Table.keys, map_map] at hkey
      obtain ⟨name, hname, rfl⟩ := mem_map.mp hkey
      exact h.fresh hnames huncrossed hpart hm hname

theorem Filed.separateAll (hnames : names.Nodup) (huncrossed : Uncrossed names)
    (hparts : ∀ part ∈ todo, 2 ≤ (sharing names part).length ∧
      ∃ shorts, tellApart (sharing names part) (mostParts (sharing names part) + 1) 1 = .ok shorts)
    (h : Filed names todo t) : ∃ t', todo.foldlM Export.separate t = .ok t' ∧ Filed names [] t' := by
  induction todo generalizing t with
  | nil => exact ⟨t, rfl, h⟩
  | cons part todo ih =>
    obtain ⟨hpart, htell⟩ := hparts part mem_cons_self
    obtain ⟨t1, ht1, h1⟩ := h.separate hnames huncrossed hpart htell
    obtain ⟨t', ht', h'⟩ := ih (fun p hp => hparts p (mem_cons_of_mem part hp)) h1
    refine ⟨t', ?_, h'⟩
    rw [foldlM_cons, ht1]
    exact ht'

/-- After all replacements each file holds one name. -/
theorem Filed.singles (h : Filed names [] t) :
    ∃ pairs : List (String × String), t = pairs.map (fun p => (p.1, [p.2])) ∧ (pairs.map Prod.snd).Perm names ∧
      (pairs.map Prod.fst).Nodup ∧ ∀ p ∈ pairs, p.1 ∈ endings p.2 := by
  have hsingle : ∀ e ∈ t, ∃ name, e.2 = [name] := by
    intro e he
    rcases h.file e he with ⟨-, hne, htodo⟩ | ⟨name, n, -, -, rfl⟩
    · have hlen : ¬ 2 ≤ e.2.length := fun hlen => by cases htodo hlen
      have hpos := length_pos_iff.mpr hne
      exact length_eq_one_iff.mp (by omega)
    · exact ⟨name, rfl⟩
  have ht : t = (t.map fun e => (e.1, e.2.headD "")).map fun p => (p.1, [p.2]) := by
    rw [map_map]
    refine (map_id t).symm.trans (map_congr_left fun e he => ?_)
    obtain ⟨name, hname⟩ := hsingle e he
    obtain ⟨key, longs⟩ := e
    obtain rfl : longs = [name] := hname
    rfl
  generalize (t.map fun e => (e.1, e.2.headD "")) = pairs at ht
  subst ht
  refine ⟨pairs, rfl, ?_, ?_, ?_⟩
  · have hall := h.all
    rwa [flatMap_map, ← map_eq_flatMap] at hall
  · have hkeys := h.keys
    rwa [Table.keys, map_map] at hkeys
  · intro p hp
    exact candidates_subset_endings names p.2 (h.candidate (mem_map.mpr ⟨p, hp, rfl⟩) mem_cons_self)

end

/-! ### Short names -/

theorem le_mostParts (h : name ∈ names) : (split '.' name).length ≤ mostParts names := by
  have hstart : ∀ (names : List String) (n : Nat), n ≤ names.foldl (fun n a => max n (split '.' a).length) n := by
    intro names
    induction names with
    | nil => exact fun n => Nat.le_refl n
    | cons a names ih => exact fun n => Nat.le_trans (Nat.le_max_left _ _) (ih _)
  unfold mostParts
  generalize 0 = n
  induction names generalizing n with
  | nil => cases h
  | cons a names ih =>
    rw [foldl_cons]
    rcases mem_cons.mp h with rfl | h
    · exact Nat.le_trans (Nat.le_max_right _ _) (hstart names _)
    · exact ih h _

/-- Names with different full forms are told apart if none has more parts than the last one. -/
theorem tellApart_of_last (hforms : (names.map fullForm).Nodup)
    (hlast : ∀ b ∈ names.getLast?, ∀ a ∈ names, (split '.' a).length ≤ (split '.' b).length) :
    ∃ shorts, tellApart names (mostParts names + 1) 1 = .ok shorts := by
  cases hb : names.getLast? with
  | none =>
    rw [getLast?_eq_none_iff.mp hb]
    exact ⟨[], rfl⟩
  | some b =>
    have hle := hlast b hb
    have hmost := le_mostParts (mem_of_getLast? hb)
    have hpos := length_split_pos '.' b
    refine exists_tellApart (Nat.le_max_left 1 ((split '.' b).length - 1)) (by omega) ?_ ?_
    · have hfull : ∀ a ∈ names, (ending a (max 1 ((split '.' b).length - 1) : Nat)).1 = fullForm a := by
        intro a ha
        have := hle a ha
        exact ending_of_length_le (by omega)
      rwa [map_congr_left hfull]
    · intro b' hb'
      rw [hb, Option.mem_some_iff] at hb'
      subst hb'
      omega

theorem nodup_of_fullForm (h : (names.map fullForm).Nodup) : names.Nodup :=
  List.Nodup.of_map fullForm h

/-- Every name is filed once under an ending of its own. -/
theorem shortNames_ok (hforms : (names.map fullForm).Nodup) (hlast : LastLongest names)
    (huncrossed : Uncrossed names) : ∃ t, shortNames names = .ok t ∧ Filed names [] t := by
  refine Filed.separateAll (nodup_of_fullForm hforms) huncrossed ?_ (filed_byLastPart names)
  intro part hpart
  have hshared : 2 ≤ (sharing names part).length := by
    have hrepeated : part ∈ repeated [] (names.map lastPart) := hpart
    rw [length_sharing]
    simpa using mem_repeated.mp hrepeated
  refine ⟨hshared, tellApart_of_last ?_ fun b hb a ha => ?_⟩
  · exact hforms.sublist (filter_sublist.map fullForm)
  · obtain ⟨hmem, rfl⟩ := mem_sharing.mp ha
    exact hlast a hmem b hb

theorem mapM_keys {f : Value × Value → Result String} (hf : ∀ s v, f (.text s, v) = .ok s)
    (rows : Table String Value) : (keyed rows).mapM f = .ok rows.keys := by
  induction rows with
  | nil => rfl
  | cons r rows ih =>
    rw [keyed] at ih ⊢
    rw [map_cons, mapM_cons, hf, ih]
    rfl

/-- **Short names lose nothing**: if the full forms differ, the last of the names with one last part is
not shorter than the others, and no two names with different last parts may get the same short name,
then every value stands under one key, an ending of its own name. -/
theorem shortenNames_lossless {rows : Table String Value} (hforms : (rows.keys.map fullForm).Nodup)
    (hlast : LastLongest rows.keys) (huncrossed : Uncrossed rows.keys) :
    ∃ result order, shortenNames (keyed rows) = .ok result ∧ result.length = rows.length ∧
      (result.map Prod.fst).Nodup ∧ order.Perm rows ∧
      List.Forall₂ (fun row entry => ∃ short ∈ endings row.1, entry = (.text short, row.2)) order result := by
  have hkeys : rows.keys.Nodup := nodup_of_fullForm hforms
  obtain ⟨t, hshort, hfiled⟩ := shortNames_ok hforms hlast huncrossed
  obtain ⟨pairs, rfl, hperm, hnodup, hend⟩ := hfiled.singles
  -- the value of a name, which is there for the names in question
  let value : String → Value := fun name => (Table.get? rows name).getD .none
  have hvalue : ∀ name ∈ rows.keys, Table.get? rows name = some (value name) := by
    intro name hname
    obtain ⟨r, hr, rfl⟩ := mem_map.mp hname
    simp only [value, (Table.get?_eq_some_iff hkeys).mpr hr, Option.getD_some]
  have hrows : rows = rows.keys.map fun name => (name, value name) := by
    rw [Table.keys, map_map]
    refine (map_id rows).symm.trans (map_congr_left fun r hr => ?_)
    have := hvalue r.1 (mem_map.mpr ⟨r, hr, rfl⟩)
    rw [(Table.get?_eq_some_iff hkeys).mpr hr, Option.some.injEq] at this
    exact Prod.ext rfl this
  refine ⟨pairs.map fun p => (.text p.1, value p.2), pairs.map fun p => (p.2, value p.2), ?_, ?_, ?_, ?_, ?_⟩
  · unfold shortenNames
    rw [mapM_keys fun _ _ => rfl]
    show (shortNames rows.keys >>= _) = _
    rw [hshort]
    show Except.ok _ = Except.ok _
    congr 1
    rw [filterMap_map, ← filterMap_eq_map]
    refine filterMap_congr fun p hp => ?_
    have hname : p.2 ∈ rows.keys := hperm.subset (mem_map.mpr ⟨p, hp, rfl⟩)
    simp [get?_keyed, hvalue p.2 hname]
  · rw [length_map, ← length_map Prod.snd, hperm.length_eq, Table.keys, length_map]
  · have htexts := hnodup.map fun (a b : String) (h : Value.text a = Value.text b) => Value.text.inj h
    rw [map_map] at htexts ⊢
    exact htexts
  · have := hperm.map fun name => (name, value name)
    rwa [← hrows, map_map] at this
  · rw [forall₂_map_left_iff, forall₂_map_right_iff, forall₂_same]
    exact fun p hp => ⟨p.1, hend p hp, rfl⟩

/-- Names of which three have the same last part, and one has a low line in its last part. -/
def mixedNames : Table String Value :=
  [("x", .int 0), ("p.a.x", .int 1), ("q.a.x", .int 2), ("c.a_y", .int 3)]

theorem shortenNames_lossless_mixedNames :
    (mixedNames.keys.map fullForm).Nodup ∧ LastLongest mixedNames.keys ∧ Uncrossed mixedNames.keys ∧
      ∃ result order, shortenNames (keyed mixedNames) = .ok result ∧ result.length = mixedNames.length ∧
        (result.map Prod.fst).Nodup ∧ order.Perm mixedNames ∧
        List.Forall₂ (fun row entry => ∃ short ∈ endings row.1, entry = (.text short, row.2)) order result := by
  have hforms : (mixedNames.keys.map fullForm).Nodup := by decide
  have hlast : LastLongest mixedNames.keys := by
    unfold LastLongest
    decide
  have huncrossed : Uncrossed mixedNames.keys := by
    unfold Uncrossed
    decide
  exact ⟨hforms, hlast, huncrossed, shortenNames_lossless hforms hlast huncrossed⟩

/-- Names may not cross: an ending that tells two apart takes the place of a third name. -/
theorem shortenNames_overwrites :
    ((Table.keys [("a.x", Value.int 0), ("b.x", .int 1), ("c.a_x", .int 2)]).map fullForm).Nodup ∧
      shortenNames (keyed [("a.x", .int 0), ("b.x", .int 1), ("c.a_x", .int 2)]) =
        .ok [(.text "a_x", .int 0), (.text "b_x", .int 1)] :=
  ⟨by decide, by rfl⟩

/-- The last name may not be short either: there is no rule when its parts are used up. -/
example : shortenNames (keyed [("p.q.x", .int 0), ("r.q.x", .int 1), ("x", .int 2)]) = fail .undefinedName := by rfl

end RegisterMap.Export
