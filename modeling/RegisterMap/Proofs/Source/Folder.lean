import RegisterMap.Source.Files
import RegisterMap.Proofs.Table

/-! # The files of a folder

A path of a folder leads to a place (`Files.home?`), and the file of a name in the folder is kept under
the path of this place with the name behind it.  A file that is written there is not in the way of the
path, so the folder stays where it is (`Files.home?_put`). -/

namespace RegisterMap

open List

namespace Text

variable {sep : Char} {cs : List Char}

theorem splitChars_ne_nil (sep : Char) (cs : List Char) : splitChars sep cs ≠ [] := by
  cases cs with
  | nil => exact cons_ne_nil _ _
  | cons c cs =>
    unfold splitChars
    split
    · exact cons_ne_nil _ _
    · split <;> exact cons_ne_nil _ _

theorem splitChars_append (sep : Char) (cs ds : List Char) :
    splitChars sep (cs ++ sep :: ds) = splitChars sep cs ++ splitChars sep ds := by
  induction cs with
  | nil => simp [splitChars]
  | cons c cs ih =>
    rw [cons_append, splitChars, splitChars, ih]
    split
    · rfl
    · cases hcs : splitChars sep cs with
      | nil => exact absurd hcs (splitChars_ne_nil sep cs)
      | cons p ps => rfl

theorem splitChars_of_not_mem (h : sep ∉ cs) : splitChars sep cs = [cs] := by
  induction cs with
  | nil => rfl
  | cons c cs ih =>
    obtain ⟨hc, hcs⟩ := ne_and_not_mem_of_not_mem_cons h
    rw [splitChars, if_neg (by simpa using hc.symm), ih hcs]

/-- A path of folders, to be followed by a name. -/
def pathOf (folders : List String) : String := folders.foldr (fun p rest => p ++ "/" ++ rest) ""

theorem join_append_singleton (folders : List String) (name : String) :
    join "/" (folders ++ [name]) = pathOf folders ++ name := by
  induction folders with
  | nil => exact (String.intercalate_singleton).trans (String.empty_append).symm
  | cons p folders ih =>
    have hstep : join "/" (p :: folders ++ [name]) = p ++ "/" ++ join "/" (folders ++ [name]) := by
      cases folders with
      | nil | cons q folders => exact String.intercalate_cons_cons
    rw [hstep, ih, pathOf, pathOf, foldr_cons, String.append_assoc, String.append_assoc,
      String.append_assoc]

end Text

namespace Source

open Text

/-- The name of a file in a folder. -/
structure FileName (name : String) : Prop where
  ne_empty : name ≠ ""
  ne_here : name ≠ "."
  ne_outward : name ≠ ".."
  no_slash : '/' ∉ name.toList

variable {name folder : String}

theorem startsWith_slash (s : String) : startsWith s "/" = (s.toList.head? == some '/') := by
  unfold startsWith
  cases s.toList with
  | nil => rfl
  | cons c cs =>
    show ('/' == c && List.isPrefixOf [] cs) = (c == '/')
    rw [isPrefixOf_nil_left, Bool.and_true, BEq.comm]

theorem FileName.split_eq (h : FileName name) : split '/' name = [name] := by
  rw [split, splitChars_of_not_mem h.no_slash, map_singleton, String.ofList_toList]

theorem FileName.startsWith_eq (h : FileName name) : startsWith name "/" = false := by
  rw [startsWith_slash]
  cases hcs : name.toList with
  | nil => rfl
  | cons c cs =>
    have hc : c ≠ '/' := fun heq => h.no_slash (by rw [hcs, heq]; exact mem_cons_self)
    simpa using hc

theorem FileName.getLast? (h : FileName name) : ∃ c, name.toList.getLast? = some c ∧ c ≠ '/' := by
  have hne : name.toList ≠ [] := fun heq => h.ne_empty (String.toList_eq_nil_iff.mp heq)
  refine ⟨_, getLast?_eq_getLast_of_ne_nil hne, fun heq => h.no_slash ?_⟩
  rw [← heq]
  exact getLast_mem hne

theorem split_append_slash (s t : String) : split '/' (s ++ "/" ++ t) = split '/' s ++ split '/' t := by
  have hslash : "/".toList = ['/'] := rfl
  rw [split, split, split, String.toList_append, String.toList_append, hslash, append_assoc,
    singleton_append, splitChars_append, map_append]

theorem eq_append_slash (h : folder.toList.getLast? = some '/') : ∃ outer, folder = outer ++ "/" := by
  obtain ⟨cs, hcs⟩ := getLast?_eq_some_iff.mp h
  refine ⟨String.ofList cs, String.toList_inj.mp ?_⟩
  rw [hcs, String.toList_append, String.toList_ofList]
  rfl

theorem startsWith_joinPath (h : FileName name) : startsWith (joinPath folder name) "/" = startsWith folder "/" := by
  unfold joinPath
  rw [h.startsWith_eq, Bool.false_or]
  split
  · rename_i hempty
    rw [String.isEmpty_iff.mp hempty, h.startsWith_eq]
    rfl
  · rename_i hempty
    have hne : folder.toList ≠ [] := fun heq =>
      hempty (String.isEmpty_iff.mpr (String.toList_eq_nil_iff.mp heq))
    have hhead : ∀ cs, (folder.toList ++ cs).head? = folder.toList.head? := fun cs => by
      rw [head?_append_of_ne_nil _ hne]
    split <;> simp only [startsWith_slash, String.toList_append, append_assoc, hhead]

theorem getLast?_joinPath (folder : String) (h : FileName name) :
    (joinPath folder name).toList.getLast? = name.toList.getLast? := by
  obtain ⟨c, hc, -⟩ := h.getLast?
  unfold joinPath
  split
  · rfl
  · split <;> rw [String.toList_append, getLast?_append, hc, Option.some_or]

namespace Files

variable {home key p text : String} {target : Target}

/-- Enter a folder by a part of a path. -/
def enter (fs : Files) (start : String) (inside : List String) (p : String) : Option (List String) :=
  if p == "" || p == "." then some inside
  else if p == ".." then some (outward inside)
  else if longestName < p.utf8ByteSize then none
  else
    let path := start ++ join "/" (inside ++ [p])
    if (Table.get? fs.texts path).isNone && fs.isFolder path then some (inside ++ [p]) else none

/-- Follow the parts of a path through folders. -/
def walk (fs : Files) (start : String) (inside : List String) (ps : List String) :
    Option (List String) :=
  ps.foldlM (fs.enter start) inside

/-- The place to which the path of a folder leads. -/
def home? (fs : Files) (folder : String) : Option String :=
  let start := if startsWith folder "/" then "/" else ""
  (fs.walk start [] (split '/' folder)).map fun inside => start ++ pathOf inside

/-- A path that can be followed, whatever there is. -/
structure Allowed (folder name : String) : Prop where
  no_zero : hasChar (joinPath folder name) (Char.ofNat 0) = false
  path_le : ¬longestPath < (joinPath folder name).utf8ByteSize
  name_le : ¬longestName < name.utf8ByteSize

variable {fs : Files} {start : String} {inside inside' ps qs : List String}

theorem follow_of_enter (h : fs.enter start inside p = some inside') :
    fs.follow start inside (p :: qs) = fs.follow start inside' qs := by
  unfold enter at h
  rw [follow]
  split at h
  · rename_i hp
    rw [if_pos hp, Option.some.inj h]
  · rename_i hp
    rw [if_neg hp]
    split at h
    · rename_i hp
      rw [if_pos hp, Option.some.inj h]
    · rename_i hp
      rw [if_neg hp]
      simp only [Bool.and_eq_true, Option.ite_none_left_eq_some, Option.ite_none_right_eq_some,
        Option.isNone_iff_eq_none] at h
      obtain ⟨hlong, ⟨hnone, hfolder⟩, hinside⟩ := h
      obtain rfl := Option.some.inj hinside
      simp only [if_neg hlong, hnone, if_pos hfolder]

theorem enter_of_follow (hqs : qs ≠ []) (h : fs.follow start inside (p :: qs) = .ok target) :
    ∃ inside', fs.enter start inside p = some inside' := by
  rw [follow] at h
  unfold enter
  split at h
  · rename_i hp
    exact ⟨inside, if_pos hp⟩
  · rename_i hp
    rw [if_neg hp]
    split at h
    · rename_i hp
      exact ⟨outward inside, if_pos hp⟩
    · rename_i hp
      rw [if_neg hp]
      simp only [isEmpty_eq_false_iff.mpr hqs, Bool.false_eq_true, if_false] at h ⊢
      split at h
      · cases h
      · rename_i hlong
        rw [if_neg hlong]
        split at h
        · cases h
        · rename_i hnone
          split at h
          · rename_i hfolder
            exact ⟨inside ++ [p], by rw [hnone, hfolder]; rfl⟩
          · cases h

theorem follow_of_walk (h : fs.walk start inside ps = some inside') :
    fs.follow start inside (ps ++ qs) = fs.follow start inside' qs := by
  induction ps generalizing inside with
  | nil =>
    obtain rfl := Option.some.inj h
    rfl
  | cons p ps ih =>
    obtain ⟨middle, hp, hps⟩ := Option.bind_eq_some_iff.mp h
    rw [cons_append, follow_of_enter hp]
    exact ih hps

theorem walk_of_follow (hqs : qs ≠ []) (h : fs.follow start inside (ps ++ qs) = .ok target) :
    ∃ inside', fs.walk start inside ps = some inside' := by
  induction ps generalizing inside with
  | nil => exact ⟨inside, rfl⟩
  | cons p ps ih =>
    rw [cons_append] at h
    obtain ⟨middle, hp⟩ := enter_of_follow (append_ne_nil_of_right_ne_nil _ hqs) h
    rw [follow_of_enter hp] at h
    obtain ⟨inside', hps⟩ := ih h
    exact ⟨inside', Option.bind_eq_some_iff.mpr ⟨middle, hp, hps⟩⟩

/-- What a name leads to at a place. -/
def targetAt (fs : Files) (path : String) : Target :=
  match Table.get? fs.texts path with
  | some text => .file path text
  | none => if fs.isFolder path then .folder else .vacant path

theorem follow_name (hname : FileName name) (hlong : ¬longestName < name.utf8ByteSize) :
    fs.follow start inside [name] = .ok (fs.targetAt (start ++ pathOf inside ++ name)) := by
  have hskip : (name == "" || name == ".") = false := by simp [hname.ne_empty, hname.ne_here]
  have hout : (name == "..") = false := by simp [hname.ne_outward]
  rw [follow, hskip, hout]
  simp only [Bool.false_eq_true, if_false, if_neg hlong, isEmpty_nil, if_true, join_append_singleton,
    targetAt, String.append_assoc]
  cases Table.get? fs.texts (start ++ (pathOf inside ++ name)) with
  | some text => rfl
  | none =>
    dsimp only
    split <;> rfl

theorem split_joinPath (folder : String) (hname : FileName name) :
    ∃ ps, split '/' (joinPath folder name) = ps ++ [name] ∧
    ∀ (fs : Files) (start : String), fs.walk start [] (split '/' folder) = fs.walk start [] ps := by
  unfold joinPath
  rw [hname.startsWith_eq, Bool.false_or]
  split
  · rename_i hempty
    rw [String.isEmpty_iff.mp hempty]
    exact ⟨[], hname.split_eq, fun fs start => rfl⟩
  · split
    · rename_i hlast
      obtain ⟨outer, rfl⟩ := eq_append_slash (by simpa using hlast)
      refine ⟨split '/' outer, by rw [split_append_slash, hname.split_eq], fun fs start => ?_⟩
      have hsplit : split '/' (outer ++ "/") = split '/' outer ++ [""] := by
        have := split_append_slash outer ""
        rwa [String.append_empty] at this
      rw [hsplit, walk, foldlM_append]
      exact Option.bind_fun_some _
    · exact ⟨split '/' folder, by rw [split_append_slash, hname.split_eq], fun fs start => rfl⟩

theorem locate_joinPath (hname : FileName name) (hallowed : Allowed folder name)
    (hhome : fs.home? folder = some home) :
    fs.locate (joinPath folder name) = .ok (fs.targetAt (home ++ name)) := by
  obtain ⟨inside, hwalk, rfl⟩ := Option.map_eq_some_iff.mp hhome
  obtain ⟨ps, hps, hwalk'⟩ := split_joinPath folder hname
  have hempty : (joinPath folder name).isEmpty = false := by
    rw [Bool.eq_false_iff, Ne, String.isEmpty_iff]
    intro heq
    obtain ⟨c, hc, -⟩ := hname.getLast?
    have hlast := getLast?_joinPath folder hname
    rw [heq, hc] at hlast
    cases hlast
  rw [hwalk'] at hwalk
  unfold locate
  rw [hempty, hallowed.no_zero, startsWith_joinPath hname, hps, follow_of_walk hwalk,
    follow_name hname hallowed.name_le, if_neg hallowed.path_le]
  rfl

theorem home_of_locate (hname : FileName name) (h : fs.locate (joinPath folder name) = .ok target) :
    Allowed folder name ∧ ∃ home, fs.home? folder = some home ∧ target = fs.targetAt (home ++ name) := by
  obtain ⟨ps, hps, hwalk⟩ := split_joinPath folder hname
  have hlocate := h
  unfold locate at h
  split at h
  · cases h
  · split at h
    · cases h
    · rename_i hzero
      split at h
      · cases h
      · rename_i hpath
        rw [hps, startsWith_joinPath hname] at h
        obtain ⟨inside, hinside⟩ := walk_of_follow (cons_ne_nil name []) h
        have hlong : ¬longestName < name.utf8ByteSize := by
          intro hlong
          rw [follow_of_walk hinside] at h
          have hskip : (name == "" || name == ".") = false := by simp [hname.ne_empty, hname.ne_here]
          have hout : (name == "..") = false := by simp [hname.ne_outward]
          rw [follow, hskip, hout] at h
          simp only [Bool.false_eq_true, if_false, if_pos hlong] at h
          cases h
        have hallowed : Allowed folder name := ⟨Bool.eq_false_iff.mpr hzero, hpath, hlong⟩
        rw [← hwalk] at hinside
        have hhome : fs.home? folder = some _ := Option.map_eq_some_iff.mpr ⟨inside, hinside, rfl⟩
        rw [locate_joinPath hname hallowed hhome] at hlocate
        exact ⟨hallowed, _, hhome, (Except.ok.inj hlocate).symm⟩

/-- There is a file of this path, or nothing. -/
def Free (fs : Files) (path : String) : Prop := (Table.get? fs.texts path).isSome ∨ fs.isFolder path = false

theorem isFolder_put {path : String} (h : fs.isFolder path = true) :
    isFolder { fs with texts := Table.put fs.texts key text } path = true := by
  unfold isFolder at h ⊢
  simp only [Bool.or_eq_true, any_eq_true] at h ⊢
  refine h.imp_right fun ⟨e, he, hcontains⟩ => ?_
  have hkey : e.1 ∈ (Table.put fs.texts key text).keys := by
    rw [Table.mem_keys_put]
    exact .inl (mem_map_of_mem he)
  obtain ⟨e', he', heq⟩ := mem_map.mp hkey
  exact ⟨e', he', heq ▸ hcontains⟩

theorem enter_put (hfree : fs.Free key) (h : fs.enter start inside p = some inside') :
    enter { fs with texts := Table.put fs.texts key text } start inside p = some inside' := by
  unfold enter at h ⊢
  split at h
  · rename_i hp
    rwa [if_pos hp]
  · rename_i hp
    rw [if_neg hp]
    split at h
    · rename_i hp
      rwa [if_pos hp]
    · rename_i hp
      rw [if_neg hp]
      simp only [Bool.and_eq_true, Option.ite_none_left_eq_some, Option.ite_none_right_eq_some] at h ⊢
      obtain ⟨hlong, ⟨hnone, hfolder⟩, hinside⟩ := h
      have hne : key ≠ start ++ join "/" (inside ++ [p]) := by
        rintro rfl
        rcases hfree with hsome | hno
        · rw [Option.isNone_iff_eq_none.mp hnone] at hsome
          cases hsome
        · rw [hno] at hfolder
          cases hfolder
      rw [Table.get?_put_of_ne _ _ hne]
      exact ⟨hlong, ⟨hnone, isFolder_put hfolder⟩, hinside⟩

theorem walk_put (hfree : fs.Free key) (h : fs.walk start inside ps = some inside') :
    walk { fs with texts := Table.put fs.texts key text } start inside ps = some inside' := by
  induction ps generalizing inside with
  | nil => exact h
  | cons p ps ih =>
    obtain ⟨middle, hp, hps⟩ := Option.bind_eq_some_iff.mp h
    exact Option.bind_eq_some_iff.mpr ⟨middle, enter_put hfree hp, ih hps⟩

theorem home?_put (hfree : fs.Free key) (h : fs.home? folder = some home) :
    home? { fs with texts := Table.put fs.texts key text } folder = some home := by
  obtain ⟨inside, hwalk, rfl⟩ := Option.map_eq_some_iff.mp h
  exact Option.map_eq_some_iff.mpr ⟨inside, walk_put hfree hwalk, rfl⟩

theorem text?_joinPath (hname : FileName name) (hallowed : Allowed folder name)
    (hhome : fs.home? folder = some home) (htext : Table.get? fs.texts (home ++ name) = some text) :
    fs.text? (joinPath folder name) = .ok (some text) := by
  rw [text?, locate_joinPath hname hallowed hhome, targetAt, htext]

/-- A change of a file in a folder changes this file and no other one. -/
theorem edit_joinPath (hname : FileName name) {change : String → String} {fs' : Files}
    (h : fs.edit (joinPath folder name) change = .ok fs') :
    Allowed folder name ∧ ∃ home, fs.home? folder = some home ∧ fs'.home? folder = some home ∧
      fs'.texts = Table.put fs.texts (home ++ name)
        (change ((Table.get? fs.texts (home ++ name)).getD "")) := by
  obtain ⟨c, hc, hne⟩ := hname.getLast?
  have hlast : (joinPath folder name).toList.getLast? = some c := (getLast?_joinPath folder hname).trans hc
  obtain ⟨cs, hcs⟩ := getLast?_eq_some_iff.mp hlast
  have htrim : String.ofList ((joinPath folder name).toList.reverse.dropWhile (· == '/')).reverse =
      joinPath folder name := by
    rw [hcs, reverse_append, reverse_singleton, singleton_append,
      dropWhile_cons_of_neg (by simpa using hne), ← singleton_append, ← reverse_singleton,
      ← reverse_append, reverse_reverse, ← hcs, String.ofList_toList]
  have hslash : ((joinPath folder name).toList.getLast? == some '/') = false := by
    rw [hlast]
    simpa using hne
  unfold edit at h
  simp only [htrim] at h
  split at h
  · cases h
  · cases h
  all_goals
    rename_i hlocate
    obtain ⟨hallowed, home, hhome, htarget⟩ := home_of_locate hname hlocate
    rw [edit.put, hslash] at h
    obtain rfl := Except.ok.inj h
    refine ⟨hallowed, home, hhome, ?_⟩
    unfold targetAt at htarget
    split at htarget
  · rename_i hget
    obtain ⟨rfl, rfl⟩ := Target.file.inj htarget
    rw [hget]
    exact ⟨home?_put (.inl (by rw [hget]; rfl)) hhome, rfl⟩
  · split at htarget <;> cases htarget
  · cases htarget
  · rename_i hget
    split at htarget
    · cases htarget
    · rename_i hfolder
      obtain rfl := Target.vacant.inj htarget
      rw [hget]
      exact ⟨home?_put (.inr (Bool.eq_false_iff.mpr hfolder)) hhome, rfl⟩

end Files

end Source

end RegisterMap
