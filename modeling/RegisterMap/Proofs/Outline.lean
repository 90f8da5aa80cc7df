import Mathlib.Data.List.Forall2
import RegisterMap.Outline

/-! # Walks are in post-order

A step of a walk looks for the next node from the node that was visited first, by the marks alone.
`Outline.pending` lists the nodes that are still to come: a step takes its head (`pending_markAt`),
also when the search starts at the first node and climbs from there (`Leading.seek_eq`).  So a walk
visits the nodes of a fresh outline in the order of `pending`, which is the post-order. -/

namespace RegisterMap.Outline

open List Option

/-! ### Nodes of a nested table -/

/-- In a nested table with a key of its own, the inner table at a path has the key `found`. -/
inductive IsNode : Value → Value → Path → Value → Prop
  | root (key : Value) (kvs : List (Value × Value)) : IsNode key (.table kvs) [] key
  | member {key k v found : Value} {kvs : List (Value × Value)} {i : Nat} {p : Path}
      (hi : kvs[i]? = some (k, v)) (h : IsNode k v p found) : IsNode key (.table kvs) (i :: p) found

/-- Post-order: below before above, and what is in an earlier member before a later one. -/
inductive Before : Path → Path → Prop
  | under (i : Nat) (p : Path) : Before (i :: p) []
  | earlier {i j : Nat} (h : i < j) (p q : Path) : Before (i :: p) (j :: q)
  | within {p q : Path} (h : Before p q) (i : Nat) : Before (i :: p) (i :: q)

theorem Before.ne {p q : Path} (h : Before p q) : p ≠ q := by
  induction h with
  | under => simp
  | earlier hlt => simp [Nat.ne_of_lt hlt]
  | within _ _ ih => simpa using ih

theorem Before.shift {x y : Nat × Path} (h : Before (x.1 :: x.2) (y.1 :: y.2)) :
    Before ((x.1 + 1) :: x.2) ((y.1 + 1) :: y.2) := by
  obtain ⟨i, p⟩ := x
  obtain ⟨j, q⟩ := y
  cases h with
  | earlier hlt => exact .earlier (Nat.succ_lt_succ hlt) _ _
  | within hpq => exact .within hpq _

theorem child?_ofMembers {c : Outline} (kvs : List (Value × Value)) (i : Nat) :
    (ofMembers kvs).child? i = some c ↔
      ∃ k inner, kvs[i]? = some (k, .table inner) ∧ c = ofValue k (.table inner) := by
  induction kvs generalizing i with
  | nil => simp [ofMembers, OutlineMembers.child?]
  | cons kv rest ih =>
    obtain ⟨k, v⟩ := kv
    cases i with
    | zero => cases v <;> simp [ofMembers, ofValue, OutlineMembers.child?, eq_comm]
    | succ i => cases v <;> simpa [ofMembers, OutlineMembers.child?] using ih i

theorem isNode_iff {key found : Value} {kvs : List (Value × Value)} {p : Path} :
    IsNode key (.table kvs) p found ↔ ((ofValue key (.table kvs)).at? p).map Outline.key = some found := by
  induction p generalizing key kvs with
  | nil =>
    constructor
    · intro h
      cases h
      rfl
    · intro h
      cases h
      exact .root _ _
  | cons i p ih =>
    constructor
    · intro h
      cases h with
      | member hi hin =>
        rename_i k v
        have htable : ∃ inner, v = .table inner := by cases hin <;> exact ⟨_, rfl⟩
        obtain ⟨inner, rfl⟩ := htable
        have hc := (child?_ofMembers kvs i).mpr ⟨k, inner, hi, rfl⟩
        simpa [ofValue, at?, hc] using ih.mp hin
    · intro h
      obtain ⟨n, hn, hkey⟩ := map_eq_some_iff.mp h
      obtain ⟨c, hc, hat⟩ := bind_eq_some_iff.mp hn
      obtain ⟨k, inner, hi, rfl⟩ := (child?_ofMembers kvs i).mp hc
      refine .member hi (ih.mpr ?_)
      rw [hat, ← hkey]
      rfl

/-! ### Marks do not change the nodes -/

theorem child?_setMarksIn (b : Bool) (ms : OutlineMembers) (i : Nat) :
    (setMarksIn b ms).child? i = (ms.child? i).map (setMarks b) := by
  fun_induction OutlineMembers.child? ms i with
  | case1 | case2 | case3 => rfl
  | case4 i key value rest ih => simpa only [setMarksIn, OutlineMembers.child?] using ih
  | case5 i key child rest ih => simpa only [setMarksIn, OutlineMembers.child?] using ih

theorem at?_setMarks (b : Bool) (p : Path) (o : Outline) : (o.setMarks b).at? p = (o.at? p).map (setMarks b) := by
  induction p generalizing o with
  | nil => rfl
  | cons i p ih =>
    obtain ⟨key, marked, members⟩ := o
    simp only [setMarks, at?, child?_setMarksIn]
    cases members.child? i with
    | none => rfl
    | some c => exact ih c

theorem key_at?_setMarks (b : Bool) (p : Path) (o : Outline) :
    ((o.setMarks b).at? p).map key = (o.at? p).map key := by
  have hkey : key ∘ setMarks b = key := by
    funext c
    cases c
    rfl
  rw [at?_setMarks, Option.map_map, hkey]

mutual

theorem setMarks_setMarks (b b' : Bool) : ∀ o : Outline, (o.setMarks b').setMarks b = o.setMarks b
  | node key marked members => by simp only [setMarks, setMarksIn_setMarksIn b b' members]

theorem setMarksIn_setMarksIn (b b' : Bool) : ∀ ms : OutlineMembers,
    setMarksIn b (setMarksIn b' ms) = setMarksIn b ms
  | .nil => rfl
  | .leaf key value rest => by simp only [setMarksIn, setMarksIn_setMarksIn b b' rest]
  | .branch key child rest => by
    simp only [setMarksIn, setMarks_setMarks b b' child, setMarksIn_setMarksIn b b' rest]

end

theorem setMarksIn_modify {b : Bool} {f : Outline → Outline} (hf : ∀ c, (f c).setMarks b = c.setMarks b)
    (ms : OutlineMembers) (i : Nat) : setMarksIn b (ms.modify f i) = setMarksIn b ms := by
  fun_induction OutlineMembers.modify f ms i with
  | case1 | case2 => rfl
  | case3 key child rest => simp only [setMarksIn, hf]
  | case4 i key value rest ih => simp only [setMarksIn, ih]
  | case5 i key child rest ih => simp only [setMarksIn, ih]

theorem setMarks_markAt (b : Bool) (p : Path) (o : Outline) : (o.markAt p).setMarks b = o.setMarks b := by
  induction p generalizing o with
  | nil => cases o; rfl
  | cons i p ih =>
    obtain ⟨key, marked, members⟩ := o
    simp only [markAt, setMarks, setMarksIn_modify ih]

theorem setMarks_next {start p : Path} {o o' : Outline} (b : Bool) (h : o.next start = some (p, o')) :
    o'.setMarks b = o.setMarks b := by
  obtain ⟨q, -, heq⟩ := map_eq_some_iff.mp h
  cases heq
  exact setMarks_markAt b p o

/-! ### The nodes still to come -/

mutual

/-- The nodes that are not marked, children first; marked children are not entered. -/
def pending : Outline → List Path
  | node _ marked members =>
    (pendingIn members).map (fun x => x.1 :: x.2) ++ (if marked then [] else [[]])

/-- The nodes that are not marked in a list of members, with the numbers of their members. -/
def pendingIn : OutlineMembers → List (Nat × Path)
  | .nil => []
  | .leaf _ _ rest => (pendingIn rest).map fun x => (x.1 + 1, x.2)
  | .branch _ child rest =>
    (if child.marked then [] else (pending child).map fun p => (0, p)) ++
      (pendingIn rest).map fun x => (x.1 + 1, x.2)

end

theorem pending_of_unmarked {o : Outline} (h : o.marked = false) :
    o.pending = (pendingIn o.members).map (fun x => x.1 :: x.2) ++ [[]] := by
  obtain ⟨key, marked, members⟩ := o
  cases h
  rfl

theorem getLast?_pending {o : Outline} (h : o.marked = false) : o.pending.getLast? = some [] := by
  rw [pending_of_unmarked h, getLast?_concat]

theorem exists_pending {o : Outline} (h : o.marked = false) : ∃ q qs, o.pending = q :: qs := by
  refine exists_cons_of_ne_nil fun hnil => ?_
  have hlast := getLast?_pending h
  rw [hnil] at hlast
  cases hlast

theorem exists_pendingIn {key : Value} {marked : Bool} {members : OutlineMembers} {i : Nat} {q : Path}
    {ps : List Path} (h : (node key marked members).pending = (i :: q) :: ps) :
    ∃ xs, pendingIn members = (i, q) :: xs := by
  rw [pending] at h
  cases hin : pendingIn members with
  | nil =>
    rw [hin] at h
    cases marked <;> simp at h
  | cons x xs =>
    rw [hin] at h
    cases h
    exact ⟨xs, rfl⟩

theorem eq_nil_of_pending {o : Outline} {ps : List Path} (h : o.pending = [] :: ps) : ps = [] := by
  obtain ⟨key, marked, members⟩ := o
  rw [pending] at h
  cases hin : pendingIn members with
  | nil =>
    rw [hin] at h
    cases marked <;> simp_all
  | cons x xs =>
    rw [hin] at h
    simp at h

mutual

theorem ready?_eq : ∀ o : Outline, o.ready? = o.pending.head?
  | node key marked members => by
    rw [ready?, pending, readyIn?_eq]
    cases pendingIn members with
    | nil => cases marked <;> rfl
    | cons x xs => rfl

theorem readyIn?_eq : ∀ ms : OutlineMembers, readyIn? ms = (pendingIn ms).head?
  | .nil => rfl
  | .leaf key value rest => by
    rw [readyIn?, pendingIn, readyIn?_eq rest, head?_map]
  | .branch key child rest => by
    rw [readyIn?, pendingIn, readyIn?_eq rest, ready?_eq child]
    cases hm : child.marked with
    | true => simp only [if_true, nil_append, head?_map]
    | false =>
      obtain ⟨q, qs, hq⟩ := exists_pending hm
      simp [hq]

end

/-- The next node among the members is the next one in a child that is not marked. -/
theorem child?_of_pendingIn {q : Path} : ∀ {ms : OutlineMembers} {i : Nat} {xs : List (Nat × Path)},
    pendingIn ms = (i, q) :: xs → ∃ c qs, ms.child? i = some c ∧ c.marked = false ∧ c.pending = q :: qs
  | .nil, _, _, h => by cases h
  | .leaf _ _ rest, _, _, h => by
    obtain ⟨⟨j, q⟩, ys, hys, heq, -⟩ := map_eq_cons_iff.mp h
    cases heq
    obtain ⟨c, qs, hc⟩ := child?_of_pendingIn hys
    exact ⟨c, qs, hc⟩
  | .branch _ child rest, _, _, h => by
    rw [pendingIn] at h
    cases hm : child.marked with
    | true =>
      rw [hm, if_pos rfl, nil_append] at h
      obtain ⟨⟨j, q⟩, ys, hys, heq, -⟩ := map_eq_cons_iff.mp h
      cases heq
      obtain ⟨c, qs, hc⟩ := child?_of_pendingIn hys
      exact ⟨c, qs, hc⟩
    | false =>
      obtain ⟨q', qs, hq⟩ := exists_pending hm
      simp only [hm, hq, Bool.false_eq_true, if_false, map_cons, cons_append, List.cons.injEq,
        Prod.mk.injEq] at h
      obtain ⟨⟨rfl, rfl⟩, -⟩ := h
      exact ⟨child, qs, rfl, hm, hq⟩

theorem marked_markAt {p : Path} {o : Outline} (h : (o.markAt p).marked = true) : o.marked = true ∨ p = [] := by
  obtain ⟨key, marked, members⟩ := o
  cases p with
  | nil => exact .inr rfl
  | cons i p => exact .inl h

mutual

theorem pending_markAt {p : Path} {ps : List Path} :
    ∀ {o : Outline}, o.pending = p :: ps → (o.markAt p).pending = ps
  | node key marked members, h => by
    rw [pending] at h
    cases hin : pendingIn members with
    | nil =>
      rw [hin] at h
      cases marked with
      | true => cases h
      | false =>
        cases h
        simp [markAt, setMark, pending, hin]
    | cons x xs =>
      obtain ⟨i, q⟩ := x
      rw [hin] at h
      cases h
      simp [markAt, pending, pendingIn_modify hin]

theorem pendingIn_modify {q : Path} {i : Nat} {xs : List (Nat × Path)} :
    ∀ {ms : OutlineMembers}, pendingIn ms = (i, q) :: xs → pendingIn (ms.modify (markAt q) i) = xs
  | .nil, h => by cases h
  | .leaf _ _ rest, h => by
    obtain ⟨⟨j, q⟩, ys, hys, heq, rfl⟩ := map_eq_cons_iff.mp h
    cases heq
    rw [OutlineMembers.modify, pendingIn, pendingIn_modify hys]
  | .branch _ child rest, h => by
    rw [pendingIn] at h
    cases hm : child.marked with
    | true =>
      rw [hm, if_pos rfl, nil_append] at h
      obtain ⟨⟨j, q⟩, ys, hys, heq, rfl⟩ := map_eq_cons_iff.mp h
      cases heq
      rw [OutlineMembers.modify, pendingIn, pendingIn_modify hys, hm, if_pos rfl, nil_append]
    | false =>
      obtain ⟨q', qs, hq⟩ := exists_pending hm
      simp only [hm, hq, Bool.false_eq_true, if_false, map_cons, cons_append, List.cons.injEq,
        Prod.mk.injEq] at h
      obtain ⟨⟨rfl, rfl⟩, rfl⟩ := h
      have hqs := pending_markAt hq
      rw [OutlineMembers.modify, pendingIn]
      cases hm' : (child.markAt q').marked with
      | false => simp [hqs]
      | true =>
        have hnil : qs = [] := by
          rcases marked_markAt hm' with hm'' | rfl
          · rw [hm] at hm''
            cases hm''
          · exact eq_nil_of_pending hq
        simp [hnil]

end

/-! ### Searching from the node that was visited first -/

/-- The first member that is a node, with its number. -/
def firstChild? : OutlineMembers → Option (Nat × Outline)
  | .nil => none
  | .leaf _ _ rest => (firstChild? rest).map fun x => (x.1 + 1, x.2)
  | .branch _ child _ => some (0, child)

theorem child?_of_firstChild {c : Outline} :
    ∀ {ms : OutlineMembers} {i : Nat}, firstChild? ms = some (i, c) → ms.child? i = some c
  | .nil, _, h => by cases h
  | .leaf _ _ rest, _, h => by
    obtain ⟨⟨j, c⟩, hj, heq⟩ := map_eq_some_iff.mp h
    cases heq
    have hc := child?_of_firstChild hj
    exact hc
  | .branch _ _ _, _, h => by
    cases h
    rfl

theorem firstChild?_modify {f : Outline → Outline} {c : Outline} :
    ∀ {ms : OutlineMembers} {i : Nat} (j : Nat), firstChild? ms = some (i, c) →
      firstChild? (ms.modify f j) = some (i, if j = i then f c else c)
  | .nil, _, _, h => by cases h
  | .leaf _ _ rest, _, j, h => by
    obtain ⟨⟨i, c⟩, hi, heq⟩ := map_eq_some_iff.mp h
    cases heq
    cases j with
    | zero => simp [OutlineMembers.modify, firstChild?, hi]
    | succ j => simp [OutlineMembers.modify, firstChild?, firstChild?_modify j hi]
  | .branch _ _ _, _, j, h => by
    cases h
    cases j <;> simp [OutlineMembers.modify, firstChild?]

theorem readyIn?_of_firstChild {c : Outline} {q : Path} (hc : c.marked = false) (hq : c.ready? = some q) :
    ∀ {ms : OutlineMembers} {i : Nat}, firstChild? ms = some (i, c) → readyIn? ms = some (i, q)
  | .nil, _, h => by cases h
  | .leaf _ _ rest, _, h => by
    obtain ⟨⟨j, c⟩, hj, heq⟩ := map_eq_some_iff.mp h
    cases heq
    simp [readyIn?, readyIn?_of_firstChild hc hq hj]
  | .branch _ _ _, _, h => by
    cases h
    simp [readyIn?, hc, hq]

/-- The path goes down by first children, and where a node on it is marked, so is all below it. -/
def Leading : Path → Outline → Prop
  | [], _ => True
  | i :: p, node _ _ members =>
    ∃ c, firstChild? members = some (i, c) ∧ (c.marked = true → c.pending = []) ∧ Leading p c

/-- Climbing from a leading path finds what the search from the root finds. -/
theorem Leading.seek_eq {start : Path} {o : Outline} (h : Leading start o) : o.seek start = o.ready? := by
  induction start generalizing o with
  | nil => rfl
  | cons i start ih =>
    obtain ⟨key, marked, ms⟩ := o
    obtain ⟨c, hc, hdone, hrest⟩ := h
    rw [seek, members, child?_of_firstChild hc, bind_some, ih hrest]
    cases hm : c.marked with
    | true =>
      rw [ready?_eq c, hdone hm]
      rfl
    | false =>
      obtain ⟨q, qs, hq⟩ := exists_pending hm
      have hready : c.ready? = some q := by rw [ready?_eq, hq, head?_cons]
      rw [hready, ready?, readyIn?_of_firstChild hm hready hc]

theorem Leading.markAt {start p : Path} {ps : List Path} {o : Outline} (h : Leading start o)
    (hp : o.pending = p :: ps) : Leading start (o.markAt p) := by
  induction start generalizing o p ps with
  | nil => trivial
  | cons i start ih =>
    obtain ⟨key, marked, members⟩ := o
    obtain ⟨c, hc, hdone, hrest⟩ := h
    cases p with
    | nil => exact ⟨c, hc, hdone, hrest⟩
    | cons j q =>
      obtain ⟨xs, hxs⟩ := exists_pendingIn hp
      obtain ⟨d, qs, hd, hunmarked, hq⟩ := child?_of_pendingIn hxs
      refine ⟨_, firstChild?_modify j hc, ?_⟩
      by_cases hji : j = i
      · subst hji
        obtain rfl : d = c := by rw [child?_of_firstChild hc] at hd; exact (Option.some.inj hd).symm
        rw [if_pos rfl]
        refine ⟨fun hm => ?_, ih hrest hq⟩
        rw [pending_markAt hq]
        rcases marked_markAt hm with hm | rfl
        · rw [hunmarked] at hm
          cases hm
        · exact eq_nil_of_pending hq
      · rw [if_neg hji]
        exact ⟨hdone, hrest⟩

theorem marked_setMarks (b : Bool) (o : Outline) : (o.setMarks b).marked = b := by
  cases o
  rfl

theorem firstChild?_fresh {q : Path} : ∀ {ms : OutlineMembers} {i : Nat},
    readyIn? (setMarksIn false ms) = some (i, q) →
      ∃ c, firstChild? (setMarksIn false ms) = some (i, setMarks false c) ∧ (setMarks false c).ready? = some q
  | .nil, _, h => by cases h
  | .leaf _ _ rest, _, h => by
    obtain ⟨⟨j, q⟩, hj, heq⟩ := map_eq_some_iff.mp h
    cases heq
    obtain ⟨c, hc, hq⟩ := firstChild?_fresh hj
    exact ⟨c, by rw [setMarksIn, firstChild?, hc]; rfl, hq⟩
  | .branch _ child _, _, h => by
    simp only [setMarksIn, readyIn?, marked_setMarks, Bool.false_eq_true, if_false] at h
    obtain ⟨q, hq, heq⟩ := map_eq_some_iff.mp h
    cases heq
    exact ⟨child, rfl, hq⟩

theorem leading_fresh {start : Path} {o : Outline} (h : (o.setMarks false).ready? = some start) :
    Leading start (o.setMarks false) := by
  induction start generalizing o with
  | nil => trivial
  | cons i start ih =>
    obtain ⟨key, marked, ms⟩ := o
    rw [setMarks, ready?] at h
    cases hin : readyIn? (setMarksIn false ms) with
    | none =>
      rw [hin] at h
      cases h
    | some x =>
      obtain ⟨j, q⟩ := x
      rw [hin] at h
      cases h
      obtain ⟨c, hc, hq⟩ := firstChild?_fresh hin
      refine ⟨_, hc, fun hm => ?_, ih hq⟩
      rw [marked_setMarks] at hm
      cases hm

/-! ### Runs -/

/-- From a leading path a run visits the nodes to come. -/
theorem run_eq {start : Path} {o : Outline} (h : Leading start o) : (o.run start).2 = o.pending := by
  fun_induction run start o with
  | case1 o hnext =>
    rw [next, h.seek_eq, ready?_eq, map_eq_none_iff, head?_eq_none_iff] at hnext
    exact hnext.symm
  | case2 o p o' hnext hlt final ps hrun ih =>
    rw [next, h.seek_eq, ready?_eq] at hnext
    obtain ⟨q, hq, heq⟩ := map_eq_some_iff.mp hnext
    cases heq
    obtain ⟨rest, hrest⟩ := head?_eq_some_iff.mp hq
    have hps := ih (h.markAt hrest)
    rw [hrun, pending_markAt hrest] at hps
    rw [hrest, ← hps]

/-! ### The post-order -/

mutual

theorem pairwise_pending : ∀ o : Outline, o.pending.Pairwise Before
  | node _ marked members => by
    rw [pending, pairwise_append, pairwise_map]
    refine ⟨pairwise_pendingIn members, ?_, ?_⟩
    · cases marked <;> simp
    · intro p hp q hq
      obtain ⟨x, -, rfl⟩ := mem_map.mp hp
      cases marked with
      | true => cases hq
      | false =>
        rw [mem_singleton.mp hq]
        exact .under _ _

theorem pairwise_pendingIn : ∀ ms : OutlineMembers,
    (pendingIn ms).Pairwise fun x y => Before (x.1 :: x.2) (y.1 :: y.2)
  | .nil => .nil
  | .leaf _ _ rest => by
    rw [pendingIn, pairwise_map]
    exact (pairwise_pendingIn rest).imp Before.shift
  | .branch _ child rest => by
    rw [pendingIn, pairwise_append]
    refine ⟨?_, ?_, ?_⟩
    · cases child.marked with
      | true => exact .nil
      | false => exact pairwise_map.mpr ((pairwise_pending child).imp fun h => h.within 0)
    · exact pairwise_map.mpr ((pairwise_pendingIn rest).imp Before.shift)
    · intro x hx y hy
      obtain ⟨y, -, rfl⟩ := mem_map.mp hy
      cases hm : child.marked with
      | true =>
        rw [hm] at hx
        cases hx
      | false =>
        rw [hm] at hx
        obtain ⟨q, -, rfl⟩ := mem_map.mp hx
        exact .earlier (Nat.succ_pos _) _ _

end

theorem mem_pendingIn_fresh {q : Path} : ∀ {ms : OutlineMembers} {i : Nat},
    (i, q) ∈ pendingIn (setMarksIn false ms) ↔ ∃ c, ms.child? i = some c ∧ q ∈ (c.setMarks false).pending
  | .nil, i => by simp [setMarksIn, pendingIn, OutlineMembers.child?]
  | .leaf _ _ rest, i => by
    cases i with
    | zero => simp [setMarksIn, pendingIn, OutlineMembers.child?]
    | succ i => simp [setMarksIn, pendingIn, OutlineMembers.child?, ← @mem_pendingIn_fresh q rest]
  | .branch _ child rest, i => by
    cases i with
    | zero => simp [setMarksIn, pendingIn, OutlineMembers.child?, marked_setMarks]
    | succ i =>
      simp [setMarksIn, pendingIn, OutlineMembers.child?, marked_setMarks, ← @mem_pendingIn_fresh q rest]

theorem mem_pending_fresh {p : Path} {o : Outline} : p ∈ (o.setMarks false).pending ↔ (o.at? p).isSome := by
  induction p generalizing o with
  | nil =>
    obtain ⟨key, marked, ms⟩ := o
    simp [setMarks, pending, at?]
  | cons i p ih =>
    obtain ⟨key, marked, ms⟩ := o
    have hin : i :: p ∈ (setMarks false (node key marked ms)).pending ↔
        (i, p) ∈ pendingIn (setMarksIn false ms) := by
      simp [setMarks, pending]
    rw [hin, mem_pendingIn_fresh, at?]
    cases ms.child? i with
    | none => simp
    | some c => simp [ih]

/-! ### Walks -/

def visits (o : Outline) : List Path := (o.setMarks false).pending

theorem walk_keys (o : Outline) : o.walk.2 = o.visits.filterMap fun p => (o.at? p).map key := by
  obtain ⟨first, rest, hfirst⟩ := exists_pending (marked_setMarks false o)
  have hready : (o.setMarks false).ready? = some first := by rw [ready?_eq, hfirst, head?_cons]
  have hstart : (o.setMarks false).start = first := by rw [start, hready, getD_some]
  have hrun := run_eq (leading_fresh hready)
  simp only [walk, keysAt, hstart, hrun, visits, key_at?_setMarks]

theorem walk_aligned (o : Outline) :
    List.Forall₂ (fun p found => (o.at? p).map key = some found) o.visits o.walk.2 := by
  rw [walk_keys]
  have hall : ∀ p ∈ o.visits, (o.at? p).isSome := fun p hp => mem_pending_fresh.mp hp
  generalize o.visits = ps at hall ⊢
  induction ps with
  | nil => exact .nil
  | cons p ps ih =>
    obtain ⟨n, hn⟩ := isSome_iff_exists.mp (hall p mem_cons_self)
    rw [filterMap_cons, hn]
    exact .cons (by rw [hn]; rfl) (ih fun q hq => hall q (mem_cons_of_mem p hq))

/-- Start a walk and take `n` steps of it. -/
def partWalk (n : Nat) (o : Outline) : Outline :=
  let fresh := o.setMarks false
  steps fresh.start n fresh
where
  steps (start : Path) : Nat → Outline → Outline
    | 0, o => o
    | n + 1, o =>
      match o.next start with
      | none => o
      | some (_, o') => steps start n o'

theorem setMarks_steps (b : Bool) (start : Path) (n : Nat) (o : Outline) :
    (partWalk.steps start n o).setMarks b = o.setMarks b := by
  induction n generalizing o with
  | zero => rfl
  | succ n ih =>
    rw [partWalk.steps]
    cases hnext : o.next start with
    | none => rfl
    | some x => exact (ih x.2).trans (setMarks_next b hnext)

/-- A walk that was not finished leaves no trace in the next one. -/
theorem walk_partWalk (n : Nat) (o : Outline) : (o.partWalk n).walk = o.walk := by
  have hfresh : (o.partWalk n).setMarks false = o.setMarks false := by
    rw [partWalk, setMarks_steps, setMarks_setMarks]
  simp only [walk, hfresh]

/-- **A walk is in post-order**: it visits every node of a nested table exactly once, the nodes below
before it, earlier members before later ones and the root last, and does so again after any walks,
finished or not. -/
theorem walk_postorder (k : Value) (kvs : List (Value × Value)) :
    ∃ ps : List Path,
      List.Forall₂ (IsNode k (.table kvs)) ps (ofValue k (.table kvs)).walk.2 ∧
      (∀ p found, IsNode k (.table kvs) p found → p ∈ ps) ∧ ps.Nodup ∧ ps.Pairwise Before ∧
      ps.getLast? = some [] ∧
      ∀ counts : List Nat, (counts.foldl (fun o n => o.partWalk n) (ofValue k (.table kvs))).walk =
        (ofValue k (.table kvs)).walk := by
  have horder : (ofValue k (.table kvs)).visits.Pairwise Before := pairwise_pending _
  refine ⟨(ofValue k (.table kvs)).visits, ?_, ?_, horder.imp Before.ne, horder, ?_, ?_⟩
  · exact (walk_aligned _).imp fun p found h => isNode_iff.mpr h
  · intro p found h
    rw [visits, mem_pending_fresh, ← isSome_map, isNode_iff.mp h]
    rfl
  · exact getLast?_pending (marked_setMarks false _)
  · intro counts
    generalize ofValue k (.table kvs) = o
    induction counts generalizing o with
    | nil => rfl
    | cons n counts ih => rw [foldl_cons, ih, walk_partWalk]

end RegisterMap.Outline
