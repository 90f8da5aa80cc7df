import Mathlib.Data.List.Perm.Basic
import RegisterMap.Proofs.Decoder.Domains

/-! # The nodes of a decoder

The decoder of a tree of instances fits the tree (`Decoder.Fits`): a node has a domain for each space of
its instance, and its children stand in slots of these spaces (`Decoder.Enters`).  A child in a loop is
joined from the copies that the loop makes, whose indices are `0, …, n - 1` (`Decoder.Copies`). -/

namespace RegisterMap

open Build List

theorem Design.groupBy_key {κ α : Type} [BEq κ] [LawfulBEq κ] {key : α → κ} {items : List α} {e : κ × List α}
    (h : e ∈ Design.groupBy key items) : e.2 ≠ [] ∧ ∀ a ∈ e.2, key a = e.1 ∧ a ∈ items := by
  suffices hfold : ∀ (rest done : List α) (t : Table κ (List α)),
      (∀ e ∈ t, e.2 ≠ [] ∧ ∀ a ∈ e.2, key a = e.1 ∧ a ∈ done) →
      ∀ e ∈ rest.foldl (fun groups a => Table.update groups (key a) [] (· ++ [a])) t,
        e.2 ≠ [] ∧ ∀ a ∈ e.2, key a = e.1 ∧ a ∈ done ++ rest from
    hfold items [] [] (by simp) e h
  intro rest
  induction rest with
  | nil => exact fun done t ht => by simpa using ht
  | cons b rest ih =>
    intro done t ht e he
    rw [foldl_cons] at he
    have hstep := ih (done ++ [b]) _ (fun e' he' => ?_) e he
    · simpa using hstep
    rcases Table.mem_put_cases he' with he' | ⟨hv, hk⟩
    · obtain ⟨hne, hall⟩ := ht e' he'
      exact ⟨hne, fun a ha => (hall a ha).imp_right (mem_append_left _)⟩
    · have hkey : e'.1 = key b := hk.elim id fun hk => eq_of_beq hk
      rw [hv]
      refine ⟨by simp, fun a ha => ?_⟩
      rcases mem_append.mp ha with ha | ha
      · cases hget : Table.get? t (key b) with
        | none =>
          rw [hget] at ha
          cases ha
        | some old =>
          rw [hget] at ha
          obtain ⟨k', hmem, hk'⟩ := Table.mem_of_get? hget
          obtain ⟨hka, hdone⟩ := (ht _ hmem).2 a ha
          exact ⟨hka.trans ((eq_of_beq hk').trans hkey.symm), mem_append_left _ hdone⟩
      · rw [mem_singleton.mp ha]
        exact ⟨hkey.symm, by simp⟩

/-! ### Indices of copies -/

namespace Value

theorem numbers_of_mapM {places : List (Option Nat)} {xs : List Int}
    (h : (places.map (ofOption fun n : Nat => int n)).mapM requireNumber = .ok xs) :
    ∃ ns : List Nat, places = ns.map some ∧ xs = ns.map Int.ofNat := by
  induction places generalizing xs with
  | nil =>
    cases h
    exact ⟨[], rfl, rfl⟩
  | cons o places ih =>
    rw [map_cons, mapM_cons] at h
    obtain ⟨x, hx, h⟩ := Result.bind_ok h
    obtain ⟨ys, hys, h⟩ := Result.bind_ok h
    cases h
    obtain ⟨ns, rfl, rfl⟩ := ih hys
    cases o with
    | none => cases hx
    | some n =>
      cases hx
      exact ⟨n :: ns, rfl, rfl⟩

theorem places_of_isPermutedRange {places : List (Option Nat)}
    (h : isPermutedRange (list (places.map (ofOption fun n : Nat => int n))) = .ok true) :
    ∃ ns : List Nat, places = ns.map some ∧ ns.Perm (List.range ns.length) := by
  match places, h with
  | [], _ => exact ⟨[], rfl, List.Perm.refl _⟩
  | [o], h =>
    cases o with
    | none => cases h
    | some n =>
      have hn : (int n == int 0) = true := Except.ok.inj h
      have hzero := integer?_of_same hn
      obtain rfl : n = 0 := by simpa [integer?, number?] using hzero
      exact ⟨[0], rfl, List.Perm.refl _⟩
  | o :: o' :: places, h =>
    unfold isPermutedRange at h
    simp only [map_cons] at h
    rw [if_neg (by cases o <;> simp [ofOption, text?, items?])] at h
    obtain ⟨xs, hxs, h⟩ := Result.bind_ok h
    have hall : (List.map (ofOption fun n : Nat => int n) (o :: o' :: places)).mapM requireNumber =
        .ok xs := hxs
    obtain ⟨ns, hns, rfl⟩ := numbers_of_mapM hall
    refine ⟨ns, hns, ?_⟩
    have hperm := Number.perm_of_isPermutedRange (Except.ok.inj h)
    rw [length_map] at hperm
    exact (map_perm_map_iff fun _ _ he => Int.ofNat.inj he).mp hperm

end Value

/-! ### Spaces of an instance -/

theorem Instance.spaceOf_ok {i : Instance} {k : Value} {o : Option SpaceId} {ws ws' : Workspace}
    (h : i.spaceOf k ws = .ok o ws') :
    o = i.spaces.find? (fun id => ws.domainOf id == k) ∧ ws' = ws := by
  unfold Instance.spaceOf at h
  generalize i.spaces = ids at h ⊢
  induction ids with
  | nil => exact pure_ok h
  | cons id ids ih =>
    rw [List.findM?] at h
    obtain ⟨b, ws1, htest, h1⟩ := bind_ok h
    obtain ⟨s, hs, htest1⟩ := SpaceId.bind_get_ok htest
    obtain ⟨rfl, rfl⟩ := pure_ok htest1
    rw [find?_cons, Workspace.domainOf_eq hs]
    cases hd : s.domain == k with
    | true =>
      rw [hd] at h1
      exact pure_ok h1
    | false =>
      rw [hd] at h1
      exact ih h1

namespace Decoder

open Workspace (Equips)

variable {w : Workspace} {i : Instance} {n : Node}

theorem startOf_ok {parent child : Instance} {target : SpaceId} {start : Int} {ws ws' : Workspace}
    (hset : ∀ id ∈ parent.spaces, ws.Resolved id) (h : startOf parent child target ws = .ok start ws') :
    ws' = ws ∧ ∃ host slot,
      parent.spaces.find? (fun j => ws.domainOf j == child.parentDomain) = some host ∧
      ws.Contains host slot target ∧ slot.lo = start := by
  obtain ⟨o, ws1, hspace, h1⟩ := bind_ok h
  obtain ⟨ho, rfl⟩ := Instance.spaceOf_ok hspace
  cases o with
  | none =>
    obtain ⟨text, ws2, -, h2⟩ := bind_ok h1
    exact (throw_ok h2).elim
  | some host =>
    obtain ⟨items, ws2, hitems, h2⟩ := bind_ok h1
    obtain ⟨s, hs, hr⟩ := hset host (mem_of_find?_eq_some ho.symm)
    obtain ⟨rfl, rfl⟩ := Domain.contents_settled hs hr hitems
    generalize hfind : List.find? _ (Domain.slotItems s) = found at h2
    match found, hfind, h2 with
    | some (some start', stop, item), hfind, h2 =>
      obtain ⟨rfl, rfl⟩ := pure_ok h2
      have hitem := find?_some hfind
      obtain ⟨slot, hslot, he⟩ := mem_map.mp (mem_of_find?_eq_some hfind)
      obtain ⟨hlo, -, rfl⟩ : slot.lo = start ∧ _ ∧ slot.item = item := by simpa using he
      exact ⟨rfl, host, slot, ho.symm, ⟨s, hs, hslot, by simpa using hitem⟩, hlo⟩
    | some (none, _), _, h2 => exact (throw_ok h2).elim
    | none, _, h2 => exact (throw_ok h2).elim

/-! ### Nodes -/

/-- What a node knows of its instance, apart from where it stands. -/
structure Node.Describes (w : Workspace) (i : Instance) (n : Node) : Prop where
  block : n.block = i.block
  domains : ∃ ds, List.Forall₂ (Domain.Describes w) i.spaces ds ∧
    n.domains = Table.ofPairs (ds.map fun d => (d.domain, d))

/-- The node has the name of its main domain. -/
def Node.IsNamed (n : Node) : Prop := ∃ d, n.main = .ok d ∧ n.inst = d.inst

theorem Node.Describes.mem (h : n.Describes w i) {k : Value} {d : Domain} (hd : (k, d) ∈ n.domains) :
    d.space ∈ i.spaces ∧ Domain.Describes w d.space d ∧ (k = d.domain ∨ (k == d.domain) = true) := by
  obtain ⟨ds, hall, hdomains⟩ := h.domains
  rw [hdomains] at hd
  obtain ⟨row, hrow, hvalue, hkey⟩ := Table.mem_ofPairs hd
  obtain ⟨d', hd', rfl⟩ := mem_map.mp hrow
  obtain rfl : d' = d := hvalue
  obtain ⟨id, hid, hdescribes⟩ := forall₂_exists_left hall hd'
  rw [hdescribes.space]
  exact ⟨hid, hdescribes, hkey⟩

theorem Node.Describes.main (h : n.Describes w i) {d : Domain} (hd : n.main = .ok d) :
    d.space ∈ i.spaces ∧ Domain.Describes w d.space d ∧ w.domainOf d.space = .none := by
  unfold Node.main Design.requireKey at hd
  split at hd
  · rename_i d' hget
    obtain rfl := Except.ok.inj hd
    obtain ⟨k, hmem, hk⟩ := Table.mem_of_get? hget
    obtain ⟨hspace, hdescribes, hkey⟩ := h.mem hmem
    refine ⟨hspace, hdescribes, ?_⟩
    rw [← hdescribes.domain]
    obtain rfl := Value.eq_none_of_same hk
    rcases hkey with hkey | hkey
    · exact hkey.symm
    · exact Value.eq_none_of_same (Value.same_symm rfl hkey)
  · cases hd

theorem Node.ofInstance_describes (busses : List BusId) (ports : BusId)
    (ha : w.policy.alignedLoops = true) :
    Ensures Equips w.Equips (Node.ofInstance busses ports i) fun n ws =>
      (n.Describes w i ∧ n.IsNamed) ∧ w.Equips ws := by
  refine Ensures.bind (Q := fun rows ws => (∃ ds, List.Forall₂ (Domain.Describes w) i.spaces ds ∧
    rows = ds.map fun d => (d.domain, d)) ∧ w.Equips ws) ?_ fun rows => Ensures.given fun hrows => ?_
  · refine (ensures_mapM (fun done rows ws => (∃ ds, List.Forall₂ (Domain.Describes w) done ds ∧
      rows = ds.map fun d => (d.domain, d)) ∧ w.Equips ws) ?_).pre fun ws hw => ⟨⟨[], .nil, rfl⟩, hw⟩
    rintro done id rest - rows
    refine Ensures.given fun ⟨ds, hall, hrows⟩ => ?_
    refine (Domain.ofSpace_describes busses ports id ha).bind fun d => ?_
    refine ensures_pure fun ws ⟨hd, hw⟩ => ⟨⟨ds ++ [d], ?_, by simp [hrows]⟩, hw⟩
    exact rel_append hall (.cons hd .nil)
  · obtain ⟨ds, hall, rfl⟩ := hrows
    refine ensures_lift.bind fun d => ensures_pure fun ws ⟨hmain, hw⟩ => ⟨⟨?_, ?_⟩, hw⟩
    · exact ⟨rfl, ds, hall, rfl⟩
    · exact ⟨d, hmain, rfl⟩

/-- Where an instance in a block stands. -/
def placeIn (w : Workspace) (block : Option BlockId) (domain : Value) (start : Int) : Place :=
  match block.bind fun id => w.blocks[id.index]? with
  | none => .direct domain start
  | some b => if b.isLoop then .looped domain b.branch start else .direct domain start

theorem placeOf_eq (n : Node) (domain : Value) (start : Int) :
    Ensures Equips w.Equips (placeOf n domain start) fun place ws =>
      place = placeIn w n.block domain start ∧ w.Equips ws := by
  intro ws place ws' hw hrun
  obtain ⟨o, ws1, hblock, hrun1⟩ := bind_ok hrun
  unfold placeIn
  cases hb : n.block with
  | none =>
    rw [hb] at hblock
    obtain ⟨rfl, rfl⟩ := pure_ok hblock
    obtain ⟨rfl, rfl⟩ := pure_ok hrun1
    exact ⟨.refl _, rfl, hw⟩
  | some id =>
    rw [hb] at hblock
    obtain ⟨block, hget, hblock1⟩ := bind_entryOf_ok hblock
    obtain ⟨rfl, rfl⟩ := pure_ok hblock1
    rw [hw.blocks] at hget
    obtain ⟨_, ws3, hnote, hrun2⟩ := bind_ok hrun1
    obtain ⟨hstep, hw3⟩ := note_equips _ hw hnote
    obtain ⟨rfl, rfl⟩ := pure_ok hrun2
    exact ⟨hstep, by rw [Option.bind_some, hget], hw3⟩

/-! ### Children -/

/-- A node stands for an instance in its parent. -/
structure Enters (w : Workspace) (parent child : Instance) (n : Node) : Prop where
  named : n.IsNamed
  place : ∃ target host slot, child.spaces.find? (fun j => w.domainOf j == .none) = some target ∧
    parent.spaces.find? (fun j => w.domainOf j == child.parentDomain) = some host ∧
    w.Contains host slot target ∧ n.place = placeIn w n.block child.parentDomain slot.lo

/-- Copies that a loop makes of an instance in a domain, with their indices, joined to one node. -/
structure Copies (grown : List (Tree Node)) (domain : Value) (branch : String)
    (copies : List (Nat × Tree Node)) (k : Tree Node) : Prop where
  mem : ∀ p ∈ copies, p.2 ∈ grown ∧
    (∃ d start, p.2.data.place = .looped d branch start ∧ (d == domain) = true) ∧
    ∃ b, Source.blockName p.2.data.inst = .ok (some b) ∧ b.index = some p.1 ∧ b.inner = k.data.inst
  perm : (copies.map Prod.fst).Perm (List.range copies.length)
  first : ∃ p rest addresses, copies = p :: rest ∧
    k = p.2.setData { p.2.data with inst := k.data.inst, addresses := addresses }

theorem joinCopies_ok {name : Option String} {copies : List (Int × Tree Node)} {k : Tree Node}
    (h : joinCopies name copies = .ok k) :
    ∃ (group : List (Nat × Int × Tree Node)) (inner : String), name = some inner ∧
      group.map Prod.snd = copies ∧ (group.map Prod.fst).Perm (List.range group.length) ∧
      (∀ p ∈ group, ∃ b, Source.blockName p.2.2.data.inst = .ok (some b) ∧ b.index = some p.1) ∧
      ∃ p rest addresses, group = p :: rest ∧
        k = p.2.2.setData { p.2.2.data with inst := inner, addresses := addresses } := by
  obtain ⟨indices, hindices, h1⟩ := Result.bind_ok h
  obtain ⟨permuted, hpermuted, h2⟩ := Result.bind_ok h1
  have hplaces : ∃ places : List (Option Nat),
      indices = places.map (Value.ofOption fun n : Nat => .int n) ∧
      List.Forall₂ (fun (c : Int × Tree Node) place =>
        ∃ o, Source.blockName c.2.data.inst = .ok o ∧ place = o.bind (·.index)) copies places := by
    have hall := Result.mapM_ok hindices
    clear h h1 h2 hpermuted hindices
    induction hall with
    | nil => exact ⟨[], rfl, .nil⟩
    | cons hc _ ih =>
      obtain ⟨o, ho, hc⟩ := Result.bind_ok hc
      obtain rfl := Except.ok.inj hc
      obtain ⟨places, rfl, hall⟩ := ih
      refine ⟨o.bind (·.index) :: places, ?_, .cons ⟨o, ho, rfl⟩ hall⟩
      rw [map_cons]
      rcases o with _ | ⟨_, _, _ | n⟩ <;> rfl
  obtain ⟨places, rfl, hall⟩ := hplaces
  cases permuted with
  | false => cases h2
  | true =>
    obtain ⟨ns, rfl, hperm⟩ := Value.places_of_isPermutedRange hpermuted
    obtain ⟨hlen, hzip⟩ := forall₂_iff_zip.mp (forall₂_map_right_iff.mp hall).flip
    have hfst : (ns.zip copies).map Prod.fst = ns := map_fst_zip hlen.le
    have hsnd : (ns.zip copies).map Prod.snd = copies := map_snd_zip hlen.ge
    have hsize : (ns.zip copies).length = ns.length := by rw [← length_map Prod.fst, hfst]
    match name, copies, h2 with
    | some inner, first :: rest, h2 =>
      refine ⟨ns.zip (first :: rest), inner, rfl, hsnd, ?_, fun p hp => ?_, ?_⟩
      · rwa [hfst, hsize]
      · obtain ⟨o, ho, hn⟩ := hzip hp
        obtain ⟨b, rfl, hb⟩ := Option.bind_eq_some_iff.mp hn.symm
        exact ⟨b, ho, hb⟩
      · match ns, hlen with
        | n :: ns, _ => exact ⟨_, _, _, rfl, (Except.ok.inj h2).symm⟩
    | some _, [], h2 => cases h2
    | none, _, h2 => cases h2

theorem joinLoop_ok {copies : List (Int × Tree Node)} {ks : List (Tree Node)}
    (h : joinLoop copies = .ok ks) {k : Tree Node} (hk : k ∈ ks) :
    ∃ group : List (Nat × Int × Tree Node),
      (group.map Prod.fst).Perm (List.range group.length) ∧
      (∀ p ∈ group, p.2 ∈ copies ∧ ∃ b, Source.blockName p.2.2.data.inst = .ok (some b) ∧
        b.index = some p.1 ∧ b.inner = k.data.inst) ∧
      ∃ p rest addresses, group = p :: rest ∧
        k = p.2.2.setData { p.2.2.data with inst := k.data.inst, addresses := addresses } := by
  obtain ⟨named, hnamed, h1⟩ := Result.bind_ok h
  obtain ⟨⟨name, items⟩, hitems, hone⟩ := forall₂_exists_left (Result.mapM_ok h1) hk
  obtain ⟨k', hjoin, hone1⟩ := Result.bind_ok hone
  obtain rfl : k' = k := by
    dsimp only at hone1
    split at hone1
    · cases hone1
    · exact Except.ok.inj hone1
  obtain ⟨group, inner, rfl, hgroup, hperm, hindex, p, rest, addresses, hfirst, rfl⟩ := joinCopies_ok hjoin
  obtain ⟨-, hkeys⟩ := Design.groupBy_key hitems
  refine ⟨group, hperm, fun q hq => ?_, p, rest, addresses, hfirst, rfl⟩
  obtain ⟨b, hb, hn⟩ := hindex q hq
  have hq' : q.2 ∈ items.map Prod.snd := hgroup ▸ mem_map_of_mem hq
  obtain ⟨a, ha, haq⟩ := mem_map.mp hq'
  obtain ⟨hkey, ha⟩ := hkeys a ha
  obtain ⟨c, hc, hrow⟩ := forall₂_exists_left (Result.mapM_ok hnamed) ha
  obtain ⟨o, ho, hrow⟩ := Result.bind_ok hrow
  obtain rfl := Except.ok.inj hrow
  obtain rfl : c = q.2 := haq
  obtain rfl : o = some b := Except.ok.inj (ho.symm.trans hb)
  exact ⟨hc, b, hb, hn, Option.some.inj hkey⟩

theorem childrenIn_ok {grown ks : List (Tree Node)} {domain : Value} (h : childrenIn grown domain = .ok ks)
    {k : Tree Node} (hk : k ∈ ks) :
    (k ∈ grown ∧ ∃ d start, k.data.place = .direct d start ∧ (d == domain) = true) ∨
      ∃ branch copies, Copies grown domain branch copies k := by
  obtain ⟨joined, hjoined, h⟩ := Result.bind_ok h
  obtain rfl := Except.ok.inj h
  rcases mem_append.mp hk with hk | hk
  · obtain ⟨hk, hplace⟩ := mem_filter.mp hk
    refine .inl ⟨hk, ?_⟩
    split at hplace
    · exact ⟨_, _, ‹_›, hplace⟩
    · cases hplace
  · obtain ⟨ks, hks, hk⟩ := mem_flatten.mp hk
    obtain ⟨⟨branch, items⟩, hitems, hloop⟩ := forall₂_exists_left (Result.mapM_ok hjoined) hks
    obtain ⟨group, hperm, hall, p, rest, addresses, hfirst, hk⟩ := joinLoop_ok hloop hk
    obtain ⟨-, hkeys⟩ := Design.groupBy_key hitems
    refine .inr ⟨branch, group.map fun p => (p.1, p.2.2), fun q hq => ?_, ?_, ?_⟩
    · obtain ⟨p, hp, rfl⟩ := mem_map.mp hq
      obtain ⟨hmem, b, hb, hindex, hinner⟩ := hall p hp
      obtain ⟨a, ha, hap⟩ := mem_map.mp hmem
      obtain ⟨hkey, ha⟩ := hkeys a ha
      obtain ⟨t, ht, hplace⟩ := mem_filterMap.mp ha
      split at hplace
      · rename_i d branch' start hlooped
        split at hplace
        · rename_i hd
          obtain rfl := Option.some.inj hplace
          obtain rfl : branch' = branch := hkey
          obtain ⟨-, rfl⟩ : start = p.2.1 ∧ t = p.2.2 := Prod.mk.inj hap
          exact ⟨ht, ⟨d, start, hlooped, hd⟩, b, hb, hindex, hinner⟩
        · cases hplace
      · cases hplace
    · rwa [map_map, length_map]
    · exact ⟨(p.1, p.2.2), _, addresses, by rw [hfirst, map_cons], hk⟩

/-! ### The tree -/

/-- A tree of nodes fits a tree of instances: each node describes its instance, and its children come
from those of the instance. -/
inductive Fits (w : Workspace) : InstanceTree → Tree Node → Prop
  | intro {v : InstanceTree} {u : Tree Node} (grown : List (InstanceTree × Tree Node))
      (ordered : List (List (Tree Node))) (describes : u.data.Describes w v.data)
      (whole : grown.map Prod.fst = v.children.filter fun c =>
        (c.data.spaces.find? fun j => w.domainOf j == .none).isSome)
      (enters : ∀ p ∈ grown, Enters w v.data p.1.data p.2.data)
      (below : ∀ p ∈ grown, Fits w p.1 p.2)
      (children : u.children = ordered.flatten)
      (inOrder : List.Forall₂ (fun k ks => childrenIn (grown.map Prod.snd) k = .ok ks)
        (Table.keys u.data.domains) ordered) : Fits w v u

variable {v : InstanceTree} {u u' k : Tree Node}

theorem Fits.describes (h : Fits w v u) : u.data.Describes w v.data := by
  cases h
  assumption

theorem Fits.congr (h : Fits w v u) (hblock : u'.data.block = u.data.block)
    (hdomains : u'.data.domains = u.data.domains) (hchildren : u'.children = u.children) : Fits w v u' := by
  obtain ⟨grown, ordered, hdescribes, hwhole, henters, hbelow, hordered, hall⟩ := h
  refine .intro grown ordered ⟨?_, ?_⟩ hwhole henters hbelow (hchildren.trans hordered) ?_
  · rw [hblock, hdescribes.block]
  · rw [hdomains]
    exact hdescribes.domains
  · rwa [hdomains]

/-- A child of a node stands for a child of the instance, or is joined from copies that do. -/
theorem Fits.child (h : Fits w v u) (hk : k ∈ u.children) :
    (∃ c ∈ v.children, Enters w v.data c.data k.data ∧ Fits w c k ∧
      ∃ d start, k.data.place = .direct d start) ∨
    ∃ grown domain branch copies, Copies grown domain branch copies k ∧
      ∀ g ∈ grown, ∃ c ∈ v.children, Enters w v.data c.data g.data ∧ Fits w c g := by
  obtain ⟨grown, ordered, -, hwhole, henters, hbelow, hordered, hall⟩ := h
  have hgrown : ∀ g ∈ grown.map Prod.snd, ∃ c ∈ v.children,
      Enters w v.data c.data g.data ∧ Fits w c g := by
    intro g hg
    obtain ⟨p, hp, rfl⟩ := mem_map.mp hg
    have hmem : p.1 ∈ grown.map Prod.fst := mem_map_of_mem hp
    rw [hwhole] at hmem
    exact ⟨p.1, (mem_filter.mp hmem).1, henters p hp, hbelow p hp⟩
  rw [hordered] at hk
  obtain ⟨ks, hks, hk⟩ := mem_flatten.mp hk
  obtain ⟨domain, -, hdomain⟩ := forall₂_exists_left hall hks
  rcases childrenIn_ok hdomain hk with ⟨hmem, d, start, hplace, -⟩ | ⟨branch, copies, hcopies⟩
  · obtain ⟨c, hc, henters, hfits⟩ := hgrown k hmem
    exact .inl ⟨c, hc, henters, hfits, d, start, hplace⟩
  · exact .inr ⟨grown.map Prod.snd, domain, branch, copies, hcopies, hgrown⟩

theorem Fits.exists_child (h : Fits w v u) (hk : k ∈ u.children) : ∃ c ∈ v.children, Fits w c k := by
  rcases h.child hk with ⟨c, hc, -, hfits, -⟩ | ⟨grown, domain, branch, copies, hcopies, hgrown⟩
  · exact ⟨c, hc, hfits⟩
  · obtain ⟨p, rest, addresses, hsplit, hfirst⟩ := hcopies.first
    obtain ⟨hmem, -⟩ := hcopies.mem p (hsplit ▸ mem_cons_self)
    obtain ⟨c, hc, -, hfits⟩ := hgrown p.2 hmem
    rw [hfirst]
    exact ⟨c, hc, hfits.congr rfl rfl rfl⟩

theorem Fits.subtrees (h : Fits w v u) (hu' : u' ∈ u.subtrees) : ∃ v' ∈ v.subtrees, Fits w v' u' := by
  induction u using Tree.induct generalizing v with
  | _ n ks ih =>
    rw [Tree.subtrees] at hu'
    rcases mem_append.mp hu' with hu' | hu'
    · obtain ⟨k, hk, hu'⟩ := Tree.mem_subtreesIn.mp hu'
      obtain ⟨c, hc, hfits⟩ := h.exists_child hk
      obtain ⟨v', hv', hfits'⟩ := ih k hk hfits hu'
      exact ⟨v', Tree.subtrees_subset (Tree.child_mem_subtrees (Tree.mem_subtrees_self v) hc) hv', hfits'⟩
    · rw [mem_singleton.mp hu']
      exact ⟨v, Tree.mem_subtrees_self v, h⟩

theorem adopt_ok (n : Node) (children : List (Tree Node)) :
    Ensures Equips w.Equips (adopt n children) fun u ws => (∃ branches ordered,
      u = .node { n with branches := branches } ordered.flatten ∧
      List.Forall₂ (fun k ks => childrenIn children k = .ok ks) (Table.keys n.domains) ordered) ∧
      w.Equips ws := by
  intro ws u ws' hw hrun
  obtain ⟨blocks, ws1, hblocks, hrun1⟩ := bind_ok hrun
  obtain ⟨rfl, -⟩ := filterMapM_ok hblocks fun t _ o ws2 ht =>
    readOnly_optionMapM (fun id _ _ _ h => (entryOf_ok h).2) ht
  obtain ⟨ordered, ws2, hordered, hrun2⟩ := bind_ok hrun1
  obtain ⟨rfl, hall⟩ := mapM_ok hordered fun _ _ _ _ h => (lift_ok h).2
  obtain ⟨rfl, rfl⟩ := pure_ok hrun2
  exact ⟨.refl _, ⟨_, ordered, rfl, hall.imp fun _ _ h => (lift_ok h).1⟩, hw⟩

section Growth

variable (busses : List BusId) (ports : BusId)

/-- Growing gives a tree that fits. -/
def WellGrown (w : Workspace) (t : InstanceTree) : Prop :=
  Ensures Equips w.Equips (grow busses ports t) fun u ws =>
    (Fits w t u ∧ u.data.IsNamed) ∧ w.Equips ws

theorem growAll_fits {parent : Instance} (hset : ∀ id ∈ parent.spaces, w.Resolved id)
    {ts : List InstanceTree} (hgrow : ∀ t ∈ ts, WellGrown busses ports w t) :
    Ensures Equips w.Equips (growAll busses ports parent ts) fun gs ws =>
      (∃ grown : List (InstanceTree × Tree Node), gs = grown.map Prod.snd ∧
        (grown.map Prod.fst = ts.filter fun c =>
          (c.data.spaces.find? fun j => w.domainOf j == .none).isSome) ∧
        ∀ p ∈ grown, Enters w parent p.1.data p.2.data ∧ Fits w p.1 p.2) ∧ w.Equips ws := by
  induction ts with
  | nil =>
    rw [growAll]
    exact ensures_pure fun ws hw => ⟨⟨[], rfl, rfl, by simp⟩, hw⟩
  | cons t ts ih =>
    obtain ⟨hgrowt, hgrowts⟩ := forall_mem_cons.mp hgrow
    intro ws gs ws' hw hrun
    rw [growAll] at hrun
    obtain ⟨o, ws1, hspace, hrun1⟩ := bind_ok hrun
    obtain ⟨ho, rfl⟩ := Instance.spaceOf_ok hspace
    simp only [hw.domainOf_eq] at ho
    cases o with
    | none =>
      obtain ⟨_, ws2, hsay, hrun2⟩ := bind_ok hrun1
      obtain ⟨hstep, hw2⟩ := say_equips _ hw hsay
      obtain ⟨hstep', ⟨grown, hgs, hwhole, hall⟩, hw'⟩ := ih hgrowts hw2 hrun2
      exact ⟨hstep.trans hstep', ⟨grown, hgs, by rw [hwhole, filter_cons, ← ho]; rfl, hall⟩, hw'⟩
    | some target =>
      obtain ⟨start, ws2, hstart, hrun2⟩ := bind_ok hrun1
      obtain ⟨rfl, host, slot, hhost, hslot, rfl⟩ :=
        startOf_ok (fun id hid => hw.resolved (hset id hid)) hstart
      obtain ⟨g, ws3, hg, hrun3⟩ := bind_ok hrun2
      obtain ⟨hstep3, ⟨hfits, hnamed⟩, hw3⟩ := hgrowt hw hg
      obtain ⟨place, ws4, hplace, hrun4⟩ := bind_ok hrun3
      obtain ⟨hstep4, rfl, hw4⟩ := placeOf_eq _ _ _ hw3 hplace
      obtain ⟨rest, ws5, hrest, hrun5⟩ := bind_ok hrun4
      obtain ⟨hstep5, ⟨grown, rfl, hwhole, hall⟩, hw5⟩ := ih hgrowts hw4 hrest
      obtain ⟨rfl, rfl⟩ := pure_ok hrun5
      simp only [hw.domainOf_eq] at hhost
      refine ⟨(hstep3.trans hstep4).trans hstep5, ⟨(t, _) :: grown, rfl, ?_, ?_⟩, hw5⟩
      · rw [map_cons, hwhole, filter_cons, ← ho]
        rfl
      · refine forall_mem_cons.mpr ⟨⟨⟨hnamed, target, host, slot, ho.symm, hhost,
          hw.contains hslot, rfl⟩, hfits.congr rfl rfl rfl⟩, hall⟩

theorem grow_fits {t : InstanceTree} (hset : ∀ i ∈ t.toList, ∀ id ∈ i.spaces, w.Resolved id)
    (ha : w.policy.alignedLoops = true) : WellGrown busses ports w t := by
  induction t using Tree.induct with
  | _ i ts ih =>
    have hown : ∀ id ∈ i.spaces, w.Resolved id := hset i (Tree.data_mem_toList (.node i ts))
    have hbelow : ∀ t ∈ ts, WellGrown busses ports w t := fun t ht =>
      ih t ht fun j hj => hset j (Tree.mem_toList_of_child ht hj)
    unfold WellGrown
    rw [grow]
    refine (Node.ofInstance_describes busses ports ha).bind fun n => ?_
    refine Ensures.given fun ⟨hdescribes, hnamed⟩ => ?_
    refine (growAll_fits busses ports hown hbelow).bind fun gs => Ensures.given fun ⟨grown, hgs, hwhole, hall⟩ => ?_
    refine (adopt_ok n gs).imp fun u ws ⟨⟨branches, ordered, hu, hordered⟩, hw⟩ => ⟨⟨?_, ?_⟩, hw⟩
    · subst hu hgs
      exact .intro grown ordered ⟨hdescribes.block, hdescribes.domains⟩ hwhole (fun p hp => (hall p hp).1)
        (fun p hp => (hall p hp).2) rfl hordered
    · subst hu
      exact hnamed

end Growth

end Decoder

end RegisterMap
