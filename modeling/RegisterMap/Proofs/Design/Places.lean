import Mathlib.Data.List.TakeWhile
import RegisterMap.Proofs.Design.Outcome

/-! # Where instances stand

A space that stands in a slot is one of an instance that a bus enters, and the slot is in the space of
the parent that has the domain of the instance (`Resolved.seat`).  In the tree of a design that was read
this is the only space of the parent with that domain (`Origin.eq_host`), and the instance has one space
only for each domain (`Origin.eq_of_domain`).  No space stands at a negative address
(`Origin.origin_nonneg`). -/

namespace RegisterMap

namespace Tree

variable {α : Type}

theorem parent_of_traced {p : Option α} {t : Tree α} {u c : Tree (Option α × α)}
    (hu : u ∈ (t.traced p).subtrees) (hc : c ∈ u.children) : c.data.1 = some u.data.2 := by
  induction t using induct generalizing p with
  | _ a ts ih =>
    rw [traced_node, subtrees] at hu
    rcases List.mem_append.mp hu with hu | hu
    · obtain ⟨v, hv, hu⟩ := mem_subtreesIn.mp hu
      obtain ⟨t, ht, rfl⟩ := List.mem_map.mp hv
      exact ih t ht hu
    · rw [List.mem_singleton.mp hu] at hc ⊢
      obtain ⟨t, -, rfl⟩ := List.mem_map.mp hc
      cases t with
      | node b us => rw [traced_node]; rfl

theorem mem_withParents_of_traced {p : Option α} {t : Tree α} {u : Tree (Option α × α)}
    (hu : u ∈ (t.traced p).subtrees) : u.data ∈ t.withParents p := by
  rw [← toList_traced]
  exact List.mem_map_of_mem hu

end Tree

namespace Design

open Workspace

theorem Resolved.seat {ws ws' : Workspace} {walk : List (Option Instance × Instance)}
    {e : Option Instance × Instance} {st : Resolution} {host c : SpaceId} {slot : Slot Occupant}
    (hp : Planted ws walk) (hr : Resolved ws walk st ws') (he : e ∈ walk) (hc : c ∈ e.2.spaces)
    (hslot : ws'.Contains host slot c) :
    ∃ p, e.1.filter (fun p => entered p e.2) = some p ∧ host ∈ hostsOf ws p e.2 ∧ c ∉ st.joined := by
  obtain ⟨-, ⟨e', he', hmem, p, hparent, hhost⟩, hnot⟩ := hr.contains host slot c hslot
  obtain rfl := hp.eq_of_mem he he' hc hmem
  exact ⟨p, hparent, hhost, hnot⟩

/-! ### Instances and their parents -/

theorem Drops.sublist {joined : List SpaceId} {e : Option Instance × Instance} {i : Instance}
    (h : Drops joined e i) : i.spaces.Sublist e.2.spaces := by
  obtain ⟨i0, spaces, -, hsub, rfl⟩ := h
  exact hsub

theorem Drops.domain {joined : List SpaceId} {e : Option Instance × Instance} {i : Instance}
    (h : Drops joined e i) {p : Instance} (hp : e.1.filter (fun p => entered p e.2) = some p) {c : SpaceId}
    (hc : c ∈ e.2.spaces) (hnot : c ∉ joined) : fromParent p.domains e.2 = .ok i.parentDomain := by
  obtain ⟨i0, spaces, hhoused, -, rfl⟩ := h
  exact hhoused.domain p hp c hc hnot

namespace Origin

variable {d : Design} {ws' ws : Workspace} {t : InstanceTree} {st : Resolution}
  {v c : InstanceTree} {a id host : SpaceId} {slot : Slot Occupant}

section

variable (h : Origin d ws' ws t st)

include h

theorem exists_before (hv : v ∈ d.tree.subtrees) :
    ∃ e ∈ t.withParents none, Drops st.joined e v.data ∧ ∀ c ∈ v.children, ∃ e' ∈ t.withParents none,
      e'.1 = some e.2 ∧ Drops st.joined e' c.data := by
  obtain ⟨u, hu, hrel⟩ := forall₂_exists_left h.drops.subtrees hv
  obtain ⟨e, us⟩ := u
  obtain ⟨i, vs⟩ := v
  obtain ⟨hdrops, hall⟩ := Tree.rel_node.mp hrel
  refine ⟨e, Tree.mem_withParents_of_traced hu, hdrops, fun c hc => ?_⟩
  obtain ⟨u', hu', hrel'⟩ := forall₂_exists_left hall hc
  obtain ⟨e', us'⟩ := u'
  obtain ⟨i', vs'⟩ := c
  exact ⟨e', Tree.mem_withParents_of_traced (Tree.child_mem_subtrees hu hu'),
    Tree.parent_of_traced hu hu', (Tree.rel_node.mp hrel').1⟩

theorem aligned : ws'.policy.alignedLoops = true := by
  rw [h.resolved.policy]
  exact h.planted.aligned

theorem settled (hv : v ∈ d.tree.subtrees) (hid : id ∈ v.data.spaces) :
    ∃ s, ws'.space? id = some s ∧ s.Settled := by
  obtain ⟨e, he, hdrops, -⟩ := h.exists_before hv
  exact h.resolved.closed.settled id (List.mem_flatMap.mpr ⟨e, he, hdrops.sublist.subset hid⟩)

theorem block_of_contains {j : SpaceId} (hslot : ws'.Contains host slot j) :
    ∃ w k : Nat, ws'.widthOf (.space j) = w ∧ ws'.widthOf (.space host) = k ∧ 0 ≤ slot.lo ∧
      slot.hi = slot.lo + 2 ^ w ∧ slot.hi ≤ 2 ^ k ∧ (2 ^ w : Int) ∣ slot.lo :=
  h.resolved.closed.block_of_contains (h.resolved.contains host slot j hslot).1 hslot

end

/-! ### An instance in the space around it -/

variable (h : Origin d ws' ws t st) (hv : v ∈ d.tree.subtrees) (hc : c ∈ v.children)
  (ha : a ∈ c.data.spaces) (hslot : ws'.Contains host slot a)

include h hv hc ha hslot

theorem eq_of_domain (hid : id ∈ c.data.spaces) {k : Value} (hak : (ws'.domainOf a == k) = true)
    (hk : (ws'.domainOf id == k) = true) : id = a := by
  obtain ⟨e, -, -, hbelow⟩ := h.exists_before hv
  obtain ⟨e', he', -, hdrops⟩ := hbelow c hc
  have ha' := hdrops.sublist.subset ha
  have hid' := hdrops.sublist.subset hid
  obtain ⟨p, hparent, -, -⟩ := h.resolved.seat h.planted he' ha' hslot
  have htitle : ∀ j ∈ e'.2.spaces, ws'.domainOf j = ws.domainOf j := fun j hj => by
    rw [h.resolved.titles e' he' j hj]
    unfold titleOf
    rw [hparent]
    rfl
  rw [htitle _ ha'] at hak
  rw [htitle _ hid'] at hk
  exact (h.planted.titled e' he').eq_of_same hid' ha' hk hak

/-- Where an instance stands: the parent had the domain of the instance at the space around it. -/
theorem seat :
    ∃ e ∈ t.withParents none, Drops st.joined e v.data ∧ host ∈ e.2.spaces ∧
      (ws.domainOf host == c.data.parentDomain) = true := by
  obtain ⟨e, he, hdrops, hbelow⟩ := h.exists_before hv
  obtain ⟨e', he', hparent, hdrops'⟩ := hbelow c hc
  have hmem' := hdrops'.sublist.subset ha
  obtain ⟨p, hentered, hhost, hnot⟩ := h.resolved.seat h.planted he' hmem' hslot
  obtain ⟨hp, -⟩ := Option.filter_eq_some_iff.mp hentered
  obtain rfl : p = e.2 := Option.mem_unique hp hparent
  unfold hostsOf at hhost
  rw [hdrops'.domain hentered hmem' hnot] at hhost
  obtain ⟨hmem, hdomain⟩ := List.mem_filter.mp hhost
  exact ⟨e, he, hdrops, hmem, hdomain⟩

theorem isKey_parentDomain : c.data.parentDomain.isKey = true := by
  obtain ⟨e, he, -, hmem, hdomain⟩ := h.seat hv hc ha hslot
  exact Value.isKey_of_same _ _ ((h.planted.titled e he).isKey host hmem) hdomain

theorem eq_host
    (hfirst : v.data.spaces.find? (fun j => ws'.domainOf j == c.data.parentDomain) = some host)
    (hid : id ∈ v.data.spaces) (hk : (ws'.domainOf id == c.data.parentDomain) = true) : id = host := by
  obtain ⟨e, he, hdrops, hmem, hdomain⟩ := h.seat hv hc ha hslot
  have hid' := hdrops.sublist.subset hid
  by_cases hhead : e.2.spaces.head? = some id
  · -- the first space may have taken over its domain, but it is found first
    obtain ⟨rest, hspaces⟩ := List.head?_eq_some_iff.mp hhead
    have hn : e.2.spaces.Nodup := (List.nodup_flatMap.mp h.planted.nodup).1 e he
    rw [hspaces] at hn
    have hsub := hdrops.sublist
    rw [hspaces] at hsub
    generalize v.data.spaces = ids at hfirst hid hsub
    cases hsub with
    | cons _ hsub => exact absurd (hsub.subset hid) (List.nodup_cons.mp hn).1
    | cons_cons _ hsub =>
      rw [List.find?_cons, hk] at hfirst
      exact Option.some.inj hfirst
  · rw [h.resolved.titles e he id hid', titleOf_of_ne_head hhead] at hk
    exact (h.planted.titled e he).eq_of_same hid' hmem hk hdomain

end Origin

end Design

end RegisterMap
