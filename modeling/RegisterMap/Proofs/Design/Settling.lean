import RegisterMap.Proofs.Value
import RegisterMap.Proofs.Design.Joins

/-! # Settling the spaces of an instance

The spaces of an instance are resolved and shrunk one after the other.  Before that the passengers in a
space may be joined to other spaces of the instance, whose widths they take over. -/

namespace RegisterMap

/-- What no step of the resolution changes of a space: once resolved, its requests and slots. -/
structure AddressSpace.Lasts (s s' : AddressSpace) : Prop where
  kind : s'.kind = s.kind
  ledger : s.ledger.resolved = true → s'.ledger = s.ledger
  taken : s.ledger.resolved = true → s'.region.taken.Perm s.region.taken

theorem AddressSpace.Lasts.refl (s : AddressSpace) : s.Lasts s :=
  ⟨rfl, fun _ => rfl, fun _ => List.Perm.refl _⟩

theorem AddressSpace.Lasts.trans {s s' s'' : AddressSpace} (h : s.Lasts s') (h' : s'.Lasts s'') :
    s.Lasts s'' where
  kind := h'.kind.trans h.kind
  ledger hr := (h'.ledger (by rw [h.ledger hr]; exact hr)).trans (h.ledger hr)
  taken hr := (h'.taken (by rw [h.ledger hr]; exact hr)).trans (h.taken hr)

/-- What no step of the resolution changes of a workspace. -/
structure Workspace.Evolves (ws ws' : Workspace) : Prop where
  policy : ws'.policy = ws.policy
  size : ws'.spaces.size = ws.spaces.size
  space : ∀ j s, ws.space? j = some s → ∃ s', ws'.space? j = some s' ∧ s.Lasts s'

namespace Workspace

variable {ws ws' ws'' : Workspace} {ids : List SpaceId} {id : SpaceId} {s : AddressSpace}

theorem Evolves.refl (ws : Workspace) : Evolves ws ws := ⟨rfl, rfl, fun _ s hs => ⟨s, hs, .refl s⟩⟩

theorem Evolves.trans (h : Evolves ws ws') (h' : Evolves ws' ws'') : Evolves ws ws'' where
  policy := h'.policy.trans h.policy
  size := h'.size.trans h.size
  space j s hs := by
    obtain ⟨s', hs', hlast⟩ := h.space j s hs
    obtain ⟨s'', hs'', hlast'⟩ := h'.space j s' hs'
    exact ⟨s'', hs'', hlast.trans hlast'⟩

theorem Evolves.of_frame {xs : List Occupant} (h : Frame ids xs ws ws') : Evolves ws ws' where
  policy := h.policy
  size := h.size_eq
  space j s hs := by
    have hp := h.profile j
    rw [hs] at hp
    obtain ⟨s', hs', hprofile⟩ := Option.map_eq_some_iff.mp hp
    have hkind : s'.profile.kind = s.profile.kind := by rw [hprofile]
    refine ⟨s', hs', hkind, fun hr => ?_, fun hr => ?_⟩
    all_goals
      obtain ⟨s'', hs'', hkept⟩ := h.kept j s hs hr
      obtain rfl := Option.mem_unique hs' hs''
    · exact hkept.ledger
    · exact hkept.taken

theorem Evolves.of_joined (h : Joined ws ws') : Evolves ws ws' where
  policy := by rw [h.rest]
  size := by rw [h.rest]
  space j s hs := ⟨s, by rwa [h.space?_eq], .refl s⟩

theorem Evolves.exists_before (h : Evolves ws ws') (hs : ws'.space? id = some s) :
    ∃ s0, ws.space? id = some s0 := by
  obtain ⟨hlt, -⟩ := Array.getElem?_eq_some_iff.mp hs
  rw [h.size] at hlt
  exact ⟨_, Array.getElem?_eq_getElem hlt⟩

theorem Closed.evolves (h : ws.Closed ids) (he : Evolves ws ws')
    (hs : ∀ j ∈ ids, ∃ s, ws'.space? j = some s ∧ s.Settled) : ws'.Closed ids :=
  h.congr fun j hj s hs0 hset => by
    obtain ⟨s', hs', hlast⟩ := he.space j s hs0
    obtain ⟨s'', hs'', hset'⟩ := hs j hj
    obtain rfl := Option.mem_unique hs' hs''
    exact ⟨s', hs', hset', hlast.taken hset.resolved⟩

/-- The spaces that are asked for in the space of an identity. -/
def guestsOf (ws : Workspace) (id : SpaceId) : List SpaceId :=
  ((ws.space? id).map AddressSpace.guests).getD []

theorem guestsOf_eq (hs : ws.space? id = some s) : ws.guestsOf id = s.guests := by
  unfold guestsOf
  rw [hs]
  rfl

theorem guestsOf_frame {xs : List Occupant} (h : Frame ids xs ws ws') (j : SpaceId) :
    ws'.guestsOf j = ws.guestsOf j := by
  have hitems := congrArg (Option.map fun items => ((SpaceKind.bus.passes.flatMap fun pass =>
    (SpaceId.shelvesOf pass).flatMap items).filterMap Occupant.inner?)) (h.items j)
  rw [Option.map_map, Option.map_map] at hitems
  exact congrArg (·.getD []) hitems

def domainOf (ws : Workspace) (id : SpaceId) : Value :=
  ((ws.space? id).map AddressSpace.domain).getD .none

theorem domainOf_eq {id : SpaceId} (hs : ws.space? id = some s) : ws.domainOf id = s.domain := by
  unfold domainOf
  rw [hs]
  rfl

/-- The spaces have different domains, which can be keys. -/
structure Titled (ws : Workspace) (ids : List SpaceId) : Prop where
  apart : ids.Pairwise fun a b => (ws.domainOf a == ws.domainOf b) = false
  isKey : ∀ id ∈ ids, (ws.domainOf id).isKey = true

theorem Titled.eq_of_same (h : ws.Titled ids) {a b : SpaceId} (ha : a ∈ ids) (hb : b ∈ ids) {d : Value}
    (had : (ws.domainOf a == d) = true) (hbd : (ws.domainOf b == d) = true) : a = b := by
  by_contra hne
  have hsymm : Std.Symm fun a b => ¬((ws.domainOf a == ws.domainOf b) = true ∧
      (ws.domainOf b == ws.domainOf a) = true) := ⟨fun _ _ h h' => h h'.symm⟩
  have hapart : ids.Pairwise fun a b => ¬((ws.domainOf a == ws.domainOf b) = true ∧
      (ws.domainOf b == ws.domainOf a) = true) :=
    h.apart.imp fun hne ⟨hsame, _⟩ => Bool.false_ne_true (hne.symm.trans hsame)
  exact hapart.forall ha hb hne
    ⟨Value.same_of_same _ _ _ (h.isKey a ha) had hbd, Value.same_of_same _ _ _ (h.isKey b hb) hbd had⟩

theorem domainOf_frame {xs : List Occupant} (h : Frame ids xs ws ws') (j : SpaceId) :
    ws'.domainOf j = ws.domainOf j := by
  have hprofile := congrArg (fun o => o.map AddressSpace.domain) (h.profile j)
  rw [Option.map_map, Option.map_map] at hprofile
  exact congrArg (·.getD .none) hprofile

end Workspace

/-! ### One space after the other -/

namespace Design

/-- The spaces `ids` can be settled: they wait for the settled spaces `below`, and none of these has a
place yet. -/
structure Gathered (ws : Workspace) (below ids : List SpaceId) : Prop where
  closed : ws.Closed below
  nonneg : ws.Nonneg
  aligned : ws.policy.alignedLoops = true
  waiting : ∀ id ∈ ids, ∃ s, ws.space? id = some s ∧ s.Waiting below
  outside : ∀ id ∈ ids, id ∉ below
  nodup : ids.Nodup
  linked : ws.Linked 0
  free : ∀ id ∈ ids, ¬ws.Hosted id
  loose : ∀ id ∈ ids, ∀ c ∈ ws.guestsOf id, ¬ws.Hosted c
  once : ∀ a ∈ ids, ∀ b ∈ ids, a ≠ b → (ws.guestsOf a).Disjoint (ws.guestsOf b)

/-- The spaces `met` of an instance are settled, and some of the spaces `ids` were joined. -/
structure Settling (ws : Workspace) (below ids : List SpaceId) (st : Resolution) (met : List SpaceId)
    (st' : Resolution) (ws' : Workspace) : Prop where
  joins : ∃ js, st' = { st with joins := st.joins ++ js } ∧ ∀ j ∈ js, j.2 ∈ ids
  evolves : ws.Evolves ws'
  nonneg : ws'.Nonneg
  closed : ws'.Closed (met ++ below)
  others : ∀ j, j ∉ met ++ below → ws'.space? j = ws.space? j
  guests : ∀ j, ws'.guestsOf j = ws.guestsOf j
  linked : ws'.Linked 0
  hosted : ∀ c, ws'.Hosted c ↔ ws.Hosted c ∨ ∃ id ∈ met, c ∈ ws.guestsOf id
  domains : ∀ j, ws'.domainOf j = ws.domainOf j

variable {ws ws1 ws2 ws3 : Workspace} {below ids met : List SpaceId} {found found1 found2 : Table String Nat}
  {st st1 st2 : Resolution} {id : SpaceId} {s : AddressSpace}

section

variable (hg : Gathered ws below ids)

include hg

/-- A space that is to be placed in one of the spaces is settled. -/
theorem Gathered.guest_mem (hm : id ∈ ids) {c : SpaceId} (hc : c ∈ ws.guestsOf id) : c ∈ below := by
  obtain ⟨s, hs, hw⟩ := hg.waiting id hm
  rw [Workspace.guestsOf_eq hs, AddressSpace.mem_guests] at hc
  rcases hw.known _ hc with hleaf | ⟨c', hc', he⟩
  · cases hleaf
  · rwa [Occupant.space.inj he]

/-- The next space gets the spaces that are to be placed in it, and they had no place before. -/
theorem Settling.seats_next (h : Settling ws below ids st met st1 ws1)
    (hsub : met ⊆ ids) (hid : id ∈ ids) (hnew : id ∉ met) (hsteady : ws1.Steady ws2)
    (hseats : ws2.Seats id (ws.guestsOf id) ws3) :
    ws3.Linked 0 ∧ ∀ c, ws3.Hosted c ↔ ws.Hosted c ∨ ∃ j ∈ met ++ [id], c ∈ ws.guestsOf j := by
  have hfree : ¬ws2.Hosted id := by
    rw [hsteady.hosted, h.hosted]
    rintro (hh | ⟨j, hj, hc⟩)
    · exact hg.free id hid hh
    · exact hg.outside id hid (hg.guest_mem (hsub hj) hc)
  obtain ⟨hl, hhosted⟩ := hseats (hsteady.linked h.linked) hfree fun c hc => by
    refine ⟨fun he => hg.outside id hid (he ▸ hg.guest_mem hid hc), ?_⟩
    rw [hsteady.hosted, h.hosted]
    rintro (hh | ⟨j, hj, hc'⟩)
    · exact hg.loose id hid c hc hh
    · exact hg.once j (hsub hj) id hid (fun he => hnew (he ▸ hj)) hc' hc
  refine ⟨hl, fun c => ?_⟩
  rw [hhosted, hsteady.hosted, h.hosted, or_assoc]
  simp [or_and_right, exists_or]

theorem Settling.step (h : Settling ws below ids st met st1 ws1)
    (hsub : met ⊆ ids) (hid : id ∈ ids) (hnew : id ∉ met)
    (hjoin : joinPassengers ids found1 id st1 ws1 = .ok (found2, st2) ws2) {u : Unit}
    (hsettle : resolveSpace id ws2 = .ok u ws3) : Settling ws below ids st (met ++ [id]) st2 ws3 := by
  have hout : id ∉ met ++ below := fun hm => (List.mem_append.mp hm).elim hnew (hg.outside id hid)
  obtain ⟨s, hs, hw⟩ := hg.waiting id hid
  -- the passengers of the space are joined
  obtain ⟨⟨more, rfl, hmore⟩, hj⟩ := joinPassengers_ok hjoin
  obtain ⟨js, rfl, hjs⟩ := h.joins
  have hs2 : ws2.space? id = some s := (hj.space?_eq id).trans ((h.others id hout).trans hs)
  have hc2 : ws2.Closed (met ++ below) := h.closed.congr fun j _ t ht hset =>
    ⟨t, (hj.space?_eq j).trans ht, hset, List.Perm.refl _⟩
  have ha2 : ws2.policy.alignedLoops = true := by
    rw [(h.evolves.trans (.of_joined hj)).policy]
    exact hg.aligned
  -- the space is resolved and shrunk
  obtain ⟨_, w, hres, hshrink⟩ := Build.bind_ok hsettle
  have hw2 : s.Waiting (met ++ below) := ⟨hw.opened, fun x hx =>
    (hw.known x hx).imp_right fun ⟨c, hc, he⟩ => ⟨c, List.mem_append_right _ hc, he⟩, hw.nodup⟩
  obtain ⟨⟨xs, hf⟩, hc3, hn3, hseats⟩ :=
    SpaceId.settle_packed hw2 hs2 hc2 hout ha2 (hj.nonneg h.nonneg) hres hshrink
  rw [← Workspace.guestsOf_eq hs] at hseats
  obtain ⟨hlinked, hhosted⟩ := h.seats_next hg hsub hid hnew (.of_spaces hj.space?_eq) hseats
  have hmet : ∀ j, j ∈ met ++ [id] ++ below ↔ j ∈ id :: (met ++ below) := by simp [or_left_comm]
  exact
    { joins := ⟨js ++ more, by simp, fun j hj' => (List.mem_append.mp hj').elim (hjs j) (hmore j)⟩
      evolves := (h.evolves.trans (.of_joined hj)).trans (.of_frame hf)
      nonneg := hn3
      closed := hc3.of_mem_iff hmet
      others := fun j hj' => by
        rw [hmet] at hj'
        rw [hf.spaces j hj', hj.space?_eq]
        exact h.others j fun hm => hj' (List.mem_cons_of_mem _ hm)
      guests := fun j => by
        rw [Workspace.guestsOf_frame hf, ← h.guests]
        unfold Workspace.guestsOf
        rw [hj.space?_eq]
      linked := hlinked
      hosted := hhosted
      domains := fun j => by
        rw [Workspace.domainOf_frame hf, ← h.domains]
        unfold Workspace.domainOf
        rw [hj.space?_eq] }

theorem settleSpaces_ok {spaces : List SpaceId} (hperm : spaces.Perm ids)
    (h : (spaces.foldlM (fun found id => do
      let found ← joinPassengers ids found id
      resolveSpace id
      return found) found : Resolving (Table String Nat)) st ws = .ok (found1, st1) ws1) :
    Settling ws below ids st spaces st1 ws1 := by
  have hnodup := hperm.nodup_iff.mpr hg.nodup
  refine Resolving.foldlM_ok h (fun met _ st' ws' => Settling ws below ids st met st' ws') ?_ ?_
  · exact
      { joins := ⟨[], by simp, by simp⟩
        evolves := .refl ws
        nonneg := hg.nonneg
        closed := hg.closed
        others := fun _ _ => rfl
        guests := fun _ => rfl
        linked := hg.linked
        hosted := by simp
        domains := fun _ => rfl }
  · rintro met id later hsplit found' found2 st' st2 ws' ws3 hs hrun
    obtain ⟨found3, st3, ws2, hjoin, hrun1⟩ := Resolving.bind_ok hrun
    obtain ⟨_, ws4, hsettle, hrun2⟩ := Resolving.bind_lift_ok hrun1
    obtain ⟨rfl, rfl, rfl⟩ := Resolving.pure_ok hrun2
    have hsub : met ++ [id] ⊆ ids := by
      refine List.Subset.trans ?_ hperm.subset
      rw [hsplit, List.append_cons met id later]
      exact List.subset_append_left _ _
    rw [hsplit] at hnodup
    exact hs.step hg (List.append_subset.mp hsub).1 (hsub (by simp))
      (fun hm => (List.nodup_append.mp hnodup).2.2 id hm id List.mem_cons_self rfl) hjoin hsettle

end

end Design

end RegisterMap
