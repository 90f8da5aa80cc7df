import RegisterMap.Proofs.AddressSpace.Nest
import RegisterMap.Proofs.Workspace.Ensures

/-! # Placing an item in a space

A placement that goes through adds a slot for the item to the region of the space and tells the item
its address.  A leaf then has the address of its slot (`SpaceId.addNow_leaf_ok`).  A space that is laid
out is moved as a whole: its tree is based at the address of the slot (`SpaceId.addNow_space_ok`). -/

namespace RegisterMap.SpaceId

open Build

variable {ws ws' : Workspace} {id : SpaceId} {width base : Int} {item : Occupant}
  {addr : Option Int}

theorem checkComplete_ok {u : Unit} (h : id.checkComplete ws = .ok u ws') :
    ∃ s, ws.space? id = some s ∧ ws' = ws.setSpace id { s with region := s.region.sorted } := by
  obtain ⟨s, r, hs, hr, rfl⟩ := onRegion_ok h
  refine ⟨s, hs, ?_⟩
  rw [show s.region.sorted = r from congrArg Prod.fst hr]

theorem place_ok {purpose : Purpose} (h : id.place width item addr purpose ws = .ok base ws') :
    ∃ s r ws1 s1, ws.space? id = some s ∧
      s.region.place Occupant.isSome width item addr purpose = (r, .ok base) ∧
      (ws1 = ws.setSpace id { s with region := r } ∨ ∃ c path, item = .space c ∧
        c.setPath path (ws.setSpace id { s with region := r }) = .ok () ws1) ∧
      ws1.space? id = some s1 ∧ ws' = ws1.setSpace id { s1 with region := s1.region.sorted } := by
  unfold place at h
  obtain ⟨base', ws1, hp, h1⟩ := bind_ok h
  obtain ⟨s, r, hs, hr, rfl⟩ := onRegion_ok hp
  obtain ⟨n, -, h2⟩ := (Occupant.readOnly_name? _).bind_ok h1
  obtain ⟨s', hs', h3⟩ := bind_region_ok h2
  have hfinish : ∀ w : Workspace, (do id.checkComplete; pure base' : Build Int) w = .ok base ws' →
      base' = base ∧ ∃ s1, w.space? id = some s1 ∧
        ws' = w.setSpace id { s1 with region := s1.region.sorted } := by
    intro w hw
    obtain ⟨_, w1, hc, hw1⟩ := bind_ok hw
    obtain ⟨s1, hs1, rfl⟩ := checkComplete_ok hc
    obtain ⟨rfl, rfl⟩ := pure_ok hw1
    exact ⟨rfl, s1, hs1, rfl⟩
  by_cases hc : ∃ path c, s'.region.path = some path ∧ item = .space c
  · obtain ⟨path, c, hpath, rfl⟩ := hc
    simp only [hpath] at h3
    obtain ⟨t, -, h4⟩ := bind_region_ok h3
    cases hown : t.region.path with
    | none =>
      simp only [hown] at h4
      obtain ⟨_, _, hthrow, -⟩ := bind_ok h4
      cases hthrow
    | some own =>
      simp only [hown] at h4
      obtain ⟨_, ws5, hset, h5⟩ := bind_ok h4
      obtain ⟨rfl, s1, hs1, rfl⟩ := hfinish _ h5
      exact ⟨s, r, ws5, s1, hs, hr, .inr ⟨c, _, rfl, hset⟩, hs1, rfl⟩
  · have h4 : (do id.checkComplete; pure base' : Build Int)
        (ws.setSpace id { s with region := r }) = .ok base ws' := by
      rcases hpath : s'.region.path with _ | path
      · simp only [hpath] at h3
        exact h3
      · cases item <;> simp only [hpath] at h3 <;> first
          | exact h3
          | exact absurd ⟨path, _, hpath, rfl⟩ hc
    obtain ⟨rfl, s1, hs1, rfl⟩ := hfinish _ h4
    exact ⟨s, r, _, s1, hs, hr, .inl rfl, hs1, rfl⟩

theorem addNow_leaf_ok {l : Leaf} (hl : ws.leaf? item = some l)
    (h : id.addNow width item addr ws = .ok base ws') :
    ∃ s r, ws.space? id = some s ∧
      s.region.place Occupant.isSome width item addr .item = (r, .ok base) ∧
      item.Retold { l with base := some base }
        (ws.setSpace id { s with region := r.sorted }) ws' := by
  unfold addNow at h
  obtain ⟨base', ws1, hp, h1⟩ := bind_ok h
  obtain ⟨_, hset, rfl⟩ := bind_pure_ok h1
  obtain ⟨s, r, w, s1, hs, hr, hpath, hs1, rfl⟩ := place_ok hp
  rcases hpath with rfl | ⟨c, -, rfl, -⟩
  · rw [Workspace.space?_setSpace_self hs] at hs1
    obtain rfl := Option.some.inj hs1
    rw [Workspace.setSpace_setSpace] at hset
    have hl1 : (ws.setSpace id { s with region := r.sorted }).leaf? item = some l := hl
    exact ⟨s, r, hs, hr, Occupant.setBase_ok hl1 hset⟩
  · cases hl

theorem addNow_space_ok {ts : List (Tree SpaceId)} {u : Tree SpaceId}
    (ho : ws.Nests (.node id ts)) (hu : u ∈ ts) (hlaid : ws.Laid u)
    (hopen : ∀ s, ws.space? id = some s → s.ledger.resolved = false)
    (h : id.addNow width (.space u.data) addr ws = .ok base ws') :
    ∃ s r t t', ws.space? id = some s ∧
      s.region.place Occupant.isSome width (.space u.data) addr .item = (r, .ok base) ∧
      ws'.space? id = some { s with region := r.sorted } ∧ Frame (id :: u.toList) [] ws ws' ∧
      ws'.Laid u ∧ ws'.Based u ∧ ws.space? u.data = some t ∧ ws'.space? u.data = some t' ∧
      t'.region.base = base ∧ t'.region.relativeBase = base ∧ t'.region.aw = t.region.aw := by
  have hou := ho.child hu
  have hid : id ∉ u.toList := (Tree.nodup_node ho.ids).2.1 u hu
  have hne : id ≠ u.data := fun he => hid (he ▸ u.data_mem_toList)
  unfold addNow at h
  obtain ⟨base', ws2, hp, h1⟩ := bind_ok h
  obtain ⟨_, hset, rfl⟩ := bind_pure_ok h1
  obtain ⟨s, r, ws1, s1, hs, hr, hpath, hs1, rfl⟩ := place_ok hp
  -- each step touches the space around the item or the tree of the item
  have hroot : [id] ⊆ id :: u.toList := by simp
  have htree : u.toList ⊆ id :: u.toList := List.subset_cons_self _ _
  have hapart : ∀ j ∈ u.toList, j ∉ [id] := fun j hj => by
    rw [List.mem_singleton]
    rintro rfl
    exact hid hj
  have hun : s.ledger.resolved ≠ true := by rw [hopen s hs]; decide
  have hf0 : Frame [id] [] ws (ws.setSpace id { s with region := r }) :=
    Frame.setSpace hs rfl rfl fun hr => absurd hr hun
  have hl0 := hlaid.frame hou hf0 hapart (by simp)
  have hm1 : Moves u.toList (ws.setSpace id { s with region := r }) ws1 := by
    rcases hpath with rfl | ⟨c, path, hc, hset⟩
    · exact Moves.refl _ _
    · obtain rfl := Occupant.space.inj hc
      exact setPathUpTo_ok _ u (hou.frame hf0) hl0 hset
  obtain rfl : s1 = { s with region := r } := by
    rw [hm1.spaces id hid, Workspace.space?_setSpace_self hs] at hs1
    exact (Option.some.inj hs1).symm
  have hf2 : Frame [id] [] ws1 (ws1.setSpace id { s with region := r.sorted }) :=
    Frame.setSpace hs1 rfl rfl fun hr => absurd hr hun
  have hf := ((hf0.mono_ids hroot).trans (hm1.frame.mono_ids htree)).trans (hf2.mono_ids hroot)
  have hl2 := (hm1.laid hl0).frame ((hou.frame hf0).frame hm1.frame) hf2 hapart (by simp)
  obtain ⟨_, ws4, hbase, hrel⟩ := bind_ok hset
  obtain ⟨hm3, hbased, t3, ht3, hb3⟩ := setBaseUpTo_ok _ u (hou.frame hf) hl2 hbase
  obtain ⟨t4, ht4, rfl⟩ := updateRegion_ok hrel
  obtain rfl := Option.mem_unique ht3 ht4
  obtain ⟨t, ht, -⟩ := hlaid u u.mem_subtrees_self
  have hmoved : t.Moved t3 := by
    obtain ⟨t1, ht1, hmoved1⟩ := hm1.moved u.data t (by rwa [Workspace.space?_setSpace_of_ne hne])
    obtain ⟨t2, ht2, hmoved3⟩ := hm3.moved u.data t1 (by rwa [Workspace.space?_setSpace_of_ne hne])
    obtain rfl := Option.mem_unique ht3 ht2
    exact hmoved1.trans hmoved3
  have hf4 : Frame [u.data] [] ws4 (ws4.setSpace u.data
      { t3 with region := { t3.region with relativeBase := base } }) :=
    Frame.setSpace ht3 rfl rfl fun _ => ⟨rfl, List.Perm.refl _⟩
  refine ⟨s, r, t, _, hs, hr, ?_, ?_, ?_, ?_, ht, Workspace.space?_setSpace_self ht3 _, hb3, rfl,
    hmoved.aw⟩
  · rw [Workspace.space?_setSpace_of_ne hne.symm, hm3.spaces id hid,
      Workspace.space?_setSpace_self hs1]
  · refine (hf.trans (hm3.frame.mono_ids htree)).trans
      (hf4.mono_ids ?_)
    exact List.cons_subset.mpr ⟨htree u.data_mem_toList, List.nil_subset _⟩
  · have hl3 := hm3.laid hl2
    obtain ⟨t', ht', hroot⟩ := hl3 u u.mem_subtrees_self
    obtain rfl := Option.mem_unique ht3 ht'
    exact hl3.setRoot ((hou.frame hf).frame hm3.frame) ht3 rfl hf4 (List.Perm.refl _)
      (hroot.spaced.of_perm (List.Perm.refl _) rfl)
  · exact hbased.setRoot hou.ids ht3 rfl

end RegisterMap.SpaceId
