import RegisterMap.Proofs.AddressSpace.Packing
import RegisterMap.Proofs.Design.Order

/-! # Joining spaces to passengers

A passenger whose name was found for a space takes its address width from that space.  Nothing but
passengers changes, and they keep their addresses (`Workspace.Joined`). -/

namespace RegisterMap

open List

namespace Design.Resolving

variable {α β : Type} {st st' : Resolution} {ws ws' : Workspace} {f : α → Resolving β} {b : β}

theorem bind_ok {x : Resolving α} (h : (x >>= f) st ws = .ok (b, st') ws') :
    ∃ a st1 ws1, x st ws = .ok (a, st1) ws1 ∧ f a st1 ws1 = .ok (b, st') ws' := by
  obtain ⟨⟨a, st1⟩, ws1, hx, hf⟩ := Build.bind_ok h
  exact ⟨a, st1, ws1, hx, hf⟩

theorem pure_ok {a b : α} (h : (pure a : Resolving α) st ws = .ok (b, st') ws') :
    b = a ∧ st' = st ∧ ws' = ws := by
  obtain ⟨he, hws⟩ := Build.pure_ok h
  obtain ⟨rfl, rfl⟩ := Prod.mk.inj he
  exact ⟨rfl, rfl, hws⟩

theorem lift_ok {x : Build α} {a : α} (h : (liftM x : Resolving α) st ws = .ok (a, st') ws') :
    x ws = .ok a ws' ∧ st' = st := by
  obtain ⟨a', hx, he⟩ := Build.bind_pure_ok h
  obtain ⟨rfl, rfl⟩ := Prod.mk.inj he
  exact ⟨hx, rfl⟩

theorem bind_lift_ok {x : Build α} (h : (liftM x >>= f) st ws = .ok (b, st') ws') :
    ∃ a ws1, x ws = .ok a ws1 ∧ f a st ws1 = .ok (b, st') ws' := by
  obtain ⟨a, st1, ws1, hx, hf⟩ := bind_ok h
  obtain ⟨hx', rfl⟩ := lift_ok hx
  exact ⟨a, ws1, hx', hf⟩

theorem modify_ok {f : Resolution → Resolution} {u : PUnit}
    (h : (modify f : Resolving PUnit) st ws = .ok (u, st') ws') : st' = f st ∧ ws' = ws := by
  cases h
  exact ⟨rfl, rfl⟩

theorem foldlM_ok {xs : List α} {f : β → α → Resolving β} {b' : β}
    (h : xs.foldlM f b st ws = .ok (b', st') ws')
    (I : List α → β → Resolution → Workspace → Prop) (h0 : I [] b st ws)
    (step : ∀ done x rest, xs = done ++ x :: rest → ∀ c c1 s s1 w w1, I done c s w →
      f c x s w = .ok (c1, s1) w1 → I (done ++ [x]) c1 s1 w1) : I xs b' st' ws' := by
  suffices key : ∀ (rest done : List α) (c : β) (s : Resolution) (w : Workspace), xs = done ++ rest →
      I done c s w → rest.foldlM f c s w = .ok (b', st') ws' → I xs b' st' ws' from
    key xs [] b st ws rfl h0 h
  intro rest
  induction rest with
  | nil =>
    intro done c s w hxs hI hrun
    obtain ⟨rfl, rfl, rfl⟩ := pure_ok hrun
    rwa [hxs, append_nil]
  | cons x rest ih =>
    intro done c s w hxs hI hrun
    rw [foldlM_cons] at hrun
    obtain ⟨c1, s1, w1, hx, hrest⟩ := bind_ok hrun
    exact ih (done ++ [x]) c1 s1 w1 (by rw [hxs, append_assoc]; rfl)
      (step done x rest hxs c c1 s s1 w w1 hI hx) hrest

theorem mapM_ok {xs : List α} {ys : List β} (h : xs.mapM f st ws = .ok (ys, st') ws')
    (I : List α → List β → Resolution → Workspace → Prop) (h0 : I [] [] st ws)
    (step : ∀ done x rest, xs = done ++ x :: rest → ∀ zs z s s1 w w1, I done zs s w →
      f x s w = .ok (z, s1) w1 → I (done ++ [x]) (zs ++ [z]) s1 w1) : I xs ys st' ws' := by
  suffices key : ∀ (rest done : List α) (zs ys : List β) (s : Resolution) (w : Workspace),
      xs = done ++ rest → I done zs s w → rest.mapM f s w = .ok (ys, st') ws' →
      I xs (zs ++ ys) st' ws' from key xs [] [] ys st ws rfl h0 h
  intro rest
  induction rest with
  | nil =>
    intro done zs ys s w hxs hI hrun
    rw [mapM_nil] at hrun
    obtain ⟨rfl, rfl, rfl⟩ := pure_ok hrun
    rwa [hxs, append_nil, append_nil]
  | cons x rest ih =>
    intro done zs ys s w hxs hI hrun
    rw [mapM_cons] at hrun
    obtain ⟨z, s1, w1, hx, hrun1⟩ := bind_ok hrun
    obtain ⟨ys', s2, w2, hrest, hrun2⟩ := bind_ok hrun1
    obtain ⟨rfl, rfl, rfl⟩ := pure_ok hrun2
    have := ih (done ++ [x]) (zs ++ [z]) ys' s1 w1 (by rw [hxs, append_assoc]; rfl)
      (step done x rest hxs zs z s s1 w w1 hI hx) hrest
    rwa [append_assoc] at this

end Design.Resolving

/-! ### Passengers that are joined -/

/-- Nothing but passengers was changed, and no leaf was told an address. -/
structure Workspace.Joined (ws ws' : Workspace) : Prop where
  rest : ws' = { ws with passengers := ws'.passengers }
  base : ∀ x, (ws'.leaf? x).map Leaf.base = (ws.leaf? x).map Leaf.base

namespace Workspace.Joined

variable {ws ws' ws'' : Workspace}

theorem refl (ws : Workspace) : Joined ws ws := ⟨rfl, fun _ => rfl⟩

theorem trans (h : Joined ws ws') (h' : Joined ws' ws'') : Joined ws ws'' :=
  ⟨by rw [h'.rest, h.rest], fun x => (h'.base x).trans (h.base x)⟩

theorem space?_eq (h : Joined ws ws') (id : SpaceId) : ws'.space? id = ws.space? id := by
  rw [h.rest]
  rfl

theorem nonneg (h : Joined ws ws') (hn : ws.Nonneg) : ws'.Nonneg := by
  intro x l' b hl' hb
  have hbase := h.base x
  rw [hl'] at hbase
  obtain ⟨l, hl, he⟩ := Option.map_eq_some_iff.mp hbase.symm
  exact hn x l b hl (he.trans hb)

theorem update {p : PassengerId} {aw : Int} {id : SpaceId} {u : Unit}
    (h : p.update (fun p => { p with aw := aw, joined := some id }) ws = .ok u ws') : Joined ws ws' := by
  obtain ⟨v, hv, rfl⟩ := PassengerId.update_ok h
  refine ⟨rfl, fun x => ?_⟩
  rw [LeafKind.passenger.leaf?_set hv]
  split
  · rename_i hx
    rw [hx]
    exact (congrArg (fun o => (o.map Passenger.leaf).map Leaf.base) hv).symm
  · rfl

end Workspace.Joined

namespace Design

variable {ws ws' : Workspace} {st st' : Resolution} {ids : List SpaceId} {id : SpaceId}

theorem itemAt_ok {α : Type} {xs : List α} {n : Nat} {x : α} (h : Text.itemAt xs n = .ok x) :
    xs[n]? = some x := by
  unfold Text.itemAt Text.itemAt? at h
  rw [if_neg (by omega), Int.toNat_natCast] at h
  cases hget : xs[n]? with
  | none => rw [hget] at h; cases h
  | some y => rw [hget] at h; rw [Except.ok.inj h]

/-- Some of the spaces `ids` were joined to passengers. -/
structure Joining (ids : List SpaceId) (st : Resolution) (ws : Workspace) (st' : Resolution)
    (ws' : Workspace) : Prop where
  joins : ∃ js, st' = { st with joins := st.joins ++ js } ∧ ∀ j ∈ js, j.2 ∈ ids
  joined : ws.Joined ws'

theorem joinPassengers_ok {found found' : Table String Nat}
    (h : joinPassengers ids found id st ws = .ok (found', st') ws') : Joining ids st ws st' ws' := by
  have hnone : Joining ids st ws st ws := ⟨⟨[], by simp, by simp⟩, .refl ws⟩
  unfold joinPassengers at h
  split at h
  · obtain ⟨-, rfl, rfl⟩ := Resolving.pure_ok h
    exact hnone
  · obtain ⟨items, ws1, hitems, h1⟩ := Resolving.bind_lift_ok h
    obtain rfl := id.readOnly_contents hitems
    refine Resolving.foldlM_ok h1 (fun _ _ st2 ws2 => Joining ids st ws1 st2 ws2) hnone ?_
    rintro done ⟨lo, hi, item⟩ rest - found1 found2 st2 st3 ws2 ws3 hjs hrun
    obtain ⟨_, ws4, hname, hrun1⟩ := Resolving.bind_lift_ok hrun
    obtain rfl := Occupant.readOnly_requireName _ hname
    cases item with
    | passenger p =>
      obtain ⟨v, ws5, hget, hrun2⟩ := Resolving.bind_lift_ok hrun1
      obtain rfl := p.readOnly_get hget
      dsimp only at hrun2
      cases hfound : Table.get? found1 v.name with
      | none =>
        rw [hfound] at hrun2
        obtain ⟨-, rfl, rfl⟩ := Resolving.pure_ok hrun2
        exact hjs
      | some n =>
        rw [hfound] at hrun2
        obtain ⟨c, ws6, hc, hrun3⟩ := Resolving.bind_lift_ok hrun2
        obtain ⟨hat, rfl⟩ := Build.lift_ok hc
        obtain ⟨r, ws7, hr, hrun4⟩ := Resolving.bind_lift_ok hrun3
        obtain rfl := c.readOnly_region hr
        obtain ⟨_, ws8, hup, hrun5⟩ := Resolving.bind_lift_ok hrun4
        obtain ⟨_, st9, ws9, hmod, hrun6⟩ := Resolving.bind_ok hrun5
        obtain ⟨rfl, rfl⟩ := Resolving.modify_ok hmod
        obtain ⟨-, rfl, rfl⟩ := Resolving.pure_ok hrun6
        obtain ⟨⟨js, rfl, hjs⟩, hjoined⟩ := hjs
        refine ⟨⟨js ++ [(p, c)], by simp, fun j hj => ?_⟩, hjoined.trans (.update hup)⟩
        rcases mem_append.mp hj with hj | hj
        · exact hjs j hj
        · rw [mem_singleton.mp hj]
          exact mem_of_getElem? (itemAt_ok hat)
    | _ =>
      obtain ⟨-, rfl, rfl⟩ := Resolving.pure_ok hrun1
      exact hjs

end Design

end RegisterMap
