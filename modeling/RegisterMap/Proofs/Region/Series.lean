import RegisterMap.Proofs.Region.Spaced

/-! # A series of placements

Items are placed one after the other, each with its width and the address that is asked for
(`Region.placeAll`). -/

namespace RegisterMap

variable {ρ α : Type}

namespace Region

/-- The region and the answer of a request that is granted. -/
def granted (o : Outcome ρ α) : Option (Region ρ × α) :=
  match o with
  | (r, .ok a) => some (r, a)
  | (_, .error _) => none

theorem granted_eq_some {o : Outcome ρ α} {r : Region ρ} {a : α} :
    granted o = some (r, a) ↔ o = (r, .ok a) := by
  rcases o with ⟨r', e | a'⟩ <;> simp [granted]

/-- An item with the width that it needs and the address that is asked for. -/
structure Order (ρ : Type) where
  width : Int
  item : ρ
  addr : Option Int

/-- Place items one after the other; none if a placement is refused. -/
def placeAll (hasItem : ρ → Bool) : Region ρ → List (Order ρ) → Option (Region ρ)
  | r, [] => some r
  | r, o :: os =>
    (granted (r.place hasItem o.width o.item o.addr .item)).bind fun p => placeAll hasItem p.1.sorted os

theorem placeAll_append (g : ρ → Bool) (r : Region ρ) (os os' : List (Order ρ)) :
    r.placeAll g (os ++ os') = (r.placeAll g os).bind fun q => q.placeAll g os' := by
  induction os generalizing r with
  | nil => rfl
  | cons o os ih =>
    rw [List.cons_append, placeAll, placeAll]
    cases granted (r.place g o.width o.item o.addr .item) with
    | none => rfl
    | some p => exact ih _

theorem placeAll_items {g : ρ → Bool} {r r' : Region ρ} {os : List (Order ρ)}
    (h : r.placeAll g os = some r') :
    (r'.taken.map Slot.item).Perm (os.map Order.item ++ r.taken.map Slot.item) := by
  induction os generalizing r with
  | nil =>
    obtain rfl := Option.some.inj h
    exact List.Perm.refl _
  | cons o os ih =>
    obtain ⟨p, hp, h⟩ := Option.bind_eq_some_iff.mp h
    obtain ⟨w, -, hgain⟩ := place_eq_ok (granted_eq_some.mp hp)
    have hstep := (p.1.sorted_taken_perm.trans hgain.taken).map Slot.item
    exact ((ih h).trans (hstep.append_left _)).trans List.perm_middle

end Region

end RegisterMap
