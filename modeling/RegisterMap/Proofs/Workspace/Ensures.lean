import Mathlib.Order.Defs.Unbundled
import RegisterMap.Proofs.Workspace.Frame

/-! # What work ensures when it goes through

`Build.Ensures R P x Q` says of the work `x` that it leads from a workspace with `P` to an answer and a
workspace with `Q`, unless it is refused, and that the two workspaces are in the relation `R`, which is
a preorder.  The rules follow the way in which work is put together; what holds along `R` can be added
on both sides (`Ensures.frame`), and a loop is given by what each of its rounds keeps.  Work of which no
more is known than that it leads along `R` is `Along R`. -/

namespace RegisterMap.Build

open List

variable {α β : Type} {R : Workspace → Workspace → Prop} {P P' F : Workspace → Prop}
  {Q Q' : α → Workspace → Prop} {S : β → Workspace → Prop} {x : Build α} {f : α → Build β}
  {xs : List α}

/-- Whenever the work goes through from a workspace with `P`, it leads along `R` to an answer and a
workspace with `Q`. -/
def Ensures (R : Workspace → Workspace → Prop) (P : Workspace → Prop) (x : Build α)
    (Q : α → Workspace → Prop) : Prop :=
  ∀ ⦃ws a ws'⦄, P ws → x ws = .ok a ws' → R ws ws' ∧ Q a ws'

/-- The property stays when the workspace changes along `R`. -/
def Stable (R : Workspace → Workspace → Prop) (F : Workspace → Prop) : Prop :=
  ∀ ⦃ws ws'⦄, R ws ws' → F ws → F ws'

theorem Ensures.imp (h : Ensures R P x Q) (hi : ∀ a ws, Q a ws → Q' a ws) : Ensures R P x Q' :=
  fun _ _ _ hp hrun => (h hp hrun).imp_right (hi _ _)

theorem Ensures.pre (h : Ensures R P x Q) (hi : ∀ ws, P' ws → P ws) : Ensures R P' x Q :=
  fun _ _ _ hp hrun => h (hi _ hp) hrun

theorem Ensures.frame (h : Ensures R P x Q) (hF : Stable R F) :
    Ensures R (fun ws => P ws ∧ F ws) x fun a ws => Q a ws ∧ F ws := by
  intro ws a ws' hp hrun
  obtain ⟨hr, hq⟩ := h hp.1 hrun
  exact ⟨hr, hq, hF hr hp.2⟩

/-- A condition that does not speak of the workspace is at hand throughout. -/
theorem Ensures.given {p : Prop} (h : p → Ensures R P x Q) : Ensures R (fun ws => p ∧ P ws) x Q :=
  fun _ _ _ hp hrun => h hp.1 hp.2 hrun

theorem ensures_throw {e : Error} : Ensures R P (throw e : Build α) Q :=
  fun _ _ _ _ hrun => (throw_ok hrun).elim

theorem ensures_throw_bind {e : Error} : Ensures R P ((throw e : Build α) >>= f) S := by
  intro ws b ws' _ hrun
  obtain ⟨_, _, hthrow, -⟩ := bind_ok hrun
  exact (throw_ok hthrow).elim

theorem ensures_refuse_bind {e : Fault} : Ensures R P ((refuse e : Build α) >>= f) S :=
  ensures_throw_bind

theorem ensures_modify {f : Workspace → Workspace} {Q : Workspace → Prop}
    (h : ∀ ws, P ws → R ws (f ws) ∧ Q (f ws)) : Ensures R P (modify f : Build Unit) fun _ => Q := by
  intro ws u ws' hp hrun
  cases hrun
  exact h ws hp

variable [IsPreorder Workspace R]

theorem Ensures.bind (hx : Ensures R P x Q)
    (hf : ∀ a, Ensures R (Q a) (f a) S) : Ensures R P (x >>= f) S := by
  intro ws b ws' hp hrun
  obtain ⟨a, ws1, ha, hb⟩ := bind_ok hrun
  obtain ⟨hr, hq⟩ := hx hp ha
  obtain ⟨hr', hs⟩ := hf a hq hb
  exact ⟨IsTrans.trans _ _ _ hr hr', hs⟩

theorem Ensures.andThen (hx : Ensures R P x Q)
    (hp : ∀ ws, P' ws → P ws) (hf : ∀ a, Ensures R (Q a) (f a) S) : Ensures R P' (x >>= f) S :=
  (hx.pre hp).bind hf

theorem ensures_pure {a : α} (h : ∀ ws, P ws → Q a ws) : Ensures R P (pure a) Q := by
  intro ws b ws' hp hrun
  obtain ⟨rfl, rfl⟩ := pure_ok hrun
  exact ⟨Std.Refl.refl _, h _ hp⟩

theorem ensures_lift {x : Result α} :
    Ensures R P (liftM x : Build α) fun a ws => x = .ok a ∧ P ws := by
  intro ws a ws' hp hrun
  obtain ⟨hx, rfl⟩ := lift_ok hrun
  exact ⟨Std.Refl.refl _, hx, hp⟩

theorem ensures_get :
    Ensures R P (getThe Workspace : Build Workspace) fun w ws => w = ws ∧ P ws := by
  intro ws w ws' hp hrun
  obtain ⟨rfl, rfl⟩ := get_ok hrun
  exact ⟨Std.Refl.refl _, rfl, hp⟩

theorem ensures_forIn_done {f : α → PUnit → Build (ForInStep PUnit)} (I : List α → Workspace → Prop)
    (h : ∀ done x rest, xs = done ++ x :: rest →
      Ensures R (I done) (f x PUnit.unit) fun s ws => s = .yield PUnit.unit ∧ I (done ++ [x]) ws) :
    Ensures R (I []) (forIn xs PUnit.unit f) fun _ => I xs := by
  intro ws u ws' hp hrun
  refine forIn_ok hrun (fun done w => R ws w ∧ I done w) ⟨Std.Refl.refl _, hp⟩ ?_
  rintro done x rest hxs w w1 s ⟨hr, hw⟩ hx
  obtain ⟨hr', hs, hp'⟩ := h done x rest hxs hw hx
  exact ⟨hs, IsTrans.trans _ _ _ hr hr', hp'⟩

theorem ensures_forIn {f : α → PUnit → Build (ForInStep PUnit)}
    (h : ∀ x ∈ xs, Ensures R P (f x PUnit.unit) fun s ws => s = .yield PUnit.unit ∧ P ws) :
    Ensures R P (forIn xs PUnit.unit f) fun _ => P :=
  ensures_forIn_done (fun _ => P) fun _ x _ hxs => h x (hxs ▸ mem_append_right _ mem_cons_self)

/-- A loop over the first `k` numbers, with an assertion on how many are done. -/
theorem ensures_forRange {k : Nat} {f : Nat → PUnit → Build (ForInStep PUnit)}
    (I : Nat → Workspace → Prop)
    (h : ∀ n < k, Ensures R (I n) (f n PUnit.unit) fun s ws => s = .yield PUnit.unit ∧ I (n + 1) ws) :
    Ensures R (I 0) (forIn (List.range k) PUnit.unit f) fun _ => I k := by
  intro ws u ws' hp hrun
  refine forRange_ok hrun (fun n w => R ws w ∧ I n w) ⟨Std.Refl.refl _, hp⟩ ?_
  rintro n hn w w1 s ⟨hr, hw⟩ hx
  obtain ⟨hr', hs, hp'⟩ := h n hn hw hx
  exact ⟨hs, IsTrans.trans _ _ _ hr hr', hp'⟩

theorem ensures_foldlM {f : β → α → Build β} {b : β} (I : List α → β → Workspace → Prop)
    (h : ∀ done x rest, xs = done ++ x :: rest → ∀ c,
      Ensures R (I done c) (f c x) (I (done ++ [x]))) :
    Ensures R (I [] b) (xs.foldlM f b) (I xs) := by
  intro ws c ws' hp hrun
  refine foldlM_ok hrun (fun done c w => R ws w ∧ I done c w) ⟨Std.Refl.refl _, hp⟩ ?_
  rintro done x rest hxs c c1 w w1 ⟨hr, hw⟩ hx
  obtain ⟨hr', hs⟩ := h done x rest hxs c hw hx
  exact ⟨IsTrans.trans _ _ _ hr hr', hs⟩

theorem ensures_mapM (I : List α → List β → Workspace → Prop)
    (h : ∀ done x rest, xs = done ++ x :: rest → ∀ ys,
      Ensures R (I done ys) (f x) fun y => I (done ++ [x]) (ys ++ [y])) :
    Ensures R (I [] []) (xs.mapM f) (I xs) := by
  suffices key : ∀ (rest done : List α) (ys : List β), xs = done ++ rest →
      Ensures R (I done ys) (rest.mapM f) fun zs => I (done ++ rest) (ys ++ zs) from
    (key xs [] [] rfl).imp fun zs ws hI => by simpa using hI
  intro rest
  induction rest with
  | nil =>
    intro done ys _
    rw [mapM_nil]
    exact ensures_pure fun ws hI => by simpa using hI
  | cons x rest ih =>
    intro done ys hxs
    rw [mapM_cons]
    refine (h done x rest hxs ys).bind fun y => ?_
    refine (ih (done ++ [x]) (ys ++ [y]) (by simp [hxs])).bind fun zs => ensures_pure fun ws hI => ?_
    simpa using hI

theorem ensures_filterMapM {f : α → Build (Option β)} (I : List α → List β → Workspace → Prop)
    (h : ∀ done x rest, xs = done ++ x :: rest → ∀ ys,
      Ensures R (I done ys) (f x) fun o => I (done ++ [x]) (ys ++ o.toList)) :
    Ensures R (I [] []) (xs.filterMapM f) (I xs) := by
  suffices key : ∀ (rest done : List α) (ys : List β), xs = done ++ rest →
      Ensures R (I done ys) (rest.filterMapM f) fun zs => I (done ++ rest) (ys ++ zs) from
    (key xs [] [] rfl).imp fun zs ws hI => by simpa using hI
  intro rest
  induction rest with
  | nil =>
    intro done ys _
    rw [filterMapM_nil]
    exact ensures_pure fun ws hI => by simpa using hI
  | cons x rest ih =>
    intro done ys hxs
    rw [filterMapM_cons]
    refine (h done x rest hxs ys).bind fun o => ?_
    have hrest := ih (done ++ [x]) (ys ++ o.toList) (by simp [hxs])
    cases o with
    | none => exact hrest.imp fun zs ws hI => by simpa using hI
    | some y =>
      refine hrest.bind fun zs => ensures_pure fun ws hI => ?_
      simpa using hI

/-! ### Work that only reads -/

/-- The work leaves the workspace as it is, unless it is refused. -/
def ReadOnly (x : Build α) : Prop := ∀ ⦃ws a ws'⦄, x ws = .ok a ws' → ws' = ws

theorem ReadOnly.ensures (h : ReadOnly x) : Ensures R P x fun a ws => x ws = .ok a ws ∧ P ws := by
  intro ws a ws' hp hrun
  obtain rfl := h hrun
  exact ⟨Std.Refl.refl _, hrun, hp⟩

theorem ReadOnly.keeps (h : ReadOnly x) : Ensures R P x fun _ => P :=
  h.ensures.imp fun _ _ hq => hq.2

omit [IsPreorder Workspace R]

theorem readOnly_pure (a : α) : ReadOnly (pure a) := fun _ _ _ h => (pure_ok h).2

theorem readOnly_throw (e : Error) : ReadOnly (throw e : Build α) := fun _ _ _ h => (throw_ok h).elim

theorem readOnly_refuse (f : Fault) : ReadOnly (refuse f : Build α) := readOnly_throw _

theorem readOnly_lift (x : Result α) : ReadOnly (liftM x : Build α) := fun _ _ _ h => (lift_ok h).2

theorem readOnly_entryOf (x : Option α) : ReadOnly (entryOf x) := fun _ _ _ h => (entryOf_ok h).2

theorem readOnly_get : ReadOnly (getThe Workspace : Build Workspace) := fun _ _ _ h => (get_ok h).2

theorem ReadOnly.bind_ok (hx : ReadOnly x) {ws ws' : Workspace} {b : β} (h : (x >>= f) ws = .ok b ws') :
    ∃ a, x ws = .ok a ws ∧ f a ws = .ok b ws' := by
  obtain ⟨a, ws1, ha, hb⟩ := Build.bind_ok h
  obtain rfl := hx ha
  exact ⟨a, ha, hb⟩

theorem ReadOnly.bind (hx : ReadOnly x) (hf : ∀ a, ReadOnly (f a)) : ReadOnly (x >>= f) := by
  intro ws b ws' h
  obtain ⟨a, -, hb⟩ := hx.bind_ok h
  exact hf a hb

theorem readOnly_foldlM {f : β → α → Build β} (h : ∀ b, ∀ x ∈ xs, ReadOnly (f b x))
    (b : β) : ReadOnly (xs.foldlM f b) := by
  induction xs generalizing b with
  | nil => exact readOnly_pure b
  | cons x xs ih =>
    rw [foldlM_cons]
    exact (h b x mem_cons_self).bind fun b' =>
      ih (fun b y hy => h b y (mem_cons_of_mem _ hy)) b'

theorem readOnly_mapM (h : ∀ x ∈ xs, ReadOnly (f x)) : ReadOnly (xs.mapM f) := by
  induction xs with
  | nil => exact readOnly_pure []
  | cons x xs ih =>
    rw [mapM_cons]
    exact (h x mem_cons_self).bind fun y =>
      (ih fun x hx => h x (mem_cons_of_mem _ hx)).bind fun ys => readOnly_pure _

theorem readOnly_filterMapM {f : α → Build (Option β)} (h : ∀ x ∈ xs, ReadOnly (f x)) :
    ReadOnly (xs.filterMapM f) :=
  fun _ _ _ hrun => (filterMapM_ok hrun fun x hx _ _ hfx => h x hx hfx).1

theorem readOnly_optionMapM {o : Option α} (h : ∀ a, ReadOnly (f a)) : ReadOnly (o.mapM f) := by
  cases o with
  | none => exact readOnly_pure none
  | some a => exact (h a).bind fun b => readOnly_pure (some b)

/-! ### Work along a relation -/

/-- Whenever the work goes through, it leads along `R`. -/
def Along (R : Workspace → Workspace → Prop) (x : Build α) : Prop :=
  ∀ ⦃ws a ws'⦄, x ws = .ok a ws' → R ws ws'

theorem along_throw (e : Error) : Along R (throw e : Build α) := fun _ _ _ h => (throw_ok h).elim

theorem along_refuse (f : Fault) : Along R (refuse f : Build α) := along_throw _

theorem along_throw_bind (e : Error) (f : α → Build β) : Along R ((throw e : Build α) >>= f) := by
  intro ws b ws' hrun
  obtain ⟨_, _, hthrow, -⟩ := bind_ok hrun
  exact (throw_ok hthrow).elim

theorem along_refuse_bind (e : Fault) (f : α → Build β) : Along R ((refuse e : Build α) >>= f) :=
  along_throw_bind _ f

theorem Along.keeps (h : Along R x) (hF : Stable R F) : Ensures R F x fun _ => F :=
  fun _ _ _ hp hrun => ⟨h hrun, hF (h hrun) hp⟩

theorem along_lift {x : Result α} (h : ∀ a, x = .ok a → Along R (f a)) : Along R (liftM x >>= f) := by
  intro ws b ws' hrun
  obtain ⟨a, hx, hb⟩ := bind_lift_ok hrun
  exact h a hx hb

variable [IsPreorder Workspace R]

theorem ReadOnly.along (h : ReadOnly x) : Along R x := by
  intro ws a ws' hrun
  rw [h hrun]
  exact Std.Refl.refl ws

theorem along_pure (a : α) : Along R (pure a) := (readOnly_pure a).along

theorem Along.bind (hx : Along R x) (hf : ∀ a, Along R (f a)) : Along R (x >>= f) := by
  intro ws b ws' hrun
  obtain ⟨a, ws1, ha, hb⟩ := bind_ok hrun
  exact IsTrans.trans _ _ _ (hx ha) (hf a hb)

theorem along_foldlM {f : β → α → Build β} (h : ∀ b x, Along R (f b x)) (b : β) :
    Along R (xs.foldlM f b) := by
  induction xs generalizing b with
  | nil => exact along_pure b
  | cons x xs ih =>
    rw [foldlM_cons]
    exact (h b x).bind ih

theorem along_mapM (h : ∀ x, Along R (f x)) : Along R (xs.mapM f) := by
  induction xs with
  | nil => exact along_pure []
  | cons x xs ih =>
    rw [mapM_cons]
    exact (h x).bind fun y => ih.bind fun ys => along_pure _

theorem along_forIn {f : α → β → Build (ForInStep β)} (h : ∀ x b, Along R (f x b))
    (b : β) : Along R (forIn xs b f) := by
  induction xs generalizing b with
  | nil => exact along_pure b
  | cons x xs ih =>
    rw [forIn_cons]
    refine (h x b).bind fun step => ?_
    cases step with
    | done b => exact along_pure b
    | yield b => exact ih b

end RegisterMap.Build

namespace RegisterMap

theorem SpaceId.readOnly_get (id : SpaceId) : Build.ReadOnly id.get := fun _ _ _ h => (get_ok h).2

theorem SpaceId.readOnly_region (id : SpaceId) : Build.ReadOnly id.region :=
  (readOnly_get id).bind fun _ => Build.readOnly_pure _

theorem RegisterId.readOnly_get (id : RegisterId) : Build.ReadOnly id.get :=
  Build.readOnly_get.bind fun _ => Build.readOnly_entryOf _

theorem PassengerId.readOnly_get (id : PassengerId) : Build.ReadOnly id.get :=
  Build.readOnly_get.bind fun _ => Build.readOnly_entryOf _

theorem BlockId.readOnly_get (id : BlockId) : Build.ReadOnly id.get :=
  Build.readOnly_get.bind fun _ => Build.readOnly_entryOf _

theorem SpaceId.readOnly_contents (id : SpaceId) : Build.ReadOnly id.contents := by
  refine (readOnly_get id).bind fun s => ?_
  split <;> exact Build.readOnly_pure _

theorem BusId.readOnly_get (id : BusId) : Build.ReadOnly id.get :=
  Build.readOnly_get.bind fun _ => Build.readOnly_entryOf _

/-! ### Reading an occupant -/

namespace Occupant

open Build

theorem readOnly_name? (o : Occupant) : ReadOnly o.name? := by
  cases o with
  | register id => exact id.readOnly_get.bind fun _ => (readOnly_lift _).bind fun _ => readOnly_pure _
  | space id => exact id.readOnly_region.bind fun _ => readOnly_pure _
  | passenger id | bus id => exact id.readOnly_get.bind fun _ => readOnly_pure _
  | nothing | number _ | text _ => exact readOnly_pure _

theorem readOnly_requireName (o : Occupant) : ReadOnly o.requireName := by
  have hname := readOnly_name? o
  cases o with
  | number _ | text _ => exact readOnly_throw _
  | _ => exact hname

theorem readOnly_block? (o : Occupant) : ReadOnly o.block? := by
  cases o with
  | passenger id => exact id.readOnly_get.bind fun p => p.bus.readOnly_get.bind fun _ => readOnly_pure _
  | register id | space id | bus id => exact id.readOnly_get.bind fun _ => readOnly_pure _
  | nothing | number _ | text _ => exact readOnly_pure _

theorem readOnly_declaredWidth (o : Occupant) : ReadOnly o.declaredWidth := by
  cases o with
  | space id => exact id.readOnly_region.bind fun _ => readOnly_pure _
  | register id | passenger id | bus id => exact id.readOnly_get.bind fun _ => readOnly_pure _
  | nothing | number _ | text _ => exact readOnly_pure _

end Occupant

end RegisterMap
