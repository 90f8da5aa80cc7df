import Mathlib.Data.List.Forall2
import Mathlib.Tactic.Common
import RegisterMap.AddressSpace.Stage

/-! # Runs of work on a workspace

Work that goes through is taken apart step by step: a sequence has run when its parts have
(`Build.bind_ok`), a loop when its body has for one item after the other (`Build.forIn_ok`).  The
operations on a table of the workspace are reduced to one look-up (`Workspace.space?`) and one
replacement (`Workspace.setSpace`). -/

namespace RegisterMap

open List

variable {α β : Type}

theorem Result.bind_ok {x : Result α} {f : α → Result β} {b : β}
    (h : (x >>= f) = .ok b) : ∃ a, x = .ok a ∧ f a = .ok b := by
  cases x with
  | error e => cases h
  | ok a => exact ⟨a, rfl, h⟩

theorem Result.bind_of_ok {x : Result α} {a : α} (h : x = .ok a) (f : α → Result β) :
    (x >>= f) = f a := by
  rw [h]
  rfl

theorem Result.exists_ok {x : Result α} (h : x.toBool = true) : ∃ a, x = .ok a := by
  cases x with
  | error e => cases h
  | ok a => exact ⟨a, rfl⟩

theorem Result.mapM_ok {f : α → Result β} {xs : List α} {ys : List β}
    (h : xs.mapM f = .ok ys) : List.Forall₂ (fun x y => f x = .ok y) xs ys := by
  induction xs generalizing ys with
  | nil =>
    cases h
    exact .nil
  | cons x xs ih =>
    rw [mapM_cons] at h
    obtain ⟨y, hy, h⟩ := Result.bind_ok h
    obtain ⟨zs, hzs, h⟩ := Result.bind_ok h
    cases h
    exact .cons hy (ih hzs)

theorem forall₂_exists_left {R : α → β → Prop} {xs : List α} {ys : List β}
    (h : List.Forall₂ R xs ys) {y : β} (hy : y ∈ ys) : ∃ x ∈ xs, R x y := by
  induction h with
  | nil => cases hy
  | cons hr _ ih =>
    rcases mem_cons.mp hy with rfl | hy
    · exact ⟨_, mem_cons_self, hr⟩
    · obtain ⟨x, hx, hxy⟩ := ih hy
      exact ⟨x, mem_cons_of_mem _ hx, hxy⟩

theorem Result.exists_of_mapM {f : α → Result β} {xs : List α} {ys : List β}
    (h : xs.mapM f = .ok ys) {x : α} (hx : x ∈ xs) : ∃ y ∈ ys, f x = .ok y := by
  obtain ⟨n, hn, rfl⟩ := getElem_of_mem hx
  have hlen := (Result.mapM_ok h).length_eq
  exact ⟨ys[n], getElem_mem _, (Result.mapM_ok h).get hn (hlen ▸ hn)⟩

theorem Result.of_mem_filterMapM {f : α → Result (Option β)} {xs : List α} {ys : List β}
    (h : xs.filterMapM f = .ok ys) {y : β} (hy : y ∈ ys) : ∃ x ∈ xs, f x = .ok (some y) := by
  induction xs generalizing ys with
  | nil =>
    cases h
    cases hy
  | cons x xs ih =>
    rw [filterMapM_cons] at h
    obtain ⟨o, ho, h⟩ := Result.bind_ok h
    cases o with
    | none =>
      obtain ⟨x', hx', hf⟩ := ih h hy
      exact ⟨x', mem_cons_of_mem _ hx', hf⟩
    | some z =>
      obtain ⟨zs, hzs, h⟩ := Result.bind_ok h
      cases h
      rcases mem_cons.mp hy with rfl | hy
      · exact ⟨x, mem_cons_self, ho⟩
      · obtain ⟨x', hx', hf⟩ := ih hzs hy
        exact ⟨x', mem_cons_of_mem _ hx', hf⟩

namespace Build

variable {α β : Type} {ws ws' : Workspace} {a b : α} {x : Build α} {e : Error} {f : α → Build β}
  {xs : List α} {u : PUnit} {k : Nat} {g : Nat → Build PUnit}

/-- The workspace that a piece of work leaves, whether it goes through or is refused. -/
def after (x : Build α) (ws : Workspace) : Workspace :=
  match x ws with
  | .ok _ ws' => ws'
  | .error _ ws' => ws'

/-- Does the work go through? -/
def isOk (x : Build α) (ws : Workspace) : Bool :=
  match x ws with
  | .ok _ _ => true
  | .error _ _ => false

/-- The answer of a test; a refused one has failed. -/
def isTrue (x : Build Bool) (ws : Workspace) : Bool :=
  match x ws with
  | .ok b _ => b
  | .error _ _ => false

/-- The answer of a search; a refused one has found nothing. -/
def found? (x : Build (Option α)) (ws : Workspace) : Option α :=
  match x ws with
  | .ok o _ => o
  | .error _ _ => none

theorem after_of_ok (h : x ws = .ok a ws') : x.after ws = ws' := by
  unfold after
  rw [h]

theorem after_of_error (h : x ws = .error e ws') : x.after ws = ws' := by
  unfold after
  rw [h]

theorem isTrue_of_ok {x : Build Bool} {b : Bool} (h : x ws = .ok b ws') : x.isTrue ws = b := by
  unfold isTrue
  rw [h]

theorem found?_of_ok {x : Build (Option α)} {o : Option α} (h : x ws = .ok o ws') :
    x.found? ws = o := by
  unfold found?
  rw [h]

theorem exists_ok (h : x.isOk ws = true) : ∃ a ws', x ws = .ok a ws' := by
  unfold isOk at h
  cases hx : x ws with
  | ok a ws' => exact ⟨a, ws', rfl⟩
  | error e ws' => rw [hx] at h; cases h

theorem exists_of_isTrue {x : Build Bool} (h : x.isTrue ws = true) :
    ∃ ws', x ws = .ok true ws' := by
  unfold isTrue at h
  split at h
  · rename_i b ws' hx
    exact ⟨ws', by rw [hx, h]⟩
  · cases h

theorem bind_apply (x : Build α) (f : α → Build β) (ws : Workspace) :
    (x >>= f) ws = match x ws with
      | .ok a ws' => f a ws'
      | .error e ws' => .error e ws' := by
  show EStateM.bind x f ws = _
  unfold EStateM.bind
  cases x ws <;> rfl

theorem bind_of_ok (h : x ws = .ok a ws') (f : α → Build β) : (x >>= f) ws = f a ws' := by
  rw [bind_apply, h]

theorem bind_of_error (h : x ws = .error e ws') (f : α → Build β) : (x >>= f) ws = .error e ws' := by
  rw [bind_apply, h]

theorem bind_ok {b : β} (h : (x >>= f) ws = .ok b ws') :
    ∃ a ws1, x ws = .ok a ws1 ∧ f a ws1 = .ok b ws' := by
  rw [bind_apply] at h
  cases hx : x ws with
  | ok a ws1 => rw [hx] at h; exact ⟨a, ws1, rfl, h⟩
  | error e ws1 => rw [hx] at h; cases h

theorem bind_congr {g : α → Build β}
    (h : ∀ a ws', x ws = .ok a ws' → f a ws' = g a ws') : (x >>= f) ws = (x >>= g) ws := by
  rw [bind_apply, bind_apply]
  cases hx : x ws with
  | ok a ws' => exact h a ws' hx
  | error e ws' => rfl

theorem bind_congr_left {y : Build α} (h : x ws = y ws)
    (f : α → Build β) : (x >>= f) ws = (y >>= f) ws := by
  rw [bind_apply, bind_apply, h]

theorem eq_of_map {y : Build α} {k : α → β} (hk : Function.Injective k)
    (h : (x >>= fun a => pure (k a)) ws = (y >>= fun a => pure (k a)) ws) : x ws = y ws := by
  rw [bind_apply, bind_apply] at h
  cases hx : x ws with
  | ok a wa =>
    cases hy : y ws with
    | ok b wb =>
      rw [hx, hy] at h
      obtain ⟨hab, rfl⟩ := EStateM.Result.ok.inj h
      rw [hk hab]
    | error e wb =>
      rw [hx, hy] at h
      cases h
  | error e wa =>
    cases hy : y ws with
    | ok b wb =>
      rw [hx, hy] at h
      cases h
    | error e' wb =>
      rw [hx, hy] at h
      obtain ⟨rfl, rfl⟩ := EStateM.Result.error.inj h
      rfl

theorem map_apply (f : α → β) (x : Build α) (ws : Workspace) :
    (f <$> x) ws = match x ws with
      | .ok a ws' => .ok (f a) ws'
      | .error e ws' => .error e ws' := by
  show EStateM.map f x ws = _
  unfold EStateM.map
  cases x ws <;> rfl

theorem map_ok {f : α → β} {b : β} (h : (f <$> x) ws = .ok b ws') :
    ∃ a, x ws = .ok a ws' ∧ b = f a := by
  rw [map_apply] at h
  cases hx : x ws with
  | ok a ws1 =>
    rw [hx] at h
    obtain ⟨rfl, rfl⟩ := EStateM.Result.ok.inj h
    exact ⟨a, rfl, rfl⟩
  | error e ws1 => rw [hx] at h; cases h

theorem after_map (f : α → β) (x : Build α) (ws : Workspace) : after (f <$> x) ws = after x ws := by
  unfold after
  rw [map_apply]
  cases x ws <;> rfl

theorem pure_ok (h : (pure a : Build α) ws = .ok b ws') : b = a ∧ ws' = ws := by
  cases h
  exact ⟨rfl, rfl⟩

theorem throw_ok (h : (throw e : Build α) ws = .ok b ws') : False := by
  cases h

theorem refuse_ok {f : Fault} (h : (refuse f : Build α) ws = .ok b ws') : False := by
  cases h

theorem get_ok {w : Workspace} (h : (getThe Workspace : Build Workspace) ws = .ok w ws') :
    w = ws ∧ ws' = ws := by
  cases h
  exact ⟨rfl, rfl⟩

theorem lift_ok {x : Result α} (h : (liftM x : Build α) ws = .ok b ws') : x = .ok b ∧ ws' = ws := by
  cases x with
  | ok a => cases h; exact ⟨rfl, rfl⟩
  | error e => cases h

theorem entryOf_of_some {x : Option α} (h : x = some a) : entryOf x ws = .ok a ws := by
  rw [h]
  rfl

theorem entryOf_ok {x : Option α} (h : entryOf x ws = .ok a ws') : x = some a ∧ ws' = ws := by
  cases x with
  | none => cases h
  | some b => cases h; exact ⟨rfl, rfl⟩

theorem bind_pure_ok {k : α → β} {b : β} (h : (x >>= fun a => pure (k a)) ws = .ok b ws') :
    ∃ a, x ws = .ok a ws' ∧ b = k a := by
  obtain ⟨a, ws1, hx, hk⟩ := bind_ok h
  obtain ⟨rfl, rfl⟩ := pure_ok hk
  exact ⟨a, hx, rfl⟩

theorem bind_get_ok {f : Workspace → Build β} {b : β}
    (h : (getThe Workspace >>= f) ws = .ok b ws') : f ws ws = .ok b ws' := h

theorem bind_lift_ok {x : Result α} {b : β} (h : ((liftM x : Build α) >>= f) ws = .ok b ws') :
    ∃ a, x = .ok a ∧ f a ws = .ok b ws' := by
  obtain ⟨a, ws1, hrun, hk⟩ := bind_ok h
  obtain ⟨hx, rfl⟩ := lift_ok hrun
  exact ⟨a, hx, hk⟩

theorem bind_entryOf_ok {x : Option α} {b : β} (h : (entryOf x >>= f) ws = .ok b ws') :
    ∃ a, x = some a ∧ f a ws = .ok b ws' := by
  obtain ⟨a, ws1, hrun, hk⟩ := bind_ok h
  obtain ⟨hx, rfl⟩ := entryOf_ok hrun
  exact ⟨a, hx, hk⟩

/-- A loop that has run: an assertion on the items done holds at the end if it holds at the start and
each run keeps it. -/
theorem forIn_ok {f : α → PUnit → Build (ForInStep PUnit)}
    (h : forIn xs PUnit.unit f ws = .ok u ws') (I : List α → Workspace → Prop) (h0 : I [] ws)
    (step : ∀ done x rest, xs = done ++ x :: rest → ∀ w w1 s, I done w →
      f x PUnit.unit w = .ok s w1 → s = .yield PUnit.unit ∧ I (done ++ [x]) w1) : I xs ws' := by
  suffices key : ∀ (rest done : List α) (w : Workspace), xs = done ++ rest → I done w →
      forIn rest PUnit.unit f w = .ok u ws' → I xs ws' from key xs [] ws rfl h0 h
  intro rest
  induction rest with
  | nil =>
    intro done w hxs hI hrun
    rw [append_nil] at hxs
    rw [forIn_nil] at hrun
    obtain ⟨-, rfl⟩ := pure_ok hrun
    rwa [hxs]
  | cons x rest ih =>
    intro done w hxs hI hrun
    rw [forIn_cons] at hrun
    obtain ⟨s, w1, hx, hrest⟩ := bind_ok hrun
    obtain ⟨rfl, hI1⟩ := step done x rest hxs w w1 s hI hx
    exact ih (done ++ [x]) w1 (by rw [hxs, append_assoc]; rfl) hI1 hrest

/-- A fold that has run: an assertion on the items done and on the value holds at the end if it holds
at the start and each step keeps it. -/
theorem foldlM_ok {f : β → α → Build β} {b b' : β}
    (h : xs.foldlM f b ws = .ok b' ws') (I : List α → β → Workspace → Prop) (h0 : I [] b ws)
    (step : ∀ done x rest, xs = done ++ x :: rest → ∀ c c1 w w1, I done c w →
      f c x w = .ok c1 w1 → I (done ++ [x]) c1 w1) : I xs b' ws' := by
  suffices key : ∀ (rest done : List α) (c : β) (w : Workspace), xs = done ++ rest → I done c w →
      rest.foldlM f c w = .ok b' ws' → I xs b' ws' from key xs [] b ws rfl h0 h
  intro rest
  induction rest with
  | nil =>
    intro done c w hxs hI hrun
    rw [append_nil] at hxs
    obtain ⟨rfl, rfl⟩ := pure_ok hrun
    rwa [hxs]
  | cons x rest ih =>
    intro done c w hxs hI hrun
    rw [foldlM_cons] at hrun
    obtain ⟨c1, w1, hx, hrest⟩ := bind_ok hrun
    exact ih (done ++ [x]) c1 w1 (by rw [hxs, append_assoc]; rfl)
      (step done x rest hxs c c1 w w1 hI hx) hrest

theorem mapM_ok {ys : List β} (h : xs.mapM f ws = .ok ys ws')
    (hread : ∀ x ∈ xs, ∀ y w, f x ws = .ok y w → w = ws) :
    ws' = ws ∧ List.Forall₂ (fun x y => f x ws = .ok y ws) xs ys := by
  induction xs generalizing ys ws' with
  | nil =>
    obtain ⟨rfl, rfl⟩ := pure_ok h
    exact ⟨rfl, .nil⟩
  | cons x xs ih =>
    rw [mapM_cons] at h
    obtain ⟨y, ws1, hy, h1⟩ := bind_ok h
    have hws := hread x mem_cons_self y ws1 hy
    rw [hws] at hy h1
    obtain ⟨zs, ws2, hzs, h2⟩ := bind_ok h1
    obtain ⟨hws2, hall⟩ := ih hzs fun x hx => hread x (mem_cons_of_mem _ hx)
    obtain ⟨rfl, rfl⟩ := pure_ok h2
    exact ⟨hws2, .cons hy hall⟩

theorem filterM_ok {p : α → Build Bool} {ys : List α} (h : xs.filterM p ws = .ok ys ws')
    (hread : ∀ x ∈ xs, ∀ b w, p x ws = .ok b w → w = ws) :
    ws' = ws ∧ ∃ q : α → Bool, (∀ x ∈ xs, p x ws = .ok (q x) ws) ∧ ys = xs.filter q := by
  have key : ∀ (xs acc : List α) (ys : List α) (ws' : Workspace),
      (∀ x ∈ xs, ∀ b w, p x ws = .ok b w → w = ws) → xs.filterAuxM p acc ws = .ok ys ws' →
      ws' = ws ∧ (∀ x ∈ xs, ∃ b, p x ws = .ok b ws) ∧
        ys = (xs.filter fun x => (p x).isTrue ws).reverse ++ acc := by
    intro xs
    induction xs with
    | nil =>
      intro acc ys ws' _ h
      obtain ⟨rfl, rfl⟩ := pure_ok h
      exact ⟨rfl, by simp, rfl⟩
    | cons x xs ih =>
      intro acc ys ws' hread h
      obtain ⟨b, ws1, hb, h1⟩ := bind_ok h
      obtain rfl := hread x mem_cons_self b ws1 hb
      obtain ⟨hws, hall, hys⟩ := ih _ ys ws' (fun y hy => hread y (mem_cons_of_mem _ hy)) h1
      refine ⟨hws, forall_mem_cons.mpr ⟨⟨b, hb⟩, hall⟩, ?_⟩
      rw [hys, filter_cons, isTrue_of_ok hb]
      cases b <;> simp
  unfold List.filterM at h
  obtain ⟨zs, ws1, hzs, h1⟩ := bind_ok h
  obtain ⟨rfl, rfl⟩ := pure_ok h1
  obtain ⟨hws, hall, hys⟩ := key xs [] zs ws' hread hzs
  refine ⟨hws, fun x => (p x).isTrue ws, fun x hx => ?_, ?_⟩
  · obtain ⟨b, hb⟩ := hall x hx
    show _ = EStateM.Result.ok ((p x).isTrue ws) ws
    rw [isTrue_of_ok hb, hb]
  · rw [hys, append_nil, reverse_reverse]

theorem filterMapM_ok {f : α → Build (Option β)} {ys : List β} (h : xs.filterMapM f ws = .ok ys ws')
    (hread : ∀ x ∈ xs, ∀ b w, f x ws = .ok b w → w = ws) :
    ws' = ws ∧ ∃ q : α → Option β, (∀ x ∈ xs, f x ws = .ok (q x) ws) ∧ ys = xs.filterMap q := by
  have key : ws' = ws ∧ (∀ x ∈ xs, ∃ o, f x ws = .ok o ws) ∧
      ys = xs.filterMap fun x => (f x).found? ws := by
    induction xs generalizing ys ws' with
    | nil =>
      obtain ⟨rfl, rfl⟩ := pure_ok h
      exact ⟨rfl, by simp, rfl⟩
    | cons x xs ih =>
      rw [filterMapM_cons] at h
      obtain ⟨o, ws1, ho, h1⟩ := bind_ok h
      obtain rfl := hread x mem_cons_self o ws1 ho
      have hfound := found?_of_ok ho
      have hrest := fun y hy => hread y (mem_cons_of_mem _ hy)
      cases o with
      | none =>
        obtain ⟨hws, hall, rfl⟩ := ih h1 hrest
        exact ⟨hws, forall_mem_cons.mpr ⟨⟨_, ho⟩, hall⟩, by
          rw [filterMap_cons, hfound]⟩
      | some b =>
        obtain ⟨zs, ws2, hzs, h2⟩ := bind_ok h1
        obtain ⟨rfl, rfl⟩ := pure_ok h2
        obtain ⟨hws, hall, rfl⟩ := ih hzs hrest
        exact ⟨hws, forall_mem_cons.mpr ⟨⟨_, ho⟩, hall⟩, by
          rw [filterMap_cons, hfound]⟩
  obtain ⟨hws, hall, hys⟩ := key
  refine ⟨hws, fun x => (f x).found? ws, fun x hx => ?_, hys⟩
  obtain ⟨o, ho⟩ := hall x hx
  show _ = EStateM.Result.ok ((f x).found? ws) ws
  rw [found?_of_ok ho, ho]

theorem forRange_ok {f : Nat → PUnit → Build (ForInStep PUnit)}
    (h : forIn (List.range k) PUnit.unit f ws = .ok u ws') (I : Nat → Workspace → Prop) (h0 : I 0 ws)
    (step : ∀ n < k, ∀ w w1 s, I n w → f n PUnit.unit w = .ok s w1 →
      s = .yield PUnit.unit ∧ I (n + 1) w1) : I k ws' := by
  have hend := forIn_ok h (fun done w => I done.length w) h0 ?_
  · rwa [length_range] at hend
  · intro done n rest hsplit w w1 s hI hrun
    have hget : (List.range k)[done.length]? = some n := by
      rw [hsplit]
      simp
    obtain ⟨hlt, rfl⟩ := List.getElem?_eq_some_iff.mp hget
    rw [getElem_range] at hrun
    rw [length_range] at hlt
    rw [length_append, length_singleton]
    exact step done.length hlt w w1 s hI hrun

/-- A loop that goes on to its end does one piece of work after the other. -/
theorem forIn_eq_forM {f : α → PUnit → Build (ForInStep PUnit)} {g : α → Build PUnit}
    (h : ∀ x, f x PUnit.unit = (g x >>= fun _ => pure (.yield PUnit.unit))) :
    forIn xs PUnit.unit f = forM xs g := by
  induction xs with
  | nil => rfl
  | cons x xs ih =>
    rw [forIn_cons, h, forM_cons, bind_assoc]
    refine congrArg _ (funext fun _ => ?_)
    rw [pure_bind]
    exact ih

theorem forM_ok {g : α → Build PUnit} (h : forM xs g ws = .ok u ws')
    (I : List α → Workspace → Prop) (h0 : I [] ws)
    (step : ∀ done x rest, xs = done ++ x :: rest → ∀ w w1, I done w → g x w = .ok PUnit.unit w1 →
      I (done ++ [x]) w1) : I xs ws' := by
  rw [← forIn_eq_forM (f := fun x _ => g x >>= fun _ => pure (.yield PUnit.unit)) fun _ => rfl] at h
  refine forIn_ok h I h0 fun done x rest hsplit w w1 s hI hrun => ?_
  obtain ⟨u, w2, hx, hyield⟩ := bind_ok hrun
  obtain ⟨rfl, rfl⟩ := pure_ok hyield
  exact ⟨rfl, step done x rest hsplit w w1 hI hx⟩

theorem forM_range_succ (k : Nat) (g : Nat → Build PUnit) :
    forM (List.range (k + 1)) g = (forM (List.range k) g >>= fun _ => g k) := by
  rw [range_succ, forM_append]
  refine congrArg _ (funext fun _ => ?_)
  rw [forM_cons, forM_nil]
  exact bind_pure_unit

/-- Work step by step: an assertion on the steps done holds at the end, or a first step is refused. -/
theorem forM_range_cases (I : Nat → Workspace → Prop) (E : Nat → Error → Workspace → Prop) (h0 : I 0 ws)
    (step : ∀ m < k, ∀ w, I m w → (∃ w', g m w = .ok PUnit.unit w' ∧ I (m + 1) w') ∨
      ∃ e w', g m w = .error e w' ∧ E m e w') :
    (∃ w', forM (List.range k) g ws = .ok PUnit.unit w' ∧ I k w') ∨
      ∃ m < k, ∃ e w', forM (List.range k) g ws = .error e w' ∧ E m e w' := by
  induction k with
  | zero => exact .inl ⟨ws, rfl, h0⟩
  | succ k ih =>
    rw [forM_range_succ]
    rcases ih fun m hm => step m (by omega) with ⟨w, hrun, hw⟩ | ⟨m, hm, e, w, hrun, he⟩
    · rw [bind_of_ok hrun]
      rcases step k (by omega) w hw with hok | ⟨e, w', hlast, he⟩
      · exact .inl hok
      · exact .inr ⟨k, by omega, e, w', hlast, he⟩
    · exact .inr ⟨m, by omega, e, w, bind_of_error hrun _, he⟩

theorem forM_range_idle (h : ∀ i < k, g i ws = .ok PUnit.unit ws) :
    forM (List.range k) g ws = .ok PUnit.unit ws := by
  induction k with
  | zero => rfl
  | succ k ih =>
    rw [forM_range_succ, bind_of_ok (ih fun i hi => h i (by omega))]
    exact h k (by omega)

theorem forM_range_stuck {m : Nat} (hm : m < k)
    (h : ∀ i < m, g i ws = .ok PUnit.unit ws) (he : g m ws = .error e ws') :
    forM (List.range k) g ws = .error e ws' := by
  induction k with
  | zero => omega
  | succ k ih =>
    rw [forM_range_succ]
    by_cases hlast : m = k
    · subst hlast
      rw [bind_of_ok (forM_range_idle h)]
      exact he
    · exact bind_of_error (ih (by omega)) _

/-! ### Work that may be refused -/

/-- The workspace after some pieces of work, each of which may be refused. -/
def afterAll (work : List (Build α)) (ws : Workspace) : Workspace :=
  work.foldl (fun ws x => after x ws) ws

theorem afterAll_induct {work : List (Build α)} {P : Workspace → Prop}
    (step : ∀ x ∈ work, ∀ ws, P ws → P (after x ws)) (h : P ws) : P (afterAll work ws) := by
  induction work generalizing ws with
  | nil => exact h
  | cons x work ih =>
    exact ih (fun y hy => step y (mem_cons_of_mem _ hy)) (step x mem_cons_self ws h)

/-- From a workspace with `P` the work leads to one with `P'`, refused or not, and `Q` holds of its
answer. -/
def Turns (P P' : Workspace → Prop) (x : Build α) (Q : α → Prop) : Prop :=
  ∀ ws, P ws → match x ws with
    | .ok a ws' => P' ws' ∧ Q a
    | .error _ ws' => P' ws'

/-- The work keeps `P` whether it is refused or not, and `Q` holds of its answer. -/
abbrev Keeps (P : Workspace → Prop) (x : Build α) (Q : α → Prop) : Prop := Turns P P x Q

variable {P P' : Workspace → Prop} {Q : α → Prop} {R : β → Prop}

theorem Turns.after (h : Turns P P' x Q) (hp : P ws) : P' (after x ws) := by
  have := h ws hp
  unfold Build.after
  cases hx : x ws with
  | ok a ws' => rw [hx] at this; exact this.1
  | error e ws' => rw [hx] at this; exact this

theorem Turns.bind (hx : Turns P P' x Q)
    (hf : ∀ a, Q a → Keeps P' (f a) R) : Turns P P' (x >>= f) R := by
  intro ws hp
  have h := hx ws hp
  rw [bind_apply]
  cases hr : x ws with
  | ok a ws' => rw [hr] at h; exact hf a h.2 ws' h.1
  | error e ws' => rw [hr] at h; exact h

theorem Turns.imp {P2 : Workspace → Prop} (h : Turns P P' x Q)
    (hi : ∀ ws, P' ws → P2 ws) : Turns P P2 x Q := by
  intro ws hp
  have := h ws hp
  cases hx : x ws with
  | ok a ws' => rw [hx] at this; exact ⟨hi _ this.1, this.2⟩
  | error e ws' => rw [hx] at this; exact hi _ this

theorem keeps_exists {γ : Type} {C : γ → Prop} {F : γ → Workspace → Prop}
    (h : ∀ c, Keeps (F c) x Q) : Keeps (fun ws => ∃ c, C c ∧ F c ws) x Q := by
  rintro ws ⟨c, hc, hp⟩
  have := h c ws hp
  cases hx : x ws with
  | ok a ws' => rw [hx] at this; exact ⟨⟨c, hc, this.1⟩, this.2⟩
  | error e ws' => rw [hx] at this; exact ⟨c, hc, this⟩

theorem keeps_pure (h : Q a) : Keeps P (pure a) Q := fun _ hp => ⟨hp, h⟩

theorem keeps_throw : Keeps P (throw e : Build α) Q := fun _ hp => hp

theorem keeps_lift {x : Result α} : Keeps P (liftM x : Build α) fun _ => True := by
  intro ws hp
  cases x with
  | ok a => exact ⟨hp, trivial⟩
  | error e => exact hp

theorem keeps_get : Keeps P (getThe Workspace : Build Workspace) fun _ => True :=
  fun _ hp => ⟨hp, trivial⟩

theorem keeps_modify {f : Workspace → Workspace} (h : ∀ ws, P ws → P (f ws)) :
    Keeps P (modify f : Build Unit) fun _ => True :=
  fun ws hp => ⟨h ws hp, trivial⟩

theorem keeps_entryOf {x : Option α} : Keeps P (entryOf x) fun _ => True := by
  intro ws hp
  cases x with
  | none => exact hp
  | some a => exact ⟨hp, trivial⟩

theorem keeps_forIn {f : α → PUnit → Build (ForInStep PUnit)}
    (h : ∀ x ∈ xs, Keeps P (f x PUnit.unit) fun _ => True) :
    Keeps P (forIn xs PUnit.unit f) fun _ => True := by
  induction xs with
  | nil => exact keeps_pure trivial
  | cons x xs ih =>
    rw [forIn_cons]
    refine (h x mem_cons_self).bind fun s _ => ?_
    cases s with
    | done _ => exact keeps_pure trivial
    | yield _ => exact ih fun y hy => h y (mem_cons_of_mem _ hy)

end Build

/-! ### The tables of a workspace -/

namespace Workspace

/-- The address space of an identity. -/
def space? (ws : Workspace) (id : SpaceId) : Option AddressSpace := ws.spaces[id.index]?

def setSpace (ws : Workspace) (id : SpaceId) (s : AddressSpace) : Workspace :=
  { ws with spaces := ws.spaces.setIfInBounds id.index s }

variable {ws : Workspace} {id id' : SpaceId} {s : AddressSpace}

theorem space?_setSpace_self (h : ws.space? id = some s) (s' : AddressSpace) :
    (ws.setSpace id s').space? id = some s' := by
  obtain ⟨hlt, -⟩ := Array.getElem?_eq_some_iff.mp h
  unfold space? setSpace
  rw [Array.getElem?_setIfInBounds_self_of_lt hlt]

theorem space?_setSpace_of_ne (h : id ≠ id') (s' : AddressSpace) :
    (ws.setSpace id s').space? id' = ws.space? id' := by
  unfold space? setSpace
  apply Array.getElem?_setIfInBounds_ne
  intro he
  apply h
  cases id
  cases id'
  exact congrArg SpaceId.mk he

theorem space?_of_push {ws' : Workspace} (h : ws'.spaces = ws.spaces.push s) :
    ws'.space? ⟨ws.spaces.size⟩ = some s := by
  unfold space?
  rw [h]
  exact Array.getElem?_push_size

theorem setSpace_setSpace (ws : Workspace) (id : SpaceId) (s s' : AddressSpace) :
    (ws.setSpace id s).setSpace id s' = ws.setSpace id s' := by
  unfold setSpace
  simp only [Array.setIfInBounds_setIfInBounds]

theorem setSpace_self (h : ws.space? id = some s) : ws.setSpace id s = ws := by
  obtain ⟨hlt, hs⟩ := Array.getElem?_eq_some_iff.mp h
  have hspaces : ws.spaces.setIfInBounds id.index s = ws.spaces := by
    rw [← hs, Array.setIfInBounds, dif_pos hlt, Array.set_getElem_self]
  unfold setSpace
  rw [hspaces]

theorem size_setSpace (ws : Workspace) (id : SpaceId) (s : AddressSpace) :
    (ws.setSpace id s).spaces.size = ws.spaces.size := by
  simp [setSpace]

end Workspace

namespace SpaceId

variable {ws ws' : Workspace} {id : SpaceId} {s : AddressSpace}

theorem get_ok (h : id.get ws = .ok s ws') : ws.space? id = some s ∧ ws' = ws :=
  Build.entryOf_ok h

theorem bind_get_ok {f : AddressSpace → Build β} {b : β} (h : (id.get >>= f) ws = .ok b ws') :
    ∃ s, ws.space? id = some s ∧ f s ws = .ok b ws' :=
  Build.bind_entryOf_ok h

theorem get_apply (id : SpaceId) (ws : Workspace) : id.get ws = entryOf (ws.space? id) ws := rfl

theorem get_of_space? (h : ws.space? id = some s) : id.get ws = .ok s ws := by
  rw [get_apply, h]
  rfl

theorem region_ok {r : Region Occupant} (h : id.region ws = .ok r ws') :
    ∃ s, ws.space? id = some s ∧ r = s.region ∧ ws' = ws := by
  unfold region at h
  obtain ⟨s, hs, hr⟩ := bind_get_ok h
  obtain ⟨rfl, rfl⟩ := Build.pure_ok hr
  exact ⟨s, hs, rfl, rfl⟩

theorem bind_region_ok {f : Region Occupant → Build β} {b : β} (h : (id.region >>= f) ws = .ok b ws') :
    ∃ s, ws.space? id = some s ∧ f s.region ws = .ok b ws' := by
  obtain ⟨_, ws1, hr, hk⟩ := Build.bind_ok h
  obtain ⟨s, hs, rfl, rfl⟩ := region_ok hr
  exact ⟨s, hs, hk⟩

theorem region_of_space? (h : ws.space? id = some s) : id.region ws = .ok s.region ws := by
  unfold region
  rw [Build.bind_of_ok (get_of_space? h)]
  rfl

theorem update_of_space? (h : ws.space? id = some s) (f : AddressSpace → AddressSpace) :
    id.update f ws = .ok () (ws.setSpace id (f s)) := by
  unfold update
  rw [Build.bind_of_ok (get_of_space? h)]
  rfl

theorem update_ok {f : AddressSpace → AddressSpace} {u : Unit} (h : id.update f ws = .ok u ws') :
    ∃ s, ws.space? id = some s ∧ ws' = ws.setSpace id (f s) := by
  unfold update at h
  obtain ⟨s, ws1, hs, hset⟩ := Build.bind_ok h
  obtain ⟨hs, rfl⟩ := get_ok hs
  cases hset
  exact ⟨s, hs, rfl⟩

theorem onRegion_of_space? {α : Type} (h : ws.space? id = some s)
    (f : Region Occupant → Region.Outcome Occupant α) :
    id.onRegion f ws =
      let ws1 := ws.setSpace id { s with region := (f s.region).1 }
      match (f s.region).2 with
      | .ok a => .ok a ws1
      | .error e => .error (e.toError ws1.occupantText) ws1 := by
  unfold onRegion updateRegion
  rw [Build.bind_of_ok (region_of_space? h)]
  cases hf : f s.region with
  | mk r res =>
    simp only
    rw [Build.bind_of_ok (update_of_space? h _)]
    cases res <;> rfl

theorem onRegion_ok {α : Type} {f : Region Occupant → Region.Outcome Occupant α} {a : α}
    (h : id.onRegion f ws = .ok a ws') :
    ∃ s r, ws.space? id = some s ∧ f s.region = (r, .ok a) ∧
      ws' = ws.setSpace id { s with region := r } := by
  have hr := h
  unfold onRegion at hr
  obtain ⟨r, ws1, hr, -⟩ := Build.bind_ok hr
  obtain ⟨s, hs, rfl, rfl⟩ := region_ok hr
  rw [onRegion_of_space? hs] at h
  cases hf : f s.region with
  | mk r res =>
    rw [hf] at h
    cases res with
    | error e => cases h
    | ok b =>
      obtain ⟨rfl, rfl⟩ := EStateM.Result.ok.inj h
      exact ⟨s, r, hs, hf, rfl⟩

end SpaceId

end RegisterMap
