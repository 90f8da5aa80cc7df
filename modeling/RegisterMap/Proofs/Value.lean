import RegisterMap.Value.Numeric

/-! # Equality of values

Two keys that equal the same value are equal (`Value.same_of_same`): a table cannot hold two keys that
one value finds.  What equals a key is a key (`Value.isKey_of_same`), so equality is an equivalence on
keys.  A list of numbers is found to be a permuted range only if it is one
(`Number.perm_of_isPermutedRange`). -/

namespace RegisterMap

theorem Number.perm_of_isPermutedRange {xs : List Int} (h : Number.isPermutedRange xs = true) :
    xs.Perm ((List.range xs.length).map Int.ofNat) := List.isPerm_iff.mp h

namespace Value

attribute [local simp] same sameAll

theorem integer?_of_same {a d : Value} (h : same a d = true) : a.integer? = d.integer? := by
  cases a with
  | bool a | int a =>
    unfold same at h
    exact (beq_iff_eq.mp h).symm
  | real x =>
    cases d with
    | real y =>
      simp only [same, Double.same, Bool.or_eq_true, Bool.and_eq_true, beq_iff_eq] at h
      rcases h with rfl | ⟨-, h⟩
      · rfl
      · exact h
    | _ =>
      simp only [same, Bool.and_eq_true, beq_iff_eq] at h
      exact h.2
  | _ => cases d <;> first | rfl | (unfold same at h; cases h)

theorem same_of_integer? {a b : Value} {n : Int} (ha : a.integer? = some n) (hb : b.integer? = some n) :
    same a b = true := by
  cases a with
  | bool a | int a =>
    unfold same
    rw [hb, ← ha]
    exact beq_self_eq_true _
  | real x =>
    have hx : x.toInt? = some n := ha
    cases b with
    | real y =>
      have hy : y.toInt? = some n := hb
      simp [same, Double.same, hx, hy]
    | _ => simp [same, hx, hb]
  | _ => cases ha

theorem eq_of_same_real {x : Double} {a : Value} (hx : x.toInt? = .none) (h : same a (real x) = true) :
    a = real x := by
  cases a with
  | real y =>
    have hy : y.toInt? = .none := (integer?_of_same h).trans hx
    simp only [same, Double.same, hy, Option.isSome_none, Bool.false_and, Bool.or_false, beq_iff_eq] at h
    rw [h]
  | bool _ | int _ => cases (integer?_of_same h).trans hx
  | _ => simp [same] at h

theorem eq_real_of_same {x : Double} {d : Value} (hx : x.toInt? = .none) (h : same (real x) d = true) :
    d = real x := by
  cases d with
  | real y =>
    simp only [same, Double.same, hx, Option.isSome_none, Bool.false_and, Bool.or_false, beq_iff_eq] at h
    rw [h]
  | _ => simp [same, hx] at h

theorem same_real_self (x : Double) : same (real x) (real x) = true := by simp [same, Double.same]

theorem eq_none_of_same {a : Value} (h : same a none = true) : a = none := by
  cases a with
  | none => rfl
  | real x => simp [same, show x.toInt? = .none from integer?_of_same h] at h
  | _ => simp [same, integer?, number?] at h

theorem eq_text_of_same {a : Value} {s : String} (h : same a (text s) = true) : a = text s := by
  cases a with
  | text t => rw [beq_iff_eq.mp (show (t == s) = true by rwa [same] at h)]
  | real x => simp [same, show x.toInt? = .none from integer?_of_same h] at h
  | _ => simp [same, integer?, number?] at h

theorem exists_tuple_of_same {a : Value} {zs : List Value} (h : same a (tuple zs) = true) :
    ∃ ys, a = tuple ys ∧ sameAll ys zs = true := by
  cases a with
  | tuple ys => exact ⟨ys, rfl, by rwa [same] at h⟩
  | real x => simp [same, show x.toInt? = .none from integer?_of_same h] at h
  | _ => simp [same, integer?, number?] at h

mutual

theorem same_of_same : ∀ (a b d : Value), a.isKey = true → same a d = true → same b d = true →
    same a b = true
  | bool a, b, d, _, ha, hb =>
    same_of_integer? rfl ((integer?_of_same hb).trans (integer?_of_same ha).symm)
  | int a, b, d, _, ha, hb =>
    same_of_integer? rfl ((integer?_of_same hb).trans (integer?_of_same ha).symm)
  | real x, b, d, _, ha, hb => by
    cases hx : x.toInt? with
    | some n => exact same_of_integer? hx ((integer?_of_same hb).trans ((integer?_of_same ha).symm.trans hx))
    | none =>
      rw [eq_real_of_same hx ha] at hb
      rw [eq_of_same_real hx hb]
      exact same_real_self x
  | none, b, d, _, ha, hb => by
    cases d <;> simp only [same] at ha <;> try cases ha
    rw [eq_none_of_same hb, same]
  | text s, b, d, _, ha, hb => by
    cases d <;> simp only [same] at ha <;> try cases ha
    rw [eq_text_of_same hb, same]
    exact ha
  | tuple xs, b, d, hk, ha, hb => by
    cases d <;> simp only [same] at ha <;> try cases ha
    rename_i zs
    obtain ⟨ys, rfl, hy⟩ := exists_tuple_of_same hb
    rw [same]
    exact sameAll_of_sameAll xs ys zs hk ha hy
  | list xs, _, _, hk, _, _ => by cases hk
  | table xs, _, _, hk, _, _ => by cases hk

theorem sameAll_of_sameAll : ∀ (xs ys zs : List Value), areKeys xs = true → sameAll xs zs = true →
    sameAll ys zs = true → sameAll xs ys = true
  | [], ys, zs, _, hx, hy => by
    cases zs <;> simp_all [sameAll]
    cases ys <;> simp_all [sameAll]
  | x :: xs, ys, zs, hk, hx, hy => by
    cases zs with
    | nil => simp [sameAll] at hx
    | cons z zs =>
      cases ys with
      | nil => simp [sameAll] at hy
      | cons y ys =>
        simp only [sameAll, areKeys, Bool.and_eq_true] at hx hy hk ⊢
        exact ⟨same_of_same x y z hk.1 hx.1 hy.1, sameAll_of_sameAll xs ys zs hk.2 hx.2 hy.2⟩

end

mutual

theorem same_self : ∀ a : Value, a.isKey = true → same a a = true
  | bool a, _ => same_of_integer? rfl rfl
  | int a, _ => same_of_integer? rfl rfl
  | real x, _ => same_real_self x
  | none, _ => by rw [same]
  | text s, _ => by simp [same]
  | tuple xs, h => by
    rw [same]
    exact sameAll_self xs h
  | list _, h => by cases h
  | table _, h => by cases h

theorem sameAll_self : ∀ xs : List Value, areKeys xs = true → sameAll xs xs = true
  | [], _ => by rw [sameAll]
  | x :: xs, h => by
    rw [areKeys, Bool.and_eq_true] at h
    rw [sameAll, same_self x h.1, sameAll_self xs h.2, Bool.and_true]

end

theorem isKey_of_integer? {a : Value} (h : a.integer?.isSome = true) : a.isKey = true := by
  cases a with
  | bool _ | int _ | real _ => rfl
  | _ => cases h

mutual

theorem isKey_of_same : ∀ a d : Value, a.isKey = true → same a d = true → d.isKey = true
  | bool a, d, _, h => isKey_of_integer? (by rw [← integer?_of_same h]; rfl)
  | int a, d, _, h => isKey_of_integer? (by rw [← integer?_of_same h]; rfl)
  | real x, d, _, h => by
    cases hx : x.toInt? with
    | some n => exact isKey_of_integer? (by rw [← integer?_of_same h]; exact Option.isSome_of_eq_some hx)
    | none =>
      rw [eq_real_of_same hx h]
      rfl
  | none, d, _, h => by
    cases d <;> simp only [same] at h <;> try cases h
    rfl
  | text s, d, _, h => by
    cases d <;> simp only [same] at h <;> try cases h
    rfl
  | tuple xs, d, hk, h => by
    cases d <;> simp only [same] at h <;> try cases h
    exact areKeys_of_sameAll xs _ hk h
  | list _, _, hk, _ => by cases hk
  | table _, _, hk, _ => by cases hk

theorem areKeys_of_sameAll : ∀ xs zs : List Value, areKeys xs = true → sameAll xs zs = true →
    areKeys zs = true
  | [], zs, _, h => by
    cases zs with
    | nil => rfl
    | cons z zs => simp [sameAll] at h
  | x :: xs, zs, hk, h => by
    cases zs with
    | nil => simp [sameAll] at h
    | cons z zs =>
      simp only [sameAll, areKeys, Bool.and_eq_true] at h hk ⊢
      exact ⟨isKey_of_same x z hk.1 h.1, areKeys_of_sameAll xs zs hk.2 h.2⟩

end

theorem same_symm {a d : Value} (hk : a.isKey = true) (h : same a d = true) : same d a = true := by
  have hd := isKey_of_same a d hk h
  exact same_of_same d a d hd (same_self d hd) h

theorem same_trans {a b d : Value} (hk : a.isKey = true) (h : same a b = true) (h' : same b d = true) :
    same a d = true :=
  same_of_same a d b hk h (same_symm (isKey_of_same a b hk h) h')

theorem isKey_of_requireKey {v : Value} {u : Unit} (h : v.requireKey = .ok u) : v.isKey = true := by
  unfold requireKey at h
  split at h
  · assumption
  · cases h

/-! ### Documents of small netlists -/

def ofMembers (rows : List (String × Value)) : Value := table (rows.map fun (name, v) => (text name, v))

/-- A net of some bits from `first` on. -/
def netWith (first width : Nat) (attributes : List (String × String)) : Value :=
  ofMembers [("bits", list ((List.range width).map fun (n : Nat) => int ((first + n : Nat) : Int))),
    ("attributes", ofMembers (attributes.map fun (name, word) => (name, text word)))]

def netOf (first width : Nat) (role word source : String) : Value :=
  netWith first width [(role, word), ("src", source)]

def cellOf (type source : String) : Value :=
  ofMembers [("type", text type), ("attributes", ofMembers [("src", text source)])]

def moduleOf (cells memories nets attributes : List (String × Value)) : Value :=
  ofMembers [("attributes", ofMembers attributes), ("cells", ofMembers cells),
    ("memories", ofMembers memories), ("netnames", ofMembers nets)]

end Value

end RegisterMap
