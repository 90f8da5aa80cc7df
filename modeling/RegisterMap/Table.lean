/-! # Insertion-ordered tables

A table is a list of pairs in the order in which its keys were first put in.  Putting a value
under a key that is already there keeps the key's place and replaces the value. -/

namespace RegisterMap

/-- A table from keys to values in the order of first insertion. -/
abbrev Table (κ α : Type) := List (κ × α)

namespace Table

variable {κ α : Type} [BEq κ]

/-- The value under a key. -/
def get? : Table κ α → κ → Option α
  | [], _ => none
  | (k', v) :: rest, k => if k' == k then some v else get? rest k

/-- Put a value under a key: in its place, or at the end. -/
def put : Table κ α → κ → α → Table κ α
  | [], k, v => [(k, v)]
  | (k', v') :: rest, k, v => if k' == k then (k', v) :: rest else (k', v') :: put rest k v

/-- The table without a key. -/
def erase : Table κ α → κ → Table κ α
  | [], _ => []
  | (k', v') :: rest, k => if k' == k then rest else (k', v') :: erase rest k

def keys (t : Table κ α) : List κ := t.map Prod.fst

def values (t : Table κ α) : List α := t.map Prod.snd

def has (t : Table κ α) (k : κ) : Bool := (get? t k).isSome

/-- Put all pairs of `new` into `old`, in order. -/
def merge (old new : Table κ α) : Table κ α := new.foldl (fun t kv => put t kv.1 kv.2) old

/-- The table of pairs, of which a later one overrides. -/
def ofPairs (pairs : List (κ × α)) : Table κ α := merge [] pairs

/-- The value under a key, or `d`, changed by `f`. -/
def update (t : Table κ α) (k : κ) (d : α) (f : α → α) : Table κ α :=
  put t k (f ((get? t k).getD d))

variable [LawfulBEq κ]

@[simp] theorem get?_put_self (t : Table κ α) (k : κ) (v : α) : get? (put t k v) k = some v := by
  induction t with
  | nil => simp [put, get?]
  | cons kv rest ih =>
    obtain ⟨k', v'⟩ := kv
    by_cases h : k' = k <;> simp [put, get?, h, ih]

theorem get?_put_of_ne (t : Table κ α) {k k' : κ} (v : α) (h : k ≠ k') :
    get? (put t k v) k' = get? t k' := by
  induction t with
  | nil => simp [put, get?, h]
  | cons kv rest ih =>
    obtain ⟨k0, v0⟩ := kv
    by_cases h0 : k0 = k
    · subst h0
      simp [put, get?, h]
    · simp [put, get?, h0, ih]

end Table

end RegisterMap
