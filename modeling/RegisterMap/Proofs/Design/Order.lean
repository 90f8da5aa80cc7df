import RegisterMap.Design.Resolve
import RegisterMap.Proofs.Dependency.Search
import RegisterMap.Proofs.Workspace.Ensures

/-! # The order of the spaces of an instance

The order by dependencies moves items and loses none (`Dependency.order_perm`).  So the spaces of an
instance are resolved each once (`memoryOrder_ok`). -/

namespace RegisterMap

open Build List

namespace JoinSearch

/-- The numbers in a search are numbers of spaces. -/
structure Below (s : JoinSearch) (k : Nat) : Prop where
  pending : ∀ e ∈ s.pending, e.1 < k
  rules : ∀ e ∈ s.rules, e.1 < k ∧ e.2 < k

theorem Below.meet {s : JoinSearch} {k n : Nat} (h : s.Below k) (hn : n < k) (name : String) :
    (s.meet n name).Below k := by
  unfold JoinSearch.meet
  split
  · exact h
  · rename_i joined v hfind
    have hjoined := h.pending _ (mem_of_find?_eq_some hfind)
    refine ⟨fun e he => ?_, fun e he => ?_⟩
    · exact h.pending e ((Table.erase_sublist _ _).subset he)
    · rcases Table.mem_put he with he | rfl
      · exact h.rules e he
      · exact ⟨hjoined, hn⟩

theorem Below.meetAll {s : JoinSearch} {k n : Nat} (h : s.Below k) (hn : n < k) (names : List String) :
    (names.foldl (fun s name => s.meet n name) s).Below k := by
  induction names generalizing s with
  | nil => exact h
  | cons name names ih => exact ih (h.meet hn name)

theorem Below.order_perm {s : JoinSearch} {k : Nat} (h : s.Below k) :
    (Dependency.order s.rules ++
      (List.range k).filter fun n => !(Dependency.order s.rules).contains n).Perm (List.range k) := by
  have hperm := Dependency.order_perm s.rules
  obtain ⟨hnodup, hmem⟩ := Dependency.items_nodup s.rules
  have hbelow : ∀ n ∈ Dependency.order s.rules, n < k := by
    intro n hn
    obtain ⟨rule, hrule, he⟩ := (hmem n).mp (hperm.mem_iff.mp hn)
    have := h.rules rule hrule
    omega
  refine (perm_ext_iff_of_nodup ?_ nodup_range).mpr fun n => ?_
  · refine nodup_append.mpr ⟨hperm.nodup_iff.mpr hnodup, nodup_range.filter _, ?_⟩
    rintro a ha b hb rfl
    have := (mem_filter.mp hb).2
    simp [ha] at this
  · simp only [mem_append, mem_filter, mem_range, Bool.not_eq_true',
      contains_eq_mem, decide_eq_false_iff_not]
    constructor
    · rintro (hn | ⟨hn, -⟩)
      · exact hbelow n hn
      · exact hn
    · intro hn
      by_cases h : n ∈ Dependency.order s.rules
      · exact .inl h
      · exact .inr ⟨hn, h⟩

end JoinSearch

theorem SpaceId.readOnly_passengerNames (id : SpaceId) : ReadOnly id.passengerNames := by
  refine (readOnly_contents id).bind fun items => readOnly_filterMapM fun e _ => ?_
  obtain ⟨lo, hi, item⟩ := e
  cases item with
  | passenger p => exact p.readOnly_get.bind fun _ => readOnly_pure _
  | _ => exact readOnly_pure _

variable {ws ws' : Workspace}

theorem memoryOrder_ok {ids : List SpaceId} {module : Option String} {order : List Nat}
    {found : Table String Nat} (h : memoryOrder ids module ws = .ok (order, found) ws') :
    ws' = ws ∧ order.Perm (List.range ids.length) := by
  have hbranch : ∀ e ∈ ids.zipIdx, ReadOnly (do
      let name := (← e.1.get).pseudoDomain
      return if name.isNone then none else some (e.2, name) : Build (Option (Nat × Value))) :=
    fun e _ => e.1.readOnly_get.bind fun _ => readOnly_pure _
  unfold memoryOrder at h
  obtain ⟨joined, ws1, hjoined, h1⟩ := bind_ok h
  obtain ⟨rfl, q, hq, rfl⟩ := filterMapM_ok hjoined fun e he _ _ hrun => hbranch e he hrun
  dsimp only at h1
  split at h1
  · obtain ⟨he, rfl⟩ := pure_ok h1
    exact ⟨rfl, by rw [(Prod.mk.inj he).1]⟩
  · obtain ⟨search, ws2, hsearch, h2⟩ := bind_ok h1
    have hfold : ws2 = ws1 ∧ search.Below ids.length := by
      refine foldlM_ok hsearch (fun _ s w => w = ws1 ∧ s.Below ids.length)
        ⟨rfl, fun e he => ?_, by simp⟩ ?_
      · obtain ⟨p, hp, hsome⟩ := mem_filterMap.mp he
        obtain ⟨s, w, hget, hrun⟩ := bind_ok (hq p hp)
        have hout := (pure_ok hrun).1
        rw [hsome] at hout
        split at hout
        · cases hout
        · obtain rfl := Option.some.inj hout
          exact (mem_zipIdx' hp).1
      · rintro done e rest hids s s1 w w1 ⟨rfl, hs⟩ hrun
        obtain ⟨names, -, hrest⟩ := e.1.readOnly_passengerNames.bind_ok hrun
        obtain ⟨rfl, rfl⟩ := pure_ok hrest
        exact ⟨rfl, hs.meetAll (mem_zipIdx' (hids ▸ mem_append_right done mem_cons_self)).1 names⟩
    obtain ⟨rfl, hbelow⟩ := hfold
    split at h2
    · obtain ⟨_, ws3, -, h3⟩ := bind_ok h2
      obtain ⟨_, _, hthrow, -⟩ := bind_ok h3
      exact (throw_ok hthrow).elim
    · obtain ⟨he, rfl⟩ := pure_ok h2
      exact ⟨rfl, by rw [(Prod.mk.inj he).1]; exact hbelow.order_perm⟩

end RegisterMap
