import RegisterMap.Proofs.Decoder.Comparisons
import RegisterMap.Proofs.Decoder.Nodes

/-! # The way of an address to an instance

The logic of a module compares the upper bits of the address for each instance outside loops
(`Link`), and hands the lower bits on to it.  An address goes down a chain of instances if the
comparisons on its way hold (`Reaches`).  In a design that is read, these are exactly the addresses that
the last instance has in the memory map, and it sees them from its own address on (`reaches_iff`).  No
address goes to two instances of a module (`Link.eq_of_holds`). -/

namespace RegisterMap

open Build List

/-! ### The bus of all ports -/

theorem BusId.set_ok {id : BusId} {b : Bus} {u : Unit} {ws ws' : Workspace}
    (h : id.set b ws = .ok u ws') : ∃ busses, ws' = { ws with busses := busses } := by
  cases h
  exact ⟨_, rfl⟩

theorem BusId.union_ok {ids : List BusId} {id : BusId} {ws ws' : Workspace}
    (h : BusId.union ids ws = .ok id ws') : ∃ busses, ws' = { ws with busses := busses } := by
  obtain ⟨bs, ws1, hget, h1⟩ := bind_ok h
  obtain ⟨rfl, -⟩ := mapM_ok hget fun _ _ _ _ h => (entryOf_ok h).2
  dsimp only at h1
  obtain ⟨_, ws2, hloop, h2⟩ := bind_ok h1
  obtain ⟨busses, rfl⟩ : ∃ busses, ws2 = { ws1 with busses := busses } := by
    refine forIn_ok hloop (fun _ ws => ∃ busses, ws = { ws1 with busses := busses })
      ⟨ws1.busses, rfl⟩ ?_
    rintro done x rest - w w' step ⟨busses, rfl⟩ hround
    obtain ⟨_, w1, hset, hround1⟩ := bind_ok hround
    obtain ⟨busses', rfl⟩ := BusId.set_ok hset
    obtain ⟨hyield, rfl⟩ := pure_ok hround1
    exact ⟨hyield, busses', rfl⟩
  obtain ⟨b, -, h3⟩ := bind_lift_ok h2
  cases h3
  exact ⟨_, rfl⟩

namespace Decoder

/-! ### Children of a scope -/

variable {ws ws' : Workspace} {n : Node} {c : Child}

theorem Node.child_ok (h : n.child ws = .ok c ws') : ws' = ws ∧ ∃ main, n.main = .ok main ∧
    c.inst = n.inst ∧ c.aw = main.aw ∧ c.base = main.base ∧
    (∀ domain start, n.place = .direct domain start → c.start = some start) ∧
    c.block = n.block.bind fun id => ws.blocks[id.index]? := by
  obtain ⟨main, hmain, h1⟩ := bind_lift_ok h
  obtain ⟨b, -, h2⟩ := bind_entryOf_ok h1
  obtain ⟨o, ws3, hblock, h3⟩ := bind_ok h2
  obtain ⟨rfl, ho⟩ : ws3 = ws ∧ o = n.block.bind fun id => ws.blocks[id.index]? := by
    cases hb : n.block with
    | none =>
      rw [hb] at hblock
      obtain ⟨rfl, rfl⟩ := pure_ok hblock
      exact ⟨rfl, rfl⟩
    | some id =>
      rw [hb] at hblock
      obtain ⟨block, hget, hblock1⟩ := bind_entryOf_ok hblock
      obtain ⟨rfl, rfl⟩ := pure_ok hblock1
      exact ⟨rfl, hget.symm⟩
  obtain ⟨rfl, rfl⟩ := pure_ok h3
  refine ⟨rfl, main, hmain, rfl, rfl, rfl, fun domain start hplace => ?_, ho⟩
  dsimp only
  rw [hplace]

theorem readOnly_rider (id : PassengerId) : ReadOnly id.rider :=
  id.readOnly_get.bind fun p => p.bus.readOnly_get.bind fun _ => readOnly_pure _

/-- The instances outside loops that stand in a domain are in its scope, and those in loops there stand
in the domain. -/
theorem Domain.scope_children {d : Domain} {ports : BusId} {children : List (Tree Node)} {s : Scope}
    (h : d.scope ports children ws = .ok s ws') :
    (∀ k ∈ inDomain children d.domain, ∀ domain start, k.data.place = .direct domain start →
      ∃ c ∈ s.children, k.data.child ws = .ok c ws) ∧
    ∀ branch cs, (branch, cs) ∈ s.blockChildren → ∀ c ∈ cs, ∃ k ∈ inDomain children d.domain,
      ∃ domain start, k.data.place = .looped domain branch start ∧ k.data.child ws = .ok c ws := by
  unfold Domain.scope at h
  obtain ⟨ending, -, h1⟩ := bind_lift_ok h
  have h2 := Build.bind_get_ok h1
  dsimp only at h2
  obtain ⟨riders, ws3, hriders, h3⟩ := bind_ok h2
  obtain rfl : ws3 = ws := (mapM_ok hriders fun row _ _ _ hrow => by
    obtain ⟨items, w1, hitems, hrow1⟩ := bind_ok hrow
    obtain rfl := readOnly_filterMapM (fun id _ => (readOnly_rider id).bind fun _ =>
      (readOnly_block? id).bind fun _ => readOnly_pure _) hitems
    exact (pure_ok hrow1).2).1
  obtain ⟨direct, ws4, hdirect, h4⟩ := bind_ok h3
  obtain ⟨rfl, p, hp, rfl⟩ := filterMapM_ok hdirect fun k _ o ws hk => by
    cases hplace : k.place with
    | direct domain start =>
      rw [hplace] at hk
      obtain ⟨c, w1, hchild, hk1⟩ := bind_ok hk
      obtain ⟨rfl, -⟩ := Node.child_ok hchild
      exact (pure_ok hk1).2
    | _ =>
      rw [hplace] at hk
      exact (pure_ok hk).2
  obtain ⟨looped, ws5, hlooped, h5⟩ := bind_ok h4
  obtain ⟨rfl, q, hq, rfl⟩ := filterMapM_ok hlooped fun k _ o ws hk => by
    cases hplace : k.place with
    | looped domain branch start =>
      rw [hplace] at hk
      obtain ⟨c, w1, hchild, hk1⟩ := bind_ok hk
      obtain ⟨rfl, -⟩ := Node.child_ok hchild
      exact (pure_ok hk1).2
    | _ =>
      rw [hplace] at hk
      exact (pure_ok hk).2
  obtain ⟨_, _, -, h6⟩ := bind_ok h5
  obtain ⟨_, _, -, h7⟩ := bind_ok h6
  obtain ⟨_, _, -, h8⟩ := bind_ok h7
  obtain ⟨_, _, -, h9⟩ := bind_ok h8
  obtain ⟨_, _, -, h10⟩ := bind_ok h9
  obtain ⟨_, _, -, h11⟩ := bind_ok h10
  obtain ⟨_, _, -, h12⟩ := bind_ok h11
  obtain ⟨_, _, -, h13⟩ := bind_ok h12
  obtain ⟨rfl, -⟩ := pure_ok h13
  refine ⟨fun k hk domain start hplace => ?_, fun branch cs hcs c hc => ?_⟩
  · have hrow := hp _ (mem_map_of_mem hk)
    rw [hplace] at hrow
    obtain ⟨c, w1, hchild, hrow1⟩ := bind_ok hrow
    obtain ⟨rfl, -⟩ := Node.child_ok hchild
    exact ⟨c, mem_filterMap.mpr ⟨_, mem_map_of_mem hk, (pure_ok hrow1).1⟩, hchild⟩
  · obtain ⟨group, hgroup, he⟩ := mem_map.mp hcs
    obtain ⟨rfl, rfl⟩ := Prod.mk.inj he
    obtain ⟨e, he, rfl⟩ := mem_map.mp hc
    obtain ⟨-, hkeys⟩ := Design.groupBy_key hgroup
    obtain ⟨hkey, he⟩ := hkeys e he
    obtain ⟨k, hk, hqk⟩ := mem_filterMap.mp he
    obtain ⟨t, ht, rfl⟩ := mem_map.mp hk
    have hrow := hq _ hk
    rw [hqk] at hrow
    cases hplace : t.data.place with
    | looped domain branch start =>
      rw [hplace] at hrow
      obtain ⟨c, w1, hchild, hrow1⟩ := bind_ok hrow
      obtain ⟨rfl, -⟩ := Node.child_ok hchild
      obtain rfl := Option.some.inj (pure_ok hrow1).1
      rw [← hkey]
      exact ⟨t, ht, domain, start, hplace, hchild⟩
    | _ =>
      rw [hplace] at hrow
      cases (pure_ok hrow).1

/-! ### Instances in the space around them -/

section

variable {d : Design} {ws1 : Workspace} {t v i : InstanceTree} {st : Design.Resolution} {busses : Array Bus}

theorem Enters.seat (h : Design.Origin d ws ws1 t st) (hv : v ∈ d.tree.subtrees)
    (hi : i ∈ v.children) (hn : n.Describes { ws with busses := busses } i.data)
    (he : Enters { ws with busses := busses } v.data i.data n) :
    ∃ main host slot, n.main = .ok main ∧ n.inst = main.inst ∧ main.space ∈ i.data.spaces ∧
      Domain.Describes { ws with busses := busses } main.space main ∧
      v.data.spaces.find? (fun j => ws.domainOf j == i.data.parentDomain) = some host ∧
      ws.Contains host slot main.space ∧
      n.place = placeIn { ws with busses := busses } n.block i.data.parentDomain slot.lo := by
  obtain ⟨main, hmain, hinst⟩ := he.named
  obtain ⟨target, host, slot, htarget, hhost, hslot, hplace⟩ := he.place
  obtain ⟨hmem, hdescribes, hnone⟩ := hn.main hmain
  have htitle : (ws.domainOf target == .none) = true :=
    find?_some (p := fun j => ws.domainOf j == .none) htarget
  have hmain' : (ws.domainOf main.space == .none) = true := by
    rw [show ws.domainOf main.space = .none from hnone]
    rfl
  obtain rfl : main.space = target :=
    h.eq_of_domain hv hi (mem_of_find?_eq_some htarget) hslot hmem htitle hmain'
  exact ⟨main, host, slot, hmain, hinst, hmem, hdescribes, hhost, hslot, hplace⟩

theorem placeIn_direct {w : Workspace} {block : Option BlockId} {domain domain' : Value}
    {start start' : Int} (h : placeIn w block domain start = .direct domain' start') :
    domain' = domain ∧ start' = start := by
  unfold placeIn at h
  split at h
  · cases h
    exact ⟨rfl, rfl⟩
  · split at h
    · cases h
    · cases h
      exact ⟨rfl, rfl⟩

/-- An instance outside loops stands in the space of the domain that it is told in. -/
theorem Fits.directChild {u k : Tree Node} {key domain : Value} {dom : Domain} {start : Int}
    (h : Design.Origin d ws ws1 t st) (hv : v ∈ d.tree.subtrees)
    (hfits : Fits { ws with busses := busses } v u) (hdom : (key, dom) ∈ u.data.domains)
    (hk : k ∈ inDomain u.children dom.domain) (hplace : k.data.place = .direct domain start) :
    ∃ i ∈ v.children, Fits { ws with busses := busses } i k ∧ ∃ main slot, k.data.main = .ok main ∧
      main.aw = ws.widthOf (.space main.space) ∧
      ws.Contains dom.space slot main.space ∧ slot.lo = start := by
  obtain ⟨hk, hin⟩ := mem_filter.mp hk
  rw [hplace] at hin
  obtain ⟨hspace, hdescribes, -⟩ := hfits.describes.mem hdom
  rcases hfits.child hk with ⟨i, hi, henters, hfits', -⟩ | ⟨grown, domain', branch, copies, hcopies, -⟩
  · obtain ⟨main, host, slot, hmain, -, hmem, hdesc, hhost, hslot, hplace'⟩ :=
      henters.seat h hv hi hfits'.describes
    obtain ⟨rfl, rfl⟩ := placeIn_direct (hplace'.symm.trans hplace)
    have hpk := h.isKey_parentDomain hv hi hmem hslot
    rw [hdescribes.domain] at hin
    obtain rfl : dom.space = host := h.eq_host hv hi hmem hslot hhost hspace (Value.same_symm hpk hin)
    exact ⟨i, hi, hfits', main, slot, hmain, hdesc.aw, hslot, rfl⟩
  · -- the child joined from copies of a loop stands where the first of them does
    obtain ⟨p, rest, addresses, hsplit, hfirst⟩ := hcopies.first
    obtain ⟨-, ⟨_, _, hlooped, -⟩, -⟩ := hcopies.mem p (hsplit ▸ mem_cons_self)
    rw [hfirst] at hplace
    cases hlooped.symm.trans hplace

/-- The decoder of a design that is read fits the tree of its instances. -/
theorem ofTree_fits {netlist : Netlist} {ws ws1 ws2 ws3 : Workspace} {d : Design} {ports : BusId}
    {trace : Bool} {dec : Decoder} (hblank : ws.Blank) (hread : Design.read netlist ws = .ok d ws1)
    (hports : BusId.union d.busses ws1 = .ok ports ws2)
    (hdec : Decoder.ofTree d.tree d.busses ports trace ws2 = .ok dec ws3) :
    ∃ ws0 t st busses, Design.Origin d ws1 ws0 t st ∧ Fits { ws1 with busses := busses } d.tree dec.tree ∧
      ws3.blocks = ws1.blocks := by
  obtain ⟨ws0, t, st, horigin⟩ := Design.read_ok hblank hread
  obtain ⟨busses, rfl⟩ := BusId.union_ok hports
  obtain ⟨tree, ws4, hgrow, hdec1⟩ := Build.bind_ok hdec
  obtain ⟨rfl, rfl⟩ := Build.pure_ok hdec1
  have hresolved : ∀ i ∈ d.tree.toList, ∀ id ∈ i.spaces,
      ({ ws1 with busses := busses } : Workspace).Resolved id := by
    intro i hi id hid
    obtain ⟨v, hv, rfl⟩ := mem_map.mp hi
    obtain ⟨s, hs, hset⟩ := horigin.settled hv hid
    exact ⟨s, hs, hset.resolved⟩
  obtain ⟨-, ⟨hfits, -⟩, hequips⟩ :=
    grow_fits d.busses ports hresolved horigin.aligned (.refl _) hgrow
  exact ⟨ws0, t, st, busses, horigin, hfits, hequips.blocks⟩

end

/-! ### Upper bits -/

/-- Below `2 ^ m` no upper bits are cut off by the width of the bus. -/
theorem upper_bits_eq {k m : Nat} {n a : Int} (hm : (m : Int) ≤ n) (h0 : 0 ≤ a) (ha : a < 2 ^ m) :
    a / 2 ^ k % 2 ^ (n - k).toNat = a / 2 ^ k := by
  have hpos : (0 : Int) < 2 ^ k := Number.two_pow_pos k
  refine Int.emod_eq_of_lt (Int.ediv_nonneg h0 hpos.le) ?_
  rw [Int.ediv_lt_iff_lt_mul hpos, ← pow_add]
  exact ha.trans_le (pow_le_pow_right₀ (by norm_num) (by omega))

/-- On a bus of `n` address bits, what is written at a site holds of an address: its upper bits are those
of the block, or the block is as wide as the bus. -/
def Site.Holds (x : Site) (n : Nat) (a : Int) : Prop :=
  ∃ base, x.base = some base ∧ (x.total = true ∧ (n : Int) = x.aw ∨
    a / 2 ^ x.aw.toNat % 2 ^ (n - x.aw).toNat = base.fdiv (2 ^ x.aw.toNat))

theorem Site.holds_iff {x : Site} {n k : Nat} {lo a : Int} (hbase : x.base = some lo) (haw : x.aw = k)
    (hlo : 0 ≤ lo) (hhi : lo + 2 ^ k ≤ 2 ^ n) (hdvd : (2 ^ k : Int) ∣ lo) (h0 : 0 ≤ a) (ha : a < 2 ^ n) :
    x.Holds n a ↔ lo ≤ a ∧ a < lo + 2 ^ k := by
  have hpos : (0 : Int) < 2 ^ k := Number.two_pow_pos k
  have hquot : lo.fdiv (2 ^ k) = lo / 2 ^ k := Int.fdiv_eq_ediv_of_nonneg _ hpos.le
  have hmul : lo / 2 ^ k * 2 ^ k = lo := Int.ediv_mul_cancel hdvd
  have hupper : a / 2 ^ k = lo / 2 ^ k ↔ lo ≤ a ∧ a < lo + 2 ^ k := by
    rw [Int.ediv_eq_iff_of_pos hpos, hmul]
  unfold Holds
  simp only [hbase, haw, Option.some.injEq, exists_eq_left', Int.toNat_natCast, hquot]
  rw [upper_bits_eq le_rfl h0 ha, hupper]
  refine or_iff_right_of_imp fun ⟨_, hn⟩ => ?_
  obtain rfl : n = k := by exact_mod_cast hn
  omega

/-! ### Chains of instances -/

/-- The logic of the module `u` in the domain `dom` is written for a bus of `n` address bits.  It tells the
instance `k`, outside loops, at the site `x`. -/
structure Link (ports : BusId) (n : Nat) (u : Tree Node) (dom : Domain) (x : Site) (k : Tree Node)
    (main : Domain) : Prop where
  child : k ∈ inDomain u.children dom.domain
  direct : ∃ domain start, k.data.place = .direct domain start
  main : k.data.main = .ok main
  written : ∃ w w' s nets c, dom.scope ports u.children w = .ok s w' ∧ s.busAw = .ok (n : Int) ∧
    s.netCode = .ok nets ∧ k.data.child w = .ok c w ∧ x ∈ Scope.childSites c

/-- From a module down through instances, each told by a comparison of the one around it. -/
inductive Chain (ports : BusId) (n : Nat) : Tree Node → Domain → List Site → Tree Node → Domain → Prop
  | last {u dom x k main} (link : Link ports n u dom x k main) : Chain ports n u dom [x] k main
  | next {u dom x k main xs t inner} (link : Link ports n u dom x k main)
      (rest : Chain ports n k main xs t inner) : Chain ports n u dom (x :: xs) t inner

/-- An address `a` that is put to the first module arrives as `b`: at each instance it is hit, and its
upper bits are cleared. -/
def Reaches (n : Nat) : List Site → Int → Int → Prop
  | [], a, b => b = a
  | x :: xs, a, b => x.Holds n a ∧ Reaches n xs (a % 2 ^ x.aw.toNat) b

section

variable {ports : BusId} {m : Nat} {u k k' : Tree Node} {dom main main' inner : Domain} {x x' : Site}

/-- Every instance outside generate blocks is told in the logic that is written for its module. -/
theorem exists_link {w w' : Workspace} {s : Scope} {nets : List Code} {domain : Value} {start : Int}
    (hscope : dom.scope ports u.children w = .ok s w') (hn : s.busAw = .ok (m : Int))
    (hnets : s.netCode = .ok nets) (hk : k ∈ inDomain u.children dom.domain)
    (hplace : k.data.place = .direct domain start) (hblock : k.data.block = none) :
    ∃ x main, Link ports m u dom x k main := by
  obtain ⟨c, -, hchild⟩ := (Domain.scope_children hscope).1 k hk domain start hplace
  obtain ⟨-, main, hmain, -, -, -, -, hc⟩ := Node.child_ok hchild
  obtain ⟨x, hx⟩ : ∃ x, x ∈ Scope.childSites c := by
    unfold Scope.childSites Child.loop?
    rw [hc, hblock]
    exact ⟨_, mem_singleton_self _⟩
  exact ⟨x, main, hk, ⟨domain, start, hplace⟩, hmain, w, w', s, nets, c, hscope, hn, hnets, hchild, hx⟩

/-- The comparison is written in the logic of the module. -/
theorem Link.driven (h : Link ports m u dom x k main) :
    ∃ s nets, s.netCode = .ok nets ∧ x.Driven s m nets [] := by
  obtain ⟨w, w', s, nets, c, hscope, hn, hnets, hchild, hx⟩ := h.written
  obtain ⟨domain, start, hplace⟩ := h.direct
  obtain ⟨c', hc', hchild'⟩ := (Domain.scope_children hscope).1 k h.child domain start hplace
  rw [hchild] at hchild'
  cases hchild'
  obtain ⟨own, inner, riders, routing, -, hinner, -, rfl⟩ := Scope.netCode_ok hnets
  exact ⟨s, _, hnets, Scope.childSites_driven hn hinner (by simp) (.inl hc') hx⟩

variable {d : Design} {ws1 : Workspace} {t v : InstanceTree} {st : Design.Resolution} {busses : Array Bus}
  {key : Value} {a : Int}

variable (h : Design.Origin d ws ws1 t st)

include h

/-- The comparison for a space in a slot holds of the addresses of the slot, and of no others. -/
theorem holds_iff_slot {host c : SpaceId} {slot : Slot Occupant} (hslot : ws.Contains host slot c)
    (hbase : x.base = some slot.lo) (haw : x.aw = ws.widthOf (.space c))
    (hwide : ws.widthOf (.space host) ≤ m) (h0 : 0 ≤ a) (ha : a < 2 ^ m) :
    x.Holds m a ↔ slot.lo ≤ a ∧ a < slot.hi := by
  obtain ⟨j, r, hj, hr, hlo, hhi, hbelow, hdvd⟩ := h.block_of_contains hslot
  have htop : slot.hi ≤ 2 ^ m := hbelow.trans (pow_le_pow_right₀ (by norm_num) (by omega))
  rw [hhi]
  exact Site.holds_iff hbase (haw.trans hj) hlo (hhi ▸ htop) hdvd h0 ha

variable (hv : v ∈ d.tree.subtrees) (hfits : Fits { ws with busses := busses } v u)
  (hdom : (key, dom) ∈ u.data.domains)

include hv hfits hdom

/-- A link goes to an instance that stands in a slot of the space around it. -/
theorem Link.seat (hl : Link ports m u dom x k main) :
    ∃ i ∈ v.children, Fits { ws with busses := busses } i k ∧ (∃ key, (key, main) ∈ k.data.domains) ∧
      ∃ slot, ws.Contains dom.space slot main.space ∧ x.base = some slot.lo ∧
        x.aw = ws.widthOf (.space main.space) := by
  obtain ⟨w, w', s, nets, c, -, -, -, hchild, hx⟩ := hl.written
  obtain ⟨domain, start, hplace⟩ := hl.direct
  obtain ⟨i, hi, hfits', main1, slot, hmain1, haw, hslot, rfl⟩ :=
    hfits.directChild h hv hdom hl.child hplace
  obtain rfl : main = main1 := Except.ok.inj (hl.main.symm.trans hmain1)
  obtain ⟨-, main2, hmain2, -, hcaw, -, hstart, -⟩ := Node.child_ok hchild
  obtain rfl : main = main2 := Except.ok.inj (hl.main.symm.trans hmain2)
  have hkey : ∃ key, (key, main) ∈ k.data.domains := by
    have hget := hl.main
    unfold Node.main Design.requireKey at hget
    split at hget
    · cases hget
      obtain ⟨key, hmem, -⟩ := Table.mem_of_get? ‹_›
      exact ⟨key, hmem⟩
    · cases hget
  unfold Scope.childSites at hx
  split at hx
  · obtain rfl := mem_singleton.mp hx
    exact ⟨i, hi, hfits', hkey, slot, hslot, hstart _ _ hplace, hcaw.trans haw⟩
  · cases hx

variable (hwide : ws.widthOf (.space dom.space) ≤ m)

include hwide

/-- No address goes to two instances of a module. -/
theorem Link.eq_of_holds (hl : Link ports m u dom x k main) (hl' : Link ports m u dom x' k' main')
    (h0 : 0 ≤ a) (ha : a < 2 ^ m) (hx : x.Holds m a) (hx' : x'.Holds m a) : main.space = main'.space := by
  obtain ⟨-, -, -, -, slot, hslot, hbase, haw⟩ := hl.seat h hv hfits hdom
  obtain ⟨-, -, -, -, slot', hslot', hbase', haw'⟩ := hl'.seat h hv hfits hdom
  rw [holds_iff_slot h hslot hbase haw hwide h0 ha] at hx
  rw [holds_iff_slot h hslot' hbase' haw' hwide h0 ha] at hx'
  obtain ⟨hmem, -, -⟩ := hfits.describes.mem hdom
  obtain ⟨s, hs, hset⟩ := h.settled hv hmem
  obtain ⟨hin, hitem⟩ := (Workspace.contains_iff hs).mp hslot
  obtain ⟨hin', hitem'⟩ := (Workspace.contains_iff hs).mp hslot'
  by_contra hne
  have hapart := hset.spaced.disjoint hin hin' fun he => hne
    (Occupant.space.inj (hitem.symm.trans ((congrArg Slot.item he).trans hitem')))
  omega

/-- What one instance on the way does to an address: it stands in the space around it, and takes its
address off. -/
theorem Link.passes_iff (hl : Link ports m u dom x k main) :
    ∃ i ∈ v.children, Fits { ws with busses := busses } i k ∧ (∃ key, (key, main) ∈ k.data.domains) ∧
      ∃ (lo : Int) (w r : Nat), ws.origin main.space = ws.origin dom.space + lo ∧ 0 ≤ lo ∧
        ws.widthOf (.space main.space) = w ∧ ws.widthOf (.space dom.space) = r ∧ lo + 2 ^ w ≤ 2 ^ r ∧
        ∀ a b : Int, 0 ≤ a → a < 2 ^ m →
          (x.Holds m a ∧ b = a % 2 ^ x.aw.toNat ↔ a = lo + b ∧ 0 ≤ b ∧ b < 2 ^ w) := by
  obtain ⟨i, hi, hfits', hkey, slot, hslot, hbase, haw⟩ := hl.seat h hv hfits hdom
  obtain ⟨w, r, hw, hr, hlo, hhi, hbelow, hdvd⟩ := h.block_of_contains hslot
  obtain ⟨_, hlanded, -⟩ := h.landed
  refine ⟨i, hi, hfits', hkey, slot.lo, w, r, hlanded.origin hslot, hlo, hw, hr, hhi ▸ hbelow,
    fun a b h0 ha => ?_⟩
  rw [holds_iff_slot h hslot hbase haw hwide h0 ha, hhi, haw, hw, Int.toNat_natCast]
  obtain ⟨z, hz⟩ := hdvd
  constructor
  · rintro ⟨⟨hle, hlt⟩, rfl⟩
    have hmod : a % 2 ^ w = a - slot.lo := by
      rw [← Int.sub_mul_emod_self_left a (2 ^ w) z, ← hz]
      exact Int.emod_eq_of_lt (by omega) (by omega)
    omega
  · rintro ⟨rfl, hb, hb'⟩
    refine ⟨by omega, ?_⟩
    rw [hz, Int.mul_add_emod_self_left, Int.emod_eq_of_lt hb hb']

/-- What a chain of instances does to an address. -/
theorem Chain.reaches_iff {y : Tree Node} {xs : List Site} (hchain : Chain ports m u dom xs y inner) :
    ∃ (lo : Int) (w r : Nat), ws.origin inner.space = ws.origin dom.space + lo ∧ 0 ≤ lo ∧
      ws.widthOf (.space inner.space) = w ∧ ws.widthOf (.space dom.space) = r ∧ lo + 2 ^ w ≤ 2 ^ r ∧
      ∀ a b : Int, 0 ≤ a → a < 2 ^ m → (Reaches m xs a b ↔ a = lo + b ∧ 0 ≤ b ∧ b < 2 ^ w) := by
  induction hchain generalizing v key with
  | last link =>
    obtain ⟨-, -, -, -, hpass⟩ := link.passes_iff h hv hfits hdom hwide
    exact hpass
  | next link rest ih =>
    obtain ⟨i, hi, hfits', ⟨key', hkey'⟩, lo, w, r, horigin, hlo, hw, hr, hle, hpass⟩ :=
      link.passes_iff h hv hfits hdom hwide
    have hfit : (2 : Int) ^ w ≤ 2 ^ r := by omega
    have hnarrow : w ≤ r := (pow_le_pow_iff_right₀ (by norm_num)).mp hfit
    have htop : (2 : Int) ^ w ≤ 2 ^ m := pow_le_pow_right₀ (by norm_num) (by omega)
    obtain ⟨lo', w', r', horigin', hlo', hw', hr', hle', hreach⟩ :=
      ih (Tree.child_mem_subtrees hv hi) hfits' hkey' (by omega)
    obtain rfl : w = r' := by exact_mod_cast hw.symm.trans hr'
    refine ⟨lo + lo', w', r, by omega, by omega, hw', hr, by omega, fun a b h0 ha => ?_⟩
    constructor
    · rintro ⟨hhold, hrest⟩
      obtain ⟨hsum, hb, hb'⟩ := (hpass a _ h0 ha).mp ⟨hhold, rfl⟩
      have := (hreach _ b hb (by omega)).mp hrest
      omega
    · rintro ⟨rfl, hb, hb'⟩
      obtain ⟨hhold, hmod⟩ := (hpass _ (lo' + b) h0 ha).mpr ⟨by omega, by omega, by omega⟩
      refine ⟨hhold, ?_⟩
      rw [← hmod]
      exact (hreach _ b (by omega) (by omega)).mpr ⟨rfl, hb, hb'⟩

end

/-- Let a design be read, and its decoder be grown.  Follow the written comparisons from a module no wider
than the bus down a chain of instances.  An address goes all the way if and only if it is one of the
addresses of the last instance, counted from the module; the instance sees it from its own address on. -/
theorem reaches_iff {netlist : Netlist} {ws ws1 ws2 ws3 : Workspace} {d : Design} {ports : BusId}
    {trace : Bool} {dec : Decoder} (hblank : ws.Blank) (hread : Design.read netlist ws = .ok d ws1)
    (hports : BusId.union d.busses ws1 = .ok ports ws2)
    (hdec : Decoder.ofTree d.tree d.busses ports trace ws2 = .ok dec ws3) {u y : Tree Node}
    (hu : u ∈ dec.tree.subtrees) {key : Value} {dom inner : Domain} (hdom : (key, dom) ∈ u.data.domains)
    {m : Nat} (hwide : ws1.widthOf (.space dom.space) ≤ m) {xs : List Site}
    (hchain : Chain ports m u dom xs y inner) {a b : Int} (h0 : 0 ≤ a) (ha : a < 2 ^ m) :
    Reaches m xs a b ↔ ws1.origin dom.space + a = ws1.origin inner.space + b ∧ 0 ≤ b ∧
      b < 2 ^ (ws1.widthOf (.space inner.space)).toNat := by
  obtain ⟨ws0, t, st, busses, horigin, hfits, -⟩ := ofTree_fits hblank hread hports hdec
  obtain ⟨v, hv, hfits⟩ := hfits.subtrees hu
  obtain ⟨lo, w, r, hlo, -, hw, -, -, hreach⟩ := hchain.reaches_iff horigin hv hfits hdom hwide
  rw [hreach a b h0 ha, hlo, hw, Int.toNat_natCast]
  omega

end Decoder

end RegisterMap
