import RegisterMap.Proofs.Decoder.HitLines
import RegisterMap.Proofs.Table

/-! # The comparisons in the logic of a module

A `Site` is a place where the logic of a module compares the upper bits of the address: the enable of
its registers, the hit signal of a memory, of an instance or of a passenger, inside generate blocks or
not.  `Scope.sites` lists them all.

A comparison with the block of `2 ^ k` addresses at `base` on a bus of `n` address bits has the slice
`[n-1:k]` and a constant of `n - k` bits.  No item of more than `n` bits comes through.  An item of
exactly `n` bits gets no comparison at all where the generator looks for this case (`Site.total`), but a
reversed slice and a constant of no bits where it does not.  The address of an item is not looked at,
so a constant can have more bits than its width says.

The main result says when a comparison is well formed (`emitted_comparison_wellFormed_iff`). -/

namespace RegisterMap

open List Result

/-- A statement stands in a line of the code. -/
def Code.States (code : List Code) (statement : String) : Prop :=
  ∃ front back, Code.Shows (front ++ statement ++ back) code

theorem Code.States.mono {code code' : List Code} {statement : String}
    (h : States code statement) (hsub : code ⊆ code') : States code' statement := by
  obtain ⟨front, back, h⟩ := h
  exact ⟨front, back, h.mono hsub⟩

namespace Decoder

/-! ### Well-formed comparisons -/

/-- The slice has a bit at least, the constant has as many bits, and its value fits into them. -/
def Comparator.WellFormed (c : Comparator) : Prop :=
  c.low ≤ c.high ∧ c.width = c.high - c.low + 1 ∧ 0 ≤ c.value ∧ c.value < 2 ^ c.width.toNat

instance (c : Comparator) : Decidable c.WellFormed := by
  unfold Comparator.WellFormed
  infer_instance

/-- The comparison with a block is well formed exactly if the block is smaller than the bus, and in its
range. -/
theorem Comparator.wellFormed_block_iff {net : String} {n base : Int} {k : Nat} (hk : (k : Int) ≤ n) :
    (⟨net, n - 1, k, n - k, base.fdiv (2 ^ k)⟩ : Comparator).WellFormed ↔
      (k : Int) < n ∧ 0 ≤ base ∧ base < 2 ^ n.toNat := by
  have hpos : (0 : Int) < 2 ^ k := Number.two_pow_pos k
  have hpow : (2 : Int) ^ n.toNat = 2 ^ (n - k).toNat * 2 ^ k := by
    rw [← pow_add]
    congr 1
    omega
  have hdiv : base.fdiv (2 ^ k) = base / 2 ^ k := Int.fdiv_eq_ediv_of_nonneg _ hpos.le
  have hnonneg : 0 ≤ base / 2 ^ k ↔ 0 ≤ base := by
    rw [Int.le_ediv_iff_mul_le hpos, zero_mul]
  have hlt : base / 2 ^ k < 2 ^ (n - k).toNat ↔ base < 2 ^ n.toNat := by
    rw [Int.ediv_lt_iff_lt_mul hpos, hpow]
  unfold WellFormed
  dsimp only
  rw [hdiv, hnonneg, hlt]
  constructor
  · rintro ⟨hle, -, h0, htop⟩
    exact ⟨by omega, h0, htop⟩
  · rintro ⟨hn, h0, htop⟩
    exact ⟨by omega, by omega, h0, htop⟩

/-! ### Sites -/

/-- How the constant of a comparison grows with the index of a loop. -/
structure Stride where
  /-- The highest bit of the slice as an expression. -/
  high : String
  index : String
  /-- Number of bits of the index that take part, as an expression. -/
  indexBits : String

/-- A place where the logic compares the upper bits of the address with those of a block. -/
structure Site where
  /-- The generate block in whose text the comparison stands; none for the scope of the module. -/
  branch : Option String
  /-- The signal that it drives. -/
  signal : Result String
  base : Option Int
  aw : Int
  stride : Option Stride
  /-- A block as wide as the bus is always hit. -/
  total : Bool

namespace Site

/-- The comparison as it is written here. -/
def text (x : Site) (c : Comparator) : Result String :=
  match x.stride with
  | none => c.text
  | some l => (⟨c.net, l.high, c.low, c.width, c.value, l.index, l.indexBits⟩ : LoopComparator).text

/-- What the signal is set to on a bus with this address net and width. -/
def expression (x : Site) (net : String) (n base : Int) : Result String := do
  let size ← Number.powerOfTwo x.aw
  if x.total = true ∧ n = x.aw then return "1'b1"
  x.text ⟨net, n - 1, x.aw, n - x.aw, base.fdiv size⟩

/-- A statement stands in the code of the module, or in that of the block. -/
def Stated (x : Site) (code : List Code) (texts : Scope.BlockTexts) (statement : String) : Prop :=
  match x.branch with
  | none => Code.States code statement
  | some branch => ∃ inner, Table.get? texts branch = some inner ∧ Code.States inner statement

/-- The signal is set here. -/
def Driven (x : Site) (s : Scope) (n : Int) (code : List Code) (texts : Scope.BlockTexts) : Prop :=
  ∃ signal base text, x.signal = .ok signal ∧ x.base = some base ∧
    x.expression s.addr n base = .ok text ∧ x.Stated code texts s!"{signal} = {text};"

end Site

namespace Scope

variable {branch keyword : String} {own : List Code} {m : Register} {block : Block} {r : Rider}
  {loop : Loop} {texts' : BlockTexts}

def enableSite (s : Scope) : Site := ⟨none, .ok s.enableNet, some 0, s.localAw, none, false⟩

def memorySite (m : Register) : Site :=
  ⟨none, do return "addrhit_" ++ (← m.localName), m.base, m.aw, none, false⟩

/-- The hit signals of a memory in a block: outside it, unless each copy has one, and for the copies of
a loop. -/
def blockMemorySites (s : Scope) (n : Int) (branch : String) (m : Register) (block : Block) :
    List Site :=
  (if !(declaredRange m).isEmpty && block.isLoop then []
  else [⟨none, do return s!"addrhit_{branch}_{← m.localName}", m.base, m.aw, none, false⟩]) ++
    match block.loop, s.bus.rangeOf "addr" with
    | some loop, some range =>
      [⟨some branch, do return s!"addrhit_{branch}_{← m.localName}[{loop.index}]", m.base, m.aw,
        some ⟨range.high, loop.index, toString (n - m.aw)⟩, false⟩]
    | _, _ => []

def childSites (c : Child) : List Site :=
  match c.loop? with
  | none => [⟨none, .ok ("addrhit_" ++ c.inst), c.start, c.aw, none, true⟩]
  | some _ => []

def loopChildSites (n : Int) (branch : String) (c : Child) : List Site :=
  match c.loop? with
  | none => []
  | some (_, loop) =>
    [⟨some branch, .ok s!"addrhit_{branch}_{c.inst}[{loop.index}]", some c.base, c.aw,
      some ⟨s!"{n}-1", loop.index, toString (n - c.aw)⟩, false⟩]

def riderSite (start : Option Int) (r : Rider) : Site :=
  ⟨none, .ok ("addrhit_" ++ r.passenger.inst), start, r.passenger.aw, none, true⟩

/-- The hit signals of a passenger in a block: one outside loops, else one for aligned copies together,
and one for each. -/
def blockRiderSites (s : Scope) (n : Int) (branch : String) (r : Rider) (block : Block) :
    List Site :=
  match block.loop with
  | none => [riderSite r.base r]
  | some loop =>
    (if s.policy.alignedLoops then
      [⟨none, do return s!"addrhit_{← r.netName}_any", r.base, r.passenger.blockAw, none, true⟩]
    else []) ++
      [⟨some branch, do return s!"addrhit_{← r.netName}[{loop.index}]", r.base, r.passenger.aw,
        some ⟨toString (n - 1), loop.index, s!"{n}-{r.passenger.aw}"⟩, false⟩]

/-- All comparisons of the upper address bits, on a bus of `n` address bits. -/
def sites (s : Scope) (n : Int) : List Site :=
  (if s.hasWords then [s.enableSite] else []) ++ s.memories.map memorySite ++
    (s.blockMemories.flatMap fun p => p.2.flatMap fun q => s.blockMemorySites n p.1 q.1 q.2) ++
    s.children.flatMap childSites ++
    (s.blockChildren.flatMap fun p => p.2.flatMap fun c => childSites c ++ loopChildSites n p.1 c) ++
    (s.riders.map fun p => riderSite p.1 p.2) ++
    s.blockRiders.flatMap fun p => p.2.flatMap fun q => s.blockRiderSites n p.1 q.1 q.2

/-! ### Lines of the generator -/

variable {s : Scope} {x : Site} {net signal text span : String} {n base : Int} {code : List Code}

theorem states_of_line
    (h : Code.Shows (keyword ++ " " ++ signal ++ " = " ++ text ++ "; // " ++ span) code) :
    Code.States code s!"{signal} = {text};" := by
  have hsplit : "; // " = ";" ++ " // " := by decide
  refine ⟨keyword ++ " ", " // " ++ span, ?_⟩
  simp only [toString, hsplit, String.append_assoc] at h ⊢
  exact h

theorem states_of_assign {origin : Origin} {note : String}
    (h : .line origin ("assign " ++ signal ++ " = " ++ text ++ ";") note ∈ code) :
    Code.States code s!"{signal} = {text};" := by
  refine ⟨"assign ", "", ?_⟩
  have hline := Code.Shows.single h
  simp only [toString, String.append_assoc, String.append_empty] at hline ⊢
  exact hline

/-- What a signal is set to, unless always hit, is the comparison with the block of the item. -/
theorem expression_of_ofBlock {c : Comparator} (hcompare : (x.total && n == x.aw) = false)
    (hc : Comparator.ofBlock net n base x.aw = .ok c) (htext : x.text c = .ok text) :
    x.expression net n base = .ok text := by
  obtain ⟨size, hsize, hc⟩ := bind_ok hc
  cases hc
  unfold Site.expression
  rw [bind_of_ok hsize, if_neg (by simpa using hcompare)]
  exact htext

theorem ofBlocks_ok {high index bits : String} {aw : Int} {c : LoopComparator}
    (h : LoopComparator.ofBlocks net high n base aw index bits = .ok c) :
    ∃ d, Comparator.ofBlock net n base aw = .ok d ∧
      c = ⟨d.net, high, d.low, d.width, d.value, index, bits⟩ := by
  obtain ⟨size, hsize, h⟩ := bind_ok h
  cases h
  exact ⟨_, bind_of_ok hsize _, rfl⟩

theorem hitLine_ok {line : String} (hstride : x.stride = none) (htotal : x.total = true)
    (h : hitLine keyword signal net base n x.aw = .ok line) :
    ∃ text span : String, x.expression net n base = .ok text ∧
      line = s!"{keyword} {signal} = {text}; // {span}" := by
  obtain ⟨span, hspan, h⟩ := bind_ok h
  split at h
  · rename_i hn
    cases h
    obtain ⟨size, hsize, -⟩ := bind_ok hspan
    refine ⟨"1'b1", span, ?_, ?_⟩
    · unfold Site.expression
      rw [bind_of_ok hsize, if_pos ⟨htotal, hn⟩]
      rfl
    · have hsplit : " = 1'b1; // " = " = " ++ "1'b1" ++ "; // " := by decide
      simp only [toString, hsplit, String.append_assoc]
  · rename_i hn
    obtain ⟨c, hc, h⟩ := bind_ok h
    obtain ⟨text, htext, h⟩ := bind_ok h
    cases h
    refine ⟨text, span, expression_of_ofBlock (by simp [hn]) hc ?_, rfl⟩
    rw [Site.text, hstride]
    exact htext

theorem loopHitLine_ok {line index : String}
    (hstride : x.stride = some ⟨toString (n - 1), index, s!"{n}-{x.aw}"⟩) (htotal : x.total = false)
    (h : loopHitLine keyword signal net base n x.aw index = .ok line) :
    ∃ text note : String, x.expression net n base = .ok text ∧
      line = s!"{keyword} {signal} = {text}; // {note}" := by
  obtain ⟨size, -, h⟩ := bind_ok h
  obtain ⟨span, -, h⟩ := bind_ok h
  obtain ⟨c, hc, h⟩ := bind_ok h
  obtain ⟨text, htext, h⟩ := bind_ok h
  cases h
  obtain ⟨d, hd, rfl⟩ := ofBlocks_ok hc
  refine ⟨text, s!"{span} + 0x{Number.hex size}*{index}", ?_, ?_⟩
  · refine expression_of_ofBlock (by rw [htotal]; rfl) hd ?_
    rw [Site.text, hstride]
    exact htext
  · simp only [toString, String.append_assoc]

/-! ### Sites in the scope of the module -/

variable {texts : BlockTexts}

theorem enableSite_driven (hn : s.busAw = .ok n) (hown : s.localNets = .ok own)
    (hhas : s.hasWords = true) (hsub : own ⊆ code) : s.enableSite.Driven s n code texts := by
  obtain ⟨l, hl, hshow⟩ := (localNets_ok hown).1 hhas
  unfold enableLine at hl
  rw [bind_of_ok hn] at hl
  obtain ⟨c, hc, hl⟩ := bind_ok hl
  obtain ⟨text, htext, hl⟩ := bind_ok hl
  obtain ⟨span, -, hl⟩ := bind_ok hl
  cases hl
  refine ⟨s.enableNet, 0, text, rfl, rfl, expression_of_ofBlock rfl hc htext, ?_⟩
  have hline : Code.Shows ("wire" ++ " " ++ s.enableNet ++ " = " ++ text ++ "; // " ++ span) own :=
    hshow
  exact (states_of_line hline).mono hsub

theorem memorySite_driven (hn : s.busAw = .ok n) (hown : s.localNets = .ok own)
    (hm : m ∈ s.memories) (hsub : own ⊆ code) : (memorySite m).Driven s n code texts := by
  obtain ⟨nets, hnets, hmem⟩ := (localNets_ok hown).2.1 m hm
  obtain ⟨l, front, back, hl, rfl⟩ := memoryNets_ok hnets
  have hshow : Code.Shows l code := ⟨_, _, _, hsub hmem, (by simp : l ∈ [front, l, back])⟩
  unfold memoryHitLine memoryComparator at hl
  obtain ⟨net, hnet, hl⟩ := bind_ok hl
  obtain ⟨base, hbase, hl⟩ := bind_ok hl
  obtain ⟨span, -, hl⟩ := bind_ok hl
  rw [bind_of_ok hn, bind_of_ok hbase] at hl
  obtain ⟨c, hc, hl⟩ := bind_ok hl
  obtain ⟨text, htext, hl⟩ := bind_ok hl
  cases hl
  refine ⟨"addrhit_" ++ net, base, text, ?_, known_ok hbase, expression_of_ofBlock rfl hc htext, ?_⟩
  · show (do return "addrhit_" ++ (← m.localName) : Result String) = _
    rw [bind_of_ok hnet]
    rfl
  · have hsplit : "wire addrhit_" = "wire" ++ " " ++ "addrhit_" := by decide
    have hline : Code.Shows
        ("wire" ++ " " ++ ("addrhit_" ++ net) ++ " = " ++ text ++ "; // " ++ span) code := by
      simp only [toString, hsplit, String.append_assoc] at hshow ⊢
      exact hshow
    exact states_of_line hline

theorem blockNets_ok {title : String} {items : InBlocks Register}
    {nets : String → Register → Block → Result String} {blocks : List Code}
    (h : blockNets title items nets = .ok blocks) {xs : List (Register × Block)}
    (hp : (branch, xs) ∈ items) (hq : (m, block) ∈ xs) :
    ∃ text, nets branch m block = .ok text ∧ .line .blockNets text ∈ blocks := by
  obtain ⟨parts, hparts, h⟩ := bind_ok h
  obtain ⟨part, hpart, hp⟩ := exists_of_mapM hparts hp
  obtain ⟨lines, hlines, hp⟩ := bind_ok hp
  obtain ⟨text, htext, hq⟩ := exists_of_mapM hlines hq
  cases hp
  cases h
  have hne : parts.isEmpty = false := by
    rw [isEmpty_eq_false_iff]
    exact ne_nil_of_mem hpart
  refine ⟨text, hq, ?_⟩
  rw [hne]
  refine mem_cons_of_mem _ (mem_flatten.mpr ⟨_, hpart, mem_cons_of_mem _ ?_⟩)
  exact mem_map.mpr ⟨text, htext, rfl⟩

section

variable (hn : s.busAw = .ok n)

include hn

theorem blockMemoryNets_driven {nets : String}
    (h : s.blockMemoryNets branch m block = .ok nets) (hmem : .line .blockNets nets ∈ code)
    (hsingle : (!(declaredRange m).isEmpty && block.isLoop) = false) :
    (⟨none, do return s!"addrhit_{branch}_{← m.localName}", m.base, m.aw, none, false⟩ :
      Site).Driven s n code texts := by
  unfold blockMemoryNets memoryComparator at h
  obtain ⟨net, hnet, h⟩ := bind_ok h
  obtain ⟨base, hbase, h⟩ := bind_ok h
  obtain ⟨span, -, h⟩ := bind_ok h
  rw [bind_of_ok hn, bind_of_ok hbase] at h
  obtain ⟨c, hc, h⟩ := bind_ok h
  obtain ⟨text, htext, h⟩ := bind_ok h
  dsimp only at h
  rw [hsingle] at h
  cases h
  refine ⟨s!"addrhit_{branch}_{net}", base, text, ?_, known_ok hbase,
    expression_of_ofBlock rfl hc htext, ?_⟩
  · dsimp only
    rw [bind_of_ok hnet]
    rfl
  · have hshow : Code.Shows _ code := ⟨_, _, _, hmem, .tail _ (.tail _ (.tail _ (.head _)))⟩
    have hsplit : "wire addrhit_" = "wire" ++ " " ++ "addrhit_" := by decide
    have hline : Code.Shows ("wire" ++ " " ++ s!"addrhit_{branch}_{net}" ++ " = " ++ text ++
        "; // " ++ span) code := by
      simp only [toString, hsplit, String.append_assoc] at hshow ⊢
      exact hshow
    exact states_of_line hline

theorem childSites_driven {inner : List Code}
    (hinner : s.allChildNets = .ok inner) (hsub : inner ⊆ code) {c : Child}
    (hc : c ∈ s.children ∨ ∃ p ∈ s.blockChildren, c ∈ p.2) (hx : x ∈ childSites c) :
    x.Driven s n code texts := by
  obtain ⟨own, hown, hc⟩ := allChildNets_ok hinner hc
  unfold childSites at hx
  split at hx
  · rename_i hloop
    obtain rfl := mem_singleton.mp hx
    obtain ⟨⟨l, hl, hmem⟩, -⟩ := childNets_ok hc hloop
    unfold childHitLine at hl
    obtain ⟨start, hstart, hl⟩ := bind_ok hl
    rw [bind_of_ok hn] at hl
    let site : Site := ⟨none, .ok ("addrhit_" ++ c.inst), c.start, c.aw, none, true⟩
    obtain ⟨text, span, htext, rfl⟩ := hitLine_ok (x := site) rfl rfl hl
    refine ⟨_, start, text, rfl, known_ok hstart, htext, ?_⟩
    exact states_of_line (.single (hsub (hown hmem)))
  · cases hx

theorem riderSite_driven {start : Option Int} {l : String}
    (hl : r.hitLine s.bus start = .ok l) {origin : Origin} (hmem : .line origin l ∈ code) :
    (riderSite start r).Driven s n code texts := by
  have hbus : known s.bus.addrWidth = .ok n := hn
  unfold Rider.hitLine at hl
  obtain ⟨base, hbase, hl⟩ := bind_ok hl
  rw [bind_of_ok hbus] at hl
  obtain ⟨text, span, htext, rfl⟩ := hitLine_ok (x := riderSite start r) rfl rfl hl
  refine ⟨_, base, text, rfl, known_ok hbase, htext, ?_⟩
  exact states_of_line (.single hmem)

theorem blockRiderNets_single
    (h : s.blockRiderNets r block = .ok own) (hsub : own ⊆ code) (hloop : block.loop = none) :
    (riderSite r.base r).Driven s n code texts := by
  unfold blockRiderNets Block.isLoop at h
  rw [hloop] at h
  obtain ⟨net, -, h⟩ := bind_ok h
  obtain ⟨hit, hhit, h⟩ := bind_ok h
  obtain ⟨lines, hlines, h⟩ := bind_ok h
  obtain ⟨shared, -, h⟩ := bind_ok h
  cases hlines
  cases h
  have hmem : Code.line .passengerNets hit ∈ code :=
    hsub (mem_cons_of_mem _ (mem_map_of_mem mem_cons_self))
  exact riderSite_driven hn hhit hmem

theorem blockRiderNets_any (h : s.blockRiderNets r block = .ok own) (hsub : own ⊆ code)
    (hloop : block.loop = some loop) (haligned : s.policy.alignedLoops = true) :
    (⟨none, do return s!"addrhit_{← r.netName}_any", r.base, r.passenger.blockAw, none, true⟩ :
      Site).Driven s n code texts := by
  unfold blockRiderNets Block.isLoop at h
  rw [hloop] at h
  obtain ⟨net, hnet, h⟩ := bind_ok h
  dsimp only [Option.isSome_some] at h
  rw [if_pos rfl, haligned, if_pos rfl] at h
  obtain ⟨base, hbase, h⟩ := bind_ok h
  rw [bind_of_ok hn] at h
  obtain ⟨hit, hhit, h⟩ := bind_ok h
  obtain ⟨lines, hlines, h⟩ := bind_ok h
  obtain ⟨shared, -, h⟩ := bind_ok h
  cases hlines
  cases h
  have hmem : Code.line .passengerNets hit ∈ code :=
    hsub (mem_cons_of_mem _ (mem_map_of_mem (mem_cons_of_mem _ mem_cons_self)))
  let site : Site :=
    ⟨none, do return s!"addrhit_{← r.netName}_any", r.base, r.passenger.blockAw, none, true⟩
  obtain ⟨text, span, htext, rfl⟩ := hitLine_ok (x := site) rfl rfl hhit
  refine ⟨s!"addrhit_{net}_any", base, text, ?_, known_ok hbase, htext, ?_⟩
  · dsimp only
    rw [bind_of_ok hnet]
    rfl
  · exact states_of_line (.single hmem)

end

/-! ### Sites inside generate blocks -/

/-- Every text is kept, and code is added behind it. -/
def Extends (texts texts' : BlockTexts) : Prop :=
  ∀ branch old, Table.get? texts branch = some old →
    ∃ new, Table.get? texts' branch = some new ∧ old ⊆ new

theorem Extends.trans {texts1 texts2 texts3 : BlockTexts} (h1 : Extends texts1 texts2)
    (h2 : Extends texts2 texts3) : Extends texts1 texts3 := by
  intro branch old hold
  obtain ⟨mid, hmid, hsub⟩ := h1 branch old hold
  obtain ⟨new, hnew, hsub'⟩ := h2 branch mid hmid
  exact ⟨new, hnew, List.Subset.trans hsub hsub'⟩

/-- A block has some code among its texts. -/
def Holds (texts : BlockTexts) (branch : String) (own : List Code) : Prop :=
  ∃ new, Table.get? texts branch = some new ∧ own ⊆ new

theorem Holds.extends {texts : BlockTexts}
    (h : Holds texts branch own) (hext : Extends texts texts') : Holds texts' branch own := by
  obtain ⟨old, hold, hsub⟩ := h
  obtain ⟨new, hnew, hsub'⟩ := hext branch old hold
  exact ⟨new, hnew, List.Subset.trans hsub hsub'⟩

section Blocks

variable {α : Type} {items : Table String (List α)} {code : String → α → Result (List Code)}

/-- What putting the code of the items of one block behind its text keeps holds in the end. -/
theorem addToBlocks_induct {P : BlockTexts → Prop} (h : addToBlocks items code texts = .ok texts')
    (hstart : P texts)
    (hstep : ∀ t branch xs old new, (branch, xs) ∈ items → Table.get? t branch = some old →
      xs.mapM (code branch) = .ok new → P t → P (Table.put t branch (old ++ new.flatten))) :
    P texts' := by
  unfold addToBlocks at h
  induction items generalizing texts with
  | nil =>
    cases h
    exact hstart
  | cons p items ih =>
    rw [foldlM_cons] at h
    obtain ⟨mid, hmid, h⟩ := bind_ok h
    refine ih h ?_ fun t branch xs old new hmem => hstep t branch xs old new (.tail _ hmem)
    dsimp only at hmid
    split at hmid
    · cases hmid
    · rename_i old hold
      obtain ⟨new, hnew, hmid⟩ := bind_ok hmid
      cases hmid
      exact hstep texts p.1 p.2 old new (.head _) hold hnew hstart

theorem addToBlocks_ok (h : addToBlocks items code texts = .ok texts') :
    Extends texts texts' ∧ ∀ branch xs, (branch, xs) ∈ items → ∀ a ∈ xs,
      ∃ own, code branch a = .ok own ∧ Holds texts' branch own := by
  unfold addToBlocks at h
  induction items generalizing texts with
  | nil =>
    cases h
    exact ⟨fun _ old hold => ⟨old, hold, List.Subset.refl _⟩, by simp⟩
  | cons p items ih =>
    obtain ⟨branch, xs⟩ := p
    rw [foldlM_cons] at h
    obtain ⟨mid, hmid, h⟩ := bind_ok h
    obtain ⟨hext, hitems⟩ := ih h
    dsimp only at hmid
    split at hmid
    · cases hmid
    · rename_i old hold
      obtain ⟨new, hnew, hmid⟩ := bind_ok hmid
      cases hmid
      have hput : Table.get? (Table.put texts branch (old ++ new.flatten)) branch =
          some (old ++ new.flatten) := Table.get?_put_self _ _ _
      have hfirst : Extends texts (Table.put texts branch (old ++ new.flatten)) := by
        intro b o ho
        by_cases hb : b = branch
        · subst hb
          obtain rfl := Option.mem_unique hold ho
          exact ⟨_, hput, subset_append_left _ _⟩
        · have hkeep := Table.get?_put_of_ne texts (old ++ new.flatten) (Ne.symm hb)
          exact ⟨o, hkeep.trans ho, List.Subset.refl _⟩
      refine ⟨hfirst.trans hext, fun b ys hys a ha => ?_⟩
      rcases mem_cons.mp hys with heq | hys
      · obtain ⟨rfl, rfl⟩ := Prod.mk.inj heq
        obtain ⟨own, hown, ha⟩ := exists_of_mapM hnew ha
        refine ⟨own, ha, Holds.extends ⟨_, hput, fun c hc => ?_⟩ hext⟩
        exact mem_append_right _ (mem_flatten.mpr ⟨own, hown, hc⟩)
      · exact hitems b ys hys a ha

end Blocks

theorem blockCode_ok (h : s.blockCode texts = .ok texts') :
    (∀ branch xs, (branch, xs) ∈ s.blockMemories → ∀ q ∈ xs,
      ∃ own, s.blockMemoryCode branch q.1 q.2 = .ok own ∧ Holds texts' branch own) ∧
    (∀ branch cs, (branch, cs) ∈ s.blockChildren → ∀ c ∈ cs,
      ∃ own, s.blockChildCode branch c = .ok own ∧ Holds texts' branch own) ∧
    ∀ branch xs, (branch, xs) ∈ s.blockRiders → ∀ q ∈ xs,
      ∃ own, s.blockRiderCode q.1 q.2 = .ok own ∧ Holds texts' branch own := by
  obtain ⟨texts1, -, h⟩ := bind_ok h
  obtain ⟨range, -, h⟩ := bind_ok h
  obtain ⟨texts2, h2, h⟩ := bind_ok h
  obtain ⟨texts3, h3, h4⟩ := bind_ok h
  obtain ⟨-, hmemories⟩ := addToBlocks_ok h2
  obtain ⟨hext3, hchildren⟩ := addToBlocks_ok h3
  obtain ⟨hext4, hriders⟩ := addToBlocks_ok h4
  refine ⟨fun branch xs hxs q hq => ?_, fun branch cs hcs c hc => ?_, hriders⟩
  · obtain ⟨own, hown, hheld⟩ := hmemories branch xs hxs q hq
    exact ⟨own, hown, hheld.extends (hext3.trans hext4)⟩
  · obtain ⟨own, hown, hheld⟩ := hchildren branch cs hcs c hc
    exact ⟨own, hown, hheld.extends hext4⟩

theorem blockMemoryCode_driven (hn : s.busAw = .ok n)
    (h : s.blockMemoryCode branch m block = .ok own) (hheld : Holds texts branch own)
    (hloop : block.loop = some loop) {range : Source.Bounds}
    (hrange : s.bus.rangeOf "addr" = some range) :
    (⟨some branch, do return s!"addrhit_{branch}_{← m.localName}[{loop.index}]", m.base, m.aw,
      some ⟨range.high, loop.index, toString (n - m.aw)⟩, false⟩ : Site).Driven s n code texts := by
  unfold blockMemoryCode at h
  obtain ⟨net, hnet, h⟩ := bind_ok h
  dsimp only at h
  rw [hloop, hrange] at h
  dsimp only at h
  obtain ⟨base, hbase, h⟩ := bind_ok h
  rw [bind_of_ok hn] at h
  obtain ⟨range', hrange', h⟩ := bind_ok h
  cases hrange'
  obtain ⟨note, -, h⟩ := bind_ok h
  obtain ⟨c, hc, h⟩ := bind_ok h
  obtain ⟨text, htext, h⟩ := bind_ok h
  cases h
  obtain ⟨d, hd, rfl⟩ := ofBlocks_ok hc
  obtain ⟨new, hnew, hsub⟩ := hheld
  refine ⟨s!"addrhit_{branch}_{net}[{loop.index}]", base, text, ?_, known_ok hbase,
    expression_of_ofBlock rfl hd htext, new, hnew, ?_⟩
  · dsimp only
    rw [bind_of_ok hnet]
    rfl
  · have hmem := states_of_assign (hsub (mem_cons_of_mem _ mem_cons_self))
    simp only [toString, String.append_assoc] at hmem ⊢
    exact hmem

theorem loopChildSites_driven (hn : s.busAw = .ok n) {c : Child}
    (h : s.blockChildCode branch c = .ok own) (hheld : Holds texts branch own)
    (hx : x ∈ loopChildSites n branch c) : x.Driven s n code texts := by
  unfold loopChildSites at hx
  unfold blockChildCode at h
  split at hx
  · cases hx
  · rename_i b loop hloop
    obtain rfl := mem_singleton.mp hx
    rw [hloop] at h
    dsimp only at h
    rw [bind_of_ok hn] at h
    obtain ⟨note, -, h⟩ := bind_ok h
    obtain ⟨k, hk, h⟩ := bind_ok h
    obtain ⟨text, htext, h⟩ := bind_ok h
    cases h
    obtain ⟨d, hd, rfl⟩ := ofBlocks_ok hk
    obtain ⟨new, hnew, hsub⟩ := hheld
    refine ⟨_, c.base, text, rfl, rfl, expression_of_ofBlock rfl hd htext, new, hnew, ?_⟩
    have hmem := hsub (mem_cons_of_mem _ mem_cons_self)
    have hline : Code.line .blockLogic ("assign " ++ s!"addrhit_{branch}_{c.inst}[{loop.index}]" ++
        " = " ++ text ++ ";") note ∈ new := by
      have hsplit : "assign addrhit_" = "assign " ++ "addrhit_" := by decide
      have hsplit' : "] = " = "]" ++ " = " := by decide
      simp only [toString, hsplit, hsplit', String.append_assoc] at hmem ⊢
      exact hmem
    exact states_of_assign hline

theorem blockRiderCode_driven (hn : s.busAw = .ok n)
    (h : s.blockRiderCode r block = .ok own) (hheld : Holds texts branch own)
    (hloop : block.loop = some loop) :
    (⟨some branch, do return s!"addrhit_{← r.netName}[{loop.index}]", r.base, r.passenger.aw,
      some ⟨toString (n - 1), loop.index, s!"{n}-{r.passenger.aw}"⟩, false⟩ :
      Site).Driven s n code texts := by
  unfold blockRiderCode at h
  obtain ⟨net, hnet, h⟩ := bind_ok h
  obtain ⟨drivers, -, h⟩ := bind_ok h
  dsimp only at h
  rw [hloop] at h
  dsimp only at h
  obtain ⟨base, hbase, h⟩ := bind_ok h
  rw [bind_of_ok hn] at h
  obtain ⟨hit, hhit, h⟩ := bind_ok h
  have hmem : Code.line .blockLogic hit ∈ own := by
    split at h
    · obtain ⟨reads, -, h⟩ := bind_ok h
      cases h
      exact mem_append_right _ (mem_map_of_mem mem_cons_self)
    · obtain ⟨width, -, h⟩ := bind_ok h
      obtain ⟨reads, -, h⟩ := bind_ok h
      cases h
      exact mem_append_right _ (mem_map_of_mem mem_cons_self)
  let site : Site := ⟨some branch, do return s!"addrhit_{← r.netName}[{loop.index}]", r.base,
    r.passenger.aw, some ⟨toString (n - 1), loop.index, s!"{n}-{r.passenger.aw}"⟩, false⟩
  obtain ⟨text, note, htext, rfl⟩ := loopHitLine_ok (x := site) rfl rfl hhit
  obtain ⟨new, hnew, hsub⟩ := hheld
  refine ⟨s!"addrhit_{net}[{loop.index}]", base, text, ?_, known_ok hbase, htext, new, hnew, ?_⟩
  · dsimp only
    rw [bind_of_ok hnet]
    rfl
  · exact states_of_line (.single (hsub hmem))

/-! ### All sites -/

/-- Every signal is set where it is said to be. -/
theorem sites_driven (hn : s.busAw = .ok n) {nets : List Code} (hnets : s.netCode = .ok nets)
    (hsub : nets ⊆ code) (hblocks : s.blockCode texts = .ok texts')
    (hx : x ∈ s.sites n) : x.Driven s n code texts' := by
  obtain ⟨own, inner, riders, routing, hown, hinner, hriders, rfl⟩ := netCode_ok hnets
  obtain ⟨hmemories, hchildren, hinBlocks⟩ := blockCode_ok hblocks
  have hsubOwn : own ⊆ code := fun c hc => hsub (by simp [hc])
  have hsubInner : inner ⊆ code := fun c hc => hsub (by simp [hc])
  have hsubRiders : riders ⊆ code := fun c hc => hsub (by simp [hc])
  unfold sites at hx
  simp only [mem_append, mem_map, mem_flatMap] at hx
  rcases hx with (((((hx | ⟨m, hm, rfl⟩) | ⟨p, hp, q, hq, hx⟩) | ⟨c, hc, hx⟩) | ⟨p, hp, c, hc, hx⟩) |
    ⟨p, hp, rfl⟩) | ⟨p, hp, q, hq, hx⟩
  · split at hx
    · obtain rfl := mem_singleton.mp hx
      exact enableSite_driven hn hown (by assumption) hsubOwn
    · cases hx
  · exact memorySite_driven hn hown hm hsubOwn
  · rcases mem_append.mp hx with hx | hx
    · obtain ⟨-, -, blocks, hblock, hnets⟩ := localNets_ok hown
      obtain ⟨text, htext, hmem⟩ := blockNets_ok hnets hp hq
      split at hx
      · cases hx
      · rename_i hsingle
        obtain rfl := mem_singleton.mp hx
        exact blockMemoryNets_driven hn htext (hsubOwn (hblock hmem)) (by simpa using hsingle)
    · obtain ⟨code', hcode', hheld⟩ := hmemories p.1 p.2 hp q hq
      split at hx
      · rename_i hloop hrange
        obtain rfl := mem_singleton.mp hx
        exact blockMemoryCode_driven hn hcode' hheld hloop hrange
      · cases hx
  · exact childSites_driven hn hinner hsubInner (.inl hc) hx
  · rcases hx with hx | hx
    · exact childSites_driven hn hinner hsubInner (.inr ⟨p, hp, hc⟩) hx
    · obtain ⟨code', hcode', hheld⟩ := hchildren p.1 p.2 hp c hc
      exact loopChildSites_driven hn hcode' hheld hx
  · obtain ⟨l, hl, hmem⟩ := (riderNets_ok hriders).1 _ _ hp
    exact riderSite_driven hn hl (hsubRiders hmem)
  · obtain ⟨own', hsub', hown'⟩ := (riderNets_ok hriders).2 p hp q hq
    have hsubOwn' : own' ⊆ code := fun c hc => hsubRiders (hsub' hc)
    obtain ⟨code', hcode', hheld⟩ := hinBlocks p.1 p.2 hp q hq
    unfold blockRiderSites at hx
    split at hx
    · rename_i hloop
      obtain rfl := mem_singleton.mp hx
      exact blockRiderNets_single hn hown' hsubOwn' hloop
    · rename_i loop hloop
      rcases mem_append.mp hx with hx | hx
      · split at hx
        · rename_i haligned
          obtain rfl := mem_singleton.mp hx
          exact blockRiderNets_any hn hown' hsubOwn' hloop haligned
        · cases hx
      · obtain rfl := mem_singleton.mp hx
        exact blockRiderCode_driven hn hcode' hheld hloop

end Scope

theorem width_nonneg {value width : Int} {text : String}
    (h : Number.sizedConstant value width = .ok text) : 0 ≤ width := by
  by_contra hneg
  unfold Number.sizedConstant at h
  rw [if_pos (by omega)] at h
  cases h

/-- Nothing is compared for an item as wide as the bus where the generator looks for it, and a wider
one is refused. -/
theorem Site.expression_ok {x : Site} {net text : String} {n base : Int}
    (h : x.expression net n base = .ok text) :
    ∃ k : Nat, x.aw = k ∧ (k : Int) ≤ n ∧
      if x.total = true ∧ (k : Int) = n then text = "1'b1"
      else x.text ⟨net, n - 1, k, n - k, base.fdiv (2 ^ k)⟩ = .ok text := by
  obtain ⟨size, hsize, h⟩ := bind_ok h
  obtain ⟨h0, rfl⟩ := Number.powerOfTwo_eq_ok hsize
  obtain ⟨k, hk⟩ := Int.eq_ofNat_of_zero_le h0
  rw [hk] at h
  refine ⟨k, hk, ?_⟩
  split at h
  · rename_i hn
    rw [if_pos ⟨hn.1, hn.2.symm⟩]
    exact ⟨hn.2.ge, (Except.ok.inj h).symm⟩
  · rename_i hn
    rw [Int.toNat_natCast] at h
    rw [if_neg fun hboth => hn ⟨hboth.1, hboth.2.symm⟩]
    refine ⟨?_, h⟩
    have hwidth : ∀ {c : Comparator}, x.text c = .ok text → 0 ≤ c.width := by
      intro c hc
      unfold Site.text at hc
      split at hc
      · obtain ⟨constant, hconstant, -⟩ := bind_ok hc
        exact width_nonneg hconstant
      · obtain ⟨constant, hconstant, -⟩ := bind_ok hc
        exact width_nonneg hconstant
    have := hwidth h
    dsimp only at this
    omega

/-- Let the logic of a module be written, with its generate blocks.  Then no item that the logic tells
by a comparison has more address bits than the bus.  The comparison for an item of `k` address bits at
`base` has the slice `[n-1:k]` and a constant of `n - k` bits, and it is well formed if and only if `k
< n` and `base` is an address of the bus.  There is none if `k = n` and the item is an instance or a
passenger outside loops, or all copies of a passenger. -/
theorem emitted_comparison_wellFormed_iff {s : Scope} {written read : List Register}
    {code : List Code} {texts texts' : Scope.BlockTexts} (htop : s.topCode written read = .ok code)
    (hblocks : s.blockCode texts = .ok texts') :
    ∃ n, s.bus.addrWidth = some n ∧ ∀ x ∈ s.sites n, ∃ signal base, ∃ k : Nat,
      x.signal = .ok signal ∧ x.base = some base ∧ x.aw = k ∧ (k : Int) ≤ n ∧
      if x.total = true ∧ (k : Int) = n then x.Stated code texts' s!"{signal} = 1'b1;"
      else ∃ c text, c = (⟨s.addr, n - 1, k, n - k, base.fdiv (2 ^ k)⟩ : Comparator) ∧
        x.text c = .ok text ∧ x.Stated code texts' s!"{signal} = {text};" ∧
        (c.WellFormed ↔ (k : Int) < n ∧ 0 ≤ base ∧ base < 2 ^ n.toNat) := by
  obtain ⟨nets, hnets, htop⟩ := bind_ok htop
  obtain ⟨bus, -, htop⟩ := bind_ok htop
  cases htop
  obtain ⟨own, _, _, _, hown, -⟩ := Scope.netCode_ok hnets
  obtain ⟨n, hn, -⟩ := bind_ok hown
  refine ⟨n, known_ok hn, fun x hx => ?_⟩
  obtain ⟨signal, base, text, hsignal, hbase, htext, hstated⟩ :=
    Scope.sites_driven hn hnets (subset_append_left _ _) hblocks hx
  obtain ⟨k, hk, hkn, htext⟩ := Site.expression_ok htext
  refine ⟨signal, base, k, hsignal, hbase, hk, hkn, ?_⟩
  split at htext
  · rename_i hall
    rw [if_pos hall]
    rw [htext] at hstated
    have hsplit : " = 1'b1;" = " = " ++ "1'b1" ++ ";" := by decide
    simp only [toString, hsplit, String.append_assoc] at hstated ⊢
    exact hstated
  · rename_i hall
    rw [if_neg hall]
    exact ⟨_, text, rfl, htext, hstated, Comparator.wellFormed_block_iff hkn⟩

/-- A register at the address 200 and a memory at 512, on a bus of eight address bits. -/
def eightBits : Scope :=
  let bus : Bus :=
    { name := .none, addrWidth := some 8, dataWidth := some 32
      addrRange := some ⟨"7", "0"⟩, dataRange := some ⟨"31", "0"⟩
      nets := [(.clk, ⟨"clk", .none⟩), (.addr, ⟨"addr", .none⟩), (.dout, ⟨"wdata", .none⟩),
        (.din, ⟨"rdata", .none⟩)] }
  let register (kind : RegisterKind) (name : String) (base aw : Int) : Register :=
    { kind := kind, given := some name, size := 1, dw := 8, aw := aw, base := some base
      description := none, source := .none, access := Access.readWrite, label := some name
      range := (some "7", some "0"), depth := (some "0", some "7"), blockAw := none }
  { policy := { }, ending := "", bus := bus, ports := bus, rows := [], reading := "rstb"
    writing := "wstb", localAw := 8, hasWords := true, words := [register .net "a" 200 0]
    memories := [register .memory "m" 512 3], riders := [], blockWords := [], blockMemories := []
    blockRiders := [], children := [], blockChildren := [] }

/-- Both comparisons are malformed: the slice `[7:8]` with a constant of no bits, and the number 64 in
five bits. -/
theorem emitted_comparison_wellFormed_iff_eightBits :
    ∃ code texts, eightBits.topCode eightBits.words eightBits.words = .ok code ∧
      eightBits.blockCode [] = .ok texts ∧ (eightBits.sites 8).length = 2 ∧
      ∀ x ∈ eightBits.sites 8, ∃ signal c text, x.signal = .ok signal ∧ x.text c = .ok text ∧
        x.Stated code texts s!"{signal} = {text};" ∧ ¬c.WellFormed := by
  obtain ⟨code, hcode⟩ := exists_ok
    (show (eightBits.topCode eightBits.words eightBits.words).toBool = true by decide +kernel)
  obtain ⟨texts, htexts⟩ := exists_ok
    (show (eightBits.blockCode []).toBool = true by decide +kernel)
  refine ⟨code, texts, hcode, htexts, rfl, fun x hx => ?_⟩
  obtain ⟨n, hn, hall⟩ := emitted_comparison_wellFormed_iff hcode htexts
  obtain rfl : (8 : Int) = n := Option.some.inj hn
  obtain ⟨signal, base, k, hsignal, hbase, hk, -, hsite⟩ := hall x hx
  have hparts : x.total = false ∧ ¬((x.aw < 8) ∧ ∃ b, x.base = some b ∧ 0 ≤ b ∧ b < 2 ^ 8) := by
    rcases mem_cons.mp hx with rfl | hx
    · exact ⟨rfl, fun h => absurd h.1 (by decide)⟩
    · obtain rfl := mem_singleton.mp hx
      exact ⟨rfl, fun ⟨_, b, hb, _, hlt⟩ => by cases hb; exact absurd hlt (by decide)⟩
  rw [if_neg (by rw [hparts.1]; simp)] at hsite
  obtain ⟨c, text, -, htext, hstated, hiff⟩ := hsite
  refine ⟨signal, c, text, hsignal, htext, hstated, fun hc => hparts.2 ?_⟩
  obtain ⟨hlt, h0, htop⟩ := hiff.mp hc
  exact ⟨hk ▸ hlt, base, hbase, h0, htop⟩

end Decoder

end RegisterMap
