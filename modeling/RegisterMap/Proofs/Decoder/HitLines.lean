import RegisterMap.Decoder.Logic
import RegisterMap.Proofs.Number.Exact
import RegisterMap.Proofs.Workspace.Run

/-! # The lines that drive hit signals

The logic of a module compares the address once for its registers and once for each memory, instance and
passenger.  The lines with these comparisons stand in the nets of the module. -/

namespace RegisterMap

open List Result

/-- A line stands in a text of the code. -/
def Code.Shows (line : String) (code : List Code) : Prop :=
  ∃ origin ls note, .line origin (Text.join "\n" ls) note ∈ code ∧ line ∈ ls

theorem Code.Shows.mono {line : String} {code code' : List Code} (h : Shows line code)
    (hsub : code ⊆ code') : Shows line code' := by
  obtain ⟨origin, ls, note, hmem, hline⟩ := h
  exact ⟨origin, ls, note, hsub hmem, hline⟩

theorem Code.Shows.single {line : String} {origin : Origin} {note : String} {code : List Code}
    (h : .line origin line note ∈ code) : Shows line code :=
  ⟨origin, [line], note, h, mem_singleton_self _⟩

theorem Code.emitAll_append {w w' : CodeWriter} {cs ds : List Code} (h : emitAll w cs = .ok w') :
    emitAll w (cs ++ ds) = emitAll w' ds := by
  unfold emitAll at h ⊢
  rw [foldlM_append, bind_of_ok h]

namespace Decoder

namespace Scope

def memoryHitLine (s : Scope) (m : Register) : Result String := do
  let net ← m.localName
  let base ← known m.base
  let span ← spanText base m.aw
  let condition ← (← s.memoryComparator m).text
  return s!"wire addrhit_{net} = {condition}; // {span}"

def enableLine (s : Scope) : Result String := do
  let condition ← (← Comparator.ofBlock s.addr (← s.busAw) 0 s.localAw).text
  let span ← spanText 0 s.localAw
  return s!"wire {s.enableNet} = {condition}; // {span}"

def childHitLine (s : Scope) (c : Child) : Result String := do
  Decoder.hitLine "wire" s!"addrhit_{c.inst}" s.addr (← known c.start) (← s.busAw) c.aw

variable {s : Scope} {nets : List Code}

theorem memoryNets_ok {m : Register} {text : String} (h : s.memoryNets m = .ok text) :
    ∃ l front back, s.memoryHitLine m = .ok l ∧ text = Text.join "\n" [front, l, back] := by
  obtain ⟨net, hnet, h⟩ := bind_ok h
  obtain ⟨base, hbase, h⟩ := bind_ok h
  obtain ⟨span, hspan, h⟩ := bind_ok h
  obtain ⟨c, hc, h⟩ := bind_ok h
  obtain ⟨condition, hcondition, h⟩ := bind_ok h
  refine ⟨s!"wire addrhit_{net} = {condition}; // {span}", _, _, ?_, (Except.ok.inj h).symm⟩
  unfold memoryHitLine
  rw [bind_of_ok hnet, bind_of_ok hbase, bind_of_ok hspan,
    bind_of_ok hc, bind_of_ok hcondition]
  rfl

theorem netCode_ok (h : s.netCode = .ok nets) : ∃ own inner riders routing,
    s.localNets = .ok own ∧ s.allChildNets = .ok inner ∧ s.riderNets = .ok riders ∧
      nets = own ++ inner ++ riders ++ routing := by
  obtain ⟨own, hown, h⟩ := bind_ok h
  obtain ⟨inner, hinner, h⟩ := bind_ok h
  obtain ⟨riders, hriders, h⟩ := bind_ok h
  obtain ⟨routing, -, h⟩ := bind_ok h
  exact ⟨own, inner, riders, routing, hown, hinner, hriders, (Except.ok.inj h).symm⟩

/-- The nets of the module: the signal of its registers, and those of its memories in blocks or not. -/
theorem localNets_ok {own : List Code} (h : s.localNets = .ok own) :
    (s.hasWords = true → ∃ l, s.enableLine = .ok l ∧ Code.Shows l own) ∧
      (∀ m ∈ s.memories, ∃ text, s.memoryNets m = .ok text ∧ .line .localNets text ∈ own) ∧
      ∃ blocks ⊆ own, blockNets "RAMs in block scope" s.blockMemories s.blockMemoryNets = .ok blocks := by
  obtain ⟨busAw, hbus, h⟩ := bind_ok h
  obtain ⟨words, hwords, h⟩ := bind_ok h
  obtain ⟨memories, hmemories, h⟩ := bind_ok h
  obtain ⟨wordBlocks, -, h⟩ := bind_ok h
  obtain ⟨memoryBlocks, hblocks, h⟩ := bind_ok h
  cases h
  refine ⟨fun hhas => ?_, fun m hm => ?_, memoryBlocks, subset_append_right _ _, hblocks⟩
  · unfold wordNets at hwords
    rw [hhas] at hwords
    obtain ⟨c, hc, hwords⟩ := bind_ok hwords
    obtain ⟨condition, hcondition, hwords⟩ := bind_ok hwords
    obtain ⟨span, hspan, hwords⟩ := bind_ok hwords
    obtain ⟨width, -, hwords⟩ := bind_ok hwords
    cases hwords
    refine ⟨s!"wire {s.enableNet} = {condition}; // {span}", ?_, ?_⟩
    · unfold enableLine
      rw [bind_of_ok hbus, bind_of_ok hc, bind_of_ok hcondition,
        bind_of_ok hspan]
      rfl
    · exact .single (mem_append_left _ (mem_append_left _ (mem_append_left _
        (mem_append_left _ (mem_cons_of_mem _ mem_cons_self)))))
  · obtain ⟨text, htext, hm⟩ := exists_of_mapM hmemories hm
    exact ⟨text, hm, by simp [htext]⟩

/-- The nets of an instance outside loops: its hit signal, and the address that it sees if any. -/
theorem childNets_ok {c : Child} {inner : List Code} (h : s.childNets c = .ok inner)
    (hloop : c.loop? = none) :
    (∃ l, s.childHitLine c = .ok l ∧ .line .childNets l ∈ inner) ∧
      ∃ l, maskLine s.bus c.module c.inst c.addrNet c.aw = .ok l ∧
        ((∃ row ∈ s.rows, row.key = .addr) → .line .childNets l ∈ inner) := by
  obtain ⟨mask, hmask, h⟩ := bind_ok h
  rw [hloop] at h
  dsimp only at h
  obtain ⟨start, hstart, h⟩ := bind_ok h
  obtain ⟨busAw, hbus, h⟩ := bind_ok h
  obtain ⟨hit, hhit, h⟩ := bind_ok h
  cases h
  refine ⟨⟨hit, ?_, by simp⟩, mask, hmask, fun ⟨row, hrow, hkey⟩ => ?_⟩
  · unfold childHitLine
    rw [bind_of_ok hstart, bind_of_ok hbus]
    exact hhit
  · have hm : mask ∈ s.rows.map fun row => if row.key = .addr then mask else s.childNet c row :=
      mem_map.mpr ⟨row, hrow, if_pos hkey⟩
    exact mem_cons_of_mem _ (mem_map_of_mem (mem_cons_of_mem _ hm))

theorem allChildNets_ok {inner : List Code} (h : s.allChildNets = .ok inner) {c : Child}
    (hc : c ∈ s.children ∨ ∃ p ∈ s.blockChildren, c ∈ p.2) :
    ∃ own ⊆ inner, s.childNets c = .ok own := by
  obtain ⟨direct, hdirect, h⟩ := bind_ok h
  obtain ⟨blocks, hblocks, h⟩ := bind_ok h
  cases h
  rcases hc with hc | ⟨⟨branch, children⟩, hp, hc⟩
  · obtain ⟨own, hown, hc⟩ := exists_of_mapM hdirect hc
    exact ⟨own, fun _ hx => mem_append_left _ (mem_flatten.mpr ⟨own, hown, hx⟩), hc⟩
  · obtain ⟨block, hblock, hp⟩ := exists_of_mapM hblocks hp
    obtain ⟨owns, howns, hp⟩ := bind_ok hp
    obtain ⟨own, hown, hc⟩ := exists_of_mapM howns hc
    cases hp
    refine ⟨own, fun x hx => mem_append_right _ (mem_flatten.mpr ⟨_, hblock, ?_⟩), hc⟩
    exact mem_cons_of_mem _ (mem_flatten.mpr ⟨own, hown, hx⟩)

theorem riderNets_ok {riders : List Code} (h : s.riderNets = .ok riders) :
    (∀ start r, (start, r) ∈ s.riders →
      ∃ l, r.hitLine s.bus start = .ok l ∧ .line .passengers l ∈ riders) ∧
      ∀ p ∈ s.blockRiders, ∀ q ∈ p.2, ∃ own ⊆ riders, s.blockRiderNets q.1 q.2 = .ok own := by
  obtain ⟨direct, hdirect, h⟩ := bind_ok h
  obtain ⟨blocks, hblocks, h⟩ := bind_ok h
  cases h
  refine ⟨fun start r hr => ?_, fun p hp q hq => ?_⟩
  · obtain ⟨own, hown, hr⟩ := exists_of_mapM hdirect hr
    obtain ⟨l, hl, hr⟩ := bind_ok hr
    obtain ⟨hooks, -, hr⟩ := bind_ok hr
    cases hr
    refine ⟨l, hl, mem_append_left _ (mem_append_left _ ?_)⟩
    exact mem_flatten.mpr ⟨_, hown, mem_append_left _ (by simp)⟩
  · obtain ⟨block, hblock, hp⟩ := exists_of_mapM hblocks hp
    obtain ⟨owns, howns, hp⟩ := bind_ok hp
    obtain ⟨own, hown, hq⟩ := exists_of_mapM howns hq
    cases hp
    refine ⟨own, fun x hx => mem_append_right _ (mem_flatten.mpr ⟨_, hblock, ?_⟩), hq⟩
    exact mem_cons_of_mem _ (mem_flatten.mpr ⟨own, hown, hx⟩)

end Scope

end Decoder

end RegisterMap
