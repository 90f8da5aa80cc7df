import Mathlib.Tactic.Ring
import RegisterMap.Proofs.Decoder.Comparisons
import RegisterMap.Proofs.Source.Expression

/-! # The slices of the copies of a memory

The words that are read from the copies of a memory in a loop stand side by side in one net.  Inside the
loop each copy drives its slice, whose width is that of a word; where a word is chosen, a slice is taken
whose width is the number of words.  So the slice that is read is the one that was driven if and only if
the memory has as many words as a word has bits (`copy_slices_agree_iff`). -/

namespace RegisterMap.Decoder

open Expression Result

variable {names : Names}

theorem sliceOf_copySlice {index width : String} {i w : Int} (hi : value names index = some i)
    (hw : Operand names width w) :
    sliceOf names (copySlice index width) = some ((i + 1) * w - 1, i * w) := by
  have hhigh : value names ("(" ++ ("(" ++ (index ++ "+" ++ "1") ++ ")" ++ "*" ++ width) ++ ")" ++ "-" ++ "1") =
      some ((i + 1) * w - 1) :=
    value_append_sub (operand_bracketed (value_append_mul (operand_bracketed (value_append_add hi operand_one))
      hw)).value operand_one
  have hslice := sliceOf_append hhigh hw.value
  have htext : copySlice index width =
      "[" ++ ("(" ++ ("(" ++ (index ++ "+" ++ "1") ++ ")" ++ "*" ++ width) ++ ")" ++ "-" ++ "1") ++ "-:" ++
        width ++ "]" := by
    rw [← String.toList_inj]
    simp [copySlice, toString]
  have hlow : (i + 1) * w - 1 - w + 1 = i * w := by ring
  rw [htext, hslice, hlow]

namespace Scope

variable {s : Scope} {branch : String} {m : Register} {block : Block}

/-- The line inside a loop with which a copy drives a slice of the net of all copies. -/
def drivenLine (branch net slice place : String) : String :=
  let name := s!"{branch}_{net}"
  s!"assign {name}_r{slice} = {net}[{place}];"

/-- The line that takes a slice of the net of all copies. -/
def chosenLine (s : Scope) (m : Register) (branch net slice : String) : String :=
  let name := s!"{branch}_{net}"
  let target := s!"{name}_registered_read"
  let word := s.widened m s!"{name}_r{slice}"
  s!"    {target} <= {word};"

theorem blockMemoryCode_shows {own : List Code} (h : s.blockMemoryCode branch m block = .ok own) {loop : Loop}
    (hloop : block.loop = some loop) : ∃ net place, m.localName = .ok net ∧
      Code.Shows (drivenLine branch net (copySlice loop.index m.widthText) place) own := by
  unfold blockMemoryCode at h
  obtain ⟨net, hnet, h⟩ := bind_ok h
  dsimp only at h
  rw [hloop] at h
  dsimp only at h
  obtain ⟨base, -, h⟩ := bind_ok h
  obtain ⟨busAw, -, h⟩ := bind_ok h
  obtain ⟨range, -, h⟩ := bind_ok h
  obtain ⟨note, -, h⟩ := bind_ok h
  obtain ⟨c, -, h⟩ := bind_ok h
  obtain ⟨text, -, h⟩ := bind_ok h
  cases h
  exact ⟨net, _, hnet, .single (.tail _ (.tail _ (.head _)))⟩

/-- Where the word of a copy is chosen, a slice is taken whose width is the number of words. -/
theorem blockReadLines_mem {memories : List Register} {lines : List String}
    (h : s.blockReadLines branch memories block = .ok lines) (hm : m ∈ memories) (hloop : block.isLoop = true)
    {net : String} (hnet : m.localName = .ok net) :
    s.chosenLine m branch net (copySlice loopVariable s!"({boundText m.depth.2}+1)") ∈ lines := by
  unfold blockReadLines at h
  obtain ⟨parts, hparts, h⟩ := bind_ok h
  cases h
  obtain ⟨part, hpart, hline⟩ := exists_of_mapM hparts hm
  rw [bind_of_ok hnet] at hline
  dsimp only at hline
  rw [if_pos hloop] at hline ⊢
  cases hline
  refine List.mem_cons_of_mem _ (List.mem_cons_of_mem _ (List.mem_append_left _ ?_))
  exact List.mem_flatten.mpr ⟨_, hpart, .tail _ (.tail _ (.head _))⟩

theorem blockMemoryReads_ok {text : String} (h : s.blockMemoryReads = .ok text)
    (hreg : s.policy.registeredMemories = true) : ∃ lines, text = Text.join "\n" lines ∧
      ∀ branch items, (branch, items) ∈ s.blockMemories → ∀ q, items.head? = some q →
        ∃ own, s.blockReadLines branch (items.map Prod.fst) q.2 = .ok own ∧ own ⊆ lines := by
  unfold blockMemoryReads at h
  rw [hreg] at h
  obtain ⟨parts, hparts, h⟩ := bind_ok h
  cases h
  refine ⟨_, rfl, fun branch items hitems q hq => ?_⟩
  obtain ⟨own, hown, hlines⟩ := exists_of_mapM hparts hitems
  cases items with
  | nil => cases hq
  | cons p items =>
    cases hq
    exact ⟨own, hlines, fun l hl => List.mem_flatten.mpr ⟨own, hown, hl⟩⟩

end Scope

/-- Let the logic of a module be written, and let a memory of words with `w` bits stand in a loop of
it, with `d` words by the value of its depth.  Then the copy `i` drives the bits `[(i + 1) * w - 1 : i
* w]` of the net of all copies, the bits `[(i + 1) * d - 1 : i * d]` are read as its word, and these
are the same if and only if `d = w`. -/
theorem copy_slices_agree_iff {s : Scope} {texts texts' : Scope.BlockTexts} {reads branch : String}
    {items : List (Register × Block)} {first : Register × Block} {m : Register} {block : Block} {loop : Loop}
    {i w d : Int} (hreg : s.policy.registeredMemories = true) (hreads : s.blockMemoryReads = .ok reads)
    (hblocks : s.blockCode texts = .ok texts') (hitems : (branch, items) ∈ s.blockMemories)
    (hfirst : items.head? = some first) (hfirst' : first.2.isLoop = true) (hm : (m, block) ∈ items)
    (hloop : block.loop = some loop) (hi : value names loop.index = some i)
    (hi' : value names loopVariable = some i) (hw : Operand names m.widthText w)
    (hd : Operand names s!"({boundText m.depth.2}+1)" d) :
    ∃ net place own lines driven chosen, m.localName = .ok net ∧
      Scope.Holds texts' branch own ∧ Code.Shows (Scope.drivenLine branch net driven place) own ∧
      reads = Text.join "\n" lines ∧ s.chosenLine m branch net chosen ∈ lines ∧
      sliceOf names driven = some ((i + 1) * w - 1, i * w) ∧
      sliceOf names chosen = some ((i + 1) * d - 1, i * d) ∧
      (sliceOf names chosen = sliceOf names driven ↔ d = w) := by
  obtain ⟨own, hown, hheld⟩ := (Scope.blockCode_ok hblocks).1 branch items hitems (m, block) hm
  obtain ⟨net, place, hnet, hshows⟩ := Scope.blockMemoryCode_shows hown hloop
  obtain ⟨lines, rfl, hlines⟩ := Scope.blockMemoryReads_ok hreads hreg
  obtain ⟨part, hpart, hsub⟩ := hlines branch items hitems first hfirst
  have hchosen := Scope.blockReadLines_mem hpart (List.mem_map_of_mem hm) hfirst' hnet
  have hdriven := sliceOf_copySlice hi hw
  have hread := sliceOf_copySlice hi' hd
  refine ⟨net, place, own, lines, _, _, hnet, hheld, hshows, rfl, hsub hchosen, hdriven, hread, ?_⟩
  rw [hdriven, hread, Option.some.injEq, Prod.mk.injEq]
  constructor
  · rintro ⟨hhigh, hlow⟩
    have : ∀ x : Int, (i + 1) * x = i * x + x := fun x => by ring
    rw [this, this] at hhigh
    omega
  · rintro rfl
    exact ⟨rfl, rfl⟩

/-- A memory of sixteen words with eight bits. -/
def sixteenBytes : Register :=
  { kind := .memory, given := some "m", size := 16, dw := 8, aw := 4, base := some 0, description := none
    source := .none, access := Access.readWrite, label := some "m", range := (some "7", some "0")
    depth := (some "0", some "15"), blockAw := none }

def twoCopies : Block := ⟨"g", some ⟨"N", "0", .lt, "2", .add, "1", some 2, 0⟩⟩

def copiesOnly : Scope :=
  { eightBits with
    words := [], memories := [], hasWords := false, blockMemories := [("g", [(sixteenBytes, twoCopies)])] }

/-- The copy with the index one drives the bits 15 to 8, and the bits 31 to 16 are read as its word. -/
theorem copy_slices_agree_iff_sixteenBytes :
    ∃ reads texts own lines place driven chosen, copiesOnly.blockMemoryReads = .ok reads ∧
      copiesOnly.blockCode [("g", [])] = .ok texts ∧ Scope.Holds texts "g" own ∧
      Code.Shows (Scope.drivenLine "g" "m" driven place) own ∧ reads = Text.join "\n" lines ∧
      copiesOnly.chosenLine sixteenBytes "g" "m" chosen ∈ lines ∧
      sliceOf (fun _ => some 1) driven = some (15, 8) ∧ sliceOf (fun _ => some 1) chosen = some (31, 16) := by
  obtain ⟨reads, hreads⟩ := exists_ok
    (show copiesOnly.blockMemoryReads.toBool = true by decide +kernel)
  obtain ⟨texts, htexts⟩ := exists_ok
    (show (copiesOnly.blockCode [("g", [])]).toBool = true by decide +kernel)
  have hw : Operand (fun _ => some 1) sixteenBytes.widthText 8 :=
    operand_bracketed (show value (fun _ => some 1) "7+1" = some 8 by decide)
  have hd : Operand (fun _ => some 1) s!"({boundText sixteenBytes.depth.2}+1)" 16 :=
    operand_bracketed (show value (fun _ => some 1) "15+1" = some 16 by decide)
  obtain ⟨net, place, own, lines, driven, chosen, hnet, hheld, hshows, hlines, hmem, hdriven, hchosen, -⟩ :=
    copy_slices_agree_iff rfl hreads htexts
      (show ("g", [(sixteenBytes, twoCopies)]) ∈ copiesOnly.blockMemories from .head _) rfl rfl (.head _) rfl
      (show value (fun _ => some 1) "N" = some 1 by decide) (by decide) hw hd
  obtain rfl : net = "m" := by
    cases hnet
    rfl
  exact ⟨reads, texts, own, lines, place, driven, chosen, hreads, htexts, hheld, hshows, hlines, hmem, hdriven,
    hchosen⟩

end RegisterMap.Decoder
