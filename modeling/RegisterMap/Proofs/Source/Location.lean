import RegisterMap.Source.Location
import RegisterMap.Proofs.Bus
import RegisterMap.Proofs.Number.Exact

/-! # The piece of a file around a place

Where a text has one octet for each character and no returns (`Mark.Plain`), the mark behind some lines
is the number of their characters, whatever the guess it is searched from (`Mark.Plain.afterLines`).
A place in a line then leads to its character (`Files.snippet_at_position`). -/

namespace RegisterMap

open Text List

namespace Text.Pattern

variable {p : Char → Bool} {ps : Pattern} {cs rest left : List Char} {fields : List (List Char)}

theorem matchStart_one {c : Char} (hc : p c = true) (h : matchStart ps cs = some (fields, left)) :
    matchStart (.one p :: ps) (c :: cs) = some (fields, left) := (if_pos hc).trans h

theorem matchStart_field (hcs : ∀ c ∈ cs, p c = true) (hne : cs ≠ [])
    (hrest : ∀ c ∈ rest.head?, p c = false) (h : matchStart ps rest = some (fields, left)) :
    matchStart (.field 1 p :: ps) (cs ++ rest) = some (cs :: fields, left) := by
  have htake : (cs ++ rest).takeWhile p = cs := by
    rw [takeWhile_append_of_pos hcs]
    cases rest with
    | nil => simp
    | cons c rest => simp [hrest c rfl]
  obtain ⟨n, hn⟩ := Nat.exists_eq_add_one_of_ne_zero (mt length_eq_zero_iff.mp hne)
  rw [matchStart]
  dsimp only
  rw [htake, hn, longestCut, if_neg (by omega), ← hn, drop_left, h, take_left]
  rfl

theorem matchStart_number (n : Nat) {q : Char → Bool} {c : Char} (hc : isDecimal c = false)
    (hq : q c = true) (h : matchStart ps rest = some (fields, left)) :
    matchStart (.field 1 isDecimal :: .one q :: ps) (Nat.toDigits 10 n ++ c :: rest) =
      some (Nat.toDigits 10 n :: fields, left) :=
  matchStart_field (fun _ h => isDecimal_of_mem_toDigits h) Nat.toDigits_ne_nil
    (by simpa using hc) (matchStart_one hq h)

end Text.Pattern

namespace Source

theorem Location.parse_text {path : String} {l c l2 c2 : Nat} (hpath : ':' ∉ path.toList)
    (hne : path ≠ "") (h : ∀ n ∈ [l, c, l2, c2], n < 10 ^ Number.maxDigits) :
    Location.parse s!"{path}:{l}.{c}-{l2}.{c2}" = .ok (some ⟨path, l, c, l2, c2⟩) := by
  generalize hs : s!"{path}:{l}.{c}-{l2}.{c2}" = s
  have hs : s.toList = path.toList ++ ':' :: (Nat.toDigits 10 l ++ '.' :: (Nat.toDigits 10 c ++
      '-' :: (Nat.toDigits 10 l2 ++ '.' :: (Nat.toDigits 10 c2 ++ [])))) := by
    simp [← hs, toString, Nat.toList_repr]
  have hmatch : Pattern.matchStart locationPattern s.toList = some ([path.toList, Nat.toDigits 10 l,
      Nat.toDigits 10 c, Nat.toDigits 10 l2, Nat.toDigits 10 c2], []) := by
    rw [hs]
    refine Pattern.matchStart_field (fun ch hch => ?_) (by simpa using hne) (by simp)
      (Pattern.matchStart_one rfl (Pattern.matchStart_number l (by decide) rfl
        (Pattern.matchStart_number c (by decide) rfl (Pattern.matchStart_number l2 (by decide) rfl
          (Pattern.matchStart_field (fun _ h => isDecimal_of_mem_toDigits h) Nat.toDigits_ne_nil
            (by simp) rfl)))))
    have : ch ≠ ':' := fun he => hpath (he ▸ hch)
    simpa using this
  simp only [forall_mem_cons] at h
  simp [Location.parse, Pattern.fieldsAtStart, hmatch, Number.ofDigits_toDigits, h, bind, Except.bind,
    pure, Except.pure]

namespace Mark

/-- One octet for each character, and no returns. -/
def Plain (cs : List Char) : Prop := ∀ c ∈ cs, isAscii c = true ∧ c ≠ '\r'

variable {cs cs' text before rest : List Char} {n : Nat}

theorem Plain.sublist (h : Plain cs) (hs : cs'.Sublist cs) : Plain cs' := fun c hc => h c (hs.subset hc)

theorem Plain.utf8Size {c : Char} (h : isAscii c = true) : c.utf8Size = 1 := by
  have hc : c.toNat < 0x80 := by simpa [isAscii] using h
  exact Char.utf8Size_eq_one_iff.mpr (UInt32.le_iff_toNat_le.mpr (Nat.lt_succ_iff.mp hc))

section

variable (h : Plain cs)

include h

theorem Plain.octets : octets cs = cs.length := by
  induction cs with
  | nil => rfl
  | cons c cs ih =>
    rw [Text.octets, Plain.utf8Size (h c (by simp)).1, ih (h.sublist (by simp)), length_cons,
      Nat.add_comm]

theorem Plain.within (n : Nat) : within n cs = cs.take n := by
  induction cs generalizing n with
  | nil => simp [Mark.within]
  | cons c cs ih =>
    rw [Mark.within, Plain.utf8Size (h c (by simp)).1, ih (h.sublist (by simp))]
    cases n <;> simp

theorem Plain.fromOctet (n : Nat) : fromOctet n cs = .ok (cs.drop n) := by
  induction cs generalizing n with
  | nil => cases n <;> simp [Text.fromOctet]
  | cons c cs ih =>
    cases n with
    | zero => simp [Text.fromOctet]
    | succ n =>
      rw [Text.fromOctet, Plain.utf8Size (h c (by simp)).1, if_pos (by omega), Nat.add_sub_cancel,
        ih (h.sublist (by simp)), drop_succ_cons]

theorem Plain.unify : unifyLineEnds cs = cs :=
  unifyLineEnds_of_no_return fun hm => (h _ hm).2 rfl

theorem Plain.holds : holds cs = false := by
  refine Bool.eq_false_iff.mpr fun hh => (h '\r' (mem_of_getLast? ?_)).2 rfl
  simpa [Mark.holds] using hh

theorem Plain.givenOut : givenOut cs = cs := by
  have hl : (cs.getLast? == some '\r') = false := h.holds
  rw [Mark.givenOut, hl]
  exact h.unify

/-- Stepping back from any guess keeps the number of characters up to the place. -/
theorem Plain.stepBack (n fuel guess step : Nat) :
    ∃ k, (stepBack [] cs n fuel guess step).passed = cs.take k ∧
      (cs.take k).length + (Mark.stepBack [] cs n fuel guess step).remaining = n := by
  induction fuel generalizing guess step with
  | zero => exact ⟨0, by simp [Mark.stepBack]⟩
  | succ fuel ih =>
    have hp : Plain (cs.take guess) := h.sublist (cs.take_sublist guess)
    rw [Mark.stepBack, h.within, nil_append, hp.givenOut]
    split_ifs with hfar hcut
    · exact ih _ _
    · exact ih _ _
    · exact ⟨guess, rfl, by simp only; omega⟩

theorem Plain.goOn (octet : Nat) (hn : n ≤ cs.length) :
    goOn octet false n cs = { octet := (octet + n : Nat) } := by
  induction cs generalizing n octet with
  | nil =>
    obtain rfl : n = 0 := by simpa using hn
    rfl
  | cons c cs ih =>
    cases n with
    | zero => rfl
    | succ n =>
      have hc : Plain [c] := h.sublist (by simp)
      simp only [Mark.goOn, Bool.false_eq_true, if_false, nil_append, hc.givenOut, hc.holds,
        Plain.utf8Size (h c (by simp)).1, length_singleton]
      rw [if_neg (by omega), Nat.add_sub_cancel, ih (h.sublist (by simp)) _ (by simpa using hn)]
      congr 2
      omega

end

theorem rawLines_flatten (cs : List Char) : (rawLines cs).flatten = cs := by
  fun_induction rawLines cs <;> simp_all

theorem Plain.rawLines_append (h : Plain before)
    (hb : before = [] ∨ before.getLast? = some '\n') (rest : List Char) :
    rawLines (before ++ rest) = rawLines before ++ rawLines rest ∧
      (rawLines before).length = before.count '\n' := by
  induction before with
  | nil => simp [rawLines]
  | cons c cs ih =>
    have hc := (h c (by simp)).2
    have ih := ih (h.sublist (by simp)) (by
      cases cs with
      | nil => exact .inl rfl
      | cons => exact .inr (by simpa using hb))
    by_cases hn : c = '\n'
    · subst hn
      simp [rawLines, ih]
    · cases cs with
      | nil => simp [hn] at hb
      | cons d cs =>
        have hstep {l first : List Char} {ls : List (List Char)} (hl : rawLines l = first :: ls) :
            rawLines (c :: l) = (c :: first) :: ls := by
          rw [rawLines, hl] <;> simp_all
        cases hl : rawLines (d :: cs) with
        | nil => simpa [hl] using rawLines_flatten (d :: cs)
        | cons l ls =>
          rw [hl] at ih
          rw [cons_append, hstep ih.1, hstep hl, count_cons_of_ne (by simpa using hn), ← ih.2]
          exact ⟨rfl, rfl⟩

/-- The mark is found whatever the guess. -/
theorem Plain.inPiece (h : Plain text) {piece : Nat} (hlo : piece * pieceOctets ≤ n)
    (hhi : n ≤ text.length) : inPiece text piece n = { octet := (n : Nat) } := by
  have htake (k : Nat) : Plain (text.take k) := h.sublist (text.take_sublist k)
  have hdrop (k : Nat) : Plain (text.drop k) := h.sublist (text.drop_sublist k)
  have hlen : (text.take (piece * pieceOctets)).length = piece * pieceOctets := by
    rw [length_take]
    omega
  rw [Mark.inPiece]
  simp only [h.within, (htake _).givenOut, (htake _).holds, (htake _).octets, hlen, Bool.false_eq_true,
    if_false, nil_append]
  generalize proportion _ _ _ = guess
  obtain ⟨k, hpassed, hsum⟩ := (hdrop (piece * pieceOctets)).stepBack (n - piece * pieceOctets) guess
    guess 1
  have hk : Plain ((text.drop (piece * pieceOctets)).take k) := (hdrop _).sublist (take_sublist _ _)
  rw [hpassed, hk.octets, hk.holds, ((hdrop _).sublist (drop_sublist _ _)).goOn]
  · congr 2
    omega
  · rw [length_drop, length_drop]
    omega

theorem Plain.afterLines (h : Plain (before ++ rest)) (hb : before = [] ∨ before.getLast? = some '\n')
    (hrest : rest ≠ []) : ∃ line, afterLines (before ++ rest) (before.count '\n' + 1) =
      ({ octet := (before.length + line.length : Nat) }, line) ∧ Plain line := by
  obtain ⟨happ, hlen⟩ := (h.sublist (sublist_append_left _ _)).rawLines_append hb rest
  cases hl : rawLines rest with
  | nil => exact absurd (by simpa [hl] using rawLines_flatten rest) hrest.symm
  | cons line more =>
    have htake :
        (rawLines (before ++ rest)).take (before.count '\n' + 1) = rawLines before ++ [line] := by
      rw [happ, hl, ← hlen, take_length_add_append]
      rfl
    have hsplit : rest = line ++ more.flatten := by rw [← rawLines_flatten rest, hl]; rfl
    have hread : Plain (before ++ line) := h.sublist (by simp [hsplit])
    have hline : Plain line := hread.sublist (sublist_append_right _ _)
    refine ⟨line, ?_, hline⟩
    rw [Mark.afterLines]
    simp only [htake, flatten_append, rawLines_flatten, flatten_singleton, hread.octets,
      hread.unify, length_append, length_singleton, hlen, lt_irrefl, if_false,
      getLast?_concat, Option.getD_some, hline.holds, Bool.or_false]
    generalize hn : before.length + line.length = n
    have hle : n ≤ (before ++ rest).length := by simp [hsplit]; omega
    have hpiece : (n - 1) / pieceOctets * pieceOctets ≤ n ∧
        n ≤ ((n - 1) / pieceOctets + 1) * pieceOctets := by
      unfold pieceOctets
      omega
    have hgiven : n ≤ (Mark.givenOut (Mark.within (((n - 1) / pieceOctets + 1) * pieceOctets)
        (before ++ rest))).length := by
      rw [h.within, (h.sublist (take_sublist _ _)).givenOut, length_take]
      exact le_min hpiece.2 hle
    rw [h.inPiece hpiece.1 hle]
    simp [hgiven]

theorem ofCode?_of_lt (h : n < 2 ^ 63) : ofCode? n = some { octet := (n : Nat) } := by
  have hfield (first last : Nat) (hf : 64 ≤ first) : bitsFrom n first last = 0 := by
    have hlt : n < 2 ^ first := h.trans_le (Nat.pow_le_pow_right (by decide) (by omega))
    rw [bitsFrom, Number.twoPow_eq, Nat.div_eq_of_lt hlt, Nat.zero_mod]
  have hoctet : bitsFrom n 0 heldBit = n :=
    (congrArg (· % 2 ^ 64) (Nat.div_one n)).trans (Nat.mod_eq_of_lt (h.trans (by decide)))
  have htop : ¬Number.twoPow topBit ≤ n := by
    rw [Number.twoPow_eq, not_le]
    exact h.trans (by decide)
  rw [ofCode?, if_neg htop, hoctet]
  simp only [hfield heldBit _ (by decide), hfield feedBit _ (by decide), hfield skipBit _ (by decide),
    hfield endedBit _ (by decide), Int.toNat_natCast]
  rw [if_neg (by simpa [Number.twoPow_eq, heldBit] using h)]
  rfl

end Mark

theorem snippetAt_of_plain {before rest : List Char} {c p : Nat} (h : Mark.Plain (before ++ rest))
    (hsize : (before ++ rest).length < 2 ^ 63) (hb : before = [] ∨ before.getLast? = some '\n')
    (hc : 1 ≤ c) (hc' : c ≤ rest.length) (hp : p = before.length + (c - 1)) :
    snippetAt snippetSize (before ++ rest) (before.count '\n' + 1) c =
      .ok (some ⟨((before ++ rest).drop (p - min p 512)).take 1024, (min p 512 : Nat)⟩) := by
  obtain ⟨line, hline, hplain⟩ := h.afterLines hb (ne_nil_of_length_pos (by omega))
  have hplace : ({ octet := (before.length + line.length : Nat) } : Mark).code -
      (1 + ((unifyLineEnds line).length : Int) - c) = p := by
    rw [hplain.unify]
    simp only [Mark.code]
    push_cast
    simp
    omega
  rw [length_append] at hsize
  have hhalf : ((p : Int) - ((snippetSize : Nat) : Int) / 2).toNat = p - min p 512 := by
    unfold snippetSize
    omega
  rw [snippetAt, hline]
  dsimp only
  rw [hplace, hhalf, Mark.ofCode?_of_lt (by omega)]
  dsimp only
  rw [Mark.textFrom_octet, h.fromOctet]
  rw [Except.map, (h.sublist (drop_sublist _ _)).unify]
  simp [bind, Except.bind, pure, Except.pure, snippetSize]

/-- **A place leads to its character.**  `before` are whole lines of the text, `c` counts characters
behind them, and files are shorter than `2 ^ 63`. -/
theorem Files.snippet_at_position {fs : Files} {path text : String} {before rest : List Char}
    {l c l2 c2 p : Nat} (hpath : ':' ∉ path.toList) (hfile : fs.text? path = .ok (some text))
    (htext : text.toList = before ++ rest) (hplain : Mark.Plain text.toList)
    (hsize : text.toList.length < 2 ^ 63) (hb : before = [] ∨ before.getLast? = some '\n')
    (hl : l = before.count '\n' + 1) (hc : 1 ≤ c) (hc' : c ≤ rest.length)
    (hl2 : l2 < 10 ^ Number.maxDigits) (hc2 : c2 < 10 ^ Number.maxDigits)
    (hp : p = before.length + (c - 1)) :
    ∃ piece, fs.snippet s!"{path}:{l}.{c}-{l2}.{c2}" =
        .ok (some ⟨piece, (min p 512 : Nat)⟩) ∧
      piece = (text.toList.drop (p - min p 512)).take 1024 ∧
      (piece.drop (min p 512)).head? = rest[c - 1]? := by
  have hne : path ≠ "" := by
    rintro rfl
    cases hfile
  rw [htext] at hplain hsize
  subst hl
  refine ⟨_, ?_, rfl, ?_⟩
  · have hcount := count_le_length (a := '\n') (l := before)
    rw [length_append] at hsize
    have hbig : 2 ^ 63 < 10 ^ Number.maxDigits := by decide +kernel
    rw [Files.snippet, Location.parse_text hpath hne (by simp; omega)]
    simp only [bind, Except.bind]
    rw [hfile]
    simp only [htext, snippetAt_of_plain hplain (by simpa using hsize) hb hc hc' hp]
  · rw [drop_take, drop_drop, head?_take, if_neg (by omega), htext,
      show p - min p 512 + min p 512 = p by omega, head?_drop,
      getElem?_append_right (by omega), hp, Nat.add_sub_cancel_left]

theorem Files.snippet_at_position_secondLine :
    let fs : Files := { texts := [("a.v", "x\nreg y;\n")] }
    ':' ∉ "a.v".toList ∧ fs.text? "a.v" = .ok (some "x\nreg y;\n") ∧
    ∃ piece, fs.snippet "a.v:2.5-2.6" = .ok (some ⟨piece, 6⟩) ∧
      piece = "x\nreg y;\n".toList ∧ (piece.drop 6).head? = some 'y' := by
  intro fs
  have hpath : ':' ∉ "a.v".toList := by decide
  have hfile : fs.text? "a.v" = .ok (some "x\nreg y;\n") := by decide +kernel
  exact ⟨hpath, hfile, @Files.snippet_at_position fs "a.v" "x\nreg y;\n" "x\n".toList
    "reg y;\n".toList 2 5 2 6 6 hpath hfile rfl (by simp [Mark.Plain, isAscii]) (by decide) (.inr rfl)
    rfl (by decide) (by decide) (by decide +kernel) (by decide +kernel) rfl⟩

end Source

end RegisterMap
