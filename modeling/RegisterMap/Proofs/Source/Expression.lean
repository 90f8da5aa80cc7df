import Mathlib.Tactic.Common
import RegisterMap.Text.CharClass

/-! # Integer expressions

The sizes of loops and the bounds of slices are written as expressions over numbers and names.
`Expression.value` reads them as the language of the generated text does: products before sums and from
left to right, signs in front of operands first, and a division cuts the fraction off.

The reader goes over the pieces of a text once and keeps what stands in front of each open bracket on a
stack, so what it does inside brackets does not depend on what stands outside (`run_below`).  A text
that can stand for an operand anywhere is `Operand`: a number, a name, either with a sign, or an
expression in brackets.  `sliceOf` reads the bounds of a slice. -/

namespace RegisterMap.Expression

open Text Option

/-! ### The pieces of a text -/

/-- A piece of an expression. -/
inductive Token where
  /-- A number or a name. -/
  | word (cs : List Char)
  /-- Any other character. -/
  | sign (c : Char)
deriving DecidableEq, Repr

/-- A word that ends here, if there is one. -/
def ended (word : List Char) : List Token := if word.isEmpty then [] else [.word word]

/-- The pieces of a text behind the characters of an open word. -/
def scan : (word : List Char) → List Char → List Token
  | word, [] => ended word
  | word, c :: cs =>
    if isWordChar c then scan (word ++ [c]) cs
    else if isBlank c then ended word ++ scan [] cs
    else ended word ++ .sign c :: scan [] cs

/-- The pieces of a text: words, and single signs; blanks only end words. -/
def tokens (s : String) : List Token := scan [] s.toList

/-- The character is a piece of its own. -/
def IsSign (c : Char) : Prop := isWordChar c = false ∧ isBlank c = false

instance (c : Char) : Decidable (IsSign c) := inferInstanceAs (Decidable (_ ∧ _))

theorem scan_append_sign {c : Char} (hc : IsSign c) (word a b : List Char) :
    scan word (a ++ c :: b) = scan word a ++ .sign c :: scan [] b := by
  induction a generalizing word with
  | nil => simp [scan, hc.1, hc.2]
  | cons d a ih =>
    rw [List.cons_append, scan, scan]
    split
    · exact ih _
    · split
      · rw [ih, List.append_assoc]
      · rw [ih, List.append_assoc, List.cons_append]

theorem tokens_append_sign {c : Char} (hc : IsSign c) {sign : String} (hs : sign.toList = [c])
    (a b : String) : tokens (a ++ sign ++ b) = tokens a ++ .sign c :: tokens b := by
  unfold tokens
  rw [String.toList_append, String.toList_append, hs, List.append_assoc]
  exact scan_append_sign hc [] _ _

theorem tokens_sign_append {c : Char} (hc : IsSign c) {sign : String} (hs : sign.toList = [c])
    (b : String) : tokens (sign ++ b) = .sign c :: tokens b := by
  have := tokens_append_sign hc hs "" b
  rwa [String.empty_append] at this

theorem tokens_append_last {c : Char} (hc : IsSign c) {sign : String} (hs : sign.toList = [c])
    (a : String) : tokens (a ++ sign) = tokens a ++ [.sign c] := by
  have := tokens_append_sign hc hs a ""
  rwa [String.append_empty] at this

/-! ### The reader -/

/-- What stands in front of an operand, inside the innermost open bracket. -/
structure Front where
  /-- The sum of the terms in front of the one at hand. -/
  sum : Int := 0
  /-- The term at hand is subtracted. -/
  less : Bool := false
  /-- The factors of the term at hand so far, and whether the operand divides them. -/
  factors : Option (Int × Bool) := none
  /-- A minus sign stands in front of the operand. -/
  minus : Bool := false
deriving DecidableEq, Repr

/-- What stands up to the end of an operand, inside the innermost open bracket. -/
structure Back where
  sum : Int
  less : Bool
  /-- The term at hand so far. -/
  term : Int
deriving DecidableEq, Repr

/-- The value up to here. -/
def Back.total (b : Back) : Int := if b.less then b.sum - b.term else b.sum + b.term

/-- An operand is read.  There is no division by zero. -/
def Front.take (f : Front) (v : Int) : Option Back :=
  let v := if f.minus then -v else v
  match f.factors with
  | none => some ⟨f.sum, f.less, v⟩
  | some (p, false) => some ⟨f.sum, f.less, p * v⟩
  | some (p, true) => if v = 0 then none else some ⟨f.sum, f.less, p.tdiv v⟩

/-- The state of the reader, with what stands in front of the open brackets. -/
inductive State where
  /-- An operand is to come. -/
  | operand (front : Front) (outer : List Front)
  /-- An operand has been read. -/
  | operator (back : Back) (outer : List Front)
deriving DecidableEq, Repr

/-- The values of the names. -/
abbrev Names := String → Option Int

/-- The value of a number or a name. -/
def wordValue (names : Names) (cs : List Char) : Option Int :=
  if cs.all Char.isDigit then some (decimalOfDigits cs) else names (String.ofList cs)

def step (names : Names) : State → Token → Option State
  | .operand f outer, .word cs =>
    (wordValue names cs).bind fun v => (f.take v).map fun b => .operator b outer
  | .operand f outer, .sign '-' => some (.operand { f with minus := !f.minus } outer)
  | .operand f outer, .sign '+' => some (.operand f outer)
  | .operand f outer, .sign '(' => some (.operand {} (f :: outer))
  | .operator b outer, .sign '+' => some (.operand { sum := b.total } outer)
  | .operator b outer, .sign '-' => some (.operand { sum := b.total, less := true } outer)
  | .operator b outer, .sign '*' =>
    some (.operand { sum := b.sum, less := b.less, factors := some (b.term, false) } outer)
  | .operator b outer, .sign '/' =>
    some (.operand { sum := b.sum, less := b.less, factors := some (b.term, true) } outer)
  | .operator b (f :: outer), .sign ')' => (f.take b.total).map fun b => .operator b outer
  | _, _ => none

def run (names : Names) (s : State) (ts : List Token) : Option State := ts.foldlM (step names) s

def valueOf (names : Names) (ts : List Token) : Option Int :=
  match run names (.operand {} []) ts with
  | some (.operator b []) => some b.total
  | _ => none

/-- The value of a text. -/
def value (names : Names) (s : String) : Option Int := valueOf names (tokens s)

example : value (fun _ => none) "2 + 3 * -(4 - 9/2)" = some 2 := by decide

variable {names : Names} {s s' : State} {ts us : List Token} {t u : String} {v w : Int}

@[simp] theorem run_nil : run names s [] = some s := rfl

@[simp] theorem run_cons (t : Token) : run names s (t :: ts) =
    (step names s t).bind fun s' => run names s' ts := by
  unfold run
  rw [List.foldlM_cons]
  rfl

theorem run_append : run names s (ts ++ us) = (run names s ts).bind fun s' => run names s' us := by
  unfold run
  rw [List.foldlM_append]
  rfl

/-! ### Inside brackets -/

/-- The state with more open brackets around it. -/
def State.below (more : List Front) : State → State
  | .operand f outer => .operand f (outer ++ more)
  | .operator b outer => .operator b (outer ++ more)

theorem step_below (more : List Front) {t : Token} (h : step names s t = some s') :
    step names (s.below more) t = some (s'.below more) := by
  unfold step at h
  split at h
  · obtain ⟨v, hv, hmap⟩ := bind_eq_some_iff.mp h
    obtain ⟨b, hb, rfl⟩ := map_eq_some_iff.mp hmap
    simp [State.below, step, hv, hb]
  case h_9 =>
    obtain ⟨b, hb, rfl⟩ := map_eq_some_iff.mp h
    simp [State.below, step, hb]
  case h_10 => cases h
  all_goals
    cases h
    rfl

theorem run_below (more : List Front) (h : run names s ts = some s') :
    run names (s.below more) ts = some (s'.below more) := by
  induction ts generalizing s with
  | nil =>
    cases h
    rfl
  | cons t ts ih =>
    rw [run_cons] at h ⊢
    obtain ⟨s1, hs1, hrest⟩ := bind_eq_some_iff.mp h
    rw [step_below more hs1]
    exact ih hrest

theorem exists_run_of_valueOf (h : valueOf names ts = some v) :
    ∃ b, run names (.operand {} []) ts = some (.operator b []) ∧ b.total = v := by
  unfold valueOf at h
  split at h
  · next b hb => exact ⟨b, hb, Option.some.inj h⟩
  · cases h

theorem exists_run_of_value (h : value names t = some v) (outer : List Front) :
    ∃ b, run names (.operand {} outer) (tokens t) = some (.operator b outer) ∧ b.total = v := by
  obtain ⟨b, hb, hv⟩ := exists_run_of_valueOf h
  exact ⟨b, run_below outer hb, hv⟩

/-! ### Operands -/

/-- Wherever an operand may stand, the text is read as one. -/
def Operand (names : Names) (t : String) (v : Int) : Prop :=
  ∀ f outer, run names (.operand f outer) (tokens t) = (f.take v).map fun b => .operator b outer

theorem Operand.value (h : Operand names t v) : value names t = some v := by
  unfold Expression.value valueOf
  rw [h]
  simp [Front.take, Back.total]

theorem Operand.unique (h : Operand names t v) (h' : Operand names t w) : v = w :=
  mem_unique h.value h'.value

theorem operand_word {cs : List Char} (ht : tokens t = [.word cs]) (hv : wordValue names cs = some v) :
    Operand names t v := by
  intro f outer
  rw [ht]
  simp [step, hv]

theorem operand_zero : Operand names "0" 0 :=
  operand_word (show tokens "0" = [.word ['0']] by decide) rfl

theorem operand_one : Operand names "1" 1 :=
  operand_word (show tokens "1" = [.word ['1']] by decide) rfl

theorem Operand.neg (h : Operand names t v) : Operand names ("-" ++ t) (-v) := by
  intro f outer
  rw [tokens_sign_append (c := '-') (by decide) rfl, run_cons]
  refine (h _ outer).trans (congrArg _ ?_)
  unfold Front.take
  cases f.minus <;> simp

theorem operand_bracketed (h : value names t = some v) : Operand names ("(" ++ t ++ ")") v := by
  intro f outer
  obtain ⟨b, hb, rfl⟩ := exists_run_of_value h (f :: outer)
  rw [tokens_append_last (c := ')') (by decide) rfl, tokens_sign_append (c := '(') (by decide) rfl, run_append,
    run_cons]
  simp [step, hb]

/-! ### Sums, products and quotients -/

theorem value_append_sub (h : value names t = some v) (hu : Operand names u w) :
    value names (t ++ "-" ++ u) = some (v - w) := by
  obtain ⟨b, hb, rfl⟩ := exists_run_of_value h []
  unfold value valueOf
  rw [tokens_append_sign (c := '-') (by decide) rfl, run_append, hb, bind_some, run_cons]
  simp only [step, bind_some, hu _ _]
  simp [Front.take, Back.total]

theorem value_append_add (h : value names t = some v) (hu : Operand names u w) :
    value names (t ++ "+" ++ u) = some (v + w) := by
  obtain ⟨b, hb, rfl⟩ := exists_run_of_value h []
  unfold value valueOf
  rw [tokens_append_sign (c := '+') (by decide) rfl, run_append, hb, bind_some, run_cons]
  simp only [step, bind_some, hu _ _]
  simp [Front.take, Back.total]

theorem value_append_mul (h : Operand names t v) (hu : Operand names u w) :
    value names (t ++ "*" ++ u) = some (v * w) := by
  unfold value valueOf
  rw [tokens_append_sign (c := '*') (by decide) rfl, run_append, h]
  simp [Front.take, step, hu _ _, Back.total]

theorem value_append_div (h : Operand names t v) (hu : Operand names u w) (hw : w ≠ 0) :
    value names (t ++ "/" ++ u) = some (v.tdiv w) := by
  unfold value valueOf
  rw [tokens_append_sign (c := '/') (by decide) rfl, run_append, h]
  simp [Front.take, step, hu _ _, hw, Back.total]

/-! ### Slices -/

/-- The highest and the lowest bit of a slice, by highest bit and width. -/
def sliceOf (names : Names) (s : String) : Option (Int × Int) :=
  match tokens s with
  | .sign '[' :: ts =>
    let high := ts.takeWhile (· ≠ .sign ':')
    let width := (ts.dropWhile (· ≠ .sign ':')).tail
    if high.getLast? = some (.sign '-') ∧ width.getLast? = some (.sign ']') then
      match valueOf names high.dropLast, valueOf names width.dropLast with
      | some high, some width => some (high, high - width + 1)
      | _, _ => none
    else none
  | _ => none

example : sliceOf (fun _ => some 2) "[((N+1)*8)-1-:8]" = some (23, 16) := by decide

theorem colon_not_mem (h : run names s ts = some s') : Token.sign ':' ∉ ts := by
  induction ts generalizing s with
  | nil => simp
  | cons t ts ih =>
    rw [run_cons] at h
    obtain ⟨s1, hs1, hrest⟩ := bind_eq_some_iff.mp h
    have ht : t ≠ .sign ':' := by
      rintro rfl
      cases s <;> simp [step] at hs1
    simp [ht.symm, ih hrest]

theorem sliceOf_append (h : value names t = some v) (hu : value names u = some w) :
    sliceOf names ("[" ++ t ++ "-:" ++ u ++ "]") = some (v, v - w + 1) := by
  obtain ⟨b, hb, -⟩ := exists_run_of_value h []
  have hcolon : ∀ x ∈ tokens t ++ [.sign '-'], decide (x ≠ .sign ':') = true := by
    intro x hx
    rw [decide_eq_true_eq]
    rintro rfl
    rcases List.mem_append.mp hx with hx | hx
    · exact colon_not_mem hb hx
    · simp at hx
  have ht : tokens ("[" ++ t ++ "-:" ++ u ++ "]") =
      .sign '[' :: (tokens t ++ [.sign '-'] ++ .sign ':' :: (tokens u ++ [.sign ']'])) := by
    rw [show "[" ++ t ++ "-:" ++ u ++ "]" = "[" ++ (t ++ "-" ++ ":" ++ (u ++ "]")) by
        simp [String.append_assoc], tokens_sign_append (c := '[') (by decide) rfl,
      tokens_append_sign (c := ':') (by decide) rfl, tokens_append_last (c := '-') (by decide) rfl,
      tokens_append_last (c := ']') (by decide) rfl]
  unfold sliceOf
  rw [ht]
  unfold value at h hu
  simp only [List.takeWhile_append_of_pos hcolon, List.dropWhile_append_of_pos hcolon]
  simp [h, hu]

end RegisterMap.Expression
