import Mathlib.Data.List.Induction
import Mathlib.Tactic.IntervalCases
import RegisterMap.Proofs.Source.Folder
import RegisterMap.Source.Declaration

/-! # Reading a declaration back

From the name of a net the scanner walks back and looks at windows of six characters for a keyword.  A
window may start inside a word, cut one short, or reach behind the name.  `Reads` says what a window is
read as; where the windows around a declaration read no other keyword, its range and its kind are found
(`widthAndKind_declaration`). -/

namespace RegisterMap

open List

namespace Text

variable {n : Nat}

theorem ge_of_isAlphanum {c : Char} (h : c.isAlphanum = true) : 48 ≤ c.toNat := by
  by_contra hc
  have hnone : ∀ n < 48, (Char.ofNat n).isAlphanum = false := by decide
  rw [← Char.ofNat_toNat c, hnone _ (not_le.mp hc)] at h
  cases h

theorem inside_cons {out run : Nat} {table : List Nat} (h : inside (out :: run :: table) n = true) :
    (out ≤ n ∧ n < out + run) ∨ ∃ m, n = out + run + m ∧ inside table m = true := by
  rw [inside] at h
  split at h
  · cases h
  · rw [Bool.or_eq_true, decide_eq_true_eq] at h
    rcases Nat.lt_or_ge n (out + run) with hlt | hge
    · exact .inl ⟨by omega, hlt⟩
    · exact .inr ⟨n - (out + run), by omega, h.resolve_left (by omega)⟩

/-- The blanks above ASCII, counted from its end. -/
theorem blank_cases (h : inside blankRuns n = true) :
    n = 5 ∨ n = 32 ∨ n = 5632 ∨ (8064 ≤ n ∧ n ≤ 8074) ∨ (8104 ≤ n ∧ n ≤ 8105) ∨ n = 8111 ∨ n = 8159 ∨
      n = 12160 := by
  rcases inside_cons h with hrun | ⟨n1, rfl, h1⟩
  · omega
  rcases inside_cons h1 with hrun | ⟨n2, rfl, h2⟩
  · omega
  rcases inside_cons h2 with hrun | ⟨n3, rfl, h3⟩
  · omega
  rcases inside_cons h3 with hrun | ⟨n4, rfl, h4⟩
  · omega
  rcases inside_cons h4 with hrun | ⟨n5, rfl, h5⟩
  · omega
  rcases inside_cons h5 with hrun | ⟨n6, rfl, h6⟩
  · omega
  rcases inside_cons h6 with hrun | ⟨n7, rfl, h7⟩
  · omega
  rcases inside_cons h7 with hrun | ⟨n8, rfl, h8⟩
  · omega
  · cases h8

/-- No blank above ASCII is a letter or a number. -/
theorem not_alphanumeric_of_blank (h : inside blankRuns n = true) :
    inside alphanumericRuns n = false := by
  rcases blank_cases h with rfl | rfl | rfl | ⟨hlo, hhi⟩ | ⟨hlo, hhi⟩ | rfl | rfl | rfl
  · decide
  · decide
  · decide +kernel
  · interval_cases n <;> decide +kernel
  · interval_cases n <;> decide +kernel
  · decide +kernel
  · decide +kernel
  · decide +kernel

theorem not_isWordChar_of_isBlank {c : Char} (h : isBlank c = true) : isWordChar c = false := by
  have hne : c ≠ '_' := by
    rintro rfl
    revert h
    decide
  unfold isBlank at h
  unfold isWordChar isAlphanumeric
  rw [Bool.or_eq_false_iff, beq_eq_false_iff_ne]
  refine ⟨hne, ?_⟩
  split at h
  · next hascii =>
    rw [if_pos hascii, Bool.eq_false_iff]
    intro halpha
    have := ge_of_isAlphanum halpha
    simp only [Bool.or_eq_true, Bool.and_eq_true, decide_eq_true_eq] at h
    omega
  · next hascii =>
    rw [if_neg hascii]
    exact not_alphanumeric_of_blank h

end Text

namespace Source

open Text

variable {cs word : List Char} {k : NetKind}

/-! ### Words in a text -/

/-- A word stands in a text, with no word character next to it. -/
def Reads (word cs : List Char) : Prop :=
  ∃ l r, cs = l ++ word ++ r ∧ (∀ c ∈ l.getLast?, isWordChar c = false) ∧ ∀ c ∈ r.head?, isWordChar c = false

theorem wordHere_iff {afterWord : Bool} : wordHere word afterWord cs = true ↔
      afterWord = false ∧ ∃ r, cs = word ++ r ∧ ∀ c ∈ r.head?, isWordChar c = false := by
  unfold wordHere
  rw [Bool.and_eq_true, Bool.and_eq_true, Bool.not_eq_true', isPrefixOf_iff_prefix, and_assoc]
  refine and_congr_right fun _ => ⟨?_, ?_⟩
  · rintro ⟨⟨r, rfl⟩, h⟩
    refine ⟨r, rfl, fun c hc => ?_⟩
    rw [drop_left] at h
    cases r with
    | nil => cases hc
    | cons d r =>
      cases hc
      simpa using h
  · rintro ⟨r, rfl, h⟩
    refine ⟨⟨r, rfl⟩, ?_⟩
    rw [drop_left]
    cases r with
    | nil => rfl
    | cons d r => simpa using h d rfl

theorem hasWord_iff (hword : word ≠ []) {afterWord : Bool} :
    hasWord word afterWord cs = true ↔ ∃ l r, cs = l ++ word ++ r ∧ (l = [] → afterWord = false) ∧
      (∀ c ∈ l.getLast?, isWordChar c = false) ∧ ∀ c ∈ r.head?, isWordChar c = false := by
  induction cs generalizing afterWord with
  | nil =>
    refine ⟨fun h => (nomatch h), ?_⟩
    rintro ⟨l, r, h, -⟩
    simp [hword] at h
  | cons c cs ih =>
    rw [hasWord, Bool.or_eq_true, wordHere_iff, ih]
    constructor
    · rintro (⟨hafter, r, hr, hnext⟩ | ⟨l, r, rfl, hstart, hlast, hnext⟩)
      · exact ⟨[], r, hr, fun _ => hafter, by simp, hnext⟩
      · refine ⟨c :: l, r, rfl, by simp, fun d hd => ?_, hnext⟩
        cases l with
        | nil =>
          cases hd
          exact hstart rfl
        | cons e l => exact hlast d (by simpa using hd)
    · rintro ⟨l, r, h, hstart, hlast, hnext⟩
      cases l with
      | nil => exact .inl ⟨hstart rfl, r, h, hnext⟩
      | cons e l =>
        obtain ⟨rfl, rfl⟩ := List.cons.inj h
        refine .inr ⟨l, r, rfl, fun hl => ?_, fun d hd => ?_, hnext⟩
        · subst hl
          exact hlast c rfl
        · cases l with
          | nil => cases hd
          | cons e l => exact hlast d (by simpa using hd)

theorem hasWord_iff_reads (hword : word ≠ []) : hasWord word false cs = true ↔ Reads word cs := by
  rw [hasWord_iff hword]
  exact exists₂_congr fun l r => by simp

section

variable {word cs : List Char}

theorem take_prefix_take {i j : Nat} (h : i ≤ j) : cs.take i <+: cs.take j := by
  have : cs.take i = (cs.take j).take i := by rw [take_take, Nat.min_eq_left h]
  rw [this]
  exact take_prefix i _

theorem Reads.isInfix (h : Reads word cs) : word <:+: cs := by
  obtain ⟨l, r, rfl, -⟩ := h
  exact ⟨l, r, rfl⟩

theorem Reads.length_le (h : Reads word cs) : word.length ≤ cs.length := h.isInfix.length_le

theorem Reads.reverse (h : Reads word cs) : Reads word.reverse cs.reverse := by
  obtain ⟨l, r, rfl, hl, hr⟩ := h
  refine ⟨r.reverse, l.reverse, by simp, ?_, ?_⟩
  · simpa using hr
  · simpa using hl

theorem Reads.eq_of_word (h : Reads word cs) (hcs : ∀ c ∈ cs, isWordChar c = true) : word = cs := by
  obtain ⟨l, r, rfl, hl, hr⟩ := h
  have hlnil : l = [] := by
    rcases eq_nil_or_concat l with rfl | ⟨l, c, rfl⟩
    · rfl
    · have := hcs c (by simp)
      rw [hl c (by simp)] at this
      cases this
  have hrnil : r = [] := by
    cases r with
    | nil => rfl
    | cons c r =>
      have := hcs c (by simp)
      rw [hr c rfl] at this
      cases this
  simp [hlnil, hrnil]

variable (hword : ∀ c ∈ word, isWordChar c = true)

include hword

/-- A word that is read around a separator stands on one side of it. -/
theorem Reads.of_separated {a b : List Char} {s : Char} (hne : word ≠ []) (hs : isWordChar s = false)
    (h : Reads word (a ++ s :: b)) : Reads word a ∨ Reads word b := by
  have hnot : s ∉ word := fun hmem => by
    have := hword s hmem
    rw [hs] at this
    cases this
  obtain ⟨l, r, heq, hl, hr⟩ := h
  rw [append_assoc] at heq
  rcases append_eq_append_iff.mp heq with ⟨x, rfl, hx⟩ | ⟨x, rfl, hx⟩
  · right
    cases x with
    | nil =>
      -- the word would start at the separator
      cases word with
      | nil => exact absurd rfl hne
      | cons c word =>
        obtain ⟨rfl, -⟩ := List.cons.inj hx
        exact absurd mem_cons_self hnot
    | cons c x =>
      obtain ⟨rfl, rfl⟩ := List.cons.inj hx
      refine ⟨x, r, by simp, fun d hd => hl d ?_, hr⟩
      cases x with
      | nil => cases hd
      | cons e x => simpa using hd
  · left
    rcases append_eq_append_iff.mp hx with ⟨y, rfl, rfl⟩ | ⟨y, rfl, hy⟩
    · refine ⟨l, y, by rw [append_assoc], hl, fun d hd => hr d ?_⟩
      cases y with
      | nil => cases hd
      | cons e y => simpa using hd
    · cases y with
      | nil => exact ⟨l, [], by simp, hl, by simp⟩
      | cons e y =>
        obtain ⟨rfl, -⟩ := List.cons.inj hy
        exact absurd (by simp) hnot

theorem Reads.of_take_separated {a b : List Char} {s : Char} {m : Nat} (hne : word ≠ [])
    (hs : isWordChar s = false) (h : Reads word ((a ++ s :: b).take m)) :
    Reads word (a.take m) ∨ Reads word (b.take (m - (a.length + 1))) := by
  rw [take_append] at h
  cases hm : m - a.length with
  | zero =>
    rw [hm, take_zero, append_nil] at h
    exact .inl h
  | succ k =>
    rw [hm, take_succ_cons] at h
    have hk : m - (a.length + 1) = k := by omega
    rw [hk]
    exact h.of_separated hword hne hs

theorem reads_map_iff {f : Char → Char} (hf : ∀ c, isWordChar (f c) = isWordChar c)
    (hfix : ∀ c, isWordChar c = true → f c = c) : Reads word (cs.map f) ↔ Reads word cs := by
  have hword' : ∀ w : List Char, w.map f = word → w = word := by
    intro w hw
    refine Eq.trans ?_ hw
    refine (map_id w).symm.trans (map_congr_left fun c hc => ?_)
    have := hword (f c) (hw ▸ mem_map_of_mem hc)
    rw [hf] at this
    exact (hfix c this).symm
  constructor
  · rintro ⟨l, r, h, hl, hr⟩
    obtain ⟨lw, r, rfl, hlw, rfl⟩ := map_eq_append_iff.mp h
    obtain ⟨l, w, rfl, rfl, hw⟩ := map_eq_append_iff.mp hlw
    obtain rfl := hword' w hw
    refine ⟨l, r, rfl, fun c hc => ?_, fun c hc => ?_⟩
    · rw [← hf]
      exact hl (f c) (by simpa using ⟨c, hc, rfl⟩)
    · rw [← hf]
      exact hr (f c) (by simpa using ⟨c, hc, rfl⟩)
  · rintro ⟨l, r, rfl, hl, hr⟩
    have hw : word.map f = word :=
      (map_congr_left fun c hc => hfix c (hword c hc)).trans (map_id word)
    refine ⟨l.map f, r.map f, by simp [hw], fun c hc => ?_, fun c hc => ?_⟩
    · rw [getLast?_map] at hc
      obtain ⟨d, hd, rfl⟩ := Option.map_eq_some_iff.mp hc
      rw [hf]
      exact hl d hd
    · rw [head?_map] at hc
      obtain ⟨d, hd, rfl⟩ := Option.map_eq_some_iff.mp hc
      rw [hf]
      exact hr d hd

theorem reads_dropWhile_iff (hne : word ≠ []) : Reads word (cs.dropWhile isBlank) ↔ Reads word cs := by
  constructor
  · rintro ⟨l, r, h, hl, hr⟩
    refine ⟨cs.takeWhile isBlank ++ l, r, ?_, fun c hc => ?_, hr⟩
    · rw [append_assoc, append_assoc, ← append_assoc l, ← h, takeWhile_append_dropWhile]
    · rcases eq_nil_or_concat l with rfl | ⟨l, d, rfl⟩
      · rw [append_nil] at hc
        have hblank := all_eq_true.mp all_takeWhile c (mem_of_getLast? hc)
        exact not_isWordChar_of_isBlank hblank
      · exact hl c (by simpa using hc)
  · rintro ⟨l, r, rfl, hl, hr⟩
    have hstart : (word ++ r).dropWhile isBlank = word ++ r := by
      cases word with
      | nil => exact absurd rfl hne
      | cons c word =>
        have hblank : isBlank c = false := by
          by_contra hblank
          have := not_isWordChar_of_isBlank (Bool.not_eq_false _ ▸ hblank)
          rw [hword c mem_cons_self] at this
          cases this
        rw [cons_append, dropWhile_cons_of_neg (by rw [hblank]; exact Bool.false_ne_true)]
    refine ⟨l.dropWhile isBlank, r, ?_, fun c hc => hl c ?_, hr⟩
    · rw [append_assoc, dropWhile_append, hstart, append_assoc]
      split
      · next hempty => rw [isEmpty_iff.mp hempty, nil_append]
      · rfl
    · rw [← takeWhile_append_dropWhile (p := isBlank) (l := l), getLast?_append, hc]
      rfl

theorem reads_stripChars_iff (hne : word ≠ []) : Reads word (stripChars cs) ↔ Reads word cs := by
  have hrev : ∀ {w xs : List Char}, Reads w.reverse xs.reverse ↔ Reads w xs := by
    intro w xs
    refine ⟨fun h => ?_, Reads.reverse⟩
    simpa using h.reverse
  unfold stripChars
  rw [← hrev, reverse_reverse,
    reads_dropWhile_iff (by simpa using hword) (by simpa using hne), hrev, reads_dropWhile_iff hword hne]

end

/-! ### Keywords -/

theorem NetKind.isWordChar_keyword (k : NetKind) : ∀ c ∈ k.keyword.toList, isWordChar c = true :=
  all_eq_true.mp (by cases k <;> decide)

theorem NetKind.keyword_plain (k : NetKind) : ∀ c ∈ k.keyword.toList, c ≠ '[' ∧ c ≠ ']' := by
  intro c hc
  have hword := k.isWordChar_keyword c hc
  constructor
  · rintro rfl
    exact absurd hword (by decide)
  · rintro rfl
    exact absurd hword (by decide)

theorem NetKind.keyword_ne_nil (k : NetKind) : k.keyword.toList ≠ [] := by
  cases k <;> decide

theorem NetKind.length_keyword (k : NetKind) :
    3 ≤ k.keyword.toList.length ∧ k.keyword.toList.length ≤ NetKind.window := by
  cases k <;> decide

theorem NetKind.eq_of_suffix {k' : NetKind} (h : k.keyword.toList <:+ k'.keyword.toList) : k = k' := by
  revert h
  cases k <;> cases k' <;> decide

theorem isWordChar_unlined (c : Char) :
    isWordChar (if c == '\n' || c == '.' then ' ' else c) = isWordChar c := by
  split
  · next h =>
    rw [Bool.or_eq_true, beq_iff_eq, beq_iff_eq] at h
    rcases h with rfl | rfl <;> decide
  · rfl

theorem reads_keywordWindow_iff :
    Reads k.keyword.toList (keywordWindow cs) ↔ Reads k.keyword.toList (cs.take NetKind.window) := by
  unfold keywordWindow
  rw [reads_stripChars_iff k.isWordChar_keyword k.keyword_ne_nil,
    reads_map_iff k.isWordChar_keyword isWordChar_unlined]
  intro c hc
  rw [if_neg]
  intro h
  rw [Bool.or_eq_true, beq_iff_eq, beq_iff_eq] at h
  rcases h with rfl | rfl <;> revert hc <;> decide

theorem NetKind.reads_keyword (k : NetKind) {rest : List Char} (hrest : ∀ c ∈ rest.head?, isWordChar c = false) :
    Reads k.keyword.toList ((k.keyword.toList ++ rest).take NetKind.window) := by
  refine ⟨[], rest.take (NetKind.window - k.keyword.toList.length), ?_, by simp, fun c hc => hrest c ?_⟩
  · rw [take_append, take_of_length_le k.length_keyword.2, nil_append]
  · rw [head?_take] at hc
    split at hc
    · cases hc
    · exact hc

theorem reads_of_keywordIn? (h : keywordIn? (keywordWindow cs) = some k) :
    Reads k.keyword.toList (cs.take NetKind.window) := by
  have := find?_some h
  rw [hasWord_iff_reads k.keyword_ne_nil] at this
  exact reads_keywordWindow_iff.mp this

theorem keywordIn?_isSome
    (h : Reads k.keyword.toList (cs.take NetKind.window)) : (keywordIn? (keywordWindow cs)).isSome := by
  refine find?_isSome.mpr ⟨k, ?_, ?_⟩
  · cases k <;> decide
  · exact (hasWord_iff_reads k.keyword_ne_nil).mpr (reads_keywordWindow_iff.mpr h)

/-! ### The walk back -/

section

variable {found : RangeSearch} {before after : List Char}

theorem walkBack_step {c : Char} (hkey : found.level = 0 → keywordIn? (keywordWindow (c :: after)) = none)
    (hopen : c ≠ '[') (hclose : c ≠ ']') (hne : before ≠ []) :
    walkBack true found (c :: before) after = walkBack true found before (c :: after) := by
  have hnone : (if found.level = 0 then keywordIn? (keywordWindow (c :: after)) else none) = none := by
    split
    · next h => exact hkey h
    · rfl
  rw [walkBack]
  simp [hnone, hopen, hclose, hne]

theorem walkBack_close (hlevel : found.level = 0) (hkey : keywordIn? (keywordWindow (']' :: after)) = none)
    (hne : before ≠ []) :
    walkBack true found (']' :: before) after =
      walkBack true { found with level := 1, close := before.length } before (']' :: after) := by
  rw [walkBack]
  simp [hlevel, hkey, hne]

theorem walkBack_open (hlevel : found.level = 1) (hne : before ≠ []) :
    walkBack true found ('[' :: before) after =
      walkBack true
        { found with level := 0, range := some (after.take (found.close - (before.length + 1))) } before
        ('[' :: after) := by
  rw [walkBack]
  simp [hlevel, hne]

theorem walkBack_inside (hlevel : found.level ≠ 0) (hne : before ≠ []) (cs : List Char)
    (hcs : ∀ c ∈ cs, c ≠ '[' ∧ c ≠ ']') :
    walkBack true found (cs.reverse ++ before) after = walkBack true found before (cs ++ after) := by
  induction cs using List.reverseRecOn generalizing after with
  | nil => rfl
  | append_singleton cs c ih =>
    obtain ⟨hopen, hclose⟩ := hcs c (by simp)
    rw [reverse_concat, cons_append,
      walkBack_step (fun h => absurd h hlevel) hopen hclose (by simp [hne]),
      ih fun d hd => hcs d (mem_append_left _ hd), append_assoc, singleton_append]

/-- The walk ends at a keyword if no other one is read on the way to it. -/
theorem walkBack_keyword {kind : NetKind} {range : List Char} (hlevel : found.level = 0)
    (hrange : found.range = some range) (cs : List Char) (hcs : ∀ c ∈ cs, c ≠ '[' ∧ c ≠ ']')
    (hkey : (keywordIn? (keywordWindow (cs ++ after))).isSome)
    (honly : ∀ k q, q <:+ cs → q ≠ [] → keywordIn? (keywordWindow (q ++ after)) = some k → k = kind)
    (hne : cs ≠ []) :
    walkBack true found (cs.reverse ++ before) after = .ok (some range, some kind) := by
  induction cs using List.reverseRecOn generalizing after with
  | nil => exact absurd rfl hne
  | append_singleton cs c ih =>
    obtain ⟨hopen, hclose⟩ := hcs c (by simp)
    rw [reverse_concat, cons_append]
    cases hwindow : keywordIn? (keywordWindow (c :: after)) with
    | some k =>
      obtain rfl := honly k [c] (suffix_append _ _) (cons_ne_nil _ _) hwindow
      rw [walkBack]
      simp [hlevel, hwindow, hrange]
    | none =>
      have hrest : cs ≠ [] := by
        rintro rfl
        rw [nil_append, singleton_append, hwindow] at hkey
        cases hkey
      rw [walkBack_step (fun _ => hwindow) hopen hclose (by simp [hrest])]
      refine ih (fun d hd => hcs d (mem_append_left _ hd)) ?_ ?_ hrest
      · rwa [append_assoc, singleton_append] at hkey
      · intro k q hq hqne hread
        refine honly k (q ++ [c]) ?_ (by simp) (by rwa [append_assoc, singleton_append])
        obtain ⟨p, rfl⟩ := hq
        exact ⟨p, by rw [append_assoc]⟩

end

/-! ### Declarations -/

/-- A declaration of a net with a range, as it is written. -/
structure Declaration where
  kind : NetKind
  high : List Char
  low : List Char
  name : List Char
  high_plain : ∀ c ∈ high, c ≠ '[' ∧ c ≠ ']' ∧ c ≠ ':'
  low_plain : ∀ c ∈ low, c ≠ '[' ∧ c ≠ ']' ∧ c ≠ ':'
  name_ne_nil : name ≠ []
  name_word : ∀ c ∈ name, isWordChar c = true
  name_ne_keyword : ∀ k : NetKind, name ≠ k.keyword.toList

namespace Declaration

variable (d : Declaration)

/-- The text between the brackets. -/
def range : List Char := d.high ++ ':' :: d.low

/-- The text in front of the name. -/
def lead : List Char := d.kind.keyword.toList ++ ' ' :: '[' :: (d.range ++ [']', ' '])

theorem range_plain : ∀ c ∈ d.range, c ≠ '[' ∧ c ≠ ']' := by
  intro c hc
  rcases mem_append.mp hc with hc | hc
  · exact ⟨(d.high_plain c hc).1, (d.high_plain c hc).2.1⟩
  · rcases mem_cons.mp hc with rfl | hc
    · decide
    · exact ⟨(d.low_plain c hc).1, (d.low_plain c hc).2.1⟩

theorem boundsOf_range : boundsOf d.range = some ⟨String.ofList d.high, String.ofList d.low⟩ := by
  have hhigh : ':' ∉ d.high := fun h => (d.high_plain _ h).2.2 rfl
  have hlow : ':' ∉ d.low := fun h => (d.low_plain _ h).2.2 rfl
  rw [boundsOf, range, splitChars_append, splitChars_of_not_mem hhigh, splitChars_of_not_mem hlow]
  rfl

variable {d} {after : List Char}

/-- A window around the name reads no keyword: none of more than three characters starts the name, nor
stands in reach behind it. -/
structure Clear (d : Declaration) (after : List Char) : Prop where
  behind : ∀ c ∈ after.head?, isWordChar c = false
  start : ∀ k : NetKind, k ≠ .reg → ¬ k.keyword.toList <+: d.name
  reach : ∀ k : NetKind, ¬ k.keyword.toList <:+: after.take (NetKind.window - d.name.length)

theorem Clear.not_reads (h : d.Clear after) {m : Nat} (hlo : 4 ≤ m) (hhi : m ≤ NetKind.window) (k : NetKind) :
    ¬ Reads k.keyword.toList ((d.name ++ after).take m) := by
  have hname : ¬ Reads k.keyword.toList (d.name.take m) := by
    intro hread
    have heq := hread.eq_of_word fun c hc => d.name_word c (mem_of_mem_take hc)
    rcases Nat.lt_or_ge m d.name.length with hlt | hge
    · -- a window that cuts the name short has at least four characters of it
      have hlen : k.keyword.toList.length = m := by rw [heq, length_take]; omega
      refine h.start k ?_ (heq ▸ take_prefix m d.name)
      rintro rfl
      have : NetKind.reg.keyword.toList.length = 3 := rfl
      omega
    · rw [take_of_length_le hge] at heq
      exact d.name_ne_keyword k heq.symm
  intro hread
  cases after with
  | nil => exact hname (by rwa [append_nil] at hread)
  | cons s after =>
    rcases hread.of_take_separated k.isWordChar_keyword k.keyword_ne_nil (h.behind s rfl) with hread | hread
    · exact hname hread
    · refine h.reach k (hread.isInfix.trans ?_)
      cases hwidth : NetKind.window - d.name.length with
      | zero =>
        rw [show m - (d.name.length + 1) = 0 by omega]
        exact infix_refl _
      | succ j =>
        rw [take_succ_cons]
        exact (take_prefix_take (by omega)).isInfix.trans (infix_cons (infix_refl _))

/-- In front of the range a window reads the keyword of the declaration or none. -/
theorem eq_kind_of_reads (hrange : ∀ k : NetKind, k ≠ d.kind → ¬ k.keyword.toList <:+: d.range.take 4)
    {k : NetKind} {u rest : List Char} (hu : u <:+ d.kind.keyword.toList)
    (hread : Reads k.keyword.toList ((u ++ ' ' :: '[' :: (d.range ++ ']' :: rest)).take NetKind.window)) :
    k = d.kind := by
  have hlen := k.length_keyword
  have hulen := hu.length_le.trans d.kind.length_keyword.2
  rcases hread.of_take_separated k.isWordChar_keyword k.keyword_ne_nil (by decide) with hread | hread
  · rw [take_of_length_le hulen] at hread
    have heq := hread.eq_of_word fun c hc => d.kind.isWordChar_keyword c (hu.subset hc)
    exact NetKind.eq_of_suffix (heq ▸ hu)
  · rcases (show Reads k.keyword.toList (([] ++ '[' :: (d.range ++ ']' :: rest)).take _) from hread).of_take_separated
      k.isWordChar_keyword k.keyword_ne_nil (by decide) with hread | hread
    · have := hread.length_le
      rw [take_nil, length_nil] at this
      omega
    · rcases hread.of_take_separated k.isWordChar_keyword k.keyword_ne_nil (by decide) with hread | hread
      · by_contra hne
        refine hrange k hne (hread.isInfix.trans (take_prefix_take ?_).isInfix)
        unfold NetKind.window
        omega
      · -- behind the range too few characters are left
        have hpos : 1 ≤ d.range.length := by
          rw [range, length_append, length_cons]
          omega
        have := hread.length_le.trans (length_take_le _ _)
        unfold NetKind.window at this
        simp only [length_nil] at this
        omega

theorem Clear.not_keywordIn? (h : d.Clear after) {cs : List Char}
    (hcs : cs = [] ∨ cs = [' '] ∨ cs = [']', ' ']) :
    keywordIn? (keywordWindow (cs ++ (d.name ++ after))) = none := by
  rw [Option.eq_none_iff_forall_ne_some]
  intro k hk
  have hread := reads_of_keywordIn? hk
  have hlen := k.length_keyword
  rcases hcs with rfl | rfl | rfl
  · exact h.not_reads (by decide) (Nat.le_refl _) k hread
  · rcases (show Reads _ (([] ++ ' ' :: (d.name ++ after)).take _) from hread).of_take_separated
      k.isWordChar_keyword k.keyword_ne_nil (by decide) with hread | hread
    · have := hread.length_le
      rw [take_nil, length_nil] at this
      omega
    · exact h.not_reads (by decide) (by decide) k hread
  · rcases (show Reads _ (([']'] ++ ' ' :: (d.name ++ after)).take _) from hread).of_take_separated
      k.isWordChar_keyword k.keyword_ne_nil (by decide) with hread | hread
    · have := hread.length_le.trans (length_take_le' _ _)
      rw [length_singleton] at this
      omega
    · exact h.not_reads (by decide) (by decide) k hread

section

variable (hclear : d.Clear after) (before : List Char)
  (hrange : ∀ k : NetKind, k ≠ d.kind → ¬ k.keyword.toList <:+: d.range.take 4)

include hclear before hrange

/-- The walk back from the name of a declaration finds its range and its kind. -/
theorem walkBack_declaration :
    walkBack true {} (before ++ d.lead).reverse (d.name ++ after) = .ok (some d.range, some d.kind) := by
  have hlead : (before ++ d.lead).reverse =
      ' ' :: ']' :: (d.range.reverse ++ '[' :: ((d.kind.keyword.toList ++ [' ']).reverse ++ before.reverse)) := by
    simp [lead]
  have hblank : keywordIn? (keywordWindow (' ' :: (d.name ++ after))) = none :=
    hclear.not_keywordIn? (.inr (.inl rfl))
  have hclose : keywordIn? (keywordWindow (']' :: ' ' :: (d.name ++ after))) = none :=
    hclear.not_keywordIn? (.inr (.inr rfl))
  rw [hlead, walkBack_step (fun _ => hblank) (by decide) (by decide) (by simp), walkBack_close rfl hclose (by simp),
    walkBack_inside (by simp) (by simp) _ d.range_plain, walkBack_open rfl (by simp)]
  refine walkBack_keyword rfl ?_ _ ?_ ?_ ?_ (by simp)
  · -- the place of the closing bracket gives the length of the range
    have hplace : (d.range.reverse ++ '[' :: ((d.kind.keyword.toList ++ [' ']).reverse ++ before.reverse)).length -
        (((d.kind.keyword.toList ++ [' ']).reverse ++ before.reverse).length + 1) = d.range.length := by
      simp only [length_append, length_cons, length_reverse]
      omega
    simp only [hplace, take_left]
  · intro c hc
    rcases mem_append.mp hc with hc | hc
    · exact d.kind.keyword_plain c hc
    · rw [mem_singleton.mp hc]
      decide
  · refine keywordIn?_isSome (k := d.kind) ?_
    rw [append_assoc]
    refine d.kind.reads_keyword fun c hc => ?_
    obtain rfl : ' ' = c := Option.some.inj hc
    decide
  · intro k q hq hne hk
    obtain ⟨u, rfl, hu⟩ := (suffix_concat_iff.mp hq).resolve_left hne
    have hread := reads_of_keywordIn? hk
    rw [append_assoc, singleton_append] at hread
    exact eq_kind_of_reads hrange hu hread

theorem findRange_declaration :
    findRange (before ++ d.lead ++ d.name ++ after) (before ++ d.lead).length true =
      .ok (some d.range, some d.kind) := by
  have hwalk := walkBack_declaration hclear before hrange
  have hkey : keywordIn? (keywordWindow (d.name ++ after)) = none := hclear.not_keywordIn? (.inl rfl)
  have hlead : before ++ d.lead ≠ [] := by simp [lead]
  obtain ⟨c, name, hname⟩ := exists_cons_of_ne_nil d.name_ne_nil
  have hc : isWordChar c = true := d.name_word c (by simp [hname])
  have hopen : c ≠ '[' := by
    rintro rfl
    revert hc
    decide
  have hclose : c ≠ ']' := by
    rintro rfl
    revert hc
    decide
  rw [hname] at hwalk hkey ⊢
  generalize before ++ d.lead = lead at *
  have htake : (lead ++ c :: name ++ after).take (lead.length + 1) = lead ++ [c] := by
    rw [append_assoc, take_append, take_of_length_le (Nat.le_succ _)]
    simp
  have hdrop : (lead ++ c :: name ++ after).drop (lead.length + 1) = name ++ after := by
    rw [append_assoc, drop_append, drop_of_length_le (Nat.le_succ _)]
    simp
  unfold findRange
  rw [if_neg (by omega), Int.toNat_natCast, if_neg (by simp)]
  simp only [htake, hdrop, reverse_concat]
  exact (walkBack_step (fun _ => hkey) hopen hclose (by simpa using hlead)).trans hwalk

end

/-- **A declaration is read back**: where no window around the name reads a keyword, and no other one
stands at the start of the range, bounds and kind of a net are found as written. -/
theorem widthAndKind_declaration (d : Declaration) (before after : List Char) (hclear : d.Clear after)
    (hrange : ∀ k : NetKind, k ≠ d.kind → ¬ k.keyword.toList <:+: d.range.take 4) :
    widthAndKind (before ++ d.lead ++ d.name ++ after) (before ++ d.lead).length =
      .ok (some ⟨String.ofList d.high, String.ofList d.low⟩, some d.kind) := by
  have hbounds : boundsOf? (some d.range) = .ok (some ⟨String.ofList d.high, String.ofList d.low⟩) := by
    rw [boundsOf?, d.boundsOf_range]
  unfold widthAndKind
  rw [findRange_declaration hclear before hrange]
  show (boundsOf? (some d.range) >>= fun bounds => pure (bounds, some d.kind)) = _
  rw [hbounds]
  rfl

/-- A declaration with a keyword at the start of its name. -/
def ofPort : Declaration where
  kind := .output
  high := ['N', '-', '1']
  low := ['0']
  name := ['r', 'e', 'g', 'A']
  high_plain := by simp
  low_plain := by simp
  name_ne_nil := by decide
  name_word := all_eq_true.mp (by decide)
  name_ne_keyword := by
    intro k
    cases k <;> decide +kernel

theorem widthAndKind_declaration_ofPort :
    ofPort.Clear ";\nreg b;".toList ∧
      (∀ k : NetKind, k ≠ ofPort.kind → ¬ k.keyword.toList <:+: ofPort.range.take 4) ∧
      widthAndKind ("(".toList ++ ofPort.lead ++ ofPort.name ++ ";\nreg b;".toList) ("(".toList ++ ofPort.lead).length =
        .ok (some ⟨String.ofList ofPort.high, String.ofList ofPort.low⟩, some ofPort.kind) := by
  have hclear : ofPort.Clear ";\nreg b;".toList := by
    refine ⟨fun c hc => ?_, fun k => ?_, fun k => ?_⟩
    · obtain rfl : ';' = c := Option.some.inj hc
      decide
    · cases k <;> decide +kernel
    · cases k <;> decide +kernel
  have hrange : ∀ k : NetKind, k ≠ ofPort.kind → ¬ k.keyword.toList <:+: ofPort.range.take 4 := by
    intro k
    cases k <;> decide +kernel
  exact ⟨hclear, hrange, widthAndKind_declaration ofPort "(".toList ";\nreg b;".toList hclear hrange⟩

/-- A window reaches behind a short name: a net of eight bits is taken for one bit. -/
theorem widthAndKind_short_name :
    widthAndKind "reg [7:0] a;\nreg [7:0] b;".toList 10 = .ok (some ⟨"0", "0"⟩, some .reg) := by
  decide +kernel

/-- A window cuts a name short: a register is taken for an output. -/
example : widthAndKind "reg [7:0] outputs;".toList 10 = .ok (some ⟨"0", "0"⟩, some .output) := by
  decide +kernel

/-- A window reads a keyword in the range: a wire is taken for a register. -/
example : widthAndKind "wire [reg_w:0] foo;".toList 15 = .ok (some ⟨"reg_w", "0"⟩, some .reg) := by
  decide +kernel

end Declaration

end Source

end RegisterMap
