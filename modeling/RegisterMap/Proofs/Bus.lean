import Mathlib.Algebra.Order.Ring.Nat
import RegisterMap.Proofs.Table
import RegisterMap.Proofs.Workspace.Run

/-! # The union of busses

A port is set once, and the width that goes with it is then the width of the bus (`Bus.setPort_cases`).
So a bus that was made by setting ports is coherent (`Bus.Built.coherent`): what is set is listed, goes
by a name that is read back (`PortKey.parse_name`), and has its width.

The bus of ports of a list of busses is made in two steps.  The ports and the widths are collected,
which works for busses that can be used and have the same widths (`Bus.Common.Of.collect`), and the
ports are set on a new bus (`Bus.Filled.addPorts`).  Both steps are there exactly when the busses fit
together, and the order of the busses is not seen in the result (`Bus.union_ok_iff`). -/

namespace RegisterMap

open List Result

/-! ### Names of ports -/

namespace Text

theorem decimalValue_of_isDigit {c : Char} (h : c.isDigit = true) :
    decimalValue c = some (c.toNat - '0'.toNat) := by
  have hle : c.toNat ≤ 57 := (Char.isDigit_iff_toNat.mp h).2
  have ha : isAscii c = true := decide_eq_true (by omega)
  simp [decimalValue, ha, h]

theorem decimalValue_lt {c : Char} {v : Nat} (h : decimalValue c = some v) : v < 10 := by
  unfold decimalValue at h
  split at h
  · split at h
    · rename_i hd
      have hle : c.toNat ≤ 57 := (Char.isDigit_iff_toNat.mp hd).2
      have hv : c.toNat - 48 = v := Option.some.inj h
      omega
    · cases h
  · obtain ⟨z, hz, rfl⟩ := Option.map_eq_some_iff.mp h
    have := find?_some hz
    simp only [Bool.and_eq_true, decide_eq_true_eq] at this
    omega

theorem decimalOfDigits_lt (cs : List Char) : decimalOfDigits cs < 10 ^ cs.length := by
  -- The digits are read from the left, so the number read before them is in the statement.
  suffices key : ∀ n, cs.foldl (fun n c => n * 10 + (decimalValue c).getD 0) n <
      (n + 1) * 10 ^ cs.length by
    simpa [decimalOfDigits] using key 0
  induction cs with
  | nil => simp
  | cons c cs ih =>
    intro n
    have hc : (decimalValue c).getD 0 < 10 := by
      cases h : decimalValue c with
      | none => decide
      | some v => exact decimalValue_lt h
    refine Nat.lt_of_lt_of_le (ih _) ?_
    rw [length_cons, Nat.pow_succ, Nat.mul_comm _ 10, ← Nat.mul_assoc]
    exact Nat.mul_le_mul_right _ (show n * 10 + (decimalValue c).getD 0 + 1 ≤ (n + 1) * 10 by omega)

theorem decimalOfDigits_toDigits (n : Nat) : decimalOfDigits (Nat.toDigits 10 n) = n := by
  calc decimalOfDigits (Nat.toDigits 10 n)
      = (Nat.toDigits 10 n).foldl (fun m c => 10 * m + (c.toNat - '0'.toNat)) 0 := by
        refine foldl_ext _ _ _ fun m c hc => ?_
        have hd := Nat.isDigit_of_mem_toDigits (by decide) (by decide) hc
        rw [decimalValue_of_isDigit hd, Option.getD_some, Nat.mul_comm]
    _ = n := by rw [← Nat.ofDigitChars_eq_foldl, Nat.ofDigitChars_ten_toDigits]

theorem isDecimal_of_mem_toDigits {n : Nat} {c : Char} (hc : c ∈ Nat.toDigits 10 n) :
    isDecimal c = true := by
  have hd := Nat.isDigit_of_mem_toDigits (by decide) (by decide) hc
  rw [isDecimal, decimalValue_of_isDigit hd, Option.isSome_some]

end Text

theorem Number.ofDigits_toDigits {n : Nat} (h : n < 10 ^ maxDigits) :
    ofDigits (Nat.toDigits 10 n) = .ok n := by
  have hlen : (Nat.toDigits 10 n).length ≤ maxDigits :=
    (Nat.length_toDigits_le_iff (by decide) (by decide)).mpr h
  rw [ofDigits, if_neg (by omega), Text.decimalOfDigits_toDigits]

namespace PortKey

variable {start name request : String} {n : Nat} {key : PortKey}

theorem extraNumber_of_dropStart? {rest : String} (h : Text.dropStart? name start = some rest) :
    extraNumber start name = (Number.ofDigits (rest.toList.takeWhile Text.isDecimal)).map some := by
  rw [extraNumber, h]
  rfl

theorem extraNumber_lt (h : extraNumber start name = .ok (some n)) : n < 10 ^ Number.maxDigits := by
  cases hd : Text.dropStart? name start with
  | none => simp [extraNumber, hd] at h; cases h
  | some rest =>
    rw [extraNumber_of_dropStart? hd, Number.ofDigits] at h
    split at h <;> cases h
    exact Nat.lt_of_lt_of_le (Text.decimalOfDigits_lt _) (Nat.pow_le_pow_right (by decide) (by omega))

theorem extraNumber_append (h : n < 10 ^ Number.maxDigits) :
    extraNumber start (start ++ toString n) = .ok (some n) := by
  have hd : Text.dropStart? (start ++ toString n) start = some (toString n) := by
    simp [Text.dropStart?, Text.startsWith, ← String.length_toList, Nat.repr_eq_ofList_toDigits]
  have htake : (Nat.toDigits 10 n ++ []).takeWhile Text.isDecimal = Nat.toDigits 10 n ++ [] :=
    takeWhile_append_of_pos fun c hc => Text.isDecimal_of_mem_toDigits hc
  rw [append_nil] at htake
  rw [extraNumber_of_dropStart? hd, Nat.toString_eq_repr, Nat.toList_repr, htake,
    Number.ofDigits_toDigits h]
  rfl

def number : PortKey → Nat
  | extraIn n | extraOut n => n
  | _ => 0

theorem number_lt (h : parse request = .ok key) : key.number < 10 ^ Number.maxDigits := by
  obtain ⟨found, hfound, h⟩ := bind_ok h
  cases found with
  | some key' =>
    cases h
    obtain ⟨n, hn, h⟩ := bind_ok hfound
    cases n with
    | some n =>
      cases h
      exact extraNumber_lt hn
    | none =>
      obtain ⟨m, hm, h⟩ := bind_ok h
      obtain ⟨m, rfl, rfl⟩ := Option.map_eq_some_iff.mp (Except.ok.inj h)
      exact extraNumber_lt hm
  | none =>
    cases hget : Table.get? requestNames request with
    | none => rw [hget] at h; cases h
    | some key' =>
      rw [hget] at h
      cases h
      obtain ⟨_, hmem, -⟩ := Table.mem_of_get? hget
      have hzero : ∀ e ∈ requestNames, e.2.number = 0 := by decide
      rw [hzero _ hmem]
      exact Nat.pow_pos (by decide)

theorem parse_name (h : parse request = .ok key) : parse key.name = .ok key := by
  cases key with
  | extraIn n =>
    have hn : extraNumber "extra_in" (extraIn n).name = .ok (some n) := extraNumber_append (number_lt h)
    rw [parse, extra, hn]
    rfl
  | extraOut n =>
    have hno : extraNumber "extra_in" (extraOut n).name = .ok none := by
      simp [extraNumber, Text.dropStart?, Text.startsWith, PortKey.name]
      rfl
    have hn : extraNumber "extra_out" (extraOut n).name = .ok (some n) := extraNumber_append (number_lt h)
    rw [parse, extra, hno, bind_of_ok rfl, hn]
    rfl
  | _ => rfl

end PortKey

namespace Bus

variable {b b' : Bus} {bs : List Bus} {key : PortKey} {request net : String} {width : Int}
  {range : Option Source.Bounds} {source : Value}

/-! ### Setting a port -/

/-- The bus has one port more, and the width that goes with it. -/
structure Gains (b b' : Bus) (key : PortKey) (net : String) (width : Int) : Prop where
  net? : ∀ k, b'.net? k = if k = key then some net else b.net? k
  keys : b'.keys = if key ∈ b.keys then b.keys else b.keys ++ [key]
  width? : ∀ w, b'.width? w = if BusWidth.of? key = some w then some width else b.width? w

/-- A width of the bus that a port contradicts. -/
def Refuses (b : Bus) (key : PortKey) (width : Int) : Prop :=
  ∃ w old, BusWidth.of? key = some w ∧ b.width? w = some old ∧ old ≠ width

theorem nets_note (b : Bus) (a : Addition) : (b.note a).nets = b.nets := by
  unfold note
  split <;> rfl

theorem width?_note (b : Bus) (a : Addition) (w : BusWidth) : (b.note a).width? w = b.width? w := by
  unfold note
  split <;> rfl

theorem keys_note_range (b : Bus) (w : BusWidth) : (b.note (.range w)).keys = b.keys := by
  unfold note
  split
  · rfl
  · simp [Bus.keys]

/-- The bus with a port in its list. -/
def know (b : Bus) (key : PortKey) : Bus := if key.isExtra then b.note (.port key) else b

theorem nets_know (b : Bus) (key : PortKey) : (b.know key).nets = b.nets := by
  unfold know
  split
  · exact nets_note b _
  · rfl

theorem width?_know (b : Bus) (key : PortKey) (w : BusWidth) : (b.know key).width? w = b.width? w := by
  unfold know
  split
  · exact width?_note b _ w
  · rfl

theorem keys_know (b : Bus) (key : PortKey) :
    (b.know key).keys = if key ∈ b.keys then b.keys else b.keys ++ [key] := by
  unfold know
  cases hx : key.isExtra with
  | false =>
    have hmem : key ∈ PortKey.standard := by cases key <;> simp_all [PortKey.isExtra, PortKey.standard]
    exact (if_pos (show key ∈ b.keys from mem_append_left _ hmem)).symm
  | true =>
    have hkey : key ∉ PortKey.standard := by cases key <;> simp_all [PortKey.isExtra, PortKey.standard]
    have hmem : key ∈ b.keys ↔ Addition.port key ∈ b.additions := by
      simp only [Bus.keys, mem_append, hkey, false_or, mem_filterMap]
      constructor
      · rintro ⟨_ | _, ha, h⟩ <;> cases h
        exact ha
      · exact fun h => ⟨_, h, rfl⟩
    simp only [note, contains_eq_mem, decide_eq_true_eq, ← hmem, if_true]
    split
    · rfl
    · simp [Bus.keys]

theorem widen_cases (b : Bus) (key : PortKey) (width : Int) (range : Option Source.Bounds) :
    (b.Refuses key width ∧ ∃ e, b.widen key width range = (b, .error e)) ∨
      ∃ b', b.widen key width range = (b', .ok ()) ∧ b'.nets = b.nets ∧ b'.keys = b.keys ∧
        ∀ w, b'.width? w = if BusWidth.of? key = some w then some width else b.width? w := by
  have hset : ∀ w, (widen.set b width range w).nets = b.nets ∧
      (widen.set b width range w).keys = b.keys ∧
      ∀ v, (widen.set b width range w).width? v = if w = v then some width else b.width? v := by
    intro w
    cases range with
    | none => cases w <;> exact ⟨rfl, rfl, fun v => by cases v <;> rfl⟩
    | some r =>
      cases w
      all_goals exact ⟨nets_note _ _, keys_note_range _ _, fun v =>
        (width?_note _ _ v).trans (by cases v <;> rfl)⟩
  unfold widen
  cases hw : BusWidth.of? key with
  | none => exact .inr ⟨b, rfl, rfl, rfl, by simp⟩
  | some w =>
    simp only [Option.some.injEq]
    cases hold : b.width? w with
    | none => exact .inr ⟨_, rfl, hset w⟩
    | some old =>
      by_cases h : old = width
      · exact .inr ⟨_, by simp [h], hset w⟩
      · exact .inl ⟨⟨w, old, hw, hold, h⟩, _, by simp [h]; rfl⟩

theorem setPort_cases (net : String) (width : Int) (range : Option Source.Bounds) (source : Value)
    (hp : PortKey.parse request = .ok key) (hn : b.net? key = none) :
    (b.Refuses key width ∧ ∃ b' e, b.setPort request net width range source = (b', .error e)) ∨
      ∃ b', b.setPort request net width range source = (b', .ok key) ∧ b.Gains b' key net width := by
  have hn' : Table.get? b.nets key = none := Option.map_eq_none_iff.mp hn
  have hset : b.setPort request net width range source =
      let done := { b.know key with
        nets := Table.put (b.know key).nets key ⟨net, source⟩ }.widen key width range
      (done.1, done.2.map fun _ => key) := by
    unfold setPort
    rw [hp]
    dsimp only
    rw [hn']
    rfl
  rw [hset]
  rcases widen_cases { b.know key with nets := Table.put (b.know key).nets key ⟨net, source⟩ }
    key width range with ⟨⟨w, old, hw, hold, hne⟩, err, h⟩ | ⟨b', h, hnets, hkeys, hwidth⟩
  · exact .inl ⟨⟨w, old, hw, (b.width?_know key w).symm.trans hold, hne⟩, _, err, by rw [h]; rfl⟩
  · refine .inr ⟨b', by rw [h]; rfl, fun k => ?_, hkeys.trans (b.keys_know key), fun w => ?_⟩
    · unfold Bus.net?
      rw [hnets, nets_know]
      split
      · rename_i hk
        rw [hk, Table.get?_put_self]
        rfl
      · rename_i hk
        rw [Table.get?_put_of_ne _ _ (Ne.symm hk)]
    · rw [hwidth]
      exact if_congr Iff.rfl rfl (b.width?_know key w)

theorem setPort_ok (h : b.setPort request net width range source = (b', .ok key)) :
    PortKey.parse request = .ok key ∧ b.Gains b' key net width := by
  cases hp : PortKey.parse request with
  | error e => rw [setPort, hp] at h; cases h
  | ok k =>
    cases hn : Table.get? b.nets k with
    | some old =>
      rw [setPort, hp] at h
      dsimp only at h
      rw [hn] at h
      dsimp only at h
      split at h <;> cases h
    | none =>
      rcases setPort_cases net width range source hp (Option.map_eq_none_iff.mpr hn)
        with ⟨-, b1, e, h1⟩ | ⟨b1, h1, hgain⟩ <;>
        cases h.symm.trans h1
      exact ⟨rfl, hgain⟩

/-- A bus that was made by setting ports, each of which was taken. -/
inductive Built : Bus → Prop
  | new (name : Value) : Built { name := name }
  | setPort {b b' : Bus} {key : PortKey} (request net : String) (width : Int)
      (range : Option Source.Bounds) (source : Value) : Built b →
      b.setPort request net width range source = (b', .ok key) → Built b'

/-- Ports that are set are known by name and listed once, and so is a width with one of its ports. -/
structure Coherent (b : Bus) : Prop where
  nodup : b.keys.Nodup
  known : ∀ k, b.net? k ≠ none → k ∈ b.keys ∧ PortKey.parse k.name = .ok k
  width : ∀ w, b.width? w ≠ none ↔ ∃ k, BusWidth.of? k = some w ∧ b.net? k ≠ none

theorem Gains.nodup_keys (h : b.Gains b' key net width) (hb : b.keys.Nodup) : b'.keys.Nodup := by
  rw [h.keys]
  split
  · exact hb
  · rename_i hk
    exact List.Nodup.append hb (nodup_singleton _) (by simpa using hk)

theorem Gains.mem_keys (h : b.Gains b' key net width) {k : PortKey} :
    k ∈ b'.keys ↔ k = key ∨ k ∈ b.keys := by
  rw [h.keys]
  split
  · rename_i hk
    exact ⟨.inr, fun h => h.elim (fun h => h ▸ hk) id⟩
  · simp [or_comm]

theorem Built.coherent (h : b.Built) : b.Coherent := by
  induction h with
  | new name =>
    refine ⟨show PortKey.standard.Nodup by decide, fun k hk => absurd rfl hk, fun w => ?_⟩
    cases w <;> simp [width?, net?, Table.get?]
  | @setPort b b' key _ _ _ _ _ _ h ih =>
    obtain ⟨hp, h⟩ := setPort_ok h
    refine ⟨h.nodup_keys ih.nodup, fun k hk => ?_, fun w => ?_⟩
    · rw [h.net?] at hk
      split at hk
      · rename_i heq
        exact heq ▸ ⟨h.mem_keys.mpr (.inl rfl), PortKey.parse_name hp⟩
      · obtain ⟨hmem, hname⟩ := ih.known k hk
        exact ⟨h.mem_keys.mpr (.inr hmem), hname⟩
    · rw [h.width?]
      split
      · rename_i hw
        simp only [ne_eq, reduceCtorEq, not_false_eq_true, true_iff]
        exact ⟨key, hw, by rw [h.net?, if_pos rfl]; simp⟩
      · rename_i hw
        rw [ih.width]
        refine exists_congr fun k => and_congr_right fun hk => ?_
        rw [h.net?, if_neg (fun he : k = key => hw (he ▸ hk))]

/-! ### Busses that can be used -/

/-- Clock, address, a data port, and an enable or the write strobe are set. -/
def Usable (b : Bus) : Prop :=
  b.net? .clk ≠ none ∧ b.net? .addr ≠ none ∧ (b.net? .din ≠ none ∨ b.net? .dout ≠ none) ∧
    (b.net? .we ≠ none ∨ b.net? .re ≠ none ∨ b.net? .wstb ≠ none)

theorem validate_iff (b : Bus) : b.validate.2.1 = true ↔ b.Usable := by
  have hmissing : (b.keys.filter fun key => key.isMandatory && (b.net? key).isNone) = [] ↔
      b.net? .clk ≠ none ∧ b.net? .addr ≠ none := by
    rw [filter_eq_nil_iff]
    constructor
    · intro h
      have hclk := h .clk (mem_append_left _ (by decide))
      have haddr := h .addr (mem_append_left _ (by decide))
      simpa [PortKey.isMandatory] using And.intro hclk haddr
    · rintro ⟨hclk, haddr⟩ k -
      cases k <;> simp_all [PortKey.isMandatory]
  have htriggers : (∃ t, b.triggers = .ok t) ↔
      (b.net? .we ≠ none ∨ b.net? .re ≠ none ∨ b.net? .wstb ≠ none) := by
    unfold triggers
    split <;> simp_all
  unfold validate Usable
  by_cases hm : (b.keys.filter fun key => key.isMandatory && (b.net? key).isNone) = []
  · obtain ⟨hclk, haddr⟩ := hmissing.mp hm
    rw [← htriggers]
    cases ht : b.triggers <;> cases hi : b.net? .din <;> cases ho : b.net? .dout <;>
      simp [hm, hclk, haddr]
  · have := mt hmissing.mpr hm
    simp [hm]
    tauto

theorem Coherent.width_of_usable (hb : b.Coherent) (hu : b.Usable) (w : BusWidth) :
    b.width? w ≠ none := by
  obtain ⟨-, haddr, hdata, -⟩ := hu
  rw [hb.width]
  cases w with
  | address => exact ⟨.addr, rfl, haddr⟩
  | data => exact hdata.elim (⟨.din, rfl, ·⟩) (⟨.dout, rfl, ·⟩)

/-! ### What busses have in common -/

/-- A width of the busses that were looked at; none before the first of them. -/
def Common.width? (c : Common) : BusWidth → Option (Option Int)
  | .address => c.addrWidth.map Prod.fst
  | .data => c.dataWidth.map Prod.fst

theorem agree_ok {what : String} {w : Option Int} {seen seen' : Option (Option Int × Value)}
    (hw : w ≠ none) (h : agree b what w seen = .ok seen') :
    seen'.map Prod.fst = some w ∧ (seen.map Prod.fst = none ∨ seen.map Prod.fst = some w) := by
  cases seen with
  | none =>
    obtain ⟨v, rfl⟩ := Option.ne_none_iff_exists'.mp hw
    cases h
    exact ⟨rfl, .inl rfl⟩
  | some s =>
    rw [agree] at h
    split at h
    · cases h
      simp_all
    · cases h

theorem agree_of (b : Bus) (what : String) {w : Option Int} {seen : Option (Option Int × Value)}
    (h : seen.map Prod.fst = none ∨ seen.map Prod.fst = some w) :
    ∃ seen', agree b what w seen = .ok seen' := by
  rcases seen with _ | ⟨v, owner⟩
  · exact ⟨_, rfl⟩
  · obtain rfl : v = w := by simpa using h
    exact ⟨_, if_pos rfl⟩

/-- What was collected from the busses of a list. -/
structure Common.Of (c : Common) (bs : List Bus) : Prop where
  nodup : c.ports.Nodup
  mem : ∀ k, k ∈ c.ports ↔ ∃ b ∈ bs, b.net? k ≠ none
  width : ∀ b ∈ bs, ∀ w, c.width? w = some (b.width? w)
  start : bs = [] → ∀ w, c.width? w = none

theorem Common.of_nil : Common.Of {} [] :=
  ⟨nodup_nil, by simp, by simp, fun _ w => by cases w <;> rfl⟩

/-- One bus more in the collection has the widths of those before it. -/
theorem Common.Of.add_ok {c c' : Common} (hc : c.Of bs) (hb : b.Coherent)
    (hu : b.Usable) (h : c.add b = .ok c') : c'.Of (bs ++ [b]) := by
  obtain ⟨addr', haddr, h⟩ := bind_ok h
  obtain ⟨data', hdata, h⟩ := bind_ok h
  have hwidth : ∀ w, c'.width? w = some (b.width? w) ∧
      (c.width? w = none ∨ c.width? w = some (b.width? w)) := by
    cases h
    intro w
    cases w with
    | address => exact agree_ok (hb.width_of_usable hu .address) haddr
    | data => exact agree_ok (hb.width_of_usable hu .data) hdata
  cases h
  refine ⟨?_, fun k => ?_, fun b' hb' w => ?_, by simp⟩
  · refine List.Nodup.append hc.nodup (hb.nodup.filter _) fun k hk hk' => ?_
    simp_all
  · have hknown : b.net? k ≠ none → k ∈ b.keys := fun hk => (hb.known k hk).1
    simp only [mem_append, hc.mem, mem_filter, mem_singleton, or_and_right, exists_or,
      exists_eq_left, Bool.and_eq_true, Option.isSome_iff_ne_none, Bool.not_eq_true',
      contains_eq_mem, decide_eq_false_iff_not]
    by_cases hk : b.net? k = none
    · simp [hk]
    · simp only [hknown hk, hk, ne_eq, not_false_eq_true, true_and, or_true, Classical.em]
  · rw [(hwidth w).1]
    rcases mem_append.mp hb' with hb' | hb'
    · rcases (hwidth w).2 with hnone | hsome
      · rw [hc.width b' hb'] at hnone
        cases hnone
      · rw [← hsome, hc.width b' hb']
    · rw [mem_singleton.mp hb']

theorem Common.Of.add_of {c : Common} (hc : c.Of bs)
    (h : ∀ b' ∈ bs, ∀ w, b'.width? w = b.width? w) : ∃ c', c.add b = .ok c' := by
  have hwidth : ∀ w, c.width? w = none ∨ c.width? w = some (b.width? w) := by
    intro w
    cases bs with
    | nil => exact .inl (hc.start rfl w)
    | cons b0 bs => exact .inr (by rw [hc.width b0 mem_cons_self, h b0 mem_cons_self])
  obtain ⟨addr', haddr⟩ := agree_of b "address" (hwidth .address)
  obtain ⟨data', hdata⟩ := agree_of b "data" (hwidth .data)
  exact ⟨_, (bind_of_ok haddr _).trans (bind_of_ok hdata _)⟩

theorem collect_cons_ok_iff {c c' : Common} :
    (union.collect c (b :: bs)).2 = .ok c' ↔
      b.Usable ∧ ∃ c1, c.add b = .ok c1 ∧ (union.collect c1 bs).2 = .ok c' := by
  obtain ⟨v, hv⟩ : ∃ v, b.validate.1 = { b with valid := v } := by
    unfold validate
    dsimp only
    split
    · exact ⟨b.valid, rfl⟩
    · exact ⟨_, rfl⟩
  have hadd : c.add b.validate.1 = c.add b := by rw [hv]; rfl
  rw [union.collect, contents, ← validate_iff]
  cases hgood : b.validate.2.1 with
  | false => simp [hgood]
  | true =>
    simp only [hgood, if_true, true_and, hadd]
    cases c.add b <;> simp

/-- The busses are collected exactly if all can be used and have the same widths. -/
theorem Common.Of.collect {c : Common} {seen : List Bus} (hc : c.Of seen)
    (hbs : ∀ b ∈ bs, b.Coherent) :
    (∀ c', (union.collect c bs).2 = .ok c' → (∀ b ∈ bs, b.Usable) ∧ c'.Of (seen ++ bs)) ∧
      ((∀ b ∈ bs, b.Usable) → (∀ b ∈ seen ++ bs, ∀ b' ∈ seen ++ bs, ∀ w, b.width? w = b'.width? w) →
        ∃ c', (union.collect c bs).2 = .ok c') := by
  induction bs generalizing c seen with
  | nil =>
    refine ⟨fun c' h => ?_, fun _ _ => ⟨c, rfl⟩⟩
    cases h
    exact ⟨by simp, by rwa [append_nil]⟩
  | cons b bs ih =>
    obtain ⟨hb, hbs⟩ := forall_mem_cons.mp hbs
    have hlist : seen ++ b :: bs = (seen ++ [b]) ++ bs := by simp
    rw [hlist]
    refine ⟨fun c' h => ?_, fun hu hw => ?_⟩
    · obtain ⟨hu, c1, hadd, h⟩ := collect_cons_ok_iff.mp h
      obtain ⟨hus, hc'⟩ := (ih (hc.add_ok hb hu hadd) hbs).1 c' h
      exact ⟨forall_mem_cons.mpr ⟨hu, hus⟩, hc'⟩
    · obtain ⟨hu, hus⟩ := forall_mem_cons.mp hu
      obtain ⟨c1, hadd⟩ := hc.add_of fun b' hb' w => hw b' (by simp [hb']) b (by simp) w
      obtain ⟨c', h⟩ := (ih (hc.add_ok hb hu hadd) hbs).2 hus hw
      exact ⟨c', collect_cons_ok_iff.mpr ⟨hu, c1, hadd, h⟩⟩

/-! ### The bus of the common ports -/

/-- A bus with the ports of a list, each played by the net of its name. -/
structure Filled (size : BusWidth → Int) (ks : List PortKey) (b : Bus) : Prop where
  built : b.Built
  net : ∀ k, b.net? k = if k ∈ ks then some k.portNet else none
  width : ∀ w v, b.width? w = some v → v = size w

theorem Filled.addPort {size : BusWidth → Int} {ks : List PortKey} (hb : Filled size ks b)
    (hname : PortKey.parse key.name = .ok key) (hnew : key ∉ ks) :
    ∃ b', addPort (size .address) (size .data) b key = .ok b' ∧ Filled size (ks ++ [key]) b' := by
  obtain ⟨width, range, hadd, hwidth⟩ : ∃ width range,
      Bus.addPort (size .address) (size .data) b key =
        (let done := b.setPort key.name key.portNet width range .none
         done.2.map fun _ => done.1) ∧ ∀ w, BusWidth.of? key = some w → width = size w := by
    unfold Bus.addPort
    rcases hw : BusWidth.of? key with _ | (_ | _)
    all_goals exact ⟨_, _, rfl, by simp⟩
  have hnone : b.net? key = none := by simp [hb.net, hnew]
  rcases setPort_cases key.portNet width range .none hname hnone with
    ⟨⟨w, old, hw, hold, hne⟩, -⟩ | ⟨b', hset, hgain⟩
  · exact absurd ((hb.width w old hold).trans (hwidth w hw).symm) hne
  rw [hset] at hadd
  refine ⟨b', hadd, hb.built.setPort _ _ _ _ _ hset, fun k => ?_, fun w v hv => ?_⟩
  · rw [hgain.net?, hb.net]
    by_cases hk : k = key <;> simp [hk]
  · rw [hgain.width?] at hv
    split at hv
    · rename_i hw
      exact (Option.some.inj hv).symm.trans (hwidth w hw)
    · exact hb.width w v hv

theorem Filled.addPorts {size : BusWidth → Int} {ks more : List PortKey} (hb : Filled size ks b)
    (hname : ∀ k ∈ more, PortKey.parse k.name = .ok k) (hnew : (ks ++ more).Nodup) :
    ∃ b', more.foldlM (Bus.addPort (size .address) (size .data)) b = .ok b' ∧
      Filled size (ks ++ more) b' := by
  induction more generalizing ks b with
  | nil => exact ⟨b, rfl, by rwa [append_nil]⟩
  | cons k more ih =>
    obtain ⟨hk, hname⟩ := forall_mem_cons.mp hname
    obtain ⟨b1, hadd, hb1⟩ := hb.addPort hk fun hmem =>
      (nodup_append.mp hnew).2.2 k hmem k mem_cons_self rfl
    rw [append_cons] at hnew ⊢
    obtain ⟨b', h, hb'⟩ := ih hb1 hname hnew
    exact ⟨b', (bind_of_ok hadd _).trans h, hb'⟩

/-- What the union of a list of busses is. -/
theorem union_filled (hne : bs ≠ []) (hbs : ∀ b ∈ bs, b.Coherent)
    (hu : ∀ b ∈ bs, b.Usable) (hw : ∀ b ∈ bs, ∀ b' ∈ bs, ∀ w, b.width? w = b'.width? w) :
    ∃ size ks u, (union bs).2 = .ok u ∧ Filled size ks u ∧
      (∀ k, k ∈ ks ↔ ∃ b ∈ bs, b.net? k ≠ none) ∧ ∀ b ∈ bs, ∀ w, b.width? w = some (size w) := by
  obtain ⟨c, hc⟩ := (Common.of_nil.collect hbs).2 hu hw
  obtain ⟨-, hof⟩ := (Common.of_nil.collect hbs).1 c hc
  obtain ⟨b0, hb0⟩ := exists_mem_of_ne_nil bs hne
  obtain ⟨size, hsize⟩ : ∃ size : BusWidth → Int, ∀ w, b0.width? w = some (size w) :=
    Classical.skolem.mp fun w => Option.ne_none_iff_exists'.mp
      ((hbs b0 hb0).width_of_usable (hu b0 hb0) w)
  obtain ⟨⟨aw, owner⟩, haddr, haw⟩ := Option.map_eq_some_iff.mp (hof.width b0 hb0 .address)
  obtain ⟨⟨dw, owner'⟩, hdata, hdw⟩ := Option.map_eq_some_iff.mp (hof.width b0 hb0 .data)
  have hstart : Filled size [] { name := .text "ports" } :=
    ⟨.new _, by simp [net?, Table.get?], fun w v h => by cases w <;> cases h⟩
  obtain ⟨u, hfold, hfilled⟩ := hstart.addPorts (fun k hk => by
    obtain ⟨b, hb, hk⟩ := (hof.mem k).mp hk
    exact ((hbs b hb).known k hk).2) hof.nodup
  refine ⟨size, c.ports, u, ?_, hfilled, hof.mem, fun b hb w => (hw b hb b0 hb0 w).trans (hsize w)⟩
  obtain rfl : aw = some (size .address) := haw.trans (hsize .address)
  obtain rfl : dw = some (size .data) := hdw.trans (hsize .data)
  show (do
    let c ← (union.collect {} bs).2
    _) = _
  rw [bind_of_ok hc, haddr, hdata]
  exact hfold

theorem Coherent.mem_byDirection {ds : List Direction} {k : PortKey} (hb : b.Coherent) :
    (∃ net, (k, some net) ∈ b.byDirection ds) ↔ k.direction ∈ ds ∧ b.net? k ≠ none := by
  simp only [byDirection, mem_map, mem_filter, Prod.mk.injEq, contains_eq_mem, decide_eq_true_eq]
  constructor
  · rintro ⟨net, k', ⟨-, hd⟩, rfl, hnet⟩
    exact ⟨hd, by simp [hnet]⟩
  · rintro ⟨hd, hk⟩
    obtain ⟨net, hnet⟩ := Option.ne_none_iff_exists'.mp hk
    exact ⟨net, k, ⟨(hb.known k hk).1, hd⟩, rfl, hnet⟩

theorem union_ok {u : Bus} (hbs : ∀ b ∈ bs, b.Coherent) (h : (union bs).2 = .ok u) :
    (∀ b ∈ bs, b.Usable) ∧ ∀ b ∈ bs, ∀ b' ∈ bs, ∀ w, b.width? w = b'.width? w := by
  obtain ⟨c, hc, -⟩ := bind_ok h
  obtain ⟨husable, hof⟩ := (Common.of_nil.collect hbs).1 c hc
  exact ⟨husable, fun b hb b' hb' w =>
    Option.mem_unique (hof.width b hb w) (hof.width b' hb' w)⟩

/-- The bus of ports of a list of busses is there exactly if every bus can be used and all have the
same widths.  It can be used, has the ports in their directions and the common widths, and the order of
the busses does not matter. -/
theorem union_ok_iff (hne : bs ≠ []) (hbs : ∀ b ∈ bs, b.Built) :
    ((∃ u, (union bs).2 = .ok u) ↔ (∀ b ∈ bs, b.validate.2.1 = true) ∧
      ∀ b ∈ bs, ∀ b' ∈ bs, ∀ w, b.width? w = b'.width? w) ∧
    (∀ b ∈ bs, b.validate.2.1 = true ↔ b.Usable) ∧
    ∀ u, (union bs).2 = .ok u →
      u.validate.2.1 = true ∧ (∀ b ∈ bs, ∀ w, u.width? w = b.width? w) ∧
      (∀ ds k, (∃ net, (k, some net) ∈ u.byDirection ds) ↔
        ∃ b ∈ bs, ∃ net, (k, some net) ∈ b.byDirection ds) ∧
      ∀ bs', bs'.Perm bs → ∃ u', (union bs').2 = .ok u' ∧ ∀ k, u'.net? k = u.net? k := by
  have hcoh : ∀ b ∈ bs, b.Coherent := fun b hb => (hbs b hb).coherent
  refine ⟨?_, fun b _ => b.validate_iff, fun u hu => ?_⟩ <;> simp only [validate_iff]
  · refine ⟨fun ⟨u, hu⟩ => union_ok hcoh hu, fun ⟨husable, hw⟩ => ?_⟩
    obtain ⟨_, _, u, hu, -⟩ := union_filled hne hcoh husable hw
    exact ⟨u, hu⟩
  obtain ⟨husable, hw⟩ := union_ok hcoh hu
  obtain ⟨size, ks, v, hv, hfilled, hmem, hsize⟩ := union_filled hne hcoh husable hw
  obtain rfl : v = u := by simpa [hu] using hv.symm
  have hnet : ∀ k, v.net? k ≠ none ↔ ∃ b ∈ bs, b.net? k ≠ none := by
    intro k
    rw [hfilled.net, ← hmem]
    simp
  obtain ⟨b0, hb0⟩ := exists_mem_of_ne_nil bs hne
  have hv' : v.Usable := by
    have hset : ∀ k, b0.net? k ≠ none → v.net? k ≠ none := fun k hk => (hnet k).mpr ⟨b0, hb0, hk⟩
    obtain ⟨hclk, haddr, hdata, henable⟩ := husable b0 hb0
    exact ⟨hset _ hclk, hset _ haddr, hdata.imp (hset _) (hset _),
      henable.imp (hset _) (Or.imp (hset _) (hset _))⟩
  refine ⟨hv', fun b hb w => ?_, fun ds k => ?_, fun bs' hp => ?_⟩
  · obtain ⟨n, hn⟩ := Option.ne_none_iff_exists'.mp (hfilled.built.coherent.width_of_usable hv' w)
    rw [hn, hfilled.width w n hn, hsize b hb w]
  · rw [hfilled.built.coherent.mem_byDirection, hnet]
    constructor
    · rintro ⟨hd, b, hb, hk⟩
      exact ⟨b, hb, (hcoh b hb).mem_byDirection.mpr ⟨hd, hk⟩⟩
    · rintro ⟨b, hb, h⟩
      obtain ⟨hd, hk⟩ := (hcoh b hb).mem_byDirection.mp h
      exact ⟨hd, b, hb, hk⟩
  · obtain ⟨_, ks', u', hu', hfilled', hmem', -⟩ := union_filled
      (show bs' ≠ [] from fun h => hne (List.Perm.nil_eq (h ▸ hp)).symm) (fun b hb => hcoh b (hp.mem_iff.mp hb))
      (fun b hb => husable b (hp.mem_iff.mp hb))
      (fun b hb b' hb' => hw b (hp.mem_iff.mp hb) b' (hp.mem_iff.mp hb'))
    refine ⟨u', hu', fun k => ?_⟩
    rw [hfilled.net, hfilled'.net]
    simp only [hmem, hmem', hp.mem_iff]

/-- A bus for writing and one for reading that has an extra port. -/
theorem union_ok_iff_pair : ∃ b b' u : Bus, b.Built ∧ b'.Built ∧ (union [b, b']).2 = .ok u ∧
    u.validate.2.1 = true ∧ u.net? (.extraIn 3) = some "GBPORT_extra_in3" := by
  have hb := (((Built.new (.text "w")).setPort "clk" "c" 1 none .none rfl).setPort "addr" "a" 12 none
    .none rfl).setPort "wdata" "d" 32 none .none rfl |>.setPort "we" "w" 1 none .none rfl
  have hb' := ((((Built.new (.text "r")).setPort "clk" "c" 1 none .none rfl).setPort "addr" "a" 12 none
    .none rfl).setPort "rdata" "d" 32 none .none rfl |>.setPort "re" "r" 1 none .none rfl).setPort
    "extra_in3" "x" 1 none .none rfl
  have h := union_ok_iff (cons_ne_nil _ [_]) (by simpa using ⟨hb, hb'⟩)
  exact ⟨_, _, _, hb, hb', rfl, (h.2.2 _ rfl).1, rfl⟩

end Bus

end RegisterMap
