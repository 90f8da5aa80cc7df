import RegisterMap.Proofs.Decoder.CopySlices

/-! # Balanced code

Code is steady (`Code.Steady`) if a writer makes all its calls without a refusal, is as deep behind them
as before, and ends as many blocks as it opens.  Texts are steady, and so are two steady lists of calls
one behind the other and a block around one.

The calls that open and end the blocks of the decoding logic stand under conditions of their own: the
block of the clock is opened in one of two places and ended in a third one (`Scope.clockedCode_steady`).
So it takes every path through the generator to see that its code is steady. -/

namespace RegisterMap

open List Result

/-- What comes out, if anything, has the property. -/
def Result.Yields {α : Type} (P : α → Prop) (x : Result α) : Prop := ∀ a, x = .ok a → P a

namespace Result.Yields

variable {α β : Type} {P : α → Prop} {x : Result β} {f : β → Result α}

theorem ok {a : α} (h : P a) : Yields P (.ok a) := fun _ hb => Except.ok.inj hb ▸ h

theorem andThen {Q : β → Prop} (hx : Yields Q x) (h : ∀ b, Q b → Yields P (f b)) : Yields P (x >>= f) := by
  intro a ha
  obtain ⟨b, hb, ha⟩ := bind_ok ha
  exact h b (hx b hb) a ha

theorem any (h : ∀ b, Yields P (f b)) : Yields P (x >>= f) :=
  andThen (fun _ _ => trivial : Yields (fun _ => True) x) fun b _ => h b

end Result.Yields

namespace Code

def isOpening : Code → Bool
  | opening .. => true
  | _ => false

def isClosing : Code → Bool
  | closing .. => true
  | _ => false

def isText : Code → Bool
  | comment _ | line .. => true
  | _ => false

variable {code code' : List Code}

/-- From the margin on no call is refused, and the calls keep the depth and end as many blocks as they
open. -/
def Steady (code : List Code) : Prop :=
  (∀ w : CodeWriter, 0 ≤ w.indent → ∃ w', emitAll w code = .ok w' ∧ w'.indent = w.indent) ∧
    code.countP isOpening = code.countP isClosing

theorem steady_nil : Steady [] := ⟨fun w _ => ⟨w, rfl, rfl⟩, rfl⟩

theorem Steady.append (h : Steady code) (h' : Steady code') : Steady (code ++ code') := by
  refine ⟨fun w hw => ?_, by rw [countP_append, countP_append, h.2, h'.2]⟩
  obtain ⟨w1, hw1, hi1⟩ := h.1 w hw
  obtain ⟨w2, hw2, hi2⟩ := h'.1 w1 (by omega)
  exact ⟨w2, (emitAll_append hw1).trans hw2, hi2.trans hi1⟩

theorem steady_flatten {parts : List (List Code)} (h : ∀ part ∈ parts, Steady part) :
    Steady parts.flatten := by
  induction parts with
  | nil => exact steady_nil
  | cons part parts ih =>
    exact (h part mem_cons_self).append (ih fun p hp => h p (mem_cons_of_mem _ hp))

theorem steady_mapM {α : Type} {f : α → Result (List Code)} {xs : List α}
    (h : ∀ x, (f x).Yields Steady) : (xs.mapM f).Yields fun parts => Steady parts.flatten := by
  intro parts hparts
  refine steady_flatten fun part hpart => ?_
  obtain ⟨x, -, hx⟩ := forall₂_exists_left (mapM_ok hparts) hpart
  exact h x part hx

theorem steady_of_isText (h : ∀ c ∈ code, c.isText = true) : Steady code := by
  induction code with
  | nil => exact steady_nil
  | cons c code ih =>
    have hfirst : Steady [c] := by
      have hc := h c mem_cons_self
      cases c with
      | comment | line => exact ⟨fun w _ => ⟨_, rfl, rfl⟩, rfl⟩
      | opening | turning | closing => cases hc
    exact hfirst.append (ih fun c hc => h c (mem_cons_of_mem _ hc))

theorem steady_lines (origin : Origin) (ls : List String) :
    Steady (ls.map fun l => .line origin l) := by
  refine steady_of_isText fun c hc => ?_
  obtain ⟨l, -, rfl⟩ := mem_map.mp hc
  rfl

theorem Steady.comment (h : Steady code) (text : String) : Steady (.comment text :: code) :=
  (steady_of_isText (by simp [isText]) : Steady [.comment text]).append h

theorem Steady.block (h : Steady code) (origin origin' : Origin) (head : BlockHead) (note note' : String) :
    Steady (.opening origin head note :: code ++ [.closing origin' note']) := by
  refine ⟨fun w hw => ?_, ?_⟩
  · obtain ⟨w1, hw1, hi1⟩ : ∃ w1, emit w (.opening origin head note) = .ok w1 ∧
        w1.indent = w.indent + 1 * 2 := by
      have hdepth : ¬w.indent + 1 * 2 < 0 := by omega
      cases head <;> exact ⟨_, if_neg hdepth, rfl⟩
    obtain ⟨w2, hw2, hi2⟩ := h.1 w1 (by omega)
    obtain ⟨w3, hw3, hi3⟩ : ∃ w3, emit w2 (.closing origin' note') = .ok w3 ∧
        w3.indent = w2.indent + -(1 * 2) := by
      have hdepth : ¬w2.indent + -(1 * 2) < 0 := by omega
      exact ⟨_, congrArg (· >>= _) (if_neg hdepth), rfl⟩
    refine ⟨w3, ?_, by omega⟩
    rw [cons_append, emitAll, foldlM_cons, bind_of_ok hw1]
    exact (emitAll_append hw2).trans (by rw [emitAll, foldlM_cons, bind_of_ok hw3]; rfl)
  · simp [countP_cons, isOpening, isClosing, h.2]

/-- The code can be written to depth zero, by calls that end as many blocks as they open. -/
def Balanced (w : CodeWriter) (code : List Code) : Prop :=
  ∃ w', emitAll w code = .ok w' ∧ w'.indent = 0 ∧ code.countP isOpening = code.countP isClosing

theorem Steady.balanced {w : CodeWriter} (h : Steady code) (hw : w.indent = 0) : Balanced w code := by
  obtain ⟨w', hw', hi⟩ := h.1 w hw.ge
  exact ⟨w', hw', hi.trans hw, h.2⟩

end Code

namespace Decoder

namespace Scope

open Code Result.Yields

variable {s : Scope} {branch : String} {block : Block}

/-! ### Nets -/

theorem blockNets_steady {title : String} {items : InBlocks Register}
    {nets : String → Register → Block → Result String} : (blockNets title items nets).Yields Steady := by
  refine andThen (steady_mapM fun p => any fun lines => ok ((steady_lines .blockNets lines).comment _))
    fun parts hparts => ok ?_
  split
  · exact steady_nil
  · exact hparts.comment title

theorem wordNets_steady {busAw : Int} : (s.wordNets busAw).Yields Steady := by
  unfold wordNets
  split
  · exact ok steady_nil
  · exact any fun _ => any fun _ => any fun _ => any fun _ => ok (steady_lines .localNets [_, _])

theorem localNets_steady : s.localNets.Yields Steady := by
  refine any fun busAw => andThen wordNets_steady fun words hwords => any fun memories =>
    andThen blockNets_steady fun wordBlocks hwordBlocks =>
      andThen blockNets_steady fun memoryBlocks hmemoryBlocks => ok ?_
  have htitle : Steady (if memories.isEmpty then [] else [.comment "Local RAMs"]) := by
    split
    · exact steady_nil
    · exact steady_nil.comment _
  exact ((((hwords.comment _).append htitle).append (steady_lines .localNets memories)).append
    hwordBlocks).append hmemoryBlocks

theorem childNets_steady (c : Child) : (s.childNets c).Yields Steady := by
  refine any fun mask => ?_
  have hend : ∀ hit : String, Steady (.comment s!"submodule {c.inst}" ::
      (hit :: s.rows.map fun row => if row.key = .addr then mask else s.childNet c row).map fun l =>
        Code.line .childNets l) := fun hit => (steady_lines .childNets _).comment _
  dsimp only
  split
  · exact ok (hend _)
  · exact any fun _ => any fun _ => any fun hit => ok (hend hit)

theorem allChildNets_steady : s.allChildNets.Yields Steady :=
  andThen (steady_mapM fun c => childNets_steady c) fun _ hdirect =>
    andThen (steady_mapM fun _ => andThen (steady_mapM fun c => childNets_steady c) fun _ hparts =>
      ok (hparts.comment _)) fun _ hblocks => ok (hdirect.append hblocks)

theorem hookup_steady {r : Rider} {inner : Option Block} : (s.hookup r inner).Yields Steady := by
  refine fun code h => steady_of_isText fun c hc => ?_
  obtain ⟨⟨key, net⟩, -, hline⟩ := Result.of_mem_filterMapM h hc
  cases net with
  | none => cases hline
  | some net =>
    obtain ⟨hostNet, -, hline⟩ := bind_ok hline
    obtain ⟨line, -, hline⟩ := bind_ok hline
    cases hline
    rfl

theorem blockRiderNets_steady (r : Rider) : (s.blockRiderNets r block).Yields Steady := by
  refine any fun net => ?_
  have hend : ∀ lines : List String, Result.Yields Steady (do
      let shared ← sharedReadNet r
      return Code.comment s!"Extmod {net}" :: (lines ++ [shared]).map fun l => .line .passengerNets l) :=
    fun lines => any fun shared => ok ((steady_lines .passengerNets _).comment _)
  dsimp only
  split
  · split
    · exact any fun _ => any fun _ => any fun _ => hend _
    · exact hend _
  · exact any fun _ => hend _

theorem riderNets_steady : s.riderNets.Yields Steady := by
  refine andThen (steady_mapM fun p => any fun hit => andThen hookup_steady fun drivers hdrivers =>
      ok (((steady_lines .passengers [hit]).append hdrivers).comment _)) fun direct hdirect =>
    andThen (steady_mapM fun p => andThen (steady_mapM fun r => blockRiderNets_steady r.1) fun parts hparts =>
      ok (hparts.comment _)) fun inBlocks hblocks => ok ((hdirect.append ?_).append hblocks)
  split
  · exact steady_nil
  · exact steady_nil.comment _

theorem readRouting_steady : s.readRouting.Yields Steady := by
  unfold readRouting
  split
  · exact ok steady_nil
  · exact any fun _ => any fun _ => any fun _ => ok ((steady_lines .readRouting _).comment _)

theorem netCode_steady : s.netCode.Yields Steady :=
  andThen localNets_steady fun _ hown => andThen allChildNets_steady fun _ hinner =>
    andThen riderNets_steady fun _ hriders => andThen readRouting_steady fun _ hrouting =>
      ok (((hown.append hinner).append hriders).append hrouting)

/-! ### Reads and writes -/

theorem accessCode_steady (s : Scope) (title trigger words memories : String) :
    Steady (s.accessCode title trigger words memories) := by
  have hwords : Steady (if s.hasWords then
      [.opening .busLogic (.conditional s.enableNet), .line .busLogic (orRemark words "// No CSRs"),
        .closing .busLogic s!"if ({s.enableNet})"] else []) := by
    split
    · exact (steady_lines .busLogic [_]).block ..
    · exact steady_nil
  have hbody := (hwords.append (steady_lines .busLogic [orRemark memories "// No rams"])).block .busLogic
    .busLogic (.conditional trigger) "" s!"if ({trigger})"
  unfold accessCode
  simpa using hbody.comment title

/-- The block of the clock is ended if and only if one of the two places has opened it. -/
theorem clockedCode_steady {writes reads : List Code} (hwrites : Steady writes) (hreads : Steady reads)
    (clock : String) (hasWrites hasReads : Bool) :
    Steady (clockedCode clock hasWrites hasReads writes reads) := by
  have hblock : ∀ {body : List Code}, Steady body → Steady (.opening .busLogic (.clocked clock) :: body ++
      [.closing .busLogic s!"always @(posedge {clock})"]) := fun h => h.block ..
  cases hasWrites with
  | false =>
    cases hasReads with
    | false => exact steady_nil
    | true => exact hblock hreads
  | true =>
    cases hasReads with
    | false => exact hblock hwrites
    | true => exact hblock (hwrites.append hreads)

theorem busCode_steady {written read : List Register} : (s.busCode written read).Yields Steady := by
  refine any fun _ => any fun _ => any fun _ => any fun _ => any fun _ => any fun clears => ok ?_
  refine clockedCode_steady (((?_ : Steady _).append ?_).append (steady_lines .busLogic clears) |>.append
    (s.accessCode_steady ..)) (s.accessCode_steady ..) _ _ _
  · split
    · exact steady_lines .busLogic [_]
    · exact steady_nil
  · split
    · exact steady_nil
    · exact steady_nil.comment _

/-! ### Inside generate blocks -/

theorem blockWordCode_steady {r : Register} : (blockWordCode branch r block).Yields Steady := by
  refine any fun net => ok ?_
  refine (((steady_lines .blockLogic [_]).block .blockLogic .blockLogic .initial "" "").append
    ((?_ : Steady (if block.isLoop then [_, _] else [_, _])).block .blockLogic .blockLogic
      (.sensitive _) "" "")).comment _
  split <;> exact steady_lines .blockLogic [_, _]

/-- The memory is written inside two blocks. -/
theorem memoryBlock_steady (clock condition line : String) :
    Steady [.opening .blockLogic (.clocked clock), .opening .blockLogic (.conditional condition),
      .line .blockLogic line, .closing .blockLogic, .closing .blockLogic] :=
  ((steady_lines .blockLogic [line]).block .blockLogic .blockLogic (.conditional condition) "" "").block
    .blockLogic .blockLogic (.clocked clock) "" ""

theorem blockMemoryCode_steady {m : Register} : (s.blockMemoryCode branch m block).Yields Steady := by
  refine any fun net => ?_
  dsimp only
  split
  · exact ok (((steady_lines .blockLogic [_]).append (memoryBlock_steady ..)).comment _)
  · exact any fun _ => any fun _ => any fun _ => any fun _ => any fun _ => any fun _ =>
      ok ((steady_of_isText (by simp [isText])).append (memoryBlock_steady ..))

theorem blockChildCode_steady {c : Child} : (s.blockChildCode branch c).Yields Steady := by
  unfold blockChildCode
  split
  · exact ok steady_nil
  · exact any fun _ => any fun _ => any fun _ => any fun _ => ok (steady_of_isText (by simp [isText]))

theorem blockRiderCode_steady {r : Rider} : (s.blockRiderCode r block).Yields Steady := by
  refine any fun net => andThen hookup_steady fun drivers hdrivers => ?_
  have hend : ∀ rest : List String, Steady (.comment s!"Extmod {net}" :: drivers ++
      rest.map fun l => .line .blockLogic l) := fun rest =>
    (hdrivers.comment _).append (steady_lines .blockLogic rest)
  dsimp only
  split
  · exact ok (hend _)
  · refine any fun _ => any fun _ => any fun _ => ?_
    split
    · exact ok (hend _)
    · exact any fun _ => ok (hend _)

/-- Behind each text stands steady code. -/
def Grown (texts texts' : BlockTexts) : Prop :=
  ∀ branch code, Table.get? texts' branch = some code →
    ∃ old new, Table.get? texts branch = some old ∧ code = old ++ new ∧ Steady new

theorem Grown.trans {texts1 texts2 texts3 : BlockTexts} (h : Grown texts1 texts2) (h' : Grown texts2 texts3) :
    Grown texts1 texts3 := by
  intro branch code hcode
  obtain ⟨mid, new', hmid, rfl, hnew'⟩ := h' branch code hcode
  obtain ⟨old, new, hold, rfl, hnew⟩ := h branch mid hmid
  exact ⟨old, new ++ new', hold, append_assoc .., hnew.append hnew'⟩

theorem addToBlocks_grown {α : Type} {items : Table String (List α)} {own : String → α → Result (List Code)}
    {texts texts' : BlockTexts} (h : addToBlocks items own texts = .ok texts')
    (hown : ∀ branch x, (own branch x).Yields Steady) : Grown texts texts' := by
  refine addToBlocks_induct (P := Grown texts) h
    (fun branch code hcode => ⟨code, [], hcode, (append_nil _).symm, steady_nil⟩)
    fun t branch xs old new _ hold hnew ih => ?_
  refine ih.trans fun b code hcode => ?_
  by_cases hb : b = branch
  · subst hb
    rw [Table.get?_put_self] at hcode
    exact ⟨old, new.flatten, hold, (Option.some.inj hcode).symm, steady_mapM (hown _) _ hnew⟩
  · rw [Table.get?_put_of_ne _ _ (Ne.symm hb)] at hcode
    exact ⟨code, [], hcode, (append_nil _).symm, steady_nil⟩

theorem blockCode_grown {texts texts' : BlockTexts} (h : s.blockCode texts = .ok texts') :
    Grown texts texts' := by
  obtain ⟨texts1, h1, h⟩ := bind_ok h
  obtain ⟨range, -, h⟩ := bind_ok h
  obtain ⟨texts2, h2, h⟩ := bind_ok h
  obtain ⟨texts3, h3, h⟩ := bind_ok h
  exact (((addToBlocks_grown h1 fun _ _ => blockWordCode_steady).trans
    (addToBlocks_grown h2 fun _ _ => blockMemoryCode_steady)).trans
    (addToBlocks_grown h3 fun _ _ => blockChildCode_steady)).trans
    (addToBlocks_grown h fun _ _ => blockRiderCode_steady)

end Scope

/-- **The decoding logic is balanced.**  Whenever the logic of a module is found, a writer at depth
zero writes it without a refusal, ends as many blocks as it opens and is at depth zero again.  So it is
with what is put behind the text of each generate block. -/
theorem decoding_balanced (s : Scope) (written read : List Register) (texts : Scope.BlockTexts)
    {w : CodeWriter} (hw : w.indent = 0) :
    (∀ code, s.topCode written read = .ok code → Code.Balanced w code) ∧
      ∀ texts', s.blockCode texts = .ok texts' → ∀ branch code, Table.get? texts' branch = some code →
        ∃ old new, Table.get? texts branch = some old ∧ code = old ++ new ∧ Code.Balanced w new := by
  refine ⟨fun code h => ?_, fun texts' h branch code hcode => ?_⟩
  · obtain ⟨nets, hnets, h⟩ := bind_ok h
    obtain ⟨own, hown, h⟩ := bind_ok h
    cases h
    exact ((Scope.netCode_steady _ hnets).append (Scope.busCode_steady _ hown)).balanced hw
  · obtain ⟨old, new, hold, heq, hnew⟩ := Scope.blockCode_grown h branch code hcode
    exact ⟨old, new, hold, heq, hnew.balanced hw⟩

theorem decoding_balanced_eightBits :
    (∃ code, eightBits.topCode eightBits.words eightBits.words = .ok code ∧
      code.countP Code.isOpening = 5 ∧ Code.Balanced { } code) ∧
    ∃ texts code, copiesOnly.blockCode [("g", [])] = .ok texts ∧ Table.get? texts "g" = some code ∧
      code.countP Code.isOpening = 2 ∧ Code.Balanced { } code := by
  obtain ⟨code, hcode⟩ := exists_ok
    (show (eightBits.topCode eightBits.words eightBits.words).toBool = true by decide +kernel)
  have hcount : (eightBits.topCode eightBits.words eightBits.words).map (·.countP Code.isOpening) = .ok 5 := by
    decide +kernel
  obtain ⟨texts, htexts⟩ := exists_ok
    (show (copiesOnly.blockCode [("g", [])]).toBool = true by decide +kernel)
  have hcount' : (copiesOnly.blockCode [("g", [])]).map
      (fun t => (Table.get? t "g").map (·.countP Code.isOpening)) = .ok (some 2) := by
    decide +kernel
  rw [hcode] at hcount
  rw [htexts] at hcount'
  obtain ⟨inner, hinner, hopen⟩ := Option.map_eq_some_iff.mp (Except.ok.inj hcount')
  obtain ⟨htop, -⟩ := decoding_balanced eightBits eightBits.words eightBits.words [] (w := { }) rfl
  obtain ⟨-, hblocks⟩ := decoding_balanced copiesOnly [] [] [("g", [])] (w := { }) rfl
  obtain ⟨old, new, hold, rfl, hnew⟩ := hblocks texts htexts "g" inner hinner
  cases hold
  exact ⟨⟨code, hcode, Except.ok.inj hcount, htop code hcode⟩, texts, _, htexts, hinner, hopen, hnew⟩

end Decoder

end RegisterMap
