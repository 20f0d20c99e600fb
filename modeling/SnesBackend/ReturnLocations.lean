/-
# Where a Returned Value Is

`LowerReturn` copies the pieces of the returned value into registers and
`LowerCallResult` copies the pieces of the result of a call out of registers.  Both
assign the locations with `RetCC_SNES`; only `LowerReturn` reverses them.

Both return types have a register of their own, and these two registers overlap.  So
`CheckReturn` accepts one piece at most, and there is nothing to reverse.  The two
functions need not have the same piece, though: with an attribute `signext` or
`zeroext` a byte is widened before it is returned, and not where it is received.
-/
import SnesBackend.ArgumentPlaces

namespace Snes

/-! ## Assigning the locations -/

/-- `AnalyzeReturn` and `AnalyzeCallResult` with `RetCC_SNES`: the location of each piece.  A piece
without a register is unreachable. -/
def CCState.analyzeReturn (cc : CCState) (valNo : ℕ) : List ValueType → Option (List CCValAssign)
  | [] => some []
  | vt :: vts =>
      match cc.allocateReg [retCC_SNES vt] with
      | (none, _) => none
      | (some reg, cc) =>
          (cc.analyzeReturn (valNo + 1) vts).map (⟨valNo, vt, .reg (some reg)⟩ :: ·)

/-- `getLocReg`, which asserts `isRegLoc`. -/
def CCValAssign.getLocReg (va : CCValAssign) : Option Reg :=
  match va.loc with
  | .reg reg => reg
  | .mem _ => none

/-! ## The two functions -/

/-- `LowerReturn`: the register that each piece in `OutVals` is copied into. -/
def lowerReturn (outs : List ValueType) : Option (List Reg) := do
  let rvLocs ← CCState.analyzeReturn {} 0 outs
  let rvLocs := if 1 < rvLocs.length then rvLocs.reverse else rvLocs
  rvLocs.mapM CCValAssign.getLocReg

/-- `LowerCallResult`: the register that each piece of `InVals` is copied out of. -/
def lowerCallResult (ins : List ValueType) : Option (List Reg) := do
  let rvLocs ← CCState.analyzeReturn {} 0 ins
  rvLocs.mapM CCValAssign.getLocReg

/-- Both functions find a register for each of their pieces. -/
def ReturnsInRegs (outs ins : List ValueType) : Prop :=
  (∃ regs, lowerReturn outs = some regs ∧ regs.length = outs.length) ∧
    ∃ regs, lowerCallResult ins = some regs ∧ regs.length = ins.length

/-- Both functions find a register for every piece of the value, the same one. -/
def ReturnsAlike (outs ins : List ValueType) : Prop :=
  ∃ regs, lowerReturn outs = some regs ∧ lowerCallResult ins = some regs ∧
    regs.length = outs.length

/-! ## The locations -/

/-- Where `CheckReturn` accepts the pieces, each has a location. -/
theorem CCState.analyzeReturn_of_checkReturn (vts : List ValueType) :
    ∀ (cc : CCState) (valNo : ℕ), cc.checkReturn vts = true →
      ∃ locs, cc.analyzeReturn valNo vts = some locs ∧ locs.length = vts.length ∧
        ∀ va ∈ locs, ∃ reg, va.getLocReg = some reg := by
  induction vts with
  | nil =>
      intro cc valNo _
      exact ⟨[], rfl, rfl, by simp⟩
  | cons vt vts ih =>
      intro cc valNo accepted
      rw [checkReturn] at accepted
      rw [analyzeReturn]
      rcases hreg : cc.allocateReg [retCC_SNES vt] with ⟨_ | reg, cc'⟩
      · rw [hreg] at accepted
        cases accepted
      · rw [hreg] at accepted
        obtain ⟨locs, rest, length_eq, regs⟩ := ih cc' (valNo + 1) accepted
        refine ⟨⟨valNo, vt, .reg (some reg)⟩ :: locs, ?_, ?_, ?_⟩
        · show (cc'.analyzeReturn (valNo + 1) vts).map _ = _
          rw [rest, Option.map_some]
        · rw [List.length_cons, List.length_cons, length_eq]
        · intro va hva
          rcases List.mem_cons.mp hva with rfl | hva
          · exact ⟨reg, rfl⟩
          · exact regs va hva

/-- A list of locations that are registers. -/
theorem exists_mapM_getLocReg (locs : List CCValAssign)
    (h : ∀ va ∈ locs, ∃ reg, va.getLocReg = some reg) :
    ∃ regs, locs.mapM CCValAssign.getLocReg = some regs ∧ regs.length = locs.length := by
  induction locs with
  | nil => exact ⟨[], rfl, rfl⟩
  | cons va locs ih =>
      obtain ⟨reg, hreg⟩ := h va List.mem_cons_self
      obtain ⟨regs, hregs, length_eq⟩ := ih fun va' hva' => h va' (List.mem_cons_of_mem va hva')
      refine ⟨reg :: regs, ?_, by rw [List.length_cons, List.length_cons, length_eq]⟩
      rw [List.mapM_cons, hreg, hregs]
      rfl

/-- Reversing what `CheckReturn` accepts changes nothing. -/
theorem lowerReturn_eq_lowerCallResult {vts : List ValueType}
    (h : CCState.checkReturn {} vts = true) : lowerReturn vts = lowerCallResult vts := by
  obtain ⟨locs, hlocs, length_eq, -⟩ := CCState.analyzeReturn_of_checkReturn vts {} 0 h
  have short := (checkReturn_iff vts).mp h
  have once : ¬ 1 < locs.length := by omega
  simp [lowerReturn, lowerCallResult, hlocs, once]

/-- What `CheckReturn` accepts is copied out of the registers that it was copied into. -/
theorem returnsAlike_of_checkReturn {vts : List ValueType}
    (h : CCState.checkReturn {} vts = true) : ReturnsAlike vts vts := by
  obtain ⟨locs, hlocs, length_eq, inRegs⟩ := CCState.analyzeReturn_of_checkReturn vts {} 0 h
  obtain ⟨regs, hregs, regs_length⟩ := exists_mapM_getLocReg locs inRegs
  have result : lowerCallResult vts = some regs := by
    rw [lowerCallResult, hlocs]
    exact hregs
  refine ⟨regs, ?_, result, by rw [regs_length, length_eq]⟩
  rw [lowerReturn_eq_lowerCallResult h, result]

/-- One piece at most is in registers on both sides. -/
theorem returnsInRegs_of_length {outs ins : List ValueType} (houts : outs.length ≤ 1)
    (hins : ins.length ≤ 1) : ReturnsInRegs outs ins := by
  obtain ⟨outRegs, hout, -, hlength⟩ :=
    returnsAlike_of_checkReturn ((checkReturn_iff outs).mpr houts)
  obtain ⟨inRegs, -, hin, hlength'⟩ := returnsAlike_of_checkReturn ((checkReturn_iff ins).mpr hins)
  exact ⟨⟨outRegs, hout, hlength⟩, inRegs, hin, hlength'⟩

/-! ## The pieces of a type -/

/-- `getTypeForExtReturn`: with an attribute `signext` or `zeroext` a value is returned in a type
that is at least as wide as the registers of `i32`. -/
def getTypeForExtReturn (extended : Bool) (width : ℕ) : ℕ :=
  if extended then max width (getRegisterType 32).width else width

namespace Signature

variable (s : Signature)

/-- The widths of the returned values. -/
def returnWidths : List ℕ :=
  (s.ret.map IRType.valueWidths).getD []

/-- `Outs` of `GetReturnInfo` and of `visitRet`, by the attribute of the result. -/
def returnOuts (extended : Bool) : List ValueType :=
  s.returnWidths.flatMap fun width =>
    List.replicate (getNumRegisters (getTypeForExtReturn extended width))
      (getRegisterType (getTypeForExtReturn extended width))

/-- `Ins` of `LowerCallTo`, which does not look at the attribute. -/
def resultIns : List ValueType :=
  s.returnWidths.flatMap fun width =>
    List.replicate (getNumRegisters width) (getRegisterType width)

/-- `CanLowerReturn`, of the pieces that `GetReturnInfo` makes of the returned value. -/
def canLowerExtReturn (extended : Bool) : Bool :=
  CCState.checkReturn {} (s.returnOuts extended)

/-- Without an attribute these are the pieces of the returned value. -/
theorem canLowerExtReturn_false : s.canLowerExtReturn false = s.canLowerReturn := by
  rw [canLowerReturn, List.map_flatMap]
  simp only [outputArgs_map_vt]
  rfl

/-- Without an attribute the caller and the callee have the same pieces. -/
theorem returnOuts_false : s.returnOuts false = s.resultIns :=
  rfl

/-- A result without an attribute is where the caller looks for it. -/
theorem returnsAlike_plain (h : s.canLowerExtReturn false = true) :
    ReturnsAlike (s.returnOuts false) s.resultIns := by
  rw [canLowerExtReturn, returnOuts_false] at h
  exact returnsAlike_of_checkReturn h

end Signature

/-! ## Returned values with an attribute -/

/-- A returned value with an attribute has a piece, and more of them if it is wider than a word. -/
theorem getNumRegisters_extended (width : ℕ) :
    1 ≤ getNumRegisters (getTypeForExtReturn true width) ∧
      (getNumRegisters (getTypeForExtReturn true width) = 1 → width ≤ 16) := by
  have widened : getTypeForExtReturn true width = max width 16 := rfl
  have wide : ¬ max width 16 ≤ 8 := by omega
  have count : getNumRegisters (max width 16) = (max width 16 + 15) / 16 := by
    rw [getNumRegisters, getRegisterType, if_neg wide]
    rfl
  rw [widened, count]
  omega

/-- With an attribute one value is returned in registers, and it is at most a word. -/
theorem Signature.returnWidths_of_extended {s : Signature} (h : s.canLowerExtReturn true = true) :
    s.returnWidths = [] ∨ ∃ width ≤ 16, s.returnWidths = [width] := by
  have short := (checkReturn_iff _).mp h
  rw [returnOuts] at short
  generalize s.returnWidths = widths at short ⊢
  rcases widths with _ | ⟨width, _ | ⟨width', widths⟩⟩
  · exact .inl rfl
  · obtain ⟨positive, word⟩ := getNumRegisters_extended width
    rw [List.flatMap_singleton, List.length_replicate] at short
    exact .inr ⟨width, word (le_antisymm short positive), rfl⟩
  · have first := (getNumRegisters_extended width).1
    have second := (getNumRegisters_extended width').1
    simp only [List.flatMap_cons, List.length_append, List.length_replicate] at short
    omega

/-- A value of at most a word has one piece, unless it has no bits. -/
theorem getNumRegisters_of_word {width : ℕ} (h : width ≤ 16) :
    getNumRegisters width = if width = 0 then 0 else 1 := by
  unfold getNumRegisters getRegisterType
  split_ifs with hbyte hzero hzero
  · subst hzero
    rfl
  · show (width + 8 - 1) / 8 = 1
    omega
  · omega
  · show (width + 16 - 1) / 16 = 1
    omega

/-- A value of at most a word is widened to a word. -/
theorem getTypeForExtReturn_of_word {width : ℕ} (h : width ≤ 16) :
    getTypeForExtReturn true width = 16 :=
  max_eq_right h

/-- A value of at most a word is returned in A with an attribute, and the caller looks for a byte in
the low half of A. -/
theorem extended_value (width : ℕ) (hpos : 0 < width) (hword : width ≤ 16) :
    lowerReturn (List.replicate (getNumRegisters (getTypeForExtReturn true width))
        (getRegisterType (getTypeForExtReturn true width))) = some [.A] ∧
      lowerCallResult (List.replicate (getNumRegisters width) (getRegisterType width)) =
        some [if width ≤ 8 then .AL else .A] := by
  have one : getNumRegisters width = 1 := by
    rw [getNumRegisters_of_word hword, if_neg hpos.ne']
  constructor
  · rw [getTypeForExtReturn_of_word hword]
    rfl
  · rw [one, getRegisterType]
    split_ifs
    · rfl
    · rfl

/-- The pieces of one value. -/
theorem Signature.pieces_of_returnWidths {s : Signature} {width : ℕ} (h : s.returnWidths = [width])
    (extended : Bool) :
    s.returnOuts extended = List.replicate (getNumRegisters (getTypeForExtReturn extended width))
        (getRegisterType (getTypeForExtReturn extended width)) ∧
      s.resultIns = List.replicate (getNumRegisters width) (getRegisterType width) := by
  rw [returnOuts, resultIns, h]
  exact ⟨List.flatMap_singleton .., List.flatMap_singleton ..⟩

/-- The caller has no more pieces than the callee returns. -/
theorem Signature.length_resultIns_le {s : Signature} {extended : Bool}
    (h : s.canLowerExtReturn extended = true) : s.resultIns.length ≤ 1 := by
  cases extended with
  | false => exact (checkReturn_iff _).mp h
  | true =>
      rcases s.returnWidths_of_extended h with hnone | ⟨width, hword, hone⟩
      · simp [resultIns, hnone]
      · rw [(pieces_of_returnWidths hone true).2, List.length_replicate,
          getNumRegisters_of_word hword]
        split_ifs <;> omega

/-- A value with an attribute is where the caller looks for it exactly if it is more than a byte. -/
theorem Signature.returnsAlike_extended_iff {s : Signature} (h : s.canLowerExtReturn true = true) :
    ReturnsAlike (s.returnOuts true) s.resultIns ↔ ∀ width ∈ s.returnWidths, 8 < width := by
  rcases s.returnWidths_of_extended h with hnone | ⟨width, hword, hone⟩
  · refine iff_of_true ⟨[], ?_, ?_, ?_⟩ (by simp [hnone])
    all_goals
      simp only [returnOuts, resultIns, hnone, List.flatMap_nil]
      rfl
  · obtain ⟨houts, hins⟩ := pieces_of_returnWidths hone true
    rw [houts, hins, hone, List.forall_mem_singleton]
    rcases Nat.eq_zero_or_pos width with rfl | hpos
    · -- a value without bits has no piece of the caller's
      refine iff_of_false ?_ (by simp)
      rintro ⟨regs, hout, hin, -⟩
      have hnone : some [] = some regs := hin
      have hword : some [.A] = some regs := hout
      rw [← hnone] at hword
      cases hword
    · obtain ⟨hout, hin⟩ := extended_value width hpos hword
      constructor
      · rintro ⟨regs, hout', hin', -⟩
        by_contra hbyte
        rw [hout] at hout'
        rw [hin, if_pos (not_lt.mp hbyte), ← hout'] at hin'
        exact absurd hin' (by decide)
      · intro hwide
        rw [if_neg (not_le.mpr hwide)] at hin
        refine ⟨[.A], hout, hin, ?_⟩
        rw [getTypeForExtReturn_of_word hword]
        rfl

/-- **A returned value** is in registers on both sides, for every type that `CanLowerReturn`
accepts, and in the same ones, unless it is a byte with an attribute `signext` or `zeroext`: that
one is returned in A and looked for in the low half of A. -/
theorem Signature.returnLocations (s : Signature) (extended : Bool)
    (h : s.canLowerExtReturn extended = true) :
    ReturnsInRegs (s.returnOuts extended) s.resultIns ∧
      (ReturnsAlike (s.returnOuts extended) s.resultIns ↔
        (extended = true → ∀ width ∈ s.returnWidths, 8 < width)) ∧
      (extended = true → ∀ width ∈ s.returnWidths, 0 < width → width ≤ 8 →
        lowerReturn (s.returnOuts extended) = some [.A] ∧
          lowerCallResult s.resultIns = some [.AL]) := by
  refine ⟨returnsInRegs_of_length ((checkReturn_iff _).mp h) (length_resultIns_le h), ?_, ?_⟩
  · cases extended with
    | false => exact iff_of_true (s.returnsAlike_plain h) nofun
    | true =>
        refine (returnsAlike_extended_iff h).trans ?_
        exact ⟨fun hwide _ => hwide, fun hwide => hwide rfl⟩
  · rintro rfl width hmem hpos hbyte
    rcases s.returnWidths_of_extended h with hnone | ⟨width', hword, hone⟩
    · rw [hnone] at hmem
      exact absurd hmem List.not_mem_nil
    · rw [hone, List.mem_singleton] at hmem
      subst hmem
      obtain ⟨houts, hins⟩ := pieces_of_returnWidths hone true
      have value := extended_value width hpos hword
      rw [if_pos hbyte] at value
      rw [houts, hins]
      exact value

/-- A function that returns an extended word. -/
theorem returnLocations_word :
    (Signature.mk [] (some (.int 16))).canLowerExtReturn true = true ∧
      ReturnsAlike ((Signature.mk [] (some (.int 16))).returnOuts true)
        (Signature.mk [] (some (.int 16))).resultIns :=
  ⟨by decide, (Signature.returnLocations ⟨[], some (.int 16)⟩ true (by decide)).2.1.mpr
    fun _ => by simp [Signature.returnWidths, IRType.valueWidths]⟩

/-- A function that returns an extended byte, in another register than the one it is taken from. -/
theorem not_returnsAlike_extended_byte :
    (Signature.mk [] (some (.int 8))).canLowerExtReturn true = true ∧
      ¬ ReturnsAlike ((Signature.mk [] (some (.int 8))).returnOuts true)
        (Signature.mk [] (some (.int 8))).resultIns := by
  refine ⟨by decide, fun h => ?_⟩
  have wide := (Signature.returnsAlike_extended_iff (by decide)).mp h 8 (by decide)
  omega

end Snes
