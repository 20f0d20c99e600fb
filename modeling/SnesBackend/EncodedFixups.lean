/-
# Symbolic Operands Against Immediate Operands

An instruction whose operand is known to the encoder and the same instruction
with a symbolic operand, patched when its value is known: when the two are the
same bytes, for the absolute targets of `JMP` and `CALL`.
-/
import SnesBackend.Fixups
import SnesBackend.LayoutBits

namespace Snes

open BytePatching

/-! ## The two encodings -/

/-- The instruction with another operand in place `n`. -/
def MCInst.withOperand (mi : MCInst) (n : ℕ) (operand : MCOperand) : MCInst :=
  ⟨mi.opcode, mi.operands.set n operand⟩

/-- Encoding the immediate `v` as operand `n` gives the bytes that encoding an expression and
applying its fixup with the value `v` gives, and the rest of the fragment stays as it is. -/
def MCInst.EncodesAlike (mi : MCInst) (n : ℕ) (e : MCExpr) (temporary : Bool)
    (before after : List (BitVec 8)) (v : BitVec 64) : Prop :=
  ∃ bytes, encodeInstruction (mi.withOperand n (.imm v)) = some (bytes, []) ∧
    resolvedFragment before after (mi.withOperand n (.expr e)) temporary v =
      some (.ok (before ++ bytes ++ after))

section

variable {mi : MCInst} {n : ℕ} {e : MCExpr} {temporary : Bool} {v : BitVec 64}
  {immBytes exprBytes : List (BitVec 8)} {offset : ℕ} {kind : FixupKind}
  (himm : encodeInstruction (mi.withOperand n (.imm v)) = some (immBytes, []))
  (hexpr : encodeInstruction (mi.withOperand n (.expr e)) = some (exprBytes, [⟨offset, e, kind⟩]))

include himm hexpr

/-- With an accepted fixup, the two encodings agree when the patched bytes are the same. -/
theorem encodesAlike_iff_of_ok {adjusted : BitVec 64}
    (h : adjustFixupValue kind temporary v = .ok adjusted)
    (hfits : offset + kind.numBytes ≤ exprBytes.length) (before after : List (BitVec 8)) :
    mi.EncodesAlike n e temporary before after v ↔
      orBytes (adjusted <<< (getFixupKindInfo kind).targetOffset) offset kind.numBytes exprBytes =
        immBytes := by
  unfold MCInst.EncodesAlike
  rw [himm, resolvedFragment_of_ok hexpr h hfits]
  simp

/-- With a refused fixup, they do not agree. -/
theorem not_encodesAlike_of_error {err : FixupError}
    (h : adjustFixupValue kind temporary v = .error err) (before after : List (BitVec 8)) :
    ¬ mi.EncodesAlike n e temporary before after v := by
  unfold MCInst.EncodesAlike
  rw [himm, resolvedFragment_of_error hexpr h]
  simp

end

/-! ## Call targets -/

/-- The instructions with an absolute target. -/
inductive AbsBranch where
  | JMPk | CALLk
deriving DecidableEq, Repr

namespace AbsBranch

/-- The opcode of an absolute branch. -/
def opcode : AbsBranch → Opcode
  | JMPk => .JMPk
  | CALLk => .CALLk

/-- The bits between the two parts of the target. -/
def formatBits : AbsBranch → BitVec 3
  | JMPk => 0b110
  | CALLk => 0b111

/-- The binary code of an absolute branch with a given field. -/
def code (b : AbsBranch) (k : BitVec 32) : BitVec 64 :=
  (InstrFormat.f32BRk b.formatBits).code (fieldValue [(.k, k, [])])

/-- The bytes of an absolute branch with a given field, high word first. -/
def bytes (b : AbsBranch) (k : BitVec 32) : List (BitVec 8) :=
  [byteOf (b.code k) 2, byteOf (b.code k) 3, byteOf (b.code k) 0, byteOf (b.code k) 1]

/-- An immediate target is encoded without its lowest bit. -/
theorem encodeInstruction_imm (b : AbsBranch) (t : BitVec 64) :
    encodeInstruction ⟨b.opcode, [.imm t]⟩ =
      some (b.bytes ((t.sshiftRight 1).setWidth 32), []) := by
  cases b
  · exact encodeInstruction_eq_four ⟨.JMPk, [.imm t]⟩ rfl rfl rfl rfl
  · exact encodeInstruction_eq_four ⟨.CALLk, [.imm t]⟩ rfl rfl rfl rfl

/-- A symbolic target leaves the field empty. -/
theorem encodeInstruction_expr (b : AbsBranch) (e : MCExpr) :
    encodeInstruction ⟨b.opcode, [.expr e]⟩ = some (b.bytes 0, [⟨0, e, .fixupCall⟩]) := by
  cases b
  · exact encodeInstruction_eq_four ⟨.JMPk, [.expr e]⟩ rfl rfl rfl rfl
  · exact encodeInstruction_eq_four ⟨.CALLk, [.expr e]⟩ rfl rfl rfl rfl

/-- Bit `i` of the code: `1001010`, the high part of the target, three bits of the opcode, the low
part of the target. -/
def codeBit (b : AbsBranch) (k : BitVec 32) (i : ℕ) : Bool :=
  if i < 17 then k.getLsbD i
  else if i < 20 then b.formatBits.getLsbD (i - 17)
  else if i < 25 then k.getLsbD (i - 3)
  else (0b1001010 : ℕ).testBit (i - 25)

/-- The bits of the code. -/
theorem getLsbD_code (b : AbsBranch) (k : BitVec 32) {i : ℕ} (hi : i < 32) :
    (b.code k).getLsbD i = b.codeBit k i := by
  have hk : fieldValue [(OpName.k, k, [])] .k = k := rfl
  rw [code, InstrFormat.getLsbD_code, codeBit]
  simp only [InstrFormat.inst, layoutBit, layoutWidth, InstBits.width, InstBits.bit, hk,
    List.map_cons, List.map_nil, List.sum_cons, List.sum_nil]
  rw [decide_eq_true (show i < 64 by omega), Bool.true_and]
  split_ifs <;> first
    | omega
    | exact BitVec.testBit_toNat _
    | simp [show i - 20 < 5 by omega, show 17 + (i - 20) = i - 3 by omega]
    | simp [show i < 17 by omega]
    | simp

/-- The value that `fixup_call` makes of a word address. -/
def callValue (w : BitVec 64) : BitVec 64 :=
  ((w &&& (0xf00000 <<< 6)) <<< 6) ||| ((w &&& (0x1ffff <<< 5)) <<< 3) ||| ((w &&& 0x1f) <<< 0)

/-- Bit `i` of that value: the low five bits, and the bits from bit 5 on three bits further up. -/
def callBit (w : BitVec 64) (i : ℕ) : Bool :=
  if i < 5 then w.getLsbD i else decide (8 ≤ i) && w.getLsbD (i - 3)

/-- The bits of the three bytes that are patched. -/
theorem getLsbD_callValue (w : BitVec 64) {i : ℕ} (hi : i < 24) :
    (callValue w).getLsbD i = callBit w i := by
  unfold callValue callBit
  interval_cases i <;> simp

/-- The patched bytes of a symbolic target against the bytes of an immediate one, as equations
between the word address `k` that is encoded and the word address `w` that is patched in. -/
theorem equations_of_patched {b : AbsBranch} {k : BitVec 32} {w : BitVec 64}
    (h : orBytes (callValue w) 0 3 (b.bytes 0) = b.bytes k) :
    (w.getLsbD 0 = k.getLsbD 16 ∧ w.getLsbD 4 = k.getLsbD 17 ∧ k.getLsbD 18 = false ∧
      k.getLsbD 19 = false ∧ k.getLsbD 20 = false ∧ w.getLsbD 5 = k.getLsbD 21) ∧
    (∀ i < 8, w.getLsbD (13 + i) = k.getLsbD i) ∧ (∀ i < 8, k.getLsbD (8 + i) = false) := by
  have hbytes : byteOf (b.code 0) 2 ||| byteOf (callValue w) 0 = byteOf (b.code k) 2 ∧
      byteOf (b.code 0) 3 ||| byteOf (callValue w) 1 = byteOf (b.code k) 3 ∧
      byteOf (b.code 0) 0 ||| byteOf (callValue w) 2 = byteOf (b.code k) 0 ∧
      byteOf (b.code 0) 1 = byteOf (b.code k) 1 := by simpa [orBytes, bytes] using h
  obtain ⟨h0, h1, h2, h3⟩ := hbytes
  have bit {m n : ℕ} (hor : byteOf (b.code 0) m ||| byteOf (callValue w) n = byteOf (b.code k) m)
      (hm : m < 4) (hn : n < 3) (i : ℕ) (hi : i < 8) :
      (b.codeBit 0 (m * 8 + i) || callBit w (n * 8 + i)) = b.codeBit k (m * 8 + i) := by
    have hbit := congrArg (fun byte => byte.getLsbD i) hor
    simp only [BitVec.getLsbD_or, getLsbD_byteOf, hi, decide_true, Bool.true_and] at hbit
    rwa [getLsbD_code b _ (by omega), getLsbD_code b _ (by omega),
      getLsbD_callValue w (by omega)] at hbit
  have low := bit h0 (by decide) (by decide)
  refine ⟨⟨?_, ?_, ?_, ?_, ?_, ?_⟩, fun i hi => ?_, fun i hi => ?_⟩
  · simpa [codeBit, callBit] using low 0 (by decide)
  · simpa [codeBit, callBit] using low 4 (by decide)
  · simpa [codeBit, callBit] using (low 5 (by decide)).symm
  · simpa [codeBit, callBit] using (low 6 (by decide)).symm
  · simpa [codeBit, callBit] using (low 7 (by decide)).symm
  · simpa [codeBit, callBit] using bit h1 (by decide) (by decide) 0 (by decide)
  · have hbit := bit h2 (by decide) (by decide) i hi
    simpa [codeBit, callBit, show i < 17 by omega, show 8 ≤ 16 + i by omega,
      show ¬ 16 + i < 5 by omega, show 16 + i - 3 = 13 + i by omega] using hbit
  · have hbit := congrArg (fun byte => byte.getLsbD i) h3
    simp only [getLsbD_byteOf, hi, decide_true, Bool.true_and] at hbit
    rw [getLsbD_code b _ (by omega), getLsbD_code b _ (by omega)] at hbit
    simpa [codeBit, show 8 + i < 17 by omega] using hbit.symm

/-- The digits of a word address with an empty second byte, and of the one after it. -/
theorem digits_eq {low δ : ℕ} (high : ℕ) (hlow : low < 0x100) (hδ : δ < 2) :
    (low + 0x10000 * high) / 0x10000 = high ∧ (low + 0x10000 * high) / 0x20000 = high / 2 ∧
      (low + 0x10000 * high) / 0x40000 = high / 4 ∧
      (low + 0x10000 * high) / 0x200000 = high / 0x20 ∧
      (low + 0x10000 * high) % 0x100 = low ∧
      (low + 0x10000 * high + δ) % 2 = (low + δ) % 2 ∧
      (low + 0x10000 * high + δ) / 0x10 % 2 = (low + δ) / 0x10 % 2 ∧
      (low + 0x10000 * high + δ) / 0x20 % 2 = (low + δ) / 0x20 % 2 ∧
      (low + 0x10000 * high + δ) / 0x2000 = 8 * high := by
  refine ⟨?_, ?_, ?_, ?_, ?_, ?_, ?_, ?_, ?_⟩ <;> omega

/-- The word addresses that are patched in as they are encoded: `w` is `k`, or one more for a
temporary label. -/
theorem eq_of_equations {k w δ : ℕ} (hk : k < 0x400000) (hw : w = k + δ) (hδ : δ < 2)
    (h0 : w % 2 = k / 0x10000 % 2) (h4 : w / 0x10 % 2 = k / 0x20000 % 2)
    (h18 : k / 0x40000 % 8 = 0) (h5 : w / 0x20 % 2 = k / 0x200000 % 2)
    (hlow : w / 0x2000 % 0x100 = k % 0x100) (hmiddle : k / 0x100 % 0x100 = 0) :
    k = δ * 0x10008 ∨ k = δ * 0x10008 + 0x20010 := by
  obtain ⟨low, high, rfl, hlt⟩ : ∃ low high, k = low + 0x10000 * high ∧ low < 0x100 :=
    ⟨k % 0x100, k / 0x10000, by omega, by omega⟩
  obtain ⟨e16, e17, e18, e21, elow, d0, d4, d5, d13⟩ := digits_eq high hlt hδ
  subst hw
  rw [d0, e16] at h0
  rw [d4, e17] at h4
  rw [e18] at h18
  rw [d5, e21] at h5
  -- the low byte is what the fixup writes for the high part
  rw [d13, elow] at hlow
  clear e16 e17 e18 e21 elow d0 d4 d5 d13 hmiddle
  have hhigh : high < 64 := by omega
  interval_cases high <;> omega

/-- The instruction with a given target operand. -/
def mcInst (b : AbsBranch) (target : MCOperand) : MCInst :=
  ⟨b.opcode, [target]⟩

/-- What `fixup_call` accepts, and what it makes of it. -/
theorem adjustFixupValue_fixupCall (temporary : Bool) (t : BitVec 64) :
    let v := if temporary then t + 2 else t
    (v.toNat < 2 ^ 23 → adjustFixupValue .fixupCall temporary t = .ok (callValue (v >>> 1))) ∧
      (¬ v.toNat < 2 ^ 23 → ∃ err, adjustFixupValue .fixupCall temporary t = .error err) := by
  intro v
  obtain ⟨hok, herr⟩ := Adjust.unsignedWidth_eq 23 v "branch target"
  have hrange := isUIntN_eq_true_iff (show 23 < 64 by decide) v
  have hcall : adjustFixupValue .fixupCall temporary t = Adjust.fixupCall 22 v := rfl
  rw [hcall, Adjust.fixupCall, Adjust.adjustBranch, ← hrange]
  constructor
  · intro h
    rw [hok h]
    rfl
  · intro h
    obtain ⟨err, h⟩ := herr h
    exact ⟨err, by rw [h]; rfl⟩

/-- The targets that are patched in as they are encoded. -/
def AgreesAt (temporary : Bool) (t : BitVec 64) : Prop :=
  if temporary then t = 0x20010 ∨ t = 0x60030 else t = 0 ∨ t = 0x40020

/-- Patched bytes that are the encoded ones come from such a target. -/
theorem agreesAt_of_patched {b : AbsBranch} {temporary : Bool} {t : BitVec 64}
    (heven : t.toNat % 2 = 0) (hlt : t.toNat < 2 ^ 23)
    (h : orBytes (callValue ((if temporary then t + 2 else t) >>> 1)) 0 3 (b.bytes 0) =
      b.bytes ((t.sshiftRight 1).setWidth 32)) : AgreesAt temporary t := by
  generalize hw : (if temporary then t + 2 else t) >>> 1 = w at h
  generalize hk : (t.sshiftRight 1).setWidth 32 = k at h
  have hwNat : w.toNat = t.toNat / 2 + temporary.toNat := by
    subst hw
    have htwo : (2 : BitVec 64).toNat = 2 := rfl
    cases temporary <;>
      simp only [Bool.false_eq_true, if_false, if_true, BitVec.toNat_ushiftRight,
        BitVec.toNat_add, htwo, Nat.shiftRight_eq_div_pow, Bool.toNat_false, Bool.toNat_true] <;>
      omega
  have hkNat : k.toNat = t.toNat / 2 := by
    subst hk
    have hmsb : t.msb = false := by
      rw [BitVec.msb_eq_decide]
      simp only [decide_eq_false_iff_not]
      omega
    rw [BitVec.sshiftRight_eq_of_msb_false hmsb, BitVec.toNat_setWidth, BitVec.toNat_ushiftRight,
      Nat.shiftRight_eq_div_pow]
    omega
  obtain ⟨⟨h0, h4, h18, h19, h20, h5⟩, hlow, hmiddle⟩ := equations_of_patched h
  have digit {i j : ℕ} (h : w.getLsbD i = k.getLsbD j) :
      w.toNat / 2 ^ i % 2 ^ 1 = k.toNat / 2 ^ j % 2 ^ 1 := by
    apply digits_eq_of_getLsbD_eq
    intro l hl
    obtain rfl : l = 0 := by omega
    exact h
  have hzero : k.toNat / 2 ^ 18 % 2 ^ 3 = (0 : BitVec 32).toNat / 2 ^ 0 % 2 ^ 3 := by
    apply digits_eq_of_getLsbD_eq
    intro l hl
    interval_cases l
    · exact h18
    · exact h19
    · exact h20
  have hsecond : k.toNat / 2 ^ 8 % 2 ^ 8 = (0 : BitVec 32).toNat / 2 ^ 0 % 2 ^ 8 := by
    apply digits_eq_of_getLsbD_eq
    intro l hl
    rw [hmiddle l hl]
    exact BitVec.getLsbD_zero.symm
  have hfirst : w.toNat / 2 ^ 13 % 2 ^ 8 = k.toNat / 2 ^ 0 % 2 ^ 8 := by
    apply digits_eq_of_getLsbD_eq
    intro l hl
    rw [hlow l hl, Nat.zero_add]
  have hcases := eq_of_equations (δ := temporary.toNat) (by omega) (hwNat.trans (by rw [hkNat]))
    (by cases temporary <;> decide) (by simpa using digit h0) (digit h4) hzero (digit h5)
    (by simpa using hfirst) hsecond
  unfold AgreesAt
  simp only [← BitVec.toNat_inj]
  cases temporary
  · have h1 : (0 : BitVec 64).toNat = 0 := rfl
    have h2 : (0x40020 : BitVec 64).toNat = 0x40020 := rfl
    simp only [Bool.toNat_false, Bool.false_eq_true, if_false] at hcases ⊢
    rw [h1, h2]
    omega
  · have h1 : (0x20010 : BitVec 64).toNat = 0x20010 := rfl
    have h2 : (0x60030 : BitVec 64).toNat = 0x60030 := rfl
    simp only [Bool.toNat_true, if_true] at hcases ⊢
    rw [h1, h2]
    omega

/-- The bytes at such a target. -/
theorem patched_of_agreesAt (b : AbsBranch) {temporary : Bool} {t : BitVec 64}
    (h : AgreesAt temporary t) :
    orBytes (callValue ((if temporary then t + 2 else t) >>> 1)) 0 3 (b.bytes 0) =
      b.bytes ((t.sshiftRight 1).setWidth 32) := by
  unfold AgreesAt at h
  cases temporary <;> simp only [Bool.false_eq_true, if_false, if_true] at h <;>
    rcases h with rfl | rfl <;> cases b <;> decide

/-- **When a patched target is the encoded one**: at two of the four million even addresses below
`2^23`. -/
theorem encodesAlike_iff (b : AbsBranch) (e : MCExpr) (temporary : Bool)
    (before after : List (BitVec 8)) (t : BitVec 64) (heven : t.toNat % 2 = 0)
    (hlt : t.toNat < 2 ^ 23) :
    (b.mcInst (.imm t)).EncodesAlike 0 e temporary before after t ↔ AgreesAt temporary t := by
  obtain ⟨hok, herr⟩ := adjustFixupValue_fixupCall temporary t
  have himm : encodeInstruction ((b.mcInst (.imm t)).withOperand 0 (.imm t)) = _ :=
    b.encodeInstruction_imm t
  have hexpr : encodeInstruction ((b.mcInst (.imm t)).withOperand 0 (.expr e)) = _ :=
    b.encodeInstruction_expr e
  by_cases hrange : (if temporary then t + 2 else t).toNat < 2 ^ 23
  · have hadjust := hok hrange
    have hoffset : (getFixupKindInfo .fixupCall).targetOffset = 0 := rfl
    rw [encodesAlike_iff_of_ok himm hexpr hadjust (show 3 ≤ 4 by decide), hoffset,
      BitVec.shiftLeft_zero]
    exact ⟨agreesAt_of_patched heven hlt, patched_of_agreesAt b⟩
  · obtain ⟨err, hadjust⟩ := herr hrange
    refine iff_of_false (not_encodesAlike_of_error himm hexpr hadjust before after) fun h =>
      hrange ?_
    unfold AgreesAt at h
    cases temporary <;> simp only [Bool.false_eq_true, if_false, if_true] at h ⊢ <;>
      rcases h with rfl | rfl <;> decide

/-- At target 0 the patched bytes are the encoded ones. -/
theorem encodesAlike_zero :
    (CALLk.mcInst (.imm 0)).EncodesAlike 0 (.symbolRef 0) false [] [] 0 :=
  (encodesAlike_iff CALLk (.symbolRef 0) false [] [] 0 (by decide) (by decide)).mpr (Or.inl rfl)

/-- A call of address 2 is encoded as `0E 94 01 00` and patched to `0F 94 00 00`. -/
theorem not_encodesAlike_two :
    ¬ (CALLk.mcInst (.imm 2)).EncodesAlike 0 (.symbolRef 0) false [] [] 2 := by
  have himm : encodeInstruction ((CALLk.mcInst (.imm 2)).withOperand 0 (.imm 2)) = _ :=
    CALLk.encodeInstruction_imm 2
  have hexpr : encodeInstruction ((CALLk.mcInst (.imm 2)).withOperand 0 (.expr (.symbolRef 0))) =
    _ := CALLk.encodeInstruction_expr (.symbolRef 0)
  have hadjust : adjustFixupValue .fixupCall false 2 = .ok (callValue (2 >>> 1)) := rfl
  rw [encodesAlike_iff_of_ok himm hexpr hadjust (show 3 ≤ 4 by decide)]
  decide

end AbsBranch

end Snes
