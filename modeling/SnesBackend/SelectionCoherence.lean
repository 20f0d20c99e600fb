/-
# Coherence of the Selection Patterns

When all instructions that can be selected for a node of type `i16` do what the node
does.  The pseudos always do; a byte-wide instruction does when the half that it
leaves alone already holds what the node would put there.
-/
import SnesBackend.SelectionPatterns

namespace Snes

open WordArith ExpandPseudo RoundRewriting

/-! ## When the high half is right as it is -/

/-- The high byte of the first operand is that of the result of a binary node. -/
def BinaryNode.HighKept (op : BinaryNode) (ah al bh bl : BitVec 8) (c : Bool) : Prop :=
  match op with
  | add | addc => Cancels bh (carryOut al bl false)
  | adde => Cancels bh (carryOut al bl c)
  | sub | subc => Cancels bh (borrowOut al bl false)
  | sube => Cancels bh (borrowOut al bl c)
  | and => ah &&& bh = ah
  | or => ah ||| bh = ah
  | xor => bh = 0

/-- The high byte of the operand is that of the result of a unary node. -/
def UnaryNode.HighKept (op : UnaryNode) (ah al : BitVec 8) : Prop :=
  match op with
  | not => False
  | ineg => al = 0 ∧ (ah = 0 ∨ ah = 0x80)
  | SNESlsl | SNESasr => Cancels ah al.msb
  | SNESlsr => ah = 0
  -- this node has one pattern, at a pseudo
  | shl => True

/-- The high bytes compare, with the borrow of the low bytes, as the low bytes do. -/
def CompareNode.HighKept (op : CompareNode) (ah al bh bl : BitVec 8) (f : Flags) : Prop :=
  let low := op.flags al bl f
  (low.zero = true → subBorrow ah bh low.carry = 0) ∧
    (low.carry = true ↔ ah.toNat < bh.toNat + low.carry.toNat) ∧
    (subBorrow ah bh low.carry).msb = low.negative ∧ subOverflow ah bh low.carry = low.overflow

namespace AccessAddress

/-- A byte-wide load can be selected for an address: through a pointer in an index register, with a
displacement through another register than that of the result, or at a fixed address. -/
def ByteLoad (dst held : WordReg) : AccessAddress → Prop
  | value _ => held ≠ .A
  | ADD base c => held ≠ .A ∨ (c.toNat < 64 ∧ dst ≠ base)
  | SUB base c => held ≠ .A ∨ (c = 0 ∧ dst ≠ base)
  | constant _ | SNESWrapper _ _ _ => True

/-- A byte-wide store can be selected for an address without a displacement. -/
def ByteStore (held : WordReg) : AccessAddress → Prop
  | value _ | ADD _ _ | SUB _ _ => held ≠ .A
  | constant _ | SNESWrapper _ _ _ => True

/-- A sum or difference with a displacement of six bits. -/
def Displaced : AccessAddress → Prop
  | ADD _ c => c.toNat < 64
  | SUB _ c => c = 0
  | value _ | constant _ | SNESWrapper _ _ _ => False

end AccessAddress

/-- When a node is selected coherently: the high byte of its result is where it belongs before, or
no byte-wide instruction can be selected; the word at a constant address that is loaded to `A` is
the address; and nothing is stored with a displacement, since the stores to the stack, which only
`fixStackStores` replaces, can be selected with any base. -/
def SelectionNode.HighKept (symbols : ℕ → BitVec 16) (s : MachineState) : SelectionNode → Prop
  | binary op dst src =>
      op.HighKept (s.regs dst.subHi) (s.regs dst.subLo) (s.regs src.subHi) (s.regs src.subLo)
        s.p.carry
  | unary op dst => op.HighKept (s.regs dst.subHi) (s.regs dst.subLo)
  | compare op lhs rhs =>
      op.HighKept (s.regs lhs.subHi) (s.regs lhs.subLo) (s.regs rhs.subHi) (s.regs rhs.subLo)
        s.p.toFlags
  | load dst address held =>
      (address.ByteLoad dst held →
        s.regs dst.subHi = s.mem (address.eval symbols s + 1)) ∧
      ∀ k, address = .constant k → dst = .A → s.load .i16 k = k
  | store src address held =>
      ¬ address.Displaced ∧
        (address.ByteStore held → s.mem (address.eval symbols s + 1) = s.regs src.subHi)
  | indexedLoad _ _ _ => True
  -- no store with a moving pointer takes these registers
  | indexedStore _ src ptr => src = ptr ∨ ptr = .A

/-! ## Execution -/

section

variable (scavenge : Scavenger) (symbols : ℕ → BitVec 16) (s : MachineState)

/-- A real instruction is left alone by the pass. -/
theorem execExpanded_of_real {mi : MachineInstr} (h : mi.opcode.isPseudo = false) :
    execExpanded scavenge symbols mi s = execSelected symbols mi s := by
  have hblock : expandBlock scavenge [mi] = some [mi] :=
    rewriteRounds_of_unchanged (rewriteRound_of_noPseudos scavenge [] (.cons h noPseudos_nil))
  rw [execExpanded, runOnMachineFunction_singleton.mpr hblock]
  exact Option.bind_fun_some _

/-- A store to the stack is left alone too, and cannot be executed. -/
theorem execExpanded_stackStore (base src : WordReg) (q : BitVec 64) :
    execExpanded scavenge symbols ⟨.STDWSPQRr, [.reg (.word base), .imm q, .reg (.word src)]⟩ s =
      none := by
  have hblock : expandBlock scavenge [⟨.STDWSPQRr, [.reg (.word base), .imm q, .reg (.word src)]⟩] =
      some [⟨.STDWSPQRr, [.reg (.word base), .imm q, .reg (.word src)]⟩] := by
    refine rewriteRounds_of_unchanged (rewriteRound_of_forall_unchanged [] fun mi hmi before => ?_)
    obtain rfl := List.mem_singleton.mp hmi
    rfl
  rw [execExpanded, runOnMachineFunction_singleton.mpr hblock]
  rfl

/-- A pseudo is executed as what it expands to. -/
theorem execExpanded_of_expanded {mi : MachineInstr} {mis : List MachineInstr}
    (h : expandMI (scavenge []) mi = .expanded mis) (hmis : NoPseudos mis) :
    execExpanded scavenge symbols mi s = execSelectedBlock symbols mis s := by
  rw [execExpanded, runOnMachineFunction_of_expanded h hmis]
  exact congrArg (execSelectedBlock symbols · s) (List.append_nil mis)

end

/-! ## Computations on registers -/

section

variable {scavenge : Scavenger} {symbols : ℕ → BitVec 16} {s : MachineState}

/-- The pseudo with the pattern of a binary node. -/
def BinaryNode.pseudo : BinaryNode → RegRegPseudo
  | add | addc => .ADDW
  | adde => .ADCW
  | sub | subc => .SUBW
  | sube => .SBCW
  | and => .ANDW
  | or => .ORW
  | xor => .EORW

/-- A binary node has a byte-wide instruction, which computes the low half of the pseudo, and the
pseudo. -/
theorem BinaryNode.outputs_eq (op : BinaryNode) :
    op.outputs = [op.pseudo.byteOps.1, op.pseudo.opcode] := by
  cases op <;> rfl

theorem BinaryNode.pseudo_result (op : BinaryNode) : op.pseudo.result = op.result := by
  cases op <;> rfl

theorem BinaryNode.pseudo_carry (op : BinaryNode) {a b : BitVec 16} {c carry : Bool}
    (h : op.carry a b c = some carry) : op.pseudo.carry a b c = some carry := by
  cases op <;> first | exact h | cases h

/-- Instructions that take main registers admit all of them. -/
theorem classesHold_mainRegs {op : Opcode} (regs : List WordReg)
    (h : MachineInstr.operandTypes op = List.replicate regs.length (.reg .mainRegs)) :
    MachineInstr.ClassesHold ⟨op, regs.map fun r => .reg (.word r)⟩ := by
  rw [MachineInstr.ClassesHold, h]
  clear h
  induction regs with
  | nil => exact .nil
  | cons r regs ih => exact .cons ((hasType_reg_iff _ _).mpr ((mem_mainRegs_iff _).mpr ⟨r, rfl⟩)) ih

/-- The bytes of a word are determined. -/
theorem append_bytes_inj {h l h' l' : BitVec 8} : h ++ l = h' ++ l' ↔ h = h' ∧ l = l' := by
  constructor
  · intro heq
    have hhigh := congrArg (fun v : BitVec 16 => ((v >>> 8).setWidth 8 : BitVec 8)) heq
    have hlow := congrArg (fun v : BitVec 16 => (v.setWidth 8 : BitVec 8)) heq
    simp only [MachineState.high_of_append] at hhigh
    simp only [low_of_append] at hlow
    exact ⟨hhigh, hlow⟩
  · rintro ⟨rfl, rfl⟩
    rfl

/-- The effect of an operation on the low half alone. -/
theorem wordEffect_lo_iff (dst : WordReg) (lo : BitVec 8 × Flags) (result : BitVec 16)
    (carry : Option Bool) :
    WordEffect s (s.setResult dst.subLo lo) dst result carry ↔
      s.regs dst.subHi ++ lo.1 = result ∧ ∀ c, carry = some c → lo.2.carry = c := by
  have hword : (s.setResult dst.subLo lo).word dst = s.regs dst.subHi ++ lo.1 := by
    unfold MachineState.word
    rw [MachineState.setResult_regs_of_ne _ _ (WordReg.subHi_ne_subLo dst dst),
      MachineState.setResult_regs_self]
  constructor
  · intro h
    exact ⟨hword.symm.trans h.result, h.carry⟩
  · rintro ⟨rfl, hcarry⟩
    exact {
      result := hword
      carry := hcarry
      regs := fun r hlo _ => MachineState.setResult_regs_of_ne _ _ hlo
      upper := rfl
      sp := rfl
      mem := rfl }

/-- A word pseudo does its word operation. -/
theorem execExpanded_wordPseudo (i : WordPseudo) (s : MachineState) :
    ∃ s', execExpanded scavenge symbols i.instr s = some s' ∧
      WordEffect s s' i.dst (i.result s) (i.carry s) := by
  have hexpand : ∃ mis, expandMI (scavenge []) i.instr = .expanded mis ∧ NoPseudos mis ∧
      execSelectedBlock symbols mis s = execAluBlock mis s := by
    rcases i with ⟨op, _, _⟩ | ⟨op, _, _⟩ | ⟨op, _⟩ <;> cases op <;>
      exact ⟨_, rfl, noPseudos_pair rfl rfl, rfl⟩
  obtain ⟨mis, hmis, hreal, hexec⟩ := hexpand
  obtain ⟨mis', s', hmis', hs', heffect⟩ := expandMI_wordPseudo (scavenge []) i s
  obtain rfl : mis = mis' := ExpandResult.expanded.inj (hmis.symm.trans hmis')
  exact ⟨s', (execExpanded_of_expanded scavenge symbols s hmis hreal).trans (hexec.trans hs'),
    heffect⟩

/-- The high byte that the operation on the high halves yields is the one that is there, and the
carry of the low halves that of the words, exactly under the condition. -/
theorem BinaryNode.highKept_iff (op : BinaryNode) {f g : BinaryOp}
    (hf : regRegOp op.pseudo.byteOps.1 = some f) (hg : regRegOp op.pseudo.byteOps.2 = some g)
    (ah al bh bl : BitVec 8) (flags : Flags) :
    (ah = (g ah bh (f al bl flags).2).1 ∧
        ∀ c, op.carry (ah ++ al) (bh ++ bl) flags.carry = some c → (f al bl flags).2.carry = c) ↔
      op.HighKept ah al bh bl flags.carry := by
  -- a carry of the low halves that the high halves hand on
  have handed {low word : Bool} {p : Prop} (h : p → word = low) :
      (p ∧ ∀ c, some word = some c → low = c) ↔ p := by
    refine and_iff_left_of_imp fun hp c hc => ?_
    rw [← Option.some.inj hc, h hp]
  have hsum (c : Bool) : Cancels bh (carryOut al bl c) →
      carryOut (ah ++ al) (bh ++ bl) c = carryOut al bl c := fun h => by
    rw [carryOut_append, carryOut_of_cancels ah h]
  have hdifference (c : Bool) : Cancels bh (borrowOut al bl c) →
      borrowOut (ah ++ al) (bh ++ bl) c = borrowOut al bl c := fun h => by
    rw [borrowOut_append, borrowOut_of_cancels ah h]
  cases op <;> simp only [pseudo, RegRegPseudo.byteOps, regRegOp, Option.some.injEq] at hf hg <;>
    subst hf <;> subst hg <;>
    simp only [HighKept, BinaryNode.carry, addFlags, subFlags, cmpcFlags, reduceCtorEq,
      false_implies, implies_true, and_true, eq_comm (a := ah), addCarry_eq_self_iff,
      subBorrow_eq_self_iff]
  case addc => exact handed fun h => carryOut_false _ _ ▸ hsum false h
  case adde => exact handed fun h => hsum flags.carry h
  case subc => exact handed fun h => borrowOut_false _ _ ▸ hdifference false h
  case sube => exact handed fun h => hdifference flags.carry h
  case xor =>
    have h := @BitVec.xor_right_inj 8 bh 0#8 ah
    rw [BitVec.xor_zero] at h
    exact h

/-- All matching instructions can be selected for a node on registers. -/
theorem SelectionNode.selectable_binary (op : BinaryNode) (dst src : WordReg) :
    (SelectionNode.binary op dst src).selectable =
      [⟨op.pseudo.byteOps.1, [.reg (.word dst), .reg (.word dst), .reg (.word src)]⟩,
        (WordPseudo.regReg op.pseudo dst src).instr] := by
  have hclasses (out : Opcode)
      (h : MachineInstr.operandTypes out = List.replicate 3 (.reg .mainRegs)) :
      MachineInstr.ClassesHold ⟨out, [.reg (.word dst), .reg (.word dst), .reg (.word src)]⟩ :=
    classesHold_mainRegs [dst, dst, src] h
  rw [selectable, matchingInstrs, op.outputs_eq]
  refine List.filter_eq_self.mpr fun mi hmi => decide_eq_true ?_
  simp only [List.map_cons, List.map_nil, List.mem_cons, List.not_mem_nil, or_false] at hmi
  rcases hmi with rfl | rfl <;> cases op <;> exact ⟨hclasses _ rfl, rfl⟩

/-- **A binary node** is selected coherently when the high half is right as it is. -/
theorem coherent_binary_iff (op : BinaryNode) (dst src : WordReg) :
    (SelectionNode.binary op dst src).Coherent scavenge symbols s ↔
      (SelectionNode.binary op dst src).HighKept symbols s := by
  obtain ⟨f, g, hf, hg⟩ := op.pseudo.exists_byteOps
  have hpseudo : (SelectionNode.binary op dst src).SelectedRight scavenge symbols s
      (WordPseudo.regReg op.pseudo dst src).instr := by
    obtain ⟨s', hs', heffect⟩ := execExpanded_wordPseudo (.regReg op.pseudo dst src) s
    refine ⟨s', hs', { heffect with result := ?_, carry := fun c hc => ?_ }⟩
    · rw [← op.pseudo_result]
      exact heffect.result
    · exact heffect.carry c (op.pseudo_carry hc)
  have hbyte : execExpanded scavenge symbols
      ⟨op.pseudo.byteOps.1, [.reg (.word dst), .reg (.word dst), .reg (.word src)]⟩ s =
        some (s.setResult dst.subLo (f (s.regs dst.subLo) (s.regs src.subLo) s.p.toFlags)) := by
    have hexec : execSelected symbols
        ⟨op.pseudo.byteOps.1, [.reg (.word dst), .reg (.word dst), .reg (.word src)]⟩ s =
          (regRegOp op.pseudo.byteOps.1).map fun h =>
            s.setResult dst.subLo (h (s.regs dst.subLo) (s.regs src.subLo) s.p.toFlags) := by
      cases op <;> rfl
    rw [execExpanded_of_real _ _ _ (by cases op <;> rfl), hexec, hf]
    rfl
  have hresult := (op.pseudo.chain hf hg (s.regs dst.subHi) (s.regs dst.subLo) (s.regs src.subHi)
    (s.regs src.subLo) s.p.toFlags).1
  rw [SelectionNode.Coherent, SelectionNode.selectable_binary, List.forall_mem_cons,
    List.forall_mem_singleton, and_iff_left hpseudo, SelectionNode.SelectedRight, hbyte]
  simp only [Option.some.injEq, exists_eq_left', SelectionNode.Effect]
  rw [← op.pseudo_result, MachineState.word, MachineState.word, ← hresult, wordEffect_lo_iff,
    append_bytes_inj, and_iff_left rfl]
  exact op.highKept_iff hf hg _ _ _ _ _

/-! ### One register -/

/-- The bit shifted in from above is that of the word shifted. -/
theorem shiftRightIn_bit_inj {w : ℕ} {a : BitVec (w + 1)} {c d : Bool} :
    shiftRightIn c a = shiftRightIn d a ↔ c = d := by
  have hpos := Nat.two_pow_pos w
  rw [← BitVec.toNat_inj, toNat_shiftRightIn, toNat_shiftRightIn, Nat.add_left_cancel_iff]
  cases c <;> cases d <;> simp [hpos.ne]

/-- A word of all ones has its lowest bit set, the zero word has not. -/
theorem getLsbD_zero_of_cancels {a : BitVec 8} {c : Bool} (h : Cancels a c) :
    a.getLsbD 0 = c ∧ a.msb = c := by
  rcases h with ⟨rfl, rfl⟩ | ⟨rfl, rfl⟩ <;> decide

/-- The negation of a word leaves its high byte alone only for 0 and `0x8000`. -/
theorem negated_high_iff (ah al : BitVec 8) :
    ah = subBorrow 0 ah (borrowOut 0 al false) ↔ al = 0 ∧ (ah = 0 ∨ ah = 0x80) := by
  have hborrow : borrowOut 0 al false = decide (al ≠ 0) := by
    rw [borrowOut, decide_eq_decide, ne_eq, ← BitVec.toNat_inj]
    simp [Nat.pos_iff_ne_zero]
  have hbyte : ∀ c, ah = subBorrow 0 ah c ↔ c = false ∧ (ah = 0 ∨ ah = 0x80) := by
    revert ah
    decide +kernel
  rw [hborrow, hbyte]
  simp

/-- The byte-wide instruction of a unary node, and what it does to the low half. -/
def UnaryNode.byteOp : UnaryNode → Option (Opcode × UnaryOp)
  | not => some (.COMRd, fun a f => (~~~a, logicFlags (~~~a) f))
  | ineg => some (.NEGRd, fun a _ => (subBorrow 0 a false, subFlags 0 a false))
  | SNESlsl =>
      some (.LSLRd, fun a _ => (shiftLeftIn a false, shiftFlags (shiftLeftIn a false) a.msb))
  | SNESlsr => some (.LSRRd, fun a _ =>
      (shiftRightIn false a, shiftFlags (shiftRightIn false a) (a.getLsbD 0)))
  | SNESasr => some (.ASRRd, fun a _ =>
      (shiftRightIn a.msb a, shiftFlags (shiftRightIn a.msb a) (a.getLsbD 0)))
  | shl => none

/-- The pseudo of a unary node. -/
def UnaryNode.pseudo : UnaryNode → Option RegPseudo
  | not => some .COMW
  | ineg => none
  | SNESlsl | shl => some .LSLW
  | SNESlsr => some .LSRW
  | SNESasr => some .ASRW

theorem UnaryNode.pseudo_result {op : UnaryNode} {pseudo : RegPseudo} (h : op.pseudo = some pseudo) :
    pseudo.result = op.result := by
  cases op <;> cases h <;> rfl

/-- A byte-wide unary operation is right exactly under the condition. -/
theorem UnaryNode.highKept_iff {op : UnaryNode} {out : Opcode} {f : UnaryOp}
    (hf : op.byteOp = some (out, f)) (ah al : BitVec 8) (flags : Flags) :
    ah ++ (f al flags).1 = op.result (ah ++ al) ↔ op.HighKept ah al := by
  obtain ⟨hcom, ⟨hlsl, -⟩, ⟨hlsr, -⟩, ⟨hasr, -⟩⟩ := RegPseudo.chain ah al
  cases op <;> cases hf
  case not =>
    rw [← UnaryNode.pseudo_result rfl, ← hcom, append_bytes_inj, HighKept, iff_false]
    exact fun h => BitVec.ne_not_self (by decide) h.1
  case ineg =>
    have hneg : UnaryNode.ineg.result (ah ++ al) =
        subBorrow 0 ah (borrowOut 0 al false) ++ subBorrow 0 al false := by
      rw [← subBorrow_append]
      simp [result, subBorrow]
    rw [hneg, append_bytes_inj, and_iff_left rfl]
    exact negated_high_iff ah al
  case SNESlsl =>
    rw [← UnaryNode.pseudo_result rfl, ← hlsl, append_bytes_inj, and_iff_left rfl, eq_comm,
      shiftLeftIn_eq_self_iff, HighKept]
  case SNESlsr =>
    rw [← UnaryNode.pseudo_result rfl, ← hlsr, append_bytes_inj, eq_comm (b := shiftRightIn _ ah),
      shiftRightIn_eq_self_iff, shiftRightIn_bit_inj]
    have hzero : Cancels ah false ↔ ah = 0 := by simp [Cancels]
    rw [hzero, HighKept, and_iff_left_of_imp]
    rintro rfl
    rfl
  case SNESasr =>
    rw [← UnaryNode.pseudo_result rfl, ← hasr, append_bytes_inj, eq_comm (b := shiftRightIn _ ah),
      shiftRightIn_eq_self_iff, shiftRightIn_bit_inj, HighKept]
    constructor
    · rintro ⟨hcancels, hbit⟩
      rwa [hbit, (getLsbD_zero_of_cancels hcancels).1]
    · intro hcancels
      obtain ⟨hlowest, hmsb⟩ := getLsbD_zero_of_cancels hcancels
      exact ⟨hmsb ▸ hcancels, hlowest.symm⟩

/-- The pseudo of a unary node does what the node does. -/
theorem selectedRight_unary_pseudo {op : UnaryNode} {pseudo : RegPseudo}
    (h : op.pseudo = some pseudo) (dst : WordReg) :
    (SelectionNode.unary op dst).SelectedRight scavenge symbols s
      (WordPseudo.reg pseudo dst).instr := by
  obtain ⟨s', hs', heffect⟩ := execExpanded_wordPseudo (.reg pseudo dst) s
  refine ⟨s', hs', { heffect with result := ?_, carry := nofun }⟩
  rw [← op.pseudo_result h]
  exact heffect.result

/-- Its byte-wide instruction does when the high half is right as it is. -/
theorem selectedRight_unary_byte {op : UnaryNode} {out : Opcode} {f : UnaryOp}
    (hf : op.byteOp = some (out, f)) (dst : WordReg) :
    (SelectionNode.unary op dst).SelectedRight scavenge symbols s
        ⟨out, [.reg (.word dst), .reg (.word dst)]⟩ ↔
      op.HighKept (s.regs dst.subHi) (s.regs dst.subLo) := by
  have hexec : execExpanded scavenge symbols ⟨out, [.reg (.word dst), .reg (.word dst)]⟩ s =
      some (s.setResult dst.subLo (f (s.regs dst.subLo) s.p.toFlags)) := by
    rw [execExpanded_of_real _ _ _ (by cases op <;> cases hf <;> rfl)]
    cases op <;> cases hf <;> rfl
  rw [SelectionNode.SelectedRight, hexec]
  simp only [Option.some.injEq, exists_eq_left', SelectionNode.Effect]
  rw [wordEffect_lo_iff, and_iff_left nofun]
  exact UnaryNode.highKept_iff hf _ _ _

/-- All matching instructions can be selected for a unary node on any register, but for the
exclusive or that matches a complement. -/
theorem SelectionNode.selectable_unary {op : UnaryNode} (hop : op ≠ .not) (dst : WordReg) :
    (SelectionNode.unary op dst).selectable =
      op.outputs.map fun out => ⟨out, [.reg (.word dst), .reg (.word dst)]⟩ := by
  have hclasses (out : Opcode)
      (h : MachineInstr.operandTypes out = List.replicate 2 (.reg .mainRegs)) :
      MachineInstr.ClassesHold ⟨out, [.reg (.word dst), .reg (.word dst)]⟩ :=
    classesHold_mainRegs [dst, dst] h
  rw [selectable, matchingInstrs, if_neg hop, List.append_nil]
  refine List.filter_eq_self.mpr fun mi hmi => decide_eq_true ?_
  obtain ⟨out, hout, rfl⟩ := List.mem_map.mp hmi
  cases op <;> simp only [UnaryNode.outputs, List.mem_cons, List.not_mem_nil, or_false] at hout
  case not => exact absurd rfl hop
  case ineg | shl => exact hout ▸ ⟨hclasses _ rfl, rfl⟩
  all_goals rcases hout with rfl | rfl <;> exact ⟨hclasses _ rfl, rfl⟩

/-- **A unary node** is selected coherently when the high half is right as it is. -/
theorem coherent_unary_iff (op : UnaryNode) (dst : WordReg) :
    (SelectionNode.unary op dst).Coherent scavenge symbols s ↔
      (SelectionNode.unary op dst).HighKept symbols s := by
  by_cases hop : op = .not
  · subst hop
    refine ⟨fun h => ?_, False.elim⟩
    have hmem : (⟨.COMRd, [.reg (.word dst), .reg (.word dst)]⟩ : MachineInstr) ∈
        (SelectionNode.unary .not dst).selectable :=
      List.mem_filter.mpr ⟨by simp [SelectionNode.matchingInstrs, UnaryNode.outputs],
        decide_eq_true ⟨classesHold_mainRegs [dst, dst] rfl, rfl⟩⟩
    exact (selectedRight_unary_byte rfl dst).mp (h _ hmem)
  · rw [SelectionNode.Coherent, SelectionNode.selectable_unary hop]
    -- a byte-wide instruction and a pseudo
    have hpair (op : UnaryNode) {out : Opcode} {f : UnaryOp} {pseudo : RegPseudo}
        (hf : op.byteOp = some (out, f)) (hpseudo : op.pseudo = some pseudo)
        (houts : op.outputs = [out, pseudo.opcode]) :
        (∀ mi ∈ op.outputs.map fun out => ⟨out, [.reg (.word dst), .reg (.word dst)]⟩,
          (SelectionNode.unary op dst).SelectedRight scavenge symbols s mi) ↔
          op.HighKept (s.regs dst.subHi) (s.regs dst.subLo) := by
      have hright : (SelectionNode.unary op dst).SelectedRight scavenge symbols s
          ⟨pseudo.opcode, [.reg (.word dst), .reg (.word dst)]⟩ :=
        selectedRight_unary_pseudo hpseudo dst
      rw [houts, List.map_cons, List.forall_mem_cons, List.map_singleton,
        List.forall_mem_singleton, and_iff_left hright]
      exact selectedRight_unary_byte hf dst
    cases op with
    | not => exact absurd rfl hop
    | ineg => exact List.forall_mem_singleton.trans (selectedRight_unary_byte rfl dst)
    | shl =>
        have hright : (SelectionNode.unary .shl dst).SelectedRight scavenge symbols s
            (WordPseudo.reg .LSLW dst).instr := selectedRight_unary_pseudo rfl dst
        exact iff_of_true (List.forall_mem_singleton.mpr hright) trivial
    | SNESlsl => exact hpair .SNESlsl rfl rfl rfl
    | SNESlsr => exact hpair .SNESlsr rfl rfl rfl
    | SNESasr => exact hpair .SNESasr rfl rfl rfl

/-! ### Comparisons -/

/-- A comparison that continues with the high bytes. -/
theorem CompareNode.flags_append (op : CompareNode) (ah al bh bl : BitVec 8) (f : Flags) :
    op.flags (ah ++ al) (bh ++ bl) f = cmpcFlags ah bh (op.flags al bl f) := by
  cases op with
  | SNEScmp => exact subFlags_append ah bh al bl false
  | SNEScmpc => exact cmpcFlags_append ah bh al bl f

/-- The high bytes leave the flags of the low bytes alone exactly under the condition. -/
theorem CompareNode.highKept_iff (op : CompareNode) (ah al bh bl : BitVec 8) (f : Flags) :
    op.flags al bl f = op.flags (ah ++ al) (bh ++ bl) f ↔ op.HighKept ah al bh bl f := by
  rw [op.flags_append, HighKept]
  obtain ⟨c, z, n, v⟩ := op.flags al bl f
  have hcarry : c = borrowOut ah bh c ↔ (c = true ↔ ah.toNat < bh.toNat + c.toNat) := by
    rw [Bool.eq_iff_iff, borrowOut, decide_eq_true_iff]
  have hzero : z = (subBorrow ah bh c == 0 && z) ↔ (z = true → subBorrow ah bh c = 0) := by
    cases z <;> simp
  simp only [cmpcFlags, subFlags, Flags.mk.injEq, hcarry, hzero]
  rw [eq_comm (a := n), eq_comm (a := v), and_left_comm]

/-- All matching instructions can be selected for a comparison. -/
theorem SelectionNode.selectable_compare (op : CompareNode) (lhs rhs : WordReg) :
    (SelectionNode.compare op lhs rhs).selectable =
      op.outputs.map fun out => ⟨out, [.reg (.word lhs), .reg (.word rhs)]⟩ := by
  refine List.filter_eq_self.mpr fun mi hmi => decide_eq_true ?_
  obtain ⟨out, hout, rfl⟩ := List.mem_map.mp hmi
  refine ⟨classesHold_mainRegs [lhs, rhs] ?_, ?_⟩ <;>
    cases op <;>
    simp only [CompareNode.outputs, List.mem_cons, List.not_mem_nil, or_false] at hout <;>
    rcases hout with rfl | rfl <;> rfl

/-- **A comparison** is selected coherently when the high bytes leave the flags of the low bytes
alone. -/
theorem coherent_compare_iff (op : CompareNode) (lhs rhs : WordReg) :
    (SelectionNode.compare op lhs rhs).Coherent scavenge symbols s ↔
      (SelectionNode.compare op lhs rhs).HighKept symbols s := by
  let pair : ComparedPair := ⟨lhs, rhs, s.regs⟩
  -- the byte comparison and the pseudo of the node
  have hpair (opLo opWord : Opcode) (houts : op.outputs = [opLo, opWord])
      (hlow : execExpanded scavenge symbols ⟨opLo, [.reg (.word lhs), .reg (.word rhs)]⟩ s =
        some (s.setFlags (op.flags (s.regs lhs.subLo) (s.regs rhs.subLo) s.p.toFlags)))
      (hword : execExpanded scavenge symbols ⟨opWord, [.reg (.word lhs), .reg (.word rhs)]⟩ s =
        some (s.setFlags (op.flags (s.word lhs) (s.word rhs) s.p.toFlags))) :
      (SelectionNode.compare op lhs rhs).Coherent scavenge symbols s ↔
        (SelectionNode.compare op lhs rhs).HighKept symbols s := by
    have hflags (f g : Flags) : s.setFlags f = s.setFlags g ↔ f = g :=
      ⟨fun h => congrArg (fun t : MachineState => t.p.toFlags) h, fun h => h ▸ rfl⟩
    rw [SelectionNode.Coherent, SelectionNode.selectable_compare, houts]
    simp only [List.map_cons, List.map_nil, List.forall_mem_cons, List.not_mem_nil, false_implies,
      implies_true, and_true, SelectionNode.SelectedRight, hlow, hword, Option.some.injEq,
      exists_eq_left', SelectionNode.Effect, hflags]
    exact op.highKept_iff _ _ _ _ _
  cases op with
  | SNEScmp =>
      refine hpair .CPRdRr .CPWRdRr rfl (execExpanded_of_real _ _ _ rfl) ?_
      have hexpand : expandMI (scavenge []) ⟨.CPWRdRr, [.reg (.word lhs), .reg (.word rhs)]⟩ =
          .expanded (byteCompares .CPRdRr pair) := rfl
      rw [execExpanded_of_expanded _ _ _ hexpand (noPseudos_byteCompares _ rfl pair)]
      exact execCompareBlock_first pair s
  | SNEScmpc =>
      refine hpair .CPCRdRr .CPCWRdRr rfl (execExpanded_of_real _ _ _ rfl) ?_
      have hexpand : expandMI (scavenge []) ⟨.CPCWRdRr, [.reg (.word lhs), .reg (.word rhs)]⟩ =
          .expanded (byteCompares .CPCRdRr pair) := rfl
      rw [execExpanded_of_expanded _ _ _ hexpand (noPseudos_byteCompares _ rfl pair)]
      exact execCompareBlock_later pair s

end

end Snes
