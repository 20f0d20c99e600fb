/-
# Lowering of Integer Comparisons

`getSNESCmp` of `SNESISelLowering.cpp`: it rewrites a condition code and its
operands, builds a chain of `CMP` and `CMPC` nodes or a `TST` node, and returns
the condition to test on the flags.
-/
import SnesBackend.WordArith

namespace Snes

open WordArith

/-! ## Nodes and conditions -/

/-- The types that are compared. -/
inductive CmpType where
  | i8 | i16 | i32 | i64
deriving DecidableEq, Repr

/-- The number of bits of a type. -/
def CmpType.width : CmpType → ℕ
  | i8 => 8
  | i16 => 16
  | i32 => 32
  | i64 => 64

/-- The integer condition codes of the DAG. -/
inductive CondCode where
  | SETEQ | SETNE | SETLT | SETLE | SETGT | SETGE | SETULT | SETULE | SETUGT | SETUGE
deriving DecidableEq, Repr

/-- When a condition code holds. -/
def CondCode.eval {w : ℕ} (cc : CondCode) (a b : BitVec w) : Bool :=
  match cc with
  | SETEQ => a == b
  | SETNE => a != b
  | SETLT => a.slt b
  | SETLE => a.sle b
  | SETGT => b.slt a
  | SETGE => b.sle a
  | SETULT => a.ult b
  | SETULE => a.ule b
  | SETUGT => b.ult a
  | SETUGE => b.ule a

/-- The conditions of the target, `SNESCC::CondCodes`. -/
inductive SNESCC where
  | COND_EQ | COND_NE | COND_GE | COND_LT | COND_SH | COND_LO | COND_MI | COND_PL
deriving DecidableEq, Repr

/-- When a condition of the target holds on the flags. -/
def SNESCC.holds (cc : SNESCC) (f : Flags) : Bool :=
  match cc with
  | COND_EQ => f.zero
  | COND_NE => !f.zero
  | COND_GE => !(f.negative != f.overflow)
  | COND_LT => f.negative != f.overflow
  | COND_SH => !f.carry
  | COND_LO => f.carry
  | COND_MI => f.negative
  | COND_PL => !f.negative

/-- Integer nodes, by width: a value known at run time only, a constant, or an `EXTRACT_ELEMENT` of
a node twice as wide. -/
inductive SDValue : ℕ → Type where
  | value {w : ℕ} (name : ℕ) : SDValue w
  | constant {w : ℕ} (c : BitVec w) : SDValue w
  | extractElement {w : ℕ} (x : SDValue (w + w)) (i : ℕ) : SDValue w

/-- The run-time values of each width. -/
abbrev Valuation : Type := (w : ℕ) → ℕ → BitVec w

/-- The value of a node. -/
def SDValue.eval (env : Valuation) {w : ℕ} : SDValue w → BitVec w
  | value name => env w name
  | constant c => c
  | extractElement x i => (x.eval env).extractLsb' (w * i) w

/-- `dyn_cast<ConstantSDNode>`. -/
def SDValue.constant? {w : ℕ} : SDValue w → Option (BitVec w)
  | constant c => some c
  | _ => none

/-- The nodes that set the flags. -/
inductive CmpNode where
  | CMP {w : ℕ} (lhs rhs : SDValue w)
  | CMPC {w : ℕ} (lhs rhs : SDValue w) (glue : CmpNode)
  | TST {w : ℕ} (x : SDValue w)

/-- The flags that a node leaves. -/
def CmpNode.flags (env : Valuation) : CmpNode → Flags
  | CMP lhs rhs => cmpFlags (lhs.eval env) (rhs.eval env)
  | CMPC lhs rhs glue => cmpcFlags (lhs.eval env) (rhs.eval env) (glue.flags env)
  | TST x => cmpFlags (x.eval env) 0

/-! ## `getSNESCmp` -/

/-- `intCCToSNESCC`; the other codes are unreachable. -/
def intCCToSNESCC : CondCode → Option SNESCC
  | .SETEQ => some .COND_EQ
  | .SETNE => some .COND_NE
  | .SETGE => some .COND_GE
  | .SETLT => some .COND_LT
  | .SETUGE => some .COND_SH
  | .SETULT => some .COND_LO
  | _ => none

/-- The operands and the condition code after the `switch` of `getSNESCmp`; `test` is the condition
that `UseTest` goes with. -/
structure RewrittenCmp (w : ℕ) where
  lhs : SDValue w
  rhs : SDValue w
  cc : CondCode
  test : Option SNESCC

/-- `getConstant` of the sign-extended value plus one. -/
def constantPlusOne {w : ℕ} (c : BitVec w) : SDValue w :=
  .constant (BitVec.ofInt w (c.toInt + 1))

/-- The `switch` of `getSNESCmp`. -/
def rewriteCmp {w : ℕ} (lhs rhs : SDValue w) (cc : CondCode) : RewrittenCmp w :=
  match cc with
  | .SETLE => ⟨rhs, lhs, .SETGE, none⟩
  | .SETGT =>
      match rhs.constant? with
      | some c =>
          if c.toInt = -1 then ⟨lhs, rhs, .SETGT, some .COND_PL⟩
          else if c.toInt = 0 then ⟨.constant 0, lhs, .SETLT, none⟩
          else ⟨lhs, constantPlusOne c, .SETGE, none⟩
      | none => ⟨rhs, lhs, .SETLT, none⟩
  | .SETLT =>
      match rhs.constant? with
      | some c =>
          if c.toInt = 1 then ⟨.constant 0, lhs, .SETGE, none⟩
          else if c.toInt = 0 then ⟨lhs, rhs, .SETLT, some .COND_MI⟩
          else ⟨lhs, rhs, .SETLT, none⟩
      | none => ⟨lhs, rhs, .SETLT, none⟩
  | .SETULE => ⟨rhs, lhs, .SETUGE, none⟩
  | .SETUGT =>
      match rhs.constant? with
      | some c => ⟨lhs, constantPlusOne c, .SETUGE, none⟩
      | none => ⟨rhs, lhs, .SETULT, none⟩
  | cc => ⟨lhs, rhs, cc, none⟩

/-- The halves of a 64-bit node. -/
def SDValue.half32 (x : SDValue 64) (i : ℕ) : SDValue 32 :=
  .extractElement x i

/-- The halves of a 32-bit node. -/
def SDValue.half16 (x : SDValue 32) (i : ℕ) : SDValue 16 :=
  .extractElement x i

/-- The bytes of a 16-bit node. -/
def SDValue.half8 (x : SDValue 16) (i : ℕ) : SDValue 8 :=
  .extractElement x i

/-- The comparison of two nodes: one `CMP`, or a `CMP` of the low words and a `CMPC` of each higher
pair. -/
def buildCmp (vt : CmpType) (lhs rhs : SDValue vt.width) : CmpNode :=
  match vt with
  | .i8 => .CMP lhs rhs
  | .i16 => .CMP lhs rhs
  | .i32 => .CMPC (lhs.half16 1) (rhs.half16 1) (.CMP (lhs.half16 0) (rhs.half16 0))
  | .i64 =>
      .CMPC ((lhs.half32 1).half16 1) ((rhs.half32 1).half16 1)
        (.CMPC ((lhs.half32 1).half16 0) ((rhs.half32 1).half16 0)
          (.CMPC ((lhs.half32 0).half16 1) ((rhs.half32 0).half16 1)
            (.CMP ((lhs.half32 0).half16 0) ((rhs.half32 0).half16 0))))

/-- The test of a node: only its highest byte matters. -/
def buildTest (vt : CmpType) (lhs : SDValue vt.width) : CmpNode :=
  match vt with
  | .i8 => .TST lhs
  | .i16 => .TST (lhs.half8 1)
  | .i32 => .TST ((lhs.half16 1).half8 1)
  | .i64 => .TST (((lhs.half32 1).half16 1).half8 1)

/-- `getSNESCmp`: the node that sets the flags and the condition to test on them. -/
def getSNESCmp (vt : CmpType) (lhs rhs : SDValue vt.width) (cc : CondCode) :
    Option (CmpNode × SNESCC) :=
  let new := rewriteCmp lhs rhs cc
  match new.test with
  | some test => some (buildTest vt new.lhs, test)
  | none => (intCCToSNESCC new.cc).map fun snescc => (buildCmp vt new.lhs new.rhs, snescc)

/-- A comparison is lowered right: the condition holds on the flags exactly when the condition code
holds of the operands. -/
def LowersRight (vt : CmpType) (lhs rhs : SDValue vt.width) (cc : CondCode) (env : Valuation) :
    Prop :=
  ∃ node snescc, getSNESCmp vt lhs rhs cc = some (node, snescc) ∧
    snescc.holds (node.flags env) = cc.eval (lhs.eval env) (rhs.eval env)

/-! ## The flags of the nodes -/

/-- The halves of a node put together. -/
theorem eval_halves (env : Valuation) {w : ℕ} (x : SDValue (w + w)) :
    (SDValue.extractElement x 1).eval env ++ (SDValue.extractElement x 0).eval env =
      x.eval env := by
  ext i hi
  simp only [SDValue.eval, BitVec.getElem_append, BitVec.getElem_extractLsb', Nat.mul_zero,
    Nat.mul_one, Nat.zero_add]
  by_cases low : i < w
  · simp [low, BitVec.getLsbD_eq_getElem hi]
  · simp [low, show w + (i - w) = i by omega, BitVec.getLsbD_eq_getElem hi]

/-- Comparing the low halves and then the high halves compares the whole. -/
theorem cmp_halves (env : Valuation) {w : ℕ} (x y : SDValue ((w + 1) + (w + 1))) :
    cmpcFlags ((SDValue.extractElement x 1).eval env) ((SDValue.extractElement y 1).eval env)
        (cmpFlags ((SDValue.extractElement x 0).eval env) ((SDValue.extractElement y 0).eval env)) =
      cmpFlags (x.eval env) (y.eval env) := by
  rw [← eval_halves env x, ← eval_halves env y, cmpFlags, cmpFlags, subFlags_append]

/-- The same inside a chain. -/
theorem cmpc_halves (env : Valuation) {w : ℕ} (x y : SDValue ((w + 1) + (w + 1))) (f : Flags) :
    cmpcFlags ((SDValue.extractElement x 1).eval env) ((SDValue.extractElement y 1).eval env)
        (cmpcFlags ((SDValue.extractElement x 0).eval env)
          ((SDValue.extractElement y 0).eval env) f) =
      cmpcFlags (x.eval env) (y.eval env) f := by
  rw [← eval_halves env x, ← eval_halves env y, cmpcFlags_append]

/-- **The chain compares**: its flags are those of one comparison of the whole operands. -/
theorem flags_buildCmp (env : Valuation) (vt : CmpType) (lhs rhs : SDValue vt.width) :
    (buildCmp vt lhs rhs).flags env = cmpFlags (lhs.eval env) (rhs.eval env) := by
  cases vt with
  | i8 => rfl
  | i16 => rfl
  | i32 => exact cmp_halves env (w := 15) lhs rhs
  | i64 =>
      have low := cmp_halves env (w := 15) (lhs.half32 0) (rhs.half32 0)
      have high := cmpc_halves env (w := 15) (lhs.half32 1) (rhs.half32 1)
        (cmpFlags ((lhs.half32 0).eval env) ((rhs.half32 0).eval env))
      rw [← low] at high
      refine high.trans ?_
      rw [low]
      exact cmp_halves env (w := 31) lhs rhs

/-- The sign of a node is the sign of its high half. -/
theorem msb_high_half (env : Valuation) {w : ℕ} (x : SDValue ((w + 1) + (w + 1))) :
    ((SDValue.extractElement x 1).eval env).msb = (x.eval env).msb := by
  rw [← eval_halves env x, BitVec.msb_append, if_neg (Nat.add_one_ne_zero w)]

/-- A comparison with zero has the sign of the operand. -/
theorem cmp_zero_negative {w : ℕ} (x : BitVec w) : (cmpFlags x 0).negative = x.msb := by
  simp [cmpFlags, subFlags, subBorrow]

/-- **The test sees the sign** of the whole operand. -/
theorem flags_buildTest_negative (env : Valuation) (vt : CmpType) (lhs : SDValue vt.width) :
    ((buildTest vt lhs).flags env).negative = (lhs.eval env).msb := by
  cases vt with
  | i8 => exact cmp_zero_negative _
  | i16 => exact (cmp_zero_negative _).trans (msb_high_half env (w := 7) lhs)
  | i32 =>
      calc ((buildTest .i32 lhs).flags env).negative
          = (((lhs.half16 1).half8 1).eval env).msb := cmp_zero_negative _
        _ = ((lhs.half16 1).eval env).msb := msb_high_half env (w := 7) (lhs.half16 1)
        _ = (lhs.eval env).msb := msb_high_half env (w := 15) lhs
  | i64 =>
      calc ((buildTest .i64 lhs).flags env).negative
          = ((((lhs.half32 1).half16 1).half8 1).eval env).msb := cmp_zero_negative _
        _ = (((lhs.half32 1).half16 1).eval env).msb :=
            msb_high_half env (w := 7) ((lhs.half32 1).half16 1)
        _ = ((lhs.half32 1).eval env).msb := msb_high_half env (w := 15) (lhs.half32 1)
        _ = (lhs.eval env).msb := msb_high_half env (w := 31) lhs

/-! ## The conditions on the flags of a comparison -/

/-- A condition that `intCCToSNESCC` returns means on the flags of a comparison what the condition
code means on its operands. -/
theorem holds_cmp {w : ℕ} (hw : 0 < w) {cc : CondCode} {snescc : SNESCC} (a b : BitVec w)
    (h : intCCToSNESCC cc = some snescc) : snescc.holds (cmpFlags a b) = cc.eval a b := by
  obtain ⟨w, rfl⟩ := Nat.exists_eq_succ_of_ne_zero hw.ne'
  have signed := subFlags_signed_lt a b false
  simp only [Bool.toNat_false, Nat.cast_zero, add_zero] at signed
  cases cc <;> simp only [intCCToSNESCC, Option.some.injEq, reduceCtorEq] at h <;> subst h
  case SETEQ => exact subFlags_zero a b
  case SETNE => exact congrArg Bool.not (subFlags_zero a b)
  case SETLT => exact signed
  case SETGE =>
      simp only [SNESCC.holds, cmpFlags, signed, CondCode.eval, BitVec.sle, ← decide_not, not_lt]
  case SETULT => exact subFlags_carry a b
  case SETUGE =>
      simp only [SNESCC.holds, cmpFlags, subFlags_carry, CondCode.eval, BitVec.ule, ← decide_not,
        not_lt]

/-! ## The rewriting of the condition -/

/-- Below the greatest signed value, `x > c` is `x ≥ c + 1`. -/
theorem sle_add_one {w : ℕ} (hw : 1 < w) {c : BitVec w} (x : BitVec w)
    (hc : c ≠ BitVec.intMax w) : (BitVec.ofInt w (c.toInt + 1)).sle x = c.slt x := by
  have hmax : c.toInt ≠ 2 ^ (w - 1) - 1 := by
    intro h
    exact hc (BitVec.eq_of_toInt_eq (h.trans BitVec.toInt_intMax.symm))
  have low := c.le_toInt
  have high := c.toInt_lt
  have modulus : ((2 ^ w : ℕ) : ℤ) = 2 * 2 ^ (w - 1) := by
    rw [← Nat.sub_add_cancel hw.le, pow_succ, Nat.add_sub_cancel]
    push_cast
    ring
  have value : (BitVec.ofInt w (c.toInt + 1)).toInt = c.toInt + 1 := by
    rw [BitVec.toInt_ofInt, Int.bmod_eq_of_le_mul_two (by omega) (by omega)]
  rw [BitVec.sle, BitVec.slt, value, decide_eq_decide]
  exact Int.add_one_le_iff

/-- Above the greatest signed value there is nothing, but one more wraps to the least one. -/
theorem sle_intMax_add_one {w : ℕ} (hw : 1 < w) (x : BitVec w) :
    (BitVec.ofInt w ((BitVec.intMax w).toInt + 1)).sle x = true ∧
      (BitVec.intMax w).slt x = false := by
  have low := x.le_toInt
  have high := x.toInt_lt
  have modulus : ((2 ^ w : ℕ) : ℤ) = 2 * 2 ^ (w - 1) := by
    rw [← Nat.sub_add_cancel hw.le, pow_succ, Nat.add_sub_cancel]
    push_cast
    ring
  have positive : (0 : ℤ) < 2 ^ (w - 1) := by positivity
  have value : (BitVec.ofInt w ((BitVec.intMax w).toInt + 1)).toInt = -2 ^ (w - 1) := by
    rw [BitVec.toInt_ofInt, BitVec.toInt_intMax, ← Int.sub_bmod_right,
      Int.bmod_eq_of_le_mul_two (by omega) (by omega)]
    omega
  rw [BitVec.sle, BitVec.slt, value, BitVec.toInt_intMax]
  exact ⟨decide_eq_true low, decide_eq_false (by omega)⟩

/-- Below the greatest unsigned value, `x > c` is `x ≥ c + 1`. -/
theorem ule_add_one {w : ℕ} {c : BitVec w} (x : BitVec w) (hc : c ≠ BitVec.allOnes w) :
    (BitVec.ofInt w (c.toInt + 1)).ule x = c.ult x := by
  have hmax : c.toNat ≠ 2 ^ w - 1 := by
    intro h
    exact hc (BitVec.eq_of_toNat_eq (h.trans BitVec.toNat_allOnes.symm))
  have high := c.isLt
  have value : (BitVec.ofInt w (c.toInt + 1)).toNat = c.toNat + 1 := by
    have one : (BitVec.ofInt w 1).toNat = 1 :=
      (BitVec.toNat_ofNat 1 w).trans (Nat.mod_eq_of_lt (by omega))
    rw [BitVec.ofInt_add, BitVec.ofInt_toInt, BitVec.toNat_add, one, Nat.mod_eq_of_lt (by omega)]
  rw [BitVec.ule, BitVec.ult, value, decide_eq_decide]
  exact Nat.add_one_le_iff

/-- Above the greatest unsigned value there is nothing, but one more wraps to zero. -/
theorem ule_allOnes_add_one {w : ℕ} (x : BitVec w) :
    (BitVec.ofInt w ((BitVec.allOnes w).toInt + 1)).ule x = true ∧
      (BitVec.allOnes w).ult x = false := by
  have high := x.isLt
  have value : BitVec.ofInt w ((BitVec.allOnes w).toInt + 1) = 0 := by
    rw [BitVec.ofInt_add, BitVec.ofInt_toInt, ← BitVec.neg_one_eq_allOnes]
    exact neg_add_cancel (1 : BitVec w)
  rw [value, BitVec.ule, BitVec.ult, BitVec.toNat_allOnes]
  exact ⟨by simp, decide_eq_false (by omega)⟩

/-- The constants for which `c + 1` wraps: the greatest value, in the order of the condition. -/
def AtBoundary {w : ℕ} (cc : CondCode) (rhs : SDValue w) : Prop :=
  (cc = .SETGT ∧ rhs.constant? = some (BitVec.intMax w)) ∨
    (cc = .SETUGT ∧ rhs.constant? = some (BitVec.allOnes w))

/-- What the rewritten comparison tests: the sign of its left operand, or its condition code. -/
def RewrittenCmp.eval {w : ℕ} (env : Valuation) (r : RewrittenCmp w) : Bool :=
  match r.test with
  | some test => test.holds (cmpFlags (r.lhs.eval env) 0)
  | none => r.cc.eval (r.lhs.eval env) (r.rhs.eval env)

/-- Only constant nodes are constants. -/
theorem eq_constant_of_constant? {w : ℕ} {x : SDValue w} {c : BitVec w}
    (h : x.constant? = some c) : x = .constant c := by
  cases x with
  | constant d => exact congrArg SDValue.constant (Option.some.inj h)
  | value name => cases h
  | extractElement y i => cases h

/-- `x > -1` and `x < 0` are the sign of `x`. -/
theorem slt_sign {w : ℕ} (x c : BitVec w) :
    (c.toInt = -1 → c.slt x = !x.msb) ∧ (c.toInt = 0 → x.slt c = x.msb) := by
  rw [BitVec.slt, BitVec.slt, BitVec.msb_eq_toInt, ← decide_not, decide_eq_decide,
    decide_eq_decide]
  exact ⟨fun h => by omega, fun h => by omega⟩

/-- The rewriting of a signed `>` with a constant. -/
theorem eval_rewriteCmp_SETGT (env : Valuation) {w : ℕ} (hw : 1 < w) (lhs : SDValue w)
    (c : BitVec w) :
    (rewriteCmp lhs (.constant c) .SETGT).eval env = c.slt (lhs.eval env) ↔
      c ≠ BitVec.intMax w := by
  have one_lt : (1 : ℤ) < 2 ^ (w - 1) := one_lt_pow₀ (by norm_num) (by omega)
  have hmax : c = BitVec.intMax w → c.toInt = 2 ^ (w - 1) - 1 :=
    fun h => h ▸ BitVec.toInt_intMax
  by_cases minus : c.toInt = -1
  · have hc : c ≠ BitVec.intMax w := fun h => by have := hmax h; omega
    have test : (rewriteCmp lhs (.constant c) .SETGT).eval env = !(lhs.eval env).msb := by
      simp only [rewriteCmp, SDValue.constant?, minus, if_true, RewrittenCmp.eval, SNESCC.holds,
        cmp_zero_negative]
    exact iff_of_true (test.trans ((slt_sign _ c).1 minus).symm) hc
  · by_cases zero : c.toInt = 0
    · have hc : c ≠ BitVec.intMax w := fun h => by have := hmax h; omega
      have hzero : c = 0 := BitVec.eq_of_toInt_eq (zero.trans BitVec.toInt_zero.symm)
      have swapped : (rewriteCmp lhs (.constant c) .SETGT).eval env =
          (0 : BitVec w).slt (lhs.eval env) := by
        simp [rewriteCmp, SDValue.constant?, zero, RewrittenCmp.eval, CondCode.eval, SDValue.eval]
      exact iff_of_true (swapped.trans (by rw [hzero])) hc
    · have plusOne : (rewriteCmp lhs (.constant c) .SETGT).eval env =
          (BitVec.ofInt w (c.toInt + 1)).sle (lhs.eval env) := by
        simp [rewriteCmp, SDValue.constant?, minus, zero, RewrittenCmp.eval, CondCode.eval,
          SDValue.eval, constantPlusOne]
      rw [plusOne]
      constructor
      · rintro same rfl
        have boundary := sle_intMax_add_one hw (lhs.eval env)
        rw [boundary.1, boundary.2] at same
        exact Bool.noConfusion same
      · exact sle_add_one hw _

/-- The rewriting of a signed `<` with a constant. -/
theorem eval_rewriteCmp_SETLT (env : Valuation) {w : ℕ} (lhs : SDValue w) (c : BitVec w) :
    (rewriteCmp lhs (.constant c) .SETLT).eval env = (lhs.eval env).slt c := by
  by_cases one : c.toInt = 1
  · have swapped : (rewriteCmp lhs (.constant c) .SETLT).eval env = (lhs.eval env).sle 0 := by
      simp [rewriteCmp, SDValue.constant?, one, RewrittenCmp.eval, CondCode.eval, SDValue.eval]
    rw [swapped, BitVec.sle, BitVec.slt, one, decide_eq_decide]
    have zero : (0 : BitVec w).toInt = 0 := BitVec.toInt_zero
    omega
  · by_cases zero : c.toInt = 0
    · have test : (rewriteCmp lhs (.constant c) .SETLT).eval env = (lhs.eval env).msb := by
        simp only [rewriteCmp, SDValue.constant?, zero, zero_ne_one, if_true, if_false,
          RewrittenCmp.eval, SNESCC.holds, cmp_zero_negative]
      rw [test, (slt_sign _ c).2 zero]
    · simp [rewriteCmp, SDValue.constant?, one, zero, RewrittenCmp.eval, CondCode.eval,
        SDValue.eval]

/-- The rewriting of an unsigned `>` with a constant. -/
theorem eval_rewriteCmp_SETUGT (env : Valuation) {w : ℕ} (lhs : SDValue w) (c : BitVec w) :
    (rewriteCmp lhs (.constant c) .SETUGT).eval env = c.ult (lhs.eval env) ↔
      c ≠ BitVec.allOnes w := by
  have plusOne : (rewriteCmp lhs (.constant c) .SETUGT).eval env =
      (BitVec.ofInt w (c.toInt + 1)).ule (lhs.eval env) := rfl
  rw [plusOne]
  constructor
  · rintro same rfl
    have boundary := ule_allOnes_add_one (lhs.eval env)
    rw [boundary.1, boundary.2] at same
    exact Bool.noConfusion same
  · exact ule_add_one _

/-- **The rewriting keeps the meaning** exactly away from the boundary. -/
theorem eval_rewriteCmp_iff (env : Valuation) {w : ℕ} (hw : 1 < w) (lhs rhs : SDValue w)
    (cc : CondCode) :
    (rewriteCmp lhs rhs cc).eval env = cc.eval (lhs.eval env) (rhs.eval env) ↔
      ¬ AtBoundary cc rhs := by
  have kept {cc : CondCode} (hgt : cc ≠ .SETGT) (hugt : cc ≠ .SETUGT) : ¬ AtBoundary cc rhs := by
    rintro (⟨h, -⟩ | ⟨h, -⟩)
    · exact hgt h
    · exact hugt h
  cases cc with
  | SETEQ | SETNE | SETGE | SETULT | SETUGE | SETLE | SETULE =>
      exact iff_of_true rfl (kept (by decide) (by decide))
  | SETLT =>
      refine iff_of_true ?_ (kept (by decide) (by decide))
      cases hrhs : rhs.constant? with
      | none => simp [rewriteCmp, hrhs, RewrittenCmp.eval]
      | some c =>
          rw [eq_constant_of_constant? hrhs]
          exact eval_rewriteCmp_SETLT env lhs c
  | SETGT =>
      cases hrhs : rhs.constant? with
      | none => simp [rewriteCmp, hrhs, RewrittenCmp.eval, CondCode.eval, AtBoundary]
      | some c =>
          have boundary : AtBoundary .SETGT rhs ↔ c = BitVec.intMax w := by
            simp [AtBoundary, hrhs]
          rw [boundary, eq_constant_of_constant? hrhs]
          exact eval_rewriteCmp_SETGT env hw lhs c
  | SETUGT =>
      cases hrhs : rhs.constant? with
      | none => simp [rewriteCmp, hrhs, RewrittenCmp.eval, CondCode.eval, AtBoundary]
      | some c =>
          have boundary : AtBoundary .SETUGT rhs ↔ c = BitVec.allOnes w := by
            simp [AtBoundary, hrhs]
          rw [boundary, eq_constant_of_constant? hrhs]
          exact eval_rewriteCmp_SETUGT env lhs c

/-! ## `getSNESCmp` as a whole -/

/-- The condition that goes with a test looks at the sign only. -/
theorem test_rewriteCmp {w : ℕ} {lhs rhs : SDValue w} {cc : CondCode} {test : SNESCC}
    (h : (rewriteCmp lhs rhs cc).test = some test) : test = .COND_MI ∨ test = .COND_PL := by
  unfold rewriteCmp at h
  split at h <;> (try split at h) <;> (try split_ifs at h) <;> simp at h <;> simp [← h]

/-- Without a test the rewritten code is one that `intCCToSNESCC` knows. -/
theorem intCCToSNESCC_rewriteCmp {w : ℕ} {lhs rhs : SDValue w} {cc : CondCode}
    (h : (rewriteCmp lhs rhs cc).test = none) :
    ∃ snescc, intCCToSNESCC (rewriteCmp lhs rhs cc).cc = some snescc := by
  apply Option.isSome_iff_exists.mp
  cases cc <;> simp only [rewriteCmp] at h ⊢ <;> (try split at h) <;> (try split_ifs at h) <;>
    simp_all [intCCToSNESCC]

/-- A type has more than one bit. -/
theorem CmpType.one_lt_width (vt : CmpType) : 1 < vt.width := by
  cases vt <;> decide

/-- What `getSNESCmp` builds tests what the rewritten comparison means. -/
theorem getSNESCmp_eval (vt : CmpType) (lhs rhs : SDValue vt.width) (cc : CondCode)
    (env : Valuation) :
    ∃ node snescc, getSNESCmp vt lhs rhs cc = some (node, snescc) ∧
      snescc.holds (node.flags env) = (rewriteCmp lhs rhs cc).eval env := by
  cases htest : (rewriteCmp lhs rhs cc).test with
  | some test =>
      refine ⟨buildTest vt (rewriteCmp lhs rhs cc).lhs, test, by simp [getSNESCmp, htest], ?_⟩
      rw [RewrittenCmp.eval, htest]
      rcases test_rewriteCmp htest with rfl | rfl <;>
        simp only [SNESCC.holds, flags_buildTest_negative, cmp_zero_negative]
  | none =>
      obtain ⟨snescc, hcc⟩ := intCCToSNESCC_rewriteCmp htest
      refine ⟨buildCmp vt (rewriteCmp lhs rhs cc).lhs (rewriteCmp lhs rhs cc).rhs, snescc,
        by simp [getSNESCmp, htest, hcc], ?_⟩
      rw [RewrittenCmp.eval, htest, flags_buildCmp]
      exact holds_cmp (by have := vt.one_lt_width; omega) _ _ hcc

/-- **When comparisons are lowered right**: always, but for a signed or unsigned `>` with the
greatest value of its order, where `c + 1` wraps. -/
theorem lowersRight_iff (vt : CmpType) (lhs rhs : SDValue vt.width) (cc : CondCode)
    (env : Valuation) : LowersRight vt lhs rhs cc env ↔ ¬ AtBoundary cc rhs := by
  rw [← eval_rewriteCmp_iff env vt.one_lt_width lhs rhs cc]
  obtain ⟨node, snescc, built, holds⟩ := getSNESCmp_eval vt lhs rhs cc env
  constructor
  · rintro ⟨node', snescc', built', holds'⟩
    obtain ⟨rfl, rfl⟩ := Prod.mk.inj (Option.some.inj (built.symm.trans built'))
    exact holds.symm.trans holds'
  · intro same
    exact ⟨node, snescc, built, holds.trans same⟩

/-- **`x > 127` on bytes is lowered wrong**: `c + 1` is -128, and every byte is at least that. -/
theorem not_lowersRight_gt_127 :
    ¬ LowersRight .i8 (.value 0) (.constant (127 : BitVec 8)) .SETGT fun _ _ => 0 := by
  rintro ⟨node, snescc, built, holds⟩
  obtain ⟨rfl, rfl⟩ := Prod.mk.inj (Option.some.inj built)
  revert holds
  decide

end Snes
