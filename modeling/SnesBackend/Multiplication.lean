/-
# Multiplications of Bytes

`selectMultiplication` selects `SMUL_LOHI` and `UMUL_LOHI`: an instruction that leaves the product
in `A`, and a copy from `A` for each half that is used.  `insertMul` puts an instruction behind them
that clears `A`.  Both copies read the same byte.
-/
import SnesBackend.SelectionPatterns

namespace Snes

/-! ## Instructions -/

/-- Registers before register allocation. -/
inductive MulReg where
  | virtual (v : ℕ)
  | main (r : WordReg)
deriving DecidableEq, Repr

/-- A state: the virtual registers and the machine. -/
structure MulState where
  vregs : ℕ → BitVec 16
  machine : MachineState

namespace MulState

/-- The value of a register. -/
def read (s : MulState) : MulReg → BitVec 16
  | .virtual v => s.vregs v
  | .main r => s.machine.word r

/-- Write a register. -/
def write (s : MulState) (r : MulReg) (x : BitVec 16) : MulState :=
  match r with
  | .virtual v => { s with vregs := Function.update s.vregs v x }
  | .main r => { s with machine := s.machine.setWord r x }

end MulState

/-- The instructions around a multiplication. -/
inductive MulInst where
  | MULRdRr (lhs rhs : ℕ)
  | MULSRdRr (lhs rhs : ℕ)
  | COPY (dst src : MulReg)
  | EORRdRr (rd src rr : WordReg)
  | other (effect : MulState → MulState)

/-- The product of two bytes. -/
def mulProduct (isSigned : Bool) (a b : BitVec 8) : BitVec 16 :=
  if isSigned then a.signExtend 16 * b.signExtend 16 else a.setWidth 16 * b.setWidth 16

/-- Leave a product in `A`. -/
def MulState.setProduct (s : MulState) (p : BitVec 16) : MulState :=
  { s with machine := s.machine.setWordResult .A p }

/-- Execute an instruction; the operands of a multiplication are the bytes of the registers. -/
def MulInst.exec : MulInst → MulState → MulState
  | MULRdRr lhs rhs, s =>
      s.setProduct (mulProduct false ((s.vregs lhs).setWidth 8) ((s.vregs rhs).setWidth 8))
  | MULSRdRr lhs rhs, s =>
      s.setProduct (mulProduct true ((s.vregs lhs).setWidth 8) ((s.vregs rhs).setWidth 8))
  | COPY dst src, s => s.write dst (s.read src)
  | EORRdRr rd src rr, s =>
      { s with machine := s.machine.setWordResult rd (s.machine.word src ^^^ s.machine.word rr) }
  | other effect, s => effect s

/-- Execute instructions one after the other. -/
def execMul (insts : List MulInst) (s : MulState) : MulState :=
  insts.foldl (fun s i => i.exec s) s

/-! ## Selection and insertion -/

/-- A multiplication: its kind, its operands, which halves of the result are used, and the registers
that hold them. -/
structure MulNode where
  isSigned : Bool
  lhs : ℕ
  rhs : ℕ
  usesLo : Bool
  usesHi : Bool
  lo : ℕ
  hi : ℕ
deriving DecidableEq, Repr

namespace MulNode

/-- The instruction that `selectMultiplication` selects. -/
def mul (n : MulNode) : MulInst :=
  if n.isSigned then .MULSRdRr n.lhs n.rhs else .MULRdRr n.lhs n.rhs

/-- The copies that are glued behind it. -/
def copies (n : MulNode) : List MulInst :=
  (if n.usesLo then [.COPY (.virtual n.lo) (.main .A)] else []) ++
    if n.usesHi then [.COPY (.virtual n.hi) (.main .A)] else []

end MulNode

/-- `isCopyMulResult` of the instruction at the head; `none` at the end of the block, where there is
no instruction to look at. -/
def isCopyMulResult : List MulInst → Option Bool
  | [] => none
  | .COPY _ (.main src) :: _ => some (decide (src = .A) || decide (src = .A))
  | _ :: _ => some false

/-- `if (isCopyMulResult(I)) ++I`, with what is before and what is at the iterator. -/
def skipCopyMulResult (i : List MulInst × List MulInst) : Option (List MulInst × List MulInst) :=
  (isCopyMulResult i.2).map fun isCopy =>
    if isCopy then (i.1 ++ i.2.take 1, i.2.drop 1) else i

/-- The instruction that `insertMul` inserts. -/
def clearA : MulInst :=
  .EORRdRr .A .A .A

/-- `insertMul` in what follows a multiplication: what comes before the clearing instruction, and
what comes behind it. -/
def insertMul (following : List MulInst) : Option (List MulInst × List MulInst) :=
  (skipCopyMulResult ([], following)).bind skipCopyMulResult

namespace MulNode

/-- The operands. -/
def lhsValue (n : MulNode) (s : MulState) : BitVec 8 :=
  (s.vregs n.lhs).setWidth 8

@[inherit_doc lhsValue]
def rhsValue (n : MulNode) (s : MulState) : BitVec 8 :=
  (s.vregs n.rhs).setWidth 8

/-- The product. -/
def product (n : MulNode) (s : MulState) : BitVec 16 :=
  mulProduct n.isSigned (n.lhsValue s) (n.rhsValue s)

/-- The halves are delivered: the clearing instruction finds its place, each half that is used is in
its register behind it, and it changes nothing but `A`, which had the product, and the flags. -/
def Delivers (n : MulNode) (after : List MulInst) (s : MulState) : Prop :=
  ∃ code rest, insertMul (n.copies ++ after) = some (code, rest) ∧
    let u := execMul (n.mul :: code) s
    let t := clearA.exec u
    (n.usesLo = true → (t.vregs n.lo).setWidth 8 = (n.product s).setWidth 8) ∧
      (n.usesHi = true → (t.vregs n.hi).setWidth 8 = ((n.product s >>> 8).setWidth 8 : BitVec 8)) ∧
      u.machine.word .A = n.product s ∧ t.vregs = u.vregs ∧
      SameButFlags t.machine (u.machine.setWord .A 0)

/-- The two bytes of the product are the same: one operand is zero, or the product is negative and
one less than a multiple of `257`. -/
def SameBytes (n : MulNode) (s : MulState) : Prop :=
  if n.isSigned then
    (n.lhsValue s).toInt * (n.rhsValue s).toInt = 0 ∨
      (n.lhsValue s).toInt * (n.rhsValue s).toInt < 0 ∧
        257 ∣ (n.lhsValue s).toInt * (n.rhsValue s).toInt + 1
  else n.lhsValue s = 0 ∨ n.rhsValue s = 0

end MulNode

/-- An instruction that copies from `A`. -/
def MulInst.fromA : MulInst → Bool
  | COPY _ (.main src) => decide (src = .A)
  | _ => false

/-- The instructions that `insertMul` looks at are there: two, or one that is no copy from `A`. -/
def StaysInBlock (following : List MulInst) : Prop :=
  2 ≤ following.length ∨ ∃ i, following = [i] ∧ i.fromA = false

/-! ## The place of the clearing instruction -/

/-- `isCopyMulResult` of an instruction. -/
theorem isCopyMulResult_cons (i : MulInst) (rest : List MulInst) :
    isCopyMulResult (i :: rest) = some i.fromA := by
  cases i with
  | COPY dst src =>
      cases src with
      | virtual v => rfl
      | main r => exact congrArg some (Bool.or_self _)
  | MULRdRr | MULSRdRr | EORRdRr | other => rfl

/-- One step of the iterator. -/
theorem skipCopyMulResult_cons (before : List MulInst) (i : MulInst) (rest : List MulInst) :
    skipCopyMulResult (before, i :: rest) =
      some (if i.fromA then (before ++ [i], rest) else (before, i :: rest)) := by
  rw [skipCopyMulResult, isCopyMulResult_cons]
  rfl

/-- **When the place is found.** -/
theorem isSome_insertMul_iff (following : List MulInst) :
    (insertMul following).isSome = true ↔ StaysInBlock following := by
  unfold insertMul StaysInBlock
  rcases following with _ | ⟨i, _ | ⟨j, rest⟩⟩
  · simp [skipCopyMulResult, isCopyMulResult]
  · rw [skipCopyMulResult_cons, Option.bind_some]
    cases hi : i.fromA with
    | false => simp [skipCopyMulResult_cons, hi]
    | true => simp [skipCopyMulResult, isCopyMulResult, hi]
  · rw [skipCopyMulResult_cons, Option.bind_some]
    cases hi : i.fromA <;> simp [skipCopyMulResult_cons]

/-- **What comes before the clearing instruction**: the copies from `A`, as far as they are among
the first two instructions. -/
theorem eq_of_insertMul {following code rest : List MulInst}
    (h : insertMul following = some (code, rest)) :
    code = (following.take 2).takeWhile MulInst.fromA ∧ following = code ++ rest := by
  unfold insertMul at h
  rcases following with _ | ⟨i, _ | ⟨j, following⟩⟩
  · cases h
  · rw [skipCopyMulResult_cons, Option.bind_some] at h
    cases hi : i.fromA with
    | false =>
        simp only [hi, Bool.false_eq_true, if_false, skipCopyMulResult_cons, Option.some.injEq,
          Prod.mk.injEq] at h
        obtain ⟨rfl, rfl⟩ := h
        simp [hi]
    | true =>
        rw [hi] at h
        cases h
  · rw [skipCopyMulResult_cons, Option.bind_some] at h
    cases hi : i.fromA with
    | false =>
        simp only [hi, Bool.false_eq_true, if_false, skipCopyMulResult_cons, Option.some.injEq,
          Prod.mk.injEq] at h
        obtain ⟨rfl, rfl⟩ := h
        simp [hi]
    | true =>
        simp only [hi, if_true, skipCopyMulResult_cons, Option.some.injEq, List.nil_append] at h
        cases hj : j.fromA with
        | false =>
            simp only [hj, Bool.false_eq_true, if_false, Prod.mk.injEq] at h
            obtain ⟨rfl, rfl⟩ := h
            simp [hi, hj]
        | true =>
            simp only [hj, if_true, Prod.mk.injEq] at h
            obtain ⟨rfl, rfl⟩ := h
            simp [hi, hj]

namespace MulNode

/-- There are at most two copies, and they are copies from `A`. -/
theorem copies_spec (n : MulNode) :
    n.copies.length ≤ 2 ∧ ∀ i ∈ n.copies, i.fromA = true := by
  unfold copies
  cases n.usesLo <;> cases n.usesHi <;> simp [MulInst.fromA]

/-- The copies come before the clearing instruction, with other copies from `A` at most. -/
theorem copies_of_insertMul (n : MulNode) {after code rest : List MulInst}
    (h : insertMul (n.copies ++ after) = some (code, rest)) :
    (∀ i ∈ code, i.fromA = true) ∧ ∀ i ∈ n.copies, i ∈ code := by
  obtain ⟨hcode, -⟩ := eq_of_insertMul h
  obtain ⟨hlength, hfrom⟩ := n.copies_spec
  constructor
  · intro i hi
    rw [hcode] at hi
    exact List.mem_takeWhile_imp hi
  · intro i hi
    rw [hcode, List.take_append, List.take_of_length_le hlength,
      List.takeWhile_append_of_pos hfrom]
    exact List.mem_append_left _ hi

end MulNode

/-! ## The run -/

/-- A copy from `A` leaves `A` alone, and registers that have the value of `A`. -/
theorem exec_fromA {i : MulInst} (hi : i.fromA = true) (s : MulState) :
    (i.exec s).machine.word .A = s.machine.word .A ∧
      (∀ v, s.vregs v = s.machine.word .A → (i.exec s).vregs v = s.machine.word .A) ∧
      ∀ v, i = .COPY (.virtual v) (.main .A) → (i.exec s).vregs v = s.machine.word .A := by
  obtain ⟨dst, rfl⟩ : ∃ dst, i = .COPY dst (.main .A) := by
    cases i with
    | COPY dst src =>
        cases src with
        | virtual v => cases hi
        | main r => exact ⟨dst, by rw [of_decide_eq_true hi]⟩
    | MULRdRr | MULSRdRr | EORRdRr | other => cases hi
  cases dst with
  | virtual v =>
      refine ⟨rfl, fun u hu => ?_, fun u hu => ?_⟩
      · change Function.update s.vregs v (s.machine.word .A) u = _
        rw [Function.update_apply]
        split_ifs
        · rfl
        · exact hu
      · obtain rfl : v = u := by simpa using hu
        exact Function.update_self v _ _
  | main r =>
      refine ⟨?_, fun u hu => hu, fun u hu => by simp at hu⟩
      change (s.machine.setWord r (s.machine.word .A)).word .A = _
      by_cases hr : r = .A
      · rw [hr, MachineState.setWord_word_self]
      · exact MachineState.setWord_word_of_ne s.machine _ (Ne.symm hr)

/-- **Copies from `A`** leave `A` alone, and its value in their registers. -/
theorem execMul_fromA {code : List MulInst} (hcode : ∀ i ∈ code, i.fromA = true) (s : MulState) :
    (execMul code s).machine.word .A = s.machine.word .A ∧
      (∀ v, s.vregs v = s.machine.word .A → (execMul code s).vregs v = s.machine.word .A) ∧
      ∀ v, .COPY (.virtual v) (.main .A) ∈ code →
        (execMul code s).vregs v = s.machine.word .A := by
  induction code generalizing s with
  | nil => exact ⟨rfl, fun _ h => h, fun _ h => absurd h List.not_mem_nil⟩
  | cons i code ih =>
      obtain ⟨hA, hkeep, hcopy⟩ := exec_fromA (hcode i List.mem_cons_self) s
      obtain ⟨hA', hkeep', hcopy'⟩ := ih (fun j hj => hcode j (List.mem_cons_of_mem _ hj)) (i.exec s)
      rw [hA] at hA' hkeep' hcopy'
      refine ⟨hA', fun v hv => hkeep' v (hkeep v hv), fun v hv => ?_⟩
      rcases List.mem_cons.mp hv with heq | hmem
      · exact hkeep' v (hcopy v heq.symm)
      · exact hcopy' v hmem

/-! ## Products of equal bytes -/

/-- The bytes of a word are the same when it is a multiple of `257`. -/
theorem bytes_eq_iff (p : BitVec 16) :
    (p.setWidth 8 : BitVec 8) = (p >>> 8).setWidth 8 ↔ p.toNat % 257 = 0 := by
  have hp := p.isLt
  rw [← BitVec.toNat_inj, BitVec.toNat_setWidth, BitVec.toNat_setWidth, BitVec.toNat_ushiftRight,
    Nat.shiftRight_eq_div_pow]
  have hhigh : p.toNat / 2 ^ 8 % 2 ^ 8 = p.toNat / 2 ^ 8 := Nat.mod_eq_of_lt (by omega)
  have hsplit := Nat.div_add_mod p.toNat (2 ^ 8)
  have hlow := Nat.mod_lt p.toNat (show 0 < 2 ^ 8 by decide)
  rw [hhigh]
  generalize p.toNat / 2 ^ 8 = high at hsplit ⊢
  generalize p.toNat % 2 ^ 8 = low at hsplit hlow ⊢
  omega

/-- The unsigned product. -/
theorem toNat_mulProduct_false (a b : BitVec 8) :
    (mulProduct false a b).toNat = a.toNat * b.toNat := by
  have hle : a.toNat * b.toNat ≤ 255 * 255 :=
    Nat.mul_le_mul (Nat.le_of_lt_succ a.isLt) (Nat.le_of_lt_succ b.isLt)
  rw [mulProduct, if_neg Bool.false_ne_true, BitVec.toNat_mul,
    BitVec.toNat_setWidth_of_le (by decide), BitVec.toNat_setWidth_of_le (by decide),
    Nat.mod_eq_of_lt (by omega)]

/-- The signed values of bytes, and of their products. -/
theorem toInt_bounds (a b : BitVec 8) :
    (-128 ≤ a.toInt ∧ a.toInt ≤ 127) ∧ -16384 ≤ a.toInt * b.toInt ∧ a.toInt * b.toInt ≤ 16384 := by
  have hbound : ∀ x : BitVec 8, -128 ≤ x.toInt ∧ x.toInt ≤ 127 := by
    intro x
    have hlow := x.le_toInt
    have hhigh := x.toInt_lt
    norm_num at hlow hhigh
    omega
  obtain ⟨ha, ha'⟩ := hbound a
  obtain ⟨hb, hb'⟩ := hbound b
  refine ⟨⟨ha, ha'⟩, ?_, ?_⟩ <;> nlinarith

/-- The signed product. -/
theorem toInt_mulProduct_true (a b : BitVec 8) :
    (mulProduct true a b).toInt = a.toInt * b.toInt := by
  obtain ⟨-, hlow, hhigh⟩ := toInt_bounds a b
  rw [mulProduct, if_pos rfl, BitVec.toInt_mul, BitVec.toInt_signExtend_of_le (by decide),
    BitVec.toInt_signExtend_of_le (by decide)]
  exact Int.bmod_eq_of_le (by norm_num; omega) (by norm_num; omega)

/-- A product of signed bytes that is a multiple of `257` is zero. -/
theorem mul_toInt_eq_zero_of_dvd {a b : BitVec 8} (h : 257 ∣ a.toInt * b.toInt) :
    a.toInt * b.toInt = 0 := by
  have hprime : Prime (257 : ℤ) := Int.prime_iff_natAbs_prime.mpr (by norm_num)
  obtain ⟨⟨halow, hahigh⟩, -⟩ := toInt_bounds a b
  obtain ⟨⟨hblow, hbhigh⟩, -⟩ := toInt_bounds b a
  rcases hprime.dvd_or_dvd h with ha | hb
  · rw [show a.toInt = 0 by omega, zero_mul]
  · rw [show b.toInt = 0 by omega, mul_zero]

/-- **When the bytes of a signed product are the same.** -/
theorem toNat_mulProduct_true_mod_iff (a b : BitVec 8) :
    (mulProduct true a b).toNat % 257 = 0 ↔
      a.toInt * b.toInt = 0 ∨ a.toInt * b.toInt < 0 ∧ 257 ∣ a.toInt * b.toInt + 1 := by
  have hzero := @mul_toInt_eq_zero_of_dvd a b
  have hvalue := toInt_mulProduct_true a b
  rw [BitVec.toInt_eq_toNat_cond] at hvalue
  generalize a.toInt * b.toInt = p at hzero hvalue ⊢
  have hlt := (mulProduct true a b).isLt
  split_ifs at hvalue <;> omega

/-- **When the bytes of an unsigned product are the same.** -/
theorem toNat_mulProduct_false_mod_iff (a b : BitVec 8) :
    (mulProduct false a b).toNat % 257 = 0 ↔ a = 0 ∨ b = 0 := by
  have hprime : Nat.Prime 257 := by norm_num
  have hsmall : ∀ x : BitVec 8, 257 ∣ x.toNat ↔ x = 0 := by
    intro x
    have hlt := x.isLt
    have hzero : x = 0 ↔ x.toNat = 0 := BitVec.toNat_inj.symm
    rw [hzero]
    omega
  rw [toNat_mulProduct_false, ← Nat.dvd_iff_mod_eq_zero, hprime.dvd_mul, hsmall, hsmall]

namespace MulNode

/-- **When the two bytes of the product are the same.** -/
theorem bytes_product_eq_iff (n : MulNode) (s : MulState) :
    ((n.product s).setWidth 8 : BitVec 8) = (n.product s >>> 8).setWidth 8 ↔ n.SameBytes s := by
  rw [bytes_eq_iff, product, SameBytes]
  cases n.isSigned with
  | true => exact toNat_mulProduct_true_mod_iff _ _
  | false => exact toNat_mulProduct_false_mod_iff _ _

/-! ## When the halves are delivered -/

/-- The multiplication leaves the product in `A`. -/
theorem exec_mul (n : MulNode) (s : MulState) :
    (n.mul.exec s).machine.word .A = n.product s := by
  unfold mul product
  cases n.isSigned <;> exact MachineState.setWord_word_self s.machine .A _

/-- The clearing instruction changes `A` and the flags only. -/
theorem exec_clearA (u : MulState) :
    (clearA.exec u).vregs = u.vregs ∧
      SameButFlags (clearA.exec u).machine (u.machine.setWord .A 0) := by
  refine ⟨rfl, ?_⟩
  have hzero : u.machine.word .A ^^^ u.machine.word .A = 0 := BitVec.xor_self
  change SameButFlags (u.machine.setWordResult .A (u.machine.word .A ^^^ u.machine.word .A)) _
  rw [hzero]
  exact ⟨rfl, rfl, rfl, rfl⟩

/-- The registers of the halves both have the product. -/
theorem vregs_of_insertMul (n : MulNode) {after code rest : List MulInst}
    (h : insertMul (n.copies ++ after) = some (code, rest)) (s : MulState) :
    (execMul (n.mul :: code) s).machine.word .A = n.product s ∧
      (n.usesLo = true → (execMul (n.mul :: code) s).vregs n.lo = n.product s) ∧
      (n.usesHi = true → (execMul (n.mul :: code) s).vregs n.hi = n.product s) := by
  obtain ⟨hfrom, hcopies⟩ := n.copies_of_insertMul h
  obtain ⟨hA, -, hcopied⟩ := execMul_fromA hfrom (n.mul.exec s)
  rw [n.exec_mul s] at hA hcopied
  refine ⟨hA, fun hlo => hcopied n.lo (hcopies _ ?_), fun hhi => hcopied n.hi (hcopies _ ?_)⟩
  · rw [copies, if_pos hlo]
    exact List.mem_append_left _ List.mem_cons_self
  · rw [copies, if_pos hhi]
    exact List.mem_append_right _ List.mem_cons_self

/-- **When a multiplication delivers its halves**: the low one always, the high one when it is the
same byte; and the block must go on far enough for the iterator. -/
theorem delivers_iff (n : MulNode) (after : List MulInst) (s : MulState) :
    n.Delivers after s ↔
      (n.usesHi = true → n.SameBytes s) ∧ StaysInBlock (n.copies ++ after) := by
  rw [← isSome_insertMul_iff, ← n.bytes_product_eq_iff s]
  constructor
  · rintro ⟨code, rest, hplace, -, hhigh, -⟩
    obtain ⟨-, -, hhi⟩ := n.vregs_of_insertMul hplace s
    refine ⟨fun huses => ?_, by rw [hplace]; rfl⟩
    rw [← hhigh huses, ← hhi huses]
    rfl
  · rintro ⟨hbytes, hplace⟩
    obtain ⟨⟨code, rest⟩, hplace⟩ := Option.isSome_iff_exists.mp hplace
    obtain ⟨hA, hlo, hhi⟩ := n.vregs_of_insertMul hplace s
    obtain ⟨hvregs, hmachine⟩ := exec_clearA (execMul (n.mul :: code) s)
    refine ⟨code, rest, hplace, fun huses => ?_, fun huses => ?_, hA, hvregs, hmachine⟩
    · rw [hvregs, hlo huses]
    · rw [hvregs, hhi huses, hbytes huses]

/-- `16 * 16` is `0x100`: the register of the high half gets the low one. -/
theorem not_delivers_sixteen :
    ¬ Delivers ⟨false, 0, 1, true, true, 2, 3⟩ []
      ⟨fun _ => 16, ⟨fun _ => 0, ⟨⟨false, false, false, false⟩, 0⟩, 0x1fff, fun _ => 0⟩⟩ := by
  rintro ⟨code, rest, hplace, -, hhigh, -⟩
  have hhi := (vregs_of_insertMul ⟨false, 0, 1, true, true, 2, 3⟩ hplace
    ⟨fun _ => 16, ⟨fun _ => 0, ⟨⟨false, false, false, false⟩, 0⟩, 0x1fff, fun _ => 0⟩⟩).2.2 rfl
  have hbyte := (congrArg (BitVec.setWidth 8) hhi).symm.trans (hhigh rfl)
  revert hbyte
  decide

end MulNode

end Snes
