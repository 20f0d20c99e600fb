/-
# Chains of Additions and Subtractions

An addition or subtraction of several 16-bit words becomes a chain of DAG nodes,
`addc` or `subc` for the low word and `adde` or `sube` for the others, and each node
has a pattern of a word pseudo in `SNESInstrInfo.td`.  The byte instructions have the
same patterns on 16-bit nodes, and come first; the chain is that of the word pseudos.
A constant word of an addition selects a subtraction of the negated constant, which
leaves a borrow where the next word expects a carry.

The chain is executed on the values of its words; that the pseudos leave these
values and flags is the theorem about their expansions.
-/
import SnesBackend.ImmSelection
import SnesBackend.MultiWord
import SnesBackend.WordPseudos

namespace Snes

open WordArith

/-! ## Nodes and patterns -/

/-- A word of the right operand: the value of a register, or a constant. -/
inductive ChainWord where
  | reg (value : BitVec 16)
  | const (k : BitVec 16)
deriving DecidableEq, Repr

/-- The number that a word stands for. -/
def ChainWord.value : ChainWord → BitVec 16
  | reg value => value
  | const k => k

/-- The nodes of a chain. -/
inductive ChainNode where
  | addc | adde | subc | sube
deriving DecidableEq, Repr

/-- The selected pseudo with its right operand. -/
inductive SelectedWord where
  | regReg (op : RegRegPseudo) (value : BitVec 16)
  | regImm (op : RegImmPseudo) (k : BitVec 16)
deriving DecidableEq, Repr

/-- `imm16_neg_XFORM`: the negated constant. -/
def imm16NegXFORM (k : BitVec 16) : BitVec 16 :=
  -k

/-- The word pseudo with the pattern of a node.  The byte instruction of the same operation has that
pattern too and comes before it; the word pseudo is taken here, being the one for 16-bit words.  A
constant matches `imm`, which counts more than a register operand. -/
def ChainNode.select : ChainNode → ChainWord → SelectedWord
  | addc, .reg value => .regReg .ADDW value
  | addc, .const k => .regImm .SUBIW (imm16NegXFORM k)
  | adde, .reg value => .regReg .ADCW value
  | adde, .const k => .regImm .SBCIW (imm16NegXFORM k)
  | subc, .reg value => .regReg .SUBW value
  | subc, .const k => .regImm .SUBIW k
  | sube, .reg value => .regReg .SBCW value
  | sube, .const k => .regImm .SBCIW k

/-- The node of the low word. -/
def AddSub.firstNode : AddSub → ChainNode
  | add => .addc
  | sub => .subc

/-- The node of the other words. -/
def AddSub.nextNode : AddSub → ChainNode
  | add => .adde
  | sub => .sube

/-- The chain selected for pairs of words, low word first. -/
def selectChain (op : AddSub) :
    List (BitVec 16 × ChainWord) → List (BitVec 16 × SelectedWord)
  | [] => []
  | (x, y) :: words =>
      (x, op.firstNode.select y) :: words.map fun word => (word.1, op.nextNode.select word.2)

/-! ## Execution -/

/-- The result and the carry flag that a selected pseudo leaves for a destination with value `x` and
the carry flag `c`. -/
def SelectedWord.exec (i : SelectedWord) (x : BitVec 16) (c : Bool) : BitVec 16 × Bool :=
  match i with
  | regReg op y => (op.result x y c, (op.carry x y c).getD c)
  | regImm op k => (op.toRegReg.result x k c, (op.toRegReg.carry x k c).getD c)

/-- The words that a chain leaves in its destinations. -/
def execChain : List (BitVec 16 × SelectedWord) → Bool → List (BitVec 16)
  | [], _ => []
  | (x, i) :: chain, c => (i.exec x c).1 :: execChain chain (i.exec x c).2

/-- The exact result of an operation on numbers. -/
def AddSub.exact (op : AddSub) (x y : ℤ) : ℤ :=
  match op with
  | add => x + y
  | sub => x - y

/-- The pairs of numbers of a list of words. -/
def chainPairs (words : List (BitVec 16 × ChainWord)) : List (BitVec 16 × BitVec 16) :=
  words.map fun word => (word.1, word.2.value)

@[simp]
theorem chainPairs_nil : chainPairs [] = [] :=
  rfl

@[simp]
theorem chainPairs_cons (x : BitVec 16) (y : ChainWord) (words : List (BitVec 16 × ChainWord)) :
    chainPairs ((x, y) :: words) = (x, y.value) :: chainPairs words :=
  rfl

@[simp]
theorem length_chainPairs (words : List (BitVec 16 × ChainWord)) :
    (chainPairs words).length = words.length :=
  List.length_map _

/-- A chain is right: the number in its destinations is the exact result modulo `2 ^ (16 n)`. -/
def ChainRight (op : AddSub) (words : List (BitVec 16 × ChainWord)) (c : Bool) : Prop :=
  (wordsValue (execChain (selectChain op words) c) : ℤ) =
    op.exact (leftValue (chainPairs words)) (rightValue (chainPairs words)) %
      2 ^ (16 * words.length)

/-- The condition on the constant words of an addition: the words below it do not carry into a
constant word, and only the highest word can be a constant other than zero. -/
def CarriesKept (words : List (BitVec 16 × ChainWord)) : Prop :=
  ∀ i x k, words[i]? = some (x, .const k) →
    leftValue (chainPairs (words.take i)) + rightValue (chainPairs (words.take i)) <
        2 ^ (16 * i) ∧
      (i + 1 < words.length → k = 0)

/-! ## The expansions -/

/-- **A selected register pseudo executes as in the chain**: its expansion leaves the result in the
destination and the flag in `P`. -/
theorem SelectedWord.exec_regReg (scavengeMainRegs : MachineInstr → Option Reg) (node : ChainNode)
    (dst src : WordReg) (s : MachineState) {op : RegRegPseudo}
    (hselect : node.select (.reg (s.word src)) = .regReg op (s.word src)) :
    ∃ mis s', expandMI scavengeMainRegs (WordPseudo.regReg op dst src).instr = .expanded mis ∧
      execAluBlock mis s = some s' ∧
      (s'.word dst, s'.p.carry) =
        (node.select (.reg (s.word src))).exec (s.word dst) s.p.carry := by
  obtain ⟨mis, s', hexpand, hexec, heffect⟩ :=
    expandMI_wordPseudo scavengeMainRegs (.regReg op dst src) s
  refine ⟨mis, s', hexpand, hexec, ?_⟩
  rw [hselect]
  cases node <;> cases hselect <;> exact Prod.ext heffect.result (heffect.carry _ rfl)

/-- **A selected immediate pseudo executes as in the chain.** -/
theorem SelectedWord.exec_regImm (scavengeMainRegs : MachineInstr → Option Reg) (node : ChainNode)
    (dst : WordReg) (word : BitVec 16) (s : MachineState) {op : RegImmPseudo} {k : BitVec 16}
    (hselect : node.select (.const word) = .regImm op k) :
    ∃ mis s', expandMI scavengeMainRegs
        (WordPseudo.regImm op dst (k.signExtend 64)).instr = .expanded mis ∧
      execAluBlock mis s = some s' ∧
      (s'.word dst, s'.p.carry) =
        (node.select (.const word)).exec (s.word dst) s.p.carry := by
  obtain ⟨mis, s', hexpand, hexec, heffect⟩ :=
    expandMI_wordPseudo scavengeMainRegs (.regImm op dst (k.signExtend 64)) s
  have hk : (k.signExtend 64).setWidth 16 = k := by
    ext i hi
    simp [BitVec.getElem_signExtend, show i < 64 by omega, hi]
  have hresult := heffect.result
  have hcarry := heffect.carry
  simp only [WordPseudo.result, WordPseudo.carry, hk] at hresult hcarry
  refine ⟨mis, s', hexpand, hexec, ?_⟩
  rw [hselect]
  cases node <;> cases hselect <;> exact Prod.ext hresult (hcarry _ rfl)

/-! ## Right chains -/

/-- The chain of the other words, with its condition stated along the list: a constant word gets no
carry, and if words follow it, it is zero. -/
def KeptFrom : Bool → List (BitVec 16 × ChainWord) → Prop
  | _, [] => True
  | c, (x, y) :: words =>
      (∀ k, y = .const k → c = false ∧ (words ≠ [] → k = 0)) ∧
        KeptFrom (carryOut x y.value c) words

/-- The subtraction of the negated constant is its addition exactly without borrow and carry. -/
theorem subBorrow_neg_eq_addCarry_iff (x k : BitVec 16) (f c : Bool) :
    subBorrow x (-k) f = addCarry x k c ↔ f = false ∧ c = false := by
  have hsub : subBorrow x (-k) f = x + k - BitVec.ofNat 16 f.toNat := by
    rw [subBorrow, sub_neg_eq_add]
  rw [hsub, addCarry]
  constructor
  · intro h
    have hflags : -BitVec.ofNat 16 f.toNat = BitVec.ofNat 16 c.toNat := by
      rw [sub_eq_add_neg] at h
      exact add_left_cancel h
    revert hflags
    cases f <;> cases c <;> decide
  · rintro ⟨rfl, rfl⟩
    simp

/-- The borrow of subtracting the negated constant is the carry of adding it exactly for zero. -/
theorem borrowOut_neg_eq_carryOut_iff (x k : BitVec 16) :
    borrowOut x (-k) false = carryOut x k false ↔ k = 0 := by
  have hx := x.isLt
  have hk := k.isLt
  simp only [borrowOut, carryOut, decide_eq_decide, Bool.toNat_false, Nat.add_zero,
    BitVec.toNat_neg]
  constructor
  · intro h
    by_contra hne
    have hpos : k.toNat ≠ 0 := fun hz => hne (BitVec.eq_of_toNat_eq hz)
    rw [Nat.mod_eq_of_lt (by omega)] at h
    omega
  · rintro rfl
    simp
    omega

/-- A sum determines its incoming carry. -/
theorem addCarry_inj (x y : BitVec 16) (f c : Bool) :
    addCarry x y f = addCarry x y c ↔ f = c := by
  unfold addCarry
  rw [add_right_inj]
  revert f c
  decide

/-- The nodes after the first, one word after the other: the selected addition ripples right exactly
when its flag is the carry and the constants keep it. -/
theorem execChain_adde_eq_iff (words : List (BitVec 16 × ChainWord)) (f c : Bool) :
    execChain (words.map fun word => (word.1, ChainNode.adde.select word.2)) f =
        addWords (chainPairs words) c ↔
      (words ≠ [] → f = c) ∧ KeptFrom c words := by
  induction words generalizing f c with
  | nil => simp [execChain, addWords, KeptFrom]
  | cons word words ih =>
      obtain ⟨x, y⟩ := word
      cases y with
      | reg y =>
          have hexec : (ChainNode.adde.select (.reg y)).exec x f =
              (addCarry x y f, carryOut x y f) := rfl
          simp only [List.map_cons, execChain, hexec, chainPairs_cons, addWords, KeptFrom,
            ChainWord.value, List.cons.injEq, addCarry_inj, ne_eq, reduceCtorEq,
            not_false_eq_true, true_implies, false_implies, implies_true, true_and]
          apply and_congr_right
          rintro rfl
          rw [ih]
          simp
      | const k =>
          have hexec : (ChainNode.adde.select (.const k)).exec x f =
              (subBorrow x (-k) f, borrowOut x (-k) f) := rfl
          simp only [List.map_cons, execChain, hexec, chainPairs_cons, addWords, KeptFrom,
            ChainWord.value, List.cons.injEq, subBorrow_neg_eq_addCarry_iff, ne_eq, reduceCtorEq,
            not_false_eq_true, true_implies, ChainWord.const.injEq, forall_eq']
          rw [ih]
          constructor
          · rintro ⟨⟨rfl, rfl⟩, hflag, hkept⟩
            exact ⟨rfl, ⟨rfl, fun hne => (borrowOut_neg_eq_carryOut_iff x k).mp (hflag hne)⟩, hkept⟩
          · rintro ⟨rfl, ⟨rfl, hzero⟩, hkept⟩
            exact ⟨⟨rfl, rfl⟩,
              fun hne => (borrowOut_neg_eq_carryOut_iff x k).mpr (hzero hne), hkept⟩

/-- The first node behaves as a later node with the flag clear. -/
theorem execChain_selectChain_add (words : List (BitVec 16 × ChainWord)) (c : Bool) :
    execChain (selectChain .add words) c =
      execChain (words.map fun word => (word.1, ChainNode.adde.select word.2)) false := by
  cases words with
  | nil => rfl
  | cons word words =>
      obtain ⟨x, y⟩ := word
      cases y with
      | reg y =>
          have hexec : (ChainNode.addc.select (.reg y)).exec x c =
              (ChainNode.adde.select (.reg y)).exec x false := by
            simp [ChainNode.select, SelectedWord.exec, RegRegPseudo.result, RegRegPseudo.carry]
          simp only [selectChain, AddSub.firstNode, AddSub.nextNode, List.map_cons, execChain, hexec]
      | const k =>
          have hexec : (ChainNode.addc.select (.const k)).exec x c =
              (ChainNode.adde.select (.const k)).exec x false := by
            simp [ChainNode.select, SelectedWord.exec, RegImmPseudo.toRegReg, RegRegPseudo.result,
              RegRegPseudo.carry]
          simp only [selectChain, AddSub.firstNode, AddSub.nextNode, List.map_cons, execChain, hexec]

/-- The later nodes of a subtraction ripple right. -/
theorem execChain_sube (words : List (BitVec 16 × ChainWord)) (c : Bool) :
    execChain (words.map fun word => (word.1, ChainNode.sube.select word.2)) c =
      subWords (chainPairs words) c := by
  induction words generalizing c with
  | nil => rfl
  | cons word words ih =>
      obtain ⟨x, y⟩ := word
      have hexec : (ChainNode.sube.select y).exec x c =
          (subBorrow x y.value c, borrowOut x y.value c) := by
        cases y <;> rfl
      simp only [List.map_cons, execChain, hexec, chainPairs_cons, subWords, ih]

/-- **A subtraction ripples right**, whatever its words are. -/
theorem execChain_selectChain_sub (words : List (BitVec 16 × ChainWord)) (c : Bool) :
    execChain (selectChain .sub words) c = subWords (chainPairs words) false := by
  cases words with
  | nil => rfl
  | cons word words =>
      obtain ⟨x, y⟩ := word
      have hexec : (ChainNode.subc.select y).exec x c =
          (subBorrow x y.value false, borrowOut x y.value false) := by
        cases y <;>
          simp [ChainNode.select, SelectedWord.exec, RegImmPseudo.toRegReg, RegRegPseudo.result,
            RegRegPseudo.carry, subBorrow_false, borrowOut_false, ChainWord.value]
      simp only [selectChain, AddSub.firstNode, AddSub.nextNode, execChain, hexec, chainPairs_cons,
        subWords, execChain_sube]

/-- The condition along the list is the condition on the values below each constant word. -/
theorem keptFrom_iff (words : List (BitVec 16 × ChainWord)) (c : Bool) :
    KeptFrom c words ↔
      ∀ i x k, words[i]? = some (x, .const k) →
        leftValue (chainPairs (words.take i)) + rightValue (chainPairs (words.take i)) + c.toNat <
            2 ^ (16 * i) ∧
          (i + 1 < words.length → k = 0) := by
  induction words generalizing c with
  | nil => simp [KeptFrom]
  | cons word words ih =>
      obtain ⟨x, y⟩ := word
      have hstep : ∀ i, leftValue (chainPairs (((x, y) :: words).take (i + 1))) +
            rightValue (chainPairs (((x, y) :: words).take (i + 1))) + c.toNat < 2 ^ (16 * (i + 1)) ↔
          leftValue (chainPairs (words.take i)) + rightValue (chainPairs (words.take i)) +
            (carryOut x y.value c).toNat < 2 ^ (16 * i) := by
        intro i
        rw [List.take_succ_cons, chainPairs_cons, leftValue_cons, rightValue_cons]
        exact add_words_lt_iff x y.value c i _ _
      have hfirst : c.toNat < 1 ↔ c = false := by
        cases c <;> simp
      rw [KeptFrom, ih]
      constructor
      · rintro ⟨hhead, htail⟩ i x' k hi
        cases i with
        | zero =>
            simp only [List.getElem?_cons_zero, Option.some.injEq, Prod.mk.injEq] at hi
            obtain ⟨hc, hzero⟩ := hhead k hi.2
            refine ⟨by simpa [leftValue, rightValue] using hc, fun hlt => hzero ?_⟩
            rintro rfl
            simp at hlt
        | succ i =>
            rw [List.getElem?_cons_succ] at hi
            obtain ⟨hlow, hzero⟩ := htail i x' k hi
            exact ⟨(hstep i).mpr hlow, fun hlt => hzero (by simpa using hlt)⟩
      · intro h
        refine ⟨?_, ?_⟩
        · rintro k rfl
          obtain ⟨hlow, hzero⟩ := h 0 x k rfl
          refine ⟨by simpa [leftValue, rightValue] using hlow, fun hne => hzero ?_⟩
          simpa using List.length_pos_iff.mpr hne
        · intro i x' k hi
          obtain ⟨hlow, hzero⟩ := h (i + 1) x' k (by rwa [List.getElem?_cons_succ])
          exact ⟨(hstep i).mp hlow, fun hlt => hzero (by simpa using hlt)⟩

/-- The number of words that a chain leaves. -/
theorem length_execChain (chain : List (BitVec 16 × SelectedWord)) (c : Bool) :
    (execChain chain c).length = chain.length := by
  induction chain generalizing c with
  | nil => rfl
  | cons word chain ih =>
      simp [execChain, ih]

/-- A chain has one instruction for each word. -/
theorem length_selectChain (op : AddSub) (words : List (BitVec 16 × ChainWord)) :
    (selectChain op words).length = words.length := by
  cases words with
  | nil => rfl
  | cons word words => simp [selectChain]

/-- An addition is right exactly when it ripples right. -/
theorem chainRight_add_iff (words : List (BitVec 16 × ChainWord)) (c : Bool) :
    ChainRight .add words c ↔
      execChain (selectChain .add words) c = addWords (chainPairs words) false := by
  have hlength' : (execChain (selectChain .add words) c).length = words.length := by
    rw [length_execChain, length_selectChain]
  have hvalue := wordsValue_addWords (chainPairs words) false
  simp only [length_chainPairs, Bool.toNat_false, Nat.cast_zero, add_zero] at hvalue
  rw [ChainRight, AddSub.exact]
  constructor
  · intro h
    apply eq_of_wordsValue_modEq
    · rw [hlength', length_addWords, length_chainPairs]
    · rw [hlength', h]
      exact (Int.mod_modEq _ _).trans hvalue.symm
  · intro h
    have hlt := wordsValue_lt (execChain (selectChain .add words) c)
    rw [hlength'] at hlt
    rw [← hvalue.eq, ← h, Int.emod_eq_of_lt (by positivity) (by exact_mod_cast hlt)]

/-- A subtraction is right. -/
theorem chainRight_sub (words : List (BitVec 16 × ChainWord)) (c : Bool) :
    ChainRight .sub words c := by
  have hvalue := wordsValue_subWords (chainPairs words) false
  have hlt := wordsValue_lt (execChain (selectChain .sub words) c)
  rw [length_execChain, length_selectChain] at hlt
  simp only [length_chainPairs, Bool.toNat_false, Nat.cast_zero, sub_zero] at hvalue
  rw [ChainRight, AddSub.exact, ← hvalue.eq, ← execChain_selectChain_sub words c,
    Int.emod_eq_of_lt (by positivity) (by exact_mod_cast hlt)]

/-- **A chain is right** exactly when it subtracts, or when no constant word loses a carry. -/
theorem chainRight_iff (op : AddSub) (words : List (BitVec 16 × ChainWord)) (c : Bool) :
    ChainRight op words c ↔ (op = .add → CarriesKept words) := by
  cases op with
  | add =>
      rw [chainRight_add_iff, execChain_selectChain_add, execChain_adde_eq_iff, keptFrom_iff,
        CarriesKept]
      simp
  | sub => simp [chainRight_sub]

/-- The addition `0 + 0x00000001` of a constant is wrong: `subiw` of `0xffff` borrows, and the high
word becomes `0xffff`. -/
theorem not_chainRight_add_one :
    ¬ ChainRight .add [(0, .const 1), (0, .const 0)] false := by
  unfold ChainRight
  decide

end Snes
