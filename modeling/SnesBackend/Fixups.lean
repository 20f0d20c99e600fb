/-
# Fixups

`SNESAsmBackend.cpp`: how the resolved value of a fixup is checked and rearranged
for its kind, and how the result is masked into the bytes of a fragment.

The kinds are the ones that the encoder records.  A fatal diagnostic, an
`llvm_unreachable` and a failed assertion are errors.
-/
import SnesBackend.CodeEmitter
import SnesBackend.BytePatching

namespace Snes

open BytePatching

/-! ## Ranges -/

/-- `minIntN`. -/
def minIntN (n : ℕ) : ℤ :=
  -(2 ^ (n - 1))

/-- `maxIntN`. -/
def maxIntN (n : ℕ) : ℤ :=
  2 ^ (n - 1) - 1

/-- `isIntN`. -/
def isIntN (n : ℕ) (x : BitVec 64) : Bool :=
  decide (n ≥ 64) || (decide (minIntN n ≤ x.toInt) && decide (x.toInt ≤ maxIntN n))

/-- `maxUIntN`. -/
def maxUIntN (n : ℕ) : ℕ :=
  2 ^ n - 1

/-- `isUIntN`. -/
def isUIntN (n : ℕ) (x : BitVec 64) : Bool :=
  decide (n ≥ 64) || decide (x.toNat ≤ maxUIntN n)

/-- `isIntN` on widths below 64. -/
theorem isIntN_eq_true_iff {n : ℕ} (h : n < 64) (x : BitVec 64) :
    isIntN n x = true ↔ minIntN n ≤ x.toInt ∧ x.toInt ≤ maxIntN n := by
  simp [isIntN, show ¬ 64 ≤ n by omega]

/-- `isUIntN` on widths below 64. -/
theorem isUIntN_eq_true_iff {n : ℕ} (h : n < 64) (x : BitVec 64) :
    isUIntN n x = true ↔ x.toNat < 2 ^ n := by
  have hpos : 0 < 2 ^ n := Nat.two_pow_pos n
  have hbound : x.toNat ≤ 2 ^ n - 1 ↔ x.toNat < 2 ^ n := by omega
  simp [isUIntN, show ¬ 64 ≤ n by omega, maxUIntN, hbound]

/-! ## Errors -/

/-- What stops the application of a fixup. -/
inductive FixupError where
  | fatal (diagnostic : String)
  | unreachable (message : String)
  | assertion (message : String)
deriving DecidableEq, Repr

/-! ## Adjusting values -/

namespace Adjust

/-- `adjust::signed_width`. -/
def signedWidth (width : ℕ) (value : BitVec 64) (description : String) :
    Except FixupError Unit :=
  if isIntN width value then .ok ()
  else .error (.fatal ("out of range " ++ description ++ " (expected an integer in the range " ++
    toString (minIntN width) ++ " to " ++ toString (maxIntN width) ++ ")"))

/-- `adjust::unsigned_width`. -/
def unsignedWidth (width : ℕ) (value : BitVec 64) (description : String) :
    Except FixupError Unit :=
  if isUIntN width value then .ok ()
  else .error (.fatal ("out of range " ++ description ++
    " (expected an integer in the range 0 to " ++ toString (maxUIntN width) ++ ")"))

/-- A signed value that fits passes its check, another one does not. -/
theorem signedWidth_eq (width : ℕ) (value : BitVec 64) (description : String) :
    (isIntN width value = true → signedWidth width value description = .ok ()) ∧
      (isIntN width value ≠ true → ∃ err, signedWidth width value description = .error err) := by
  unfold signedWidth
  refine ⟨fun h => if_pos h, fun h => ?_⟩
  rw [if_neg h]
  exact ⟨_, rfl⟩

/-- An unsigned value that fits passes its check, another one does not. -/
theorem unsignedWidth_eq (width : ℕ) (value : BitVec 64) (description : String) :
    (isUIntN width value = true → unsignedWidth width value description = .ok ()) ∧
      (isUIntN width value ≠ true →
        ∃ err, unsignedWidth width value description = .error err) := by
  unfold unsignedWidth
  refine ⟨fun h => if_pos h, fun h => ?_⟩
  rw [if_neg h]
  exact ⟨_, rfl⟩

/-- `adjustBranchTarget` on an unsigned value. -/
def adjustBranchTarget (value : BitVec 64) : BitVec 64 :=
  value >>> 1

/-- `adjustBranch`. -/
def adjustBranch (size : ℕ) (value : BitVec 64) : Except FixupError (BitVec 64) := do
  unsignedWidth (size + 1) value "branch target"
  return adjustBranchTarget value

/-- `adjustRelativeBranch`. -/
def adjustRelativeBranch (size : ℕ) (value : BitVec 64) : Except FixupError (BitVec 64) := do
  signedWidth (size + 1) value "branch target"
  return adjustBranchTarget (value - 2)

/-- `fixup_call`: the field is split by masks of its own. -/
def fixupCall (size : ℕ) (value : BitVec 64) : Except FixupError (BitVec 64) := do
  let value ← adjustBranch size value
  let top := value &&& (0xf00000 <<< 6)
  let middle := value &&& (0x1ffff <<< 5)
  let bottom := value &&& 0x1f
  return (top <<< 6) ||| (middle <<< 3) ||| (bottom <<< 0)

/-- `fixup_7_pcrel`. -/
def fixup7Pcrel (size : ℕ) (value : BitVec 64) : Except FixupError (BitVec 64) := do
  let value ← adjustRelativeBranch size value
  return value &&& 0x7f

/-- `fixup_13_pcrel`. -/
def fixup13Pcrel (size : ℕ) (value : BitVec 64) : Except FixupError (BitVec 64) := do
  let value ← adjustRelativeBranch size value
  return value &&& 0xfff

/-- `fixup_port5`. -/
def fixupPort5 (value : BitVec 64) : Except FixupError (BitVec 64) := do
  unsignedWidth 5 value "port number"
  return (value &&& 0x1f) <<< 3

/-- `fixup_port6`. -/
def fixupPort6 (value : BitVec 64) : Except FixupError (BitVec 64) := do
  unsignedWidth 6 value "port number"
  return ((value &&& 0x30) <<< 5) ||| (value &&& 0x0f)

/-- `pm`: a program memory address counts words. -/
def pm (value : BitVec 64) : BitVec 64 :=
  value >>> 1

/-- `ldi::fixup`: the high nibble of the byte goes to bits 11-8. -/
def ldiFixup (value : BitVec 64) : BitVec 64 :=
  let upper := value &&& 0xf0
  let lower := value &&& 0x0f
  (upper <<< 4) ||| lower

/-- `ldi::neg`. -/
def ldiNeg (value : BitVec 64) : BitVec 64 :=
  value * -1

/-- `ldi::lo8`. -/
def ldiLo8 (value : BitVec 64) : BitVec 64 :=
  ldiFixup (value &&& 0xff)

/-- `ldi::hi8`. -/
def ldiHi8 (value : BitVec 64) : BitVec 64 :=
  ldiFixup ((value &&& 0xff00) >>> 8)

/-- `ldi::hh8`. -/
def ldiHh8 (value : BitVec 64) : BitVec 64 :=
  ldiFixup ((value &&& 0xff0000) >>> 16)

/-- `ldi::ms8`. -/
def ldiMs8 (value : BitVec 64) : BitVec 64 :=
  ldiFixup ((value &&& 0xff000000) >>> 24)

end Adjust

/-! ## The fixup table -/

/-- `MCFixupKindInfo`, less the name. -/
structure FixupKindInfo where
  targetOffset : ℕ
  targetSize : ℕ
  isPCRel : Bool
deriving DecidableEq, Repr

/-- `getFixupKindInfo`. -/
def getFixupKindInfo : FixupKind → FixupKindInfo
  | .fixup7Pcrel => ⟨3, 7, true⟩
  | .fixup13Pcrel => ⟨0, 12, true⟩
  | .fixup16 => ⟨0, 16, false⟩
  | .fixupLdi => ⟨0, 8, false⟩
  | .fixupLo8Ldi | .fixupHi8Ldi | .fixupHh8Ldi | .fixupMs8Ldi => ⟨0, 8, false⟩
  | .fixupLo8LdiNeg | .fixupHi8LdiNeg | .fixupHh8LdiNeg | .fixupMs8LdiNeg => ⟨0, 8, false⟩
  | .fixupLo8LdiPm | .fixupHi8LdiPm | .fixupHh8LdiPm => ⟨0, 8, false⟩
  | .fixupLo8LdiPmNeg | .fixupHi8LdiPmNeg | .fixupHh8LdiPmNeg => ⟨0, 8, false⟩
  | .fixupCall => ⟨0, 22, false⟩
  | .fixup6 => ⟨0, 16, false⟩
  | .fixupPort6 => ⟨0, 16, false⟩
  | .fixupPort5 => ⟨3, 5, false⟩

/-- The switch of `adjustFixupValue`, on a value that is un-adjusted already. -/
def adjustKind (kind : FixupKind) (value : BitVec 64) : Except FixupError (BitVec 64) :=
  let size := (getFixupKindInfo kind).targetSize
  match kind with
  | .fixup7Pcrel => Adjust.fixup7Pcrel size value
  | .fixup13Pcrel => Adjust.fixup13Pcrel size value
  | .fixupCall => Adjust.fixupCall size value
  | .fixupLdi => .ok (Adjust.ldiFixup value)
  | .fixupLo8Ldi => .ok (Adjust.ldiLo8 value)
  | .fixupLo8LdiPm => .ok (Adjust.ldiLo8 (Adjust.pm value))
  | .fixupHi8Ldi => .ok (Adjust.ldiHi8 value)
  | .fixupHi8LdiPm => .ok (Adjust.ldiHi8 (Adjust.pm value))
  | .fixupHh8Ldi => .ok (Adjust.ldiHh8 value)
  | .fixupHh8LdiPm => .ok (Adjust.ldiHh8 (Adjust.pm value))
  | .fixupMs8Ldi => .ok (Adjust.ldiMs8 value)
  | .fixupLo8LdiNeg => .ok (Adjust.ldiLo8 (Adjust.ldiNeg value))
  | .fixupLo8LdiPmNeg => .ok (Adjust.ldiLo8 (Adjust.ldiNeg (Adjust.pm value)))
  | .fixupHi8LdiNeg => .ok (Adjust.ldiHi8 (Adjust.ldiNeg value))
  | .fixupHi8LdiPmNeg => .ok (Adjust.ldiHi8 (Adjust.ldiNeg (Adjust.pm value)))
  | .fixupHh8LdiNeg => .ok (Adjust.ldiHh8 (Adjust.ldiNeg value))
  | .fixupHh8LdiPmNeg => .ok (Adjust.ldiHh8 (Adjust.ldiNeg (Adjust.pm value)))
  | .fixupMs8LdiNeg => .ok (Adjust.ldiMs8 (Adjust.ldiNeg value))
  | .fixup16 => do
      Adjust.unsignedWidth 16 value "port number"
      return value &&& 0xffff
  | .fixupPort5 => Adjust.fixupPort5 value
  | .fixupPort6 => Adjust.fixupPort6 value
  -- `fixup_6` has no case
  | .fixup6 => .error (.unreachable "unhandled fixup")

/-- `adjustFixupValue`: a value bound to a temporary label is un-adjusted first, whatever its
kind. -/
def adjustFixupValue (kind : FixupKind) (temporary : Bool) (value : BitVec 64) :
    Except FixupError (BitVec 64) :=
  adjustKind kind (if temporary then value + 2 else value)

/-! ## Applying a fixup -/

/-- The number of bytes that the value of a kind is masked into. -/
def FixupKind.numBytes (kind : FixupKind) : ℕ :=
  let numBits := (getFixupKindInfo kind).targetSize + (getFixupKindInfo kind).targetOffset
  numBits / 8 + if numBits % 8 = 0 then 0 else 1

/-- `applyFixup`: the adjusted value, moved into position, is or-ed into the bytes that the fixup
touches. -/
def applyFixup (fixup : MCFixup) (temporary : Bool) (data : List (BitVec 8)) (value : BitVec 64) :
    Except FixupError (List (BitVec 8)) := do
  let value ← adjustFixupValue fixup.kind temporary value
  if value = 0 then
    return data
  let value := value <<< (getFixupKindInfo fixup.kind).targetOffset
  if fixup.offset + fixup.kind.numBytes ≤ data.length then
    return orBytes value fixup.offset fixup.kind.numBytes data
  else
    throw (.assertion "Invalid fixup offset!")

/-- **Applying an accepted fixup** masks in the adjusted value, also when that is zero. -/
theorem applyFixup_of_ok (fixup : MCFixup) {temporary : Bool} {data : List (BitVec 8)}
    {value adjusted : BitVec 64} (h : adjustFixupValue fixup.kind temporary value = .ok adjusted)
    (hfits : fixup.offset + fixup.kind.numBytes ≤ data.length) :
    applyFixup fixup temporary data value =
      .ok (orBytes (adjusted <<< (getFixupKindInfo fixup.kind).targetOffset) fixup.offset
        fixup.kind.numBytes data) := by
  unfold applyFixup
  rw [h]
  by_cases hzero : adjusted = 0
  · subst hzero
    simp [bind, Except.bind, pure, Except.pure]
  · simp only [bind, Except.bind, pure, Except.pure, if_neg hzero, if_pos hfits]

/-- A fixup whose value is refused is not applied. -/
theorem applyFixup_of_error {fixup : MCFixup} {temporary : Bool} {data : List (BitVec 8)}
    {value : BitVec 64} {e : FixupError}
    (h : adjustFixupValue fixup.kind temporary value = .error e) :
    applyFixup fixup temporary data value = .error e := by
  unfold applyFixup
  rw [h]
  rfl

/-- A fixup that lies in the middle of a fragment leaves both ends as they are. -/
theorem applyFixup_append {kind : FixupKind} {e : MCExpr} {offset : ℕ} {temporary : Bool}
    {value adjusted : BitVec 64} {before middle after : List (BitVec 8)}
    (h : adjustFixupValue kind temporary value = .ok adjusted)
    (hfits : offset + kind.numBytes ≤ middle.length) :
    applyFixup ⟨before.length + offset, e, kind⟩ temporary (before ++ middle ++ after) value =
      .ok (before ++ orBytes (adjusted <<< (getFixupKindInfo kind).targetOffset) offset
        kind.numBytes middle ++ after) := by
  rw [applyFixup_of_ok ⟨before.length + offset, e, kind⟩ h
    (by simp only [List.length_append]; omega)]
  rw [orBytes_append hfits]

/-! ## Instructions in a fragment -/

/-- A fixup of an instruction that is emitted behind `n` bytes of its fragment. -/
def MCFixup.shift (n : ℕ) (fixup : MCFixup) : MCFixup :=
  { fixup with offset := n + fixup.offset }

/-- The fixups of a list, one after the other, all with the same resolved value. -/
def applyFixups (temporary : Bool) (value : BitVec 64) :
    List MCFixup → List (BitVec 8) → Except FixupError (List (BitVec 8))
  | [], data => .ok data
  | fixup :: rest, data => do
      let data ← applyFixup fixup temporary data value
      applyFixups temporary value rest data

/-- A fragment with an encoded instruction in it, after the fixups of the instruction. -/
def resolvedFragment (before after : List (BitVec 8)) (mi : MCInst) (temporary : Bool)
    (value : BitVec 64) : Option (Except FixupError (List (BitVec 8))) :=
  (encodeInstruction mi).map fun (bytes, fixups) =>
    applyFixups temporary value (fixups.map (MCFixup.shift before.length)) (before ++ bytes ++ after)

section

variable {mi : MCInst} {bytes : List (BitVec 8)} {offset : ℕ} {e : MCExpr} {kind : FixupKind}
  (hencode : encodeInstruction mi = some (bytes, [⟨offset, e, kind⟩]))

include hencode

/-- **One accepted fixup** changes bytes of its own instruction only. -/
theorem resolvedFragment_of_ok {temporary : Bool} {value adjusted : BitVec 64}
    (h : adjustFixupValue kind temporary value = .ok adjusted)
    (hfits : offset + kind.numBytes ≤ bytes.length) (before after : List (BitVec 8)) :
    resolvedFragment before after mi temporary value =
      some (.ok (before ++ orBytes (adjusted <<< (getFixupKindInfo kind).targetOffset) offset
        kind.numBytes bytes ++ after)) := by
  rw [resolvedFragment, hencode, Option.map_some]
  simp only [List.map_cons, List.map_nil, MCFixup.shift, applyFixups, applyFixup_append h hfits]
  rfl

/-- One refused fixup stops the emission. -/
theorem resolvedFragment_of_error {temporary : Bool} {value : BitVec 64} {err : FixupError}
    (h : adjustFixupValue kind temporary value = .error err) (before after : List (BitVec 8)) :
    resolvedFragment before after mi temporary value = some (.error err) := by
  rw [resolvedFragment, hencode, Option.map_some]
  simp only [List.map_cons, List.map_nil, MCFixup.shift, applyFixups]
  rw [applyFixup_of_error (by exact h)]
  rfl

end

end Snes
