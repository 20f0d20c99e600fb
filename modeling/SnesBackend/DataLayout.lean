/-
# Types of the Intermediate Representation and Their Layout

Sizes, alignments and flattening of integer, pointer, array and structure types
under the data layout of the target, `e-p:16:8:8-i1:8:8-i8:8:8-i16:8:8-n8:16`.
-/
import Mathlib

namespace Snes

/-! ## Alignment -/

/-- `alignTo`. -/
def alignTo (value align : ℕ) : ℕ :=
  (value + align - 1) / align * align

/-- Aligning does not make smaller. -/
theorem le_alignTo {align : ℕ} (value : ℕ) (h : 0 < align) : value ≤ alignTo value align := by
  have low := Nat.div_add_mod (value + align - 1) align
  have rem := Nat.mod_lt (value + align - 1) h
  rw [alignTo, Nat.mul_comm]
  omega

/-! ## Types -/

/-- The types of arguments. -/
inductive IRType where
  | int (width : ℕ)
  | pointer
  | array (count : ℕ) (elem : IRType)
  | struct (packed : Bool) (fields : List IRType)

/-- The alignments of integers in bytes, by width: those of the target up to 16 bits, the defaults
above. -/
def integerAlignments : List (ℕ × ℕ) :=
  [(1, 1), (8, 1), (16, 1), (32, 4), (64, 4)]

/-- `getABIIntegerTypeAlignment`: the next larger width, or else the largest. -/
def integerABIAlign (width : ℕ) : ℕ :=
  ((integerAlignments.find? fun x => width ≤ x.1).getD (64, 4)).2

mutual

/-- `getABITypeAlignment`. -/
def IRType.abiAlign : IRType → ℕ
  | .int width => integerABIAlign width
  | .pointer => 1
  | .array _ elem => elem.abiAlign
  | .struct packed fields => if packed then 1 else maxAlign fields

/-- The alignment of a structure layout that is not packed. -/
def maxAlign : List IRType → ℕ
  | [] => 1
  | field :: fields => max field.abiAlign (maxAlign fields)

end

mutual

/-- `getTypeSizeInBits`. -/
def IRType.sizeInBits : IRType → ℕ
  | .int width => width
  | .pointer => 16
  | .array count elem => count * (8 * alignTo ((elem.sizeInBits + 7) / 8) elem.abiAlign)
  | .struct packed fields =>
      8 * alignTo (structEnd packed 0 fields) (IRType.struct packed fields).abiAlign

/-- The end of the fields in `StructLayout`, from an offset on. -/
def structEnd (packed : Bool) : ℕ → List IRType → ℕ
  | offset, [] => offset
  | offset, field :: fields =>
      structEnd packed
        (alignTo offset (if packed then 1 else field.abiAlign) +
          alignTo ((field.sizeInBits + 7) / 8) field.abiAlign)
        fields

end

mutual

/-- `ComputeValueVTs`: the widths of the values that a type consists of. -/
def IRType.valueWidths : IRType → List ℕ
  | .int width => [width]
  | .pointer => [16]
  | .array count elem => (List.replicate count elem.valueWidths).flatten
  | .struct _ fields => fieldWidths fields

/-- The values of a list of fields. -/
def fieldWidths : List IRType → List ℕ
  | [] => []
  | field :: fields => field.valueWidths ++ fieldWidths fields

end

/-- An `i8` and an `i32` are three bytes apart. -/
example : (IRType.struct false [.int 8, .int 32]).sizeInBits = 64 := by decide

end Snes
