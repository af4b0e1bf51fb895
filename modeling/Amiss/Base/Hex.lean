import Mathlib.Data.Nat.Basic
import Mathlib.Data.UInt

/-!
# Hexadecimal Text

Bytes written as two hexadecimal digits each, and read back. The writer uses
lowercase digits; the reader takes either case.

## Main definitions

* `hexEncode`: The digits of some bytes.
* `hexDecode`: The bytes some digits spell.

## Theorems

* `hexDecode_hexEncode`: Written bytes read back.
-/

namespace Amiss

/-- The value of an ASCII hexadecimal digit. -/
def hexValue (byte : UInt8) : Option Nat :=
  if 48 ≤ byte ∧ byte ≤ 57 then some (byte.toNat - 48)
  else if 65 ≤ byte ∧ byte ≤ 70 then some (byte.toNat - 55)
  else if 97 ≤ byte ∧ byte ≤ 102 then some (byte.toNat - 87)
  else none

/-- `decode` of the `hex` crate: two digits of either case a byte. -/
def hexDecode : List UInt8 → Option (List UInt8)
  | [] => some []
  | [_] => none
  | high :: low :: rest =>
    match hexValue high, hexValue low, hexDecode rest with
    | some high, some low, some bytes => some (UInt8.ofNat (high * 16 + low) :: bytes)
    | _, _, _ => none

/-- One lowercase hexadecimal digit. -/
def hexByte (n : Nat) : UInt8 := UInt8.ofNat (if n < 10 then 48 + n else 87 + n)

/-- `encode` of the `hex` crate. -/
def hexEncode : List UInt8 → List UInt8
  | [] => []
  | byte :: rest => hexByte (byte.toNat / 16) :: hexByte (byte.toNat % 16) :: hexEncode rest

theorem hexValue_hexByte {n : Nat} (h : n < 16) : hexValue (hexByte n) = some n := by
  have hall : ∀ n : Fin 16, hexValue (hexByte n) = some n.val := by decide
  exact hall ⟨n, h⟩

@[simp] theorem length_hexEncode (bytes : List UInt8) :
    (hexEncode bytes).length = 2 * bytes.length := by
  induction bytes with
  | nil => rfl
  | cons byte rest ih =>
    rw [hexEncode, List.length_cons, List.length_cons, List.length_cons, ih]
    omega

theorem hexDecode_hexEncode (bytes : List UInt8) : hexDecode (hexEncode bytes) = some bytes := by
  induction bytes with
  | nil => rfl
  | cons byte rest ih =>
    have hbyte : byte.toNat < 256 := byte.toNat_lt
    have hwhole : byte.toNat / 16 * 16 + byte.toNat % 16 = byte.toNat := by omega
    rw [hexEncode, hexDecode, hexValue_hexByte (by omega), hexValue_hexByte (by omega), ih]
    simp [hwhole]

end Amiss
