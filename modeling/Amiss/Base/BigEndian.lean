import Mathlib.Data.List.Basic
import Mathlib.Data.List.Induction
import Mathlib.Data.Nat.Basic
import Mathlib.Tactic.Ring

/-!
# Big-Endian Numbers

A number written as a fixed count of bytes, the most significant first, and
read back.

## Main definitions

* `beBytes`: The last `width` bytes of a number.
* `ofBeBytes`: The number some bytes spell.

## Theorems

* `ofBeBytes_beBytes`: A number that fits its width reads back.
* `beBytes_ofBeBytes`: Bytes are written again as they were.
* `ofBeBytes_lead_injective`: Bytes behind a one are told apart.
-/

namespace Amiss

/-- The last `width` bytes of a number, the most significant first. -/
def beBytes : Nat → Nat → List UInt8
  | 0, _ => []
  | width + 1, n => beBytes width (n / 256) ++ [UInt8.ofNat (n % 256)]

variable (bytes : List UInt8)

/-- The number that bytes spell, the most significant first. -/
def ofBeBytes : Nat :=
  bytes.foldl (fun total byte => total * 256 + byte.toNat) 0

@[simp] theorem length_beBytes (width n : Nat) : (beBytes width n).length = width := by
  induction width generalizing n with
  | zero => rfl
  | succ width ih => rw [beBytes, List.length_append, ih, List.length_singleton]

theorem ofBeBytes_concat (byte : UInt8) :
    ofBeBytes (bytes ++ [byte]) = ofBeBytes bytes * 256 + byte.toNat := by
  rw [ofBeBytes, List.foldl_append]
  rfl

theorem ofBeBytes_lt : ofBeBytes bytes < 256 ^ bytes.length := by
  induction bytes using List.reverseRecOn with
  | nil => exact Nat.one_pos
  | append_singleton bytes byte ih =>
    have hbyte : byte.toNat < 256 := byte.toNat_lt
    rw [ofBeBytes_concat, List.length_append, List.length_singleton, pow_succ]
    omega

/-- A number that fits its width reads back as it was. -/
theorem ofBeBytes_beBytes {width n : Nat} (h : n < 256 ^ width) :
    ofBeBytes (beBytes width n) = n := by
  induction width generalizing n with
  | zero =>
    rw [pow_zero, Nat.lt_one_iff] at h
    rw [h]
    rfl
  | succ width ih =>
    have hhigh : n / 256 < 256 ^ width := by
      rw [pow_succ] at h
      exact Nat.div_lt_of_lt_mul (by rw [mul_comm]; exact h)
    have hlow : (UInt8.ofNat (n % 256)).toNat = n % 256 := by
      rw [UInt8.toNat_ofNat']
      exact Nat.mod_mod _ _
    rw [beBytes, ofBeBytes_concat, ih hhigh, hlow]
    omega

/-- What bytes spell is written as those bytes. -/
theorem beBytes_ofBeBytes : beBytes bytes.length (ofBeBytes bytes) = bytes := by
  induction bytes using List.reverseRecOn with
  | nil => rfl
  | append_singleton bytes byte ih =>
    have hbyte : byte.toNat < 256 := byte.toNat_lt
    have hhigh : (ofBeBytes bytes * 256 + byte.toNat) / 256 = ofBeBytes bytes := by omega
    have hlow : (ofBeBytes bytes * 256 + byte.toNat) % 256 = byte.toNat := by omega
    rw [List.length_append, List.length_singleton, ofBeBytes_concat, beBytes, hhigh, hlow, ih,
      UInt8.ofNat_toNat]

/-- Behind a leading one, no two lists of bytes spell one number. -/
theorem ofBeBytes_lead_injective {left right : List UInt8}
    (h : ofBeBytes (1 :: left) = ofBeBytes (1 :: right)) : left = right := by
  have hpos : ∀ bytes : List UInt8, 1 ≤ ofBeBytes (1 :: bytes) := by
    intro bytes
    induction bytes using List.reverseRecOn with
    | nil => exact le_refl 1
    | append_singleton bytes byte ih =>
      rw [← List.cons_append, ofBeBytes_concat]
      omega
  induction left using List.reverseRecOn generalizing right with
  | nil =>
    rcases List.eq_nil_or_concat' right with rfl | ⟨bytes, byte, rfl⟩
    · rfl
    · rw [← List.cons_append, ofBeBytes_concat, show ofBeBytes [1] = 1 from rfl] at h
      have := hpos bytes
      omega
  | append_singleton bytes byte ih =>
    rcases List.eq_nil_or_concat' right with rfl | ⟨bytes', byte', rfl⟩
    · rw [← List.cons_append, ofBeBytes_concat, show ofBeBytes [1] = 1 from rfl] at h
      have := hpos bytes
      omega
    · rw [← List.cons_append, ← List.cons_append, ofBeBytes_concat, ofBeBytes_concat] at h
      have hbyte := byte.toNat_lt
      have hbyte' := byte'.toNat_lt
      have hsame : byte = byte' := UInt8.toNat_inj.mp (by omega)
      rw [ih (show ofBeBytes (1 :: bytes) = ofBeBytes (1 :: bytes') by omega), hsame]

end Amiss
