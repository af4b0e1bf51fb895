import Mathlib

/-!
# Offset Varints

Numbers as bytes of seven bits, the most significant first, every byte but the
last with its high bit set. Each byte that continues adds one to what was read
so far, so that no number has two spellings.

The reader has no bound of its own. `readBelow` refuses what reaches a bound,
and can do so before all of it is read, since a number never falls.

The writer is easiest to see from the last byte: it holds the number modulo
128, and the bytes before it lead up to the quotient. What leads up to zero is
nothing, and what leads up to `n + 1` is a continuing byte for `n`, since the
reader adds the one back.

## Main definitions

* `offsetLead`: The continuing bytes after which a reader holds a number.
* `offsetVarint`: A number as its bytes.
* `readOffset`: The number that some bytes spell, and what follows it.
* `readBelow`: The same for numbers below a bound.

## Theorems

* `readOffset_offsetVarint`, `offsetVarint_of_readOffset`: What is read is what
  is written.
* `readBelow_cons`: A bounded reader by its first byte.
-/

namespace Amiss

/-- The continuing bytes after which a reader holds a number, in at most as
    many bytes as `rounds`. -/
def offsetLead : Nat → Nat → List UInt8
  | 0, _ => []
  | _, 0 => []
  | rounds + 1, n + 1 => offsetLead rounds (n / 128) ++ [UInt8.ofNat (128 + n % 128)]

/-- A number as an offset varint. -/
def offsetVarint (n : Nat) : List UInt8 := offsetLead n (n / 128) ++ [UInt8.ofNat (n % 128)]

/-- The number that some bytes spell after `value` has been read, and what
    follows it. -/
def readOffset : Nat → List UInt8 → Option (Nat × List UInt8)
  | _, [] => none
  | value, byte :: rest =>
    let whole := value * 128 + (byte &&& 0x7f).toNat
    if byte &&& 0x80 = 0 then some (whole, rest) else readOffset (whole + 1) rest

/-- What is read, unless it reaches the bound. -/
def readBelow (bound value : Nat) (bytes : List UInt8) : Option (Nat × List UInt8) :=
  (readOffset value bytes).filter (fun read => read.1 < bound)

theorem toNat_and_low (byte : UInt8) : (byte &&& 0x7f).toNat = byte.toNat % 128 := by
  rw [UInt8.toNat_and]
  exact Nat.and_two_pow_sub_one_eq_mod byte.toNat 7

theorem and_high_eq_zero_iff (byte : UInt8) : byte &&& 0x80 = 0 ↔ byte.toNat < 128 := by
  have hall : ∀ n : Fin 256, UInt8.ofNat n &&& 0x80 = 0 ↔ n.val < 128 := by decide +kernel
  have h := hall ⟨byte.toNat, byte.toNat_lt⟩
  simpa only [UInt8.ofNat_toNat] using h

/-- A continuing byte's payload and its high bit. -/
theorem lead_toNat {n : Nat} (h : n < 128) :
    (UInt8.ofNat (128 + n) &&& 0x7f).toNat = n ∧ UInt8.ofNat (128 + n) &&& 0x80 ≠ 0 := by
  have hvalue : (UInt8.ofNat (128 + n)).toNat = 128 + n := by
    rw [UInt8.toNat_ofNat']
    omega
  rw [toNat_and_low, ne_eq, and_high_eq_zero_iff, hvalue]
  omega

/-- The last byte's payload and its high bit. -/
theorem last_toNat {n : Nat} (h : n < 128) :
    (UInt8.ofNat n &&& 0x7f).toNat = n ∧ UInt8.ofNat n &&& 0x80 = 0 := by
  have hvalue : (UInt8.ofNat n).toNat = n := by
    rw [UInt8.toNat_ofNat']
    omega
  rw [toNat_and_low, and_high_eq_zero_iff, hvalue]
  omega

variable {m n value : Nat} {bytes rest : List UInt8}

/-- The bytes that lead up to a number leave the reader with it. -/
theorem readOffset_offsetLead : ∀ {rounds : Nat}, m ≤ rounds →
    ∀ rest, readOffset 0 (offsetLead rounds m ++ rest) = readOffset m rest := by
  induction m using Nat.strong_induction_on with
  | _ m ih =>
    intro rounds hrounds rest
    cases rounds with
    | zero =>
      rw [Nat.le_zero.mp hrounds]
      rfl
    | succ rounds =>
      cases m with
      | zero => rfl
      | succ n =>
        have hpayload := lead_toNat (Nat.mod_lt n (by omega : 0 < 128))
        have hwhole : n / 128 * 128 + n % 128 = n := by omega
        rw [offsetLead, List.append_assoc, ih (n / 128) (by omega) (by omega : n / 128 ≤ rounds),
          List.singleton_append, readOffset, hpayload.1, hwhole, if_neg hpayload.2]

/-- What is written reads back, with what follows it. -/
theorem readOffset_offsetVarint (n : Nat) (rest : List UInt8) :
    readOffset 0 (offsetVarint n ++ rest) = some (n, rest) := by
  have hpayload := last_toNat (Nat.mod_lt n (by omega : 0 < 128))
  have hwhole : n / 128 * 128 + n % 128 = n := by omega
  rw [offsetVarint, List.append_assoc, readOffset_offsetLead (by omega), List.singleton_append,
    readOffset, hpayload.1, hwhole, if_pos hpayload.2]

/-- More rounds than the number is large change nothing. -/
theorem offsetLead_rounds : ∀ {rounds : Nat}, m ≤ rounds →
    offsetLead rounds m = offsetLead m m := by
  induction m using Nat.strong_induction_on with
  | _ m ih =>
    intro rounds hrounds
    cases rounds with
    | zero => rw [Nat.le_zero.mp hrounds]
    | succ rounds =>
      cases m with
      | zero => rfl
      | succ n =>
        rw [offsetLead, offsetLead, ih (n / 128) (by omega) (by omega : n / 128 ≤ rounds),
          ih (n / 128) (by omega) (by omega : n / 128 ≤ n)]

/-- What is read is what is written, behind the bytes that lead up to the
    number that was held before. -/
theorem offsetLead_of_readOffset (h : readOffset value bytes = some (n, rest)) :
    offsetLead value value ++ bytes = offsetVarint n ++ rest := by
  induction bytes generalizing value with
  | nil => cases h
  | cons byte bytes ih =>
    rw [readOffset, toNat_and_low] at h
    have hvalue : (value * 128 + byte.toNat % 128) / 128 = value := by omega
    have hlead : offsetLead (value * 128 + byte.toNat % 128) value = offsetLead value value :=
      offsetLead_rounds (by omega)
    by_cases hlast : byte &&& 0x80 = 0
    · rw [if_pos hlast, Option.some.injEq, Prod.mk.injEq] at h
      rcases h with ⟨rfl, rfl⟩
      rw [and_high_eq_zero_iff] at hlast
      have hbyte : (value * 128 + byte.toNat % 128) % 128 = byte.toNat := by omega
      rw [offsetVarint, hvalue, hbyte, UInt8.ofNat_toNat, hlead, List.append_assoc,
        List.singleton_append]
    · rw [if_neg hlast] at h
      rw [and_high_eq_zero_iff] at hlast
      have hlt := byte.toNat_lt
      have hbyte : 128 + (value * 128 + byte.toNat % 128) % 128 = byte.toNat := by omega
      rw [← ih h, offsetLead, hvalue, hbyte, UInt8.ofNat_toNat, hlead, List.append_assoc,
        List.singleton_append]

theorem offsetVarint_of_readOffset (h : readOffset 0 bytes = some (n, rest)) :
    bytes = offsetVarint n ++ rest :=
  offsetLead_of_readOffset h

/-- A number is not smaller than what is held before its last byte, and it takes
    a byte at least. -/
theorem readOffset_le (h : readOffset value bytes = some (n, rest)) :
    value * 128 ≤ n ∧ rest.length < bytes.length := by
  induction bytes generalizing value with
  | nil => cases h
  | cons byte bytes ih =>
    rw [readOffset] at h
    rw [List.length_cons]
    by_cases hlast : byte &&& 0x80 = 0
    · rw [if_pos hlast, Option.some.injEq, Prod.mk.injEq] at h
      rcases h with ⟨rfl, rfl⟩
      omega
    · rw [if_neg hlast] at h
      have := ih h
      omega

variable {bound : Nat}

/-- What is held past the bound stays past it. -/
theorem readBelow_past (h : bound ≤ value) (bytes : List UInt8) :
    readBelow bound value bytes = none := by
  rw [readBelow, Option.filter_eq_none_iff]
  intro read hread hfits
  have := (readOffset_le hread).1
  have := of_decide_eq_true hfits
  omega

theorem readBelow_offsetVarint (h : n < bound) (rest : List UInt8) :
    readBelow bound 0 (offsetVarint n ++ rest) = some (n, rest) := by
  rw [readBelow, readOffset_offsetVarint, Option.filter_some, if_pos (decide_eq_true h)]

theorem readBelow_cons (bound value : Nat) (byte : UInt8) (rest : List UInt8) :
    readBelow bound value (byte :: rest) =
      let whole := value * 128 + (byte &&& 0x7f).toNat
      if bound ≤ whole then none
      else if byte &&& 0x80 = 0 then some (whole, rest) else readBelow bound (whole + 1) rest := by
  rw [readBelow, readOffset]
  generalize value * 128 + (byte &&& 0x7f).toNat = whole
  dsimp only
  by_cases hlast : byte &&& 0x80 = 0
  · rw [if_pos hlast, if_pos hlast, Option.filter_some]
    by_cases hfits : bound ≤ whole
    · rw [if_pos hfits, if_neg (by simpa using hfits)]
    · rw [if_neg hfits, if_pos (by simpa using hfits)]
  · rw [if_neg hlast, if_neg hlast, ← readBelow]
    by_cases hfits : bound ≤ whole
    · rw [if_pos hfits, readBelow_past (Nat.le_succ_of_le hfits)]
    · rw [if_neg hfits]

end Amiss
