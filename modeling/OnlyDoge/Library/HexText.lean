import Mathlib.Data.List.Basic
set_option autoImplicit false

/-! Bytes as hexadecimal text and back. -/

namespace HexText

def hexDigit (n : Nat) : Char :=
  (['0','1','2','3','4','5','6','7','8','9','a','b','c','d','e','f'][n]?).getD '0'

def hexValue (c : Char) : Option Nat :=
  if '0' ≤ c ∧ c ≤ '9' then some (c.toNat - '0'.toNat)
  else if 'a' ≤ c ∧ c ≤ 'f' then some (c.toNat - 'a'.toNat + 10)
  else if 'A' ≤ c ∧ c ≤ 'F' then some (c.toNat - 'A'.toNat + 10)
  else none

/-- `text.padStart(width, '0')` of the digits of a number. -/
def padStart (width : Nat) (digits : List Char) : String :=
  String.ofList (List.replicate (width - digits.length) '0' ++ digits)

def hexDigits (bytes : List UInt8) : List Char :=
  bytes.flatMap (fun b => [hexDigit (b.toNat / 16),hexDigit (b.toNat % 16)])

def hexPairs : List Char → Option (List UInt8)
  | [] => some []
  | [_] => none
  | high::low::rest => do
    let h ← hexValue high
    let l ← hexValue low
    let bytes ← hexPairs rest
    return UInt8.ofNat (h * 16 + l)::bytes

theorem hexValue_hexDigit (n : Nat) (h : n < 16) : hexValue (hexDigit n) = some n := by
  have hall : ∀ n : Fin 16, hexValue (hexDigit n.val) = some n.val := by decide
  exact hall ⟨n,h⟩

theorem hexPairs_hexDigits (bytes : List UInt8) : hexPairs (hexDigits bytes) = some bytes := by
  induction bytes with
  | nil => rfl
  | cons b bytes ih =>
    have hb := UInt8.toNat_lt b
    have hhigh := hexValue_hexDigit (b.toNat / 16) (by omega)
    have hlow := hexValue_hexDigit (b.toNat % 16) (by omega)
    have hbyte : UInt8.ofNat (b.toNat / 16 * 16 + b.toNat % 16) = b := by
      rw [Nat.div_add_mod']
      exact UInt8.ofNat_toNat
    have hcons : hexDigits (b::bytes) =
        hexDigit (b.toNat / 16)::hexDigit (b.toNat % 16)::hexDigits bytes := rfl
    rw [hcons,hexPairs,hhigh,hlow,ih]
    exact congrArg (fun b => some (b::bytes)) hbyte

theorem hexDigits_length (bytes : List UInt8) : (hexDigits bytes).length = 2 * bytes.length := by
  induction bytes with
  | nil => rfl
  | cons b bytes ih =>
    have hcons : hexDigits (b::bytes) =
        hexDigit (b.toNat / 16)::hexDigit (b.toNat % 16)::hexDigits bytes := rfl
    rw [hcons]
    simp only [List.length_cons,ih]
    omega

theorem mem_hexDigits {bytes : List UInt8} {c : Char} (h : c ∈ hexDigits bytes) :
    ∃ n < 16, c = hexDigit n := by
  obtain ⟨b,-,hc⟩ := List.mem_flatMap.mp h
  have hb := UInt8.toNat_lt b
  rcases List.mem_cons.mp hc with rfl | hc
  · exact ⟨b.toNat / 16,by omega,rfl⟩
  · obtain rfl := List.mem_singleton.mp hc
    exact ⟨b.toNat % 16,by omega,rfl⟩

end HexText
