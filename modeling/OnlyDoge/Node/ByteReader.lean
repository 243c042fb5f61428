import OnlyDoge.Library.Cursor
import OnlyDoge.Library.HexText
set_option autoImplicit false

/-! The byte reader of `dogecoin-raw-block.ts` and the hex text around it. -/

namespace OnlyDoge
open Reader HexText

abbrev ByteReader (α : Type) : Type := Reader UInt8 String α

def invalidPayload (detail : String) : String :=
  "invalid dogecoin raw block payload: " ++ detail

/-- Leaves out the prefix that `invalidPayload` put there. -/
def errorMessage (message : String) : String :=
  let stripped := "invalid dogecoin raw block payload: ".toList
  if stripped.isPrefixOf message.toList then
    String.ofList (message.toList.drop stripped.length)
  else message

def bytesToHex (bytes : List UInt8) : String := String.ofList (hexDigits bytes)

/-- The white space and line ends that `String.prototype.trim` removes. -/
def isTrimmed (c : Char) : Bool :=
  let n := c.toNat
  (9 ≤ n && n ≤ 13) || n = 32 || n = 160 || n = 5760 || (8192 ≤ n && n ≤ 8202) || n = 8232 ||
    n = 8233 || n = 8239 || n = 8287 || n = 12288 || n = 65279

def trimText (text : List Char) : List Char :=
  ((text.dropWhile isTrimmed).reverse.dropWhile isTrimmed).reverse

/-- Hex text of at least one byte, blanks around it aside. -/
def hexToBytes (hex : String) : Except String (List UInt8) :=
  let trimmed := trimText hex.toList
  if trimmed.isEmpty then .error (invalidPayload "not a hex string")
  else
    match hexPairs trimmed with
    | some bytes => .ok bytes
    | none => .error (invalidPayload "not a hex string")

theorem isTrimmed_hexDigit {n : Nat} (h : n < 16) : isTrimmed (hexDigit n) = false := by
  have hall : ∀ n : Fin 16, isTrimmed (hexDigit n.val) = false := by decide
  exact hall ⟨n,h⟩

theorem trimText_hexDigits (bytes : List UInt8) : trimText (hexDigits bytes) = hexDigits bytes := by
  have hkeep (text : List Char) (h : ∀ c ∈ text, isTrimmed c = false) :
      text.dropWhile isTrimmed = text := by
    cases text with
    | nil => rfl
    | cons c text => rw [List.dropWhile_cons_of_neg (by simp [h c List.mem_cons_self])]
  have hdigits (c : Char) (h : c ∈ hexDigits bytes) : isTrimmed c = false := by
    obtain ⟨n,hn,rfl⟩ := mem_hexDigits h
    exact isTrimmed_hexDigit hn
  unfold trimText
  rw [hkeep _ hdigits,hkeep _ (fun c hc => hdigits c (List.mem_reverse.mp hc)),
    List.reverse_reverse]

theorem hexToBytes_bytesToHex {bytes : List UInt8} (h : bytes ≠ []) :
    hexToBytes (bytesToHex bytes) = .ok bytes := by
  have hne : (hexDigits bytes).isEmpty = false := by
    rw [List.isEmpty_eq_false_iff,← List.length_pos_iff,hexDigits_length]
    have := List.length_pos_iff.mpr h
    omega
  unfold hexToBytes bytesToHex
  simp only [String.toList_ofList,trimText_hexDigits,hne,hexPairs_hexDigits]
  rfl

namespace ByteReader

def readPastEnd (offset : Nat) : String :=
  invalidPayload ("read past end at offset " ++ toString offset)

def peek (length : Nat) : ByteReader (List UInt8) := Reader.peek readPastEnd length

def skip (length : Nat) : ByteReader Unit := Reader.skip readPastEnd length

def read (length : Nat) : ByteReader (List UInt8) := do
  let value ← peek length
  -- `peek` has found the bytes, so this moves on without a second failure
  skip length
  return value

def byteAt (bytes : List UInt8) (index : Nat) : Nat := ((bytes[index]?).getD 0).toNat

def readUint32LE : ByteReader Nat := do
  let bytes ← read 4
  return byteAt bytes 0 ||| byteAt bytes 1 <<< 8 ||| byteAt bytes 2 <<< 16 |||
    byteAt bytes 3 <<< 24

/-- `value | 0` of an unsigned 32-bit value. -/
def toInt32 (value : Nat) : Int := if value < 2 ^ 31 then value else (value : Int) - 2 ^ 32

def readInt32LE : ByteReader Int := do
  let value ← readUint32LE
  return toInt32 value

def readInt64LE : ByteReader Int := do
  let low ← readUint32LE
  let high ← readUint32LE
  return toInt32 high * 2 ^ 32 + low

def readCompactSize : ByteReader Nat := do
  let first ← read 1
  if byteAt first 0 < 0xfd then return byteAt first 0
  else if byteAt first 0 = 0xfd then
    let bytes ← read 2
    return byteAt bytes 0 ||| byteAt bytes 1 <<< 8
  else if byteAt first 0 = 0xfe then readUint32LE
  else throw (invalidPayload "compact size exceeds 32 bits")

/-- A 32-byte hash in display order. -/
def readHash : ByteReader String := do
  let bytes ← read 32
  return bytesToHex bytes.reverse

def assertConsumed : ByteReader Unit := do
  let offset ← Reader.offset
  let length ← Reader.length
  if offset = length then return ()
  else throw (invalidPayload ("trailing " ++ toString (length - offset) ++ " bytes"))

end ByteReader

theorem assertConsumed_run (c : Cursor UInt8) : ByteReader.assertConsumed c =
    if c.offset = c.items.length then (.ok (),c)
    else (.error (invalidPayload
      ("trailing " ++ toString (c.items.length - c.offset) ++ " bytes")),c) := by
  refine (bind_ok (m := Reader.offset) rfl).trans ((bind_ok (m := Reader.length) rfl).trans ?_)
  split <;> rfl

end OnlyDoge
