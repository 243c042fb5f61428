import OnlyDoge.Node.RawBlock
import OnlyDoge.Library.Radix
set_option autoImplicit false

/-! Base58Check addresses decode to what they were made of (`dogecoin-raw-block.ts`). -/

namespace OnlyDoge
open Radix

/-- The digit of a base-58 character; `none` for a character outside the alphabet. -/
def base58Digit (c : Char) : Option Nat :=
  if c ∈ base58Alphabet then some (base58Alphabet.idxOf c) else none

/-- The standard rule: the leading `1`s are zero bytes, the text is a base-58 number. -/
def decodeBase58 (text : List Char) : Option (List UInt8) := do
  let digits ← text.mapM base58Digit
  let bytes := (numeral 256 (number 58 digits)).map UInt8.ofNat
  return List.replicate (text.takeWhile (· = '1')).length 0 ++ bytes

/-- The character of a base-58 digit, as `base58Digits` takes it. -/
def base58Character (digit : Nat) : Char := (base58Alphabet[digit]?).getD '1'

theorem base58Digit_character : ∀ digit < 58, base58Digit (base58Character digit) = some digit := by
  decide

theorem base58Character_eq_one : ∀ digit < 58, (base58Character digit = '1' ↔ digit = 0) := by
  decide

theorem base58Digits_eq (value : Nat) (encoded : List Char) :
    base58Digits value encoded = (numeral 58 value).map base58Character ++ encoded := by
  induction value using Nat.strongRecOn generalizing encoded with
  | ind value ih =>
    unfold base58Digits
    by_cases hzero : value = 0
    · simp [hzero,numeral]
    · have hpos : 0 < value := Nat.pos_of_ne_zero hzero
      rw [dif_neg hzero,ih (value / 58) (Nat.div_lt_self hpos (by decide))]
      rw [numeral,numeral,Nat.digits_def' (by decide) hpos,List.reverse_cons,List.map_append]
      simp [base58Character]

theorem mapM_base58Digit {digits : List Nat} (h : ∀ digit ∈ digits, digit < 58) :
    (digits.map base58Character).mapM base58Digit = some digits := by
  induction digits with
  | nil => rfl
  | cons digit digits ih =>
    have hrest := ih fun d hd => h d (List.mem_cons_of_mem digit hd)
    rw [List.map_cons,List.mapM_cons,base58Digit_character digit (h digit List.mem_cons_self),hrest]
    rfl

/-- The leading `1`s are exactly those of the leading zero bytes. -/
theorem takeWhile_ones (k value : Nat) :
    (((List.replicate k 0 ++ numeral 58 value).map base58Character).takeWhile
      (· = '1')).length = k := by
  have hone : base58Character 0 = '1' := by decide
  rw [List.map_append,List.map_replicate,hone,List.takeWhile_append]
  simp only [List.takeWhile_replicate,decide_true,if_true,List.length_replicate,List.length_append]
  have hstop : ((numeral 58 value).map base58Character).takeWhile (· = '1') = [] := by
    cases hdigits : numeral 58 value with
    | nil => rfl
    | cons digit digits =>
      have hne : digit ≠ 0 := head_numeral value digit (by rw [hdigits]; rfl)
      have hlt : digit < 58 := numeral_lt (by decide) (by rw [hdigits]; exact List.mem_cons_self)
      have hchar : base58Character digit ≠ '1' :=
        fun h => hne ((base58Character_eq_one digit hlt).mp h)
      rw [List.map_cons,List.takeWhile_cons_of_neg (by simpa using hchar)]
  rw [hstop]
  simp

theorem foldl_bytes (bytes : List UInt8) :
    bytes.foldl (fun value byte => value * 256 + byte.toNat) 0 =
      number 256 (bytes.map UInt8.toNat) := by
  rw [number,List.foldl_map]

theorem dropWhile_bytes (bytes : List UInt8) :
    ((bytes.map UInt8.toNat).dropWhile (· = 0)).map UInt8.ofNat = bytes.dropWhile (· = 0) := by
  induction bytes with
  | nil => rfl
  | cons byte bytes ih =>
    by_cases hzero : byte = 0
    · subst hzero
      simpa using ih
    · have hnat : byte.toNat ≠ 0 := fun h => hzero (UInt8.toNat_inj.mp h)
      rw [List.map_cons,List.dropWhile_cons_of_neg (by simpa using hnat),
        List.dropWhile_cons_of_neg (by simpa using hzero)]
      have hback : UInt8.ofNat ∘ UInt8.toNat = id := by
        funext other
        simp
      simp [hback]

theorem replicate_takeWhile_zero (bytes : List UInt8) :
    List.replicate (bytes.takeWhile (· = 0)).length 0 ++ bytes.dropWhile (· = 0) = bytes := by
  have hzeros : List.replicate (bytes.takeWhile (· = 0)).length 0 = bytes.takeWhile (· = 0) := by
    symm
    rw [List.eq_replicate_iff]
    exact ⟨rfl,fun byte hbyte => by simpa using List.mem_takeWhile_imp hbyte⟩
  rw [hzeros,List.takeWhile_append_dropWhile]

theorem decodeBase58_encodeBase58 (bytes : List UInt8) :
    decodeBase58 (encodeBase58 bytes).toList = some bytes := by
  have hone : base58Character 0 = '1' := by decide
  have htext : (encodeBase58 bytes).toList =
      (List.replicate (bytes.takeWhile (· = 0)).length 0 ++
        numeral 58 (number 256 (bytes.map UInt8.toNat))).map base58Character := by
    rw [encodeBase58,String.toList_ofList,foldl_bytes,base58Digits_eq,List.append_nil,
      List.map_append,List.map_replicate,hone]
  have hlt : ∀ digit ∈ List.replicate (bytes.takeWhile (· = 0)).length 0 ++
      numeral 58 (number 256 (bytes.map UInt8.toNat)), digit < 58 := by
    intro digit hdigit
    rcases List.mem_append.mp hdigit with hzero | hin
    · rw [List.eq_of_mem_replicate hzero]
      decide
    · exact numeral_lt (by decide) hin
  have hbytes : ∀ d ∈ bytes.map UInt8.toNat, d < 256 := by
    intro d hd
    obtain ⟨byte,-,rfl⟩ := List.mem_map.mp hd
    exact byte.toNat_lt
  rw [decodeBase58,htext,mapM_base58Digit hlt,takeWhile_ones]
  simp only [bind,Option.bind,pure]
  rw [number_replicate_zero,number_numeral,numeral_number (by decide) hbytes,dropWhile_bytes,
    replicate_takeWhile_zero]

/-- An address decodes to its version, its payload and its checksum, so that two of payloads of one
length are equal only where version and payload are. -/
theorem encodeBase58Check_lossless (digests : Digests) (version : UInt8) (payload : List UInt8) :
    decodeBase58 (encodeBase58Check digests version payload).toList =
        some (version::payload ++ (digests.sha256dBytes (version::payload)).take 4) ∧
      ∀ (version' : UInt8) (payload' : List UInt8), payload.length = payload'.length →
        encodeBase58Check digests version payload = encodeBase58Check digests version' payload' →
          version = version' ∧ payload = payload' := by
  have hdecode (v : UInt8) (p : List UInt8) :
      decodeBase58 (encodeBase58Check digests v p).toList =
        some (v::p ++ (digests.sha256dBytes (v::p)).take 4) :=
    decodeBase58_encodeBase58 _
  refine ⟨hdecode version payload,?_⟩
  intro version' payload' hlength hsame
  have hbytes := hdecode version payload
  rw [hsame,hdecode version' payload'] at hbytes
  have hbody := (List.append_inj (Option.some.inj hbytes) (by simp [hlength])).1
  cases hbody
  exact ⟨rfl,rfl⟩

end OnlyDoge
