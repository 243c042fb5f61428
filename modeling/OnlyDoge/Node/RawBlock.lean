import OnlyDoge.Node.ByteReader
set_option autoImplicit false

/-! The decoder of `getblock(hash, false)` hex (`dogecoin-raw-block.ts`). -/

namespace OnlyDoge
open Reader HexText

inductive DogecoinScriptType where
  | multisig
  | nonstandard
  | nulldata
  | pubkey
  | pubkeyhash
  | scripthash
  deriving DecidableEq,Repr

structure DecodedDogecoinScriptPubKey where
  addresses : Option (List String)
  hex : String
  reqSigs : Option Nat
  type : DogecoinScriptType
  deriving DecidableEq,Repr

/-- A coinbase input has `coinbase` and `sequence` only, any other input the rest. -/
structure DecodedDogecoinVin where
  coinbase : Option String
  scriptSig : Option String
  sequence : Nat
  txid : Option String
  vout : Option Nat
  deriving DecidableEq,Repr

structure DecodedDogecoinVout where
  n : Nat
  scriptPubKey : DecodedDogecoinScriptPubKey
  value : String
  deriving DecidableEq,Repr

structure DecodedDogecoinTransaction where
  hash : String
  locktime : Nat
  size : Nat
  txid : String
  version : Int
  vin : List DecodedDogecoinVin
  vout : List DecodedDogecoinVout
  deriving DecidableEq,Repr

structure DecodedAuxPow where
  parentBlockHash : String
  deriving DecidableEq,Repr

structure DecodedDogecoinBlock where
  auxpow : Option DecodedAuxPow
  bits : String
  hash : String
  height : Nat
  merkleroot : String
  nTx : Nat
  nonce : Nat
  previousblockhash : Option String
  size : Nat
  time : Nat
  tx : List DecodedDogecoinTransaction
  version : Int
  deriving DecidableEq,Repr

structure DogecoinAddressPrefixes where
  pubkeyHash : UInt8
  scriptHash : UInt8

def dogecoinMainnetAddressPrefixes : DogecoinAddressPrefixes := ⟨0x1e,0x16⟩

/-- The digests of `node:crypto`. -/
structure Digests where
  sha256 : List UInt8 → List UInt8
  ripemd160 : List UInt8 → List UInt8

namespace Digests

def sha256dBytes (digests : Digests) (bytes : List UInt8) : List UInt8 :=
  digests.sha256 (digests.sha256 bytes)

/-- Double SHA-256 in display order. -/
def sha256d (digests : Digests) (bytes : List UInt8) : String :=
  bytesToHex (digests.sha256dBytes bytes).reverse

def hash160 (digests : Digests) (bytes : List UInt8) : List UInt8 :=
  digests.ripemd160 (digests.sha256 bytes)

end Digests

def genesisPreviousHash : String := String.ofList (List.replicate 64 '0')

def blockHeaderBytes : Nat := 80

/-- An amount of koinu as DOGE with eight fraction digits. -/
def formatKoinu (value : Int) : String :=
  let magnitude := value.natAbs
  let whole := magnitude / 100000000
  let fraction := padStart 8 (Nat.toDigits 10 (magnitude % 100000000))
  (if value < 0 then "-" else "") ++ toString whole ++ "." ++ fraction

def base58Alphabet : List Char :=
  "123456789ABCDEFGHJKLMNPQRSTUVWXYZabcdefghijkmnopqrstuvwxyz".toList

/-- The digits of `value`, the least one last, before those already written. -/
def base58Digits (value : Nat) (encoded : List Char) : List Char :=
  if h : value = 0 then encoded
  else base58Digits (value / 58) (((base58Alphabet[value % 58]?).getD '1')::encoded)
  termination_by value
  decreasing_by exact Nat.div_lt_self (Nat.pos_of_ne_zero h) (by decide)

def encodeBase58 (bytes : List UInt8) : String :=
  let leadingZeros := (bytes.takeWhile (· = 0)).length
  let value := bytes.foldl (fun value byte => value * 256 + byte.toNat) 0
  String.ofList (List.replicate leadingZeros '1' ++ base58Digits value [])

def encodeBase58Check (digests : Digests) (version : UInt8) (payload : List UInt8) : String :=
  let body := version::payload
  encodeBase58 (body ++ (digests.sha256dBytes body).take 4)

def maxScriptPubkeyBytes : Nat := 10000

/-- `script.subarray(start, stop)`. -/
def subarray (script : List UInt8) (start stop : Nat) : List UInt8 :=
  (script.drop start).take (stop - start)

def pushLengthFromBytes (script : List UInt8) (offset width : Nat) : Option (Nat × Nat) :=
  if offset + width > script.length then none
  else
    -- little endian, so the last byte counts most
    let length := (subarray script offset (offset + width)).foldr
      (fun byte length => length * 256 + byte.toNat) 0
    if length > maxScriptPubkeyBytes then none else some (offset + width,length)

/-- Where the data of a push starts, and its length. -/
def pushLength (script : List UInt8) (offset : Nat) (opcode : UInt8) : Option (Nat × Nat) :=
  if opcode < 0x4c then some (offset + 1,opcode.toNat)
  else if opcode = 0x4c then pushLengthFromBytes script (offset + 1) 1
  else if opcode = 0x4d then pushLengthFromBytes script (offset + 1) 2
  else if opcode = 0x4e then pushLengthFromBytes script (offset + 1) 4
  else none

structure Push where
  data : List UInt8
  nextOffset : Nat
  deriving DecidableEq,Repr

def readPush (script : List UInt8) (offset : Nat) : Option Push :=
  match script[offset]? with
  | none => none
  | some opcode =>
    if opcode > 0x60 then none
    else if opcode ≥ 0x51 ∨ opcode = 0x00 then some ⟨[],offset + 1⟩
    else
      match pushLength script offset opcode with
      | none => none
      | some (dataOffset,length) =>
        if dataOffset + length > script.length then none
        else some ⟨subarray script dataOffset (dataOffset + length),dataOffset + length⟩

theorem pushLength_offset {script : List UInt8} {offset : Nat} {opcode : UInt8} {r : Nat × Nat}
    (h : pushLength script offset opcode = some r) : offset < r.1 := by
  have hbytes {width : Nat}
      (h : pushLengthFromBytes script (offset + 1) width = some r) : offset < r.1 := by
    unfold pushLengthFromBytes at h
    split at h
    · cases h
    · simp only at h
      split at h
      · cases h
      · cases h
        simp only
        omega
  unfold pushLength at h
  split at h
  · cases h
    simp only
    omega
  · repeat' split at h
    all_goals first | exact hbytes h | cases h

theorem readPush_nextOffset {script : List UInt8} {offset : Nat} {push : Push}
    (h : readPush script offset = some push) : offset < push.nextOffset := by
  unfold readPush at h
  cases hop : script[offset]? with
  | none => simp [hop] at h
  | some opcode =>
    simp only [hop] at h
    split at h
    · cases h
    split at h
    · cases h
      simp only
      omega
    cases hl : pushLength script offset opcode with
    | none => simp [hl] at h
    | some r =>
      have hr := pushLength_offset hl
      simp only [hl] at h
      split at h
      · cases h
      · cases h
        simp only
        omega

/-- The bytes in which a push gives its length. -/
def pushLengthWidth (opcode : UInt8) : Nat :=
  if opcode = 0x4c then 1 else if opcode = 0x4d then 2 else if opcode = 0x4e then 4 else 0

/-- The loop iterations of one push: its own, and one for each byte of its length. -/
def pushIterations (script : List UInt8) (offset : Nat) : Nat :=
  match script[offset]? with
  | none => 1
  | some opcode =>
    if offset + 1 + pushLengthWidth opcode > script.length then 1 else 1 + pushLengthWidth opcode

/-- The pushes from a position of the script on, and the loop iterations that read them. -/
def readPushesFrom (script : List UInt8) (offset : Nat) : Option (List (List UInt8)) × Nat :=
  if _ : offset < script.length then
    match _h : readPush script offset with
    | none => (none,pushIterations script offset)
    | some push =>
      let rest := readPushesFrom script push.nextOffset
      (rest.1.map (push.data::·),pushIterations script offset + rest.2)
  else (some [],0)
  termination_by script.length - offset
  decreasing_by
    have := readPush_nextOffset ‹_›
    omega

def readPushes (script : List UInt8) : Option (List (List UInt8)) := (readPushesFrom script 0).1

def isPushOnly (script : List UInt8) : Bool := (readPushes script).isSome

def isPlausiblePubkey (pubkey : List UInt8) : Bool :=
  let first := pubkey.head?
  if pubkey.length = 33 then first = some 0x02 || first = some 0x03
  else if pubkey.length = 65 then first = some 0x04 || first = some 0x06 || first = some 0x07
  else false

def smallIntegerOpcode : Option UInt8 → Option Nat
  | none => none
  | some opcode =>
    if opcode = 0x00 then some 0
    else if opcode ≥ 0x51 ∧ opcode ≤ 0x60 then some (opcode.toNat - 0x51 + 1)
    else none

structure ScriptMatch where
  addresses : Option (List String)
  reqSigs : Option Nat
  type : DogecoinScriptType
  deriving DecidableEq,Repr

section Match
variable (digests : Digests) (prefixes : DogecoinAddressPrefixes) (script : List UInt8)

def matchPubkeyHash : Option ScriptMatch :=
  if script.length = 25 ∧ script[0]? = some 0x76 ∧ script[1]? = some 0xa9 ∧
      script[2]? = some 20 ∧ script[23]? = some 0x88 ∧ script[24]? = some 0xac then
    some ⟨some [encodeBase58Check digests prefixes.pubkeyHash (subarray script 3 23)],some 1,
      .pubkeyhash⟩
  else none

def matchScriptHash : Option ScriptMatch :=
  if script.length = 23 ∧ script[0]? = some 0xa9 ∧ script[1]? = some 20 ∧
      script[22]? = some 0x87 then
    some ⟨some [encodeBase58Check digests prefixes.scriptHash (subarray script 2 22)],some 1,
      .scripthash⟩
  else none

def matchPubkey : Option ScriptMatch :=
  match script[0]? with
  | none => none
  | some pushLength =>
    if script.length ≠ pushLength.toNat + 2 then none
    else if script[script.length - 1]? ≠ some 0xac then none
    else
      let pubkey := subarray script 1 (1 + pushLength.toNat)
      if isPlausiblePubkey pubkey then
        some ⟨some [encodeBase58Check digests prefixes.pubkeyHash (digests.hash160 pubkey)],some 1,
          .pubkey⟩
      else none

def matchNullData : Option ScriptMatch :=
  if script[0]? ≠ some 0x6a then none
  else if isPushOnly (script.drop 1) then some ⟨none,none,.nulldata⟩
  else none

/-- The numbers of a script that starts and ends as a multisig script does. -/
def multisigCounts : Option (Nat × Nat) :=
  if script.length < 3 ∨ script[script.length - 1]? ≠ some 0xae then none
  else
    match smallIntegerOpcode script[0]?, smallIntegerOpcode script[script.length - 2]? with
    | some required,some total =>
      if required < 1 ∨ required > total then none else some (required,total)
    | _,_ => none

def parseMultisig : Option (List (List UInt8) × Nat) :=
  match multisigCounts script with
  | none => none
  | some (required,total) =>
    match readPushes (subarray script 1 (script.length - 2)) with
    | none => none
    | some pubkeys =>
      if pubkeys.length ≠ total ∨ ¬pubkeys.all isPlausiblePubkey then none
      else some (pubkeys,required)

def matchMultisig : Option ScriptMatch :=
  match parseMultisig script with
  | none => none
  | some (pubkeys,required) =>
    some ⟨some (pubkeys.map fun pubkey =>
      encodeBase58Check digests prefixes.pubkeyHash (digests.hash160 pubkey)),some required,
      .multisig⟩

def classifyScriptPubKey : DecodedDogecoinScriptPubKey :=
  let hex := bytesToHex script
  let matched := (matchPubkeyHash digests prefixes script).or
    ((matchScriptHash digests prefixes script).or ((matchPubkey digests prefixes script).or
      ((matchNullData script).or (matchMultisig digests prefixes script))))
  match matched with
  | none => ⟨none,hex,none,.nonstandard⟩
  | some found => ⟨found.addresses,hex,found.reqSigs,found.type⟩

/-- The iterations of `readPushes` while the script is classified. -/
def classifyIterations : Nat :=
  (if script[0]? ≠ some 0x6a then 0 else (readPushesFrom (script.drop 1) 0).2) +
    match multisigCounts script with
    | none => 0
    | some _ => (readPushesFrom (subarray script 1 (script.length - 2)) 0).2

end Match

structure BlockHeaderFields where
  auxpow : Option DecodedAuxPow
  bits : String
  hash : String
  merkleroot : String
  nonce : Nat
  previousblockhash : Option String
  time : Nat
  version : Int
  deriving DecidableEq,Repr

section Decode
variable (digests : Digests) (prefixes : DogecoinAddressPrefixes)

def readBlockHeader : ByteReader BlockHeaderFields := do
  let headerBytes ← ByteReader.peek blockHeaderBytes
  let version ← ByteReader.readInt32LE
  let previousHash ← ByteReader.readHash
  let merkleroot ← ByteReader.readHash
  let time ← ByteReader.readUint32LE
  let bits ← ByteReader.readUint32LE
  let nonce ← ByteReader.readUint32LE
  return {
    auxpow := none
    bits := padStart 8 (Nat.toDigits 16 bits)
    hash := digests.sha256d headerBytes
    merkleroot := merkleroot
    nonce := nonce
    previousblockhash := if previousHash ≠ genesisPreviousHash then some previousHash else none
    time := time
    version := version }

/-- `(version & VERSION_AUXPOW_BIT) !== 0`, bit 8 of the two's complement. -/
def isAuxPowVersion (version : Int) : Bool := version / 2 ^ 8 % 2 = 1

def skipHashVector : ByteReader Unit := do
  let count ← ByteReader.readCompactSize
  ByteReader.skip (count * 32)

/-- `reader.skip(reader.readCompactSize())`. -/
def skipSized : ByteReader Unit := do
  let size ← ByteReader.readCompactSize
  ByteReader.skip size

def skipInput : ByteReader Unit := do
  ByteReader.skip 36
  skipSized
  ByteReader.skip 4

def skipOutput : ByteReader Unit := do
  ByteReader.skip 8
  skipSized

def skipWitness : ByteReader Unit := do
  let items ← ByteReader.readCompactSize
  let _ ← times items fun _ => skipSized

def skipWitnesses (inputs : Nat) : ByteReader Unit := do
  let _ ← times inputs fun _ => skipWitness

/-- The count after the witness marker and flag, when they are there. -/
def readInputCount : ByteReader (Nat × Bool) := do
  let inputs ← ByteReader.readCompactSize
  if inputs = 0 then
    let flag ← ByteReader.peek 1
    if ByteReader.byteAt flag 0 = 0x01 then
      ByteReader.skip 1
      let inputs ← ByteReader.readCompactSize
      return (inputs,true)
    else return (inputs,false)
  else return (inputs,false)

def skipTransaction : ByteReader Unit := do
  ByteReader.skip 4
  let (inputs,hasWitness) ← readInputCount
  let _ ← times inputs fun _ => skipInput
  let outputs ← ByteReader.readCompactSize
  let _ ← times outputs fun _ => skipOutput
  Reader.when hasWitness (skipWitnesses inputs)
  ByteReader.skip 4

def readAuxPow : ByteReader DecodedAuxPow := do
  skipTransaction
  ByteReader.skip 32
  skipHashVector
  ByteReader.skip 4
  skipHashVector
  ByteReader.skip 4
  let parentHeader ← ByteReader.read blockHeaderBytes
  return ⟨digests.sha256d parentHeader⟩

def isCoinbaseOutpoint (txid : String) (vout : Nat) : Bool :=
  txid = genesisPreviousHash && vout = 0xffffffff

def readInput : ByteReader DecodedDogecoinVin := do
  let txid ← ByteReader.readHash
  let vout ← ByteReader.readUint32LE
  let size ← ByteReader.readCompactSize
  let script ← ByteReader.read size
  let sequence ← ByteReader.readUint32LE
  if isCoinbaseOutpoint txid vout then
    return ⟨some (bytesToHex script),none,sequence,none,none⟩
  else return ⟨none,some (bytesToHex script),sequence,some txid,some vout⟩

def readInputs : ByteReader (List DecodedDogecoinVin) := do
  let count ← ByteReader.readCompactSize
  times count fun _ => readInput

def readOutput (index : Nat) : ByteReader DecodedDogecoinVout := do
  let value ← ByteReader.readInt64LE
  let size ← ByteReader.readCompactSize
  let script ← ByteReader.read size
  iterate (classifyIterations script)
  return ⟨index,classifyScriptPubKey digests prefixes script,formatKoinu value⟩

def readOutputs : ByteReader (List DecodedDogecoinVout) := do
  let count ← ByteReader.readCompactSize
  times count (readOutput digests prefixes)

def readTransaction : ByteReader DecodedDogecoinTransaction := do
  let start ← Reader.offset
  let version ← ByteReader.readInt32LE
  let vin ← readInputs
  let vout ← readOutputs digests prefixes
  let locktime ← ByteReader.readUint32LE
  let stop ← Reader.offset
  let raw ← Reader.slice start stop
  let txid := digests.sha256d raw
  return ⟨txid,locktime,raw.length,txid,version,vin,vout⟩

/-- A transaction of the block; an error gets the place of the transaction. -/
def readBlockTransaction (height index : Nat) : ByteReader DecodedDogecoinTransaction := do
  let offset ← Reader.offset
  Reader.mapError (fun message => invalidPayload ("height=" ++ toString height ++ " tx_index=" ++
      toString index ++ " tx_offset=" ++ toString offset ++ ": " ++ errorMessage message))
    (readTransaction digests prefixes)

def finalizeBlock (header : BlockHeaderFields) (tx : List DecodedDogecoinTransaction)
    (height size : Nat) : DecodedDogecoinBlock where
  auxpow := header.auxpow
  bits := header.bits
  hash := header.hash
  height := height
  merkleroot := header.merkleroot
  nTx := tx.length
  nonce := header.nonce
  previousblockhash := header.previousblockhash
  size := size
  time := header.time
  tx := tx
  version := header.version

def readBlockAuxPow (header : BlockHeaderFields) : ByteReader BlockHeaderFields :=
  if isAuxPowVersion header.version then do
    let auxpow ← spanned (readAuxPow digests)
    return { header with auxpow := some auxpow }
  else return header

/-- The spans of a block: the header, the AuxPoW section of a merge-mined block, the transaction
count, and each transaction. -/
def readBlock (height : Nat) :
    ByteReader (BlockHeaderFields × List DecodedDogecoinTransaction) := do
  let header ← spanned (readBlockHeader digests)
  let header ← readBlockAuxPow digests header
  let txCount ← spanned ByteReader.readCompactSize
  let tx ← times txCount fun index => spanned (readBlockTransaction digests prefixes height index)
  ByteReader.assertConsumed
  return (header,tx)

/-- The end of decoding the bytes, with the reader as it was left. -/
def decodeBytes (bytes : List UInt8) (height : Nat) :
    Except String DecodedDogecoinBlock × Cursor UInt8 :=
  match readBlock digests prefixes height (Reader.start bytes) with
  | (.ok (header,tx),reader) => (.ok (finalizeBlock header tx height bytes.length),reader)
  | (.error message,reader) => (.error message,reader)

def decodeDogecoinRawBlock (hex : String) (height : Nat) : Except String DecodedDogecoinBlock :=
  match hexToBytes hex with
  | .error message => .error message
  | .ok bytes => (decodeBytes digests prefixes bytes height).1

end Decode

end OnlyDoge
