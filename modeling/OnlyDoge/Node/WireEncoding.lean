import OnlyDoge.Node.RawBlock
import Mathlib.Data.Nat.Bitwise
set_option autoImplicit false

/-!
Blocks as they go over the wire, after the encoder of the test fixtures, and what the decoder
makes of them.
-/

namespace OnlyDoge
open Reader HexText

def uint32LE (n : Nat) : List UInt8 :=
  [UInt8.ofNat n,UInt8.ofNat (n / 2 ^ 8),UInt8.ofNat (n / 2 ^ 16),UInt8.ofNat (n / 2 ^ 24)]

def int32LE (n : Int) : List UInt8 := uint32LE (n % 2 ^ 32).toNat

def int64LE (n : Int) : List UInt8 :=
  uint32LE ((n % 2 ^ 64).toNat % 2 ^ 32) ++ uint32LE ((n % 2 ^ 64).toNat / 2 ^ 32)

/-- The shortest form of a size below `2 ^ 32`. -/
def compactSize (n : Nat) : List UInt8 :=
  if n < 0xfd then [UInt8.ofNat n]
  else if n < 2 ^ 16 then [0xfd,UInt8.ofNat n,UInt8.ofNat (n / 2 ^ 8)]
  else 0xfe::uint32LE n

/-- Bytes after their length. -/
def sized (bytes : List UInt8) : List UInt8 := compactSize bytes.length ++ bytes

/-- A list after its length. -/
def counted {τ : Type} (encode : τ → List UInt8) (ts : List τ) : List UInt8 :=
  compactSize ts.length ++ ts.flatMap encode

structure Hash32 where
  bytes : List UInt8
  length : bytes.length = 32

def Hash32.display (hash : Hash32) : String := bytesToHex hash.bytes.reverse

structure WireInput where
  previous : Hash32
  vout : Nat
  script : List UInt8
  sequence : Nat
  vout_lt : vout < 2 ^ 32
  script_lt : script.length < 2 ^ 32
  sequence_lt : sequence < 2 ^ 32

structure WireOutput where
  value : Int
  script : List UInt8
  value_ge : -2 ^ 63 ≤ value
  value_lt : value < 2 ^ 63
  script_lt : script.length < 2 ^ 32

structure WireTransaction where
  version : Int
  inputs : List WireInput
  outputs : List WireOutput
  locktime : Nat
  version_ge : -2 ^ 31 ≤ version
  version_lt : version < 2 ^ 31
  inputs_lt : inputs.length < 2 ^ 32
  outputs_lt : outputs.length < 2 ^ 32
  locktime_lt : locktime < 2 ^ 32

structure WireHeader where
  version : Int
  previous : Hash32
  merkleRoot : Hash32
  time : Nat
  bits : Nat
  nonce : Nat
  version_ge : -2 ^ 31 ≤ version
  version_lt : version < 2 ^ 31
  time_lt : time < 2 ^ 32
  bits_lt : bits < 2 ^ 32
  nonce_lt : nonce < 2 ^ 32

/-- The stack of witness items of one input. -/
structure WireWitness where
  items : List (List UInt8)
  items_lt : items.length < 2 ^ 32
  item_lt : ∀ item ∈ items, item.length < 2 ^ 32

/-- The coinbase of a parent chain, with one witness for each input in the extended format. -/
structure ParentCoinbase where
  transaction : WireTransaction
  witnesses : Option (List WireWitness)
  inputs_ne : transaction.inputs ≠ []
  witnesses_length : ∀ w ∈ witnesses, w.length = transaction.inputs.length

structure WireBranch where
  hashes : List Hash32
  index : Nat
  hashes_lt : hashes.length < 2 ^ 32
  index_lt : index < 2 ^ 32

structure WireAuxPow where
  coinbase : ParentCoinbase
  blockHash : Hash32
  coinbaseBranch : WireBranch
  chainBranch : WireBranch
  parent : WireHeader

/-- A block has an AuxPoW section when the version says so. -/
structure WireBlock where
  header : WireHeader
  auxpow : Option WireAuxPow
  transactions : List WireTransaction
  auxpow_iff : auxpow.isSome = isAuxPowVersion header.version
  transactions_lt : transactions.length < 2 ^ 32

namespace WireInput

def encode (input : WireInput) : List UInt8 :=
  input.previous.bytes ++ (uint32LE input.vout ++ (sized input.script ++ uint32LE input.sequence))

/-- The null outpoint makes a coinbase input. -/
def decoded (input : WireInput) : DecodedDogecoinVin :=
  if isCoinbaseOutpoint input.previous.display input.vout then
    ⟨some (bytesToHex input.script),none,input.sequence,none,none⟩
  else ⟨none,some (bytesToHex input.script),input.sequence,some input.previous.display,
    some input.vout⟩

end WireInput

namespace WireOutput

def encode (output : WireOutput) : List UInt8 := int64LE output.value ++ sized output.script

def decoded (digests : Digests) (prefixes : DogecoinAddressPrefixes) (index : Nat)
    (output : WireOutput) : DecodedDogecoinVout :=
  ⟨index,classifyScriptPubKey digests prefixes output.script,formatKoinu output.value⟩

end WireOutput

namespace WireTransaction

def encode (tx : WireTransaction) : List UInt8 :=
  int32LE tx.version ++ (counted WireInput.encode tx.inputs ++
    (counted WireOutput.encode tx.outputs ++ uint32LE tx.locktime))

def decoded (digests : Digests) (prefixes : DogecoinAddressPrefixes) (tx : WireTransaction) :
    DecodedDogecoinTransaction where
  hash := digests.sha256d tx.encode
  locktime := tx.locktime
  size := tx.encode.length
  txid := digests.sha256d tx.encode
  version := tx.version
  vin := tx.inputs.map WireInput.decoded
  vout := tx.outputs.mapIdx (WireOutput.decoded digests prefixes)

end WireTransaction

def WireHeader.encode (header : WireHeader) : List UInt8 :=
  int32LE header.version ++ (header.previous.bytes ++ (header.merkleRoot.bytes ++
    (uint32LE header.time ++ (uint32LE header.bits ++ uint32LE header.nonce))))

def WireWitness.encode (witness : WireWitness) : List UInt8 :=
  counted sized witness.items

/-- The marker and flag of the extended format stand before the input count. -/
def ParentCoinbase.encode (coinbase : ParentCoinbase) : List UInt8 :=
  let tx := coinbase.transaction
  int32LE tx.version ++
    (((if coinbase.witnesses.isSome then [0x00,0x01] else []) ++ compactSize tx.inputs.length) ++
      (tx.inputs.flatMap WireInput.encode ++ (counted WireOutput.encode tx.outputs ++
        ((coinbase.witnesses.getD []).flatMap WireWitness.encode ++ uint32LE tx.locktime))))

def WireBranch.encode (branch : WireBranch) : List UInt8 :=
  counted Hash32.bytes branch.hashes ++ uint32LE branch.index

namespace WireAuxPow

def encode (auxpow : WireAuxPow) : List UInt8 :=
  auxpow.coinbase.encode ++ (auxpow.blockHash.bytes ++ (auxpow.coinbaseBranch.encode ++
    (auxpow.chainBranch.encode ++ auxpow.parent.encode)))

def decoded (digests : Digests) (auxpow : WireAuxPow) : DecodedAuxPow :=
  ⟨digests.sha256d auxpow.parent.encode⟩

end WireAuxPow

namespace WireBlock

def encode (block : WireBlock) : List UInt8 :=
  block.header.encode ++ ((block.auxpow.map WireAuxPow.encode).getD [] ++
    counted WireTransaction.encode block.transactions)

def decoded (digests : Digests) (prefixes : DogecoinAddressPrefixes) (height : Nat)
    (block : WireBlock) : DecodedDogecoinBlock where
  auxpow := block.auxpow.map (WireAuxPow.decoded digests)
  bits := padStart 8 (Nat.toDigits 16 block.header.bits)
  hash := digests.sha256d block.header.encode
  height := height
  merkleroot := block.header.merkleRoot.display
  nTx := block.transactions.length
  nonce := block.header.nonce
  previousblockhash := if block.header.previous.display ≠ genesisPreviousHash then
    some block.header.previous.display else none
  size := block.encode.length
  time := block.header.time
  tx := block.transactions.map (WireTransaction.decoded digests prefixes)
  version := block.header.version

end WireBlock

theorem uint32LE_length (n : Nat) : (uint32LE n).length = 4 := rfl

theorem int32LE_length (n : Int) : (int32LE n).length = 4 := rfl

theorem or_shiftLeft {x i : Nat} (h : x < 2 ^ i) (y : Nat) : x ||| y <<< i = x + y * 2 ^ i := by
  rw [Nat.lor_comm,← Nat.shiftLeft_add_eq_or_of_lt h,Nat.shiftLeft_eq,Nat.add_comm]

theorem bytes_or {a b c d : Nat} (ha : a < 2 ^ 8) (hb : b < 2 ^ 8) (hc : c < 2 ^ 8) :
    a ||| b <<< 8 ||| c <<< 16 ||| d <<< 24 = a + b * 2 ^ 8 + c * 2 ^ 16 + d * 2 ^ 24 := by
  have hab : a + b * 2 ^ 8 < 2 ^ 16 := by omega
  have habc : a + b * 2 ^ 8 + c * 2 ^ 16 < 2 ^ 24 := by omega
  rw [or_shiftLeft ha,or_shiftLeft hab,or_shiftLeft habc]

theorem toInt32_mod {n : Int} (h : -2 ^ 31 ≤ n) (h' : n < 2 ^ 31) :
    ByteReader.toInt32 (n % 2 ^ 32).toNat = n := by
  unfold ByteReader.toInt32
  split <;> omega

section Decodes

theorem decodes_read {n : Nat} {xs : List UInt8} (h : xs.length = n) :
    Decodes (ByteReader.read n) xs xs := by
  intro before after
  refine reads_bind (reads_peek h) ?_
  exact reads_bind (decodes_skip h before after) reads_pure

theorem decodes_readUint32LE {n : Nat} (h : n < 2 ^ 32) :
    Decodes ByteReader.readUint32LE (uint32LE n) n := by
  refine decodes_return (decodes_read (uint32LE_length n)) ?_
  simp only [ByteReader.byteAt,uint32LE,List.getElem?_cons_zero,List.getElem?_cons_succ,
    Option.getD_some,UInt8.toNat_ofNat']
  rw [bytes_or (by omega) (by omega) (by omega)]
  omega

theorem decodes_readInt32LE {n : Int} (h : -2 ^ 31 ≤ n) (h' : n < 2 ^ 31) :
    Decodes ByteReader.readInt32LE (int32LE n) n :=
  decodes_return (decodes_readUint32LE (by omega)) (toInt32_mod h h')

theorem decodes_readInt64LE {n : Int} (h : -2 ^ 63 ≤ n) (h' : n < 2 ^ 63) :
    Decodes ByteReader.readInt64LE (int64LE n) n := by
  refine decodes_bind (decodes_readUint32LE (by omega)) ?_
  refine decodes_return (decodes_readUint32LE (by omega)) ?_
  unfold ByteReader.toInt32
  split <;> omega

theorem decodes_readCompactSize {n : Nat} (h : n < 2 ^ 32) :
    Decodes ByteReader.readCompactSize (compactSize n) n := by
  have hfirst (b : UInt8) : Decodes (ByteReader.read 1) [b] [b] := decodes_read rfl
  unfold compactSize
  split
  · rename_i hsmall
    refine decodes_map (hfirst _) ?_
    have hbyte : ByteReader.byteAt [UInt8.ofNat n] 0 = n := by
      simp [ByteReader.byteAt]
      omega
    rw [hbyte,if_pos hsmall]
    exact decodes_pure
  split
  · rename_i hsmall
    refine decodes_bind (hfirst 0xfd) ?_
    rw [if_neg (by decide),if_pos (by decide)]
    refine decodes_return (decodes_read rfl) ?_
    have hor := @bytes_or (n % 2 ^ 8) (n / 2 ^ 8 % 2 ^ 8) 0 0 (by omega) (by omega) (by omega)
    simp only [ByteReader.byteAt,List.getElem?_cons_zero,List.getElem?_cons_succ,
      Option.getD_some,UInt8.toNat_ofNat']
    simp only [Nat.zero_shiftLeft,Nat.or_zero] at hor
    rw [hor]
    omega
  · refine decodes_bind (hfirst 0xfe) ?_
    rw [if_neg (by decide),if_neg (by decide),if_pos (by decide)]
    exact decodes_readUint32LE h

theorem decodes_skipBytes {n : Nat} {xs : List UInt8} (h : xs.length = n) :
    Decodes (ByteReader.skip n) xs () := decodes_skip h

theorem decodes_readHash (hash : Hash32) :
    Decodes ByteReader.readHash hash.bytes hash.display :=
  decodes_return (decodes_read hash.length) rfl

theorem decodes_skipSized {bytes : List UInt8} (h : bytes.length < 2 ^ 32) :
    Decodes skipSized (sized bytes) () :=
  decodes_bind (decodes_readCompactSize h) (decodes_skipBytes rfl)

theorem decodes_sized {α : Type} {f : List UInt8 → ByteReader α} {script ys : List UInt8} {a : α}
    (h : script.length < 2 ^ 32) (hf : Decodes (f script) ys a) :
    Decodes (ByteReader.readCompactSize >>= fun size => ByteReader.read size >>= f)
      (sized script ++ ys) a := by
  unfold sized
  rw [List.append_assoc]
  exact decodes_bind (decodes_readCompactSize h) (decodes_bind (decodes_read rfl) hf)

theorem decodes_readInput (input : WireInput) :
    Decodes readInput input.encode input.decoded := by
  refine decodes_bind (decodes_readHash input.previous) ?_
  refine decodes_bind (decodes_readUint32LE input.vout_lt) ?_
  refine decodes_sized input.script_lt ?_
  refine decodes_map (decodes_readUint32LE input.sequence_lt) ?_
  unfold WireInput.decoded
  split <;> exact decodes_pure

theorem decodes_readInputs {inputs : List WireInput} (h : inputs.length < 2 ^ 32) :
    Decodes readInputs (counted WireInput.encode inputs) (inputs.map WireInput.decoded) :=
  decodes_bind (decodes_readCompactSize h)
    (decodes_times_map (fun input _ _ => decodes_readInput input))

variable (digests : Digests) (prefixes : DogecoinAddressPrefixes)

theorem decodes_readOutput (index : Nat) (output : WireOutput) :
    Decodes (readOutput digests prefixes index) output.encode
      (output.decoded digests prefixes index) := by
  refine decodes_bind (decodes_readInt64LE output.value_ge output.value_lt) ?_
  rw [← List.append_nil (sized output.script)]
  refine decodes_sized output.script_lt ?_
  have hlast : Decodes (iterate (classifyIterations output.script) >>= fun _ =>
      (Pure.pure (output.decoded digests prefixes index) : ByteReader _)) [] _ :=
    decodes_return decodes_iterate rfl
  exact hlast

theorem decodes_readOutputs {outputs : List WireOutput} (h : outputs.length < 2 ^ 32) :
    Decodes (readOutputs digests prefixes) (counted WireOutput.encode outputs)
      (outputs.mapIdx (WireOutput.decoded digests prefixes)) :=
  decodes_bind (decodes_readCompactSize h)
    (decodes_times (fun output _ index => decodes_readOutput digests prefixes index output))

/-- The id is taken over the bytes between the positions before and after the transaction. -/
theorem decodes_readTransaction (tx : WireTransaction) :
    Decodes (readTransaction digests prefixes) tx.encode (tx.decoded digests prefixes) := by
  intro before after
  have hsplit : tx.encode ++ after = int32LE tx.version ++ (counted WireInput.encode tx.inputs ++
      (counted WireOutput.encode tx.outputs ++ (uint32LE tx.locktime ++ after))) := by
    unfold WireTransaction.encode
    rw [List.append_assoc,List.append_assoc,List.append_assoc]
  have hjoin : before ++ int32LE tx.version ++ counted WireInput.encode tx.inputs ++
      counted WireOutput.encode tx.outputs ++ uint32LE tx.locktime = before ++ tx.encode := by
    unfold WireTransaction.encode
    rw [List.append_assoc,List.append_assoc,List.append_assoc]
  rw [hsplit]
  refine reads_bind reads_offset ?_
  refine reads_bind (decodes_readInt32LE tx.version_ge tx.version_lt before _) ?_
  refine reads_bind (decodes_readInputs tx.inputs_lt _ _) ?_
  refine reads_bind (decodes_readOutputs digests prefixes tx.outputs_lt _ _) ?_
  refine reads_bind (decodes_readUint32LE tx.locktime_lt _ after) ?_
  rw [hjoin]
  refine reads_bind reads_offset ?_
  exact reads_bind (reads_slice rfl) reads_pure

theorem decodes_skipInput (input : WireInput) : Decodes skipInput input.encode () := by
  unfold WireInput.encode
  rw [← List.append_assoc]
  refine decodes_bind (decodes_skipBytes ?_) ?_
  · rw [List.length_append,input.previous.length,uint32LE_length]
  · exact decodes_bind (decodes_skipSized input.script_lt) (decodes_skipBytes rfl)

theorem decodes_skipOutput (output : WireOutput) : Decodes skipOutput output.encode () :=
  decodes_bind (decodes_skipBytes rfl) (decodes_skipSized output.script_lt)

theorem decodes_skipWitness (witness : WireWitness) : Decodes skipWitness witness.encode () :=
  decodes_bind (decodes_readCompactSize witness.items_lt)
    (decodes_return (decodes_times_map (fun item hitem _ =>
      decodes_skipSized (witness.item_lt item hitem))) rfl)

theorem decodes_skipWitnesses (witnesses : List WireWitness) :
    Decodes (skipWitnesses witnesses.length) (witnesses.flatMap WireWitness.encode) () :=
  decodes_return (decodes_times_map (fun witness _ _ => decodes_skipWitness witness)) rfl

theorem decodes_readInputCount {n : Nat} (extended : Bool) (hpos : 0 < n) (h : n < 2 ^ 32) :
    Decodes readInputCount ((if extended then [0x00,0x01] else []) ++ compactSize n)
      (n,extended) := by
  have hzero : compactSize 0 = [0x00] := by decide
  cases extended with
  | false =>
    refine decodes_map (decodes_readCompactSize h) ?_
    rw [if_neg (by omega)]
    exact decodes_pure
  | true =>
    intro before after
    have hmarker := @decodes_readCompactSize 0 (by decide)
    rw [hzero] at hmarker
    refine reads_bind (hmarker before ([0x01] ++ (compactSize n ++ after))) ?_
    rw [if_pos rfl]
    refine reads_bind (reads_peek rfl) ?_
    rw [if_pos (by decide)]
    refine reads_bind (decodes_skipBytes rfl _ _) ?_
    have hcount := decodes_readCompactSize h (before ++ [0x00] ++ [0x01]) after
    refine reads_bind hcount ?_
    rw [List.append_assoc,List.append_assoc]
    exact reads_pure

theorem decodes_skipTransaction (coinbase : ParentCoinbase) :
    Decodes skipTransaction coinbase.encode () := by
  have hpos := List.length_pos_iff.mpr coinbase.inputs_ne
  refine decodes_bind (decodes_skipBytes rfl) ?_
  refine decodes_bind (decodes_readInputCount _ hpos coinbase.transaction.inputs_lt) ?_
  refine decodes_bind (decodes_times_map (fun input _ _ => decodes_skipInput input)) ?_
  unfold counted
  rw [List.append_assoc]
  refine decodes_bind (decodes_readCompactSize coinbase.transaction.outputs_lt) ?_
  refine decodes_bind (decodes_times_map (fun output _ _ => decodes_skipOutput output)) ?_
  refine decodes_bind (a := ()) ?_ (decodes_skipBytes rfl)
  cases h : coinbase.witnesses with
  | none => exact decodes_pure
  | some witnesses =>
    have hlen := coinbase.witnesses_length witnesses h
    simp only [Option.isSome_some,Option.getD_some]
    rw [← hlen]
    exact decodes_skipWitnesses witnesses

theorem decodes_skipBranch {hashes : List Hash32} (h : hashes.length < 2 ^ 32) :
    Decodes skipHashVector (counted Hash32.bytes hashes) () := by
  refine decodes_bind (decodes_readCompactSize h) (decodes_skipBytes ?_)
  clear h
  induction hashes with
  | nil => rfl
  | cons hash hashes ih =>
    rw [List.flatMap_cons,List.length_append,hash.length,ih,List.length_cons]
    omega

theorem header_length (header : WireHeader) : header.encode.length = 80 := by
  unfold WireHeader.encode
  simp only [List.length_append,int32LE_length,uint32LE_length,header.previous.length,
    header.merkleRoot.length]

theorem decodes_readAuxPow (auxpow : WireAuxPow) :
    Decodes (readAuxPow digests) auxpow.encode (auxpow.decoded digests) := by
  refine decodes_bind (decodes_skipTransaction auxpow.coinbase) ?_
  refine decodes_bind (decodes_skipBytes auxpow.blockHash.length) ?_
  unfold WireBranch.encode
  rw [List.append_assoc,List.append_assoc]
  refine decodes_bind (decodes_skipBranch auxpow.coinbaseBranch.hashes_lt) ?_
  refine decodes_bind (decodes_skipBytes rfl) ?_
  refine decodes_bind (decodes_skipBranch auxpow.chainBranch.hashes_lt) ?_
  refine decodes_bind (decodes_skipBytes rfl) ?_
  exact decodes_return (decodes_read (header_length auxpow.parent)) rfl

def WireHeader.decoded (header : WireHeader) : BlockHeaderFields where
  auxpow := none
  bits := padStart 8 (Nat.toDigits 16 header.bits)
  hash := digests.sha256d header.encode
  merkleroot := header.merkleRoot.display
  nonce := header.nonce
  previousblockhash := if header.previous.display ≠ genesisPreviousHash then
    some header.previous.display else none
  time := header.time
  version := header.version

theorem decodes_readBlockHeader (header : WireHeader) :
    Decodes (readBlockHeader digests) header.encode (header.decoded digests) := by
  intro before after
  refine reads_bind (reads_peek (header_length header)) ?_
  have hfields : Decodes (do
      let version ← ByteReader.readInt32LE
      let previousHash ← ByteReader.readHash
      let merkleroot ← ByteReader.readHash
      let time ← ByteReader.readUint32LE
      let bits ← ByteReader.readUint32LE
      let nonce ← ByteReader.readUint32LE
      return (⟨none,padStart 8 (Nat.toDigits 16 bits),digests.sha256d header.encode,merkleroot,
        nonce,
        if previousHash ≠ genesisPreviousHash then some previousHash else none,time,version⟩ :
          BlockHeaderFields)) header.encode (header.decoded digests) := by
    refine decodes_bind (decodes_readInt32LE header.version_ge header.version_lt) ?_
    refine decodes_bind (decodes_readHash header.previous) ?_
    refine decodes_bind (decodes_readHash header.merkleRoot) ?_
    refine decodes_bind (decodes_readUint32LE header.time_lt) ?_
    refine decodes_bind (decodes_readUint32LE header.bits_lt) ?_
    exact decodes_return (decodes_readUint32LE header.nonce_lt) rfl
  exact hfields before after

theorem decodes_readBlockAuxPow {block : WireBlock} :
    Decodes (readBlockAuxPow digests (block.header.decoded digests))
      ((block.auxpow.map WireAuxPow.encode).getD [])
      { block.header.decoded digests with
        auxpow := block.auxpow.map (WireAuxPow.decoded digests) } := by
  have hversion : isAuxPowVersion (block.header.decoded digests).version = block.auxpow.isSome :=
    block.auxpow_iff.symm
  unfold readBlockAuxPow
  rw [hversion]
  cases block.auxpow with
  | none => exact decodes_pure
  | some auxpow => exact decodes_return (decodes_spanned (decodes_readAuxPow digests auxpow)) rfl

theorem decodes_readBlockTransaction (height index : Nat) (tx : WireTransaction) :
    Decodes (readBlockTransaction digests prefixes height index) tx.encode
      (tx.decoded digests prefixes) := by
  intro before after
  refine reads_bind reads_offset ?_
  exact decodes_mapError (decodes_readTransaction digests prefixes tx) before after

theorem reads_assertConsumed {before : List UInt8} :
    Reads ByteReader.assertConsumed before [] () before [] := by
  intro c hc
  have hend : c.offset = c.items.length := by rw [hc.offset,hc.items,List.append_nil]
  exact ⟨c,by rw [assertConsumed_run,if_pos hend],hc⟩

/-- Decoding undoes encoding: every field comes back, all bytes are consumed, and each id is
taken over exactly the bytes of its transaction, the block hash over those of the header. -/
theorem decodeDogecoinRawBlock_encode (block : WireBlock) (height : Nat) :
    decodeDogecoinRawBlock digests prefixes (bytesToHex block.encode) height =
        .ok (block.decoded digests prefixes height) ∧
      (decodeBytes digests prefixes block.encode height).2.offset = block.encode.length := by
  have hread : Reads (readBlock digests prefixes height) [] block.encode
      ({ block.header.decoded digests with
        auxpow := block.auxpow.map (WireAuxPow.decoded digests) },
        block.transactions.map (WireTransaction.decoded digests prefixes)) block.encode [] := by
    have hsplit : block.encode = block.header.encode ++
        ((block.auxpow.map WireAuxPow.encode).getD [] ++ (compactSize block.transactions.length ++
          (block.transactions.flatMap WireTransaction.encode ++ []))) := by
      rw [List.append_nil]
      rfl
    have hjoin : [] ++ block.header.encode ++ (block.auxpow.map WireAuxPow.encode).getD [] ++
        compactSize block.transactions.length ++
        block.transactions.flatMap WireTransaction.encode = block.encode := by
      rw [hsplit]
      simp only [List.append_assoc,List.nil_append,List.append_nil]
    have hsteps : Reads (readBlock digests prefixes height) [] (block.header.encode ++
        ((block.auxpow.map WireAuxPow.encode).getD [] ++ (compactSize block.transactions.length ++
          (block.transactions.flatMap WireTransaction.encode ++ []))))
        ({ block.header.decoded digests with
          auxpow := block.auxpow.map (WireAuxPow.decoded digests) },
          block.transactions.map (WireTransaction.decoded digests prefixes))
        ([] ++ block.header.encode ++ (block.auxpow.map WireAuxPow.encode).getD [] ++
          compactSize block.transactions.length ++
          block.transactions.flatMap WireTransaction.encode) [] := by
      refine reads_bind (decodes_spanned (decodes_readBlockHeader digests block.header) _ _) ?_
      refine reads_bind (decodes_readBlockAuxPow digests _ _) ?_
      refine reads_bind
        (decodes_spanned (decodes_readCompactSize block.transactions_lt) _ _) ?_
      refine reads_bind (decodes_times_map (fun tx _ index =>
        decodes_spanned (decodes_readBlockTransaction digests prefixes height index tx)) _ _) ?_
      exact reads_bind reads_assertConsumed reads_pure
    rw [hjoin,← hsplit] at hsteps
    exact hsteps
  obtain ⟨reader,hrun,hat⟩ := hread (start block.encode) ⟨rfl,rfl⟩
  have hdecoded : decodeBytes digests prefixes block.encode height =
      (.ok (block.decoded digests prefixes height),reader) := by
    unfold decodeBytes
    rw [hrun]
    simp only [finalizeBlock,WireBlock.decoded,WireHeader.decoded,List.length_map]
  have hne : block.encode ≠ [] := by
    rw [← List.length_pos_iff]
    unfold WireBlock.encode
    rw [List.length_append,header_length]
    omega
  constructor
  · unfold decodeDogecoinRawBlock
    rw [hexToBytes_bytesToHex hne]
    simp only [hdecoded]
  · rw [hdecoded]
    exact hat.offset

end Decodes

/-- Digests of the right length: the first bytes of what they digest. -/
def leadingDigests : Digests :=
  ⟨fun bytes => (bytes ++ List.replicate 32 0).take 32,
    fun bytes => (bytes ++ List.replicate 20 0).take 20⟩

def zeroHash : Hash32 := ⟨List.replicate 32 0,rfl⟩

/-- A coinbase that pays one output to a key hash. -/
def coinbaseTransaction : WireTransaction where
  version := 1
  inputs := [⟨zeroHash,2 ^ 32 - 1,[0x03,0xa2,0x02,0x57],2 ^ 32 - 1,by decide,by decide,by decide⟩]
  outputs := [⟨1000000000000,[0x76,0xa9,0x14] ++ List.replicate 20 0x11 ++ [0x88,0xac],by decide,
    by decide,by decide⟩]
  locktime := 0
  version_ge := by decide
  version_lt := by decide
  inputs_lt := by decide
  outputs_lt := by decide
  locktime_lt := by decide

/-- The parent's coinbase commits to a witness. -/
def witnessCoinbase : ParentCoinbase where
  transaction := coinbaseTransaction
  witnesses := some [⟨[List.replicate 32 0],by decide,by decide⟩]
  inputs_ne := by simp [coinbaseTransaction]
  witnesses_length := by
    rintro _ ⟨rfl⟩
    rfl

def headerOf (version : Int) (hlower : -2 ^ 31 ≤ version) (hupper : version < 2 ^ 31) :
    WireHeader :=
  ⟨version,zeroHash,zeroHash,1410464577,0x1b364184,0,hlower,hupper,by decide,by decide,by decide⟩

def mergeMinedBlock : WireBlock where
  header := headerOf 0x620102 (by decide) (by decide)
  auxpow := some ⟨witnessCoinbase,zeroHash,⟨[zeroHash,zeroHash],1,by decide,by decide⟩,
    ⟨[],0,by decide,by decide⟩,headerOf 2 (by decide) (by decide)⟩
  transactions := [coinbaseTransaction]
  auxpow_iff := by decide
  transactions_lt := by decide

theorem decodeDogecoinRawBlock_encode_mergeMined :
    decodeDogecoinRawBlock leadingDigests dogecoinMainnetAddressPrefixes
        (bytesToHex mergeMinedBlock.encode) 371337 =
      .ok (mergeMinedBlock.decoded leadingDigests dogecoinMainnetAddressPrefixes 371337) ∧
    (decodeBytes leadingDigests dogecoinMainnetAddressPrefixes mergeMinedBlock.encode
      371337).2.offset = mergeMinedBlock.encode.length :=
  decodeDogecoinRawBlock_encode leadingDigests dogecoinMainnetAddressPrefixes mergeMinedBlock
    371337

end OnlyDoge
