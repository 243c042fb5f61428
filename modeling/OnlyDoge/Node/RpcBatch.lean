import Mathlib.Data.Rat.Defs
import OnlyDoge.Library.SparseArray
import OnlyDoge.Node.JsonRpc
import OnlyDoge.Node.WireEncoding
import OnlyDoge.Chain.DecoderForm
set_option autoImplicit false

/-! JSON-RPC batches of the node and the block snapshots read through them (`rpc.ts`). -/

namespace OnlyDoge
open Snapshot (IsHash decodedBlock_of_decode)

structure RpcResponse where
  ok : Bool
  payload : Json

def hasInvalidRpcPayloadBody (payload : Json) : Bool :=
  [(payload.property "error").any Json.truthy,(payload.property "result").isNone].any id

def isInvalidRpcPayload (payload : Json) : Bool :=
  if !payload.truthy then true else hasInvalidRpcPayloadBody payload

def isBatchResultIndex (value : JsValue) (expectedCount : Nat) : Bool :=
  match value with
  | some (.number value) => value.den = 1 && 0 ≤ value && value < expectedCount
  | _ => false

/-- The index that a value stands for where `isBatchResultIndex` accepts it. -/
def batchResultIndex : JsValue → Nat
  | some (.number value) => value.num.toNat
  | _ => 0

def readRpcBatchEntries (rpcEndpoint : String) (expectedCount : Nat) :
    List Json → SparseArray JsValue → Except RpcError (SparseArray JsValue)
  | [],results => .ok results
  | entry::entries,results =>
    if isInvalidRpcPayload entry || !isBatchResultIndex (entry.property "id") expectedCount then
      .error (.connection rpcEndpoint)
    else
      readRpcBatchEntries rpcEndpoint expectedCount entries
        (results.set (batchResultIndex (entry.property "id")) (some (entry.property "result")))

def readRpcBatchResults (response : RpcResponse) (rpcEndpoint : String) (expectedCount : Nat) :
    Except RpcError (SparseArray JsValue) :=
  if !response.ok || !response.payload.isArray ||
      response.payload.items.length != expectedCount then
    .error (.connection rpcEndpoint)
  else do
    let results ← readRpcBatchEntries rpcEndpoint expectedCount response.payload.items
      (SparseArray.create expectedCount)
    -- the check visits set slots only
    if results.someSet (fun entry => entry.isNone) then .error (.connection rpcEndpoint)
    else return results

/-- The answer passes no check of the whole payload, or one of its entries fails its own. -/
def Refused (response : RpcResponse) (expectedCount : Nat) : Prop :=
  response.ok = false ∨ response.payload.isArray = false ∨
    response.payload.items.length ≠ expectedCount ∨
      ∃ entry ∈ response.payload.items, isInvalidRpcPayload entry = true ∨
        isBatchResultIndex (entry.property "id") expectedCount = false

def DistinctIds (response : RpcResponse) : Prop :=
  (response.payload.items.map (Json.property "id")).Nodup

def HasId (entry : Json) (i : Nat) : Prop := entry.property "id" = some (.number i)

theorem batchResultIndex_nat (i : Nat) : batchResultIndex (some (.number i)) = i := by
  simp [batchResultIndex]

theorem hasId_of_isBatchResultIndex {value : JsValue} {n : Nat}
    (h : isBatchResultIndex value n = true) :
    value = some (.number (batchResultIndex value : Nat)) ∧ batchResultIndex value < n := by
  unfold isBatchResultIndex at h
  split at h
  · next value =>
    simp only [Bool.and_eq_true,decide_eq_true_eq] at h
    obtain ⟨⟨hden,hnonneg⟩,hlt⟩ := h
    have hnum : (value.num : Rat) = value := Rat.coe_int_num_of_den_eq_one hden
    have hpos : 0 ≤ value.num := Rat.num_nonneg.mpr hnonneg
    have hcast : ((value.num.toNat : Nat) : Rat) = value := by
      rw [← Int.cast_natCast,Int.toNat_of_nonneg hpos,hnum]
    refine ⟨?_,?_⟩
    · rw [batchResultIndex,hcast]
    · rw [batchResultIndex]
      rw [← hcast] at hlt
      exact_mod_cast hlt
  · cases h

/-- The write that an entry makes. -/
def entryWrite (entry : Json) : Nat × JsValue :=
  (batchResultIndex (entry.property "id"),entry.property "result")

theorem readRpcBatchEntries_ok {rpcEndpoint : String} {n : Nat} {entries : List Json}
    {slots results : SparseArray JsValue} :
    readRpcBatchEntries rpcEndpoint n entries slots = .ok results ↔
      (∀ entry ∈ entries, isInvalidRpcPayload entry = false ∧
        isBatchResultIndex (entry.property "id") n = true) ∧
      results = slots.writeAll (entries.map entryWrite) := by
  induction entries generalizing slots with
  | nil =>
    constructor
    · intro h
      cases h
      exact ⟨by simp,rfl⟩
    · rintro ⟨-,rfl⟩
      rfl
  | cons entry entries ih =>
    rw [readRpcBatchEntries]
    by_cases hvalid : isInvalidRpcPayload entry = false ∧
        isBatchResultIndex (entry.property "id") n = true
    · simp only [hvalid.1,hvalid.2,Bool.not_true,Bool.or_self,Bool.false_eq_true,if_false,ih,
        List.forall_mem_cons,List.map_cons,SparseArray.writeAll,entryWrite,and_self,true_and]
    · have hfail : (isInvalidRpcPayload entry ||
          !isBatchResultIndex (entry.property "id") n) = true := by
        by_contra hpass
        simp only [Bool.or_eq_true,Bool.not_eq_true',not_or,Bool.not_eq_true,
          Bool.not_eq_false] at hpass
        exact hvalid hpass
      simp only [hfail,if_true,List.forall_mem_cons,hvalid,false_and,reduceCtorEq]

theorem result_of_valid {entry : Json} (h : isInvalidRpcPayload entry = false) :
    (entry.property "result").isSome = true := by
  unfold isInvalidRpcPayload at h
  split at h
  · cases h
  · simp only [hasInvalidRpcPayloadBody,List.any_cons,List.any_nil,id,Bool.or_false,
      Bool.or_eq_false_iff] at h
    cases hresult : entry.property "result" with
    | none => simp [hresult] at h
    | some result => rfl

theorem not_refused {response : RpcResponse} {n : Nat} (h : ¬Refused response n) :
    response.ok = true ∧ response.payload.isArray = true ∧
      response.payload.items.length = n ∧ ∀ entry ∈ response.payload.items,
        isInvalidRpcPayload entry = false ∧
          isBatchResultIndex (entry.property "id") n = true := by
  unfold Refused at h
  simp only [not_or,Bool.not_eq_false,not_not,not_exists,not_and,Bool.not_eq_true] at h
  exact h

/-- Whatever passes the checks is written slot by slot, and the check for unset slots finds none. -/
theorem readRpcBatchResults_ok {response : RpcResponse} {rpcEndpoint : String} {n : Nat}
    {results : SparseArray JsValue} :
    readRpcBatchResults response rpcEndpoint n = .ok results ↔ ¬Refused response n ∧
      results = (SparseArray.create n).writeAll (response.payload.items.map entryWrite) := by
  unfold readRpcBatchResults
  constructor
  · intro h
    split at h
    · cases h
    · next hpayload =>
      obtain ⟨slots,hread,hslots⟩ := bind_eq_ok.mp h
      obtain ⟨hvalid,rfl⟩ := readRpcBatchEntries_ok.mp hread
      split at hslots
      · cases hslots
      · cases hslots
        refine ⟨?_,rfl⟩
        simp only [Bool.or_eq_true,Bool.not_eq_true',bne_iff_ne,ne_eq,not_or,Bool.not_eq_false,
          not_not] at hpayload
        rintro (hok | harray | hlength | ⟨entry,hentry,hbad⟩)
        · rw [hpayload.1.1] at hok
          cases hok
        · rw [hpayload.1.2] at harray
          cases harray
        · exact hlength hpayload.2
        · rw [(hvalid entry hentry).1,(hvalid entry hentry).2] at hbad
          simp at hbad
  · rintro ⟨hrefused,rfl⟩
    obtain ⟨hok,harray,hlength,hvalid⟩ := not_refused hrefused
    rw [if_neg (by simp [hok,harray,hlength])]
    refine bind_eq_ok.mpr ⟨_,readRpcBatchEntries_ok.mpr ⟨hvalid,rfl⟩,?_⟩
    rw [if_neg]
    · rfl
    · intro hunset
      obtain ⟨slot,hslot,hset⟩ := List.any_eq_true.mp hunset
      obtain ⟨i,hi⟩ := List.getElem?_of_mem hslot
      cases slot with
      | none => simp at hset
      | some value =>
        rcases SparseArray.writeAll_set hi with hwrite | hcreate
        · obtain ⟨entry,hentry,hwritten⟩ := List.mem_map.mp hwrite
          have hresult := result_of_valid (hvalid entry hentry).1
          rw [show entry.property "result" = value from congrArg Prod.snd hwritten] at hresult
          cases value with
          | none => cases hresult
          | some result => cases hset
        · exact SparseArray.create_unset hcreate

/-- An answer is accepted as the results of `n` calls only with one result for each call, in the
order of the calls. -/
def CompleteInOrder (response : RpcResponse) (n : Nat)
    (read : Except RpcError (SparseArray JsValue)) : Prop :=
  ∀ results, read = .ok results → results.length = n ∧ ∀ i < n, ∃ entry ∈ response.payload.items,
    HasId entry i ∧ results[i]? = some (some (entry.property "result"))

/-- Two entries of the answer have one id, or some call has no entry. -/
def RepeatedOrMissing (response : RpcResponse) (n : Nat) : Prop :=
  ¬DistinctIds response ∨ ∃ i < n, ∀ entry ∈ response.payload.items, ¬HasId entry i

section Accepted
variable {response : RpcResponse} {rpcEndpoint : String} {n : Nat} {results : SparseArray JsValue}

theorem hasId_entryWrite (hrefused : ¬Refused response n) {entry : Json}
    (h : entry ∈ response.payload.items) : HasId entry (entryWrite entry).1 :=
  (hasId_of_isBatchResultIndex ((not_refused hrefused).2.2.2 entry h).2).1

theorem distinctIds_iff_nodup (hrefused : ¬Refused response n) :
    DistinctIds response ↔ ((response.payload.items.map entryWrite).map Prod.fst).Nodup := by
  have hinj : Function.Injective fun i : Nat => (some (.number i) : JsValue) := by
    intro i j hij
    have := congrArg batchResultIndex hij
    simpa only [batchResultIndex_nat] using this
  have hids : response.payload.items.map (Json.property "id") =
      ((response.payload.items.map entryWrite).map Prod.fst).map
        fun i : Nat => (some (.number i) : JsValue) := by
    rw [List.map_map,List.map_map]
    exact List.map_congr_left fun entry hentry => hasId_entryWrite hrefused hentry
  unfold DistinctIds
  rw [hids,List.nodup_map_iff hinj]

theorem result_of_set (h : readRpcBatchResults response rpcEndpoint n = .ok results) {i : Nat}
    {value : JsValue} (hset : results[i]? = some (some value)) :
    ∃ entry ∈ response.payload.items, HasId entry i ∧ entry.property "result" = value := by
  obtain ⟨hrefused,rfl⟩ := readRpcBatchResults_ok.mp h
  rcases SparseArray.writeAll_set hset with hwrite | hcreate
  · obtain ⟨entry,hentry,hwritten⟩ := List.mem_map.mp hwrite
    have hid := hasId_entryWrite hrefused hentry
    rw [hwritten] at hid
    exact ⟨entry,hentry,hid,congrArg Prod.snd hwritten⟩
  · exact absurd hcreate SparseArray.create_unset

theorem results_length (h : readRpcBatchResults response rpcEndpoint n = .ok results) :
    results.length = n := by
  obtain ⟨-,rfl⟩ := readRpcBatchResults_ok.mp h
  rw [SparseArray.writeAll_length,SparseArray.create_length]

theorem results_filled_iff (h : readRpcBatchResults response rpcEndpoint n = .ok results) :
    (∀ i < n, ∃ value, results[i]? = some (some value)) ↔ DistinctIds response := by
  obtain ⟨hrefused,rfl⟩ := readRpcBatchResults_ok.mp h
  obtain ⟨-,-,hlength,hvalid⟩ := not_refused hrefused
  rw [distinctIds_iff_nodup hrefused]
  refine SparseArray.filled_iff (by rw [List.length_map,hlength]) fun write hwrite => ?_
  obtain ⟨entry,hentry,rfl⟩ := List.mem_map.mp hwrite
  exact (hasId_of_isBatchResultIndex (hvalid entry hentry).2).2

theorem completeInOrder_iff : CompleteInOrder response n
    (readRpcBatchResults response rpcEndpoint n) ↔ Refused response n ∨ DistinctIds response := by
  constructor
  · intro h
    by_cases hrefused : Refused response n
    · exact Or.inl hrefused
    · have hread : readRpcBatchResults response rpcEndpoint n =
          .ok ((SparseArray.create n).writeAll (response.payload.items.map entryWrite)) :=
        readRpcBatchResults_ok.mpr ⟨hrefused,rfl⟩
      refine Or.inr ((results_filled_iff hread).mp fun i hi => ?_)
      obtain ⟨entry,-,-,hset⟩ := (h _ hread).2 i hi
      exact ⟨_,hset⟩
  · rintro h results hread
    have hdistinct := h.resolve_left (readRpcBatchResults_ok.mp hread).1
    refine ⟨results_length hread,fun i hi => ?_⟩
    obtain ⟨value,hset⟩ := (results_filled_iff hread).mpr hdistinct i hi
    obtain ⟨entry,hentry,hid,rfl⟩ := result_of_set hread hset
    exact ⟨entry,hentry,hid,hset⟩

theorem rejects_iff : (RepeatedOrMissing response n →
    ∃ e, readRpcBatchResults response rpcEndpoint n = .error e) ↔
      Refused response n ∨ DistinctIds response := by
  constructor
  · intro h
    by_contra hneither
    obtain ⟨hrefused,hrepeated⟩ := not_or.mp hneither
    obtain ⟨e,he⟩ := h (Or.inl hrepeated)
    have hread : readRpcBatchResults response rpcEndpoint n = .ok _ :=
      readRpcBatchResults_ok.mpr ⟨hrefused,rfl⟩
    rw [hread] at he
    cases he
  · intro h hbad
    cases hread : readRpcBatchResults response rpcEndpoint n with
    | error e => exact ⟨e,rfl⟩
    | ok results =>
      have hdistinct := h.resolve_left (readRpcBatchResults_ok.mp hread).1
      rcases hbad with hrepeated | ⟨i,hi,hmissing⟩
      · exact absurd hdistinct hrepeated
      · obtain ⟨value,hset⟩ := (results_filled_iff hread).mpr hdistinct i hi
        obtain ⟨entry,hentry,hid,-⟩ := result_of_set hread hset
        exact absurd hid (hmissing entry hentry)

end Accepted

structure RpcCall where
  method : String
  params : List JsValue

section Gateway
variable (digests : Digests) (prefixes : DogecoinAddressPrefixes)
-- `fetchJsonRpcBatch`: the answer to a batch at an attempt, or what sending it throws
variable (fetchJsonRpcBatch : SparseArray RpcCall → Nat → Except RpcError RpcResponse)
variable (rpcEndpoint : String)

def callDogecoinBatch (calls : SparseArray RpcCall) : Except RpcError (SparseArray JsValue) :=
  if calls.length = 0 then .ok []
  else withRpcRetry rpcEndpoint fun attempt => do
    let response ← fetchJsonRpcBatch calls attempt
    readRpcBatchResults response rpcEndpoint calls.length

/-- `value ?? fallback` for a slot of an array. -/
def slotOr (fallback : Json) : Option (Option JsValue) → Json
  | some (some (some .null)) => fallback
  | some (some (some value)) => value
  | _ => fallback

def decodeRawBlockSnapshot (rawBlock : JsValue) (blockHeight : Nat) (expectedHash : Json) :
    Except RpcError DecodedDogecoinBlock :=
  match rawBlock with
  | some (.string hex) =>
    match decodeDogecoinRawBlock digests prefixes hex blockHeight with
    | .error message => .error (.decoding message)
    | .ok block =>
      match expectedHash with
      | .string hash =>
        if block.hash = hash then .ok block
        else .error (.hashMismatch blockHeight expectedHash block.hash)
      | _ => .error (.hashMismatch blockHeight expectedHash block.hash)
  | _ => .error (.invalidResponse "getblock")

def blockHashCalls (blockHeights : List Nat) : SparseArray RpcCall :=
  blockHeights.map fun height => some ⟨"getblockhash",[some (.number height)]⟩

def rawBlockCalls (hashes : SparseArray JsValue) : SparseArray RpcCall :=
  hashes.map fun slot => slot.map fun hash => ⟨"getblock",[hash,some (.bool false)]⟩

/-- The snapshots' blocks; every index of `rawBlocks` has a height. -/
def getBlockSnapshots (blockHeights : List Nat) :
    Except RpcError (SparseArray DecodedDogecoinBlock) :=
  if blockHeights.length = 0 then .ok []
  else do
    let hashes ← callDogecoinBatch fetchJsonRpcBatch rpcEndpoint (blockHashCalls blockHeights)
    let rawBlocks ← callDogecoinBatch fetchJsonRpcBatch rpcEndpoint (rawBlockCalls hashes)
    rawBlocks.mapSet fun rawBlock index =>
      decodeRawBlockSnapshot digests prefixes rawBlock (blockHeights[index]?.getD 0)
        (slotOr (.string "") hashes[index]?)

end Gateway

/-- The block is the decoded answer to call `i` and has the hash that the node gave for it. -/
def PairedAt (digests : Digests) (prefixes : DogecoinAddressPrefixes)
    (hashResponse rawResponse : RpcResponse) (i height : Nat)
    (block : DecodedDogecoinBlock) : Prop :=
  ∃ hashEntry ∈ hashResponse.payload.items, ∃ rawEntry ∈ rawResponse.payload.items, ∃ hex,
    HasId hashEntry i ∧ HasId rawEntry i ∧ rawEntry.property "result" = some (.string hex) ∧
    decodeDogecoinRawBlock digests prefixes hex height = .ok block ∧
    hashEntry.property "result" = some (.string block.hash)

/-- Every requested height has its block, at the index of the request. -/
def PairedByHeight (digests : Digests) (prefixes : DogecoinAddressPrefixes)
    (hashResponse rawResponse : RpcResponse) (blockHeights : List Nat)
    (snapshots : SparseArray DecodedDogecoinBlock) : Prop :=
  snapshots.length = blockHeights.length ∧ ∀ i height, blockHeights[i]? = some height →
    ∃ block, snapshots[i]? = some (some block) ∧
      PairedAt digests prefixes hashResponse rawResponse i height block

theorem decodeRawBlockSnapshot_ok {digests : Digests} {prefixes : DogecoinAddressPrefixes}
    {rawBlock : JsValue} {height : Nat} {expectedHash : Json} {block : DecodedDogecoinBlock}
    (h : decodeRawBlockSnapshot digests prefixes rawBlock height expectedHash = .ok block) :
    ∃ hex, rawBlock = some (.string hex) ∧
      decodeDogecoinRawBlock digests prefixes hex height = .ok block ∧
      expectedHash = .string block.hash := by
  unfold decodeRawBlockSnapshot at h
  split at h
  · next hex =>
    split at h
    · cases h
    · next decoded hdecode =>
      split at h
      · next hash =>
        split at h
        · next hhash =>
          cases h
          exact ⟨hex,rfl,hdecode,by rw [hhash]⟩
        · cases h
      · cases h
  · cases h

theorem callDogecoinBatch_ok
    {fetchJsonRpcBatch : SparseArray RpcCall → Nat → Except RpcError RpcResponse}
    {rpcEndpoint : String} {calls : SparseArray RpcCall} {results : SparseArray JsValue}
    (hcalls : calls.length ≠ 0)
    (h : callDogecoinBatch fetchJsonRpcBatch rpcEndpoint calls = .ok results) :
    ∃ attempt response, fetchJsonRpcBatch calls attempt = .ok response ∧
      readRpcBatchResults response rpcEndpoint calls.length = .ok results := by
  unfold callDogecoinBatch at h
  rw [if_neg hcalls] at h
  obtain ⟨attempt,hattempt⟩ := withRpcRetry_ok h
  obtain ⟨response,hfetch,hread⟩ := bind_eq_ok.mp hattempt
  exact ⟨attempt,response,hfetch,hread⟩

theorem slotOr_string {slot : Option (Option JsValue)} {text : String}
    (h : slotOr (.string "") slot = .string text) (htext : text ≠ "") :
    slot = some (some (some (.string text))) := by
  unfold slotOr at h
  split at h
  · cases h
    exact absurd rfl htext
  · cases h
    rfl
  · cases h
    exact absurd rfl htext

theorem isHash_ne_empty {text : String} (h : IsHash text) : text ≠ "" := by
  rintro rfl
  obtain ⟨bytes,hlength,htext⟩ := h
  have hdigits := congrArg (fun text : String => text.toList.length) htext
  simp [bytesToHex,HexText.hexDigits_length,hlength] at hdigits

section Snapshots
variable {digests : Digests} {prefixes : DogecoinAddressPrefixes}
variable {rpcEndpoint : String} {blockHeights : List Nat}
variable {hashResponse rawResponse : RpcResponse} {hashes rawBlocks : SparseArray JsValue}
variable {snapshots : SparseArray DecodedDogecoinBlock}

theorem pairedAt_of_set (hsha256 : ∀ bytes, (digests.sha256 bytes).length = 32)
    (hhashes : readRpcBatchResults hashResponse rpcEndpoint blockHeights.length = .ok hashes)
    (hraw : readRpcBatchResults rawResponse rpcEndpoint blockHeights.length = .ok rawBlocks)
    {i height : Nat} {block : DecodedDogecoinBlock} {rawBlock : JsValue}
    (hset : rawBlocks[i]? = some (some rawBlock))
    (hblock : decodeRawBlockSnapshot digests prefixes rawBlock height
      (slotOr (.string "") hashes[i]?) = .ok block) :
    PairedAt digests prefixes hashResponse rawResponse i height block := by
  obtain ⟨hex,rfl,hdecode,hslot⟩ := decodeRawBlockSnapshot_ok hblock
  have hne := isHash_ne_empty (decodedBlock_of_decode hsha256 hdecode).hash
  obtain ⟨rawEntry,hrawEntry,hrawId,hrawResult⟩ := result_of_set hraw hset
  obtain ⟨hashEntry,hhashEntry,hhashId,hhashResult⟩ :=
    result_of_set hhashes (slotOr_string hslot hne)
  exact ⟨hashEntry,hhashEntry,rawEntry,hrawEntry,hex,hhashId,hrawId,hrawResult,hdecode,hhashResult⟩

theorem getBlockSnapshots_ok
    {fetchJsonRpcBatch : SparseArray RpcCall → Nat → Except RpcError RpcResponse}
    (hheights : blockHeights ≠ [])
    (h : getBlockSnapshots digests prefixes fetchJsonRpcBatch rpcEndpoint blockHeights =
      .ok snapshots) :
    ∃ hashes rawBlocks hashAttempt hashResponse rawAttempt rawResponse,
      fetchJsonRpcBatch (blockHashCalls blockHeights) hashAttempt = .ok hashResponse ∧
      readRpcBatchResults hashResponse rpcEndpoint blockHeights.length = .ok hashes ∧
      fetchJsonRpcBatch (rawBlockCalls hashes) rawAttempt = .ok rawResponse ∧
      readRpcBatchResults rawResponse rpcEndpoint blockHeights.length = .ok rawBlocks ∧
      rawBlocks.mapSet (fun rawBlock index => decodeRawBlockSnapshot digests prefixes rawBlock
        (blockHeights[index]?.getD 0) (slotOr (.string "") hashes[index]?)) = .ok snapshots := by
  have hlength : blockHeights.length ≠ 0 := fun h => hheights (List.length_eq_zero_iff.mp h)
  unfold getBlockSnapshots at h
  rw [if_neg hlength] at h
  obtain ⟨hashes,hhashes,h⟩ := bind_eq_ok.mp h
  obtain ⟨rawBlocks,hraw,hsnapshots⟩ := bind_eq_ok.mp h
  have hhashCalls : (blockHashCalls blockHeights).length = blockHeights.length := by
    simp [blockHashCalls]
  obtain ⟨hashAttempt,hashResponse,hhashFetch,hhashRead⟩ :=
    callDogecoinBatch_ok (by rw [hhashCalls]; exact hlength) hhashes
  rw [hhashCalls] at hhashRead
  have hrawCalls : (rawBlockCalls hashes).length = blockHeights.length := by
    rw [rawBlockCalls,List.length_map,results_length hhashRead]
  obtain ⟨rawAttempt,rawResponse,hrawFetch,hrawRead⟩ :=
    callDogecoinBatch_ok (by rw [hrawCalls]; exact hlength) hraw
  rw [hrawCalls] at hrawRead
  exact ⟨hashes,rawBlocks,hashAttempt,hashResponse,rawAttempt,rawResponse,hhashFetch,hhashRead,
    hrawFetch,hrawRead,hsnapshots⟩

end Snapshots

/-- What a batch gives is complete and in order, and repeated or missing ids are rejected, exactly
for the answers that are refused or repeat no id; so every snapshot that is set is paired with its
height, and every one is set exactly when the raw blocks' answer repeats no id. -/
theorem readRpcBatchResults_complete_iff {digests : Digests} {prefixes : DogecoinAddressPrefixes}
    (hsha256 : ∀ bytes, (digests.sha256 bytes).length = 32) :
    (∀ response rpcEndpoint n,
      CompleteInOrder response n (readRpcBatchResults response rpcEndpoint n) ∧
        (RepeatedOrMissing response n →
          ∃ e, readRpcBatchResults response rpcEndpoint n = .error e) ↔
      Refused response n ∨ DistinctIds response) ∧
    ∀ fetchJsonRpcBatch rpcEndpoint blockHeights snapshots, blockHeights ≠ [] →
      getBlockSnapshots digests prefixes fetchJsonRpcBatch rpcEndpoint blockHeights =
        .ok snapshots →
      ∃ hashes hashAttempt hashResponse rawAttempt rawResponse,
        fetchJsonRpcBatch (blockHashCalls blockHeights) hashAttempt = .ok hashResponse ∧
        readRpcBatchResults hashResponse rpcEndpoint blockHeights.length = .ok hashes ∧
        fetchJsonRpcBatch (rawBlockCalls hashes) rawAttempt = .ok rawResponse ∧
        (∀ i height block, blockHeights[i]? = some height → snapshots[i]? = some (some block) →
          PairedAt digests prefixes hashResponse rawResponse i height block) ∧
        (PairedByHeight digests prefixes hashResponse rawResponse blockHeights snapshots ↔
          DistinctIds rawResponse) := by
  refine ⟨fun response rpcEndpoint n => ?_,?_⟩
  · rw [completeInOrder_iff,rejects_iff,and_self]
  · intro fetchJsonRpcBatch rpcEndpoint blockHeights snapshots hheights h
    obtain ⟨hashes,rawBlocks,hashAttempt,hashResponse,rawAttempt,rawResponse,hhashFetch,hhashRead,
      hrawFetch,hrawRead,hsnapshots⟩ := getBlockSnapshots_ok hheights h
    refine ⟨hashes,hashAttempt,hashResponse,rawAttempt,rawResponse,hhashFetch,hhashRead,hrawFetch,
      ?_⟩
    obtain ⟨hlength,hslots⟩ := SparseArray.mapSet_ok hsnapshots
    have hrawLength : rawBlocks.length = blockHeights.length := results_length hrawRead
    have hpaired : ∀ i height block, blockHeights[i]? = some height →
        snapshots[i]? = some (some block) →
        PairedAt digests prefixes hashResponse rawResponse i height block := by
      intro i height block hheight hset
      obtain ⟨rawBlock,hsome,hdecode⟩ := SparseArray.mapSet_set hsnapshots hset
      rw [hheight] at hdecode
      exact pairedAt_of_set hsha256 hhashRead hrawRead hsome hdecode
    refine ⟨hpaired,?_,?_⟩
    · intro hall
      refine (results_filled_iff hrawRead).mp fun i hi => ?_
      obtain ⟨block,hset,-⟩ := hall.2 i _ (List.getElem?_eq_getElem hi)
      obtain ⟨rawBlock,hsome,-⟩ := SparseArray.mapSet_set hsnapshots hset
      exact ⟨rawBlock,hsome⟩
    · intro hdistinct
      refine ⟨by rw [hlength,hrawLength],fun i height hheight => ?_⟩
      have hi := (List.getElem?_eq_some_iff.mp hheight).1
      obtain ⟨rawBlock,hsome⟩ := (results_filled_iff hrawRead).mpr hdistinct i hi
      obtain ⟨block,-,hset⟩ := (hslots i).2 rawBlock hsome
      exact ⟨block,hset,hpaired i height block hheight hset⟩

/-- The answers to two calls, the second one first. -/
def swappedResponse (first second : String) : RpcResponse where
  ok := true
  payload := .array [.object [("result",.string second),("error",.null),("id",.number 1)],
    .object [("result",.string first),("error",.null),("id",.number 0)]]

def emptyBlock (header : WireHeader) (hversion : isAuxPowVersion header.version = false) :
    WireBlock :=
  ⟨header,none,[],hversion.symm,by decide⟩

def versionThreeBlock : WireBlock := emptyBlock (headerOf 3 (by decide) (by decide)) rfl

def versionFourBlock : WireBlock := emptyBlock (headerOf 4 (by decide) (by decide)) rfl

def swappedHashes : RpcResponse :=
  swappedResponse (leadingDigests.sha256d versionThreeBlock.header.encode)
    (leadingDigests.sha256d versionFourBlock.header.encode)

def swappedBlocks : RpcResponse :=
  swappedResponse (bytesToHex versionThreeBlock.encode) (bytesToHex versionFourBlock.encode)

/-- A node that answers each batch of two in the other order. -/
def swappingNode (calls : SparseArray RpcCall) (_ : Nat) : Except RpcError RpcResponse :=
  match calls.head? with
  | some (some ⟨"getblockhash",_⟩) => .ok swappedHashes
  | _ => .ok swappedBlocks

def swappedSnapshots : Except RpcError (SparseArray DecodedDogecoinBlock) :=
  getBlockSnapshots leadingDigests dogecoinMainnetAddressPrefixes swappingNode "node" [0,1]

theorem swappedSnapshots_ok : ∃ snapshots, swappedSnapshots = .ok snapshots := by
  have hsome : swappedSnapshots.toOption.isSome := by decide +kernel
  obtain ⟨snapshots,hsnapshots⟩ := Option.isSome_iff_exists.mp hsome
  refine ⟨snapshots,?_⟩
  cases h : swappedSnapshots with
  | error e => simp [h,Except.toOption] at hsnapshots
  | ok found => simpa [h,Except.toOption] using hsnapshots

theorem swappingNode_rawBlockCalls (hashes : SparseArray JsValue) (attempt : Nat) :
    swappingNode (rawBlockCalls hashes) attempt = .ok swappedBlocks := by
  cases hashes with
  | nil => rfl
  | cons slot rest => cases slot <;> rfl

theorem distinctIds_swappedResponse (first second : String) :
    DistinctIds (swappedResponse first second) := by
  simp [DistinctIds,swappedResponse,Json.items,Json.property]

theorem readRpcBatchResults_complete_swapped : ∃ snapshots,
    CompleteInOrder swappedBlocks 2 (readRpcBatchResults swappedBlocks "node" 2) ∧
      swappedSnapshots = .ok snapshots ∧
      PairedByHeight leadingDigests dogecoinMainnetAddressPrefixes swappedHashes swappedBlocks [0,1]
        snapshots := by
  obtain ⟨snapshots,hsnapshots⟩ := swappedSnapshots_ok
  obtain ⟨hread,hpaired⟩ := @readRpcBatchResults_complete_iff leadingDigests
    dogecoinMainnetAddressPrefixes (fun bytes => by simp [leadingDigests])
  have hdistinct := distinctIds_swappedResponse (bytesToHex versionThreeBlock.encode)
    (bytesToHex versionFourBlock.encode)
  refine ⟨snapshots,((hread _ _ _).mpr (Or.inr hdistinct)).1,hsnapshots,?_⟩
  obtain ⟨hashes,hashAttempt,hashResponse,rawAttempt,rawResponse,hhash,-,hraw,-,hiff⟩ :=
    hpaired swappingNode "node" [0,1] snapshots (by simp) hsnapshots
  obtain rfl : swappedHashes = hashResponse := Except.ok.inj hhash
  rw [swappingNode_rawBlockCalls] at hraw
  obtain rfl : swappedBlocks = rawResponse := Except.ok.inj hraw
  exact hiff.mpr hdistinct

/-- Both entries answer call 0: call 1 has no result and the answer is accepted. -/
def repeatedIdResponse : RpcResponse where
  ok := true
  payload := .array [.object [("result",.string "a"),("error",.null),("id",.number 0)],
    .object [("result",.string "b"),("error",.null),("id",.number 0)]]

theorem repeated_id_accepted :
    readRpcBatchResults repeatedIdResponse "node" 2 = .ok [some (some (.string "b")),none] ∧
      ¬(CompleteInOrder repeatedIdResponse 2 (readRpcBatchResults repeatedIdResponse "node" 2) ∧
        (RepeatedOrMissing repeatedIdResponse 2 →
          ∃ e, readRpcBatchResults repeatedIdResponse "node" 2 = .error e)) := by
  have hread : readRpcBatchResults repeatedIdResponse "node" 2 =
      .ok [some (some (.string "b")),none] := by rfl
  refine ⟨hread,fun h => ?_⟩
  obtain ⟨entry,-,-,hset⟩ := (h.1 _ hread).2 1 (by decide)
  simp at hset

end OnlyDoge
