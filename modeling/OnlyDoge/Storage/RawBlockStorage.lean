import OnlyDoge.Library.JsonRoundTrip
import OnlyDoge.Library.PosixPath
import OnlyDoge.Library.Slots
set_option autoImplicit false

/-!
Where the snapshots of raw blocks are kept (`raw-block-storage.ts`): gzipped JSON, in files or in
the objects of an S3 bucket.
-/

namespace OnlyDoge

namespace Storage
open Slots

/-- `gzip(Buffer.from(text))`, and the text of `gunzip(payload)` where that does not throw. -/
structure Zlib where
  gzip : String → List UInt8
  gunzip : List UInt8 → Option String

/-- What is packed comes out again, and `gunzip` throws at an unexpected end of its input. -/
structure Zlib.Lawful (zlib : Zlib) : Prop where
  gunzip_gzip : ∀ text, zlib.gunzip (zlib.gzip text) = some text
  gunzip_cut : ∀ text count, count < (zlib.gzip text).length →
    zlib.gunzip ((zlib.gzip text).take count) = none

structure Payload where
  value : JsonValue
  canonical : value.Canonical

/-- The name of a part, one path segment. -/
structure PartName where
  name : String
  noSlash : '/' ∉ name.toList
  deriving DecidableEq

def rawBlockPart : PartName := ⟨"block",by decide⟩

def PartName.fileName (part : PartName) : String := part.name ++ ".json.gz"

abbrev Objects := String → Option (List UInt8)

/-- What `code`, `name` and `$metadata.httpStatusCode` of an error are. -/
structure RequestError where
  code : String
  name : String
  httpStatusCode : Nat
  deriving DecidableEq,Repr

inductive ReadFate where
  | served
  | failed (error : RequestError)
  deriving DecidableEq,Repr

def isFileNotFoundError (error : RequestError) : Bool := error.code = "ENOENT"

def isS3NotFoundError (error : RequestError) : Bool :=
  error.name = "NoSuchKey" || error.name = "NotFound" || error.httpStatusCode = 404

section
variable (zlib : Zlib)

def encodeJsonGzip (payload : Payload) : List UInt8 :=
  zlib.gzip (String.ofList payload.value.stringify)

def decodeJsonGzip (payload : List UInt8) : Option Payload :=
  (zlib.gunzip payload).bind fun text =>
    match h : JsonValue.parse text.toList with
    | some value => some ⟨value,JsonValue.parse_canonical h⟩
    | none => none

namespace FileRawBlockStorageAdapter

def filePath (basePath : String) (blockHeight : Nat) (part : PartName) : String :=
  String.ofList (PosixPath.join
    [basePath.toList,(toString blockHeight).toList,part.fileName.toList])

def readFailed (filePath : String) : String :=
  "raw block storage file read failed path=" ++ filePath

def readFile (files : Objects) (filePath : String) : ReadFate → Except RequestError (List UInt8)
  | .served =>
    match files filePath with
    | some payload => .ok payload
    | none => .error ⟨"ENOENT","Error",0⟩
  | .failed error => .error error

def getPart (basePath : String) (files : Objects) (blockHeight : Nat) (part : PartName)
    (fate : ReadFate) : Except String (Option Payload) :=
  let path := filePath basePath blockHeight part
  match readFile files path fate with
  | .ok payload =>
    match decodeJsonGzip zlib payload with
    | some decoded => .ok (some decoded)
    | none => .error (readFailed path)
  | .error error => if isFileNotFoundError error then .ok none else .error (readFailed path)

/-- `writeFile` empties the file before it writes to it. -/
def putPart (basePath : String) (files : Objects) (blockHeight : Nat) (part : PartName)
    (payload : Payload) (fate : WriteFate) : Objects :=
  let path := filePath basePath blockHeight part
  Function.update files path (leave false (encodeJsonGzip zlib payload) fate (files path))

end FileRawBlockStorageAdapter

namespace S3RawBlockStorageAdapter

/-- `filter(Boolean)` drops an empty prefix, and the height 0. -/
def storageKey (keyPrefix : String) (blockHeight : Nat) (part : PartName) : String :=
  String.ofList (['/'].intercalate
    ([keyPrefix.toList,if blockHeight = 0 then [] else (toString blockHeight).toList,
      part.fileName.toList].filter (!·.isEmpty)))

def getFailed (key : String) : String := "raw block storage S3 get failed key=" ++ key

def getObjectBody (objects : Objects) (key : String) : ReadFate → Except RequestError (List UInt8)
  | .served =>
    match objects key with
    | some body => .ok body
    | none => .error ⟨"NoSuchKey","NoSuchKey",404⟩
  | .failed error => .error error

def getPart (keyPrefix : String) (objects : Objects) (blockHeight : Nat) (part : PartName)
    (fate : ReadFate) : Except String (Option Payload) :=
  let key := storageKey keyPrefix blockHeight part
  match getObjectBody objects key fate with
  | .ok body =>
    match decodeJsonGzip zlib body with
    | some decoded => .ok (some decoded)
    | none => .error (getFailed key)
  | .error error => if isS3NotFoundError error then .ok none else .error (getFailed key)

/-- An object appears as a whole or not at all. -/
def putPart (keyPrefix : String) (objects : Objects) (blockHeight : Nat) (part : PartName)
    (payload : Payload) (fate : WriteFate) : Objects :=
  let key := storageKey keyPrefix blockHeight part
  Function.update objects key (leave true (encodeJsonGzip zlib payload) fate (objects key))

end S3RawBlockStorageAdapter

end

/-- What `createRawBlockStorage` gives. -/
inductive RawBlockStorage where
  | file (basePath : String)
  | s3 (keyPrefix : String)
  deriving DecidableEq,Repr

namespace RawBlockStorage

def key : RawBlockStorage → Nat × PartName → String
  | .file basePath,(blockHeight,part) =>
    FileRawBlockStorageAdapter.filePath basePath blockHeight part
  | .s3 keyPrefix,(blockHeight,part) =>
    S3RawBlockStorageAdapter.storageKey keyPrefix blockHeight part

def readFailed (storage : RawBlockStorage) (blockHeight : Nat) (part : PartName) : String :=
  match storage with
  | .file _ => FileRawBlockStorageAdapter.readFailed (storage.key (blockHeight,part))
  | .s3 _ => S3RawBlockStorageAdapter.getFailed (storage.key (blockHeight,part))

def isNotFoundError : RawBlockStorage → RequestError → Bool
  | .file _ => isFileNotFoundError
  | .s3 _ => isS3NotFoundError

/-- Whether nothing is seen of a write that ends early. -/
def atomic : RawBlockStorage → Bool
  | .file _ => false
  | .s3 _ => true

variable (zlib : Zlib)

def getPart (storage : RawBlockStorage) : Objects → Nat → PartName → ReadFate →
    Except String (Option Payload) :=
  match storage with
  | .file basePath => FileRawBlockStorageAdapter.getPart zlib basePath
  | .s3 keyPrefix => S3RawBlockStorageAdapter.getPart zlib keyPrefix

def putPart (storage : RawBlockStorage) : Objects → Nat → PartName → Payload → WriteFate →
    Objects :=
  match storage with
  | .file basePath => FileRawBlockStorageAdapter.putPart zlib basePath
  | .s3 keyPrefix => S3RawBlockStorageAdapter.putPart zlib keyPrefix

end RawBlockStorage

theorem toList_height (n : Nat) : (toString n).toList = Nat.toDigits 10 n := by
  rw [Nat.toString_eq_repr,Nat.toList_repr]

theorem height_injective {m n : Nat} (h : (toString m).toList = (toString n).toList) : m = n := by
  rw [toList_height,toList_height] at h
  have hparsed := congrArg (fun digits => Nat.ofDigitChars 10 digits 0) h
  simpa using hparsed

theorem plain_height (n : Nat) : PosixPath.Plain (toString n).toList := by
  rw [toList_height]
  have hdigits : ∀ c ∈ Nat.toDigits 10 n, c.isDigit :=
    fun c hc => Nat.isDigit_of_mem_toDigits (by omega) (by omega) hc
  refine ⟨Nat.toDigits_ne_nil,fun h => ?_,fun h => ?_,fun h => ?_⟩
  · exact absurd (hdigits _ h) (by decide)
  · exact absurd (hdigits '.' (by simp [h])) (by decide)
  · exact absurd (hdigits '.' (by simp [h])) (by decide)

theorem toList_fileName (part : PartName) :
    part.fileName.toList = part.name.toList ++ ['.','j','s','o','n','.','g','z'] := by
  simp [PartName.fileName]

theorem plain_fileName (part : PartName) : PosixPath.Plain part.fileName.toList := by
  rw [toList_fileName]
  refine ⟨by simp,by simp [part.noSlash],fun h => ?_,fun h => ?_⟩ <;>
  · have hlength := congrArg List.length h
    simp at hlength

theorem fileName_injective {part part' : PartName}
    (h : part.fileName.toList = part'.fileName.toList) : part = part' := by
  rw [toList_fileName,toList_fileName,List.append_left_inj] at h
  obtain ⟨name,hname⟩ := part
  obtain ⟨name',hname'⟩ := part'
  obtain rfl : name = name' := String.toList_injective h
  rfl

/-- The key without the prefix. -/
def keyInPrefix (blockHeight : Nat) (part : PartName) : List Char :=
  if blockHeight = 0 then part.fileName.toList
  else (toString blockHeight).toList ++ '/'::part.fileName.toList

theorem toList_storageKey (keyPrefix : String) (blockHeight : Nat) (part : PartName) :
    (S3RawBlockStorageAdapter.storageKey keyPrefix blockHeight part).toList =
      (if keyPrefix.toList = [] then [] else keyPrefix.toList ++ ['/']) ++
        keyInPrefix blockHeight part := by
  have hfile := (plain_fileName part).ne_nil
  unfold S3RawBlockStorageAdapter.storageKey keyInPrefix
  rw [String.toList_ofList]
  by_cases hbare : keyPrefix.toList = [] <;> by_cases hzero : blockHeight = 0 <;>
    simp [hbare,hzero,hfile]

theorem keyInPrefix_injective {blockHeight blockHeight' : Nat} {part part' : PartName}
    (h : keyInPrefix blockHeight part = keyInPrefix blockHeight' part') :
    blockHeight = blockHeight' ∧ part = part' := by
  have hsegments (blockHeight : Nat) (part : PartName) :
      (keyInPrefix blockHeight part).splitOn '/' =
        if blockHeight = 0 then [part.fileName.toList]
        else [(toString blockHeight).toList,part.fileName.toList] := by
    unfold keyInPrefix
    split
    · exact List.splitOn_eq_singleton (plain_fileName part).noSlash
    · exact PosixPath.splitOn_file (plain_height blockHeight) (plain_fileName part)
  have hsplit := congrArg (List.splitOn '/') h
  rw [hsegments,hsegments] at hsplit
  split at hsplit <;> split at hsplit
  · subst_vars
    exact ⟨rfl,fileName_injective (by simpa using hsplit)⟩
  · simp at hsplit
  · simp at hsplit
  · simp only [List.cons.injEq,and_true] at hsplit
    exact ⟨height_injective hsplit.1,fileName_injective hsplit.2⟩

theorem key_injective (storage : RawBlockStorage) : Function.Injective storage.key := by
  rintro ⟨blockHeight,part⟩ ⟨blockHeight',part'⟩ h
  cases storage with
  | file basePath =>
    have hjoin := congrArg String.toList h
    simp only [RawBlockStorage.key,FileRawBlockStorageAdapter.filePath,
      String.toList_ofList] at hjoin
    obtain ⟨hheight,hpart⟩ := PosixPath.join_file_injective _ (plain_height _) (plain_fileName _)
      (plain_height _) (plain_fileName _) hjoin
    rw [height_injective hheight,fileName_injective hpart]
  | s3 keyPrefix =>
    have hkey := congrArg String.toList h
    simp only [RawBlockStorage.key,toList_storageKey] at hkey
    obtain ⟨hheight,hpart⟩ := keyInPrefix_injective (List.append_cancel_left hkey)
    rw [hheight,hpart]

variable {zlib : Zlib}

def codec (zlib : Zlib) : Codec Payload UInt8 := ⟨encodeJsonGzip zlib,decodeJsonGzip zlib⟩

theorem decodeJsonGzip_encode (h : zlib.Lawful) (payload : Payload) :
    decodeJsonGzip zlib (encodeJsonGzip zlib payload) = some payload := by
  obtain ⟨value,hcanonical⟩ := payload
  have hparsed := JsonValue.parse_stringify hcanonical
  unfold decodeJsonGzip encodeJsonGzip
  rw [h.gunzip_gzip,Option.bind_some]
  split
  · rename_i hvalue
    rw [String.toList_ofList,hparsed] at hvalue
    cases hvalue
    rfl
  · rename_i hvalue
    rw [String.toList_ofList,hparsed] at hvalue
    cases hvalue

theorem codec_lawful (h : zlib.Lawful) : (codec zlib).Lawful where
  decode_encode := decodeJsonGzip_encode h
  decode_cut payload count hcount := by
    simp only [codec,decodeJsonGzip,encodeJsonGzip] at hcount ⊢
    rw [h.gunzip_cut _ count hcount]
    rfl

abbrev StorageWrite := Write (Nat × PartName) Payload

namespace RawBlockStorage
variable (zlib : Zlib)

/-- The objects that a history of writes leaves in an empty store. -/
def after (storage : RawBlockStorage) (writes : List StorageWrite) : Objects :=
  writes.foldl
    (fun objects w => storage.putPart zlib objects w.key.1 w.key.2 w.value w.fate) (fun _ => none)

def readSlot (storage : RawBlockStorage) (blockHeight : Nat) (part : PartName) :
    Slot Payload → Except String (Option Payload)
  | .absent => .ok none
  | .holds payload => .ok (some payload)
  | .torn => .error (storage.readFailed blockHeight part)

/-- What is read where this was the last write that left something. -/
def answer (storage : RawBlockStorage) (blockHeight : Nat) (part : PartName) :
    Option StorageWrite → Except String (Option Payload)
  | none => .ok none
  | some w =>
    if w.isTorn (encodeJsonGzip zlib w.value).length then
      .error (storage.readFailed blockHeight part)
    else .ok (some w.value)

end RawBlockStorage

theorem after_eq_writes (storage : RawBlockStorage) (writes : List StorageWrite) :
    storage.after zlib writes =
      writes.foldl (Slots.write (codec zlib) storage.atomic storage.key) (fun _ => none) := by
  unfold RawBlockStorage.after
  congr 1
  funext objects w
  cases storage <;> rfl

theorem getPart_served (storage : RawBlockStorage) (objects : Objects) (blockHeight : Nat)
    (part : PartName) :
    storage.getPart zlib objects blockHeight part .served =
      storage.readSlot blockHeight part
        ((codec zlib).slot (objects (storage.key (blockHeight,part)))) := by
  cases storage with
  | file basePath =>
    simp only [RawBlockStorage.getPart,FileRawBlockStorageAdapter.getPart,
      FileRawBlockStorageAdapter.readFile,RawBlockStorage.key]
    cases objects (FileRawBlockStorageAdapter.filePath basePath blockHeight part) with
    | none => rfl
    | some payload =>
      cases hdecoded : decodeJsonGzip zlib payload <;>
        simp [Codec.slot,codec,hdecoded,RawBlockStorage.readSlot,RawBlockStorage.readFailed,
          RawBlockStorage.key]
  | s3 keyPrefix =>
    simp only [RawBlockStorage.getPart,S3RawBlockStorageAdapter.getPart,
      S3RawBlockStorageAdapter.getObjectBody,RawBlockStorage.key]
    cases objects (S3RawBlockStorageAdapter.storageKey keyPrefix blockHeight part) with
    | none => rfl
    | some body =>
      cases hdecoded : decodeJsonGzip zlib body <;>
        simp [Codec.slot,codec,hdecoded,RawBlockStorage.readSlot,RawBlockStorage.readFailed,
          RawBlockStorage.key]

theorem getPart_served_after (h : zlib.Lawful) (storage : RawBlockStorage)
    (writes : List StorageWrite)
    (blockHeight : Nat) (part : PartName) :
    storage.getPart zlib (storage.after zlib writes) blockHeight part .served =
      storage.answer zlib blockHeight part
        (lastWrite storage.atomic (blockHeight,part) writes) := by
  rw [getPart_served,after_eq_writes,slot_lastWrite (codec_lawful h) (key_injective storage)]
  cases lastWrite storage.atomic (blockHeight,part) writes with
  | none => rfl
  | some w =>
    rw [Option.elim_some,RawBlockStorage.answer]
    cases htorn : w.isTorn (encodeJsonGzip zlib w.value).length with
    | true =>
      have hslot : w.slot (fun value => ((codec zlib).encode value).length) = .torn := if_pos htorn
      rw [hslot]
      rfl
    | false =>
      have hslot : w.slot (fun value => ((codec zlib).encode value).length) = .holds w.value :=
        if_neg (Bool.eq_false_iff.mp htorn)
      rw [hslot]
      rfl

/-- Whatever is written to whichever parts, and however the writes end: a part is read as the last
write to it left it, as missing where none left anything, and never as another's. A request that
fails gives no part. -/
theorem reads_last_write (h : zlib.Lawful) (storage : RawBlockStorage)
    (writes : List StorageWrite) (blockHeight : Nat) (part : PartName) :
    storage.getPart zlib (storage.after zlib writes) blockHeight part .served =
        storage.answer zlib blockHeight part
          (lastWrite storage.atomic (blockHeight,part) writes) ∧
      ∀ error, storage.getPart zlib (storage.after zlib writes) blockHeight part (.failed error) =
        if storage.isNotFoundError error then .ok none
        else .error (storage.readFailed blockHeight part) := by
  refine ⟨getPart_served_after h storage writes blockHeight part,fun error => ?_⟩
  cases storage <;> rfl

/-! Two snapshots as zlib packs them; any other text is packed by three bytes for each character. -/

def heightPayload (height : Nat) : Payload where
  value := .object [("height",.number (.ofInt height))]
  canonical := by
    have hindex : JsonValue.arrayIndex "height" = none := by decide
    refine .object ?_ (by simpa using .number _)
    rw [JsonValue.ofMembers,OrderedMap.entries_ofEntries (by simp)]
    simp [JsonValue.arrange,JsonValue.isIndexMember,hindex]

def heightText (height : Nat) : String := String.ofList (heightPayload height).value.stringify

def packed0 : List UInt8 := [31,139,8,0,0,0,0,0,0,3,171,86,202,72,205,76,207,40,81,178,50,168,
  5,0,174,
  107,76,159,12,0,0,0]

def packed7 : List UInt8 := [31,139,8,0,0,0,0,0,0,3,171,86,202,72,205,76,207,40,81,178,50,175,
  5,0,105,
  253,13,208,12,0,0,0]

def spell : List Char → List UInt8
  | [] => [2]
  | c::cs =>
    1::.ofNat (c.toNat % 256)::.ofNat (c.toNat / 256 % 256)::.ofNat (c.toNat / 65536)::spell cs

def unspell : List UInt8 → Option (List Char)
  | [2] => some []
  | 1::low::middle::high::rest =>
    (unspell rest).map
      (Char.ofNat (low.toNat + 256 * middle.toNat + 65536 * high.toNat)::·)
  | _ => none

theorem unspell_spell (cs : List Char) : unspell (spell cs) = some cs := by
  induction cs with
  | nil => rfl
  | cons c cs ih =>
    have hlt : c.toNat < 16777216 := by
      have hvalid := c.valid
      have hval : c.toNat = c.val.toNat := rfl
      rcases hvalid with h | h <;> simp only [UInt32.toNat] at * <;> omega
    have hsum : c.toNat % 256 % 256 + 256 * (c.toNat / 256 % 256 % 256) +
        65536 * (c.toNat / 65536 % 256) = c.toNat := by omega
    simp only [spell,unspell,ih,Option.map_some,UInt8.toNat_ofNat']
    rw [hsum,Char.ofNat_toNat]

theorem unspell_cut (cs : List Char) (count : Nat) (h : count < (spell cs).length) :
    unspell ((spell cs).take count) = none := by
  induction cs generalizing count with
  | nil =>
    obtain rfl : count = 0 := by simpa [spell] using h
    rfl
  | cons c cs ih =>
    match count with
    | 0 | 1 | 2 | 3 => rfl
    | count + 4 =>
      have hrest := ih count (by simpa [spell] using h)
      simp [spell,unspell,hrest]

def sampleZlib : Zlib where
  gzip text :=
    if text = heightText 0 then packed0
    else if text = heightText 7 then packed7
    else 0::spell text.toList
  gunzip payload :=
    if payload = packed0 then some (heightText 0)
    else if payload = packed7 then some (heightText 7)
    else match payload with
      | 0::rest => (unspell rest).map String.ofList
      | _ => none

theorem gzip_cases (text : String) : sampleZlib.gzip text = packed0 ∨
    sampleZlib.gzip text = packed7 ∨ sampleZlib.gzip text = 0::spell text.toList := by
  simp only [sampleZlib]
  split
  · exact Or.inl rfl
  split
  · exact Or.inr (Or.inl rfl)
  · exact Or.inr (Or.inr rfl)

theorem sampleZlib_lawful : sampleZlib.Lawful where
  gunzip_gzip text := by
    simp only [sampleZlib]
    split
    · subst_vars
      rfl
    split
    · subst_vars
      rfl
    · simp [packed0,packed7,unspell_spell]
  gunzip_cut text count h := by
    rcases gzip_cases text with hpacked | hpacked | hpacked <;> rw [hpacked] at h ⊢
    · have hcut : ∀ count < 32, sampleZlib.gunzip (packed0.take count) = none := by decide +kernel
      exact hcut count h
    · have hcut : ∀ count < 32, sampleZlib.gunzip (packed7.take count) = none := by decide +kernel
      exact hcut count h
    · cases count with
      | zero => rfl
      | succ count =>
        have hrest := unspell_cut text.toList count (by simpa using h)
        simp [sampleZlib,packed0,packed7,hrest]

def sampleWrites : List StorageWrite :=
  [⟨(0,rawBlockPart),heightPayload 0,.done⟩,⟨(7,rawBlockPart),heightPayload 7,.lost⟩,
    ⟨(7,rawBlockPart),heightPayload 7,.cut 10⟩,⟨(0,rawBlockPart),heightPayload 0,.refused⟩]

/-- The second write of height 7 ends early: the file is torn, the object is the first one's. -/
theorem reads_last_write_of_torn :
    (RawBlockStorage.file "/data/raw").getPart sampleZlib
        ((RawBlockStorage.file "/data/raw").after sampleZlib sampleWrites) 0 rawBlockPart .served =
        .ok (some (heightPayload 0)) ∧
      (RawBlockStorage.file "/data/raw").getPart sampleZlib
        ((RawBlockStorage.file "/data/raw").after sampleZlib sampleWrites) 7 rawBlockPart .served =
        .error "raw block storage file read failed path=/data/raw/7/block.json.gz" ∧
      (RawBlockStorage.s3 "raw").getPart sampleZlib
        ((RawBlockStorage.s3 "raw").after sampleZlib sampleWrites) 7 rawBlockPart .served =
        .ok (some (heightPayload 7)) := by
  have hread (storage : RawBlockStorage) (blockHeight : Nat) :=
    (reads_last_write sampleZlib_lawful storage sampleWrites blockHeight rawBlockPart).1
  refine ⟨(hread _ 0).trans ?_,(hread _ 7).trans ?_,(hread _ 7).trans ?_⟩
  · rfl
  · rfl
  · rfl

end Storage

end OnlyDoge
