import OnlyDoge.Indexer.Service
import OnlyDoge.Library.IsoTime
import OnlyDoge.Library.JsonRoundTrip
import OnlyDoge.Metadata.ConfigRows
import OnlyDoge.Warehouse.ProcessedBlocks
set_option autoImplicit false

/-!
The recovery marker as the text of its row (`core-apply-recovery.ts`): what a created marker is
written as, how it is read and checked, and which row a delete takes away.
-/

namespace OnlyDoge.CoreIndexer.RecoveryText
open JsonValue

structure CoreApplyRecoveryMarkerV1 where
  instanceId : String
  startHeight : Int
  endHeight : Int
  blockHashes : List String
  updateCurrentState : Bool
  startedAt : String
  deriving DecidableEq,Repr

/-- The properties in the order in which both constructors set them. -/
def CoreApplyRecoveryMarkerV1.toJson (marker : CoreApplyRecoveryMarkerV1) : JsonValue :=
  .object [("version",.number (.ofInt 1)),
    ("instanceId",.string marker.instanceId),
    ("startHeight",.number (.ofInt marker.startHeight)),
    ("endHeight",.number (.ofInt marker.endHeight)),
    ("blockHashes",.array (marker.blockHashes.map .string)),
    ("updateCurrentState",.bool marker.updateCurrentState),
    ("startedAt",.string marker.startedAt)]

mutual
/-- `String(value)` -/
def jsString : JsonValue → String
  | .null => "null"
  | .bool value => if value then "true" else "false"
  | .number value => String.ofList value.print
  | .string value => value
  | .array [] => ""
  | .array (item::items) => joined item ++ jsStrings items
  | .object _ => "[object Object]"

/-- An item in the text of its array. -/
def joined : JsonValue → String
  | .null => ""
  | .bool value => if value then "true" else "false"
  | .number value => String.ofList value.print
  | .string value => value
  | .array [] => ""
  | .array (item::items) => joined item ++ jsStrings items
  | .object _ => "[object Object]"

def jsStrings : List JsonValue → String
  | [] => ""
  | item::items => "," ++ joined item ++ jsStrings items
end

/-- A property that is missing is `undefined`. -/
def propertyText : Option JsonValue → String
  | none => "undefined"
  | some value => jsString value

/-- `Boolean(value) && typeof value === 'object'`; an array is one. -/
def isRecord : JsonValue → Bool
  | .array _ | .object _ => true
  | _ => false

def fieldError (field kind : String) : String :=
  "core apply recovery marker field " ++ field ++ " must be " ++ kind

def requireString (value : Option JsonValue) (field : String) : Except String String :=
  match value with
  | some (.string text) =>
    if isBlank text then .error (fieldError field "a non-empty string") else .ok text
  | _ => .error (fieldError field "a non-empty string")

def requireInteger (value : Option JsonValue) (field : String) : Except String Int :=
  match value with
  | some (.number x) =>
    match x.toInt with
    | some n => .ok n
    | none => .error (fieldError field "an integer")
  | _ => .error (fieldError field "an integer")

def requireBoolean (value : Option JsonValue) (field : String) : Except String Bool :=
  match value with
  | some (.bool value) => .ok value
  | _ => .error (fieldError field "a boolean")

def stringItem : JsonValue → Option String
  | .string text => some text
  | _ => none

def requireStringArray (value : Option JsonValue) (field : String) : Except String (List String) :=
  match value with
  | some (.array items) =>
    match items.mapM stringItem with
    | some texts => .ok texts
    | none => .error (fieldError field "a string array")
  | _ => .error (fieldError field "a string array")

def isVersionOne : Option JsonValue → Bool
  | some (.number x) => x = .ofInt 1
  | _ => false

def parseCoreApplyRecoveryMarker (value : JsonValue) : Except String CoreApplyRecoveryMarkerV1 :=
  if isRecord value = false then .error "core apply recovery marker must be an object"
  else if isVersionOne (value.get "version") = false then
    .error ("unsupported core apply recovery marker version: " ++
      propertyText (value.get "version"))
  else do
    let instanceId ← requireString (value.get "instanceId") "instanceId"
    let startHeight ← requireInteger (value.get "startHeight") "startHeight"
    let endHeight ← requireInteger (value.get "endHeight") "endHeight"
    let blockHashes ← requireStringArray (value.get "blockHashes") "blockHashes"
    let updateCurrentState ← requireBoolean (value.get "updateCurrentState") "updateCurrentState"
    let startedAt ← requireString (value.get "startedAt") "startedAt"
    if startHeight < 0 ∨ endHeight < startHeight then
      .error "core apply recovery marker has invalid height bounds"
    else
      return ⟨instanceId,startHeight,endHeight,blockHashes,updateCurrentState,startedAt⟩

/-- `new Date()` past the last time with a text throws before a marker is written. -/
def createCoreApplyRecoveryMarker (instanceId : String) (nowMs : Int)
    (first last : CoreDogecoinBlockApplication) (applications : List CoreDogecoinBlockApplication)
    (updateCurrentState : Bool) : Option CoreApplyRecoveryMarkerV1 :=
  (IsoTime.toISOString nowMs).map fun startedAt =>
    ⟨instanceId,first.blockHeight,last.blockHeight,applications.map (·.blockHash),
      updateCurrentState,startedAt⟩

/-- The marker that `applyWindowApplicationsWithRecovery` writes ahead of a window. -/
def windowMarker (instanceId : String) (nowMs : Int)
    (applications : List CoreDogecoinBlockApplication) (updateCurrentState : Bool) :
    Option CoreApplyRecoveryMarkerV1 :=
  match applications.head? with
  | none => none
  | some first =>
    createCoreApplyRecoveryMarker instanceId nowMs first (applications.getLast?.getD first)
      applications updateCurrentState

/-- The row that `clearCoreApplyRecoveryMarker` leaves, or what it throws. -/
def clearCoreApplyRecoveryMarker (marker : CoreApplyRecoveryMarkerV1) (row : ConfigRow.Row) :
    Except String Unit × ConfigRow.Row :=
  let (cleared,row) := ConfigRow.compareAndDeleteJsonValue marker.toJson row
  if cleared then (.ok (),row)
  else (.error ("core apply recovery marker changed during apply instance=" ++
    marker.instanceId ++ " window=" ++ toString marker.startHeight ++ "-" ++
    toString marker.endHeight),row)

/-- `recover` is the recovery of the window, with the row as it stands afterwards. -/
def recoverPendingCoreApplyIfNeeded (chain : String)
    (recover : CoreApplyRecoveryMarkerV1 → ConfigRow.Row → Except String Unit × ConfigRow.Row)
    (row : ConfigRow.Row) : Except String Unit × ConfigRow.Row :=
  let rawMarker := ConfigRow.getJsonValue row
  if !ConfigRow.truthy rawMarker then (.ok (),row)
  else
    match parseCoreApplyRecoveryMarker rawMarker with
    | .error message => (.error message,row)
    | .ok marker =>
      match recover marker row with
      | (.error message,row) => (.error message,row)
      | (.ok (),row) =>
        let (cleared,row) := ConfigRow.compareAndDeleteJsonValue marker.toJson row
        if cleared then (.ok (),row)
        else (.error ("core apply recovery marker changed during recovery chain=" ++ chain ++
          " window=" ++ toString marker.startHeight ++ "-" ++ toString marker.endHeight),row)

variable {marker other : CoreApplyRecoveryMarkerV1}

theorem toJson_canonical (marker : CoreApplyRecoveryMarkerV1) : Canonical marker.toJson := by
  refine .object ?_ ?_
  · have hkeys : ∀ key ∈ ["version","instanceId","startHeight","endHeight","blockHashes",
        "updateCurrentState","startedAt"], arrayIndex key = none := by
      decide
    rw [ofMembers,OrderedMap.entries_ofEntries (by simp)]
    simp only [List.mem_cons,List.not_mem_nil,or_false,forall_eq_or_imp,forall_eq] at hkeys
    simp [arrange,isIndexMember,hkeys]
  · have hitems : Canonical (.array (marker.blockHashes.map .string)) := by
      refine .array fun item hitem => ?_
      obtain ⟨hash,-,rfl⟩ := List.mem_map.mp hitem
      exact .string hash
    simp [Canonical.number,Canonical.string,Canonical.bool,hitems]

theorem toJson_injective (h : marker.toJson = other.toJson) : marker = other := by
  have hhashes (xs ys : List String) (h : xs.map JsonValue.string = ys.map JsonValue.string) :
      xs = ys :=
    List.map_injective_iff.mpr (fun _ _ h => by cases h; rfl) h
  obtain ⟨instanceId,startHeight,endHeight,blockHashes,updateCurrentState,startedAt⟩ := marker
  obtain ⟨instanceId',startHeight',endHeight',blockHashes',updateCurrentState',startedAt'⟩ := other
  simp only [CoreApplyRecoveryMarkerV1.toJson,JsonValue.object.injEq,List.cons.injEq,
    Prod.mk.injEq,JsonValue.string.injEq,JsonValue.number.injEq,JsonValue.array.injEq,
    JsonValue.bool.injEq,JsonValue.Number.ofInt,JsonValue.Number.mk.injEq,true_and,and_true] at h
  obtain ⟨rfl,rfl,rfl,hblocks,rfl,rfl⟩ := h
  rw [hhashes _ _ hblocks]

theorem mapM_stringItem (texts : List String) :
    (texts.map JsonValue.string).mapM stringItem = some texts := by
  induction texts with
  | nil => rfl
  | cons text texts ih => simp [stringItem,ih]

/-- What the checks ask of a marker. -/
structure Valid (marker : CoreApplyRecoveryMarkerV1) : Prop where
  instanceId : isBlank marker.instanceId = false
  startedAt : isBlank marker.startedAt = false
  start : 0 ≤ marker.startHeight
  bounds : marker.startHeight ≤ marker.endHeight

theorem parse_toJson (marker : CoreApplyRecoveryMarkerV1) :
    parseCoreApplyRecoveryMarker marker.toJson =
      if isBlank marker.instanceId then .error (fieldError "instanceId" "a non-empty string")
      else if isBlank marker.startedAt then .error (fieldError "startedAt" "a non-empty string")
      else if marker.startHeight < 0 ∨ marker.endHeight < marker.startHeight then
        .error "core apply recovery marker has invalid height bounds"
      else .ok marker := by
  have hversion : isVersionOne (marker.toJson.get "version") = true := rfl
  have hinstance : marker.toJson.get "instanceId" = some (.string marker.instanceId) := rfl
  have hstart : marker.toJson.get "startHeight" =
    some (.number (.ofInt marker.startHeight)) := rfl
  have hend : marker.toJson.get "endHeight" = some (.number (.ofInt marker.endHeight)) := rfl
  have hhashes : marker.toJson.get "blockHashes" =
    some (.array (marker.blockHashes.map .string)) := rfl
  have hcurrent : marker.toJson.get "updateCurrentState" =
    some (.bool marker.updateCurrentState) := rfl
  have hstarted : marker.toJson.get "startedAt" = some (.string marker.startedAt) := rfl
  have hrecord : isRecord marker.toJson = true := rfl
  unfold parseCoreApplyRecoveryMarker
  rw [hversion,hinstance,hstart,hend,hhashes,hcurrent,hstarted,hrecord]
  simp only [requireString,requireInteger,requireStringArray,requireBoolean,mapM_stringItem,
    JsonValue.Number.toInt_ofInt]
  cases hblank : isBlank marker.instanceId with
  | true => rfl
  | false =>
    cases hstartedAt : isBlank marker.startedAt with
    | true => rfl
    | false => rfl

theorem Valid.parse_toJson (h : Valid marker) :
    parseCoreApplyRecoveryMarker marker.toJson = .ok marker := by
  have hstart := h.start
  have hbounds := h.bounds
  rw [RecoveryText.parse_toJson,h.instanceId,h.startedAt,if_neg (by simp),if_neg (by simp),
    if_neg (by omega)]

theorem getJsonValue_marker (marker : CoreApplyRecoveryMarkerV1) :
    ConfigRow.getJsonValue (ConfigRow.setJsonValue marker.toJson) = marker.toJson := by
  simp [ConfigRow.getJsonValue,ConfigRow.setJsonValue,parse_stringify (toJson_canonical marker)]

theorem compareAndDelete_marker (marker other : CoreApplyRecoveryMarkerV1) :
    ConfigRow.compareAndDeleteJsonValue marker.toJson (ConfigRow.setJsonValue other.toJson) =
      if other = marker then (true,none) else (false,ConfigRow.setJsonValue other.toJson) := by
  unfold ConfigRow.compareAndDeleteJsonValue ConfigRow.setJsonValue
  by_cases h : other = marker
  · simp [h]
  · have htext : some (stringify other.toJson) ≠ some (stringify marker.toJson) := by
      intro heq
      exact h (toJson_injective (stringify_injective (toJson_canonical _) (toJson_canonical _)
        (Option.some.inj heq)))
    rw [if_neg htext,if_neg h]

theorem isBlank_of_mem {text : String} {c : Char} (h : c ∈ text.toList)
    (hc : isTrimmed c = false) : isBlank text = false := by
  refine Bool.eq_false_iff.mpr fun hall => ?_
  have := List.all_eq_true.mp hall c h
  rw [hc] at this
  cases this

theorem contiguousFrom_last {start : Nat} {first : CoreDogecoinBlockApplication}
    {rest : List CoreDogecoinBlockApplication} (h : ContiguousFrom start (first::rest)) :
    first.blockHeight ≤ (((first::rest).getLast?).getD first).blockHeight := by
  have hlast : (first::rest).getLast? = some ((first::rest).getLast (by simp)) :=
    List.getLast?_eq_some_getLast _
  have hmem : ((first::rest).getLast (by simp)).blockHeight ∈
      List.range' start (first::rest).length := by
    rw [← h]
    exact List.mem_map_of_mem (List.getLast_mem _)
  have hfirst : first.blockHeight = start := by
    simp only [ContiguousFrom,List.map_cons,List.length_cons,List.range'_succ,
      List.cons.injEq] at h
    exact h.1
  rw [hlast,Option.getD_some,hfirst]
  exact (List.mem_range'_1.mp hmem).1

theorem windowMarker_valid {instanceId : String} {nowMs : Int} {start : Nat}
    {applications : List CoreDogecoinBlockApplication} {updateCurrentState : Bool}
    (hinstance : isBlank instanceId = false) (hwindow : ContiguousFrom start applications)
    (h : windowMarker instanceId nowMs applications updateCurrentState = some marker) :
    Valid marker := by
  cases applications with
  | nil => cases h
  | cons first rest =>
    obtain ⟨startedAt,htime,rfl⟩ := Option.map_eq_some_iff.mp h
    refine ⟨hinstance,isBlank_of_mem (IsoTime.mem_toISOString htime) (by decide),?_,?_⟩
    · exact Int.natCast_nonneg _
    · exact Int.ofNat_le.mpr (contiguousFrom_last hwindow)

/-- The marker of the indexer's state, with the time of its window as text. -/
def ofMarker (marker : CoreApplyRecoveryMarker) : Option CoreApplyRecoveryMarkerV1 :=
  (IsoTime.toISOString marker.startedAt).map fun startedAt =>
    ⟨marker.instanceId,marker.startHeight,marker.endHeight,marker.blockHashes,
      marker.updateCurrentState,startedAt⟩

def messageOf : Except CoreError CoreApplyRecoveryMarker → Except CoreError Unit
  | .ok _ => .ok ()
  | .error e => .error e

def messageOfText : Except String CoreApplyRecoveryMarkerV1 → Except CoreError Unit
  | .ok _ => .ok ()
  | .error message => .error (.error message)

theorem parse_ofMarker {typed : CoreApplyRecoveryMarker} (h : ofMarker typed = some marker) :
    messageOfText (parseCoreApplyRecoveryMarker marker.toJson) =
      messageOf (CoreIndexer.parseCoreApplyRecoveryMarker typed) := by
  obtain ⟨startedAt,htime,rfl⟩ := Option.map_eq_some_iff.mp h
  have hstartedAt := isBlank_of_mem (IsoTime.mem_toISOString htime) (by decide)
  have hbounds : ((typed.startHeight : Int) < 0 ∨ (typed.endHeight : Int) < typed.startHeight) ↔
      typed.endHeight < typed.startHeight := by omega
  rw [parse_toJson,CoreIndexer.parseCoreApplyRecoveryMarker]
  simp only [hstartedAt,hbounds]
  by_cases hblank : isBlank typed.instanceId = true
  · simp only [hblank,if_true]
    rfl
  · by_cases hheights : typed.endHeight < typed.startHeight
    · simp only [hblank,hheights,if_true]
      rfl
    · simp only [hblank,hheights,if_false]
      rfl

theorem clear_marker (marker other : CoreApplyRecoveryMarkerV1) :
    (other = marker →
      clearCoreApplyRecoveryMarker marker (ConfigRow.setJsonValue other.toJson) = (.ok (),none)) ∧
    (other ≠ marker → ∃ message,
      clearCoreApplyRecoveryMarker marker (ConfigRow.setJsonValue other.toJson) =
        (.error message,ConfigRow.setJsonValue other.toJson)) := by
  unfold clearCoreApplyRecoveryMarker
  rw [compareAndDelete_marker]
  refine ⟨fun h => ?_,fun h => ?_⟩
  · rw [if_pos h]
    rfl
  · rw [if_neg h]
    exact ⟨_,rfl⟩

theorem recover_marker (chain : String) {recover : CoreApplyRecoveryMarkerV1 → ConfigRow.Row →
      Except String Unit × ConfigRow.Row} (h : Valid marker)
    (hrecover : recover marker (ConfigRow.setJsonValue marker.toJson) =
      (.ok (),ConfigRow.setJsonValue other.toJson)) :
    (other = marker →
      recoverPendingCoreApplyIfNeeded chain recover (ConfigRow.setJsonValue marker.toJson) =
        (.ok (),none)) ∧
    (other ≠ marker → ∃ message,
      recoverPendingCoreApplyIfNeeded chain recover (ConfigRow.setJsonValue marker.toJson) =
        (.error message,ConfigRow.setJsonValue other.toJson)) := by
  have htruthy : ConfigRow.truthy marker.toJson = true := rfl
  unfold recoverPendingCoreApplyIfNeeded
  simp only [getJsonValue_marker,htruthy,h.parse_toJson,Bool.not_true,Bool.false_eq_true,if_false,
    hrecover,compareAndDelete_marker]
  refine ⟨fun heq => ?_,fun hne => ?_⟩
  · rw [if_pos heq]
    rfl
  · rw [if_neg hne]
    exact ⟨_,rfl⟩

/-- The marker of a window is read back with the text of its row, so the run that wrote it and a
later one clear it as long as nobody has changed it, and leave a changed one. -/
theorem window_marker_clears {instanceId chain : String} {nowMs : Int} {start : Nat}
    {applications : List CoreDogecoinBlockApplication} {updateCurrentState : Bool}
    (hinstance : isBlank instanceId = false) (hwindow : ContiguousFrom start applications)
    (hmarker : windowMarker instanceId nowMs applications updateCurrentState = some marker) :
    (∃ parsed,
      parseCoreApplyRecoveryMarker
        (ConfigRow.getJsonValue (ConfigRow.setJsonValue marker.toJson)) = .ok parsed ∧
      ConfigRow.setJsonValue marker.toJson = some (stringify parsed.toJson) ∧
      ∀ other : CoreApplyRecoveryMarkerV1,
        ConfigRow.compareAndDeleteJsonValue parsed.toJson (ConfigRow.setJsonValue other.toJson) =
          if other = marker then (true,none)
          else (false,ConfigRow.setJsonValue other.toJson)) ∧
    ∀ other : CoreApplyRecoveryMarkerV1,
      ((other = marker →
          clearCoreApplyRecoveryMarker marker (ConfigRow.setJsonValue other.toJson) =
            (.ok (),none)) ∧
        (other ≠ marker → ∃ message,
          clearCoreApplyRecoveryMarker marker (ConfigRow.setJsonValue other.toJson) =
            (.error message,ConfigRow.setJsonValue other.toJson))) ∧
      ∀ recover, recover marker (ConfigRow.setJsonValue marker.toJson) =
          (.ok (),ConfigRow.setJsonValue other.toJson) →
        (other = marker →
          recoverPendingCoreApplyIfNeeded chain recover (ConfigRow.setJsonValue marker.toJson) =
            (.ok (),none)) ∧
        (other ≠ marker → ∃ message,
          recoverPendingCoreApplyIfNeeded chain recover (ConfigRow.setJsonValue marker.toJson) =
            (.error message,ConfigRow.setJsonValue other.toJson)) := by
  have hvalid := windowMarker_valid hinstance hwindow hmarker
  refine ⟨⟨marker,?_,rfl,compareAndDelete_marker marker⟩,fun other =>
    ⟨clear_marker marker other,fun recover hrecover => recover_marker chain hvalid hrecover⟩⟩
  rw [getJsonValue_marker]
  exact hvalid.parse_toJson

def sampleWindow : List CoreDogecoinBlockApplication :=
  [⟨7,"00aa",none,0,0,[],[]⟩,⟨8,"00\"b",none,0,0,[],[]⟩]

theorem window_marker_clears_two_blocks :
    ∃ marker, windowMarker "indexer-1" 0 sampleWindow true = some marker ∧
      clearCoreApplyRecoveryMarker marker (ConfigRow.setJsonValue marker.toJson) =
        (.ok (),none) := by
  refine ⟨⟨"indexer-1",7,8,["00aa","00\"b"],true,"1970-01-01T00:00:00.000Z"⟩,
    by decide +kernel,?_⟩
  exact ((@window_marker_clears _ "indexer-1" "dogecoin" 0 7 sampleWindow true (by decide)
    (by decide) (by decide +kernel)).2 _).1.1 rfl

end OnlyDoge.CoreIndexer.RecoveryText
