import OnlyDoge.Warehouse.Materialization
import Mathlib.Algebra.Ring.Nat
set_option autoImplicit false

/-! The chunks in which a list of values goes into ClickHouse queries (`warehouse-query.ts`). -/

namespace OnlyDoge

structure ClickHouseQueryLimits where
  maxBytes : Nat
  maxValues : Nat
  deriving DecidableEq,Repr

structure QueryChunkOptions where
  maxBytes : Option Nat
  maxValues : Option Nat
  deriving DecidableEq,Repr

def maxClickHouseQueryValuesPerChunk : Nat := 256

def maxClickHouseQueryValueBytesPerChunk : Nat := 12000

def optionalMaxBytes (options : Option QueryChunkOptions) : Option Nat :=
  options.bind (·.maxBytes)

def optionalMaxValues (options : Option QueryChunkOptions) : Option Nat :=
  options.bind (·.maxValues)

def clickHouseQueryLimits (options : Option QueryChunkOptions) : ClickHouseQueryLimits where
  maxBytes := (optionalMaxBytes options).getD maxClickHouseQueryValueBytesPerChunk
  maxValues := (optionalMaxValues options).getD maxClickHouseQueryValuesPerChunk

/-- `length` of a JavaScript string. -/
def codeUnitLength (text : String) : Nat := (text.toList.flatMap utf16Units).length

section Chunks
-- `String(value)`
variable {α : Type} (text : α → String)

def valueBytes (value : α) : Nat := codeUnitLength (text value) + 3

/-- The variables of the loop. -/
structure ChunkScan (α : Type) where
  chunks : List (List α)
  currentChunk : List α
  currentBytes : Nat
  deriving DecidableEq,Repr

def shouldStartNextClickHouseChunk (chunk : List α) (chunkBytes valueBytes : Nat)
    (limits : ClickHouseQueryLimits) : Bool :=
  if chunk.length = 0 then false
  else [decide (limits.maxValues ≤ chunk.length),
    decide (limits.maxBytes < chunkBytes + valueBytes)].any id

/-- The open chunk and its size for the next value, and the chunk that is closed before it. -/
def nextClickHouseChunk (currentChunk : List α) (currentBytes valueBytes : Nat)
    (limits : ClickHouseQueryLimits) : List α × Nat × Option (List α) :=
  if shouldStartNextClickHouseChunk currentChunk currentBytes valueBytes limits then
    ([],0,some currentChunk)
  else (currentChunk,currentBytes,none)

def appendChunkIfStarted (chunks : List (List α)) (chunk : Option (List α)) : List (List α) :=
  chunks ++ chunk.toList

def appendNonEmptyChunk (chunks : List (List α)) (chunk : List α) : List (List α) :=
  if chunk.length > 0 then chunks ++ [chunk] else chunks

/-- One pass of the loop. -/
def chunkValue (limits : ClickHouseQueryLimits) (scan : ChunkScan α) (value : α) : ChunkScan α :=
  let bytes := valueBytes text value
  let nextChunk := nextClickHouseChunk scan.currentChunk scan.currentBytes bytes limits
  { chunks := appendChunkIfStarted scan.chunks nextChunk.2.2
    currentChunk := nextChunk.1 ++ [value]
    currentBytes := nextChunk.2.1 + bytes }

def chunkQueryValues (values : List α) (options : Option QueryChunkOptions) : List (List α) :=
  let scan := values.foldl (chunkValue text (clickHouseQueryLimits options)) ⟨[],[],0⟩
  appendNonEmptyChunk scan.chunks scan.currentChunk

def chargedBytes (chunk : List α) : Nat := (chunk.map (valueBytes text)).sum

/-- What one query may hold: a value over the byte limit goes alone. -/
structure FitsQuery (limits : ClickHouseQueryLimits) (chunk : List α) : Prop where
  nonempty : chunk ≠ []
  values : chunk.length ≤ limits.maxValues
  bytes : 1 < chunk.length → chargedBytes text chunk ≤ limits.maxBytes

/-- The loop after the values `seen`: the closed chunks and the open one are cut from `seen`. -/
structure Chunked (limits : ClickHouseQueryLimits) (seen : List α) (scan : ChunkScan α) : Prop where
  values : scan.chunks.flatten ++ scan.currentChunk = seen
  size : scan.currentBytes = chargedBytes text scan.currentChunk
  closed : ∀ chunk ∈ scan.chunks, FitsQuery text limits chunk
  opened : scan.currentChunk ≠ [] → FitsQuery text limits scan.currentChunk

variable {text} {limits : ClickHouseQueryLimits} {seen : List α} {scan : ChunkScan α}

@[simp] theorem chargedBytes_append (left right : List α) :
    chargedBytes text (left ++ right) = chargedBytes text left + chargedBytes text right := by
  simp [chargedBytes]

@[simp] theorem chargedBytes_singleton (value : α) :
    chargedBytes text [value] = valueBytes text value := by
  simp [chargedBytes]

theorem fitsQuery_singleton (hlimits : 0 < limits.maxValues) (value : α) :
    FitsQuery text limits [value] := by
  constructor
  · simp
  · exact hlimits
  · simp

theorem shouldStart_eq_false {chunk : List α} {chunkBytes bytes : Nat} :
    shouldStartNextClickHouseChunk chunk chunkBytes bytes limits = false ↔
      chunk = [] ∨
        (chunk.length < limits.maxValues ∧ chunkBytes + bytes ≤ limits.maxBytes) := by
  cases chunk with
  | nil => simp [shouldStartNextClickHouseChunk]
  | cons value rest => simp [shouldStartNextClickHouseChunk]

theorem fitsQuery_concat {value : α} (hlimits : 0 < limits.maxValues)
    (h : scan.currentChunk = [] ∨ (scan.currentChunk.length < limits.maxValues ∧
      chargedBytes text scan.currentChunk + valueBytes text value ≤ limits.maxBytes)) :
    FitsQuery text limits (scan.currentChunk ++ [value]) := by
  rcases h with hnil | ⟨hvalues,hbytes⟩
  · rw [hnil]
    exact fitsQuery_singleton hlimits value
  · constructor
    · simp
    · simp
      omega
    · intro _
      simpa using hbytes

theorem Chunked.step (hlimits : 0 < limits.maxValues) (h : Chunked text limits seen scan)
    (value : α) : Chunked text limits (seen ++ [value]) (chunkValue text limits scan value) := by
  have hvalues := h.values
  cases hstart : shouldStartNextClickHouseChunk scan.currentChunk scan.currentBytes
      (valueBytes text value) limits with
  | false =>
    have hroom := shouldStart_eq_false.mp hstart
    rw [h.size] at hroom
    simp only [chunkValue,nextClickHouseChunk,hstart,appendChunkIfStarted]
    constructor
    · simp [← hvalues]
    · simp [h.size]
    · simpa using h.closed
    · intro _
      exact fitsQuery_concat hlimits hroom
  | true =>
    have hopen : scan.currentChunk ≠ [] := by
      intro hnil
      rw [shouldStart_eq_false.mpr (.inl hnil)] at hstart
      cases hstart
    simp only [chunkValue,nextClickHouseChunk,hstart,appendChunkIfStarted]
    constructor
    · simp [← hvalues]
    · simp
    · intro chunk hchunk
      simp at hchunk
      rcases hchunk with hold | rfl
      · exact h.closed chunk hold
      · exact h.opened hopen
    · intro _
      exact fitsQuery_singleton hlimits value

theorem Chunked.run (hlimits : 0 < limits.maxValues) (h : Chunked text limits seen scan)
    (values : List α) :
    Chunked text limits (seen ++ values) (values.foldl (chunkValue text limits) scan) := by
  induction values generalizing seen scan with
  | nil => simpa using h
  | cons value values ih =>
    have hrest := ih (h.step hlimits value)
    simpa using hrest

theorem chunked_start : Chunked text limits [] ⟨[],[],0⟩ := by
  constructor <;> simp [chargedBytes]

theorem Chunked.finish (h : Chunked text limits seen scan) :
    (appendNonEmptyChunk scan.chunks scan.currentChunk).flatten = seen ∧
      ∀ chunk ∈ appendNonEmptyChunk scan.chunks scan.currentChunk,
        FitsQuery text limits chunk := by
  have hvalues := h.values
  by_cases hopen : scan.currentChunk = []
  · rw [hopen,List.append_nil] at hvalues
    simpa [appendNonEmptyChunk,hopen,hvalues] using h.closed
  · have hpos : scan.currentChunk.length > 0 := List.length_pos_iff.mpr hopen
    rw [appendNonEmptyChunk,if_pos hpos]
    constructor
    · simpa using hvalues
    · intro chunk hchunk
      rcases List.mem_append.mp hchunk with hold | hlast
      · exact h.closed chunk hold
      · rw [List.mem_singleton.mp hlast]
        exact h.opened hopen

theorem chunkQueryValues_fits (values : List α) {options : Option QueryChunkOptions}
    (hlimits : 0 < (clickHouseQueryLimits options).maxValues) :
    (chunkQueryValues text values options).flatten = values ∧
      ∀ chunk ∈ chunkQueryValues text values options,
        FitsQuery text (clickHouseQueryLimits options) chunk := by
  have hstart : Chunked text (clickHouseQueryLimits options) [] ⟨[],[],0⟩ := chunked_start
  exact (hstart.run hlimits values).finish

end Chunks

/-- The chunks are the values in their order, none is empty, and each is within the limits but for
a single value that is over the byte limit on its own. -/
theorem chunkQueryValues_lossless {α : Type} (text : α → String) (values : List α)
    (maxBytes maxValues : Nat) (hvalues : 0 < maxValues) :
    (chunkQueryValues text values (some ⟨some maxBytes,some maxValues⟩)).flatten = values ∧
      ∀ chunk ∈ chunkQueryValues text values (some ⟨some maxBytes,some maxValues⟩),
        chunk ≠ [] ∧ chunk.length ≤ maxValues ∧
          (1 < chunk.length →
            (chunk.map fun value => codeUnitLength (text value) + 3).sum ≤ maxBytes) := by
  have hlimits :
      0 < (clickHouseQueryLimits (some ⟨some maxBytes,some maxValues⟩)).maxValues := hvalues
  obtain ⟨hflatten,hfits⟩ := chunkQueryValues_fits values hlimits
  refine ⟨hflatten,?_⟩
  intro chunk hchunk
  have hfit := hfits chunk hchunk
  exact ⟨hfit.nonempty,hfit.values,hfit.bytes⟩

theorem chunkQueryValues_lossless_pair :
    (chunkQueryValues id ["abcdef","ghijkl"] (some ⟨some 8,some 2⟩)).flatten =
        ["abcdef","ghijkl"] ∧
      ∀ chunk ∈ chunkQueryValues id ["abcdef","ghijkl"] (some ⟨some 8,some 2⟩),
        chunk ≠ [] ∧ chunk.length ≤ 2 ∧
          (1 < chunk.length → (chunk.map fun value => codeUnitLength (id value) + 3).sum ≤ 8) :=
  chunkQueryValues_lossless id ["abcdef","ghijkl"] 8 2 (by decide)

end OnlyDoge
