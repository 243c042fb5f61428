import OnlyDoge.Library.Json
set_option autoImplicit false

/-!
One row of `app_config` (`metadata-store.ts`): the JSON text under a key, or no row. What is
compared is the text.
-/

namespace OnlyDoge.ConfigRow
open JsonValue

abbrev Row := Option (List Char)

/-- `safeJsonParse(text, null)`, and `null` where the key has no row. -/
def getJsonValue (row : Row) : JsonValue := (row.bind JsonValue.parse).getD .null

def setJsonValue (value : JsonValue) : Row := some (stringify value)

def compareAndDeleteJsonValue (expectedValue : JsonValue) (row : Row) : Bool × Row :=
  if row = some (stringify expectedValue) then (true,none) else (false,row)

/-- A key is inserted where `null` is expected; a row that holds the text of `null` is taken. -/
def compareAndSwapJsonValue (expectedValue nextValue : JsonValue) (row : Row) : Bool × Row :=
  match expectedValue with
  | .null => if row = none then (true,some (stringify nextValue)) else (false,row)
  | expectedValue =>
    if row = some (stringify expectedValue) then (true,some (stringify nextValue))
    else (false,row)

/-- `Boolean(value)` -/
def truthy : JsonValue → Bool
  | .null => false
  | .bool value => value
  | .number value => value.digits ≠ 0
  | .string value => value ≠ ""
  | .array _ | .object _ => true

theorem getJsonValue_canonical (row : Row) : Canonical (getJsonValue row) := by
  cases row with
  | none => exact .null
  | some text =>
    cases h : JsonValue.parse text with
    | none => simpa [getJsonValue,h] using Canonical.null
    | some value => simpa [getJsonValue,h] using parse_canonical h

end OnlyDoge.ConfigRow
