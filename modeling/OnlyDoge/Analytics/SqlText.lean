import OnlyDoge.Chain.Amounts
import OnlyDoge.Library.OrderedMap
import OnlyDoge.Library.Regex
import Mathlib.Data.List.Infix
set_option autoImplicit false

/-! The text checks of the guarded analytics SQL (`analytics-query-service.ts`). -/

namespace OnlyDoge.Analytics
open Regex HexText

inductive AnalyticsError where
  | validation (message : String)
  deriving DecidableEq,Repr

/-- The long s and the Kelvin sign fold to `s` and `k`. -/
def foldCase (c : Char) : Char :=
  if c.toNat = 0x17F then 's' else if c.toNat = 0x212A then 'k' else c.toLower

/-- `\w` -/
def isWordCharacter (c : Char) : Bool := (foldCase c).isAlphanum || c = '_'

/-- `[a-zA-Z_]` -/
def isNameStart (c : Char) : Bool := (foldCase c).isAlpha || c = '_'

def text (chars : String) : Pattern := literal foldCase chars.toList

/-- `\b` -/
def wordEdge : Pattern := .boundary isWordCharacter

/-- `\s*` -/
def spaces : Pattern := .many isTrimmed

/-- `\bNAME\b` -/
def word (name : String) : Pattern := sequence [wordEdge,text name,wordEdge]

/-- The length of what stands before the end of a block comment, and of that end. -/
def commentRest : List Char → Option Nat
  | '*' :: '/' :: _ => some 2
  | _::rest => (commentRest rest).map (· + 1)
  | [] => none

/-- A block comment with its end. -/
def scanBlockComment : List Char → Option Nat
  | '/' :: '*' :: rest => (commentRest rest).map (· + 2)
  | _ => none

/-- A line comment up to the end of its line. -/
def scanLineComment : List Char → Option Nat
  | '-' :: '-' :: rest => some (2 + (rest.takeWhile fun c => c ≠ '\n' ∧ c ≠ '\r').length)
  | _ => none

/-- A string behind its opening quote: doubled quotes belong to it as long as a closing quote
follows. -/
def literalRest : List Char → Option Nat
  | '\'' :: '\''::rest => some (((literalRest rest).map (· + 2)).getD 1)
  | '\''::_ => some 1
  | _::rest => (literalRest rest).map (· + 1)
  | [] => none

def scanString : List Char → Option Nat
  | '\''::rest => (literalRest rest).map (· + 1)
  | _ => none

def stripSqlCommentsAndStrings (sql : List Char) : List Char :=
  replaceAll scanString ['\'','\''] (replaceAll scanLineComment [' ']
    (replaceAll scanBlockComment [' '] sql))

def analyticsQueryMaxSqlCharacters : Nat := 16384

/-- `text.length`, in UTF-16 units. -/
def textLength (chars : List Char) : Nat :=
  (chars.map fun c => if c.toNat < 0x10000 then 1 else 2).sum

/-- `text.replace(/;+\s*$/u, '')` -/
def withoutTrailingSemicolons (sql : List Char) : List Char :=
  match sql.reverse.dropWhile isTrimmed with
  | ';'::rest => (rest.dropWhile (· = ';')).reverse
  | _ => sql

def disallowedSqlPatterns : List (String × Pattern) :=
  [("FINAL",word "FINAL"),("FORMAT",word "FORMAT"),
    ("INTO OUTFILE",sequence [wordEdge,text "INTO",.one isTrimmed,spaces,text "OUTFILE",wordEdge]),
    ("SETTINGS",word "SETTINGS")]

def assertNoDisallowedSqlClauses (sql : List Char) : Except AnalyticsError Unit :=
  let searchable := stripSqlCommentsAndStrings sql
  match disallowedSqlPatterns.find? (·.2.test searchable) with
  | some (label,_) => .error (.validation ("analytics SQL cannot use " ++ label))
  | none => .ok ()

def normalizeSql (input : String) : Except AnalyticsError (List Char) :=
  let trimmed := withoutTrailingSemicolons (trimText input.toList)
  if trimmed = [] then .error (.validation "analytics SQL is required")
  else if textLength trimmed > analyticsQueryMaxSqlCharacters then
    .error (.validation "analytics SQL exceeds maximum length")
  else if ';' ∈ trimmed then .error (.validation "analytics SQL must contain one statement")
  else do
    assertNoDisallowedSqlClauses trimmed
    return trimmed

def placeholderPatterns : List (String × String) :=
  [("{fromTime:UInt64}","1"),("{toTime:UInt64}","2"),("{maxFinalizedHeight:UInt64}","100"),
    ("{limit:UInt64}","100")]

def sqlWithParserPlaceholders (sql : List Char) : List Char :=
  placeholderPatterns.foldl (fun current replacement =>
    replaceAll (scanText replacement.1.toList) replacement.2.toList current) sql

inductive AnalyticsAllowedTable where
  | transactions
  | balancesCurrent
  | mempoolSamples
  deriving DecidableEq,Repr

def AnalyticsAllowedTable.name : AnalyticsAllowedTable → String
  | .transactions => "analytics_transactions_v1"
  | .balancesCurrent => "analytics_balances_current_v1"
  | .mempoolSamples => "mempool_samples_v1"

def analyticsAllowedTables : List AnalyticsAllowedTable :=
  [.transactions,.balancesCurrent,.mempoolSamples]

/-- The table that a name stands for. -/
def allowedTable (name : String) : Option AnalyticsAllowedTable :=
  analyticsAllowedTables.find? (·.name = name)

/-- `(?:\b[a-zA-Z_][\w]*\.)?\bCOLUMN\b` -/
def columnPattern (column : String) : Pattern :=
  .seq (optional (sequence [wordEdge,.one isNameStart,.many isWordCharacter,text "."]))
    (word column)

/-- A comparison of the column with a placeholder. -/
def comparisonPattern (column operator placeholder : String) : Pattern :=
  sequence [columnPattern column,spaces,text operator,spaces,text placeholder]

/-- A comparison of the column with the time that a placeholder stands for. -/
def timePattern (column operator placeholder : String) : Pattern :=
  sequence [columnPattern column,spaces,text operator,spaces,
    .either (text "fromUnixTimestamp") (text "toDateTime"),spaces,text "(",spaces,text placeholder,
    spaces,text ")"]

structure TablePredicatePolicy where
  requiredPlaceholders : List String
  predicates : List (String × Pattern)

def tablePredicatePolicies : AnalyticsAllowedTable → TablePredicatePolicy
  | .transactions => {
      requiredPlaceholders :=
        ["{fromTime:UInt64}","{toTime:UInt64}","{maxFinalizedHeight:UInt64}"]
      predicates :=
        [("block_time",comparisonPattern "block_time" ">=" "{fromTime:UInt64}"),
          ("block_time",comparisonPattern "block_time" "<" "{toTime:UInt64}"),
          ("block_height",comparisonPattern "block_height" "<=" "{maxFinalizedHeight:UInt64}")] }
  | .balancesCurrent => {
      requiredPlaceholders := ["{maxFinalizedHeight:UInt64}"]
      predicates := [("as_of_block_height",
        comparisonPattern "as_of_block_height" "<=" "{maxFinalizedHeight:UInt64}")] }
  | .mempoolSamples => {
      requiredPlaceholders := ["{fromTime:UInt64}","{toTime:UInt64}"]
      predicates :=
        [("sampled_at",timePattern "sampled_at" ">=" "{fromTime:UInt64}"),
          ("sampled_at",timePattern "sampled_at" "<" "{toTime:UInt64}")] }

def assertTablePredicates (searchableSql : List Char) :
    List (String × Pattern) → Except AnalyticsError Unit
  | [] => .ok ()
  | (column,pattern)::predicates =>
    if pattern.test searchableSql then assertTablePredicates searchableSql predicates
    else .error (.validation ("analytics SQL must constrain " ++ column))

def assertRequiredPlaceholders (sql : List Char) : List String → Except AnalyticsError Unit
  | [] => .ok ()
  | placeholder::placeholders =>
    if placeholder.toList <:+: sql then assertRequiredPlaceholders sql placeholders
    else .error (.validation ("analytics SQL must include " ++ placeholder))

/-- The predicates of each table, and then the placeholders of all of them. -/
def assertTablePredicatePolicies (sql : List Char) (tables : List AnalyticsAllowedTable) :
    Except AnalyticsError Unit := do
  let searchable := stripSqlCommentsAndStrings sql
  tables.forM fun table =>
    assertTablePredicates searchable (tablePredicatePolicies table).predicates
  assertRequiredPlaceholders sql
    (OrderedMap.distinct (tables.flatMap fun table =>
      (tablePredicatePolicies table).requiredPlaceholders))

theorem assertNoDisallowedSqlClauses_eq_ok {sql : List Char} :
    assertNoDisallowedSqlClauses sql = .ok () ↔
      ∀ clause ∈ disallowedSqlPatterns,
        clause.2.test (stripSqlCommentsAndStrings sql) = false := by
  unfold assertNoDisallowedSqlClauses
  simp only
  cases hfind : disallowedSqlPatterns.find? (·.2.test (stripSqlCommentsAndStrings sql)) with
  | some clause =>
    refine iff_of_false (fun h => by cases h) fun h => ?_
    have hfound := List.find?_some hfind
    rw [h clause (List.mem_of_find?_eq_some hfind)] at hfound
    cases hfound
  | none => simpa using hfind

theorem assertTablePredicates_eq_ok {sql : List Char} {predicates : List (String × Pattern)} :
    assertTablePredicates sql predicates = .ok () ↔
      ∀ predicate ∈ predicates, predicate.2.test sql = true := by
  induction predicates with
  | nil => simp [assertTablePredicates]
  | cons predicate predicates ih =>
    unfold assertTablePredicates
    by_cases h : predicate.2.test sql = true <;> simp [h,ih]

theorem assertRequiredPlaceholders_eq_ok {sql : List Char} {placeholders : List String} :
    assertRequiredPlaceholders sql placeholders = .ok () ↔
      ∀ placeholder ∈ placeholders, placeholder.toList <:+: sql := by
  induction placeholders with
  | nil => simp [assertRequiredPlaceholders]
  | cons placeholder placeholders ih =>
    unfold assertRequiredPlaceholders
    by_cases h : placeholder.toList <:+: sql <;> simp [h,ih]

end OnlyDoge.Analytics
