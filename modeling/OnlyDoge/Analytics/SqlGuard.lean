import OnlyDoge.Analytics.SqlText
set_option autoImplicit false

/-! `validateAnalyticsSql`, with the SQL parser as a parameter. -/

namespace OnlyDoge.Analytics

/-- What the parser returns: a plain value. -/
inductive Ast where
  | null
  | bool (value : Bool)
  | number (value : Int)
  | text (value : String)
  | array (items : List Ast)
  | record (fields : List (String × Ast))

/-- `node-sql-parser`: the tree of a text, and its references as `action::database::table`. -/
structure SqlParser where
  astify : List Char → Except AnalyticsError Ast
  tableList : List Char → List String

namespace Ast

def isRecord : Ast → Bool
  | .record _ => true
  | _ => false

def field (ast : Ast) (name : String) : Option Ast :=
  match ast with
  | .record fields => (fields.find? (·.1 = name)).map Prod.snd
  | _ => none

def stringValue : Ast → Option String
  | .text value => some value
  | _ => none

/-- `value.type === type` -/
def hasType (ast : Ast) (type : String) : Bool :=
  (ast.field "type").bind stringValue = some type

/-- The items of the `with` clause. -/
def withItems (ast : Ast) : List Ast :=
  match ast.field "with" with
  | some (.array items) => items
  | _ => []

end Ast

def isSelectStatement (ast : Ast) : Bool := ast.isRecord && ast.hasType "select"

def collectSelectStatements (ast : Ast) : List Ast :=
  ast::ast.withItems.filterMap (·.field "stmt")

def assertSelectAst (ast : Ast) : Except AnalyticsError Unit :=
  if !isSelectStatement ast then .error (.validation "analytics SQL must be a SELECT")
  else if (collectSelectStatements ast).all isSelectStatement then .ok ()
  else .error (.validation "analytics SQL must only use SELECT statements")

def isSelectStar (fields : List (String × Ast)) : Bool :=
  (Ast.record fields).hasType "column_ref" &&
    ((Ast.record fields).field "column").bind Ast.stringValue = some "*"

mutual
def containsSelectStar : Ast → Bool
  | .array items => anySelectStar items
  | .record fields => isSelectStar fields || anyFieldSelectStar fields
  | _ => false

def anySelectStar : List Ast → Bool
  | [] => false
  | item::items => containsSelectStar item || anySelectStar items

def anyFieldSelectStar : List (String × Ast) → Bool
  | [] => false
  | (_,value)::fields => containsSelectStar value || anyFieldSelectStar fields
end

def assertNoSelectStar (ast : Ast) : Except AnalyticsError Unit :=
  if containsSelectStar ast then
    .error (.validation "analytics SQL cannot use SELECT *")
  else .ok ()

/-- The name of a common table expression, where it has a non-empty one. -/
def cteName (item : Ast) : Option String :=
  (((item.field "name").bind (·.field "value")).bind Ast.stringValue).filter (· ≠ "")

def collectCteNames (ast : Ast) : List String := ast.withItems.filterMap cteName

/-- `value.split('::').at(-1)` -/
def lastPart (value : List Char) : List Char :=
  match value with
  | [] => []
  | ':' :: ':' :: rest => lastPart rest
  | c::rest => if hasParts rest then lastPart rest else c::rest
where
  /-- Whether the text is split at all. -/
  hasParts : List Char → Bool
    | ':' :: ':' :: _ => true
    | _::rest => hasParts rest
    | [] => false

def tableListName (value : String) : String := String.ofList (lastPart value.toList)

def assertAllowedTables (parser : SqlParser) (sql : List Char) (ast : Ast) :
    Except AnalyticsError (List AnalyticsAllowedTable) :=
  let cteNames := collectCteNames ast
  let tables := (parser.tableList sql).map tableListName
  let invalid := tables.find? fun table => (allowedTable table).isNone && table ∉ cteNames
  -- An empty name counts as none found.
  match invalid.filter (· ≠ "") with
  | some table => .error (.validation ("analytics SQL cannot query table: " ++ table))
  | none =>
    let referencedTables := tables.filterMap allowedTable
    if referencedTables = [] then
      .error (.validation "analytics SQL must query a curated analytics table")
    else .ok (OrderedMap.distinct referencedTables)

/-- The parser returns an array for several statements. -/
def assertOneStatement : Ast → Except AnalyticsError Unit
  | .array _ => .error (.validation "analytics SQL must contain one SELECT statement")
  | _ => .ok ()

def validateAnalyticsSql (parser : SqlParser) (input : String) :
    Except AnalyticsError (List Char) := do
  let sql ← normalizeSql input
  let parsedSql := sqlWithParserPlaceholders sql
  let ast ← parser.astify parsedSql
  assertOneStatement ast
  assertSelectAst ast
  assertNoSelectStar ast
  let tables ← assertAllowedTables parser parsedSql ast
  assertTablePredicatePolicies sql tables
  return sql

end OnlyDoge.Analytics
