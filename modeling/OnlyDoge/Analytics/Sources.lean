import OnlyDoge.Analytics.SqlGuard
import OnlyDoge.Chain.Effects
set_option autoImplicit false

/-! Which tables an accepted statement reads. -/

namespace OnlyDoge.Analytics

/-- What a statement reads when it runs: its references in order, with the common table
expressions before the references that they are in scope of. -/
inductive Reads where
  | done
  | table (database : Option String) (name : String) (rest : Reads)
  | tableFunction (name : String) (rest : Reads)
  | subquery (query rest : Reads)
  | cte (name : String) (body rest : Reads)
  deriving DecidableEq,Repr

namespace Reads

/-- The names of the `WITH` clause that the statement starts with. -/
def withNames : Reads → List String
  | .cte name _ rest => name::rest.withNames
  | _ => []

/-- All plain table references, those of nested statements included. -/
def references : Reads → List (Option String × String)
  | .done => []
  | .table database name rest => (database,name)::rest.references
  | .tableFunction _ rest => rest.references
  | .subquery query rest => query.references ++ rest.references
  | .cte _ body rest => body.references ++ rest.references

/-- Every source is a curated table of the default database, or a common table expression in scope
that is itself built from such sources. -/
def Curated (defaultDatabase : String) : List String → Reads → Prop
  | _,.done => True
  | scope,.table database name rest =>
    (database = none ∧ name ∈ scope ∨
      (database = none ∨ database = some defaultDatabase) ∧ (allowedTable name).isSome) ∧
    rest.Curated defaultDatabase scope
  | _,.tableFunction _ _ => False
  | scope,.subquery query rest =>
    query.Curated defaultDatabase scope ∧ rest.Curated defaultDatabase scope
  | scope,.cte name body rest =>
    body.Curated defaultDatabase scope ∧ rest.Curated defaultDatabase (name::scope)

/-- No table function; and a reference that is not one to an expression in scope has no other
database, no `::` in its name, and a curated name where the check lets that name through. -/
def Plain (defaultDatabase : String) (passes : String → Prop) : List String → Reads → Prop
  | _,.done => True
  | scope,.table database name rest =>
    (database = none ∧ name ∈ scope ∨
      (database = none ∨ database = some defaultDatabase) ∧
        lastPart.hasParts name.toList = false ∧ (passes name → (allowedTable name).isSome)) ∧
    rest.Plain defaultDatabase passes scope
  | _,.tableFunction _ _ => False
  | scope,.subquery query rest =>
    query.Plain defaultDatabase passes scope ∧ rest.Plain defaultDatabase passes scope
  | scope,.cte name body rest =>
    body.Plain defaultDatabase passes scope ∧ rest.Plain defaultDatabase passes (name::scope)

end Reads

/-- `action::database::table`, with `null` for a missing database. -/
def referenceText (reference : Option String × String) : String :=
  "select::" ++ reference.1.getD "null" ++ "::" ++ reference.2

/-- The names that pass the check: those of the `WITH` clause, and every name where some reference
ends in an empty part. -/
def Reads.Unchecked (reads : Reads) (name : String) : Prop :=
  name ∈ reads.withNames ∨
    ∃ reference ∈ reads.references, tableListName (referenceText reference) = ""

/-- A common table expression in the tree. -/
def withItem (name : String) (statement : Ast) : Ast :=
  .record [("name",.record [("value",.text name)]),("stmt",statement)]

/-- The parser returns the tree of the statement and lists its plain table references. -/
structure ParsesTo (parser : SqlParser) (sql : List Char) (ast : Ast) (reads : Reads) : Prop where
  tree : parser.astify sql = .ok ast
  withClause : ∃ items : List (String × Ast), items.map Prod.fst = reads.withNames ∧
    ast.withItems = items.map fun item => withItem item.1 item.2
  tables : ∀ entry, entry ∈ parser.tableList sql ↔ entry ∈ reads.references.map referenceText

theorem hasParts_append (front rest : List Char) :
    lastPart.hasParts (front ++ ':' :: ':' :: rest) = true := by
  induction front with
  | nil => rfl
  | cons c front ih =>
    rw [List.cons_append]
    unfold lastPart.hasParts
    split
    · rfl
    · rename_i heq
      obtain ⟨-,rfl⟩ := List.cons.inj heq
      exact ih
    · rename_i heq
      cases heq

theorem lastPart_append {front : List Char} (h : ':' ∉ front) (rest : List Char) :
    lastPart (front ++ ':' :: ':' :: rest) = lastPart rest := by
  induction front with
  | nil =>
    rw [List.nil_append,lastPart]
  | cons c front ih =>
    obtain ⟨hc,hfront⟩ := not_or.mp (fun hmem => h (List.mem_cons.mpr hmem))
    rw [List.cons_append,lastPart,if_pos (hasParts_append front rest),ih hfront]
    intro rest' heq
    exact absurd heq.symm hc

theorem lastPart_of_noParts {chars : List Char} (h : lastPart.hasParts chars = false) :
    lastPart chars = chars := by
  cases chars with
  | nil => rfl
  | cons c rest =>
    have hrest : lastPart.hasParts rest = false := by
      cases hparts : lastPart.hasParts rest with
      | false => rfl
      | true =>
        rw [← h]
        unfold lastPart.hasParts
        split
        · rfl
        · rename_i heq
          obtain ⟨-,rfl⟩ := List.cons.inj heq
          exact hparts.symm
        · rename_i heq
          cases heq
    rw [lastPart,if_neg (by simp [hrest])]
    rintro rest' rfl rfl
    cases h

/-- The name of an unqualified reference, or of one to the default database, is looked up whole
when it has no parts of its own. -/
theorem tableListName_referenceText {defaultDatabase : String}
    (hcolon : ':' ∉ defaultDatabase.toList)
    {database : Option String} (hdatabase : database = none ∨ database = some defaultDatabase)
    {name : String} (hname : lastPart.hasParts name.toList = false) :
    tableListName (referenceText (database,name)) = name := by
  have hdb : ':' ∉ (database.getD "null").toList := by
    rcases hdatabase with rfl | rfl
    · decide
    · exact hcolon
  have htext : (referenceText (database,name)).toList = "select".toList ++
      ':' :: ':' :: ((database.getD "null").toList ++ ':' :: ':' :: name.toList) := by
    simp [referenceText,String.toList_append]
  unfold tableListName
  rw [htext,lastPart_append (by decide),lastPart_append hdb,lastPart_of_noParts hname,
    String.ofList_toList]

theorem validate_eq_ok {parser : SqlParser} {input : String} {sql : List Char}
    (h : validateAnalyticsSql parser input = .ok sql) :
    normalizeSql input = .ok sql ∧ ∃ ast tables,
      parser.astify (sqlWithParserPlaceholders sql) = .ok ast ∧
      assertAllowedTables parser (sqlWithParserPlaceholders sql) ast = .ok tables ∧
      assertTablePredicatePolicies sql tables = .ok () := by
  obtain ⟨normal,hnormal,h⟩ := bind_eq_ok.mp h
  obtain ⟨ast,hast,h⟩ := bind_eq_ok.mp h
  obtain ⟨_,-,h⟩ := bind_eq_ok.mp h
  obtain ⟨_,-,h⟩ := bind_eq_ok.mp h
  obtain ⟨_,-,h⟩ := bind_eq_ok.mp h
  obtain ⟨tables,htables,h⟩ := bind_eq_ok.mp h
  obtain ⟨_,hpolicies,h⟩ := bind_eq_ok.mp h
  cases h
  exact ⟨hnormal,ast,tables,hast,htables,hpolicies⟩

/-- Only the last parts of the references are looked up, and none of them where one is empty. -/
theorem allowed_of_accepted {parser : SqlParser} {sql : List Char} {ast : Ast}
    {tables : List AnalyticsAllowedTable}
    (h : assertAllowedTables parser sql ast = .ok tables) :
    ∀ entry ∈ parser.tableList sql, (allowedTable (tableListName entry)).isSome ∨
      tableListName entry ∈ collectCteNames ast ∨
      ∃ other ∈ parser.tableList sql, tableListName other = "" := by
  intro entry hentry
  unfold assertAllowedTables at h
  simp only at h
  split at h
  · cases h
  · rename_i hnone
    cases hfind : ((parser.tableList sql).map tableListName).find? fun table =>
        (allowedTable table).isNone && table ∉ collectCteNames ast with
    | none =>
      have hentry := List.find?_eq_none.mp hfind _ (List.mem_map_of_mem hentry)
      have hpasses : (allowedTable (tableListName entry)).isSome ∨
          tableListName entry ∈ collectCteNames ast := by
        simpa [Option.isNone_iff_eq_none,Option.isSome_iff_ne_none,or_iff_not_imp_left] using hentry
      exact hpasses.imp_right Or.inl
    | some table =>
      rw [hfind] at hnone
      have hempty : table = "" := by simpa using hnone
      obtain ⟨other,hother,hname⟩ := List.mem_map.mp (List.mem_of_find?_eq_some hfind)
      exact Or.inr (Or.inr ⟨other,hother,hname.trans hempty⟩)

theorem collectCteNames_subset {ast : Ast} {items : List (String × Ast)}
    (h : ast.withItems = items.map fun item => withItem item.1 item.2) :
    ∀ name ∈ collectCteNames ast, name ∈ items.map Prod.fst := by
  intro name hname
  obtain ⟨item,hitem,hcte⟩ := List.mem_filterMap.mp hname
  rw [h] at hitem
  obtain ⟨⟨text,statement⟩,hmem,rfl⟩ := List.mem_map.mp hitem
  have htext : cteName (withItem text statement) = (some text).filter (· ≠ "") := rfl
  rw [htext,Option.filter_eq_some_iff] at hcte
  obtain ⟨heq,-⟩ := hcte
  cases heq
  exact List.mem_map.mpr ⟨_,hmem,rfl⟩

theorem allowedTable_noParts {name : String} (h : (allowedTable name).isSome) :
    lastPart.hasParts name.toList = false := by
  obtain ⟨table,htable⟩ := Option.isSome_iff_exists.mp h
  have hname : table.name = name := by simpa using List.find?_some htable
  rw [← hname]
  cases table <;> decide

/-- Given that the last part of every reference passes, a statement reads curated tables only
exactly when its references are plain. -/
theorem curated_iff_plain {defaultDatabase : String} (hcolon : ':' ∉ defaultDatabase.toList)
    {passes : String → Prop} {scope : List String} {reads : Reads}
    (h : ∀ reference ∈ reads.references,
      (allowedTable (tableListName (referenceText reference))).isSome ∨
        passes (tableListName (referenceText reference))) :
    reads.Curated defaultDatabase scope ↔ reads.Plain defaultDatabase passes scope := by
  induction reads generalizing scope with
  | done => exact Iff.rfl
  | table database name rest ih =>
    have hrest := @ih scope fun reference href => h reference (List.mem_cons_of_mem _ href)
    refine and_congr (or_congr_right ?_) hrest
    refine and_congr_right fun hdatabase => ?_
    constructor
    · exact fun hcurated => ⟨allowedTable_noParts hcurated,fun _ => hcurated⟩
    · rintro ⟨hname,hnamed⟩
      have hallowed := h (database,name) List.mem_cons_self
      rw [tableListName_referenceText hcolon hdatabase hname] at hallowed
      rcases hallowed with hcurated | hcte
      · exact hcurated
      · exact hnamed hcte
  | tableFunction name rest ih => exact Iff.rfl
  | subquery query rest ihq ihr =>
    exact and_congr (ihq fun reference href => h reference (List.mem_append_left _ href))
      (ihr fun reference href => h reference (List.mem_append_right _ href))
  | cte name body rest ihb ihr =>
    exact and_congr (ihb fun reference href => h reference (List.mem_append_left _ href))
      (ihr fun reference href => h reference (List.mem_append_right _ href))

/-- An accepted statement reads curated tables only exactly when it calls no table function and its
references are plain: the validation sees neither table functions, nor the databases of references,
nor where a common table expression is in scope, nor anything once a last part is empty. -/
theorem accepted_reads_curated_iff {parser : SqlParser} {input : String} {sql : List Char}
    {ast : Ast} {reads : Reads} {defaultDatabase : String}
    (hcolon : ':' ∉ defaultDatabase.toList)
    (haccepted : validateAnalyticsSql parser input = .ok sql)
    (hparse : ParsesTo parser (sqlWithParserPlaceholders sql) ast reads) :
    reads.Curated defaultDatabase [] ↔ reads.Plain defaultDatabase reads.Unchecked [] := by
  obtain ⟨-,ast',tables,hast,htables,-⟩ := validate_eq_ok haccepted
  rw [hparse.tree] at hast
  cases hast
  obtain ⟨items,hitems,hwith⟩ := hparse.withClause
  refine curated_iff_plain hcolon fun reference href => ?_
  have hentry := (hparse.tables _).mpr (List.mem_map_of_mem href)
  refine (allowed_of_accepted htables _ hentry).imp_right fun hpasses => ?_
  rcases hpasses with hcte | ⟨other,hother,hempty⟩
  · refine Or.inl ?_
    rw [← hitems]
    exact collectCteNames_subset hwith _ hcte
  · obtain ⟨reference',href',rfl⟩ := List.mem_map.mp ((hparse.tables _).mp hother)
    exact Or.inr ⟨reference',href',hempty⟩

def balancesTree (database : Ast) : Ast :=
  .record [("type",.text "select"),("with",.null),
    ("columns",.array [.record [("expr",.record [("type",.text "column_ref"),("table",.null),
      ("column",.text "address")]),("as",.null)]]),
    ("from",.array [.record [("db",database),("table",.text "analytics_balances_current_v1"),
      ("as",.null)]])]

/-- What the parser answers for a statement over one table. -/
def balancesParser (database : Ast) (entry : String) : SqlParser :=
  ⟨fun _ => .ok (balancesTree database),fun _ => [entry]⟩

def boundedBalances : String :=
  "SELECT address FROM analytics_balances_current_v1 WHERE as_of_block_height <= {maxFinalizedHeight:UInt64}"

theorem accepted_reads_curated_iff_balances :
    (Reads.table none "analytics_balances_current_v1" .done).Curated "default" [] ↔
      (Reads.table none "analytics_balances_current_v1" .done).Plain "default"
        (Reads.table none "analytics_balances_current_v1" .done).Unchecked [] :=
  @accepted_reads_curated_iff (balancesParser .null "select::null::analytics_balances_current_v1")
    boundedBalances boundedBalances.toList (balancesTree .null)
    (.table none "analytics_balances_current_v1" .done) "default" (by decide) (by decide +kernel)
    ⟨rfl,⟨[],rfl,rfl⟩,fun _ => Iff.rfl⟩

def otherBalances : String :=
  "SELECT address FROM other.analytics_balances_current_v1 WHERE as_of_block_height <= {maxFinalizedHeight:UInt64}"

/-- The table of that name in another database is read. -/
theorem other_database_accepted :
    validateAnalyticsSql
        (balancesParser (.text "other") "select::other::analytics_balances_current_v1")
        otherBalances = .ok otherBalances.toList ∧
    ParsesTo (balancesParser (.text "other") "select::other::analytics_balances_current_v1")
      (sqlWithParserPlaceholders otherBalances.toList) (balancesTree (.text "other"))
      (.table (some "other") "analytics_balances_current_v1" .done) ∧
    ¬(Reads.table (some "other") "analytics_balances_current_v1" .done).Curated "default" [] := by
  refine ⟨by decide +kernel,⟨rfl,⟨[],rfl,rfl⟩,fun _ => Iff.rfl⟩,?_⟩
  rintro ⟨⟨hnone,-⟩ | ⟨hnone | hdefault,-⟩,-⟩
  · cases hnone
  · cases hnone
  · exact absurd (Option.some.inj hdefault) (by decide)

end OnlyDoge.Analytics
