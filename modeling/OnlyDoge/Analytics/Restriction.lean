import OnlyDoge.Analytics.Conditions
import OnlyDoge.Analytics.Sources
set_option autoImplicit false

/-! Which `WHERE` expressions of accepted statements keep to the policy of their table. -/

namespace OnlyDoge.Analytics
open Differences

/-- The ranges of the columns and of the parameters. -/
def ranges (table : AnalyticsAllowedTable) : List (Bound Unknown) :=
  (numericColumns table).flatMap (fun column =>
    [⟨.origin,.column column.name,-column.low⟩,⟨.column column.name,.origin,column.high⟩]) ++
  Placeholder.all.flatMap fun name =>
    [⟨.origin,.placeholder name,0⟩,⟨.placeholder name,.origin,2 ^ 64 - 1⟩]

/-- The comparisons that the policy asks for. -/
def requirements : AnalyticsAllowedTable → List (Bound Unknown)
  | .transactions =>
    [⟨.placeholder .fromTime,.column "block_time",0⟩,⟨.column "block_time",.placeholder .toTime,-1⟩,
      ⟨.column "block_height",.placeholder .maxFinalizedHeight,0⟩]
  | .balancesCurrent => [⟨.column "as_of_block_height",.placeholder .maxFinalizedHeight,0⟩]
  | .mempoolSamples =>
    [⟨.placeholder .fromTime,.column "sampled_at",0⟩,⟨.column "sampled_at",.placeholder .toTime,-1⟩]

section
variable {table : AnalyticsAllowedTable} {Texts Other : Type*}

/-- Every branch whose other comparisons can hold together chains to the comparisons of the policy,
with the ranges of the columns and parameters, or contradicts itself. -/
def Forces (evaluate : Other → Texts → Option Bool) (table : AnalyticsAllowedTable)
    (condition : Option (Condition Other)) : Prop :=
  ∀ branch ∈ whereBranches condition,
    (∃ texts, ∀ other ∈ branch.others, evaluate other.1 texts = some other.2) →
      ∀ required ∈ requirements table, Entails (ranges table ++ branch.bounds) required

/-- The numbers of a row, zero for a missing one. -/
def Row.total (row : Row table Texts) (params : AnalyticsQueryParams) (unknown : Unknown) : Int :=
  (row.number params unknown).getD 0

theorem meets_total {row : Row table Texts} {params : AnalyticsQueryParams} {bound : Bound Unknown}
    (h : row.Meets params bound) : bound.Holds (row.total params) := by
  obtain ⟨x,y,hx,hy,hle⟩ := h
  simpa [Bound.Holds,Row.total,hx,hy] using hle

theorem numericColumns_zero {column : NumericColumn} (h : column ∈ numericColumns table) :
    column.low ≤ 0 ∧ 0 ≤ column.high := by
  revert column
  cases table <;> decide

theorem mem_placeholders (name : Placeholder) : name ∈ Placeholder.all := by
  cases name <;> decide

theorem mem_ranges {bound : Bound Unknown} : bound ∈ ranges table ↔
    (∃ column ∈ numericColumns table, bound = ⟨.origin,.column column.name,-column.low⟩ ∨
      bound = ⟨.column column.name,.origin,column.high⟩) ∨
    ∃ name, bound = ⟨.origin,.placeholder name,0⟩ ∨
      bound = ⟨.placeholder name,.origin,2 ^ 64 - 1⟩ := by
  simp only [ranges,List.mem_append,List.mem_flatMap,List.mem_cons,List.not_mem_nil,or_false,
    mem_placeholders,true_and]

theorem total_ranges (row : Row table Texts) (params : AnalyticsQueryParams) :
    ∀ bound ∈ ranges table, bound.Holds (row.total params) := by
  intro bound hbound
  rcases mem_ranges.mp hbound with ⟨column,hcolumn,hbound⟩ | ⟨name,hbound⟩
  · have hvalue : column.low ≤ (row.numbers column.name).getD 0 ∧
        (row.numbers column.name).getD 0 ≤ column.high := by
      cases hnumber : row.numbers column.name with
      | none => exact numericColumns_zero hcolumn
      | some value => exact row.inRange column hcolumn value hnumber
    rcases hbound with rfl | rfl <;> simp only [Bound.Holds,Row.total,Row.number,Option.getD_some]
      <;> omega
  · have := (params name).isLt
    rcases hbound with rfl | rfl <;> simp only [Bound.Holds,Row.total,Row.number,Option.getD_some]
      <;> omega

theorem restricted_iff (row : Row table Texts) (params : AnalyticsQueryParams) :
    row.Restricted params ↔ ∀ bound ∈ requirements table, bound.Holds (row.total params) := by
  have hpresent : ∀ column ∈ numericColumns table, column.nullable = false →
      ∃ value, row.numbers column.name = some value :=
    fun column hcolumn hnull => Option.isSome_iff_exists.mp (row.present column hcolumn hnull)
  cases table with
  | transactions =>
    obtain ⟨height,hheight⟩ := hpresent (uint64 "block_height") (by decide) rfl
    obtain ⟨time,htime⟩ := hpresent (uint64 "block_time") (by decide) rfl
    simp only [uint64] at hheight htime
    have hbounds : (∀ bound ∈ requirements .transactions, bound.Holds (row.total params)) ↔
        (params .fromTime : Int) ≤ time + 0 ∧ time ≤ (params .toTime : Int) + -1 ∧
          height ≤ (params .maxFinalizedHeight : Int) + 0 := by
      simp [requirements,Bound.Holds,Row.total,Row.number,hheight,htime]
    rw [hbounds]
    constructor
    · rintro ⟨_,_,htime',hheight',hlow,hhigh,hle⟩
      rw [htime] at htime'
      rw [hheight] at hheight'
      cases htime'
      cases hheight'
      omega
    · rintro ⟨hlow,hhigh,hle⟩
      exact ⟨time,height,htime,hheight,by omega,by omega,by omega⟩
  | balancesCurrent =>
    obtain ⟨height,hheight⟩ := hpresent (uint64 "as_of_block_height") (by decide) rfl
    simp only [uint64] at hheight
    simp [Row.Restricted,requirements,Bound.Holds,Row.total,Row.number,hheight]
  | mempoolSamples =>
    obtain ⟨time,htime⟩ := hpresent (dateTime "sampled_at") (by decide) rfl
    simp only [dateTime] at htime
    have hbounds : (∀ bound ∈ requirements .mempoolSamples, bound.Holds (row.total params)) ↔
        (params .fromTime : Int) ≤ time + 0 ∧ time ≤ (params .toTime : Int) + -1 := by
      simp [requirements,Bound.Holds,Row.total,Row.number,htime]
    rw [hbounds]
    constructor
    · rintro ⟨_,htime',hlow,hhigh⟩
      rw [htime] at htime'
      cases htime'
      omega
    · rintro ⟨hlow,hhigh⟩
      exact ⟨time,htime,by omega,by omega⟩

theorem column_range {value : Unknown → Int} (h : ∀ bound ∈ ranges table, bound.Holds value)
    {column : NumericColumn} (hcolumn : column ∈ numericColumns table) :
    column.low ≤ value (.column column.name) - value .origin ∧
      value (.column column.name) - value .origin ≤ column.high := by
  have hlow := h _ (mem_ranges.mpr (Or.inl ⟨column,hcolumn,Or.inl rfl⟩))
  have hhigh := h _ (mem_ranges.mpr (Or.inl ⟨column,hcolumn,Or.inr rfl⟩))
  simp only [Bound.Holds] at hlow hhigh
  omega

theorem placeholder_range {value : Unknown → Int} (h : ∀ bound ∈ ranges table, bound.Holds value)
    (name : Placeholder) : 0 ≤ value (.placeholder name) - value .origin ∧
      value (.placeholder name) - value .origin < 2 ^ 64 := by
  have hlow := h _ (mem_ranges.mpr (Or.inr ⟨name,Or.inl rfl⟩))
  have hhigh := h _ (mem_ranges.mpr (Or.inr ⟨name,Or.inr rfl⟩))
  simp only [Bound.Holds] at hlow hhigh
  omega

/-- The row whose numbers solve the bounds. -/
def solutionRow (value : Unknown → Int) (h : ∀ bound ∈ ranges table, bound.Holds value)
    (texts : Texts) : Row table Texts where
  numbers name := some (value (.column name) - value .origin)
  texts := texts
  inRange column hcolumn number hnumber := by
    cases hnumber
    exact column_range h hcolumn
  present _ _ _ := rfl

def solutionParams (value : Unknown → Int) (h : ∀ bound ∈ ranges table, bound.Holds value) :
    AnalyticsQueryParams := fun name =>
  ⟨(value (.placeholder name) - value .origin).toNat,by
    have := placeholder_range h name
    omega⟩

theorem solution_number {value : Unknown → Int} (h : ∀ bound ∈ ranges table, bound.Holds value)
    (texts : Texts) (unknown : Unknown) :
    (solutionRow value h texts).number (solutionParams value h) unknown =
      some (value unknown - value .origin) := by
  cases unknown with
  | origin => simp [Row.number]
  | column name => rfl
  | placeholder name =>
    have := (placeholder_range h name).1
    simp only [Row.number,solutionParams,Option.some.injEq]
    omega

theorem solution_meets {value : Unknown → Int} (h : ∀ bound ∈ ranges table, bound.Holds value)
    (texts : Texts) {bound : Bound Unknown} (hbound : bound.Holds value) :
    (solutionRow value h texts).Meets (solutionParams value h) bound := by
  refine ⟨_,_,solution_number h texts _,solution_number h texts _,?_⟩
  unfold Bound.Holds at hbound
  omega

theorem solution_total {value : Unknown → Int} (h : ∀ bound ∈ ranges table, bound.Holds value)
    (texts : Texts) {bound : Bound Unknown}
    (hbound : bound.Holds ((solutionRow value h texts).total (solutionParams value h))) :
    bound.Holds value := by
  simp only [Bound.Holds,Row.total,solution_number,Option.getD_some] at hbound ⊢
  omega

/-- The rows that pass a `WHERE` expression are restricted exactly when its branches force it. -/
theorem passes_restricted_iff {evaluate : Other → Texts → Option Bool}
    {condition : Option (Condition Other)} :
    (∀ (row : Row table Texts) (params : AnalyticsQueryParams),
      Passes evaluate row params condition → row.Restricted params) ↔
      Forces evaluate table condition := by
  constructor
  · rintro h branch hbranch ⟨texts,hothers⟩ required hrequired
    refine entails_iff.mp fun value hvalue => ?_
    have hranges : ∀ bound ∈ ranges table, bound.Holds value :=
      fun bound hbound => hvalue bound (List.mem_append_left _ hbound)
    have hholds : branch.Holds evaluate (solutionRow value hranges texts)
        (solutionParams value hranges) := by
      constructor
      · intro bound hbound
        exact solution_meets hranges texts (hvalue bound (List.mem_append_right _ hbound))
      · exact hothers
    have hrestricted := h _ _ (passes_iff.mpr ⟨branch,hbranch,hholds⟩)
    exact solution_total hranges texts ((restricted_iff _ _).mp hrestricted required hrequired)
  · intro h row params hpasses
    obtain ⟨branch,hbranch,hholds⟩ := passes_iff.mp hpasses
    refine (restricted_iff row params).mpr fun required hrequired => ?_
    refine entails_iff.mpr (h branch hbranch ⟨row.texts,hholds.others⟩ required hrequired) _ ?_
    intro bound hbound
    rcases List.mem_append.mp hbound with hrange | hbranch
    · exact total_ranges row params bound hrange
    · exact meets_total (hholds.bounds bound hbranch)

/-- A statement that is a single `SELECT` over one curated table. -/
structure Selection (Other : Type*) where
  table : AnalyticsAllowedTable
  condition : Option (Condition Other)
  deriving DecidableEq,Repr

/-- ClickHouse: how it reads a text that is a single `SELECT` over one curated table, and how it
evaluates the comparisons of texts. -/
structure Database (Other Texts : Type*) where
  parse : List Char → Option (Selection Other)
  evaluate : Other → Texts → Option Bool

/-- The row reaches the result of the statement. -/
def Database.Returns (database : Database Other Texts) (sql : List Char) (row : Row table Texts)
    (params : AnalyticsQueryParams) : Prop :=
  ∃ condition, database.parse sql = some ⟨table,condition⟩ ∧
    Passes database.evaluate row params condition

/-- The parser returns the tree of a single `SELECT` and lists its one table. -/
structure SelectsFrom (parser : SqlParser) (sql : List Char) (ast : Ast)
    (table : AnalyticsAllowedTable) : Prop where
  tree : parser.astify sql = .ok ast
  select : isSelectStatement ast = true
  withClause : ast.withItems = []
  entry : ∃ name : Option String, ':' ∉ (name.getD "null").toList ∧
    parser.tableList sql = [referenceText (name,table.name)]

/-- What the validation looks at in such a statement. -/
structure Checked (ast : Ast) (sql : List Char) (table : AnalyticsAllowedTable) : Prop where
  columns : containsSelectStar ast = false
  predicates : ∀ predicate ∈ (tablePredicatePolicies table).predicates,
    predicate.2.test (stripSqlCommentsAndStrings sql) = true
  placeholders : ∀ placeholder ∈ (tablePredicatePolicies table).requiredPlaceholders,
    placeholder.toList <:+: sql

theorem assertTablePredicatePolicies_one {sql : List Char} :
    assertTablePredicatePolicies sql [table] = .ok () ↔
      (∀ predicate ∈ (tablePredicatePolicies table).predicates,
        predicate.2.test (stripSqlCommentsAndStrings sql) = true) ∧
      ∀ placeholder ∈ (tablePredicatePolicies table).requiredPlaceholders,
        placeholder.toList <:+: sql := by
  rw [← assertTablePredicates_eq_ok]
  unfold assertTablePredicatePolicies
  simp only [List.forM_eq_forM,List.forM_cons,List.forM_nil,List.flatMap_cons,List.flatMap_nil,
    List.append_nil]
  cases hpredicates : assertTablePredicates (stripSqlCommentsAndStrings sql)
      (tablePredicatePolicies table).predicates with
  | error e => simp [bind,Except.bind]
  | ok _ =>
    simp only [bind,Except.bind,pure,Except.pure,true_and]
    rw [assertRequiredPlaceholders_eq_ok]
    simp only [OrderedMap.mem_distinct]

theorem allowedTable_name : allowedTable table.name = some table := by
  cases table <;> decide

theorem assertAllowedTables_one {parser : SqlParser} {sql : List Char} {ast : Ast}
    (h : SelectsFrom parser sql ast table) : assertAllowedTables parser sql ast = .ok [table] := by
  obtain ⟨name,hcolon,hlist⟩ := h.entry
  have hparts : lastPart.hasParts table.name.toList = false :=
    allowedTable_noParts (by rw [allowedTable_name]; rfl)
  have hname : tableListName (referenceText (name,table.name)) = table.name := by
    cases name with
    | none => exact @tableListName_referenceText "" (by decide) none (Or.inl rfl) _ hparts
    | some database => exact tableListName_referenceText hcolon (Or.inr rfl) hparts
  unfold assertAllowedTables
  simp [hlist,hname,allowedTable_name,OrderedMap.distinct]

theorem validate_one {parser : SqlParser} {input : String} {sql : List Char} {ast : Ast}
    (hnormal : normalizeSql input = .ok sql)
    (hparse : SelectsFrom parser (sqlWithParserPlaceholders sql) ast table) :
    validateAnalyticsSql parser input = .ok sql ↔ Checked ast sql table := by
  have hone : assertOneStatement ast = .ok () := by
    cases ast <;> first | rfl | cases hparse.select
  have hselect : assertSelectAst ast = .ok () := by
    simp [assertSelectAst,collectSelectStatements,hparse.select,hparse.withClause]
  unfold validateAnalyticsSql
  rw [hnormal]
  simp only [bind,Except.bind,hparse.tree,hone,hselect,assertAllowedTables_one hparse]
  unfold assertNoSelectStar
  cases hstar : containsSelectStar ast with
  | true =>
    constructor
    · intro h
      cases h
    · intro h
      exact absurd h.columns (by simp [hstar])
  | false =>
    simp only [Bool.false_eq_true,if_false]
    constructor
    · intro h
      obtain ⟨_,hpolicies,-⟩ := bind_eq_ok.mp h
      obtain ⟨hpredicates,hplaceholders⟩ := assertTablePredicatePolicies_one.mp hpolicies
      exact ⟨hstar,hpredicates,hplaceholders⟩
    · intro h
      rw [assertTablePredicatePolicies_one.mpr ⟨h.predicates,h.placeholders⟩]
      rfl

/-- What an accepted statement returns is restricted exactly when its text is refused or its `WHERE`
expression forces the comparisons: the patterns are found anywhere in the text. -/
theorem accepted_restricted_iff {parser : SqlParser} {database : Database Other Texts}
    {input : String} {sql : List Char} {ast : Ast} {condition : Option (Condition Other)}
    (hnormal : normalizeSql input = .ok sql)
    (hreads : database.parse sql = some ⟨table,condition⟩)
    (hparse : SelectsFrom parser (sqlWithParserPlaceholders sql) ast table) :
    (validateAnalyticsSql parser input = .ok sql →
      ∀ (row : Row table Texts) (params : AnalyticsQueryParams),
        database.Returns sql row params → row.Restricted params) ↔
      (Checked ast sql table → Forces database.evaluate table condition) := by
  rw [validate_one hnormal hparse,← passes_restricted_iff]
  refine forall_congr' fun _ => forall_congr' fun row => forall_congr' fun params => ?_
  have hreturns : database.Returns sql row params ↔
    Passes database.evaluate row params condition := by
    constructor
    · rintro ⟨condition',hreads',hpasses⟩
      rw [hreads] at hreads'
      cases hreads'
      exact hpasses
    · exact fun hpasses => ⟨condition,hreads,hpasses⟩
  rw [hreturns]

end

/-- Comparisons of a text column with a text. -/
def textEquals (comparison : String × String) (texts : String → Option String) : Option Bool :=
  (texts comparison.1).map (· = comparison.2)

/-- The database on a statement over the balances with this `WHERE` expression. -/
def balancesDatabase (condition : Condition (String × String)) :
    Database (String × String) (String → Option String) :=
  ⟨fun _ => some ⟨.balancesCurrent,some condition⟩,textEquals⟩

/-- `as_of_block_height <= {maxFinalizedHeight:UInt64}` -/
def heightBound : Condition (String × String) :=
  .compare (.column "as_of_block_height") .le (.placeholder .maxFinalizedHeight)

theorem balancesTree_selects (sql : List Char) :
    SelectsFrom (balancesParser .null "select::null::analytics_balances_current_v1") sql
      (balancesTree .null) .balancesCurrent :=
  ⟨rfl,by decide,rfl,⟨none,by decide,rfl⟩⟩

theorem accepted_restricted_iff_bounded :
    (validateAnalyticsSql (balancesParser .null "select::null::analytics_balances_current_v1")
        boundedBalances = .ok boundedBalances.toList →
      ∀ (row : Row .balancesCurrent (String → Option String)) (params : AnalyticsQueryParams),
        (balancesDatabase heightBound).Returns boundedBalances.toList row params →
          row.Restricted params) ↔
      (Checked (balancesTree .null) boundedBalances.toList .balancesCurrent →
        Forces textEquals .balancesCurrent (some heightBound)) :=
  accepted_restricted_iff (by decide +kernel) rfl (balancesTree_selects _)

def eitherBalances : String :=
  "SELECT address FROM analytics_balances_current_v1 WHERE as_of_block_height <= {maxFinalizedHeight:UInt64} OR 1 = 1"

def balancesRow : Row .balancesCurrent (String → Option String) where
  numbers _ := some 8
  texts _ := none
  inRange column hcolumn value hvalue := by
    cases hvalue
    revert column
    decide
  present _ _ _ := rfl

/-- A disjunction lets a row above the finalized height through. -/
theorem disjunction_accepted :
    validateAnalyticsSql (balancesParser .null "select::null::analytics_balances_current_v1")
        eitherBalances = .ok eitherBalances.toList ∧
    SelectsFrom (balancesParser .null "select::null::analytics_balances_current_v1")
      (sqlWithParserPlaceholders eitherBalances.toList) (balancesTree .null) .balancesCurrent ∧
    (balancesDatabase (.or heightBound (.compare (.literal 1) .eq (.literal 1)))).Returns
      eitherBalances.toList balancesRow (fun _ => 7) ∧
    ¬balancesRow.Restricted fun _ => 7 := by
  refine ⟨by decide +kernel,balancesTree_selects _,⟨_,rfl,?_⟩,?_⟩
  · intro expression hexpression
    cases hexpression
    decide
  · rintro ⟨height,hheight,hle⟩
    cases hheight
    revert hle
    decide

end OnlyDoge.Analytics
