import OnlyDoge.Warehouse.InMemory
import OnlyDoge.Warehouse.KeyRanges
import OnlyDoge.Library.Paging
set_option autoImplicit false

/-! The pages of the current balances of the in-memory warehouse (`warehouse-state.ts`). -/

namespace OnlyDoge.InMemory

structure ProjectionBalanceCursor where
  address : String
  assetAddress : String
  deriving DecidableEq,Repr

def balanceCursor (row : BalanceRow) : ProjectionBalanceCursor := ⟨row.address,row.assetAddress⟩

def isAfterSameAddressBalanceCursor (row : BalanceRow) (cursor : ProjectionBalanceCursor) : Bool :=
  [decide (row.address = cursor.address),
    codeUnitsBefore cursor.assetAddress row.assetAddress].all id

def isAfterBalanceCursor (row : BalanceRow) (cursor : ProjectionBalanceCursor) : Bool :=
  [codeUnitsBefore cursor.address row.address,isAfterSameAddressBalanceCursor row cursor].any id

def isCurrentBalancePageRow (row : BalanceRow) (cursor : Option ProjectionBalanceCursor) : Bool :=
  match cursor with
  | none => true
  | some cursor => isAfterBalanceCursor row cursor

def currentBalanceNextCursor (rows : List BalanceRow) (limit : Nat) :
    Option ProjectionBalanceCursor :=
  match rows.getLast? with
  | none => none
  | some last => if rows.length = limit then some (balanceCursor last) else none

section Collation
-- `String.prototype.localeCompare`, by its sign
variable (localeCompare : String → String → Ordering)

def compareBalanceRows (left right : BalanceRow) : Ordering :=
  (localeCompare left.address right.address).then
    (localeCompare left.assetAddress right.assetAddress)

def sortBalances (balances : List BalanceRow) : List BalanceRow :=
  balances.insertionSort fun left right => (compareBalanceRows localeCompare left right).isLE

def currentBalancePageRows (balances : List BalanceRow) (cursor : Option ProjectionBalanceCursor)
    (limit : Nat) : List BalanceRow :=
  (sortBalances localeCompare (balances.filter (isCurrentBalancePageRow · cursor))).take limit

def listCurrentBalancesPage (s : WarehouseState) (cursor : Option ProjectionBalanceCursor)
    (limit : Nat) : List BalanceRow × Option ProjectionBalanceCursor :=
  let rows := currentBalancePageRows localeCompare s.balances cursor limit
  (rows,currentBalanceNextCursor rows limit)

/-- The rows that a caller gets who follows `nextCursor` from `cursor` on over at most `fuel`
pages; `none` where there are more pages. -/
def followPages (s : WarehouseState) (limit : Nat) :
    Nat → Option ProjectionBalanceCursor → Option (List BalanceRow)
  | 0,_ => none
  | fuel + 1,cursor =>
    let page := listCurrentBalancesPage localeCompare s cursor limit
    match page.2 with
    | none => some page.1
    | some next => (followPages s limit fuel (some next)).map (page.1 ++ ·)

/-- Following the cursors from the start ends, with each row once. -/
def VisitsEachRowOnce (s : WarehouseState) (limit : Nat) : Prop :=
  ∃ fuel visited, followPages localeCompare s limit fuel none = some visited ∧
    visited.Perm s.balances

/-- Wherever a full page can end in the sorted rows, the rows after its last row by the cursor's
order are those after it by the sorting. -/
def CursorsMatchPages (s : WarehouseState) (limit : Nat) : Prop :=
  ∀ k ≥ 1, k * limit ≤ s.balances.length →
    Paging.CutsAt isAfterBalanceCursor balanceCursor (sortBalances localeCompare s.balances)
      (k * limit)

end Collation

theorem codeUnitsBefore_trans {a b c : String} (hab : codeUnitsBefore a b = true)
    (hbc : codeUnitsBefore b c = true) : codeUnitsBefore a c = true := by
  simp only [codeUnitsBefore,unitsBefore_iff] at hab hbc ⊢
  exact lt_trans hab hbc

theorem codeUnitsBefore_self (a : String) : codeUnitsBefore a a = false := by
  rw [← Bool.not_eq_true,codeUnitsBefore,unitsBefore_iff]
  exact lt_irrefl _

theorem isAfterBalanceCursor_iff {row : BalanceRow} {cursor : ProjectionBalanceCursor} :
    isAfterBalanceCursor row cursor = true ↔ codeUnitsBefore cursor.address row.address = true ∨
      row.address = cursor.address ∧
        codeUnitsBefore cursor.assetAddress row.assetAddress = true := by
  simp [isAfterBalanceCursor,isAfterSameAddressBalanceCursor]

theorem isAfterBalanceCursor_ascending : Paging.Ascending isAfterBalanceCursor balanceCursor := by
  intro row last cursor hrow hlast
  rw [isAfterBalanceCursor_iff] at hrow hlast ⊢
  rcases hrow with hrow | ⟨hrowEq,hrow⟩ <;> rcases hlast with hlast | ⟨hlastEq,hlast⟩
  · exact Or.inl (codeUnitsBefore_trans hlast hrow)
  · exact Or.inl (hlastEq ▸ hrow)
  · exact Or.inl (by rw [hrowEq]; exact hlast)
  · exact Or.inr ⟨hrowEq.trans hlastEq,codeUnitsBefore_trans hlast hrow⟩

theorem isAfterBalanceCursor_self (row : BalanceRow) :
    isAfterBalanceCursor row (balanceCursor row) = false := by
  simp [isAfterBalanceCursor,isAfterSameAddressBalanceCursor,balanceCursor,codeUnitsBefore_self]

theorem isCurrentBalancePageRow_eq (row : BalanceRow) (cursor : Option ProjectionBalanceCursor) :
    isCurrentBalancePageRow row cursor = cursor.all (isAfterBalanceCursor row) := by
  cases cursor <;> rfl

theorem currentBalanceNextCursor_eq (rows : List BalanceRow) (limit : Nat) :
    currentBalanceNextCursor rows limit = Paging.nextCursor balanceCursor limit rows := by
  unfold currentBalanceNextCursor Paging.nextCursor
  cases rows.getLast? with
  | none => simp
  | some last => rfl

theorem perm_sortBalances (localeCompare : String → String → Ordering)
    (balances : List BalanceRow) : (sortBalances localeCompare balances).Perm balances :=
  List.perm_insertionSort _ balances

section Collation
variable {localeCompare : String → String → Ordering} [Std.TransCmp localeCompare]

instance instTransCmpOnRow (f : BalanceRow → String) :
    Std.TransCmp fun left right => localeCompare (f left) (f right) where
  eq_swap := Std.OrientedCmp.eq_swap
  isLE_trans := Std.TransCmp.isLE_trans

instance instTransCmpBalanceRows : Std.TransCmp (compareBalanceRows localeCompare) :=
  inferInstanceAs (Std.TransCmp (compareLex (fun left right : BalanceRow =>
    localeCompare left.address right.address) fun left right =>
      localeCompare left.assetAddress right.assetAddress))

theorem filter_sortBalances (p : BalanceRow → Bool) (balances : List BalanceRow) :
    (sortBalances localeCompare balances).filter p =
      sortBalances localeCompare (balances.filter p) := by
  have htrans : IsTrans BalanceRow fun left right =>
      (compareBalanceRows localeCompare left right).isLE = true :=
    ⟨fun _ _ _ => Std.TransCmp.isLE_trans⟩
  have htotal : Std.Total fun left right : BalanceRow =>
      (compareBalanceRows localeCompare left right).isLE = true := by
    refine ⟨fun left right => ?_⟩
    rw [← Std.OrientedCmp.isGE_iff_isLE (a := left) (b := right)]
    cases compareBalanceRows localeCompare left right <;> simp
  exact Paging.filter_insertionSort _ p balances

theorem followPages_eq_visit (s : WarehouseState) (limit fuel : Nat)
    (cursor : Option ProjectionBalanceCursor) :
    followPages localeCompare s limit fuel cursor =
      Paging.visit isAfterBalanceCursor balanceCursor limit (sortBalances localeCompare s.balances)
        fuel cursor := by
  induction fuel generalizing cursor with
  | zero => rfl
  | succ fuel ih =>
    have hpage : currentBalancePageRows localeCompare s.balances cursor limit =
        Paging.page isAfterBalanceCursor limit (sortBalances localeCompare s.balances) cursor := by
      rw [Paging.page,filter_sortBalances]
      simp only [currentBalancePageRows,isCurrentBalancePageRow_eq]
    simp only [followPages,listCurrentBalancesPage,Paging.visit,hpage,currentBalanceNextCursor_eq,
      ih]
    cases Paging.nextCursor balanceCursor limit (Paging.page isAfterBalanceCursor limit
      (sortBalances localeCompare s.balances) cursor) <;> rfl

theorem followPages_ends (s : WarehouseState) (limit : Nat) :
    ∃ visited, followPages localeCompare s limit (s.balances.length + 1) none = some visited := by
  simp only [followPages_eq_visit]
  refine Paging.visit_ends isAfterBalanceCursor_ascending isAfterBalanceCursor_self ?_
  have hlength := (perm_sortBalances localeCompare s.balances).length_eq
  have hfilter := List.length_filter_le (fun row =>
    (none : Option ProjectionBalanceCursor).all (isAfterBalanceCursor row))
    (sortBalances localeCompare s.balances)
  omega

/-- Each row is visited once exactly when the cursor's order and the sorting agree at the ends of
the full pages. -/
theorem visitsEachRowOnce_iff (s : WarehouseState) (limit : Nat)
    (hkeys : (s.balances.map balanceCursor).Nodup) (hlimit : 1 ≤ limit) :
    VisitsEachRowOnce localeCompare s limit ↔ CursorsMatchPages localeCompare s limit := by
  have hperm : (sortBalances localeCompare s.balances).Perm s.balances := perm_sortBalances _ _
  have hnodup : (sortBalances localeCompare s.balances).Nodup :=
    hperm.nodup_iff.mpr (List.Nodup.of_map _ hkeys)
  have hall : ((sortBalances localeCompare s.balances).filter fun row =>
      (none : Option ProjectionBalanceCursor).all (isAfterBalanceCursor row)) =
      (sortBalances localeCompare s.balances).drop 0 := by simp
  have hiff : ∀ fuel visited, followPages localeCompare s limit fuel none = some visited →
      (visited.Perm s.balances ↔ CursorsMatchPages localeCompare s limit) := by
    intro fuel visited hvisit
    rw [followPages_eq_visit] at hvisit
    have := Paging.visit_perm_iff hlimit isAfterBalanceCursor_ascending hnodup (Nat.zero_le _) hall
      hvisit
    rw [List.drop_zero,hperm.length_eq] at this
    simp only [Nat.zero_add] at this
    exact (List.Perm.congr_right hperm visited).symm.trans this
  constructor
  · rintro ⟨fuel,visited,hvisit,hvisited⟩
    exact (hiff fuel visited hvisit).mp hvisited
  · intro hmatch
    obtain ⟨visited,hvisit⟩ : ∃ visited, followPages localeCompare s limit (s.balances.length + 1)
        none = some visited := followPages_ends s limit
    exact ⟨_,visited,hvisit,(hiff _ visited hvisit).mpr hmatch⟩

end Collation

def caseWeight (c : Char) : Nat := if c.isUpper then 1 else 0

/-- The root collation on texts of digits and letters: the letters of the alphabet first, and lower
case before upper case where nothing else differs. -/
def rootCollation (left right : String) : Ordering :=
  (List.compareLex compare (left.toList.map fun c => c.toLower.toNat)
    (right.toList.map fun c => c.toLower.toNat)).then
  (List.compareLex compare (left.toList.map caseWeight) (right.toList.map caseWeight))

instance instTransCmpOnWeights (f : String → List Nat) :
    Std.TransCmp fun left right => List.compareLex compare (f left) (f right) where
  eq_swap := Std.OrientedCmp.eq_swap
  isLE_trans := Std.TransCmp.isLE_trans

instance instTransCmpRootCollation : Std.TransCmp rootCollation :=
  inferInstanceAs (Std.TransCmp (compareLex
    (fun left right : String => List.compareLex compare (left.toList.map fun c => c.toLower.toNat)
      (right.toList.map fun c => c.toLower.toNat))
    fun left right => List.compareLex compare (left.toList.map caseWeight)
      (right.toList.map caseWeight)))

def balanceOf (address : String) : BalanceRow := ⟨address,"",100000000,5⟩

/-- Code units and the collation order these two addresses alike. -/
def sameCaseState : WarehouseState :=
  { emptyWarehouseState with balances := [balanceOf "DRoJs3it86rKHJeLfCChyn6snaTenVAAwF",
      balanceOf "D8bwVYQN8BGBxPSXSGgpaVDABwPQEnJgfn"] }

/-- By code units the second address stands first. -/
def mixedCaseState : WarehouseState :=
  { emptyWarehouseState with balances := [balanceOf "DBavj74tM1FpCh8p5iw78buSipKhztUmgr",
      balanceOf "DBC11AMdQwoiNhmQDHGjBGByPN6vmt1vs6"] }

theorem visitsEachRowOnce_sameCase : VisitsEachRowOnce rootCollation sameCaseState 1 := by
  refine (visitsEachRowOnce_iff sameCaseState 1 (by decide) (by decide)).mpr ?_
  have hsorted : sortBalances rootCollation sameCaseState.balances =
      [balanceOf "D8bwVYQN8BGBxPSXSGgpaVDABwPQEnJgfn",
        balanceOf "DRoJs3it86rKHJeLfCChyn6snaTenVAAwF"] := by decide +kernel
  intro k hk hle last hlast i row hi
  rw [hsorted] at hlast hi
  have hk2 : k * 1 ≤ 2 := hle
  obtain rfl | rfl : k = 1 ∨ k = 2 := by omega
  · cases hlast
    rcases i with _ | _ | i
    · cases hi
      decide
    · cases hi
      decide
    · simp at hi
  · cases hlast
    rcases i with _ | _ | i
    · cases hi
      decide
    · cases hi
      decide
    · simp at hi

/-- The second address stands on no page. -/
theorem mixed_case_row_skipped : ¬VisitsEachRowOnce rootCollation mixedCaseState 1 := by
  have hfirst : listCurrentBalancesPage rootCollation mixedCaseState none 1 =
      ([balanceOf "DBavj74tM1FpCh8p5iw78buSipKhztUmgr"],
        some ⟨"DBavj74tM1FpCh8p5iw78buSipKhztUmgr",""⟩) := by decide +kernel
  have hsecond : listCurrentBalancesPage rootCollation mixedCaseState
      (some ⟨"DBavj74tM1FpCh8p5iw78buSipKhztUmgr",""⟩) 1 = ([],none) := by decide +kernel
  rintro ⟨fuel,visited,hvisit,hperm⟩
  rcases fuel with _ | _ | fuel
  · cases hvisit
  · simp [followPages,hfirst] at hvisit
  · simp only [followPages,hfirst,hsecond,Option.map_some,Option.some.injEq] at hvisit
    subst hvisit
    exact absurd hperm.length_eq (by decide)

end OnlyDoge.InMemory
