import OnlyDoge.Library.SortedPrefix
import Mathlib.Algebra.Ring.Int.Defs
import Mathlib.Algebra.Ring.Nat
set_option autoImplicit false

/-! The migration definitions and the ledger of those applied (`metadata-store.ts`). -/

namespace OnlyDoge.Metadata

structure MetadataMigration where
  checksum : String
  name : String
  version : Int
  deriving DecidableEq,Repr

/-- A row of `metadata_migrations`. -/
structure AppliedMigration where
  appliedAt : String
  checksum : String
  name : String
  version : Int
  deriving DecidableEq,Repr

/-- The definition that a ledger row stands for. -/
def AppliedMigration.recorded (row : AppliedMigration) : MetadataMigration where
  checksum := row.checksum
  name := row.name
  version := row.version

/-- `Number.isSafeInteger` -/
def isSafeInteger (n : Int) : Bool := decide (-9007199254740991 ≤ n ∧ n ≤ 9007199254740991)

/-- One pass of the loop; the state is `versions` and `previous`. -/
def validateMigrationDefinition (state : List Int × Int) (migration : MetadataMigration) :
    Except String (List Int × Int) :=
  if !isSafeInteger migration.version || decide (migration.version ≤ state.2) then
    .error s!"metadata migration definitions are out of order at {migration.version}"
  else if migration.version ∈ state.1 then
    .error s!"duplicate metadata migration version {migration.version}"
  else .ok (state.1 ++ [migration.version],migration.version)

def validateMigrationDefinitions (migrations : List MetadataMigration) : Except String Unit := do
  let _ ← migrations.foldlM validateMigrationDefinition ([],0)
  return ()

section Drift
variable (metadataMigrations : List MetadataMigration)

def rowDefinitionDrift (row : AppliedMigration) : List String :=
  match metadataMigrations.find? (fun migration => migration.version = row.version) with
  | none => [s!"unknown metadata migration version {row.version}"]
  | some expected =>
    if expected.name ≠ row.name ∨ expected.checksum ≠ row.checksum then
      [s!"checksum/name drift for metadata migration {row.version}"]
    else []

def rowOrderDrift (previous : Int) (row : AppliedMigration) : List String :=
  if row.version ≤ previous then
    [s!"metadata migration ledger is out of order at version {row.version}"]
  else []

/-- The first loop of `appliedMigrationDrift`; the state is `drift` and `previous`. -/
def rowDrift (state : List String × Int) (row : AppliedMigration) : List String × Int :=
  (state.1 ++ rowDefinitionDrift metadataMigrations row ++ rowOrderDrift state.2 row,row.version)

/-- The second loop of `appliedMigrationDrift`. -/
def gapDrift (appliedVersions : List Int) (migration : MetadataMigration) : List String :=
  if migration.version ∈ appliedVersions ∧
      metadataMigrations.any fun earlier =>
        earlier.version < migration.version && !appliedVersions.contains earlier.version then
    [s!"metadata migration ledger has a gap before version {migration.version}"]
  else []

def appliedMigrationDrift (applied : List AppliedMigration) : List String :=
  (applied.foldl (rowDrift metadataMigrations) ([],0)).1 ++
    metadataMigrations.flatMap (gapDrift metadataMigrations (applied.map (·.version)))

def assertAppliedMigrations (applied : List AppliedMigration) : Except String Unit :=
  let drift := appliedMigrationDrift metadataMigrations applied
  if drift.length > 0 then .error ("metadata migration drift: " ++ "; ".intercalate drift)
  else .ok ()

end Drift

/-- Versions above `previous` that rise from one definition to the next. -/
def RisingFrom (previous : Int) (versions : List Int) : Prop :=
  (previous::versions).Pairwise (· < ·)

theorem risingFrom_cons {previous version : Int} {versions : List Int} :
    RisingFrom previous (version::versions) ↔ previous < version ∧ RisingFrom version versions := by
  simp only [RisingFrom,List.pairwise_cons,List.mem_cons]
  constructor
  · rintro ⟨hfirst,hrest⟩
    exact ⟨hfirst version (.inl rfl),hrest⟩
  · rintro ⟨hlt,habove,hrest⟩
    refine ⟨?_,habove,hrest⟩
    rintro other (rfl | hother)
    · exact hlt
    · have := habove other hother
      omega

theorem validateMigrationDefinition_ok {state next : List Int × Int} {m : MetadataMigration}
    (h : validateMigrationDefinition state m = .ok next) :
    state.2 < m.version ∧ next.2 = m.version := by
  unfold validateMigrationDefinition at h
  split at h
  · cases h
  · split at h
    · cases h
    · rename_i hvalid _
      cases h
      simp only [Bool.or_eq_true,decide_eq_true_eq,not_or,not_le] at hvalid
      exact ⟨hvalid.2,rfl⟩

theorem risingFrom_of_validate {migrations : List MetadataMigration} {state last : List Int × Int}
    (h : migrations.foldlM validateMigrationDefinition state = .ok last) :
    RisingFrom state.2 (migrations.map (·.version)) := by
  induction migrations generalizing state with
  | nil => simp [RisingFrom]
  | cons m migrations ih =>
    rw [List.foldlM_cons] at h
    cases hstep : validateMigrationDefinition state m with
    | error e =>
      rw [hstep] at h
      cases h
    | ok next =>
      rw [hstep] at h
      obtain ⟨hlt,hnext⟩ := validateMigrationDefinition_ok hstep
      have hrest := ih h
      rw [hnext] at hrest
      exact risingFrom_cons.mpr ⟨hlt,hrest⟩

theorem rising_of_validateMigrationDefinitions {migrations : List MetadataMigration}
    (h : validateMigrationDefinitions migrations = .ok ()) :
    RisingFrom 0 (migrations.map (·.version)) := by
  unfold validateMigrationDefinitions at h
  cases hrun : migrations.foldlM validateMigrationDefinition ([],0) with
  | error e =>
    rw [hrun] at h
    cases h
  | ok last => exact risingFrom_of_validate hrun

section Found
variable {metadataMigrations : List MetadataMigration} {applied : List AppliedMigration}

theorem pairwise_version (h : RisingFrom 0 (metadataMigrations.map (·.version))) :
    metadataMigrations.Pairwise (·.version < ·.version) :=
  List.pairwise_map.mp (List.pairwise_cons.mp h).2

theorem find_version (h : metadataMigrations.Pairwise (·.version < ·.version))
    {migration : MetadataMigration} (hmem : migration ∈ metadataMigrations) :
    metadataMigrations.find? (fun other => other.version = migration.version) =
      some migration := by
  induction metadataMigrations with
  | nil => exact absurd hmem List.not_mem_nil
  | cons first rest ih =>
    obtain ⟨hfirst,hrest⟩ := List.pairwise_cons.mp h
    rcases List.mem_cons.mp hmem with rfl | hin
    · simp
    · have hlt := hfirst migration hin
      have hne : ¬first.version = migration.version := by omega
      rw [List.find?_cons_of_neg (by simpa using hne)]
      exact ih hrest hin

theorem rowDefinitionDrift_eq_nil (h : metadataMigrations.Pairwise (·.version < ·.version))
    {row : AppliedMigration} :
    rowDefinitionDrift metadataMigrations row = [] ↔ row.recorded ∈ metadataMigrations := by
  unfold rowDefinitionDrift
  constructor
  · intro hnil
    split at hnil
    · cases hnil
    · rename_i expected hfind
      split at hnil
      · cases hnil
      · rename_i hsame
        have hversion : expected.version = row.version := by simpa using List.find?_some hfind
        have hexpected : expected = row.recorded := by
          cases expected
          simp only [not_or,not_not,ne_eq] at hsame
          simp only [AppliedMigration.recorded,MetadataMigration.mk.injEq]
          exact ⟨hsame.2,hsame.1,hversion⟩
        rw [← hexpected]
        exact List.mem_of_find?_eq_some hfind
  · intro hmem
    have hfind : metadataMigrations.find? (fun other => other.version = row.version) =
        some row.recorded := find_version h hmem
    rw [hfind]
    simp [AppliedMigration.recorded]

theorem rowOrderDrift_eq_nil {previous : Int} {row : AppliedMigration} :
    rowOrderDrift previous row = [] ↔ previous < row.version := by
  unfold rowOrderDrift
  split
  · rename_i hle
    simp only [List.cons_ne_nil,false_iff]
    omega
  · rename_i hlt
    simp only [true_iff]
    omega

theorem rowDrift_eq_nil (h : metadataMigrations.Pairwise (·.version < ·.version))
    {state : List String × Int} :
    (applied.foldl (rowDrift metadataMigrations) state).1 = [] ↔
      state.1 = [] ∧ (∀ row ∈ applied, row.recorded ∈ metadataMigrations) ∧
        RisingFrom state.2 (applied.map (·.version)) := by
  induction applied generalizing state with
  | nil => simp [RisingFrom]
  | cons row applied ih =>
    rw [List.foldl_cons,ih]
    simp only [rowDrift,List.append_eq_nil_iff,rowDefinitionDrift_eq_nil h,rowOrderDrift_eq_nil,
      List.forall_mem_cons,List.map_cons,risingFrom_cons]
    tauto

theorem gapDrift_eq_nil {appliedVersions : List Int} {migration : MetadataMigration} :
    gapDrift metadataMigrations appliedVersions migration = [] ↔
      (migration.version ∈ appliedVersions → ∀ earlier ∈ metadataMigrations,
        earlier.version < migration.version → earlier.version ∈ appliedVersions) := by
  unfold gapDrift
  split
  · rename_i hgap
    simp at hgap ⊢
    exact hgap
  · rename_i hgap
    simp at hgap ⊢
    exact hgap

theorem mem_recorded_iff (h : metadataMigrations.Pairwise (·.version < ·.version))
    (hknown : ∀ row ∈ applied, row.recorded ∈ metadataMigrations) {migration : MetadataMigration}
    (hmem : migration ∈ metadataMigrations) :
    migration ∈ applied.map (·.recorded) ↔ migration.version ∈ applied.map (·.version) := by
  constructor
  · intro hin
    obtain ⟨row,hrow,rfl⟩ := List.mem_map.mp hin
    exact List.mem_map.mpr ⟨row,hrow,rfl⟩
  · intro hin
    obtain ⟨row,hrow,hversion⟩ := List.mem_map.mp hin
    have hfind := find_version h (hknown row hrow)
    have hfind' := find_version h hmem
    have hsame : row.recorded.version = migration.version := hversion
    rw [hsame,hfind'] at hfind
    cases hfind
    exact List.mem_map.mpr ⟨row,hrow,rfl⟩

theorem appliedMigrationDrift_eq_nil (h : RisingFrom 0 (metadataMigrations.map (·.version))) :
    appliedMigrationDrift metadataMigrations applied = [] ↔
      applied.map (·.recorded) <+: metadataMigrations := by
  have hsorted := pairwise_version h
  rw [SortedPrefix.prefix_iff hsorted,appliedMigrationDrift,List.append_eq_nil_iff,
    rowDrift_eq_nil hsorted,List.flatMap_eq_nil_iff]
  simp only [gapDrift_eq_nil,true_and,List.forall_mem_map]
  have hpair : (applied.map (·.recorded)).Pairwise (·.version < ·.version) ↔
      (applied.map (·.version)).Pairwise (· < ·) := by
    simp only [List.pairwise_map]
    rfl
  rw [hpair]
  constructor
  · rintro ⟨⟨hknown,hrising⟩,hgap⟩
    refine ⟨(List.pairwise_cons.mp hrising).2,hknown,?_⟩
    intro y hy hyin z hz hlt
    rw [mem_recorded_iff hsorted hknown hy] at hyin
    exact (mem_recorded_iff hsorted hknown hz).mpr (hgap y hy hyin z hz hlt)
  · rintro ⟨hrising,hknown,hdown⟩
    refine ⟨⟨hknown,List.pairwise_cons.mpr ⟨?_,hrising⟩⟩,?_⟩
    · intro version hversion
      obtain ⟨row,hrow,rfl⟩ := List.mem_map.mp hversion
      exact (List.pairwise_cons.mp h).1 _ (List.mem_map.mpr ⟨_,hknown row hrow,rfl⟩)
    · intro y hy hyin z hz hlt
      rw [← mem_recorded_iff hsorted hknown hy] at hyin
      exact (mem_recorded_iff hsorted hknown hz).mp (hdown y hy hyin z hz hlt)

end Found

end OnlyDoge.Metadata
