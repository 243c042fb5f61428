import OnlyDoge.Metadata.Migrations
import OnlyDoge.Library.Transaction
set_option autoImplicit false

/-! A migration run resumes from a prefix of the definitions and applies the rest in order. -/

namespace OnlyDoge.Metadata

/-- A row stands before the first row with a greater key. -/
def insertRow : List AppliedMigration → AppliedMigration → List AppliedMigration
  | [],row => [row]
  | first::rest,row =>
    if row.version < first.version then row::first::rest else first::insertRow rest row

theorem mem_insertRow {rows : List AppliedMigration} {row other : AppliedMigration} :
    other ∈ insertRow rows row ↔ other = row ∨ other ∈ rows := by
  induction rows with
  | nil => simp [insertRow]
  | cons first rest ih =>
    unfold insertRow
    split
    · simp
    · simp only [List.mem_cons,ih]
      tauto

theorem insertRow_sorted {rows : List AppliedMigration} {row : AppliedMigration}
    (h : rows.Pairwise (·.version < ·.version)) (hnew : row.version ∉ rows.map (·.version)) :
    (insertRow rows row).Pairwise (·.version < ·.version) := by
  induction rows with
  | nil => simp [insertRow]
  | cons first rest ih =>
    obtain ⟨hfirst,hrest⟩ := List.pairwise_cons.mp h
    simp only [List.map_cons,List.mem_cons,not_or] at hnew
    unfold insertRow
    split
    · rename_i hlt
      refine List.pairwise_cons.mpr ⟨?_,h⟩
      intro other hother
      rcases List.mem_cons.mp hother with rfl | hin
      · exact hlt
      · have := hfirst other hin
        omega
    · rename_i hge
      refine List.pairwise_cons.mpr ⟨?_,ih hrest hnew.2⟩
      intro other hother
      rcases mem_insertRow.mp hother with rfl | hin
      · have := hnew.1
        omega
      · exact hfirst other hin

theorem insertRow_last {rows : List AppliedMigration} {row : AppliedMigration}
    (h : ∀ other ∈ rows, other.version < row.version) : insertRow rows row = rows ++ [row] := by
  induction rows with
  | nil => rfl
  | cons first rest ih =>
    have hfirst := h first List.mem_cons_self
    rw [insertRow,if_neg (by omega),ih fun other hother => h other (List.mem_cons_of_mem _ hother)]
    rfl

/-- `metadata_migrations`, in the order of its primary key. -/
structure MigrationLedger where
  rows : List AppliedMigration
  sorted : rows.Pairwise (·.version < ·.version)

inductive MigrationError where
  | program (message : String)
  | database
  deriving DecidableEq,Repr

namespace MigrationLedger

def insert (ledger : MigrationLedger) (row : AppliedMigration) :
    Except MigrationError MigrationLedger :=
  if hkey : row.version ∈ ledger.rows.map (·.version) then .error .database
  else .ok ⟨insertRow ledger.rows row,insertRow_sorted ledger.sorted hkey⟩

def recorded (ledger : MigrationLedger) : List MetadataMigration :=
  ledger.rows.map (·.recorded)

end MigrationLedger

/-- The metadata database; a ledger that does not exist yet has no rows. -/
structure MetadataTables (σ : Type) where
  schema : σ
  ledger : MigrationLedger

def schemaPart (σ : Type) : StatePart (MetadataTables σ) σ where
  get tables := tables.schema
  put schema tables := { tables with schema }
  get_put _ _ := rfl
  put_get _ := rfl
  put_put _ _ _ := rfl

inductive ExecutorKind where
  | mysql
  | postgres
  | sqlite
  deriving DecidableEq,Repr

/-- The statements of the migrations, which leave the ledger alone, and the clock. -/
structure MigrationScripts (σ : Type) where
  requireColumns : σ → Except MigrationError Unit
  applyMigration : Int → Job σ MigrationError Unit
  verifyMigration : Int → Job σ MigrationError Unit
  nowIsoString : σ → String

section Run
variable {σ : Type} (scripts : MigrationScripts σ) (metadataMigrations : List MetadataMigration)

def ledgerRow (migration : MetadataMigration) (appliedAt : String) : AppliedMigration where
  appliedAt := appliedAt
  checksum := migration.checksum
  name := migration.name
  version := migration.version

/-- The `INSERT INTO metadata_migrations`. -/
def insertMigration (migration : MetadataMigration) (tables : MetadataTables σ) :
    Except MigrationError Unit × MetadataTables σ :=
  match tables.ledger.insert (ledgerRow migration (scripts.nowIsoString tables.schema)) with
  | .ok ledger => (.ok (),{ tables with ledger })
  | .error e => (.error e,tables)

def migrationStatements (migration : MetadataMigration) :
    Job (MetadataTables σ) MigrationError Unit := do
  Job.zoom (schemaPart σ) (scripts.applyMigration migration.version)
  Job.zoom (schemaPart σ) (scripts.verifyMigration migration.version)
  let inserted ← Job.call (insertMigration scripts migration)
  Job.ofExcept inserted

def runMigration (kind : ExecutorKind) (migration : MetadataMigration) :
    Job (MetadataTables σ) MigrationError Unit :=
  if kind = .postgres then Job.inTransaction (migrationStatements scripts migration)
  else migrationStatements scripts migration

def bootstrapMigrationLedger : Job (MetadataTables σ) MigrationError Unit := do
  Job.write id
  let columns ← Job.read fun tables => scripts.requireColumns tables.schema
  Job.ofExcept columns

def migrateOne (kind : ExecutorKind) (applied : List AppliedMigration)
    (migration : MetadataMigration) : Job (MetadataTables σ) MigrationError Unit :=
  if applied.any fun row => row.version = migration.version then
    Job.zoom (schemaPart σ) (scripts.verifyMigration migration.version)
  else runMigration scripts kind migration

def migrationWork (kind : ExecutorKind) : Job (MetadataTables σ) MigrationError Unit := do
  bootstrapMigrationLedger scripts
  let applied ← Job.read fun tables => tables.ledger.rows
  Job.ofExcept ((assertAppliedMigrations metadataMigrations applied).mapError .program)
  Job.forEach metadataMigrations (migrateOne scripts kind applied)

/-- One run under the migration lock; the lock of SQLite is its write transaction. -/
def runMetadataMigrations (kind : ExecutorKind) : Job (MetadataTables σ) MigrationError Unit := do
  Job.ofExcept ((validateMigrationDefinitions metadataMigrations).mapError .program)
  if kind = .sqlite then Job.inTransaction (migrationWork scripts metadataMigrations kind)
  else migrationWork scripts metadataMigrations kind

end Run

section Spec
open Job
variable {σ : Type} {scripts : MigrationScripts σ} {metadataMigrations : List MetadataMigration}
  {kind : ExecutorKind} {tables : MetadataTables σ} {migration : MetadataMigration}

theorem wp_zoom_schema (m : Job σ MigrationError Unit) :
    wp (zoom (schemaPart σ) m) (fun _ t => t.ledger = tables.ledger)
      (fun _ t => t.ledger = tables.ledger) (fun t => t.ledger = tables.ledger) tables :=
  wp_zoom (wp_mono (wp_true m) (fun _ _ _ => rfl) (fun _ _ _ => rfl) fun _ _ => rfl)

/-- The ledger has one row more, for `migration`. -/
def Recorded (migration : MetadataMigration) (before after : MetadataTables σ) : Prop :=
  ∃ appliedAt, after.ledger.rows = before.ledger.rows ++ [ledgerRow migration appliedAt]

def RecordedOrNot (migration : MetadataMigration) (before after : MetadataTables σ) : Prop :=
  after.ledger.rows = before.ledger.rows ∨ Recorded migration before after

theorem insertMigration_recorded
    (hnew : ∀ row ∈ tables.ledger.rows, row.version < migration.version) :
    (insertMigration scripts migration tables).1 = .ok () ∧
      Recorded migration tables (insertMigration scripts migration tables).2 := by
  have hkey : (ledgerRow migration (scripts.nowIsoString tables.schema)).version ∉
      tables.ledger.rows.map (·.version) := by
    intro hin
    obtain ⟨row,hrow,hversion⟩ := List.mem_map.mp hin
    have hlt := hnew row hrow
    simp only [ledgerRow] at hversion
    omega
  simp only [insertMigration,MigrationLedger.insert,hkey,dif_neg,not_false_eq_true,true_and]
  exact ⟨_,insertRow_last hnew⟩

theorem wp_migrationStatements
    (hnew : ∀ row ∈ tables.ledger.rows, row.version < migration.version) :
    wp (migrationStatements scripts migration) (fun _ t => Recorded migration tables t)
      (fun _ t => RecordedOrNot migration tables t) (fun t => RecordedOrNot migration tables t)
      tables := by
  have hsame {t : MetadataTables σ} (ht : t.ledger = tables.ledger) :
      RecordedOrNot migration tables t := .inl (by rw [ht])
  refine wp_bind (wp_mono (wp_zoom_schema _) ?_ (fun _ _ => hsame) (fun _ => hsame))
  intro _ t ht
  refine wp_bind (wp_mono (wp_zoom_schema _) ?_ ?_ ?_)
  · intro _ t' ht'
    rw [ht] at ht'
    have hnew' : ∀ row ∈ t'.ledger.rows, row.version < migration.version := by
      rw [ht']
      exact hnew
    obtain ⟨hok,appliedAt,hrows⟩ := @insertMigration_recorded σ scripts t' migration hnew'
    rw [ht'] at hrows
    refine wp_bind (wp_call ?_ ?_ ?_ ?_)
    · rw [hok]
      exact wp_pure ⟨appliedAt,hrows⟩
    · exact .inr ⟨appliedAt,hrows⟩
    · exact hsame ht'
    · exact hsame ht'
  · exact fun _ t' ht' => hsame (ht'.trans ht)
  · exact fun t' ht' => hsame (ht'.trans ht)

theorem wp_runMigration (hnew : ∀ row ∈ tables.ledger.rows, row.version < migration.version) :
    wp (runMigration scripts kind migration) (fun _ t => Recorded migration tables t)
      (fun _ t => RecordedOrNot migration tables t) (fun t => RecordedOrNot migration tables t)
      tables := by
  have hbody := @wp_migrationStatements σ scripts tables migration hnew
  unfold runMigration
  split
  · refine wp_inTransaction (wp_mono hbody ?_ ?_ ?_) (.inl rfl) (.inl rfl)
    · exact fun _ t ht => ⟨ht,.inr ht⟩
    · exact fun _ _ _ => .inl rfl
    · exact fun _ _ => trivial
  · exact hbody

/-- From `before` on the ledger grew along the definitions. -/
structure Resumed (metadataMigrations : List MetadataMigration)
    (before after : MetadataTables σ) : Prop where
  kept : before.ledger.rows <+: after.ledger.rows
  inOrder : after.ledger.recorded <+: metadataMigrations

theorem recorded_of_recorded {after : MetadataTables σ} (h : Recorded migration tables after) :
    tables.ledger.rows <+: after.ledger.rows ∧
      after.ledger.recorded = tables.ledger.recorded ++ [migration] := by
  obtain ⟨appliedAt,hrows⟩ := h
  constructor
  · rw [hrows]
    exact List.prefix_append _ _
  · simp [MigrationLedger.recorded,hrows,ledgerRow,AppliedMigration.recorded]

variable {before : MetadataTables σ}

theorem wp_verifyApplied {applied : List AppliedMigration} {done : List MetadataMigration}
    (happlied : ∀ migration ∈ done, migration.version ∈ applied.map (·.version)) :
    wp (forEach done (migrateOne scripts kind applied)) (fun _ t => t.ledger = tables.ledger)
      (fun _ t => t.ledger = tables.ledger) (fun t => t.ledger = tables.ledger) tables := by
  refine wp_forEach (fun _ (t : MetadataTables σ) => t.ledger = tables.ledger) ?_ rfl
  intro passed migration ahead t hdone ht
  have hin : applied.any fun row => row.version = migration.version := by
    have hmem := happlied migration (by simp [hdone])
    simpa using hmem
  unfold migrateOne
  rw [if_pos hin]
  exact wp_mono (wp_zoom_schema _) (fun _ _ h => h.trans ht) (fun _ _ h => h.trans ht)
    fun _ h => h.trans ht

theorem wp_migrateRest {applied : List AppliedMigration} {done rest : List MetadataMigration}
    (hsorted : (done ++ rest).Pairwise (·.version < ·.version))
    (happlied : applied.map (·.recorded) = done)
    (hledger : tables.ledger.recorded = done) (hkept : before.ledger.rows <+: tables.ledger.rows) :
    wp (forEach rest (migrateOne scripts kind applied))
      (fun _ t => Resumed (done ++ rest) before t ∧ t.ledger.recorded = done ++ rest)
      (fun _ t => Resumed (done ++ rest) before t) (fun t => Resumed (done ++ rest) before t)
      tables := by
  let grown (passed : List MetadataMigration) (t : MetadataTables σ) : Prop :=
    before.ledger.rows <+: t.ledger.rows ∧ t.ledger.recorded = done ++ passed
  have hresumed {passed ahead : List MetadataMigration} {t : MetadataTables σ}
      (hrest : rest = passed ++ ahead) (ht : grown passed t) : Resumed (done ++ rest) before t := by
    refine ⟨ht.1,?_⟩
    rw [ht.2,hrest,← List.append_assoc]
    exact List.prefix_append _ _
  refine wp_mono (wp_forEach grown ?_ ⟨hkept,by simpa using hledger⟩) ?_ (fun _ _ h => h)
    (fun _ h => h)
  · intro passed migration ahead t hrest ht
    have hbelow : ∀ other ∈ done ++ passed, other.version < migration.version := by
      intro other hother
      rw [hrest,← List.append_assoc] at hsorted
      exact (List.pairwise_append.mp hsorted).2.2 other hother migration List.mem_cons_self
    have hnot : ¬applied.any fun row => row.version = migration.version := by
      intro hany
      simp only [List.any_eq_true,decide_eq_true_eq] at hany
      obtain ⟨row,hrow,hversion⟩ := hany
      have hin : row.recorded ∈ done := by
        rw [← happlied]
        exact List.mem_map.mpr ⟨row,hrow,rfl⟩
      have hlt := hbelow row.recorded (List.mem_append_left _ hin)
      simp only [AppliedMigration.recorded] at hlt
      omega
    have hnew : ∀ row ∈ t.ledger.rows, row.version < migration.version := by
      intro row hrow
      refine hbelow row.recorded ?_
      rw [← ht.2]
      exact List.mem_map.mpr ⟨row,hrow,rfl⟩
    have hstep {t' : MetadataTables σ} (h : Recorded migration t t') :
        grown (passed ++ [migration]) t' := by
      obtain ⟨hkept',hrecorded⟩ := recorded_of_recorded h
      exact ⟨ht.1.trans hkept',by rw [hrecorded,ht.2,List.append_assoc]⟩
    have hor {t' : MetadataTables σ} (h : RecordedOrNot migration t t') :
        Resumed (done ++ rest) before t' := by
      rcases h with hsame | hrecorded
      · have ht' : grown passed t' := by
          simp only [grown,MigrationLedger.recorded,hsame]
          exact ht
        exact hresumed hrest ht'
      · have hrest' : rest = (passed ++ [migration]) ++ ahead := by simp [hrest]
        exact hresumed hrest' (hstep hrecorded)
    unfold migrateOne
    rw [if_neg hnot]
    exact wp_mono (wp_runMigration hnew) (fun _ _ => hstep) (fun _ _ => hor) fun _ => hor
  · intro _ t ht
    exact ⟨hresumed (List.append_nil rest).symm ht,ht.2⟩

theorem assertAppliedMigrations_ok {applied : List AppliedMigration}
    (hvalid : validateMigrationDefinitions metadataMigrations = .ok ()) {u : Unit} :
    assertAppliedMigrations metadataMigrations applied = .ok u ↔
      applied.map (·.recorded) <+: metadataMigrations := by
  rw [← appliedMigrationDrift_eq_nil (rising_of_validateMigrationDefinitions hvalid),
    assertAppliedMigrations]
  split
  · rename_i hdrift
    simp only [reduceCtorEq,false_iff]
    exact List.length_pos_iff.mp hdrift
  · rename_i hdrift
    simp only [true_iff]
    exact List.length_eq_zero_iff.mp (by omega)

/-- What a run leaves of a ledger that is a prefix of the definitions, and of one that is not. -/
structure RunEnds (metadataMigrations : List MetadataMigration) (before after : MetadataTables σ) :
    Prop where
  resumed : before.ledger.recorded <+: metadataMigrations →
    Resumed metadataMigrations before after
  untouched : ¬before.ledger.recorded <+: metadataMigrations → after = before

theorem runEnds_refl : RunEnds metadataMigrations tables tables :=
  ⟨fun h => ⟨List.prefix_refl _,h⟩,fun _ => rfl⟩

theorem wp_migrationWork (hvalid : validateMigrationDefinitions metadataMigrations = .ok ()) :
    wp (migrationWork scripts metadataMigrations kind)
      (fun _ t => RunEnds metadataMigrations tables t ∧
        tables.ledger.recorded <+: metadataMigrations ∧ t.ledger.recorded = metadataMigrations)
      (fun _ t => RunEnds metadataMigrations tables t)
      (fun t => RunEnds metadataMigrations tables t) tables := by
  have hsorted := pairwise_version (rising_of_validateMigrationDefinitions hvalid)
  have hstay : RunEnds metadataMigrations tables tables := runEnds_refl
  refine wp_bind (wp_bind (wp_write ?_ hstay hstay hstay))
  refine wp_bind (wp_read ?_ hstay hstay)
  refine wp_ofExcept (fun _ _ => ?_) (fun _ _ => hstay)
  refine wp_bind (wp_read ?_ hstay hstay)
  refine wp_bind (wp_ofExcept ?_ fun _ _ => hstay)
  intro u hassert
  have hinitial : tables.ledger.recorded <+: metadataMigrations := by
    cases hdrift : assertAppliedMigrations metadataMigrations tables.ledger.rows with
    | error e =>
      simp only [id_eq,hdrift,Except.mapError] at hassert
      cases hassert
    | ok v => exact (assertAppliedMigrations_ok hvalid).mp hdrift
  have hends {t : MetadataTables σ} (ht : Resumed metadataMigrations tables t) :
      RunEnds metadataMigrations tables t := ⟨fun _ => ht,fun h => absurd hinitial h⟩
  obtain ⟨rest,hrest⟩ := hinitial
  have hverified {t : MetadataTables σ} (ht : t.ledger = tables.ledger) :
      Resumed metadataMigrations tables t := by
    refine ⟨?_,?_⟩
    · simp [ht]
    · rw [ht]
      exact ⟨rest,hrest⟩
  have happlied : ∀ migration ∈ tables.ledger.recorded,
      migration.version ∈ tables.ledger.rows.map (·.version) := by
    intro migration hmigration
    obtain ⟨row,hrow,rfl⟩ := List.mem_map.mp hmigration
    exact List.mem_map.mpr ⟨row,hrow,rfl⟩
  rw [← hrest] at hsorted
  have hloop : wp (forEach (tables.ledger.recorded ++ rest)
      (migrateOne scripts kind tables.ledger.rows))
      (fun _ t => RunEnds metadataMigrations tables t ∧
        tables.ledger.recorded <+: metadataMigrations ∧ t.ledger.recorded = metadataMigrations)
      (fun _ t => RunEnds metadataMigrations tables t)
      (fun t => RunEnds metadataMigrations tables t) tables := by
    refine wp_forEach_append (wp_mono (wp_verifyApplied happlied) ?_
      (fun _ _ h => hends (hverified h)) (fun _ h => hends (hverified h)))
    intro _ t ht
    have hledger : t.ledger.recorded = tables.ledger.recorded := by rw [ht]
    have hkept : tables.ledger.rows <+: t.ledger.rows := by simp [ht]
    refine wp_mono (wp_migrateRest hsorted rfl hledger hkept) ?_ ?_ ?_
    · rintro _ t' ⟨hresumed,hall⟩
      rw [hrest] at hresumed hall
      exact ⟨hends hresumed,⟨rest,hrest⟩,hall⟩
    · intro _ t' hresumed
      rw [hrest] at hresumed
      exact hends hresumed
    · intro t' hresumed
      rw [hrest] at hresumed
      exact hends hresumed
  rw [hrest] at hloop
  exact hloop

theorem wp_runMetadataMigrations
    (hvalid : validateMigrationDefinitions metadataMigrations = .ok ()) :
    wp (runMetadataMigrations scripts metadataMigrations kind)
      (fun _ t => RunEnds metadataMigrations tables t ∧
        tables.ledger.recorded <+: metadataMigrations ∧ t.ledger.recorded = metadataMigrations)
      (fun _ t => RunEnds metadataMigrations tables t)
      (fun t => RunEnds metadataMigrations tables t) tables := by
  have hstay : RunEnds metadataMigrations tables tables := runEnds_refl
  have hwork := @wp_migrationWork σ scripts metadataMigrations kind tables hvalid
  refine wp_bind (wp_ofExcept (fun _ _ => ?_) fun _ _ => hstay)
  refine wp_ite (fun _ => ?_) fun _ => hwork
  refine wp_inTransaction (wp_mono hwork ?_ ?_ ?_) hstay hstay
  · exact fun _ t ht => ⟨ht,ht.1⟩
  · exact fun _ _ _ => hstay
  · exact fun _ _ => trivial

end Spec

def baselineMigrations : List MetadataMigration :=
  [⟨"a1","baseline_current_metadata_schema",1⟩,⟨"b2","audit_resource_ids_json",2⟩]

def baselineRow : AppliedMigration := ⟨"2024","a1","baseline_current_metadata_schema",1⟩

/-- A schema is the versions of the migrations applied to it. -/
def versionScripts : MigrationScripts (List Int) where
  requireColumns _ := .ok ()
  applyMigration version := Job.write fun schema => schema ++ [version]
  verifyMigration _ := Job.read fun _ => ()
  nowIsoString _ := "2025"

def afterBaseline : MetadataTables (List Int) := ⟨[1],[baselineRow],by simp⟩

end OnlyDoge.Metadata
