import ForgeIndex.Db.Manager

/-!
# Starting again

The part of `ForgeIndexRunner::run` in `forge-index/src/runner.rs` that sets the database up and
compares the build ids, over one run and the next.
-/

namespace ForgeIndex

open DatabaseManager

namespace ForgeIndexRunner

/-- What a run meets outside the process: the connection, what becomes of the statements of the
setup, and what becomes of the one of the check. -/
structure Start where
  connectionString : String
  poolMaxConnections : UInt32
  refused : Option PgError
  reply : ℕ → Reply
  check : Reply

variable (sha256 : Bytes → Bytes)

/-- "Database setup"; the Postgres schema is handed on. -/
def setupDatabase (start : Start) (database : DatabaseConfig) (schema : Schema) :
    Proc PgState ForgeError String :=
  match database with
  | .pglite _ => Proc.fail (.config "PGlite is not yet supported")
  | .postgres connectionString pgSchema poolMaxConnections => do
    Proc.mapErr (fun e => .config ("Database setup failed: " ++ e.display)) (Proc.ofExcept
      (DatabaseManager.new start.refused
        (.postgres connectionString pgSchema poolMaxConnections)))
    -- `setup` does not give `SchemaLocked`
    Proc.mapErr (fun e => .config ("Schema migration failed: " ++ e.display))
      (setup sha256 start.reply schema pgSchema)
    pure pgSchema

/-- "Database setup" and "Check build ID status". -/
def buildIdStatus (start : Start) (database : DatabaseConfig) (schema : Schema) :
    Proc PgState ForgeError BuildIdStatus := do
  let pgSchema ← setupDatabase sha256 start database schema
  Proc.mapErr (fun e => .config ("Build ID check failed: " ++ e.display))
    (checkBuildId sha256 start.check schema pgSchema)

/-- A run with the tables `s₁` that completes its setup, and the next run on the same Postgres
schema, with `s₂`, that gets a status.  What the first run does to the database after its setup
is not restricted. -/
structure Restart (s₁ s₂ : Schema) where
  pgSchema : String
  first : Start
  second : Start
  fresh : PgState
  completed : PgState
  afterwards : PgState → PgState
  checked : PgState
  status : BuildIdStatus
  setup_first : setupDatabase sha256 first
    (.postgres first.connectionString pgSchema first.poolMaxConnections) s₁ fresh =
      (.ok pgSchema, completed)
  status_second : buildIdStatus sha256 second
    (.postgres second.connectionString pgSchema second.poolMaxConnections) s₂
      (afterwards completed) = (.ok status, checked)

/-- The status tells the ids of the two runs apart, and gives the old one. -/
structure Notices (old new : String) (status : BuildIdStatus) : Prop where
  same : old = new → status = .same
  changed : old ≠ new → ∃ new', status = .changed old new'

variable {sha256}

theorem setupDatabase_stores {start : Start} {database : DatabaseConfig} {schema : Schema}
    {pgSchema : String} {db db' : PgState}
    (h : setupDatabase sha256 start database schema db = (.ok pgSchema, db')) :
    db'.selectBuildId pgSchema = .ok (schema.buildId sha256) := by
  unfold setupDatabase at h
  cases database with
  | pglite directory => cases h
  | postgres connectionString pgSchema' poolMaxConnections =>
    obtain ⟨_, db₁, -, h⟩ := Proc.bind_ok_iff.mp h
    obtain ⟨_, db₂, hsetup, h⟩ := Proc.bind_ok_iff.mp h
    cases h
    exact setup_stores (Proc.mapErr_ok_iff.mp hsetup)

/-- The check as the unit test makes it, right after the setup of the run before. -/
theorem notices_check_after_setup {start : Start} {database : DatabaseConfig} {s₁ s₂ : Schema}
    {pgSchema : String} {db db' : PgState}
    (h : setupDatabase sha256 start database s₁ db = (.ok pgSchema, db')) :
    ∃ status, checkBuildId sha256 .answered s₂ pgSchema db' = (.ok status, db') ∧
      Notices (s₁.buildId sha256) (s₂.buildId sha256) status := by
  refine ⟨_, checkBuildId_answered (setupDatabase_stores h), ?_, ?_⟩
  · intro hsame
    rw [if_pos hsame]
  · intro hne
    exact ⟨s₂.buildId sha256, if_neg hne⟩

/-- A run whose setup and check are answered finds the build id of its own tables. -/
theorem buildIdStatus_of_setup {start : Start} (hcheck : start.check = .answered)
    {database : DatabaseConfig} {schema : Schema} {pgSchema : String} {db db' : PgState}
    (h : setupDatabase sha256 start database schema db = (.ok pgSchema, db')) :
    buildIdStatus sha256 start database schema db = (.ok .same, db') := by
  unfold buildIdStatus
  rw [Proc.bind_of_ok h, Proc.mapErr_ok_iff, hcheck,
    checkBuildId_answered (setupDatabase_stores h), if_pos rfl]

theorem Restart.status_eq {s₁ s₂ : Schema} (r : Restart sha256 s₁ s₂) :
    r.status = if r.second.check = .answered then .same else .notFound := by
  obtain ⟨pgSchema, db, hsetup, hcheck⟩ := Proc.bind_ok_iff.mp r.status_second
  by_cases hanswered : r.second.check = .answered
  -- nothing of the first run is left in the row
  · rw [if_pos hanswered]
    have hsame := buildIdStatus_of_setup hanswered hsetup
    rw [r.status_second] at hsame
    exact Ended.ok.inj (congrArg Prod.fst hsame)
  · rw [if_neg hanswered]
    exact checkBuildId_not_answered hanswered (Proc.mapErr_ok_iff.mp hcheck)

/-- The second run notices whether the build id has changed exactly when it has not, and Postgres
answers. -/
theorem restart_notices_iff {s₁ s₂ : Schema} (r : Restart sha256 s₁ s₂) :
    Notices (s₁.buildId sha256) (s₂.buildId sha256) r.status ↔
      s₁.buildId sha256 = s₂.buildId sha256 ∧ r.second.check = .answered := by
  rw [r.status_eq]
  constructor
  · intro h
    by_cases hsame : s₁.buildId sha256 = s₂.buildId sha256
    · refine ⟨hsame, ?_⟩
      by_contra hanswered
      have hstatus := h.same hsame
      rw [if_neg hanswered] at hstatus
      cases hstatus
    · obtain ⟨new, hstatus⟩ := h.changed hsame
      split_ifs at hstatus
  · intro ⟨hsame, hanswered⟩
    exact ⟨fun _ => if_pos hanswered, fun hne => absurd hsame hne⟩

/-- A table of transfers with these columns behind its key. -/
def transfers (columns : List ColumnDef) : Schema :=
  ⟨[⟨"transfers", ⟨"id", .text, false, true, none⟩ :: columns, []⟩]⟩

/-- `.column("extra", ColumnType::Text).nullable()`. -/
def extraColumn : ColumnDef := ⟨"extra", .text, true, false, none⟩

/-- The SHA-256 hashes of the texts of `transfers []` and of `transfers [extraColumn]`. -/
def transfersHash (bs : Bytes) : Bytes :=
  if bs = Utf8.encode ((transfers []).toJson Json.inOrder).toText then
    [21, 140, 106, 104, 154, 67, 187, 173, 122, 4, 230, 81, 255, 179, 92, 139,
      207, 2, 72, 191, 123, 21, 231, 201, 40, 201, 24, 79, 224, 65, 172, 142]
  else
    [161, 117, 80, 194, 143, 132, 228, 81, 248, 97, 180, 86, 0, 153, 165, 237,
      165, 228, 213, 213, 149, 6, 72, 217, 31, 33, 165, 146, 143, 166, 229, 155]

/-- A run where Postgres answers everything. -/
def answeredStart : Start :=
  ⟨"postgres://localhost/test", 10, none, fun _ => .answered, .answered⟩

/-- A database without a table. -/
def emptyDatabase : PgState := ⟨["public"], fun _ => none⟩

/-- The setup of a run where Postgres answers everything. -/
def answeredSetup (schema : Schema) : Proc PgState ForgeError String :=
  setupDatabase transfersHash answeredStart (.postgres answeredStart.connectionString "public"
    answeredStart.poolMaxConnections) schema

/-- The database after a run with the table. -/
def withTransfers : PgState := (answeredSetup (transfers []) emptyDatabase).2

theorem answeredSetup_first :
    answeredSetup (transfers []) emptyDatabase = (.ok "public", withTransfers) := by
  have hfst : (answeredSetup (transfers []) emptyDatabase).1 = .ok "public" := rfl
  exact Prod.ext hfst rfl

theorem answeredSetup_second :
    answeredSetup (transfers [extraColumn]) withTransfers =
      (.ok "public", (answeredSetup (transfers [extraColumn]) withTransfers).2) := by
  have hfst : (answeredSetup (transfers [extraColumn]) withTransfers).1 = .ok "public" := rfl
  exact Prod.ext hfst rfl

set_option maxRecDepth 4000 in
theorem buildId_transfers_ne :
    (transfers []).buildId transfersHash ≠ (transfers [extraColumn]).buildId transfersHash := by
  decide

/-- A run with the table, and a run with the new column. -/
def columnAdded : Restart transfersHash (transfers []) (transfers [extraColumn]) where
  pgSchema := "public"
  first := answeredStart
  second := answeredStart
  fresh := emptyDatabase
  completed := withTransfers
  afterwards := id
  checked := (answeredSetup (transfers [extraColumn]) withTransfers).2
  status := .same
  setup_first := answeredSetup_first
  status_second := buildIdStatus_of_setup rfl answeredSetup_second

theorem restart_not_notices :
    ¬∀ (sha256 : Bytes → Bytes) (s₁ s₂ : Schema) (r : Restart sha256 s₁ s₂),
      Notices (s₁.buildId sha256) (s₂.buildId sha256) r.status := by
  intro h
  have hnotices := h transfersHash (transfers []) (transfers [extraColumn]) columnAdded
  obtain ⟨new, hnew⟩ := hnotices.changed buildId_transfers_ne
  cases hnew

end ForgeIndexRunner

end ForgeIndex
