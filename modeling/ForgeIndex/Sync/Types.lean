import ForgeIndex.Db.Buffer

/-!
# Errors and inputs of the sync layer
-/

namespace ForgeIndex

/-- `SyncError`, with the texts of the errors it wraps. -/
inductive SyncError where
  | rpc (chainId : UInt64) (source : String)
  | decode (contract source : String)
  | database (source : DbError)
  | handlerPanic (handler message : String)
  | chainNotFound (chainId : UInt64)
  | deepReorg (chainId depth : UInt64)
  | subscriptionLost (chainId : UInt64) (message : String)
  deriving DecidableEq, Repr

/-- A write through `DbContext`. -/
inductive Write where
  | insert (table : String) (row : Row)
  | update (table : String) (row : Row) (pkValue : ColumnValue)
  | delete (table pkCol : String) (pkValue : ColumnValue)

namespace Write

/-- The table that is written. -/
def table : Write → String
  | insert t _ => t
  | update t _ _ => t
  | delete t _ _ => t

/-- The row that the write leaves in the buffer. -/
def row : Write → Row
  | insert _ r => r
  | update _ r _ => { r with operation := some "UPDATE" }
  | delete _ c v => { Row.new.insert c v with operation := some "DELETE" }

/-- `InsertBuilder::execute`, `UpdateBuilder::execute` and `DeleteBuilder::execute`. -/
def execute {V : Type} (b : WriteBuffer) : Write → Proc (World V) DbError Unit
  | insert t r => b.insert t r
  | update t r v => WriteBuffer.update t r v
  | delete t c v => WriteBuffer.delete t c v

/-- A write appends its row to the buffer of its table or, when it fails, leaves the rows as
they are. -/
theorem execute_triple {V : Type} (b : WriteBuffer) (x : Write) {I : World V → Prop}
    (hpush : ∀ w, I w → I { w with
      buffers := w.buffers.insert x.table (WriteBuffer.rowsOf w x.table ++ [x.row]) })
    (hfull : ∀ w, I w → I { w with
      buffers := w.buffers.insert x.table (WriteBuffer.rowsOf w x.table) }) :
    Proc.Triple I (x.execute b) (fun _ => I) I := by
  cases x with
  | insert t r =>
    intro w hw
    unfold execute WriteBuffer.insert
    dsimp only
    split_ifs
    · exact hfull w hw
    · exact hpush w hw
  | update t r v => exact Proc.Triple.modify hpush
  | delete t c v => exact Proc.Triple.modify hpush

end Write

theorem flushAll_dispatched {V : Type} [DecidableEq V] (b : WriteBuffer) (env : Env V)
    (D : List (ℕ × DecodedEvent)) :
    Proc.Triple (fun w : World V => w.dispatched = D) ((b.flushAll env).mapErr SyncError.database)
      (fun _ w => w.dispatched = D) fun w => w.dispatched = D := by
  have hframe := WriteBuffer.flushAll_frame b env (I := fun w : World V => w.dispatched = D)
    fun _ _ _ _ _ _ hw => hw
  exact (hframe.conseq (fun _ h => h) (fun _ _ h => h.1) fun _ h => h).mapErr

end ForgeIndex
