import Kiya.Db.Changes

/-!
# The key of an updated row

The `UPDATE` of a model writes every column that its selection and its tags let through, and the
column of the primary key is one of them unless it is filled in by the database. So an update can
move a row to another key. This module says when it does: `assignedField` is the field of the model
whose value goes into a column, and the key of a row stays as it is exactly if no field is
assigned to it, or one that holds the key already.
-/

namespace Kiya

/-- The field whose value the `UPDATE` of a model assigns to a column, if there is one. If several
fields have the same column, the last one counts. -/
def assignedField (t : StructType) (cols : List String) (c : String) : Option CachedField :=
  t.info.reverse.find? fun f => f.name = c && Written f cols

/-- The columns that the `UPDATE` of a model assigns, with their values. -/
theorem get_columnsOf_structToMap_eq (s : Struct) (cols : List String) (c : String) :
    (Builder.columnsOf (structToMap s cols)).get c =
      (assignedField s.type cols c).map (valueFrom s) := by
  rw [Builder.get_columnsOf]
  split_ifs with hident
  · have hnone : assignedField s.type cols c = none := by
      refine List.find?_eq_none.mpr fun f _ hf => ?_
      obtain ⟨rfl, hwritten⟩ : f.name = c ∧ Written f cols := by simpa using hf
      exact hwritten.1 hident
    rw [hnone]
    rfl
  · have hvalue : ∀ f : CachedField, f.name = c →
        writtenValue s cols f = if Written f cols then some (valueFrom s f) else none := by
      rintro f rfl
      exact writtenValue_eq s cols hident
    have hfind : (fun f : CachedField => decide (f.name = c) && (writtenValue s cols f).isSome) =
        fun f => decide (f.name = c) && decide (Written f cols) := by
      funext f
      by_cases hname : f.name = c
      · rw [hvalue f hname]
        by_cases hwritten : Written f cols <;> simp [hwritten]
      · simp [hname]
    rw [structToMap_eq, GoMap.get_foldl_put_eq, hfind]
    unfold assignedField
    cases hfound : s.type.info.reverse.find?
        (fun f => decide (f.name = c) && decide (Written f cols)) with
    | none => rfl
    | some f =>
      obtain ⟨hname, hwritten⟩ : f.name = c ∧ Written f cols := by
        simpa using List.find?_some hfound
      simp [hvalue f hname, hwritten]

/-- A column after the `UPDATE` of a model. -/
theorem assign_structToMap_eq (s : Struct) (cols : List String) (r : Stored) (c : String) :
    assign (Builder.columnsOf (structToMap s cols)) r c = match assignedField s.type cols c with
      | none => r c
      | some f => storedFrom s f := by
  have hget := get_columnsOf_structToMap_eq s cols c
  cases hfield : assignedField s.type cols c with
  | none =>
    rw [hfield] at hget
    exact assign_of_get_none hget r
  | some f =>
    rw [hfield] at hget
    exact assign_of_get hget r

/-- The struct `s`, written with the selection `cols`, holds the key of the row, or does not write
it. -/
def KeyFits (s : Struct) (cols : List String) (r : Stored) : Prop :=
  ∀ f, assignedField s.type cols s.type.primaryKeyColumn = some f →
    storedFrom s f = r s.type.primaryKeyColumn

/-- **When an update keeps the key of a row.** An update or upsert of a model that succeeds has
locked a row. Each row that meets its condition has the same key afterwards as before if and only if
the struct that is written holds this key, or the key is not written. -/
theorem key_kept_iff {sv : Server} {b : Builder} {self : Struct} {op : RowOp} {db db' : Db}
    (hop : op = .update self ∨ op = .upsert self) (hcond : op.Conditional b)
    (hrun : sv.exec (op.run b) db = (.ok (), db')) :
    ∃ q, op.locked sv b db = some q ∧
      ∀ p ∈ sv.matching (db.tables (op.table b)) (op.builder b).whereText, ∀ r',
        (db'.tables (op.table b)).row p.1 = some r' →
        (r' self.type.primaryKeyColumn = p.2 self.type.primaryKeyColumn ↔
          KeyFits (preparedUpdate sv b db q.2 self).1 (preparedUpdate sv b db q.2 self).2.selects
            p.2) := by
  have htrack : ∀ data, op = .updateMap data → b.historyTrackingDisabled = false := by
    rintro data rfl
    rcases hop with h | h <;> cases h
  have hremoves : ¬op.Removes b := by
    rcases hop with rfl | rfl <;> exact id
  rcases (op.atomic_run sv db htrack hcond).of_exec_eq_ok hrun with ⟨h, -⟩ | ⟨-, q, hq, htables⟩
  · exact absurd h hremoves
  refine ⟨q, hq, fun p hp r' hr' => ?_⟩
  obtain ⟨hrow, hsat⟩ := List.mem_filter.mp hp
  have hafter : r' = assign (op.assigned sv b db q.2) p.2 := by
    rw [htables, Db.tables_set_self, Server.row_updated] at hr'
    obtain ⟨r, hr, rfl⟩ := hr'
    obtain rfl := Option.some.inj (hr.symm.trans (Table.row_eq_some_iff.mpr hrow))
    exact if_pos hsat
  have hassigned : op.assigned sv b db q.2 = Builder.columnsOf (structToMap
      (preparedUpdate sv b db q.2 self).1 (preparedUpdate sv b db q.2 self).2.selects) := by
    rcases hop with rfl | rfl <;> rfl
  have htype : (preparedUpdate sv b db q.2 self).1.type = self.type :=
    Atomic.type_prepareUpdate _ _ _ _
  rw [hafter, hassigned, assign_structToMap_eq, KeyFits, htype]
  cases assignedField self.type (preparedUpdate sv b db q.2 self).2.selects
      self.type.primaryKeyColumn with
  | none | some => simp

/-- Notes whose key is given by the application. -/
def keyedNoteType : StructType :=
  { tableName := "notes"
    fields :=
      [{ name := "ID", kind := .int 64, db := "id,primary" },
        { name := "Title", kind := .string, db := "title" },
        { name := "History", kind := .string, db := "history" }] }

/-- A note whose id the caller knows from the URL only, or has put into the struct. -/
def keyedNote (id : Int) : Struct :=
  ⟨keyedNoteType, [.int id, .str (.text "final"), .str (.text "")], rfl⟩

/-- With the id in the struct, the note keeps it. -/
theorem keyedNote_update_keeps_key :
    ∃ r', ((noteServer.exec ((RowOp.update (keyedNote 1)).run noteById) notesDb).2.tables
        "notes").row 1 = some r' ∧ r' "id" = storedNote 1 [noteCreated] "id" := by
  have hok : (noteServer.exec ((RowOp.update (keyedNote 1)).run noteById) notesDb).1 = .ok () := by
    decide +kernel
  have hrow : (((noteServer.exec ((RowOp.update (keyedNote 1)).run noteById) notesDb).2.tables
      "notes").row 1).isSome := by decide +kernel
  obtain ⟨r', hr'⟩ := Option.isSome_iff_exists.mp hrow
  obtain ⟨q, hq, hkey⟩ := @key_kept_iff noteServer noteById (keyedNote 1)
    (.update (keyedNote 1)) notesDb _ (.inl rfl) trivial (Prod.ext hok rfl)
  obtain rfl := Option.some.inj (hq.symm.trans rfl)
  refine ⟨r', hr', (hkey (1, storedNote 1 [noteCreated]) (List.mem_singleton_self _) r' hr').mpr ?_⟩
  intro f hf
  obtain rfl := Option.some.inj (hf.symm.trans rfl)
  decide +kernel

/-- A caller who leaves the id zero moves the note to the id 0. -/
theorem keyedNote_update_moves_key :
    (noteServer.exec ((RowOp.update (keyedNote 0)).run noteById) notesDb).1 = .ok () ∧
      (((noteServer.exec ((RowOp.update (keyedNote 0)).run noteById) notesDb).2.tables
        "notes").row 1).map (fun r => r "id") = some (.int 0) ∧
      storedNote 1 [noteCreated] "id" = .int 1 := by
  refine ⟨?_, ?_, rfl⟩ <;> decide +kernel

end Kiya
