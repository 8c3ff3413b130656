import Kiya.Db.Trail

/-!
# What an entry says about an update

The changes in the entry of an update are computed from the struct that the caller hands in and from
the row as it was scanned (`diffForHistory`), while the `UPDATE` is written by other rules
(`structToMap`). `Faithful` says what is expected of an entry: it lists exactly the tracked columns
whose stored value changed, with the new value. `faithful_diff_iff` says for which models,
selections, structs and rows this holds, column by column (`Agrees`).
-/

namespace Kiya

open RowOp Builder

/-- A column that the audit itself writes. -/
def AuditColumn (c : String) : Prop := c = "history" ∨ c = "modified_by"

instance (c : String) : Decidable (AuditColumn c) := inferInstanceAs (Decidable (_ ∨ _))

/-- A tracked column. -/
def Tracked (f : CachedField) : Prop := f.isPrimary = false ∧ f.historyExclude = false

instance (f : CachedField) : Decidable (Tracked f) := inferInstanceAs (Decidable (_ ∧ _))

/-- **A faithful entry.** Besides the audit columns, the changes name exactly the tracked columns
whose stored value changed, each with its new value; and every column they name is written. -/
structure Faithful (type : StructType) (changes sets : GoMap Value) (before after : Stored) :
    Prop where
  columns : ∀ c, ¬AuditColumn c →
    ((∃ v, changes.get c = some v) ↔ (∃ f ∈ type.info, f.name = c ∧ Tracked f) ∧ after c ≠ before c)
  values : ∀ c v, ¬AuditColumn c → changes.get c = some v → v.store = after c
  written : ∀ c v, changes.get c = some v → ∃ w, sets.get c = some w

/-- The diff and the `UPDATE` agree on the column of a field: `old` is the scanned row, `self` the
caller's struct, `s` the struct that is written with the selection `cols`, and `r` the stored row.
If the diff sees no change, then nothing else than the stored value is written; if it sees one, then
the column is written with the value of the diff, and this is not what is stored already. -/
def Agrees (old self s : Struct) (cols : List String) (r : Stored) (f : CachedField) : Prop :=
  if (old.field f.idx).deepEqual (self.field f.idx) then
    ¬AuditColumn f.name → Written f cols → storedFrom s f = r f.name
  else
    Written f cols ∧ (¬AuditColumn f.name →
      storedFrom s f ≠ r f.name ∧ (self.field f.idx).store = storedFrom s f)

instance (old self s : Struct) (cols : List String) (r : Stored) (f : CachedField) :
    Decidable (Agrees old self s cols r f) := by
  unfold Agrees
  infer_instance

/-! ### The columns of the diff and of the statement -/

theorem isPrimary_of_isAutoincrement {t : StructType} {f : CachedField} (hf : f ∈ t.info)
    (h : f.isAutoincrement = true) : f.isPrimary = true := by
  obtain ⟨⟨g, i⟩, -, hcache⟩ := List.mem_filterMap.mp hf
  simp only [cacheField] at hcache
  split_ifs at hcache
  obtain rfl := Option.some.inj hcache
  rw [Bool.or_eq_true]
  exact .inr h

/-- Is a column in the diff? -/
def InDiff (old self : Struct) (cols : List String) (f : CachedField) : Prop :=
  Tracked f ∧ notSelected cols f.name = false ∧
    (old.field f.idx).deepEqual (self.field f.idx) = false

section Diff

variable {old self : Struct} {cols : List String} {f : CachedField}

theorem get_diffForHistory_of_inDiff (htype : old.type = self.type)
    (hnames : (self.type.info.map (·.name)).Nodup) (hf : f ∈ self.type.info)
    (h : InDiff old self cols f) :
    (diffForHistory old self cols).get f.name = some (self.field f.idx) := by
  obtain ⟨⟨hprimary, hexclude⟩, hsel, hne⟩ := h
  have hauto : f.isAutoincrement = false := by
    by_contra hauto
    rw [isPrimary_of_isAutoincrement hf (by simpa using hauto)] at hprimary
    cases hprimary
  rw [get_diffForHistory htype hnames hf, trackedValue, hprimary, hexclude, hauto, hsel]
  simp [hne]

theorem get_diffForHistory_of_not_inDiff (htype : old.type = self.type)
    (hnames : (self.type.info.map (·.name)).Nodup) (hf : f ∈ self.type.info)
    (h : ¬InDiff old self cols f) : (diffForHistory old self cols).get f.name = none := by
  rw [get_diffForHistory htype hnames hf]
  unfold trackedValue
  split_ifs with hskip hsel
  · rfl
  · rfl
  · have hskip' : (f.historyExclude = false ∧ f.isPrimary = false) ∧ f.isAutoincrement = false := by
      simpa using hskip
    have hequal : (old.field f.idx).deepEqual (self.field f.idx) = true := by
      by_contra hne
      exact h ⟨⟨hskip'.1.2, hskip'.1.1⟩, by simpa using hsel, by simpa using hne⟩
    simp [hequal]

theorem get_diffForHistory_eq_none {c : String} (h : c ∉ self.type.info.map (·.name)) :
    (diffForHistory old self cols).get c = none := by
  have hself : (structToHistoryMap self cols).get c = none := by
    rw [structToHistoryMap_eq, GoMap.get_foldl_put_of_notMem h]
    rfl
  rw [diffForHistory, GoMap.get_filter (nodup_structToHistoryMap self cols), hself]
  rfl

/-- What is in the diff is a column of the model, with the value of the caller's struct. -/
theorem inDiff_of_get (htype : old.type = self.type)
    (hnames : (self.type.info.map (·.name)).Nodup) {c : String} {v : Value}
    (hv : (diffForHistory old self cols).get c = some v) :
    ∃ f ∈ self.type.info, f.name = c ∧ InDiff old self cols f ∧ v = self.field f.idx := by
  by_cases hc : c ∈ self.type.info.map (·.name)
  · obtain ⟨f, hf, rfl⟩ := List.mem_map.mp hc
    by_cases hin : InDiff old self cols f
    · rw [get_diffForHistory_of_inDiff htype hnames hf hin] at hv
      exact ⟨f, hf, rfl, hin, (Option.some.inj hv).symm⟩
    · rw [get_diffForHistory_of_not_inDiff htype hnames hf hin] at hv
      cases hv
  · rw [get_diffForHistory_eq_none hc] at hv
    cases hv

end Diff

/-- A column that is written was selected, or it is an audit column. -/
theorem notSelected_of_written {cols : List String} {self : Struct} {changed : Bool}
    {f : CachedField} (haudit : ¬AuditColumn f.name)
    (h : Written f (writeCols cols self changed)) : notSelected cols f.name = false := by
  have haux : ∀ (cols : List String) (has : Bool) (colName : String), f.name ≠ colName →
      notSelected (auxCols cols has colName) f.name = false → notSelected cols f.name = false := by
    intro cols has colName hne hsel
    unfold auxCols at hsel
    split_ifs at hsel
    · exact hsel
    · unfold notSelected at hsel ⊢
      simp_all
  have hhistory := haux _ _ _ (fun h => haudit (.inr h)) h.2.1
  exact haux _ _ _ (fun h => haudit (.inl h)) hhistory

/-! ### Column by column -/

section Columns

variable {old self s : Struct} {cols wcols : List String} {r : Stored}
  (hold : old.type = self.type) (hs : s.type = self.type)
  (hnames : (self.type.info.map (·.name)).Nodup)

include hs hnames in
theorem assign_column {f : CachedField} (hf : f ∈ self.type.info) :
    assign (columnsOf (structToMap s wcols)) r f.name =
      if Written f wcols then storedFrom s f else r f.name :=
  assign_structToMap (hs ▸ hnames) (hs ▸ hf) r

include hs hnames in
theorem get_column {f : CachedField} (hf : f ∈ self.type.info) :
    (columnsOf (structToMap s wcols)).get f.name =
      if Written f wcols then some (valueFrom s f) else none :=
  get_columnsOf_structToMap (hs ▸ hnames) (hs ▸ hf)

include hold hs hnames

/-- A faithful entry agrees with the statement on a tracked column of the selection. -/
theorem agrees_of_faithful
    (hfaithful : Faithful self.type (diffForHistory old self cols)
      (columnsOf (structToMap s wcols)) r
      (assign (columnsOf (structToMap s wcols)) r))
    {f : CachedField} (hf : f ∈ self.type.info) (htracked : Tracked f)
    (hsel : notSelected cols f.name = false) : Agrees old self s wcols r f := by
  have hafter := @assign_column self s wcols r hs hnames f hf
  unfold Agrees
  split_ifs with hequal
  · intro haudit hwritten
    by_contra hne
    obtain ⟨v, hv⟩ := (hfaithful.columns f.name haudit).mpr
      ⟨⟨f, hf, rfl, htracked⟩, by rwa [hafter, if_pos hwritten]⟩
    rw [get_diffForHistory_of_not_inDiff hold hnames hf fun h => by simp [h.2.2] at hequal] at hv
    cases hv
  · have hget := get_diffForHistory_of_inDiff hold hnames hf
      ⟨htracked, hsel, by simpa using hequal⟩
    have hwritten : Written f wcols := by
      obtain ⟨w, hw⟩ := hfaithful.written _ _ hget
      rw [get_column hs hnames hf] at hw
      by_contra hnot
      rw [if_neg hnot] at hw
      cases hw
    rw [if_pos hwritten] at hafter
    refine ⟨hwritten, fun haudit => ⟨?_, ?_⟩⟩
    · rw [← hafter]
      exact ((hfaithful.columns f.name haudit).mp ⟨_, hget⟩).2
    · rw [← hafter]
      exact hfaithful.values _ _ haudit hget

/-- An entry that agrees with the statement on every tracked column of the selection is faithful. -/
theorem faithful_of_agrees
    (hwcols : ∀ f, ¬AuditColumn f.name → Written f wcols → notSelected cols f.name = false)
    (hagrees : ∀ f ∈ self.type.info, Tracked f → notSelected cols f.name = false →
      Agrees old self s wcols r f) :
    Faithful self.type (diffForHistory old self cols) (columnsOf (structToMap s wcols)) r
      (assign (columnsOf (structToMap s wcols)) r) := by
  have hafter := fun f hf => @assign_column self s wcols r hs hnames f hf
  -- what agreement says about a column of the diff
  have hin : ∀ f ∈ self.type.info, InDiff old self cols f → Written f wcols ∧
      (¬AuditColumn f.name →
        storedFrom s f ≠ r f.name ∧ (self.field f.idx).store = storedFrom s f) := by
    intro f hf h
    have hagree := hagrees f hf h.1 h.2.1
    rwa [Agrees, if_neg (by simp [h.2.2])] at hagree
  refine ⟨fun c haudit => ⟨?_, ?_⟩, fun c v haudit hv => ?_, fun c v hv => ?_⟩
  · rintro ⟨v, hv⟩
    obtain ⟨f, hf, rfl, h, -⟩ := inDiff_of_get hold hnames hv
    obtain ⟨hwritten, hvalue⟩ := hin f hf h
    rw [hafter f hf, if_pos hwritten]
    exact ⟨⟨f, hf, rfl, h.1⟩, (hvalue haudit).1⟩
  · rintro ⟨⟨f, hf, rfl, htracked⟩, hchanged⟩
    have hwritten : Written f wcols := by
      by_contra hnot
      rw [hafter f hf, if_neg hnot] at hchanged
      exact hchanged rfl
    have hsel := hwcols f haudit hwritten
    rw [hafter f hf, if_pos hwritten] at hchanged
    have hequal : (old.field f.idx).deepEqual (self.field f.idx) = false := by
      by_contra hequal
      have hagree := hagrees f hf htracked hsel
      rw [Agrees, if_pos (by simpa using hequal)] at hagree
      exact hchanged (hagree haudit hwritten)
    exact ⟨_, get_diffForHistory_of_inDiff hold hnames hf ⟨htracked, hsel, hequal⟩⟩
  · obtain ⟨f, hf, rfl, h, rfl⟩ := inDiff_of_get hold hnames hv
    obtain ⟨hwritten, hvalue⟩ := hin f hf h
    rw [hafter f hf, if_pos hwritten]
    exact (hvalue haudit).2
  · obtain ⟨f, hf, rfl, h, -⟩ := inDiff_of_get hold hnames hv
    exact ⟨_, (get_column hs hnames hf).trans (if_pos (hin f hf h).1)⟩

end Columns

/-- **The entry is faithful exactly if diff and statement agree on every tracked column of the
selection.** Here `old` is the scanned row, `self` the caller's struct with its selection `cols`,
and `s` the struct that is written with the selection `wcols`. -/
theorem faithful_diff_iff {old self s : Struct} {cols wcols : List String} {r : Stored}
    (hold : old.type = self.type) (hs : s.type = self.type)
    (hnames : (self.type.info.map (·.name)).Nodup)
    (hwcols : ∀ f, ¬AuditColumn f.name → Written f wcols → notSelected cols f.name = false) :
    Faithful self.type (diffForHistory old self cols) (columnsOf (structToMap s wcols)) r
      (assign (columnsOf (structToMap s wcols)) r) ↔
      ∀ f ∈ self.type.info, Tracked f → notSelected cols f.name = false →
        Agrees old self s wcols r f :=
  ⟨fun hfaithful _ hf => agrees_of_faithful hold hs hnames hfaithful hf,
    faithful_of_agrees hold hs hnames hwcols⟩

/-! ### Updates -/

/-- The struct and the builder with which the `UPDATE` of a model is issued, if `r` is the locked
row. -/
def preparedUpdate (sv : Server) (b : Builder) (db : Db) (r : Stored) (self : Struct) :
    Struct × Builder :=
  b.applyScope.intoTx.prepareUpdate self ((update self).lockedModel sv b db r)
    (db.clock db.ticks)

/-- The entry that an update appends, if `r` is the locked row. -/
def updateEntry (sv : Server) (b : Builder) (db : Db) (r : Stored) (self : Struct) :
    HistoryEntry :=
  HistoryModel.modifiedEntry b.applyScope.intoTx self
    ((update self).lockedModel sv b db r) (db.clock db.ticks)

/-- **When the entry of an update is faithful.** A tracked update that succeeds changes the locked
row `q` to `r'`. Its entry is faithful to this if and only if diff and statement agree on every
tracked column of the selection. -/
theorem update_entry_faithful_iff (m : HistoryModel) {sv : Server} {b : Builder} {self : Struct}
    {db db' : Db} {q : Nat × Stored} {r' : Stored} (htrack : b.historyTrackingDisabled = false)
    (hself : self.type = m.type) (hq : (update self).locked sv b db = some q)
    (hrun : sv.exec ((update self).run b) db = (.ok (), db'))
    (hr' : (db'.tables ((update self).table b)).row q.1 = some r') :
    Faithful m.type (updateEntry sv b db q.2 self).changes
      ((update self).assigned sv b db q.2) q.2 r' ↔
      ∀ f ∈ m.type.info, Tracked f → notSelected b.selects f.name = false →
        Agrees ((update self).lockedModel sv b db q.2) self
          (preparedUpdate sv b db q.2 self).1 (preparedUpdate sv b db q.2 self).2.selects q.2
          f := by
  have hold : ((update self).lockedModel sv b db q.2).type = self.type := by
    simp only [lockedModel, model, Server.modelOf, type_scanMapToStruct, Struct.type_zero]
  have hs : (preparedUpdate sv b db q.2 self).1.type = self.type :=
    Atomic.type_prepareUpdate _ _ _ _
  have hselects : b.applyScope.intoTx.selects = b.selects := selects_applyScope b
  have hafter : r' = assign ((update self).assigned sv b db q.2) q.2 := by
    obtain ⟨hrow, hsat⟩ := List.mem_filter.mp (sv.pick_mem hq)
    have hatomic := (update self).atomic_run sv db (fun _ _ => htrack) trivial
    rcases hatomic.of_exec_eq_ok hrun with ⟨hremoves, -⟩ | ⟨-, q', hq', htables⟩
    · exact absurd hremoves id
    · obtain rfl := Option.some.inj (hq.symm.trans hq')
      rw [htables, Db.tables_set_self, Server.row_updated] at hr'
      obtain ⟨r, hr, rfl⟩ := hr'
      obtain rfl := Option.some.inj (hr.symm.trans (Table.row_eq_some_iff.mpr hrow))
      exact if_pos hsat
  have htrack' : b.applyScope.intoTx.historyTrackingDisabled = false :=
    ((update self).historyTrackingDisabled_builder b).trans htrack
  have hwcols : ∀ f, ¬AuditColumn f.name → Written f (preparedUpdate sv b db q.2 self).2.selects →
      notSelected b.selects f.name = false := by
    intro f haudit hwritten
    rw [preparedUpdate, m.selects_prepareUpdate htrack' (hold.trans hself), hselects] at hwritten
    exact notSelected_of_written haudit hwritten
  rw [hafter, ← hself, updateEntry, HistoryModel.modifiedEntry, hselects]
  exact faithful_diff_iff hold hs (hself ▸ m.nodup) hwcols

/-- Notes that count their views; the count is filled in by the database. -/
def countedNoteType : StructType :=
  { tableName := "notes"
    fields :=
      [{ name := "ID", kind := .int 64, db := "id,primary,autoincrement" },
        { name := "Title", kind := .string, db := "title" },
        { name := "Views", kind := .int 64, db := "views,autofill" },
        { name := "History", kind := .string, db := "history" }] }

/-- A note in the hands of a caller, who knows the title and the number of views. -/
def countedNote (title : String) (views : Int) : Struct :=
  ⟨countedNoteType, [.int 1, .str (.text title), .int views, .str (.text "")], rfl⟩

/-- A stored note that was viewed five times. -/
def storedCounted : Stored := fun c =>
  if c = "views" then .int 5 else storedNote 1 [noteCreated] c

/-- A database with the note. -/
def countedNotesDb : Db where
  tables _ := ⟨["id", "title", "views", "history"], [(1, storedCounted)], by decide⟩
  clock n := { instant := n }

/-- Notes that count their views, with their history. -/
def countedNoteModel : HistoryModel where
  type := countedNoteType
  nodup := by decide +kernel
  field := ⟨3, "history", false, false, false, false, false⟩
  mem := by decide +kernel
  fieldByName := by decide +kernel
  kind := by decide +kernel

/-- The entry of a new title is faithful, if the caller knows the number of views. -/
theorem countedNote_entry_faithful :
    ∃ r₁, ((noteServer.exec ((update (countedNote "final" 5)).run noteById)
        countedNotesDb).2.tables "notes").row 1 = some r₁ ∧
      Faithful countedNoteType
        (updateEntry noteServer noteById countedNotesDb storedCounted
          (countedNote "final" 5)).changes
        ((update (countedNote "final" 5)).assigned noteServer noteById countedNotesDb
          storedCounted)
        storedCounted r₁ := by
  have hok : (noteServer.exec ((update (countedNote "final" 5)).run noteById)
      countedNotesDb).1 = .ok () := by decide +kernel
  have hrow : (((noteServer.exec ((update (countedNote "final" 5)).run noteById)
      countedNotesDb).2.tables "notes").row 1).isSome := by decide +kernel
  obtain ⟨r₁, hr₁⟩ := Option.isSome_iff_exists.mp hrow
  refine ⟨r₁, hr₁, (@update_entry_faithful_iff countedNoteModel noteServer noteById
    (countedNote "final" 5) countedNotesDb _ (1, storedCounted) r₁ rfl rfl rfl (Prod.ext hok rfl)
    hr₁).mpr ?_⟩
  decide +kernel

/-- A caller who does not know the number of views is recorded as having reset it. -/
theorem countedNote_entry_not_faithful :
    (noteServer.exec ((update (countedNote "final" 0)).run noteById) countedNotesDb).1 =
      .ok () ∧
    ∃ r₁, ((noteServer.exec ((update (countedNote "final" 0)).run noteById)
        countedNotesDb).2.tables "notes").row 1 = some r₁ ∧
      (trail (r₁ "history")).map List.length = some 2 ∧
      ¬Faithful countedNoteType
        (updateEntry noteServer noteById countedNotesDb storedCounted
          (countedNote "final" 0)).changes
        ((update (countedNote "final" 0)).assigned noteServer noteById countedNotesDb
          storedCounted)
        storedCounted r₁ := by
  have hrow : (((noteServer.exec ((update (countedNote "final" 0)).run noteById)
      countedNotesDb).2.tables "notes").row 1).map
        (fun r => (trail (r "history")).map List.length) = some (some 2) := by decide +kernel
  obtain ⟨r₁, hr₁, hlength⟩ := Option.map_eq_some_iff.mp hrow
  refine ⟨by decide +kernel, r₁, hr₁, hlength, fun hfaithful => ?_⟩
  obtain ⟨w, hw⟩ := hfaithful.written "views" (.int 0) (by decide +kernel)
  have hnone : ((update (countedNote "final" 0)).assigned noteServer noteById countedNotesDb
      storedCounted).get "views" = none := by decide +kernel
  rw [hnone] at hw
  cases hw

end Kiya
