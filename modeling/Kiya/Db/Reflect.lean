import Kiya.Db.Value

/-!
# Model structs

What `reflect` and the `db` and `history` tags tell the builder about a model struct. A struct
type is its table name and its fields in order; promoted fields of embedded structs are left
out, since only the fields of the type itself are mapped to columns. A `Struct` is a value of
such a type, with one value for each field.

`StructType.info` is the list of mapped fields that `getStructInfo` computes and caches. Two
functions select columns from it by different rules: `structToMap`, for the statement that is
issued, and `structToHistoryMap`, for the diff that is recorded.
-/

namespace Kiya

open GoMap List

/-! ### Types and values -/

/-- A field of a struct type, with its `db` and `history` tags. -/
structure GoField where
  name : String
  kind : Kind
  db : String := ""
  history : String := ""
  unexported : Bool := false
  anonymous : Bool := false
  deriving DecidableEq, Repr

/-- A struct type: its table name (from `TableName()`, or else the type's name) and fields. -/
structure StructType where
  tableName : String
  fields : List GoField
  deriving DecidableEq, Repr

/-- A value of a struct type. -/
structure Struct where
  type : StructType
  vals : List Value
  length_vals : vals.length = type.fields.length

variable {i : Nat} {f : CachedField}

namespace Struct

/-- The value of the `i`-th field. -/
def field (s : Struct) (i : Nat) : Value := s.vals.getD i .nil

variable (s : Struct)

/-- Set the `i`-th field. -/
def setField (i : Nat) (v : Value) : Struct :=
  ⟨s.type, s.vals.set i v, by rw [length_set, s.length_vals]⟩

/-- The zero value of a type. -/
def zero (t : StructType) : Struct :=
  ⟨t, t.fields.map fun f => f.kind.zero, by rw [length_map]⟩

@[simp] theorem type_zero (t : StructType) : (zero t).type = t := rfl

theorem field_setField_of_ne {i j : Nat} (h : j ≠ i) (v : Value) :
    (s.setField i v).field j = s.field j := by
  simp [field, setField, getD_eq_getElem?_getD, getElem?_set_ne h.symm]

theorem field_setField_self (h : i < s.type.fields.length) (v : Value) :
    (s.setField i v).field i = v := by
  have hlen : i < s.vals.length := by rw [s.length_vals]; exact h
  simp [field, setField, getD_eq_getElem?_getD, hlen]

end Struct

/-! ### Tags -/

/-- `strings.Split(s, ",")`. -/
def splitComma : List Char → List (List Char)
  | [] => [[]]
  | c :: cs =>
    if c = ',' then [] :: splitComma cs
    else match splitComma cs with
      | [] => [[c]]
      | p :: ps => (c :: p) :: ps

/-- `unicode.IsSpace`. -/
def isUnicodeSpace (c : Char) : Bool :=
  (9 ≤ c.toNat ∧ c.toNat ≤ 13) ∨ (0x2000 ≤ c.toNat ∧ c.toNat ≤ 0x200a) ∨
    c.toNat ∈ [0x20, 0x85, 0xa0, 0x1680, 0x2028, 0x2029, 0x202f, 0x205f, 0x3000]

/-- `strings.TrimSpace`. -/
def trimSpace (cs : List Char) : List Char :=
  ((cs.dropWhile isUnicodeSpace).reverse.dropWhile isUnicodeSpace).reverse

/-- A mapped field: its index, its column and its options. -/
structure CachedField where
  idx : Nat
  name : String
  isAutofill : Bool
  isNullable : Bool
  isPrimary : Bool
  isAutoincrement : Bool
  historyExclude : Bool
  deriving DecidableEq, Repr

/-- The mapping of the `i`-th field, if it has one. -/
def cacheField (f : GoField) (i : Nat) : Option CachedField :=
  if f.unexported && !f.anonymous then none
  else if f.name ∈ ["__db", "__res", "__self", "__hasSoftDelete", "__tx"] then none
  else if f.db = "" || f.db = "-" then none
  else
    let parts := splitComma f.db.toList
    let colName := String.ofList (parts.headD [])
    let options := parts.tail.map fun opt => String.ofList (trimSpace opt)
    if colName = "" then none
    else
      some
        { idx := i
          name := colName
          isAutofill := options.contains "autofill"
          isNullable := options.contains "nullable"
          isPrimary := options.contains "primary" || options.contains "autoincrement"
          isAutoincrement := options.contains "autoincrement"
          historyExclude := f.history = "-" }

variable {t : StructType} {l : List CachedField} {row : GoMap DriverVal} {v : DriverVal}
  {s : Struct}

namespace StructType

/-- `getStructInfo`: the mapped fields. -/
def info (t : StructType) : List CachedField :=
  t.fields.zipIdx.filterMap fun p => cacheField p.1 p.2

/-- The columns of the primary key. -/
def primaryKeys (t : StructType) : List String := (t.info.filter (·.isPrimary)).map (·.name)

/-- The first autoincrement column, or the empty string. -/
def autoIncCol (t : StructType) : String :=
  ((t.info.find? (·.isAutoincrement)).map (·.name)).getD ""

/-- `FieldByName`: the index of a field, by its Go name. -/
def fieldByName (t : StructType) (name : String) : Option Nat :=
  t.fields.findIdx? (·.name = name)

/-- The kind of the `i`-th field; `CanSet` is false for an embedded type that is not exported. -/
def kindAt (t : StructType) (i : Nat) : Kind :=
  ((t.fields[i]?).map fun f => if f.unexported then .fixed f.kind else f.kind).getD .other

/-- `PrimaryKeyColumn`. -/
def primaryKeyColumn (t : StructType) : String := t.primaryKeys.headD "id"

/-- The field that holds the primary key. -/
def primaryKeyField (t : StructType) : Option CachedField :=
  (t.info.find? (·.isPrimary)).or (t.info.find? (·.name = "id"))

theorem idx_of_cacheField {g : GoField} (h : cacheField g i = some f) : f.idx = i := by
  simp only [cacheField] at h
  split_ifs at h
  obtain rfl := Option.some.inj h
  rfl

theorem idx_lt_of_mem_info (h : f ∈ t.info) : f.idx < t.fields.length := by
  obtain ⟨⟨g, i⟩, hmem, hcache⟩ := mem_filterMap.mp h
  have hi := idx_of_cacheField hcache
  have hlt := snd_lt_of_mem_zipIdx hmem
  omega

/-- Each field is mapped once. -/
theorem nodup_idx_info (t : StructType) : (t.info.map (·.idx)).Nodup := by
  have hidx : ((t.fields.zipIdx).map Prod.snd).Nodup := by
    rw [zipIdx_map_snd]
    exact nodup_range'
  rw [List.Nodup, info, pairwise_map, pairwise_filterMap]
  refine (pairwise_map.mp hidx).imp fun {p q} hne f hf g hg => ?_
  rwa [idx_of_cacheField hf, idx_of_cacheField hg]

end StructType

/-! ### Structs as maps -/

variable (s : Struct) (cols selectedCols : List String)

/-- Is a column left out by a selection? An empty selection leaves none out. -/
def notSelected (name : String) : Bool :=
  !cols.isEmpty && !cols.contains name

/-- `structToMap`: the columns and values of the statement that writes a struct. Without a
selection, `autofill` and `autoincrement` columns are left out. -/
def structToMap : GoMap Value :=
  s.type.info.foldl (fun data f =>
    if notSelected selectedCols f.name then data
    else if selectedCols.isEmpty && (f.isAutofill || f.isAutoincrement) then data
    else if f.isNullable && (s.field f.idx).isZero then data.set f.name .nil
    else data.set f.name (s.field f.idx)) []

/-- `StructToHistoryMap`: the tracked columns and their values. -/
def structToHistoryMap : GoMap Value :=
  s.type.info.foldl (fun data f =>
    if f.historyExclude || f.isPrimary || f.isAutoincrement then data
    else if notSelected cols f.name then data
    else data.set f.name (s.field f.idx)) []

/-- The value that the statement writes to the column of a field, if it writes one. -/
def writtenValue (f : CachedField) : Option Value :=
  if notSelected selectedCols f.name then none
  else if selectedCols.isEmpty && (f.isAutofill || f.isAutoincrement) then none
  else some (if f.isNullable && (s.field f.idx).isZero then .nil else s.field f.idx)

/-- The value of the column of a field in the diff, if it is tracked. -/
def trackedValue (f : CachedField) : Option Value :=
  if f.historyExclude || f.isPrimary || f.isAutoincrement then none
  else if notSelected cols f.name then none
  else some (s.field f.idx)

theorem structToMap_eq : structToMap s selectedCols =
      s.type.info.foldl (put (·.name) (writtenValue s selectedCols)) [] := by
  rw [structToMap]
  congr 1
  funext data f
  unfold put writtenValue
  split_ifs <;> rfl

theorem structToHistoryMap_eq : structToHistoryMap s cols =
      s.type.info.foldl (put (·.name) (trackedValue s cols)) [] := by
  rw [structToHistoryMap]
  congr 1
  funext data f
  unfold put trackedValue
  split_ifs <;> rfl

section Columns

variable {s cols} (hnames : (s.type.info.map (·.name)).Nodup) (hf : f ∈ s.type.info)

include hnames hf

theorem get_structToMap : (structToMap s cols).get f.name = writtenValue s cols f := by
  rw [structToMap_eq]
  exact get_foldl_put hnames hf rfl

theorem get_structToHistoryMap :
    (structToHistoryMap s cols).get f.name = trackedValue s cols f := by
  rw [structToHistoryMap_eq]
  exact get_foldl_put hnames hf rfl

end Columns

theorem nodup_structToHistoryMap (cols : List String) :
    ((structToHistoryMap s cols).map Prod.fst).Nodup := by
  rw [structToHistoryMap_eq]
  exact nodup_foldl_put nodup_nil

/-- One column of a row, in `scanMapToStruct`. -/
def scanField (row : GoMap DriverVal) (s : Struct) (f : CachedField) : Struct :=
  match row.get f.name with
  | none => s
  | some v => s.setField f.idx (setFieldValue (s.type.kindAt f.idx) (s.field f.idx) v)

/-- `scanMapToStruct`: put a row into a struct. -/
def scanMapToStruct (row : GoMap DriverVal) (s : Struct) : Struct :=
  s.type.info.foldl (scanField row) s

theorem type_foldl_scanField (row : GoMap DriverVal) (l : List CachedField) (s : Struct) :
    (l.foldl (scanField row) s).type = s.type := by
  induction l generalizing s with
  | nil => rfl
  | cons f l ih =>
    refine (ih _).trans ?_
    unfold scanField
    split <;> rfl

@[simp] theorem type_scanMapToStruct (row : GoMap DriverVal) (s : Struct) :
    (scanMapToStruct row s).type = s.type := type_foldl_scanField row s.type.info s

theorem field_foldl_scanField_of_notMem (row : GoMap DriverVal) (hi : i ∉ l.map (·.idx))
    (s : Struct) : (l.foldl (scanField row) s).field i = s.field i := by
  induction l generalizing s with
  | nil => rfl
  | cons f l ih =>
    obtain ⟨hne, hl⟩ := ne_and_not_mem_of_not_mem_cons hi
    refine (ih hl _).trans ?_
    unfold scanField
    split
    · rfl
    · exact s.field_setField_of_ne hne _

variable {s}

theorem field_foldl_scanField (hv : row.get f.name = some v) (hl : (l.map (·.idx)).Nodup)
    (hf : f ∈ l) (hlt : f.idx < s.type.fields.length) : (l.foldl (scanField row) s).field f.idx =
      setFieldValue (s.type.kindAt f.idx) (s.field f.idx) v := by
  induction l generalizing s with
  | nil => cases hf
  | cons g l ih =>
    obtain ⟨hg, hl⟩ := nodup_cons.mp hl
    rw [foldl_cons]
    rcases mem_cons.mp hf with rfl | hf
    · rw [field_foldl_scanField_of_notMem row hg, scanField, hv]
      exact s.field_setField_self hlt _
    · have hne : f.idx ≠ g.idx := by
        intro h
        exact hg (mem_map.mpr ⟨f, hf, h⟩)
      have htype : (scanField row s g).type = s.type := type_foldl_scanField row [g] s
      have hfield : (scanField row s g).field f.idx = s.field f.idx :=
        field_foldl_scanField_of_notMem row (l := [g]) (by simpa using hne) s
      rw [ih hl hf (htype ▸ hlt), htype, hfield]

/-- The field of a column that is in the row. -/
theorem field_scanMapToStruct (hf : f ∈ s.type.info) (hv : row.get f.name = some v) :
    (scanMapToStruct row s).field f.idx = setFieldValue (s.type.kindAt f.idx) (s.field f.idx) v :=
  field_foldl_scanField hv (StructType.nodup_idx_info s.type) hf
    (StructType.idx_lt_of_mem_info hf)

theorem Struct.field_zero (h : i < t.fields.length) :
    (Struct.zero t).field i = (t.kindAt i).zero := by
  have hkind : t.kindAt i = if t.fields[i].unexported then .fixed t.fields[i].kind
      else t.fields[i].kind := by
    simp [StructType.kindAt, h]
  have hzero : (t.kindAt i).zero = t.fields[i].kind.zero := by
    rw [hkind]
    split_ifs <;> rfl
  rw [hzero]
  simp [field, zero, getD_eq_getElem?_getD, h]

/-! ### Audit fields and primary keys -/

variable (s)

/-- `hasField`. -/
def hasField (name : String) : Bool := (s.type.fieldByName name).isSome

/-- `historyFieldIndex`: the index of the field `History`, if it is a string. -/
def historyFieldIndex : Option Nat :=
  (s.type.fieldByName "History").filter fun i => s.type.kindAt i = .string

/-- `getHistoryString`. -/
def getHistoryString (i : Nat) : GoString :=
  match s.field i with
  | .str g => g
  | _ => .text ""

/-- `setActorField`: set a string field, unless the value is empty. -/
def setActorField (fieldName value : String) : Struct :=
  if value = "" then s
  else match s.type.fieldByName fieldName with
    | none => s
    | some i => if s.type.kindAt i = .string then s.setField i (.str (.text value)) else s

/-- `PrimaryKeyValue`: the key as a 64-bit integer. -/
def primaryKeyValue : Option Int :=
  s.type.primaryKeyField.bind fun f =>
    match s.field f.idx with
    | .int n => some n
    | .uint n => some (wrapInt 64 n)
    | _ => none

/-- `SetPrimaryKeyValue`; a key that is no integer is left alone. -/
def setPrimaryKeyValue (id : Int) : Struct :=
  match s.type.primaryKeyField with
  | none => s
  | some f =>
    match s.type.kindAt f.idx with
    | .int bits => s.setField f.idx (.int (wrapInt bits id))
    | .uint bits => s.setField f.idx (.uint (wrapUint bits id))
    | _ => s

/-- The field that `assignAutoIncrementID` sets: the first autoincrement field, or else the
first whose column is `id` in any case. -/
def StructType.autoIncrementField (t : StructType) : Option CachedField :=
  (t.info.find? (·.isAutoincrement)).or
    (t.info.find? fun f => f.name.toList.map Char.toLower = ['i', 'd'])

/-- `assignAutoIncrementID`: the id that the database gave to a new row. -/
def assignAutoIncrementID (id : Int) : Struct :=
  if id = 0 then s
  else match s.type.autoIncrementField with
    | none => s
    | some f =>
      match s.type.kindAt f.idx with
      | .int bits => s.setField f.idx (.int (wrapInt bits id))
      | .uint bits => s.setField f.idx (.uint (wrapUint bits id))
      | _ => s

/-- `columnsForUpsert`: the columns an upsert overwrites if none are named. -/
def columnsForUpsert (t : StructType) : List String :=
  (t.info.filter fun f => !(f.isPrimary || f.isAutoincrement || f.isAutofill)).map (·.name)

/-- `syncPrimaryKey`: copy the key of the stored row into the caller's struct. -/
def syncPrimaryKey (old : Struct) : Struct :=
  match primaryKeyValue old with
  | some id => setPrimaryKeyValue s id
  | none => s

end Kiya
