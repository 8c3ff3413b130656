import Kiya.Db.Reflect

/-!
# History entries

The audit trail of a row is a JSON array in the column `history`. `appendHistoryJSON` decodes
the array into entries, appends one and encodes all of them again. Decoding reads the values of
`changes` and the actor as untyped values, so the earlier entries come back with their numbers
passed through floats (`recodeEntry`); a text that is no array counts as an empty trail; and if
the new entry cannot be encoded, the text is returned as it was.
-/

namespace Kiya

/-- A history entry. -/
structure HistoryEntry where
  action : String
  changes : GoMap Value
  actorID : Value
  actorName : String
  at_ : GoTime

/-- The fields of an object in the order in which a map is encoded. -/
def sortFields (fields : List (String × Json)) : List (String × Json) :=
  fields.insertionSort fun f g => f.1.toList ≤ g.1.toList

/-- The encoding of an entry, with the fields that are omitted when empty. -/
def entryJson (action : Json) (changes : List (String × Json)) (actorID : Option Json)
    (actorName at_ : Json) : Json :=
  .obj ([("action", action)] ++
    (if changes.isEmpty then [] else [("changes", .obj changes)]) ++
    (match actorID with
      | none => []
      | some j => [("actor_id", j)]) ++
    (if actorName = .str "" then [] else [("actor_name", actorName)]) ++
    [("at", at_)])

/-- `json.Marshal` on the values of a map; `none` if one of them has no encoding. -/
def marshalMap (m : GoMap Value) : Option (List (String × Json)) :=
  m.mapM fun p => (p.2.marshal).map fun j => (p.1, j)

/-- `json.Marshal` on an entry. -/
def HistoryEntry.marshal (e : HistoryEntry) : Option Json := do
  let changes ← marshalMap e.changes
  let actorID ← e.actorID.marshal
  return entryJson (.str e.action) (sortFields changes)
    (if e.actorID = .nil then none else some actorID) (.str e.actorName)
    (.time e.at_.instant e.at_.offset)

/-- The name of a field without case, as `encoding/json` compares it: small letters, also for the
long s. -/
def foldName (key : String) : String :=
  String.ofList (key.toList.map fun c => if c.toNat = 0x17f then 's' else c.toLower)

/-- The value for a field of a struct: the last one that comes under its name. -/
def lookupField (name : String) : List (String × Json) → Option Json
  | [] => none
  | f :: fields => (lookupField name fields).or (if foldName f.1 = name then some f.2 else none)

/-- An entry decoded into a `HistoryEntry` and encoded again. A field of another type is left
at its zero value. -/
def recodeEntry : Json → Json
  | .obj fields =>
    entryJson
      (match lookupField "action" fields with
        | some (.str s) => .str s
        | some (.quoted j spelling) => .quoted j spelling
        | _ => .str "")
      (match lookupField "changes" fields with
        | some (.obj changes) => sortFields (recodedFields changes)
        | _ => [])
      (match lookupField "actor_id" fields with
        | some .null => none
        | some j => some j.recoded
        | none => none)
      (match lookupField "actor_name" fields with
        | some (.str s) => .str s
        | some (.quoted j spelling) => .quoted j spelling
        | _ => .str "")
      (match lookupField "at" fields with
        | some (.time instant offset) => .time instant offset
        | _ => .time zeroInstant 0)
  | _ => entryJson (.str "") [] none (.str "") (.time zeroInstant 0)

/-- The entries of a text, as they are encoded again. -/
def decodeEntries : GoString → List Json
  | .json (.arr entries) _ => entries.map recodeEntry
  | _ => []

/-- `appendHistoryJSON`. -/
def appendHistoryJSON (existing : GoString) (entry : HistoryEntry) : GoString :=
  match entry.marshal with
  | none => existing
  | some j => .json (.arr (decodeEntries existing ++ [j])) 0

/-- `diffForHistory`: the tracked columns whose values differ, with the new value. -/
def diffForHistory (old new : Struct) (cols : List String) : GoMap Value :=
  (structToHistoryMap new cols).filter fun p =>
    match (structToHistoryMap old cols).get p.1 with
    | none => true
    | some v => !v.deepEqual p.2

/-- A column is in the diff if it is tracked and its values differ. -/
theorem get_diffForHistory {old new : Struct} {cols : List String} {f : CachedField}
    (htype : old.type = new.type) (hnames : (new.type.info.map (·.name)).Nodup)
    (hf : f ∈ new.type.info) : (diffForHistory old new cols).get f.name =
      (trackedValue new cols f).filter fun v => !(old.field f.idx).deepEqual v := by
  have hold : (structToHistoryMap old cols).get f.name = trackedValue old cols f :=
    get_structToHistoryMap (htype ▸ hnames) (htype ▸ hf)
  rw [diffForHistory, GoMap.get_filter (nodup_structToHistoryMap new cols),
    get_structToHistoryMap hnames hf]
  simp only [hold]
  unfold trackedValue
  split_ifs <;> rfl

end Kiya
