import Kiya.Lib.Json
import Kiya.Lib.Utf8
import Kiya.Security.SessionStore

/-!
# Typed values of sessions

The typed setters and getters of `internal/security/session.go`, and `JSONSerializer` of
`redisstore.go`, through which the values go to Redis and back. On the way they lose their types:
bytes become a text in base 64, a time becomes a text, and a number is read back as a float. The
getters make up for some of this, by a switch on the type they find.

So a boolean comes back, an integer if it is a float, a string if it is valid UTF-8, but neither
bytes nor times, other than the ones a getter returns for nothing at all (`Typed.Faithful`). The key
must be valid UTF-8 too, and no other key may become this one when what is not valid in it is
replaced.

Of `encoding/json` the model has the tree that is written and what is read for it, where the members
of an object are written in the order of their keys and the last one of a key counts. Floats that
are no integers, times, and values of other types are parameters (`Env`). An integer type `int` has
64 bits, and a float that is too large for an `int64` is converted as on `amd64`.
-/

namespace Kiya.Security

open RedisStore Kiya.Security.Session Utf8 List Option AList

/-! ### Values -/

/-- The integer types that the getters know. -/
inductive IntType
  | int
  | int8
  | int16
  | int32
  | int64
deriving DecidableEq

/-- The floating-point types. -/
inductive FloatType
  | float32
  | float64
deriving DecidableEq

/-- A JSON text, apart from numbers that are no integers, arrays and objects. -/
inductive JsonValue (Raw : Type)
  | null
  | bool (b : Bool)
  | int (i : ℤ)
  | str (s : Bytes)
  | raw (r : Raw)

/-- A floating-point number: an integer or something else. -/
inductive FloatValue (Frac : Type)
  | whole (i : ℤ)
  | frac (x : Frac)

/-- What other packages do. -/
structure Env where
  Time : Type
  /-- `time.Time{}`. -/
  zeroTime : Time
  /-- The time in the form of RFC 3339; none is an error. -/
  formatTime : Time → Option Bytes
  /-- The floating-point numbers that are no integers. -/
  Frac : Type
  /-- `int64(t)`. -/
  truncFrac : Frac → ℤ
  /-- `strconv.FormatFloat(t, 'f', -1, 64)`. -/
  formatFloat : FloatValue Frac → Bytes
  /-- The values of other types. -/
  Other : Type
  /-- The other JSON texts. -/
  Raw : Type
  marshalFloat : FloatType → FloatValue Frac → Option (JsonValue Raw)
  marshalOther : Other → Option (JsonValue Raw)
  unmarshalRaw : Raw → Frac ⊕ Other

/-- The values of the type `any`, other than nil; a nil slice of bytes is not nil. -/
inductive AnyValue (E : Env)
  | str (s : Bytes)
  | bool (b : Bool)
  | int (t : IntType) (i : ℤ)
  | float (t : FloatType) (x : FloatValue E.Frac)
  | bytes (b : Option Bytes)
  | time (t : E.Time)
  | other (o : E.Other)

variable {E : Env}

/-! ### Setters and getters -/

namespace Session

variable (s : Session (AnyValue E)) (key : Bytes)

/-- `SetString`. -/
def setString (val : Bytes) : Session (AnyValue E) :=
  s.set key (some (.str val))

/-- `SetInt`. -/
def setInt (val : I64) : Session (AnyValue E) :=
  s.set key (some (.int .int val))

/-- `SetInt64`. -/
def setInt64 (val : I64) : Session (AnyValue E) :=
  s.set key (some (.int .int64 val))

/-- `SetBool`. -/
def setBool (val : Bool) : Session (AnyValue E) :=
  s.set key (some (.bool val))

/-- `SetBytes`. -/
def setBytes (val : Option Bytes) : Session (AnyValue E) :=
  s.set key (some (.bytes val))

/-- `SetTime`. -/
def setTime (val : E.Time) : Session (AnyValue E) :=
  s.set key (some (.time val))

/-- `GetString`. -/
def getString : Bytes :=
  match s.get key with
  | some (.str t) => t
  | some (.bytes t) => t.getD []
  | some (.int .int t) => Numeral.formatInt t
  | some (.int .int64 t) => Numeral.formatInt t
  | some (.float .float64 t) => E.formatFloat t
  | _ => []

/-- `int64(t)`, for a float. -/
def truncate (x : FloatValue E.Frac) : ℤ :=
  match x with
  | .whole i => if -2 ^ 63 ≤ i ∧ i < 2 ^ 63 then i else -2 ^ 63
  | .frac x => E.truncFrac x

/-- `GetInt64`. -/
def getInt64 : ℤ :=
  match s.get key with
  | some (.int _ t) => t
  | some (.float _ t) => truncate t
  | some (.str t) =>
    match Numeral.parseInt 64 t with
    | .value i => i
    | _ => 0
  | _ => 0

/-- `GetInt`. -/
def getInt : ℤ := s.getInt64 key

/-- `strconv.ParseBool`. -/
def parseBool (s : Bytes) : Option Bool :=
  if s ∈ [utf8 "1", utf8 "t", utf8 "T", utf8 "TRUE", utf8 "true", utf8 "True"] then some true
  else if s ∈ [utf8 "0", utf8 "f", utf8 "F", utf8 "FALSE", utf8 "false", utf8 "False"] then
    some false
  else none

/-- `GetBool`. -/
def getBool : Bool :=
  match s.get key with
  | some (.bool t) => t
  | some (.str t) => (parseBool t).getD false
  | some (.int .int t) => t ≠ 0
  | _ => false

/-- `GetBytes`; none is nil. -/
def getBytes : Option Bytes :=
  match s.get key with
  | some (.bytes t) => t
  | some (.str t) => some t
  | _ => none

/-- `GetTime`. -/
def getTime : E.Time :=
  match s.get key with
  | some (.time t) => t
  | _ => E.zeroTime

end Session

/-! ### The serializer -/

/-- `base64.StdEncoding`, which `encoding/json` takes for bytes. -/
def stdBase64 (bytes : Bytes) : Bytes :=
  (Base64.encode bytes).map fun b => if b = 45 then 43 else if b = 95 then 47 else b

/-- What `json.Marshal` writes for a value; none is an error. -/
def marshal : Option (AnyValue E) → Option (JsonValue E.Raw)
  | none => some .null
  | some (.str s) => some (.str (toValid s))
  | some (.bool b) => some (.bool b)
  | some (.int _ i) => some (.int i)
  | some (.float t x) => E.marshalFloat t x
  | some (.bytes none) => some .null
  | some (.bytes (some b)) => some (.str (stdBase64 b))
  | some (.time t) => (E.formatTime t).map .str
  | some (.other o) => E.marshalOther o

/-- What `json.Unmarshal` stores in an `any`. -/
def unmarshal : JsonValue E.Raw → Option (AnyValue E)
  | .null => none
  | .bool b => some (.bool b)
  | .int i => some (.float .float64 (.whole (nearestInt i)))
  | .str s => some (.str s)
  | .raw r =>
    match E.unmarshalRaw r with
    | .inl x => some (.float .float64 (.frac x))
    | .inr o => some (.other o)

/-- The members of an object, one after the other; none is an error. -/
def marshalMembers : List (Σ _ : Bytes, Option (AnyValue E)) →
    Option (List (Bytes × JsonValue E.Raw))
  | [] => some []
  | e :: es =>
    match marshal e.2, marshalMembers es with
    | some j, some members => some ((toValid e.1, j) :: members)
    | _, _ => none

/-- Store the members one after the other. -/
def storeMembers (values : Values (AnyValue E)) (members : List (Bytes × JsonValue E.Raw)) :
    Values (AnyValue E) :=
  members.foldl (fun values e => values.insert e.1 (unmarshal e.2)) values

/-- `JSONSerializer`. -/
def jsonSerializer (E : Env) : Serializer (AnyValue E) where
  Data := List (Bytes × JsonValue E.Raw)
  serialize values := marshalMembers (values.entries.mergeSort fun e e' => e.1 ≤ e'.1)
  deserialize members := some (storeMembers ∅ members)

/-! ### The six types -/

/-- A value for one of the typed setters. -/
inductive Typed (E : Env)
  | string (s : Bytes)
  | int (i : I64)
  | int64 (i : I64)
  | bool (b : Bool)
  | bytes (b : Option Bytes)
  | time (t : E.Time)

namespace Typed

/-- What the setter stores. -/
def value : Typed E → AnyValue E
  | string s => .str s
  | int i => .int .int i
  | int64 i => .int .int64 i
  | bool b => .bool b
  | bytes b => .bytes b
  | time t => .time t

/-- The matching getter returns the value. -/
def IsRead (s : Session (AnyValue E)) (key : Bytes) : Typed E → Prop
  | string v => s.getString key = v
  | int v => s.getInt key = v
  | int64 v => s.getInt64 key = v
  | bool v => s.getBool key = v
  | bytes v => s.getBytes key = v
  | time v => s.getTime key = v

/-- What the getter returns if there is nothing under the key. -/
def IsZero : Typed E → Prop
  | string v => v = []
  | int v => v.1 = 0
  | int64 v => v.1 = 0
  | bool v => v = false
  | bytes v => v = none
  | time v => v = E.zeroTime

/-- An integer of at most 53 bits, apart from zeros at the end. -/
def IsFloat (i : ℤ) : Prop := ∃ m k, i.natAbs = m * 2 ^ k ∧ m < 2 ^ 53

/-- The values that come back. -/
def Faithful : Typed E → Prop
  | string v => Valid v
  | int v => IsFloat v
  | int64 v => IsFloat v
  | bool _ => True
  | bytes v => v = none ∨ v = some []
  | time v => v = E.zeroTime

end Typed

/-- The setter of a type. -/
def Session.setTyped (s : Session (AnyValue E)) (key : Bytes) : Typed E → Session (AnyValue E)
  | .string v => s.setString key v
  | .int v => s.setInt key v
  | .int64 v => s.setInt64 key v
  | .bool v => s.setBool key v
  | .bytes v => s.setBytes key v
  | .time v => s.setTime key v

theorem Session.setTyped_eq (s : Session (AnyValue E)) (key : Bytes) (v : Typed E) :
    s.setTyped key v = s.set key (some v.value) := by
  cases v <;> rfl

/-! ### Members -/

variable {members : List (Bytes × JsonValue E.Raw)} {key : Bytes}
  {es : List (Σ _ : Bytes, Option (AnyValue E))}

theorem marshalMembers_cons {e : Σ _ : Bytes, Option (AnyValue E)}
    (h : marshalMembers (e :: es) = some members) :
    ∃ j rest, marshal e.2 = some j ∧ marshalMembers es = some rest ∧
      members = (toValid e.1, j) :: rest := by
  rw [marshalMembers.eq_def] at h
  dsimp only at h
  cases hfirst : marshal e.2 with
  | none => simp [hfirst] at h
  | some j =>
    cases hrest : marshalMembers es with
    | none => simp [hrest] at h
    | some rest =>
      rw [hfirst, hrest] at h
      exact ⟨j, rest, rfl, rfl, (some_inj.mp h).symm⟩

theorem mem_marshalMembers (h : marshalMembers es = some members) {m : Bytes × JsonValue E.Raw} :
    m ∈ members ↔ ∃ e ∈ es, toValid e.1 = m.1 ∧ marshal e.2 = some m.2 := by
  induction es generalizing members with
  | nil =>
    cases h
    simp
  | cons e es ih =>
    obtain ⟨j, rest, hj, hrest, rfl⟩ := marshalMembers_cons h
    simp only [mem_cons, ih hrest, exists_eq_or_imp, hj, some_inj]
    refine or_congr ?_ Iff.rfl
    rw [Prod.ext_iff]
    exact and_congr eq_comm eq_comm

/-- If there is a text, all values have one. -/
theorem exists_marshal (h : marshalMembers es = some members) :
    ∀ e ∈ es, ∃ j, marshal e.2 = some j := by
  induction es generalizing members with
  | nil => exact nofun
  | cons e es ih =>
    obtain ⟨j, rest, hj, hrest, -⟩ := marshalMembers_cons h
    exact forall_mem_cons.mpr ⟨⟨j, hj⟩, ih hrest⟩

theorem lookup_storeMembers_of_ne (h : ∀ m ∈ members, m.1 ≠ key) (values : Values (AnyValue E)) :
    (storeMembers values members).lookup key = values.lookup key := by
  induction members generalizing values with
  | nil => rfl
  | cons m members ih =>
    obtain ⟨hm, hmembers⟩ := forall_mem_cons.mp h
    exact (ih hmembers _).trans (lookup_insert_ne (Ne.symm hm))

variable {j : JsonValue E.Raw} {v : Typed E} {s : Session (AnyValue E)}

theorem lookup_storeMembers (hmem : (key, j) ∈ members) (h : ∀ m ∈ members, m.1 = key → m.2 = j)
    (values : Values (AnyValue E)) :
    (storeMembers values members).lookup key = some (unmarshal j) := by
  induction members generalizing values with
  | nil => cases hmem
  | cons m members ih =>
    obtain ⟨hm, hmembers⟩ := forall_mem_cons.mp h
    by_cases hlater : (key, j) ∈ members
    · exact ih hlater hmembers _
    · have hne : ∀ m' ∈ members, m'.1 ≠ key := by
        intro m' hm' hkey
        have heq : m' = (key, j) := Prod.ext hkey (hmembers m' hm' hkey)
        exact hlater (heq ▸ hm')
      rcases mem_cons.mp hmem with rfl | hmem
      · exact (lookup_storeMembers_of_ne hne _).trans (lookup_insert _)
      · exact absurd hmem hlater

/-- **What is loaded under a key**: nothing if the key is not valid UTF-8, and otherwise what was
written and read for its value. -/
theorem lookup_deserialize {values values' : Values (AnyValue E)}
    {data : List (Bytes × JsonValue E.Raw)}
    (hdata : (jsonSerializer E).serialize values = some data)
    (hvalues' : (jsonSerializer E).deserialize data = some values') {val : Option (AnyValue E)}
    (hkey : values.lookup key = some val) (hothers : ∀ k ∈ values, k ≠ key → toValid k ≠ key) :
    ∃ j, marshal val = some j ∧
      values'.lookup key = if Valid key then some (unmarshal j) else none := by
  obtain rfl := some_inj.mp hvalues'
  have hmembers (m : Bytes × JsonValue E.Raw) :
      m ∈ data ↔ ∃ e ∈ values.entries, toValid e.1 = m.1 ∧ marshal e.2 = some m.2 := by
    rw [mem_marshalMembers hdata]
    simp only [mem_mergeSort]
  have hentry : (⟨key, val⟩ : Σ _ : Bytes, Option (AnyValue E)) ∈ values.entries :=
    mem_lookup_iff.mp hkey
  obtain ⟨j, hj⟩ := exists_marshal hdata _ (mem_mergeSort.mpr hentry)
  refine ⟨j, hj, ?_⟩
  by_cases hvalid : Valid key
  · have hself : toValid key = key := toValid_eq_self_iff.mpr hvalid
    rw [if_pos hvalid]
    refine lookup_storeMembers ((hmembers _).mpr ⟨_, hentry, hself, hj⟩) (fun m hm heq => ?_) ∅
    -- Only one entry has this key after the replacement.
    obtain ⟨e, he, hvalue, hmarshal⟩ := (hmembers m).mp hm
    by_cases hsame : e.1 = key
    · have hlookup : values.lookup e.1 = some e.2 := mem_lookup_iff.mpr he
      rw [hsame, hkey, some_inj] at hlookup
      rw [← hlookup, hj, some_inj] at hmarshal
      exact hmarshal.symm
    · refine absurd (hvalue.trans heq) (hothers e.1 ?_ hsame)
      exact AList.mem_keys.mpr (List.mem_map_of_mem he)
  · rw [if_neg hvalid]
    refine (lookup_storeMembers_of_ne (fun m hm heq => hvalid ?_) ∅).trans (lookup_empty _)
    obtain ⟨e, -, he, -⟩ := (hmembers m).mp hm
    rw [← heq, ← he]
    exact valid_toValid _

/-! ### What the getters find -/

theorem Typed.IsZero.faithful (h : v.IsZero) : v.Faithful := by
  have hfloat {i : ℤ} (hi : i = 0) : IsFloat i := ⟨0, 0, by rw [hi]; rfl, by norm_num⟩
  cases v with
  | string s => exact h.symm ▸ Valid.nil
  | int | int64 => exact hfloat h
  | bool b => trivial
  | bytes b => exact .inl h
  | time t => exact h

/-- Nothing is read as nothing. -/
theorem Typed.isRead_of_get_none (h : s.get key = none)
    (v : Typed E) : v.IsRead s key ↔ v.IsZero := by
  cases v with
  | string v => simp only [IsRead, IsZero, getString, h, eq_comm]
  | int v => simp only [IsRead, IsZero, getInt, getInt64, h, eq_comm]
  | int64 v => simp only [IsRead, IsZero, getInt64, h, eq_comm]
  | bool v => simp only [IsRead, IsZero, getBool, h, eq_comm]
  | bytes v => simp only [IsRead, IsZero, getBytes, h, eq_comm]
  | time v => simp only [IsRead, IsZero, getTime, h, eq_comm]

theorem stdBase64_eq_self_iff {b : Bytes} : stdBase64 b = b ↔ b = [] := by
  constructor
  · intro h
    by_contra hne
    have hlength := congrArg List.length h
    rw [stdBase64, length_map, Base64.encode, length_append] at hlength
    have hlt := Base64.length_lt_encodeRaw hne
    omega
  · rintro rfl
    rfl

/-- A number is the same again if it is a float. -/
theorem truncate_nearestInt_iff (i : I64) :
    truncate (E := E) (.whole (nearestInt i)) = i ↔ Typed.IsFloat i := by
  obtain ⟨i, hlow, hhigh⟩ := i
  rw [Typed.IsFloat, ← nearestInt_eq_self_iff, truncate]
  dsimp only
  by_cases hrange : -2 ^ 63 ≤ nearestInt i ∧ nearestInt i < 2 ^ 63
  · rw [if_pos hrange]
  · rw [if_neg hrange]
    constructor
    · rintro rfl
      decide +kernel
    · intro h
      rw [h] at hrange
      exact absurd ⟨hlow, hhigh⟩ hrange

/-- What was written and read is what it was for faithful values only. -/
theorem Typed.isRead_of_get (hj : marshal (some v.value) = some j) (h : s.get key = unmarshal j) :
    v.IsRead s key ↔ v.Faithful := by
  cases v with
  | string v =>
    obtain rfl := some_inj.mp hj
    simp only [IsRead, Faithful, getString, h, unmarshal]
    exact toValid_eq_self_iff
  | int v =>
    obtain rfl := some_inj.mp hj
    simp only [IsRead, Faithful, getInt, getInt64, h, unmarshal]
    exact truncate_nearestInt_iff v
  | int64 v =>
    obtain rfl := some_inj.mp hj
    simp only [IsRead, Faithful, getInt64, h, unmarshal]
    exact truncate_nearestInt_iff v
  | bool v =>
    obtain rfl := some_inj.mp hj
    simp only [IsRead, Faithful, getBool, h, unmarshal]
  | bytes v =>
    cases v with
    | none =>
      obtain rfl := some_inj.mp hj
      simp only [IsRead, Faithful, getBytes, h, unmarshal, true_or]
    | some b =>
      obtain rfl := some_inj.mp hj
      simp only [IsRead, Faithful, getBytes, h, unmarshal, some_inj, reduceCtorEq, false_or]
      exact stdBase64_eq_self_iff
  | time v =>
    obtain ⟨text, -, rfl⟩ := map_eq_some_iff.mp hj
    simp only [IsRead, Faithful, getTime, h, unmarshal, eq_comm]

/-- What is loaded by the cookie is what was saved, as it was written and read. -/
theorem exists_deserialize {V : Type} {S : Serializer V} {maxAge now now' : ℤ}
    {db db' : Records S.Data}
    {draw : List.Vector UInt8 32} {raw : RawSession V} {sent : SetCookie Bytes}
    (hage : 0 < raw.maxAge) (hsave : save S maxAge db now draw raw = some (db', sent))
    (hload : (new S maxAge db' now' (some sent.value)).isNew = false) :
    ∃ data values', S.serialize raw.values = some data ∧ S.deserialize data = some values' ∧
      new S maxAge db' now' (some sent.value) = ⟨sent.value, values', maxAge, false⟩ := by
  cases hdata : S.serialize raw.values with
  | none =>
    rw [save, if_neg (not_le.mpr hage), saveRecord, hdata] at hsave
    cases hsave
  | some data =>
    rw [save_of_serialize hage hdata] at hsave
    obtain ⟨rfl, rfl⟩ := Prod.ext_iff.mp (some_inj.mp hsave)
    obtain ⟨id, values', hid, hvalues'⟩ := exists_load hload
    obtain rfl := some_inj.mp hid
    obtain ⟨r, hr, -, hdeserialize⟩ := exists_record hvalues'
    dsimp only at hr
    rw [Records.set, Function.update_self, some_inj] at hr
    refine ⟨data, values', rfl, ?_, new_of_load hvalues'⟩
    rw [← hdeserialize, ← hr]

/-- **Typed values through Redis.** A value that is stored under a key, saved, and loaded again by
the cookie is what the getter returns if and only if it is one of those that come back under a key
that does, or the one the getter returns for nothing. No other key may become this one. -/
theorem isRead_loaded_iff {maxAge now now' : ℤ} {db db' : Records (jsonSerializer E).Data}
    {draw : List.Vector UInt8 32} {raw : RawSession (AnyValue E)} {sent : SetCookie Bytes}
    (hage : 0 < raw.maxAge)
    (hsave : save (jsonSerializer E) maxAge db now draw raw = some (db', sent))
    (hload : (new (jsonSerializer E) maxAge db' now' (some sent.value)).isNew = false)
    {key : Bytes} {v : Typed E} (hkey : raw.values.lookup key = some (some v.value))
    (hothers : ∀ k ∈ raw.values, k ≠ key → toValid k ≠ key) :
    v.IsRead (newSession (new (jsonSerializer E) maxAge db' now' (some sent.value))) key ↔
      v.IsZero ∨ (Valid key ∧ v.Faithful) := by
  obtain ⟨data, values', hdata, hvalues', hnew⟩ := exists_deserialize hage hsave hload
  obtain ⟨j, hj, hlookup⟩ := lookup_deserialize hdata hvalues' hkey hothers
  have hget : (newSession (new (jsonSerializer E) maxAge db' now'
      (some sent.value))).get key = if Valid key then unmarshal j else none := by
    rw [Session.get, newSession, hnew, hlookup]
    split
    · rfl
    · rfl
  by_cases hvalid : Valid key
  · rw [if_pos hvalid] at hget
    rw [v.isRead_of_get hj hget]
    exact ⟨fun h => .inr ⟨hvalid, h⟩, fun h => h.elim Typed.IsZero.faithful And.right⟩
  · rw [if_neg hvalid] at hget
    rw [v.isRead_of_get_none hget]
    exact ⟨.inl, fun h => h.resolve_right fun hand => hvalid hand.1⟩

/-! ### A session with a name -/

/-- Times by their texts in the form of RFC 3339, and nothing else. -/
abbrev plainEnv : Env where
  Time := Bytes
  zeroTime := utf8 "0001-01-01T00:00:00Z"
  formatTime := some
  Frac := Empty
  truncFrac := Empty.elim
  formatFloat x :=
    match x with
    | .whole i => Numeral.formatInt i
  Other := Empty
  Raw := Empty
  marshalFloat _ x :=
    match x with
    | .whole i => some (.int i)
  marshalOther := Empty.elim
  unmarshalRaw := Empty.elim

/-- A new session with a value. -/
def storedSession (key : Bytes) (v : Typed plainEnv) : RawSession (AnyValue plainEnv) :=
  ((newSession ⟨[], ∅, 3600, true⟩).setTyped key v).raw

/-- The session is saved. -/
def savedTyped (key : Bytes) (v : Typed plainEnv) :
    Option (Records (jsonSerializer plainEnv).Data × SetCookie Bytes) :=
  save (jsonSerializer plainEnv) 3600 (fun _ => none) 0 (List.Vector.replicate 32 0)
    (storedSession key v)

/-- And loaded by the next request, a second later. -/
def loadedTyped (saved : Records (jsonSerializer plainEnv).Data × SetCookie Bytes) :
    Session (AnyValue plainEnv) :=
  newSession (new (jsonSerializer plainEnv) 3600 saved.1 second (some saved.2.value))

theorem not_mem_storedSession {key k : Bytes} {v : Typed plainEnv}
    (h : k ∈ (storedSession key v).values) : k = key := by
  rw [storedSession, setTyped_eq] at h
  exact (mem_insert _).mp h |>.resolve_right (notMem_empty k)

theorem serialize_storedSession {v : Typed plainEnv} {j : JsonValue Empty}
    (h : marshal (some v.value) = some j) :
    (jsonSerializer plainEnv).serialize (storedSession key v).values =
      some [(toValid key, j)] := by
  have hentries : (storedSession key v).values.entries = [⟨key, some v.value⟩] := by
    rw [storedSession, setTyped_eq]
    rfl
  simp only [jsonSerializer, hentries, mergeSort_singleton, marshalMembers, h]

/-- A name comes back. -/
theorem name_isRead : ∃ s, savedTyped (utf8 "name") (.string (utf8 "Ann")) = some s ∧
    (Typed.string (utf8 "Ann")).IsRead (loadedTyped s) (utf8 "name") := by
  have hage : 0 < (storedSession (utf8 "name") (.string (utf8 "Ann"))).maxAge := by decide
  have hsave : savedTyped (utf8 "name") (.string (utf8 "Ann")) = _ :=
    save_of_serialize hage (serialize_storedSession rfl) (List.Vector.replicate 32 0)
  have hfaithful : (Typed.string (E := plainEnv) (utf8 "Ann")).Faithful := by
    unfold Typed.Faithful
    decide +kernel
  refine ⟨_, hsave, ?_⟩
  refine (isRead_loaded_iff hage hsave ?_ rfl fun k hk hne => ?_).mpr
    (.inr ⟨by decide +kernel, hfaithful⟩)
  · rfl
  · exact absurd (not_mem_storedSession hk) hne

/-- An integer that is no float, bytes, a time and a text that is not valid do not come back. -/
theorem values_not_read :
    (savedTyped (utf8 "n") (.int64 ⟨2 ^ 53 + 1, by norm_num⟩)).map
      (fun s => (loadedTyped s).getInt64 (utf8 "n")) = some (2 ^ 53) ∧
    (savedTyped (utf8 "b") (.bytes (some (utf8 "hi")))).map
      (fun s => (loadedTyped s).getBytes (utf8 "b")) = some (some (utf8 "aGk=")) ∧
    (savedTyped (utf8 "t") (.time (utf8 "2024-05-01T10:00:00Z"))).map
      (fun s => (loadedTyped s).getTime (utf8 "t")) = some (utf8 "0001-01-01T00:00:00Z") ∧
    (savedTyped (utf8 "s") (.string [0xff])).map
      (fun s => (loadedTyped s).getString (utf8 "s")) = some [0xef, 0xbf, 0xbd] := by
  refine ⟨?_, ?_, ?_, ?_⟩
  · decide +kernel
  · decide +kernel
  · decide +kernel
  · decide +kernel

end Kiya.Security
