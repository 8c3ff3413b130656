import Kiya.Lib.Strings

/-!
# Types and values of the decoder

What `internal/decoder` sees of a type by reflection, and the values it stores. The types of a
program are whatever they are: a `Types` says of each of them what it is made of, so that a type may
refer to itself through pointers and slices.

A value is kept without its type. The zero value of a type is `zero`, for a nil slice and a nil
pointer as for a struct of zero values; an interface holds nothing or a text, since the decoder
never stores anything else in one.

`cache.go` decides under which name, and with which kind of cleaning, a field of a struct is read:
by the tag `form`, a name and an option with a comma between them. The fields are then sorted by a
comparison that says of any two fields that are not embedded that each is smaller, so that all one
can say of the result is that it has the same fields.

The sanitizers, `strconv.ParseFloat` and the reading of times are parameters.
-/

namespace Kiya.Decoder

open Strings

/-! ### Types -/

/-- `SanitizeMode`. -/
inductive SanitizeMode
  | default
  | html
  | raw
deriving DecidableEq

/-- The size of a number. `int` and `uint` have 64 bits. -/
inductive Width
  | w8
  | w16
  | w32
  | w64
deriving DecidableEq

/-- The number of bits. -/
def Width.bits : Width → ℕ
  | w8 => 8
  | w16 => 16
  | w32 => 32
  | w64 => 64

/-- `reflect.StructField`; the tag is the one for forms. -/
structure StructField (T : Type) where
  name : Bytes
  name_ne : name ≠ []
  exported : Bool
  anonymous : Bool
  tag : Bytes
  typ : T

/-- What a type is made of. -/
inductive TypeView (T : Type)
  | string
  | bool
  | int (w : Width)
  | uint (w : Width)
  | float (w : Width)
  | time
  | interface (numMethod : ℕ)
  | ptr (elem : T)
  | slice (elem : T)
  | struct (fields : List (StructField T))
  | other

/-- The types of a program, with their names. -/
structure Types (T : Type) where
  view : T → TypeView T
  string : T → Bytes

/-! ### Values -/

/-- The values of a program; those of `X` are floating-point numbers and times. -/
inductive Val (X : Type)
  | zero
  | str (s : Bytes)
  | bool (b : Bool)
  | int (i : ℤ)
  | uint (n : ℕ)
  | opaq (x : X)
  | iface (s : Bytes)
  | ptr (v : Val X)
  | slice (vs : List (Val X))
  | struct (vs : List (Val X))

/-- The elements of a slice; nil has none. -/
def Val.elems {X : Type} : Val X → List (Val X)
  | .slice vs => vs
  | _ => []

/-- The fields of a struct with so many of them. -/
def Val.fields {X : Type} (count : ℕ) : Val X → List (Val X)
  | .struct vs => vs
  | _ => List.replicate count .zero

/-! ### The cache -/

/-- `cachedField`, with the type of the field and whether it can be set. -/
structure CachedField (T : Type) where
  idx : ℕ
  name : Bytes
  isAnonymous : Bool
  sanitizeMode : SanitizeMode
  typ : T
  canSet : Bool

/-- The option of a tag. -/
def sanitizeModeOf (cfg : Bytes) : SanitizeMode :=
  if [utf8 "none", utf8 "raw", utf8 "safe"].any fun word => lowersTo word cfg then .raw
  else if [utf8 "wysiwyg", utf8 "html"].any fun word => lowersTo word cfg then .html
  else .default

/-- The name and the option of a tag. -/
def parseTag (tag : Bytes) : Bytes × SanitizeMode :=
  let parts := tag.splitOn 44
  (Strings.trimSpace (parts.headD []),
    match parts[1]? with
    | none => .default
    | some cfg => sanitizeModeOf (Strings.trimSpace cfg))

/-- The name under which a field is read: the one of its tag, if it has one. -/
def StructField.formName {T : Type} (fld : StructField T) : Bytes :=
  if (parseTag fld.tag).1 = [] then fld.name else (parseTag fld.tag).1

/-- One field of `parseStruct`, unless it is left out. An embedded field that is not exported is
cached, but cannot be set. -/
def parseField {T : Type} (fld : StructField T) (idx : ℕ) : Option (CachedField T) :=
  if ¬ fld.exported ∧ ¬ fld.anonymous then none
  else if (parseTag fld.tag).1 = utf8 "-" then none
  else some {
    idx
    name := fld.formName
    isAnonymous := fld.anonymous
    sanitizeMode := (parseTag fld.tag).2
    typ := fld.typ
    canSet := fld.exported }

/-- `parseStruct`, before the fields are sorted. -/
def parseStruct {T : Type} (fields : List (StructField T)) : List (CachedField T) :=
  fields.zipIdx.filterMap fun fld => parseField fld.1 fld.2

/-! ### Other packages -/

/-- What other packages do. -/
structure Libs (T X : Type) where
  /-- The policy for HTML, with white space collapsed. -/
  ugc : Bytes → Bytes
  /-- The strict policy, without scripts and styles and with white space collapsed. -/
  strict : Bytes → Bytes
  parseFloat : Width → Bytes → Option X
  /-- A time by one of the layouts, or else by `dateparse`, with the text of its error. -/
  parseTime : Bytes → Except Bytes X
  /-- `sort.Sort`. -/
  sort : List (CachedField T) → List (CachedField T)
  sort_perm : ∀ fields, (sort fields).Perm fields

variable {T X : Type}

/-- `cleanValue`. -/
def cleanValue (L : Libs T X) (val : Bytes) : SanitizeMode → Bytes
  | .raw => Strings.trimSpace val
  | .html => Strings.trimSpace (L.ugc (Strings.trimSpace val))
  | .default => Strings.trimSpace (L.strict (Strings.trimSpace val))

/-- `parseBool`. -/
def parseBool (s : Bytes) : Option Bool :=
  if s ∈ [utf8 "1", utf8 "t", utf8 "T", utf8 "true", utf8 "TRUE", utf8 "True", utf8 "on",
      utf8 "yes", utf8 "ok"] then some true
  else if s ∈ [utf8 "", utf8 "0", utf8 "f", utf8 "F", utf8 "false", utf8 "FALSE", utf8 "False",
      utf8 "off", utf8 "no"] then some false
  else none

end Kiya.Decoder
