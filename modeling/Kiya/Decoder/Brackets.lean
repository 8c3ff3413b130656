import Kiya.Lib.Bytes

/-!
# Keys with brackets

`parseMapData` of `traverse.go`: every key of the form is scanned for brackets, and for each closed
pair the text before it, the alias, gets an entry with what is in between. The entries of an alias
are the elements of a slice; an entry that is a number is the index of one, where `[]` counts as
`[0]`, and a number that is too large counts as the largest one there is.

The table lists the aliases in the order in which they are found. What a lookup in it finds does not
depend on that order, but only on the entries with the alias that is looked up (`findAlias_table`).
-/

namespace Kiya.Decoder

open Numeral List Option

/-- `[`. -/
def leftBracket : UInt8 := 91

/-- `]`. -/
def rightBracket : UInt8 := 93

/-- `key`: the index, or -1, and the text with its brackets. -/
structure Key where
  ivalue : ℤ
  searchValue : Bytes
deriving DecidableEq

/-- `recursiveData`. -/
structure RecursiveData where
  aliasName : Bytes
  sliceLen : ℤ
  keys : List Key
deriving DecidableEq

/-! ### Scanning -/

/-- `strconv.Atoi`, of which the error is ignored. -/
def atoi (s : Bytes) : ℤ :=
  match parseInt 64 s with
  | .value i => i
  | .syntaxError => 0
  | .rangeError nearest => nearest

/-- What a pair of brackets holds. -/
def Key.ofValue (value : Bytes) : Key where
  ivalue := if value.all fun b => decide (IsDigit b) then atoi value else -1
  searchValue := leftBracket :: value ++ [rightBracket]

variable {value s : Bytes} {m : ℕ} {e : Bytes × Key} {ks : List Key} {ke : Key}

/-- **The index of a number** is the number, or the largest `int`. -/
theorem ivalue_of_parseNat (h : parseNat value = some m) :
    (Key.ofValue value).ivalue = min (m : ℤ) (2 ^ 63 - 1) := by
  have hdigits := isDigit_of_parseNat h
  have hall : (value.all fun b => decide (IsDigit b)) = true :=
    List.all_eq_true.mpr fun b hb => decide_eq_true (hdigits b hb)
  simp only [Key.ofValue, hall, if_true, atoi, parseInt,
    splitSign_of_isDigit hdigits, h, Bool.false_eq_true, if_false]
  by_cases hm : m < 2 ^ (64 - 1)
  · have hle : (m : ℤ) ≤ 2 ^ 63 - 1 := by omega
    rw [if_pos hm, min_eq_left hle]
  · have hle : (2 ^ 63 - 1 : ℤ) ≤ m := by omega
    rw [if_neg hm, min_eq_right hle]

/-- What is between brackets is no index, or nothing, or a number. -/
theorem ivalue_cases (value : Bytes) : (Key.ofValue value).ivalue = -1 ∨
    (Key.ofValue value).ivalue = 0 ∨ ∃ m, parseNat value = some m := by
  by_cases hall : (value.all fun b => decide (IsDigit b)) = true
  · by_cases hvalue : value = []
    · rw [hvalue]
      exact .inr (.inl rfl)
    · refine .inr (.inr (exists_parseNat hvalue fun b hb => ?_))
      exact of_decide_eq_true (List.all_eq_true.mp hall b hb)
  · exact .inl (if_neg hall)

theorem ivalue_lt (value : Bytes) : (Key.ofValue value).ivalue < 2 ^ 63 := by
  rcases ivalue_cases value with hnone | hzero | ⟨m, hm⟩
  · omega
  · omega
  · rw [ivalue_of_parseNat hm]
    omega

theorem neg_one_le_ivalue (value : Bytes) : -1 ≤ (Key.ofValue value).ivalue := by
  rcases ivalue_cases value with hnone | hzero | ⟨m, hm⟩
  · omega
  · omega
  · rw [ivalue_of_parseNat hm]
    omega

/-- The entry of a bracket that is closed; one that was not opened is ignored. -/
def closed (inside : Option (Bytes × Bytes)) : List (Bytes × Key) :=
  (inside.map fun p => (p.1, Key.ofValue p.2)).toList

/-- Scan the rest of a key: `seen` is what was read, and `inside` the text before the last bracket
that was opened, if it is still open, with what was read since. -/
def scan : (seen : Bytes) → (inside : Option (Bytes × Bytes)) → Bytes → List (Bytes × Key)
  | _, _, [] => []
  | seen, inside, b :: rest =>
    if b = leftBracket then scan (seen ++ [b]) (some (seen, [])) rest
    else if b = rightBracket then closed inside ++ scan (seen ++ [b]) none rest
    else scan (seen ++ [b]) (inside.map fun p => (p.1, p.2 ++ [b])) rest

/-- The pairs of brackets of a key. -/
def brackets (k : Bytes) : List (Bytes × Key) := scan [] none k

/-! ### Which pairs are found -/

/-- A text without brackets. -/
def Plain (s : Bytes) : Prop := leftBracket ∉ s ∧ rightBracket ∉ s

/-- A number has no brackets. -/
theorem plain_of_parseNat (h : parseNat s = some m) : Plain s :=
  ⟨fun hmem => absurd (isDigit_of_parseNat h _ hmem) (by decide),
    fun hmem => absurd (isDigit_of_parseNat h _ hmem) (by decide)⟩

theorem Plain.append_singleton (h : Plain s) {b : UInt8} (hleft : b ≠ leftBracket)
    (hright : b ≠ rightBracket) : Plain (s ++ [b]) := by
  constructor
  · rw [mem_append, mem_singleton, not_or]
    exact ⟨h.1, hleft.symm⟩
  · rw [mem_append, mem_singleton, not_or]
    exact ⟨h.2, hright.symm⟩

/-- A bracket that is open stands behind its alias. -/
def InsideOf (seen : Bytes) (inside : Option (Bytes × Bytes)) : Prop :=
  ∀ p ∈ inside, seen = p.1 ++ leftBracket :: p.2 ∧ Plain p.2

theorem of_mem_scan {rest : Bytes} {seen : Bytes}
    {inside : Option (Bytes × Bytes)} (hinside : InsideOf seen inside)
    (h : e ∈ scan seen inside rest) : ∃ value after, Plain value ∧ e.2 = Key.ofValue value ∧
      seen ++ rest = e.1 ++ leftBracket :: (value ++ rightBracket :: after) := by
  induction rest generalizing seen inside with
  | nil => cases h
  | cons b rest ih =>
    have hshift : seen ++ b :: rest = (seen ++ [b]) ++ rest := by
      rw [append_assoc, singleton_append]
    rw [scan] at h
    split at h
    · rename_i hb
      rw [hshift]
      refine ih ?_ h
      rintro p ⟨⟩
      exact ⟨by rw [hb], not_mem_nil, not_mem_nil⟩
    · rename_i hleft
      split at h
      · rename_i hright
        rcases mem_append.mp h with hclosed | hmem
        · obtain ⟨p, hp, rfl⟩ := Option.mem_map.mp (mem_toList.mp hclosed)
          obtain ⟨hseen, hplain⟩ := hinside p hp
          exact ⟨p.2, rest, hplain, rfl, by
            rw [hseen, hright, append_assoc, cons_append]⟩
        · rw [hshift]
          exact ih (fun p hp => absurd hp (not_mem_none p)) hmem
      · rename_i hright
        rw [hshift]
        refine ih ?_ h
        intro p hp
        obtain ⟨q, hq, rfl⟩ := Option.mem_map.mp hp
        obtain ⟨hseen, hplain⟩ := hinside q hq
        refine ⟨?_, hplain.append_singleton hleft hright⟩
        rw [hseen, append_assoc, cons_append]

/-- The scan of a text goes on behind a part of it. -/
theorem scan_append (part seen : Bytes) (inside : Option (Bytes × Bytes)) : ∃ inside', ∀ rest,
    scan seen inside (part ++ rest) =
      scan seen inside part ++ scan (seen ++ part) inside' rest := by
  induction part generalizing seen inside with
  | nil => exact ⟨inside, fun rest => by rw [append_nil]; rfl⟩
  | cons b part ih =>
    have hshift : seen ++ b :: part = (seen ++ [b]) ++ part := by
      rw [append_assoc, singleton_append]
    simp only [cons_append, scan, hshift]
    split
    · exact ih _ _
    · split
      · obtain ⟨inside', h⟩ := ih (seen ++ [b]) none
        exact ⟨inside', fun rest => by rw [h rest, ← append_assoc (closed inside)]⟩
      · exact ih _ _

theorem scan_plain (h : Plain value) (rest seen aliasName read : Bytes) :
    scan seen (some (aliasName, read)) (value ++ rest) =
      scan (seen ++ value) (some (aliasName, read ++ value)) rest := by
  induction value generalizing seen read with
  | nil => rw [append_nil, append_nil]; rfl
  | cons b value ih =>
    obtain ⟨hleft, hright⟩ := h
    rw [mem_cons, not_or] at hleft hright
    rw [cons_append, scan, if_neg (Ne.symm hleft.1), if_neg (Ne.symm hright.1), map_some,
      ih ⟨hleft.2, hright.2⟩, append_assoc, append_assoc, singleton_append]

/-- There are no pairs in a plain text. -/
theorem scan_eq_nil (h : Plain s) (seen : Bytes) (inside : Option (Bytes × Bytes)) :
    scan seen inside s = [] := by
  induction s generalizing seen inside with
  | nil => rfl
  | cons b s ih =>
    obtain ⟨hleft, hright⟩ := h
    rw [mem_cons, not_or] at hleft hright
    rw [scan, if_neg (Ne.symm hleft.1), if_neg (Ne.symm hright.1), ih ⟨hleft.2, hright.2⟩]

theorem brackets_append_plain (h : Plain s) (ns : Bytes) : brackets (ns ++ s) = brackets ns := by
  obtain ⟨inside, hscan⟩ := scan_append ns [] none
  rw [brackets, hscan, scan_eq_nil h, append_nil]
  rfl

theorem brackets_append_value (h : Plain value) (ns : Bytes) :
    brackets (ns ++ (Key.ofValue value).searchValue) =
      brackets ns ++ [(ns, Key.ofValue value)] := by
  obtain ⟨inside, hscan⟩ := scan_append ns [] none
  rw [brackets, hscan, Key.ofValue, cons_append, scan, if_pos rfl, scan_plain h, scan,
    if_neg (by decide), if_pos rfl]
  rfl

/-- **The pairs of brackets of a key** are those with nothing but plain text in between. -/
theorem mem_brackets_iff {k : Bytes} :
    e ∈ brackets k ↔ ∃ value after, Plain value ∧ e.2 = Key.ofValue value ∧
      k = e.1 ++ leftBracket :: (value ++ rightBracket :: after) := by
  constructor
  · exact fun h => of_mem_scan (fun p hp => absurd hp (not_mem_none p)) h
  · rintro ⟨value, after, hplain, hkey, rfl⟩
    have hsplit : e.1 ++ leftBracket :: (value ++ rightBracket :: after) =
        (e.1 ++ (Key.ofValue value).searchValue) ++ after := by
      simp [Key.ofValue]
    obtain ⟨inside, hscan⟩ := scan_append (e.1 ++ (Key.ofValue value).searchValue) [] none
    rw [hsplit, brackets, hscan, ← brackets, brackets_append_value hplain]
    exact mem_append_left _ (mem_append_right _ (mem_singleton.mpr (Prod.ext rfl hkey)))

/-- Plain texts before a bracket are the same if the texts with the bracket are. -/
theorem plain_append_inj {s t a b : Bytes} (hs : Plain s) (ht : Plain t)
    (h : s ++ rightBracket :: a = t ++ rightBracket :: b) : s = t ∧ a = b := by
  induction s generalizing t with
  | nil =>
    cases t with
    | nil => exact ⟨rfl, (List.cons.inj h).2⟩
    | cons c t => exact absurd ((List.cons.inj h).1 ▸ mem_cons_self) ht.2
  | cons c s ih =>
    cases t with
    | nil => exact absurd ((List.cons.inj h).1 ▸ mem_cons_self) hs.2
    | cons d t =>
      obtain ⟨hcd, hrest⟩ := List.cons.inj h
      obtain ⟨hst, hab⟩ := ih
        ⟨fun hm => hs.1 (mem_cons_of_mem _ hm), fun hm => hs.2 (mem_cons_of_mem _ hm)⟩
        ⟨fun hm => ht.1 (mem_cons_of_mem _ hm), fun hm => ht.2 (mem_cons_of_mem _ hm)⟩
        hrest
      exact ⟨by rw [hcd, hst], hab⟩

/-! ### The table -/

/-- One more entry of an alias. -/
def RecursiveData.add (rd : RecursiveData) (ke : Key) : RecursiveData where
  aliasName := rd.aliasName
  sliceLen := if rd.sliceLen < ke.ivalue then ke.ivalue else rd.sliceLen
  keys := rd.keys ++ [ke]

/-- An entry goes to its alias, which is new if it is not in the table. -/
def addKey (aliasName : Bytes) (ke : Key) : List RecursiveData → List RecursiveData
  | [] => [RecursiveData.add ⟨aliasName, 0, []⟩ ke]
  | rd :: dm => if rd.aliasName = aliasName then rd.add ke :: dm else rd :: addKey aliasName ke dm

/-- `parseMapData`, with the keys in the order in which they are visited. -/
def parseMapData (keys : List Bytes) : List RecursiveData :=
  keys.foldl (fun dm k => (brackets k).foldl (fun dm e => addKey e.1 e.2 dm) dm) []

/-- `findAlias`. -/
def findAlias (dm : List RecursiveData) (ns : Bytes) : Option RecursiveData :=
  dm.find? fun rd => decide (rd.aliasName = ns)

/-! ### What a lookup finds -/

/-- The entries of an alias. -/
def entriesOf (aliasName : Bytes) (es : List (Bytes × Key)) : List Key :=
  (es.filter fun e => decide (e.1 = aliasName)).map Prod.snd

/-- The greatest index. -/
def sliceLenOf (ks : List Key) : ℤ := ks.foldl (fun m ke => max m ke.ivalue) 0

theorem findAlias_addKey_of_ne {aliasName ns : Bytes} (h : aliasName ≠ ns) (ke : Key)
    (dm : List RecursiveData) : findAlias (addKey aliasName ke dm) ns = findAlias dm ns := by
  induction dm with
  | nil =>
    rw [addKey, findAlias, find?_cons_of_neg]
    · rfl
    · exact fun heq => h (of_decide_eq_true heq)
  | cons rd dm ih =>
    rw [addKey]
    split
    · rename_i halias
      rw [findAlias, findAlias, find?_cons_of_neg, find?_cons_of_neg]
      · exact fun heq => h (halias.symm.trans (of_decide_eq_true heq))
      · exact fun heq => h (halias.symm.trans (of_decide_eq_true heq))
    · rw [findAlias, findAlias, find?_cons, find?_cons]
      cases decide (rd.aliasName = ns) with
      | true => rfl
      | false => exact ih

variable (aliasName : Bytes)

theorem findAlias_addKey_self (ke : Key) (dm : List RecursiveData) :
    findAlias (addKey aliasName ke dm) aliasName =
      some (((findAlias dm aliasName).getD ⟨aliasName, 0, []⟩).add ke) := by
  induction dm with
  | nil => exact find?_cons_of_pos (decide_eq_true rfl)
  | cons rd dm ih =>
    rw [addKey]
    split
    · rename_i halias
      rw [findAlias, findAlias, find?_cons_of_pos, find?_cons_of_pos]
      · rfl
      · exact decide_eq_true halias
      · exact decide_eq_true halias
    · rename_i halias
      rw [findAlias, findAlias, find?_cons_of_neg, find?_cons_of_neg]
      · exact ih
      · exact fun heq => halias (of_decide_eq_true heq)
      · exact fun heq => halias (of_decide_eq_true heq)

/-- The entry of an alias that has these keys. -/
def dataOf (aliasName : Bytes) (ks : List Key) : Option RecursiveData :=
  if ks = [] then none else some ⟨aliasName, sliceLenOf ks, ks⟩

theorem sliceLenOf_append (ks : List Key) (ke : Key) :
    sliceLenOf (ks ++ [ke]) = max (sliceLenOf ks) ke.ivalue := by
  rw [sliceLenOf, foldl_append]
  rfl

theorem le_sliceLenOf (h : ke ∈ ks) : ke.ivalue ≤ sliceLenOf ks := by
  induction ks using List.reverseRecOn with
  | nil => cases h
  | append_singleton ks last ih =>
    rw [sliceLenOf_append]
    rcases mem_append.mp h with hmem | hlast
    · exact (ih hmem).trans (le_max_left _ _)
    · rw [mem_singleton.mp hlast]
      exact le_max_right _ _

theorem sliceLenOf_le {m : ℤ} (hm : 0 ≤ m) (h : ∀ ke ∈ ks, ke.ivalue ≤ m) : sliceLenOf ks ≤ m := by
  induction ks using List.reverseRecOn with
  | nil => exact hm
  | append_singleton ks last ih =>
    rw [sliceLenOf_append]
    exact max_le (ih fun ke hke => h ke (mem_append_left _ hke))
      (h last (mem_append_right _ mem_cons_self))

theorem add_dataOf (ks : List Key) (ke : Key) :
    some (((dataOf aliasName ks).getD ⟨aliasName, 0, []⟩).add ke) =
      dataOf aliasName (ks ++ [ke]) := by
  have hmax (m i : ℤ) : (if m < i then i else m) = max m i := by
    rcases lt_or_ge m i with h | h
    · rw [if_pos h, max_eq_right h.le]
    · rw [if_neg (not_lt.mpr h), max_eq_left h]
  have hne : ks ++ [ke] ≠ [] := append_ne_nil_of_right_ne_nil _ (cons_ne_nil _ _)
  rw [dataOf, dataOf, if_neg hne, sliceLenOf_append]
  by_cases hks : ks = []
  · rw [hks, if_pos rfl]
    simp only [getD_none, RecursiveData.add, hmax]
    rfl
  · rw [if_neg hks]
    simp only [getD_some, RecursiveData.add, hmax]

theorem entriesOf_append (es es' : List (Bytes × Key)) :
    entriesOf aliasName (es ++ es') = entriesOf aliasName es ++ entriesOf aliasName es' := by
  rw [entriesOf, filter_append, map_append]
  rfl

theorem findAlias_foldl (es : List (Bytes × Key)) (ns : Bytes) :
    findAlias (es.foldl (fun dm e => addKey e.1 e.2 dm) []) ns = dataOf ns (entriesOf ns es) := by
  induction es using List.reverseRecOn with
  | nil => rfl
  | append_singleton es e ih =>
    rw [foldl_append, entriesOf_append]
    by_cases he : e.1 = ns
    · have hone : entriesOf ns [e] = [e.2] := by
        rw [entriesOf, filter_singleton, decide_eq_true he]
        rfl
      rw [hone, ← add_dataOf, ← ih, ← he]
      exact findAlias_addKey_self _ _ _
    · have hnone : entriesOf ns [e] = [] := by
        rw [entriesOf, filter_singleton, decide_eq_false he]
        rfl
      rw [hnone, append_nil, ← ih]
      exact findAlias_addKey_of_ne he _ _

/-- **What is found for an alias** are the entries with this alias, in the order of the keys. -/
theorem findAlias_table (keys : List Bytes) (ns : Bytes) :
    findAlias (parseMapData keys) ns = dataOf ns (entriesOf ns (keys.flatMap brackets)) := by
  rw [← findAlias_foldl, foldl_flatMap]
  rfl

theorem mem_entriesOf {aliasName : Bytes} {keys : List Bytes} :
    ke ∈ entriesOf aliasName (keys.flatMap brackets) ↔
      ∃ k ∈ keys, (aliasName, ke) ∈ brackets k := by
  rw [entriesOf, List.mem_map]
  constructor
  · rintro ⟨e, he, rfl⟩
    obtain ⟨hmem, halias⟩ := mem_filter.mp he
    obtain ⟨k, hk, hek⟩ := mem_flatMap.mp hmem
    exact ⟨k, hk, of_decide_eq_true halias ▸ hek⟩
  · rintro ⟨k, hk, he⟩
    exact ⟨(aliasName, ke), mem_filter.mpr ⟨mem_flatMap.mpr ⟨k, hk, he⟩, decide_eq_true rfl⟩, rfl⟩

end Kiya.Decoder
