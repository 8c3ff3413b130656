import Kiya.Decoder.Encoding

/-!
# Decoding the canonical form

The canonical form of a value is decoded to the value, in whatever order its keys are visited. What
the induction on the value needs of the form is that it agrees with the value under the namespace of
the value: a key there has an entry exactly if it is a leaf (`Agrees`). From this follows what the
table of aliases has for a slice: the indices of its elements, each at least once.
-/

namespace Kiya.Decoder

open Collect Numeral Strings Ctx List Option AList

variable {T X : Type}

/-- The form has the leaves of a value under a namespace, and nothing else there. -/
def Agrees (c : Ctx T X) (t : T) (v : Val X) (ns : Bytes) : Prop :=
  ∀ k, Below ns k → ∀ arr, c.form.lookup k = some arr ↔
    ∃ text, arr = [text] ∧ (k, text) ∈ entries c.types t v ns

variable {c : Ctx T X} {d depth : ℕ} {within : Bool} {t : T} {v : Val X} {vs : List (Val X)}
  {ns : Bytes}

/-- The canonical form agrees with its value. -/
theorem agrees_encodeForm (h : HasForm c.types c.maxArraySize d within t v)
    (hform : c.form.entries.Perm (encodeForm h).entries) : Agrees c t v [] := by
  intro k _ arr
  rw [perm_lookup hform, ← mem_def, mem_lookup_iff, encodeForm, List.mem_map]
  constructor
  · rintro ⟨e, he, heq⟩
    cases heq
    exact ⟨e.2, rfl, he⟩
  · rintro ⟨text, rfl, he⟩
    exact ⟨(k, text), he, rfl⟩

/-! ### Parts of a value -/

variable {fields : List (StructField T)} {i : ℕ} {f : StructField T} {mode : SanitizeMode}

theorem Agrees.field (h : Agrees c t (.struct vs) ns) (hview : c.types.view t = .struct fields)
    (hnodup : (fields.map StructField.formName).Nodup) (hfields : ∀ f ∈ fields, IsFormField f)
    (hvs : ∀ (i : ℕ) (f : StructField T) (v : Val X), fields[i]? = some f →
      vs[i]? = some v → HasForm c.types c.maxArraySize d true f.typ v)
    (hf : fields[i]? = some f) (hv : vs[i]? = some v) :
    Agrees c f.typ v (fieldNs ns f.formName) := by
  intro k hk arr
  rw [h k hk.of_fieldNs arr]
  refine exists_congr fun text => and_congr_right fun _ => ?_
  rw [mem_entries_struct hview]
  constructor
  · rintro ⟨j, g, w, hg, hw, he⟩
    have hname := formName_eq_of_below (hfields f (mem_of_getElem? hf))
      (hfields g (mem_of_getElem? hg)) hk (below_of_mem (hvs j g w hg hw) he)
    have hfg := inj_on_of_nodup_map hnodup (mem_of_getElem? hf)
      (mem_of_getElem? hg) hname
    obtain ⟨hi, rfl⟩ := List.getElem?_eq_some_iff.mp hf
    obtain ⟨hj, hgj⟩ := List.getElem?_eq_some_iff.mp hg
    have hij : i = j := hnodup.of_map.getElem_inj_iff.mp (hfg.trans hgj.symm)
    subst hij
    rw [hv] at hw
    cases hw
    exact hfg ▸ he
  · exact fun he => ⟨i, f, v, hf, hv, he⟩

theorem Agrees.elem {t elem : T} (h : Agrees c t (.slice vs) ns)
    (hview : c.types.view t = .slice elem)
    (hvs : ∀ v ∈ vs, HasForm c.types c.maxArraySize d within elem v) (hv : vs[i]? = some v) :
    Agrees c elem v (elemNs ns i) := by
  intro k hk arr
  rw [h k hk.of_elemNs arr]
  refine exists_congr fun text => and_congr_right fun _ => ?_
  rw [mem_entries_slice hview]
  constructor
  · rintro ⟨j, w, hw, he⟩
    have hij := eq_of_below_elemNs hk (below_of_mem (hvs w (mem_of_getElem? hw)) he)
    subst hij
    rw [hv] at hw
    cases hw
    exact he
  · exact fun he => ⟨i, v, hv, he⟩

/-! ### Leaves -/

theorem isVisible_of_isDigit {b : UInt8} (h : IsDigit b) : IsVisible b := by
  rw [IsDigit, digitValue] at h
  split at h
  · rename_i hb
    exact ⟨le_trans (b := 48) (by decide) hb.1, le_trans (b := 57) hb.2 (by decide)⟩
  · cases h

theorem trimSpace_formatNat (n : ℕ) :
    Strings.trimSpace (formatNat n) = formatNat n :=
  trimSpace_of_visible fun b hb => isVisible_of_isDigit (isDigit_of_mem_formatNat b hb)

theorem trimSpace_formatInt (i : ℤ) :
    Strings.trimSpace (formatInt i) = formatInt i := by
  refine trimSpace_of_visible fun b hb => ?_
  rcases isNumeralByte_of_mem_formatInt b hb with rfl | rfl | hdigit
  · decide
  · decide
  · exact isVisible_of_isDigit hdigit

theorem trimSpace_bool : ∀ b : Bool, Strings.trimSpace (if b then utf8 "true" else utf8 "false") =
    if b then utf8 "true" else utf8 "false" := by
  decide +kernel

theorem formatInt_ne_nil (i : ℤ) : formatInt i ≠ [] := by
  rw [formatInt]
  split
  · exact cons_ne_nil _ _
  · exact formatNat_ne_nil _

theorem formValue_of_agrees (h : Agrees c t v ns)
    (hentries : entries c.types t v ns = [(ns, leafText v)])
    (htrim : Strings.trimSpace (leafText v) = leafText v) :
    c.formValue ns 0 .raw = some (leafText v) := by
  have hlookup : c.form.lookup ns = some [leafText v] :=
    (h ns (below_self ns) _).mpr ⟨leafText v, rfl, hentries ▸ mem_cons_self⟩
  rw [formValue, hlookup]
  exact congrArg some htrim

/-- A leaf is stored once its text is read. -/
theorem setLeaf_of_agrees (h : Agrees c t v ns)
    (hentries : entries c.types t v ns = [(ns, leafText v)])
    (htrim : Strings.trimSpace (leafText v) = leafText v) {view : TypeView T}
    (hread : c.readLeaf (leafText v) view = some (.ok v)) (current : Val X) :
    c.setLeaf view current ns 0 .raw = ⟨v, true, []⟩ := by
  rw [setLeaf, formValue_of_agrees h hentries htrim, bind_some, hread]
  rfl

/-! ### Slices -/

theorem ivalue_formatNat (h : (i : ℤ) < 2 ^ 63) :
    (Key.ofValue (formatNat i)).ivalue = i := by
  rw [ivalue_of_parseNat (parseNat_formatNat i)]
  exact min_eq_left (by omega)

/-- **What the table has for a slice** are the indices of its elements. -/
theorem mem_keysOf_slice {t elem : T} (h : Agrees c t (.slice vs) ns)
    (hview : c.types.view t = .slice elem)
    (hvs : ∀ v ∈ vs, HasForm c.types c.maxArraySize d within elem v)
    (hleaf : ∀ v ∈ vs, entries c.types elem v [] ≠ []) (ke : Key) :
    ke ∈ c.keysOf ns ↔ ∃ i < vs.length, ke = Key.ofValue (formatNat i) := by
  rw [keysOf, mem_entriesOf]
  constructor
  · rintro ⟨k, hk, hbrackets⟩
    obtain ⟨value, after, hplain, rfl, hkey⟩ := mem_brackets_iff.mp hbrackets
    have hbelow : Below ns k := ⟨_, hkey, fun _ b hb => by cases hb; exact .inr rfl⟩
    obtain ⟨arr, harr⟩ := isSome_iff_exists.mp (lookup_isSome.mpr hk)
    obtain ⟨text, -, he⟩ := (h k hbelow arr).mp harr
    obtain ⟨i, v, hv, he⟩ := (mem_entries_slice hview).mp he
    obtain ⟨s, hs, -⟩ := below_of_mem (hvs v (mem_of_getElem? hv)) he
    refine ⟨i, (List.getElem?_eq_some_iff.mp hv).1, ?_⟩
    have hsame := hkey.symm.trans hs
    rw [elemNs, append_assoc, cons_append, append_assoc] at hsame
    rw [(plain_append_inj hplain (plain_formatNat i)
      (List.cons.inj (append_cancel_left hsame)).2).1]
  · rintro ⟨i, hi, rfl⟩
    have hne : entries c.types elem vs[i] (elemNs ns i) ≠ [] := fun hnil =>
      hleaf _ (getElem_mem hi)
        ((entries_eq_nil_iff (hvs _ (getElem_mem hi)) _ _).mp hnil)
    obtain ⟨e, he⟩ := exists_mem_of_ne_nil _ hne
    have hmem := (mem_entries_slice hview).mpr ⟨i, vs[i], getElem?_eq_getElem hi, he⟩
    obtain ⟨s, hs, -⟩ := below_of_mem (hvs _ (getElem_mem hi)) he
    have hbelow : Below ns e.1 := (below_of_mem (hvs _ (getElem_mem hi)) he).of_elemNs
    have hlookup := (h e.1 hbelow [e.2]).mpr ⟨e.2, rfl, hmem⟩
    refine ⟨e.1, lookup_isSome.mp (by rw [hlookup]; rfl), mem_brackets_iff.mpr ?_⟩
    refine ⟨formatNat i, s, plain_formatNat i, rfl, ?_⟩
    rw [hs, elemNs, append_assoc, cons_append, append_assoc]
    rfl

theorem lookup_slice_eq_none {t elem : T} (h : Agrees c t (.slice vs) ns)
    (hview : c.types.view t = .slice elem)
    (hvs : ∀ v ∈ vs, HasForm c.types c.maxArraySize d within elem v) : c.form.lookup ns = none := by
  rw [eq_none_iff_forall_not_mem]
  intro arr harr
  obtain ⟨text, -, he⟩ := (h ns (below_self ns) arr).mp harr
  obtain ⟨i, v, hv, he⟩ := (mem_entries_slice hview).mp he
  obtain ⟨s, hs, -⟩ := below_of_mem (hvs v (mem_of_getElem? hv)) he
  -- The namespace of an element is longer than the one of the slice.
  have hlength := congrArg List.length hs
  simp only [elemNs, length_append, length_cons] at hlength
  omega

/-- The indices give the length of a slice. -/
theorem length_of_keysOf {count : ℕ} (hcount : 0 < count) (hlt : (count : ℤ) < 2 ^ 63)
    (hkeys : ∀ ke, ke ∈ c.keysOf ns ↔ ∃ i < count, ke = Key.ofValue (formatNat i)) :
    RecursiveData.length ⟨ns, sliceLenOf (c.keysOf ns), c.keysOf ns⟩ = count := by
  have hivalue {i : ℕ} (hi : i < count) : (Key.ofValue (formatNat i)).ivalue = i :=
    ivalue_formatNat (by omega)
  have hsliceLen : sliceLenOf (c.keysOf ns) = count - 1 := by
    refine le_antisymm (sliceLenOf_le (by omega) fun ke hke => ?_) ?_
    · obtain ⟨i, hi, rfl⟩ := (hkeys ke).mp hke
      rw [hivalue hi]
      omega
    · have hle := le_sliceLenOf ((hkeys _).mpr ⟨count - 1, by omega, rfl⟩)
      rw [hivalue (by omega)] at hle
      omega
  rw [RecursiveData.length, hsliceLen, sub_add_cancel]
  exact Int.bmod_eq_of_le (by omega) (by omega)

/-- Elements that are found and set, one for every index, make the slice. -/
theorem setIndexed_eq {set : Bytes → Result X} {maxArraySize : ℤ} {rd : RecursiveData}
    (hlength : rd.length = vs.length) (hmax : (vs.length : ℤ) ≤ maxArraySize) (hne : vs ≠ [])
    (hset : ∀ ke ∈ rd.inRange vs.length, ∃ v, vs[ke.ivalue.toNat]? = some v ∧
      set (ns ++ ke.searchValue) = .ok ⟨v, true, []⟩)
    (hall : ∀ i < vs.length, ∃ ke ∈ rd.inRange vs.length, ke.ivalue.toNat = i) :
    setIndexed set maxArraySize ns rd (.unchanged .zero) = .ok ⟨.slice vs, true, []⟩ := by
  let val (ke : Key) : Val X := vs.getD ke.ivalue.toNat .zero
  have hval {ke : Key} {v : Val X} (hv : vs[ke.ivalue.toNat]? = some v) : val ke = v := by
    rw [show val ke = vs.getD ke.ivalue.toNat .zero from rfl, getD_eq_getElem?_getD, hv, getD_some]
  have hgrown : grown (Val.zero : Val X).elems vs.length = List.replicate vs.length .zero := by
    rw [grown, Int.toNat_natCast]
    rfl
  have hcollect : collect (fun ke : Key => set (ns ++ ke.searchValue)) (rd.inRange vs.length) =
      .ok ((rd.inRange vs.length).map fun ke => ⟨val ke, true, []⟩) := by
    refine collect_eq_map fun ke hke => ?_
    obtain ⟨v, hv, hfound⟩ := hset ke hke
    rw [hfound, hval hv]
  have hany : ((rd.inRange vs.length).map fun ke => (⟨val ke, true, []⟩ : Decoded X)).any
      Decoded.set = true := by
    obtain ⟨ke, hke, -⟩ := hall 0 (length_pos_iff.mpr hne)
    exact List.any_eq_true.mpr ⟨_, List.mem_map_of_mem hke, rfl⟩
  have hstored : ((rd.inRange vs.length).zip ((rd.inRange vs.length).map fun ke =>
      (⟨val ke, true, []⟩ : Decoded X))).foldl storeElem (List.replicate vs.length .zero) = vs := by
    rw [← map_prod_left_eq_zip, foldl_map]
    refine foldl_set_eq (length_replicate) (fun ke hke => ?_) hall
    obtain ⟨v, hv, -⟩ := hset ke hke
    rw [hv, hval hv]
  rw [setIndexed, hlength, if_neg (not_lt.mpr hmax), if_neg fun h => by omega]
  simp only [Decoded.unchanged, hgrown, length_replicate, hcollect]
  simp only [Except.map, Decoded.ofIndexed, hany, hstored, Bool.or_true, if_true]
  rw [flatMap_map]
  simp

/-! ### The result -/

/-- What is found for a value that the form agrees with: it is set if it has leaves. -/
def found (c : Ctx T X) (t : T) (v : Val X) (ns : Bytes) : Decoded X :=
  ⟨v, !(entries c.types t v ns).isEmpty, []⟩

/-- A part is decoded to a value, with some fuel. -/
def Finds (c : Ctx T X) (depth : ℕ) (t : T) (v : Val X) (ns : Bytes) (mode : SanitizeMode) : Prop :=
  ∃ n, c.setFieldByType n depth t .zero ns 0 mode = .ok (found c t v ns)

theorem found_set : (found c t v ns).set = true ↔ entries c.types t v ns ≠ [] := by
  rw [found, Bool.not_eq_true', isEmpty_eq_false_iff]

theorem found_eq (h : entries c.types t v ns ≠ []) : found c t v ns = ⟨v, true, []⟩ := by
  rw [← found_set.mpr h]
  rfl

theorem finds_leaf (hagrees : Agrees c t v ns)
    (hentries : entries c.types t v ns = [(ns, leafText v)])
    (htrim : Strings.trimSpace (leafText v) = leafText v)
    (hread : c.readLeaf (leafText v) (c.types.view t) = some (.ok v)) :
    Finds c depth t v ns .raw := by
  have hleaf := setLeaf_of_agrees hagrees hentries htrim hread .zero
  refine ⟨1, ?_⟩
  rw [setFieldByType, setWith, found_eq (hentries ▸ cons_ne_nil _ _)]
  cases hview : c.types.view t with
  | ptr | interface | slice | struct => rw [hview] at hread; cases hread
  | _ =>
    rw [hview] at hleaf
    exact congrArg Except.ok hleaf

theorem finds_slice {t elem : T} (hagrees : Agrees c t (.slice vs) ns)
    (hview : c.types.view t = .slice elem) (hne : vs ≠ []) (hlen : (vs.length : ℤ) ≤ c.maxArraySize)
    (hvs : ∀ v ∈ vs, HasForm c.types c.maxArraySize d within elem v)
    (hleaf : ∀ v ∈ vs, entries c.types elem v [] ≠ [])
    (hfinds : ∀ i v, vs[i]? = some v → Finds c depth elem v (elemNs ns i) mode) :
    Finds c depth t (.slice vs) ns mode := by
  have hlt : (vs.length : ℤ) < 2 ^ 63 := hlen.trans_lt c.maxArraySize_lt
  have hpos : 0 < vs.length := length_pos_iff.mpr hne
  have hkeys := mem_keysOf_slice hagrees hview hvs hleaf
  have hne' : ∀ i (hi : i < vs.length), entries c.types elem vs[i] (elemNs ns i) ≠ [] :=
    fun i hi hnil => hleaf _ (getElem_mem hi)
      ((entries_eq_nil_iff (hvs _ (getElem_mem hi)) _ _).mp hnil)
  have hival {i : ℕ} (hi : i < vs.length) : (Key.ofValue (formatNat i)).ivalue = i :=
    ivalue_formatNat (by omega)
  set rd : RecursiveData := ⟨ns, sliceLenOf (c.keysOf ns), c.keysOf ns⟩ with hrd
  have hmem (ke : Key) : ke ∈ rd.inRange vs.length ↔
      ∃ i < vs.length, ke = Key.ofValue (formatNat i) := by
    rw [RecursiveData.inRange, mem_filter, hkeys, decide_eq_true_iff]
    refine ⟨And.left, fun hke => ⟨hke, ?_⟩⟩
    obtain ⟨i, hi, rfl⟩ := hke
    rw [hival hi]
    omega
  obtain ⟨n, hn⟩ : ∃ n, ∀ ke ∈ rd.inRange vs.length, ∃ v, vs[ke.ivalue.toNat]? = some v ∧
      c.setFieldByType n depth elem .zero (ns ++ ke.searchValue) 0 mode = .ok ⟨v, true, []⟩ := by
    refine exists_bound (fun hmn => ?_) fun ke hke => ?_
    · exact Exists.imp fun v => And.imp_right (setFieldByType_mono c hmn _ _ _ _ _ _ _)
    · obtain ⟨i, hi, rfl⟩ := (hmem ke).mp hke
      obtain ⟨n, hn⟩ := hfinds i _ (getElem?_eq_getElem hi)
      rw [found_eq (hne' i hi)] at hn
      rw [hival hi, Int.toNat_natCast]
      exact ⟨n, vs[i], getElem?_eq_getElem hi, hn⟩
  have hfirst : entries c.types t (.slice vs) ns ≠ [] := by
    obtain ⟨e, he⟩ := exists_mem_of_ne_nil _ (hne' 0 hpos)
    exact ne_nil_of_mem ((mem_entries_slice hview).mpr ⟨0, _, getElem?_eq_getElem hpos, he⟩)
  refine ⟨n + 1, ?_⟩
  have halias : findAlias c.dm ns = some rd := by
    rw [c.findAlias_dm, dataOf, if_neg (ne_nil_of_mem ((hkeys _).mpr ⟨0, hpos, rfl⟩))]
  rw [setFieldByType, setWith, hview, found_eq hfirst]
  simp only [setSlice, lookup_slice_eq_none hagrees hview hvs, setList, halias]
  refine setIndexed_eq (length_of_keysOf hpos hlt hkeys) hlen hne hn fun i hi => ?_
  exact ⟨_, (hmem _).mpr ⟨i, hi, rfl⟩, by rw [hival hi, Int.toNat_natCast]⟩

/-! ### Structs -/

theorem parseField_of_isFormField (h : IsFormField f) (i : ℕ) :
    parseField f i = some ⟨i, f.formName, false, .raw, f.typ, true⟩ := by
  have hkept : ¬ (¬ f.exported = true ∧ ¬ f.anonymous = true) := fun hnot => hnot.1 h.exported
  rw [parseField, if_neg hkept, if_neg h.not_skipped, h.not_anonymous, h.raw, h.exported]

theorem mem_parseStruct (h : ∀ f ∈ fields, IsFormField f) {cf : CachedField T} :
    cf ∈ parseStruct fields ↔ ∃ (i : ℕ) (f : StructField T), fields[i]? = some f ∧
      cf = ⟨i, f.formName, false, .raw, f.typ, true⟩ := by
  rw [parseStruct, mem_filterMap]
  constructor
  · rintro ⟨p, hp, hparse⟩
    have hf := mem_zipIdx_iff_getElem?.mp hp
    rw [parseField_of_isFormField (h _ (mem_of_getElem? hf))] at hparse
    exact ⟨p.2, p.1, hf, (some_inj.mp hparse).symm⟩
  · rintro ⟨i, f, hf, rfl⟩
    exact ⟨(f, i), mem_zipIdx_iff_getElem?.mpr hf,
      parseField_of_isFormField (h f (mem_of_getElem? hf)) i⟩

theorem finds_struct (hview : c.types.view t = .struct fields)
    (hfields : ∀ f ∈ fields, IsFormField f) (hlen : vs.length = fields.length)
    (hdepth : depth ≤ maxDecodeDepth)
    (hfinds : ∀ (i : ℕ) (f : StructField T) (v : Val X), fields[i]? = some f → vs[i]? = some v →
      Finds c (depth + 1) f.typ v (fieldNs ns f.formName) .raw) (mode : SanitizeMode) :
    Finds c depth t (.struct vs) ns mode := by
  let result (cf : CachedField T) : Decoded X :=
    found c cf.typ (vs.getD cf.idx .zero) (fieldNs ns cf.name)
  have hmem (cf : CachedField T) : cf ∈ c.libs.sort (parseStruct fields) ↔
      ∃ (i : ℕ) (f : StructField T), fields[i]? = some f ∧
        cf = ⟨i, f.formName, false, .raw, f.typ, true⟩ := by
    rw [(c.libs.sort_perm _).mem_iff, mem_parseStruct hfields]
  have hvalue {i : ℕ} {f : StructField T} (hf : fields[i]? = some f) :
      vs[i]? = some (vs.getD i .zero) := by
    have hi : i < vs.length := hlen ▸ (List.getElem?_eq_some_iff.mp hf).1
    rw [getElem?_eq_getElem hi, getD_eq_getElem _ _ hi]
  obtain ⟨n, hn⟩ : ∃ n, ∀ cf ∈ c.libs.sort (parseStruct fields),
      visitField (setField (c.setFieldByType n) (depth + 1)) ns cf
        ((List.replicate fields.length Val.zero).getD cf.idx .zero) = .ok (result cf) := by
    refine exists_bound (fun hmn hm => ?_) fun cf hcf => ?_
    · exact visitField_mono (fun f v ns r => setField_mono (setFieldByType_mono c hmn)) hm
    · obtain ⟨i, f, hf, rfl⟩ := (hmem cf).mp hcf
      obtain ⟨n, hn⟩ := hfinds i f _ hf (hvalue hf)
      have hzero : (List.replicate fields.length Val.zero).getD i .zero = (.zero : Val X) :=
        getD_replicate _ (List.getElem?_eq_some_iff.mp hf).1
      refine ⟨n, ?_⟩
      rwa [visitField, if_neg Bool.false_ne_true, setField, if_pos rfl, hzero]
  have hstored : ((c.libs.sort (parseStruct fields)).zip
      ((c.libs.sort (parseStruct fields)).map result)).foldl storeField
        (List.replicate fields.length .zero) = vs := by
    rw [← map_prod_left_eq_zip, foldl_map]
    refine foldl_set_eq (by rw [length_replicate, hlen]) (fun cf hcf => ?_) fun i hi => ?_
    · obtain ⟨i, f, hf, rfl⟩ := (hmem cf).mp hcf
      exact hvalue hf
    · exact ⟨_, (hmem _).mpr ⟨i, _, getElem?_eq_getElem (hlen ▸ hi), rfl⟩, rfl⟩
  -- A struct is set if one of its fields has a leaf.
  have hany : ((c.libs.sort (parseStruct fields)).map result).any Decoded.set =
      (found c t (.struct vs) ns).set := by
    rw [Bool.eq_iff_iff, found_set, List.any_map, List.any_eq_true]
    constructor
    · rintro ⟨cf, hcf, hset⟩
      obtain ⟨i, f, hf, rfl⟩ := (hmem cf).mp hcf
      obtain ⟨e, he⟩ := exists_mem_of_ne_nil _ (found_set.mp hset)
      exact ne_nil_of_mem ((mem_entries_struct hview).mpr ⟨i, f, _, hf, hvalue hf, he⟩)
    · intro hne
      obtain ⟨e, he⟩ := exists_mem_of_ne_nil _ hne
      obtain ⟨i, f, v, hf, hv, he⟩ := (mem_entries_struct hview).mp he
      rw [hvalue hf] at hv
      cases hv
      exact ⟨_, (hmem _).mpr ⟨i, f, hf, rfl⟩, found_set.mpr (ne_nil_of_mem he)⟩
  have herrs : ((c.libs.sort (parseStruct fields)).map result).flatMap Decoded.errs = [] := by
    rw [flatMap_map]
    exact flatMap_eq_nil_iff.mpr fun cf _ => rfl
  refine ⟨n + 1, ?_⟩
  rw [setFieldByType, setWith, hview]
  simp only [traverseStruct, if_neg (not_lt.mpr hdepth), Val.fields, collect_eq_map hn,
    Except.map, Decoded.ofFields, hstored, hany, herrs]
  rfl

/-! ### The round trip -/

/-- **A value that the form agrees with is found.** -/
theorem finds_of_agrees (h : HasForm c.types c.maxArraySize d within t v)
    (hagrees : Agrees c t v ns) (hdepth : depth + d ≤ maxDecodeDepth + 1)
    (hmode : within = true → mode = .raw) : Finds c depth t v ns mode := by
  induction h generalizing ns depth mode with
  | str hview htrim =>
    rw [hmode rfl]
    refine finds_leaf hagrees rfl htrim ?_
    rw [hview]
    rfl
  | @bool d t b hview =>
    rw [hmode rfl]
    refine finds_leaf hagrees rfl (trimSpace_bool b) ?_
    rw [hview]
    cases b <;> rfl
  | int hview hlow hhigh =>
    rw [hmode rfl]
    refine finds_leaf hagrees rfl (trimSpace_formatInt _) ?_
    rw [hview, readLeaf, leafText, if_neg (formatInt_ne_nil _), parseInt_formatInt hlow hhigh]
  | uint hview hlt =>
    rw [hmode rfl]
    refine finds_leaf hagrees rfl (trimSpace_formatNat _) ?_
    rw [hview, readLeaf, leafText, if_neg (formatNat_ne_nil _), parseUint_formatNat hlt]
  | slice hview hne hlen hvs hleaf ih =>
    refine finds_slice hagrees hview hne hlen hvs hleaf fun i v hv => ?_
    exact ih v (mem_of_getElem? hv) (hagrees.elem hview hvs hv) hdepth hmode
  | struct hview hnodup hfields hlen hvs ih =>
    refine finds_struct hview hfields hlen (by omega) (fun i f v hf hv => ?_) mode
    exact ih i f v hf hv (hagrees.field hview hnodup hfields hvs hf hv) (by omega) fun _ => rfl

/-- **Decoding inverts the canonical encoding**: whatever the order in which the keys of the
canonical form are visited, the value is stored as it is and there are no errors. Structs may be
nested as deep as the decoder goes. -/
theorem decode_encodeForm {c : Ctx T X} {t : T} {v : Val X}
    (h : HasForm c.types c.maxArraySize (maxDecodeDepth + 1) false t v)
    (hform : c.form.entries.Perm (encodeForm h).entries) :
    ∃ n₀, ∀ n ≥ n₀, ∃ r, c.decode n t = .ok r ∧ r.val = v ∧ r.errs = [] := by
  have hfinds : Finds c 0 t v [] .default := finds_of_agrees h (agrees_encodeForm h hform)
    (zero_add _).le fun hfalse => absurd hfalse Bool.false_ne_true
  obtain ⟨n₀, hn₀⟩ := hfinds
  exact ⟨n₀, fun n hn => ⟨_, setFieldByType_mono c hn _ _ _ _ _ _ _ hn₀, rfl, rfl⟩⟩

/-! ### An order with two items -/

/-- Types of a program that takes orders. -/
inductive Shop
  | text
  | number
  | item
  | items
  | order
deriving DecidableEq

/-- Fields that are decoded as they are. -/
def nameField : StructField Shop := ⟨utf8 "Name", by decide, true, false, utf8 "name,raw", .text⟩

@[inherit_doc nameField]
def qtyField : StructField Shop := ⟨utf8 "Qty", by decide, true, false, utf8 "qty,raw", .number⟩

@[inherit_doc nameField]
def itemsField : StructField Shop :=
  ⟨utf8 "Items", by decide, true, false, utf8 "items,raw", .items⟩

/-- What the types are made of. -/
def shopTypes : Types Shop where
  view
    | .text => .string
    | .number => .int .w32
    | .item => .struct [nameField, qtyField]
    | .items => .slice .item
    | .order => .struct [itemsField]
  string _ := []

/-- Packages that leave every text as it is, and read no floating-point numbers and no times. -/
def plainLibs (T : Type) : Libs T Empty where
  ugc := id
  strict := id
  parseFloat _ _ := none
  parseTime _ := .error []
  sort := id
  sort_perm _ := .rfl

/-- A decoder with the limit it has by default. -/
def shopCtx (form : Form) : Ctx Shop Empty where
  types := shopTypes
  libs := plainLibs Shop
  maxArraySize := 1000
  maxArraySize_ge := by norm_num
  maxArraySize_lt := by norm_num
  form

/-- Two items. -/
def twoItems : Val Empty :=
  .struct [.slice [.struct [.str (utf8 "pen"), .int 2], .struct [.str (utf8 "ink"), .int (-1)]]]

/-- The form of the two items, in some order. -/
def twoItemsForm : Form where
  entries := [⟨utf8 "items[1].name", [utf8 "ink"]⟩, ⟨utf8 "items[0].qty", [utf8 "2"]⟩,
    ⟨utf8 "items[1].qty", [utf8 "-1"]⟩, ⟨utf8 "items[0].name", [utf8 "pen"]⟩]
  nodupKeys := by
    rw [List.NodupKeys]
    decide +kernel

theorem isFormField_nameField : IsFormField nameField :=
  ⟨rfl, rfl, by decide +kernel, by decide +kernel, by decide +kernel, by decide +kernel,
    by decide +kernel⟩

theorem isFormField_qtyField : IsFormField qtyField :=
  ⟨rfl, rfl, by decide +kernel, by decide +kernel, by decide +kernel, by decide +kernel,
    by decide +kernel⟩

theorem isFormField_itemsField : IsFormField itemsField :=
  ⟨rfl, rfl, by decide +kernel, by decide +kernel, by decide +kernel, by decide +kernel,
    by decide +kernel⟩

theorem hasForm_item {s : Bytes} {i : ℤ} (hs : Strings.trimSpace s = s) (hlow : -2 ^ 31 ≤ i)
    (hhigh : i < 2 ^ 31) :
    HasForm shopTypes 1000 (d + 1) true .item (.struct [.str s, .int i] : Val Empty) := by
  have hview : shopTypes.view .item = .struct [nameField, qtyField] := rfl
  refine .struct hview (by decide +kernel) ?_ rfl ?_
  · exact forall_mem_cons.mpr ⟨isFormField_nameField, forall_mem_singleton.mpr isFormField_qtyField⟩
  · rintro (_ | _ | i) f v ⟨⟩ ⟨⟩
    · exact .str rfl hs
    · exact .int (w := .w32) rfl hlow hhigh

theorem hasForm_twoItems : HasForm shopTypes 1000 (maxDecodeDepth + 1) false .order twoItems := by
  have hview : shopTypes.view .order = .struct [itemsField] := rfl
  refine .struct hview (by decide +kernel) (forall_mem_singleton.mpr isFormField_itemsField) rfl ?_
  rintro (_ | i) f v ⟨⟩ ⟨⟩
  refine .slice rfl (cons_ne_nil _ _) (by norm_num) ?_ ?_
  · exact forall_mem_cons.mpr ⟨hasForm_item (by decide +kernel) (by norm_num) (by norm_num),
      forall_mem_singleton.mpr
        (hasForm_item (by decide +kernel) (by norm_num) (by norm_num))⟩
  · exact forall_mem_cons.mpr ⟨cons_ne_nil _ _, forall_mem_singleton.mpr (cons_ne_nil _ _)⟩

theorem decode_twoItemsForm : ∃ n₀, ∀ n ≥ n₀, ∃ r,
    (shopCtx twoItemsForm).decode n .order = .ok r ∧ r.val = twoItems ∧ r.errs = [] := by
  refine decode_encodeForm (c := shopCtx twoItemsForm) hasForm_twoItems ?_
  have hperm : twoItemsForm.entries.Perm
      ((entries shopTypes .order twoItems []).map fun e => ⟨e.1, [e.2]⟩) := by
    decide +kernel
  exact hperm

end Kiya.Decoder
