import Kiya.Decoder.RoundTrip
import Kiya.Decoder.Safety

/-!
# Which destinations no form can crash

For a destination with a slice there is a form that makes the decoder panic: one key whose index is
the largest `int`. For one with an interface in something embedded there is another, with a value
for each of the two visits. So the destinations that are safe with every form are those without
slices, without such interfaces and without endless chains of pointers (`Flat`), and with a given
form a destination is safe if none of this matters for the form.

In both cases the form is built for the namespaces of first visits, where what is decoded is still
zero.
-/

namespace Kiya.Decoder

open Collect List AList Relation

variable {T X : Type}

/-- No form can do harm to a destination. -/
def Flat (U : Types T) (t : T) : Prop :=
  ∀ y, ReflTransGen (Part U true) (0, t) y →
    (∀ elem, U.view y.2 ≠ .slice elem) ∧ Settles U y.2 ∧
      ∀ f, Embeds U y f → Quiet U (y.1 + 1, f.typ)

/-! ### First visits -/

/-- A zero value is decoded under a namespace. -/
def Reads (c : Ctx T X) (x : ℕ × T) (ns : Bytes) : Prop :=
  ∃ n idx mode r, c.setFieldByType n x.1 x.2 .zero ns idx mode = .ok r

variable {c : Ctx T X} {x y : ℕ × T} {f : CachedField T} {fields : List (StructField T)}
  {r : Decoded X} {ns : Bytes} {n idx : ℕ} {mode : SanitizeMode} {current : Val X} {t : T}

/-- The visits of a field, in a struct that is still zero. -/
theorem visits_of_struct (hr : c.setFieldByType (n + 1) x.1 x.2 current ns idx mode = .ok r)
    (hview : c.types.view x.2 = .struct fields) (hdepth : x.1 ≤ maxDecodeDepth)
    (hf : f ∈ parseStruct fields) :
    ∃ rs r', (f, r') ∈ (c.libs.sort (parseStruct fields)).zip rs ∧
      r = .ofFields (current.fields fields.length) (c.libs.sort (parseStruct fields)) rs ∧
      rs.length = (c.libs.sort (parseStruct fields)).length ∧
      visitField (setField (c.setFieldByType n) (x.1 + 1)) ns f
        ((current.fields fields.length).getD f.idx .zero) = .ok r' := by
  rw [setFieldByType_struct hview] at hr
  rcases traverseStruct_cases hr with ⟨hlt, -⟩ | ⟨-, rs, hrs, rfl⟩
  · exact absurd hdepth (not_le.mpr hlt)
  · obtain ⟨r', hr', hvisit⟩ := exists_mem_zip_of_collect hrs ((c.libs.sort_perm _).mem_iff.mpr hf)
    exact ⟨rs, r', hr', rfl, (collect_eq_ok_iff.mp hrs).length_eq.symm, hvisit⟩

theorem exists_reads_of_part (h : Part c.types true x y) (ns : Bytes) :
    ∃ ns', ∀ form, Reads (c.withForm form) x ns → Reads (c.withForm form) y ns' := by
  cases h with
  | @ptr d t elem hview =>
    refine ⟨ns, ?_⟩
    rintro form ⟨n, idx, mode, r, hr⟩
    obtain ⟨n, rfl⟩ := exists_succ_of_ok hr
    rw [setFieldByType_ptr (c := c.withForm form) hview] at hr
    rcases setPtr_cases hr with ⟨v, -, hzero, -⟩ | ⟨-, r', hr', -⟩
    · cases hzero
    · exact ⟨n, idx, mode, r', hr'⟩
  | @field d t fields f hview hdepth hf hset _ =>
    refine ⟨if f.isAnonymous then ns else fieldNs ns f.name, ?_⟩
    rintro form ⟨n, idx, mode, r, hr⟩
    obtain ⟨n, rfl⟩ := exists_succ_of_ok hr
    obtain ⟨rs, r', -, -, -, hvisit⟩ := visits_of_struct hr hview hdepth hf
    rw [fields_zero_getD] at hvisit
    rcases visitField_cases hvisit with ⟨hplain, hone⟩ | ⟨hanonymous, r₁, -, hfirst, -⟩
    · rw [setField, if_pos hset] at hone
      rw [if_neg (by rw [hplain]; exact Bool.false_ne_true)]
      exact ⟨n, 0, f.sanitizeMode, r', hone⟩
    · rw [setField, if_pos hset] at hfirst
      rw [if_pos hanonymous]
      exact ⟨n, 0, f.sanitizeMode, r₁, hfirst⟩

/-- **The first visit of a part** is under a namespace that does not depend on the form. -/
theorem exists_reads (h : ReflTransGen (Part c.types true) x y) (ns : Bytes) :
    ∃ ns', ∀ form, Reads (c.withForm form) x ns → Reads (c.withForm form) y ns' := by
  induction h with
  | refl => exact ⟨ns, fun _ h => h⟩
  | tail _ hstep ih =>
    obtain ⟨ns₁, hns₁⟩ := ih
    obtain ⟨ns₂, hns₂⟩ := exists_reads_of_part hstep ns₁
    exact ⟨ns₂, fun form h => hns₂ form (hns₁ form h)⟩

/-! ### Slices -/

/-- The largest `int`. -/
def hugeIndex : Bytes := utf8 "9223372036854775807"

/-- An element with this index. -/
def hugeKey (ns : Bytes) : Bytes := ns ++ leftBracket :: (hugeIndex ++ [rightBracket])

/-- A form with this element alone. -/
def hugeForm (ns : Bytes) : Form := AList.singleton (hugeKey ns) [[]]

theorem parseNat_hugeIndex : Numeral.parseNat hugeIndex = some (2 ^ 63 - 1) := by decide +kernel

theorem length_dataAt_hugeForm (c : Ctx T X) (ns : Bytes) :
    (c.withForm (hugeForm ns)).keysOf ns ≠ [] ∧
      ((c.withForm (hugeForm ns)).dataAt ns).length = -2 ^ 63 := by
  have hindex : HasIndex (c.withForm (hugeForm ns)) ns (2 ^ 63 - 1) :=
    ⟨hugeKey ns, mem_cons_self, hugeIndex, [], parseNat_hugeIndex, rfl⟩
  obtain ⟨ke, hke, hivalue⟩ := hindex.exists_mem
  have hle := le_sliceLenOf hke
  have hlt := sliceLenOf_lt (c.withForm (hugeForm ns)) ns
  have hsliceLen : sliceLenOf ((c.withForm (hugeForm ns)).keysOf ns) = 2 ^ 63 - 1 := by
    omega
  refine ⟨ne_nil_of_mem hke, ?_⟩
  have hbmod : (sliceLenOf ((c.withForm (hugeForm ns)).keysOf ns) + 1).bmod (2 ^ 64) = -2 ^ 63 := by
    rw [hsliceLen]
    decide
  exact hbmod

theorem lookup_hugeForm (ns : Bytes) : (hugeForm ns).lookup ns = none := by
  rw [lookup_eq_none, hugeForm]
  intro hmem
  have hns := congrArg List.length (mem_singleton.mp hmem)
  simp only [hugeKey, length_append, length_cons] at hns
  omega

/-- A slice cannot be decoded from a form with the largest index. -/
theorem not_reads_slice {elem : T} (hview : c.types.view x.2 = .slice elem)
    (ns : Bytes) : ¬ Reads (c.withForm (hugeForm ns)) x ns := by
  rintro ⟨n, idx, mode, r, hr⟩
  obtain ⟨n, rfl⟩ := exists_succ_of_ok hr
  obtain ⟨hkeys, hlength⟩ := length_dataAt_hugeForm c ns
  rw [setFieldByType_slice (c := c.withForm (hugeForm ns)) hview] at hr
  obtain ⟨r₀, hlist, ⟨hnil, -⟩ | ⟨-, hindexed⟩⟩ := setSlice_cases hr
  · exact hkeys hnil
  · have hr₀ : r₀ = .unchanged .zero := by
      rcases setList_cases hlist with ⟨-, hr₀⟩ | ⟨vs, hvs, -⟩
      · exact hr₀
      · exact absurd hvs (lookup_hugeForm ns ▸ Option.not_mem_none vs)
    rcases setIndexed_cases hindexed with ⟨hlarge, -⟩ | ⟨-, hnegative, -⟩
    · have hge : -2 ^ 63 ≤ (c.withForm (hugeForm ns)).maxArraySize := c.maxArraySize_ge
      omega
    · exact hnegative ⟨by rw [hr₀]; rfl, by rw [hlength]; norm_num⟩

/-! ### Interfaces -/

/-- A path in a value leads to a text in an interface; `none` follows a pointer, and a number is the
one of a field. -/
def Holds : List (Option ℕ) → Val X → Prop
  | [], v => ∃ s, v = .iface s
  | none :: path, v => ∃ w, v = .ptr w ∧ Holds path w
  | some i :: path, v => ∃ vs w, v = .struct vs ∧ vs[i]? = some w ∧ Holds path w

theorem parseField_idx {fld : StructField T} {i : ℕ} (h : parseField fld i = some f) :
    f.idx = i := by
  rw [parseField] at h
  split at h
  · cases h
  · split at h
    · cases h
    · cases h
      rfl

theorem idx_sublist (flds : List (StructField T × ℕ)) :
    ((flds.filterMap fun fld => parseField fld.1 fld.2).map CachedField.idx).Sublist
      (flds.map Prod.snd) := by
  induction flds with
  | nil => exact .slnil
  | cons fld flds ih =>
    rw [filterMap_cons]
    split
    · exact ih.cons _
    · rename_i f hf
      rw [map_cons, map_cons, parseField_idx hf]
      exact ih.cons_cons _

/-- Fields are stored in places of their own. -/
theorem nodup_idx (fields : List (StructField T)) :
    ((parseStruct fields).map CachedField.idx).Nodup := by
  refine (idx_sublist fields.zipIdx).nodup ?_
  rw [zipIdx_map_snd]
  exact nodup_range'

theorem idx_lt (hf : f ∈ parseStruct fields) : f.idx < fields.length := by
  have hmem := (idx_sublist fields.zipIdx).subset (mem_map_of_mem hf)
  rw [zipIdx_map_snd, mem_range'_1] at hmem
  omega

/-- What a field holds is found in the struct. -/
theorem getElem?_ofFields {vs : List (Val X)}
    {rs : List (Decoded X)} (hmem : (f, r) ∈ (c.libs.sort (parseStruct fields)).zip rs)
    (hlength : rs.length = (c.libs.sort (parseStruct fields)).length) (hidx : f.idx < vs.length) :
    (((c.libs.sort (parseStruct fields)).zip rs).foldl storeField vs)[f.idx]? = some r.val := by
  have hnodup : (((c.libs.sort (parseStruct fields)).zip rs).map fun e => e.1.idx).Nodup := by
    have hzip : ((c.libs.sort (parseStruct fields)).zip rs).map (fun e => e.1.idx) =
        (c.libs.sort (parseStruct fields)).map CachedField.idx := by
      exact map_map.symm.trans (congrArg _ (map_fst_zip (le_of_eq hlength.symm)))
    rw [hzip, ((c.libs.sort_perm _).map _).nodup_iff]
    exact nodup_idx fields
  exact getElem?_foldl_set hnodup hmem hidx

section

variable {form : Form} {s : Bytes} (hform : form.lookup ns = some [s])
include hform

theorem formValue_withForm (mode : SanitizeMode) :
    (c.withForm form).formValue ns 0 mode = some (cleanValue c.libs s mode) := by
  have hform : (c.withForm form).form.lookup ns = some [s] := hform
  rw [Ctx.formValue, hform]
  rfl

/-- A value for an interface is stored, unless there is one already. -/
theorem eq_iface_of_ok (hview : c.types.view x.2 = .interface 0)
    (hr : (c.withForm form).setFieldByType n x.1 x.2 current ns 0 mode = .ok r) :
    (∀ s, current ≠ .iface s) ∧ r = ⟨.iface (cleanValue c.libs s mode), true, []⟩ := by
  obtain ⟨n, rfl⟩ := exists_succ_of_ok hr
  rw [setFieldByType_interface (c := c.withForm form) hview, formValue_withForm hform] at hr
  have hne (s : Bytes) : current ≠ .iface s := by
    rintro rfl
    cases hr
  rw [setInterface_of_ne hne, if_pos rfl] at hr
  exact ⟨hne, (Except.ok.inj hr).symm⟩

end

/-- The same for an interface in a value. -/
theorem exists_holds (h : ReflTransGen (Part c.types false) x y)
    (hy : c.types.view y.2 = .interface 0) :
    ∃ path, ∀ ns, ∃ k, ∀ form : Form, form.lookup k = some [[]] → ∀ n mode current r,
      (c.withForm form).setFieldByType n x.1 x.2 current ns 0 mode = .ok r →
      ¬ Holds path current ∧ (current = .zero → Holds path r.val ∧ r.set = true) := by
  induction h using ReflTransGen.head_induction_on with
  | refl =>
    refine ⟨[], fun ns => ⟨ns, fun form hform n mode current r hr => ?_⟩⟩
    obtain ⟨hne, rfl⟩ := eq_iface_of_ok hform hy hr
    exact ⟨fun ⟨s, hs⟩ => hne s hs, fun _ => ⟨⟨_, rfl⟩, rfl⟩⟩
  | head hstep _ ih =>
    obtain ⟨path, hpath⟩ := ih
    cases hstep with
    | @ptr d t elem hview =>
      refine ⟨none :: path, fun ns => ?_⟩
      obtain ⟨k, hk⟩ := hpath ns
      refine ⟨k, fun form hform n mode current r hr => ?_⟩
      obtain ⟨n, rfl⟩ := exists_succ_of_ok hr
      rw [setFieldByType_ptr (c := c.withForm form) hview] at hr
      rcases setPtr_cases hr with ⟨v, r', rfl, hr', -⟩ | ⟨hne, r', hr', rfl⟩
      · refine ⟨?_, fun hzero => by cases hzero⟩
        rintro ⟨w, hw, hholds⟩
        cases hw
        exact (hk form hform n mode v r' hr').1 hholds
      · obtain ⟨hholds, hset⟩ := (hk form hform n mode .zero r' hr').2 rfl
        refine ⟨?_, fun _ => ⟨⟨r'.val, if_pos hset, hholds⟩, hset⟩⟩
        rintro ⟨w, hw, -⟩
        exact hne w hw
    | @field d t fields f hview hdepth hf hset hplain =>
      refine ⟨some f.idx :: path, fun ns => ?_⟩
      obtain ⟨k, hk⟩ := hpath (fieldNs ns f.name)
      refine ⟨k, fun form hform n mode current r hr => ?_⟩
      obtain ⟨n, rfl⟩ := exists_succ_of_ok hr
      obtain ⟨rs, r', hmem, rfl, hlength, hvisit⟩ := visits_of_struct hr hview hdepth hf
      have hone : (c.withForm form).setFieldByType n (d + 1) f.typ
          ((current.fields fields.length).getD f.idx .zero) (fieldNs ns f.name) 0 f.sanitizeMode =
            .ok r' := by
        rcases visitField_cases hvisit with ⟨-, hone⟩ | ⟨hanonymous, -⟩
        · rwa [setField, if_pos hset] at hone
        · exact absurd (hplain hanonymous) Bool.false_ne_true
      obtain ⟨hnot, hholds⟩ := hk form hform n f.sanitizeMode _ r' hone
      constructor
      · rintro ⟨vs, w, rfl, hw, hpathw⟩
        refine hnot ?_
        have hfields : (Val.struct vs).fields fields.length = vs := rfl
        rwa [hfields, getD_eq_getElem?_getD, hw, Option.getD_some]
      · rintro rfl
        obtain ⟨hstored, hsetr⟩ := hholds (fields_zero_getD _ _)
        have hidx : f.idx < ((Val.zero : Val X).fields fields.length).length := by
          have hfields : (Val.zero : Val X).fields fields.length = List.replicate _ .zero := rfl
          rw [hfields, length_replicate]
          exact idx_lt hf
        refine ⟨⟨_, r'.val, rfl, getElem?_ofFields hmem hlength hidx, hstored⟩, ?_⟩
        exact List.any_eq_true.mpr ⟨r', (of_mem_zip hmem).2, hsetr⟩

/-- A part that is reached is reached without embedded fields from something embedded, if not from
the start. -/
theorem plain_or_embedded {U : Types T} (h : ReflTransGen (Part U true) x y) :
    ReflTransGen (Part U false) x y ∨ ∃ z f, ReflTransGen (Part U true) x z ∧
      Embeds U z f ∧ ReflTransGen (Part U false) (z.1 + 1, f.typ) y := by
  induction h using ReflTransGen.head_induction_on with
  | refl => exact .inl .refl
  | head hstep _ ih =>
    rcases ih with hplain | ⟨z, f, hz, hembeds, hplain⟩
    · cases hstep with
      | ptr hview => exact .inl (.head (.ptr hview) hplain)
      | @field d t fields f hview hdepth hf hset _ =>
        by_cases hanonymous : f.isAnonymous = true
        · exact .inr ⟨(d, t), f, .refl, ⟨fields, hview, hdepth, hf, hset, hanonymous⟩, hplain⟩
        · exact .inl
            (.head (.field hview hdepth hf hset fun htrue => absurd htrue hanonymous) hplain)
    · exact .inr ⟨z, f, .head hstep hz, hembeds, hplain⟩

/-- Something embedded cannot be decoded twice from a form with a value for each visit of an
interface in it. -/
theorem exists_not_reads_embedded (hembeds : Embeds c.types x f)
    (h : ReflTransGen (Part c.types false) (x.1 + 1, f.typ) y)
    (hy : c.types.view y.2 = .interface 0) (ns : Bytes) :
    ∃ form, ¬ Reads (c.withForm form) x ns := by
  obtain ⟨path, hpath⟩ := exists_holds h hy
  obtain ⟨k₁, hk₁⟩ := hpath ns
  obtain ⟨k₂, hk₂⟩ := hpath (fieldNs ns f.name)
  let form : Form := AList.insert k₂ [[]] (AList.insert k₁ [[]] ∅)
  have hform₂ : form.lookup k₂ = some [[]] := lookup_insert _
  have hform₁ : form.lookup k₁ = some [[]] := by
    by_cases hk : k₁ = k₂
    · rwa [hk]
    · rw [lookup_insert_ne hk, lookup_insert]
  refine ⟨form, ?_⟩
  rintro ⟨n, idx, mode, r, hr⟩
  obtain ⟨n, rfl⟩ := exists_succ_of_ok hr
  obtain ⟨fields, hview, hdepth, hf, hset, hanonymous⟩ := hembeds
  obtain ⟨rs, r', -, -, -, hvisit⟩ := visits_of_struct hr hview hdepth hf
  rw [fields_zero_getD] at hvisit
  rcases visitField_cases hvisit with ⟨hplain, -⟩ | ⟨-, r₁, r₂, hfirst, hsecond, -⟩
  · exact absurd (hanonymous.symm.trans hplain) Bool.noConfusion
  · rw [setField, if_pos hset] at hfirst hsecond
    exact (hk₂ form hform₂ n _ _ _ hsecond).1 ((hk₁ form hform₁ n _ _ _ hfirst).2 rfl).1

/-! ### Chains of pointers -/

theorem settles_of_ok
    (hslice : ∀ y, ReflTransGen (Part c.types true) x y → ∀ elem,
      c.types.view y.2 ≠ .slice elem)
    (hr : c.setFieldByType n x.1 x.2 current ns idx mode = .ok r) : Settles c.types x.2 := by
  induction n generalizing x current r with
  | zero => cases hr
  | succ n ih =>
    refine Acc.intro _ fun elem helem => ?_
    rcases helem with hview | hview
    · have hstep : Part c.types true x (x.1, elem) := .ptr hview
      have hrest (y : ℕ × T) (hy : ReflTransGen (Part c.types true) (x.1, elem) y) :
          ∀ elem, c.types.view y.2 ≠ .slice elem := hslice y (.head hstep hy)
      rw [setFieldByType_ptr hview] at hr
      rcases setPtr_cases hr with ⟨v, r', -, hr', -⟩ | ⟨-, r', hr', -⟩
      · exact ih hrest hr'
      · exact ih hrest hr'
    · exact absurd hview (hslice x .refl elem)

/-! ### The result -/

theorem part_of_visits (hflat : Flat c.types t) {p : Place T}
    (hp : Visits c t p) : ReflTransGen (Part c.types true) (0, t) (p.depth, p.typ) := by
  induction hp with
  | refl => exact .refl
  | tail _ hstep ih =>
    cases hstep with
    | ptr hview => exact ih.tail (.ptr hview)
    | list hview => exact absurd hview ((hflat _ ih).1 _)
    | elem hview => exact absurd hview ((hflat _ ih).1 _)
    | field hview hdepth hf hset => exact ih.tail (.field hview hdepth hf hset fun _ => rfl)
    | embedded hview hdepth hf hset => exact ih.tail (.field hview hdepth hf hset fun _ => rfl)

theorem flat_of_safe (h : ∀ form, Safe (c.withForm form) t) : Flat c.types t := by
  -- Whatever the form, every part is decoded at its first visit.
  have hreads (y : ℕ × T) (hy : ReflTransGen (Part c.types true) (0, t) y) :
      ∃ ns, ∀ form, Reads (c.withForm form) y ns := by
    obtain ⟨ns, hns⟩ := exists_reads hy []
    refine ⟨ns, fun form => hns form ?_⟩
    obtain ⟨n, r, hr, -⟩ := h form
    exact ⟨n, 0, .default, r, hr⟩
  have hslice (y : ℕ × T) (hy : ReflTransGen (Part c.types true) (0, t) y) (elem : T) :
      c.types.view y.2 ≠ .slice elem := by
    intro hview
    obtain ⟨ns, hns⟩ := hreads y hy
    exact not_reads_slice hview ns (hns _)
  intro y hy
  refine ⟨hslice y hy, ?_, fun f hembeds z hz hview => ?_⟩
  · obtain ⟨ns, hns⟩ := hreads y hy
    obtain ⟨n, idx, mode, r, hr⟩ := hns c.form
    exact settles_of_ok (fun z hz => hslice z (hy.trans hz)) hr
  · obtain ⟨fields, hstruct, hdepth, hf, hset, -⟩ := id hembeds
    have hfield : ReflTransGen (Part c.types true) (0, t) (y.1 + 1, f.typ) :=
      hy.tail (.field hstruct hdepth hf hset fun _ => rfl)
    rcases plain_or_embedded hz with hplain | ⟨w, g, hw, hembeds', hplain⟩
    · obtain ⟨ns, hns⟩ := hreads y hy
      obtain ⟨form, hform⟩ := exists_not_reads_embedded hembeds hplain hview ns
      exact hform (hns form)
    · obtain ⟨ns, hns⟩ := hreads w (hfield.trans hw)
      obtain ⟨form, hform⟩ := exists_not_reads_embedded hembeds' hplain hview ns
      exact hform (hns form)

/-- **When decoding is safe**: with a form for which none of the defects occurs where the decoder
comes to, and with every form for exactly those destinations that have no slices, no endless chains
of pointers, and no interfaces in anything embedded. -/
theorem decode_safe_iff (c : Ctx T X) (t : T) :
    ((∀ p, Visits c t p → Fine c p) → Safe c t) ∧
      ((∀ form, Safe (c.withForm form) t) ↔ Flat c.types t) := by
  refine ⟨safe_of_fine, flat_of_safe, fun hflat form => safe_of_fine fun p hp => ?_⟩
  have hflat : Flat (c.withForm form).types t := hflat
  have hparts := hflat _ (part_of_visits hflat hp)
  exact
    { settles := hparts.2.1
      quiet := hparts.2.2
      list_le := fun elem hview => absurd hview (hparts.1 elem)
      index_lt := fun elem hview => absurd hview (hparts.1 elem) }

theorem settles_shop (t : Shop) : Settles shopTypes t := by
  have hitem : Settles shopTypes .item :=
    Acc.intro _ fun elem helem => by rcases helem with h | h <;> cases h
  cases t with
  | items =>
    refine Acc.intro _ fun elem helem => ?_
    rcases helem with h | h
    · cases h
    · cases h
      exact hitem
  | _ => exact Acc.intro _ fun elem helem => by rcases helem with h | h <;> cases h

theorem not_embeds_shop (x : ℕ × Shop) (f : CachedField Shop) : ¬ Embeds shopTypes x f := by
  rintro ⟨fields, hview, -, hf, -, hanonymous⟩
  obtain ⟨d, t⟩ := x
  cases t with
  | item =>
    cases hview
    have hall : ∀ g ∈ parseStruct [nameField, qtyField], g.isAnonymous = false := by decide +kernel
    exact Bool.noConfusion ((hall f hf).symm.trans hanonymous)
  | order =>
    cases hview
    have hall : ∀ g ∈ parseStruct [itemsField], g.isAnonymous = false := by decide +kernel
    exact Bool.noConfusion ((hall f hf).symm.trans hanonymous)
  | _ => cases hview

theorem fine_twoItemsForm (p : Place Shop) : Fine (shopCtx twoItemsForm) p where
  settles := settles_shop p.typ
  quiet f hf := absurd hf (not_embeds_shop _ f)
  list_le elem _ arr harr := by
    have hall : ∀ e ∈ twoItemsForm.entries, (e.2.length : ℤ) ≤ 1000 := by decide +kernel
    exact hall ⟨p.ns, arr⟩ (mem_lookup_iff.mp harr)
  index_lt elem _ i hi := by
    have hall : ∀ e ∈ twoItemsForm.keys.flatMap brackets, e.2.ivalue ≤ 1 := by decide +kernel
    obtain ⟨ke, hke, hivalue⟩ := hi.exists_mem
    obtain ⟨k, hk, hmem⟩ := mem_entriesOf.mp hke
    have hle := hall _ (mem_flatMap.mpr ⟨k, hk, hmem⟩)
    dsimp only at hle
    omega

theorem twoItemsForm_safe : Safe (shopCtx twoItemsForm) .order :=
  (decode_safe_iff (shopCtx twoItemsForm) .order).1 fun p _ => fine_twoItemsForm p

/-- The same decoder after `SetMaxArraySize(2)`. -/
def smallCtx (form : Form) : Ctx Shop Empty where
  types := shopTypes
  libs := plainLibs Shop
  maxArraySize := 2
  maxArraySize_ge := by norm_num
  maxArraySize_lt := by norm_num
  form

theorem items_exceed_limit :
    (¬ ∃ n r, (shopCtx (hugeForm (utf8 "items"))).decode n .order = .ok r) ∧
      ∃ r, (smallCtx (AList.singleton (utf8 "items") [[], [], []])).decode 5 .order = .ok r ∧
        r.errs = [] ∧ ¬ Bounded 2 true r.val := by
  constructor
  · rintro ⟨n, r, hr⟩
    match n, hr with
    | 0, hr => cases hr
    | 1, hr => cases hr
    | n + 2, hr =>
      have hpanic : (shopCtx (hugeForm (utf8 "items"))).decode (n + 2) .order = .error .panic := rfl
      cases hr
  · refine ⟨⟨.struct [.slice [.struct [.zero, .zero], .struct [.zero, .zero],
      .struct [.zero, .zero]]], false, []⟩, ?_, rfl, ?_⟩
    · rfl
    · intro h
      cases h with
      | struct hvs =>
        cases hvs _ mem_cons_self with
        | slice hlen => exact absurd hlen (by decide)

end Kiya.Decoder
