import Kiya.Decoder.Places
import Kiya.Decoder.RoundTrip

/-!
# The order of the keys

A form is a map, and `parseMapData` visits its keys in an order that is different each time. What is
found for an alias does not depend on it, except for the order of the entries, and the elements of a
slice are stored in this order: of two entries for the same index the later one wins. There may be
two, since an index can be spelled in many ways, as in `a[0]`, `a[00]` and `a[]`.

This matters only at a slice that the decoder comes to, and only if something in its elements can be
set. If no index is spelled in two ways there, then the outcome does not depend on the order
(`leads_of_perm`): entries for different indices are stored in different places, and entries that
are spelled alike have the same value.
-/

namespace Kiya.Decoder

open Collect Decoded Ctx List

variable {T X : Type}

/-- A text can be stored in a value of the type. -/
def TypeView.TakesText : TypeView T → Prop
  | .interface numMethod => numMethod = 0
  | .ptr _ | .slice _ | .struct _ | .other => False
  | _ => True

/-- A path to a part of a type in which a text can be stored, by the names of fields and, for the
elements of slices, `none`. -/
inductive Takes (U : Types T) : ℕ × T → List (Option Bytes) → Prop
  | leaf {d : ℕ} {t : T} : (U.view t).TakesText → Takes U (d, t) []
  | ptr {d : ℕ} {t elem : T} {path : List (Option Bytes)} : U.view t = .ptr elem →
    Takes U (d, elem) path → Takes U (d, t) path
  | elem {d : ℕ} {t elem : T} {path : List (Option Bytes)} : U.view t = .slice elem →
    Takes U (d, elem) path → Takes U (d, t) (none :: path)
  | field {d : ℕ} {t : T} {fields : List (StructField T)} {f : CachedField T}
    {path : List (Option Bytes)} : U.view t = .struct fields → d ≤ maxDecodeDepth →
    f ∈ parseStruct fields → f.canSet = true → Takes U (d + 1, f.typ) path →
    Takes U (d, t) (some f.name :: path)

/-- Where the decoder may come to: the bound on the indices is left out, since a length that
overflows passes it. -/
inductive MayGo (c : Ctx T X) : Place T → Place T → Prop
  | goes {p q : Place T} : Goes c p q → MayGo c p q
  | elem {d : ℕ} {t elem : T} {ns : Bytes} {ke : Key} : c.types.view t = .slice elem →
    ke ∈ c.keysOf ns → ke.ivalue ≠ -1 → MayGo c ⟨d, t, ns⟩ ⟨d, elem, ns ++ ke.searchValue⟩

/-- No index of a slice is spelled in two ways, unless nothing in its elements can be set. -/
def Unambiguous (c : Ctx T X) (p : Place T) : Prop :=
  ∀ elem path, c.types.view p.typ = .slice elem → Takes c.types (p.depth, elem) path →
    ∀ ke ∈ c.keysOf p.ns, ∀ ke' ∈ c.keysOf p.ns, ke.ivalue = ke'.ivalue → ke.ivalue ≠ -1 → ke = ke'

/-- The same value is stored, and there are the same errors, in some order. -/
structure Same (r r' : Decoded X) : Prop where
  val : r'.val = r.val
  set : r'.set = r.set
  errs : r'.errs.Perm r.errs

/-- Whatever the one finds, the other finds too. -/
def Leads (x y : Result X) : Prop := ∀ r, x = .ok r → ∃ r', y = .ok r' ∧ Same r r'

theorem Same.refl (r : Decoded X) : Same r r := ⟨rfl, rfl, .rfl⟩

theorem Leads.refl (x : Result X) : Leads x x := fun r hr => ⟨r, hr, .refl r⟩

instance : Nonempty (Decoded X) := ⟨.unchanged .zero⟩

/-! ### Lists of results -/

/-- Results of the same parts, in another order. -/
theorem leads_collect {α : Type} {f f' : α → Result X} {as as' : List α} (hperm : as'.Perm as)
    (hf : ∀ a ∈ as, Leads (f a) (f' a)) {rs : List (Decoded X)} (hrs : collect f as = .ok rs) :
    ∃ g g' : α → Decoded X, rs = as.map g ∧ collect f' as' = .ok (as'.map g') ∧
      ∀ a ∈ as, f a = .ok (g a) ∧ Same (g a) (g' a) := by
  obtain ⟨g, hg, rfl⟩ := exists_map_of_collect hrs
  have hall : ∀ a ∈ as', ∃ r', f' a = .ok r' := by
    intro a ha
    obtain ⟨r', hr', -⟩ := hf a (hperm.mem_iff.mp ha) _ (hg a (hperm.mem_iff.mp ha))
    exact ⟨r', hr'⟩
  obtain ⟨rs', hrs'⟩ := exists_collect hall
  obtain ⟨g', hg', rfl⟩ := exists_map_of_collect hrs'
  refine ⟨g, g', rfl, hrs', fun a ha => ⟨hg a ha, ?_⟩⟩
  obtain ⟨r', hr', hsame⟩ := hf a ha _ (hg a ha)
  rw [hg' a (hperm.mem_iff.mpr ha)] at hr'
  exact Except.ok.inj hr' ▸ hsame

section

variable {α : Type} {as as' : List α} {g g' : α → Decoded X}

theorem any_set_eq (hperm : as'.Perm as) (hsame : ∀ a ∈ as, Same (g a) (g' a)) :
    (as'.map g').any set = (as.map g).any set := by
  rw [(hperm.map g').any_eq, any_map, any_map]
  rw [Bool.eq_iff_iff, List.any_eq_true, List.any_eq_true]
  refine exists_congr fun a => and_congr_right fun ha => ?_
  rw [Function.comp, Function.comp, (hsame a ha).set]

theorem flatMap_errs_perm (hperm : as'.Perm as) (hsame : ∀ a ∈ as, Same (g a) (g' a)) :
    ((as'.map g').flatMap errs).Perm ((as.map g).flatMap errs) := by
  rw [flatMap_map, flatMap_map]
  exact hperm.flatMap fun a ha => (hsame a (hperm.mem_iff.mp ha)).errs

end

theorem same_ofList {is : List ℕ} {g g' : ℕ → Decoded X} (hsame : ∀ i ∈ is, Same (g i) (g' i)) :
    Same (.ofList (is.map g)) (.ofList (is.map g')) where
  val := by
    rw [ofList, ofList, map_map, map_map]
    exact congrArg Val.slice (map_congr_left fun i hi => (hsame i hi).val)
  set := any_set_eq .rfl hsame
  errs := flatMap_errs_perm .rfl hsame

/-! ### Elements -/

/-- Elements with different indices are stored in different places. -/
theorem storeElem_comm {vs : List (Val X)} {e e' : Key × Decoded X}
    (h : e.2.set = true → e.1.ivalue.toNat ≠ e'.1.ivalue.toNat) :
    storeElem (storeElem vs e) e' = storeElem (storeElem vs e') e := by
  simp only [storeElem]
  split
  · split
    · rename_i hset
      exact set_comm _ _ (h hset)
    · rfl
  · rfl

variable {ks ks' : List Key}

theorem foldl_storeElem_eq (hperm : ks'.Perm ks) {g g' : Key → Decoded X}
    (hsame : ∀ ke ∈ ks, Same (g ke) (g' ke))
    (hindex : ∀ ke ∈ ks, (g ke).set = true → ∀ ke' ∈ ks,
      ke.ivalue.toNat = ke'.ivalue.toNat → ke = ke') (vs : List (Val X)) :
    (ks'.zip (ks'.map g')).foldl storeElem vs = (ks.zip (ks.map g)).foldl storeElem vs := by
  rw [← map_prod_left_eq_zip, ← map_prod_left_eq_zip, foldl_map, foldl_map]
  have hcongr : ks'.foldl (fun vs ke => storeElem vs (ke, g' ke)) vs =
      ks'.foldl (fun vs ke => storeElem vs (ke, g ke)) vs := by
    refine foldl_ext _ _ _ fun vs ke hke => ?_
    have hke := hsame ke (hperm.mem_iff.mp hke)
    rw [storeElem, storeElem, hke.set, hke.val]
  rw [hcongr]
  refine hperm.foldl_eq' (fun ke hke ke' hke' vs => ?_) vs
  by_cases heq : ke = ke'
  · rw [heq]
  · exact storeElem_comm fun hset h => heq
      (hindex ke (hperm.mem_iff.mp hke) hset ke' (hperm.mem_iff.mp hke') h)

theorem foldl_storeField_eq {fs : List (CachedField T)} {g g' : CachedField T → Decoded X}
    (hsame : ∀ f ∈ fs, Same (g f) (g' f)) (vs : List (Val X)) :
    (fs.zip (fs.map g')).foldl storeField vs = (fs.zip (fs.map g)).foldl storeField vs := by
  rw [← map_prod_left_eq_zip, ← map_prod_left_eq_zip, foldl_map, foldl_map]
  refine foldl_ext _ _ _ fun vs f hf => ?_
  rw [storeField, storeField, (hsame f hf).val]

theorem sliceLenOf_perm (h : ks'.Perm ks) : sliceLenOf ks' = sliceLenOf ks :=
  h.foldl_eq' (fun ke _ ke' _ m => by rw [max_assoc, max_assoc, max_comm ke.ivalue]) 0

variable {ns : Bytes} {current : Val X} {r : Decoded X}

/-- The data of an alias, with the entries in another order. -/
theorem leads_setIndexed {set set' : Bytes → Result X} {maxArraySize : ℤ} {rd rd' : RecursiveData}
    (hset : ∀ ke ∈ rd.keys, ke.ivalue ≠ -1 →
      Leads (set (ns ++ ke.searchValue)) (set' (ns ++ ke.searchValue)))
    (hsliceLen : rd'.sliceLen = rd.sliceLen) (hkeys : rd'.keys.Perm rd.keys)
    (hindex : ∀ ns r, set ns = .ok r → r.set = true → ∀ ke ∈ rd.keys, ∀ ke' ∈ rd.keys,
      ke.ivalue ≠ -1 → ke'.ivalue ≠ -1 → ke.ivalue.toNat = ke'.ivalue.toNat → ke = ke')
    {r₀ r₀' : Decoded X} (hr₀ : Same r₀ r₀') :
    Leads (setIndexed set maxArraySize ns rd r₀) (setIndexed set' maxArraySize ns rd' r₀') := by
  have hlength : rd'.length = rd.length := by rw [RecursiveData.length, hsliceLen]; rfl
  intro r hr
  rw [setIndexed, hlength, hr₀.val]
  rcases setIndexed_cases hr with ⟨hlarge, rfl⟩ | ⟨hsmall, hnegative, rs, hrs, rfl⟩
  · rw [if_pos hlarge]
    exact ⟨_, rfl, rfl, hr₀.set, hr₀.errs.append_right _⟩
  · rw [if_neg (not_lt.mpr hsmall), if_neg hnegative]
    set len := (grown r₀.val.elems rd.length).length
    have hperm : (rd'.inRange len).Perm (rd.inRange len) := hkeys.filter _
    have hmem (ke : Key) (hke : ke ∈ rd.inRange len) : ke ∈ rd.keys ∧ ke.ivalue ≠ -1 := by
      rw [RecursiveData.inRange, mem_filter, decide_eq_true_iff] at hke
      exact ⟨hke.1, hke.2.1⟩
    obtain ⟨g, g', rfl, hrs', hboth⟩ :=
      leads_collect hperm (fun ke hke => hset ke (hmem ke hke).1 (hmem ke hke).2) hrs
    have hsame (ke : Key) (hke : ke ∈ rd.inRange len) : Same (g ke) (g' ke) := (hboth ke hke).2
    have hstored := foldl_storeElem_eq hperm hsame fun ke hke hone ke' hke' =>
      hindex _ _ (hboth ke hke).1 hone ke (hmem ke hke).1 ke' (hmem ke' hke').1 (hmem ke hke).2
        (hmem ke' hke').2
    have hany := any_set_eq hperm hsame
    refine ⟨_, map_eq_ok_iff.mpr ⟨_, hrs', rfl⟩, ?_, ?_, ?_⟩
    · simp only [ofIndexed, hr₀.set, hr₀.val, hany]
      rw [← hstored]
    · simp only [ofIndexed, hr₀.set, hany]
    · exact hr₀.errs.append (flatMap_errs_perm hperm hsame)

theorem leads_setList {set set' : ℕ → Result X} {arr : Option (List Bytes)}
    (hset : ∀ vs ∈ arr, vs ≠ [] → ∀ i, Leads (set i) (set' i)) (current : Val X) :
    Leads (setList set arr current) (setList set' arr current) := by
  rw [setList.eq_def, setList.eq_def]
  split
  · exact .refl _
  · exact .refl _
  · rename_i vs hne
    intro r hr
    obtain ⟨rs, hrs, rfl⟩ := map_eq_ok_iff.mp hr
    obtain ⟨g, g', rfl, hrs', hboth⟩ := leads_collect .rfl
      (fun i _ => hset vs rfl (fun hnil => hne (by rw [hnil])) i) hrs
    exact ⟨_, map_eq_ok_iff.mpr ⟨_, hrs', rfl⟩, same_ofList fun i hi => (hboth i hi).2⟩

/-! ### What can be set -/

theorem exists_set_of_collect {α : Type} {f : α → Result X} {as : List α} {rs : List (Decoded X)}
    (hrs : collect f as = .ok rs) (h : rs.any set = true) :
    ∃ a ∈ as, ∃ r, f a = .ok r ∧ r.set = true := by
  obtain ⟨r, hr, hset⟩ := List.any_eq_true.mp h
  obtain ⟨a, ha, hf⟩ := forall_of_collect hrs hr
  exact ⟨a, ha, r, hf, hset⟩

/-- A slice is set by one of its elements. -/
theorem exists_set_of_setSlice {c : Ctx T X} {set : Bytes → ℕ → Result X}
    (h : c.setSlice set current ns = .ok r) (hset : r.set = true) :
    ∃ ns' i r', set ns' i = .ok r' ∧ r'.set = true := by
  obtain ⟨r₀, hlist, hrest⟩ := setSlice_cases h
  have hfirst (hset₀ : r₀.set = true) : ∃ ns' i r', set ns' i = .ok r' ∧ r'.set = true := by
    rcases setList_cases hlist with ⟨-, rfl⟩ | ⟨vs, -, -, rs, hrs, rfl⟩
    · cases hset₀
    · obtain ⟨i, -, r', hr', hset'⟩ := exists_set_of_collect hrs hset₀
      exact ⟨ns, i, r', hr', hset'⟩
  rcases hrest with ⟨-, rfl⟩ | ⟨-, hindexed⟩
  · exact hfirst hset
  · rcases setIndexed_cases hindexed with ⟨-, rfl⟩ | ⟨-, -, rs, hrs, rfl⟩
    · exact hfirst hset
    · rcases Bool.or_eq_true _ _ ▸ hset with hset₀ | hany
      · exact hfirst hset₀
      · obtain ⟨ke, -, r', hr', hset'⟩ := exists_set_of_collect hrs hany
        exact ⟨_, 0, r', hr', hset'⟩

/-- A field is set at one of its visits. -/
theorem exists_set_of_visitField {set : CachedField T → Val X → Bytes → Result X}
    {f : CachedField T} (h : visitField set ns f current = .ok r) (hset : r.set = true) :
    ∃ v ns' r', set f v ns' = .ok r' ∧ r'.set = true := by
  rcases visitField_cases h with ⟨-, hone⟩ | ⟨-, r₁, r₂, hfirst, hsecond, rfl⟩
  · exact ⟨_, _, r, hone, hset⟩
  · rcases Bool.or_eq_true _ _ ▸ hset with hset₁ | hset₂
    · exact ⟨_, _, r₁, hfirst, hset₁⟩
    · exact ⟨_, _, r₂, hsecond, hset₂⟩

/-- **What is set** has a part in which a text can be stored. -/
theorem takes_of_set {c : Ctx T X} {n d idx : ℕ} {t : T} {mode : SanitizeMode}
    (hr : c.setFieldByType n d t current ns idx mode = .ok r) (hset : r.set = true) :
    ∃ path, Takes c.types (d, t) path := by
  induction n generalizing d t current ns idx mode r with
  | zero => cases hr
  | succ n ih =>
    -- A value that is not set was left as it was.
    have hunset {v : Val X} (h : (.ok (.unchanged v) : Result X) = .ok r) : False := by
      cases h
      cases hset
    cases hview : c.types.view t with
    | ptr elem =>
      rw [setFieldByType_ptr hview] at hr
      obtain ⟨v, r', -, hr', rfl⟩ | ⟨-, r', hr', rfl⟩ := setPtr_cases hr
      · exact (ih hr' hset).imp fun _ => .ptr hview
      · exact (ih hr' hset).imp fun _ => .ptr hview
    | interface numMethod =>
      refine ⟨[], .leaf ?_⟩
      rw [setFieldByType_interface hview, setInterface.eq_def] at hr
      rw [hview]
      split at hr
      · exact (hunset hr).elim
      · split at hr
        · cases hr
        · split at hr
          · assumption
          · cases hr
            cases hset
    | slice elem =>
      rw [setFieldByType_slice hview] at hr
      obtain ⟨ns', i, r', hr', hset'⟩ := exists_set_of_setSlice hr hset
      exact (ih hr' hset').elim fun path hpath => ⟨_, .elem hview hpath⟩
    | struct fields =>
      rw [setFieldByType_struct hview] at hr
      rcases traverseStruct_cases hr with ⟨-, rfl⟩ | ⟨hdepth, rs, hrs, rfl⟩
      · cases hset
      obtain ⟨f, hf, r', hvisit, hset'⟩ := exists_set_of_collect hrs hset
      obtain ⟨v, ns', r'', hr'', hset''⟩ := exists_set_of_visitField hvisit hset'
      rw [setField] at hr''
      split at hr''
      · rename_i hcanSet
        obtain ⟨path, hpath⟩ := ih hr'' hset''
        exact ⟨_, .field hview hdepth ((c.libs.sort_perm _).mem_iff.mp hf) hcanSet hpath⟩
      · cases hr''
        cases hset''
    | other =>
      rw [setFieldByType_leaf (by rw [hview]; trivial), hview, setLeaf] at hr
      cases hvalue : c.formValue ns idx mode with
      | none | some => rw [hvalue] at hr; exact (hunset hr).elim
    | _ => exact ⟨[], .leaf (by rw [hview]; trivial)⟩

/-! ### Two orders of a form -/

section

variable {c : Ctx T X} {form : Form} {ns : Bytes}

theorem lookup_of_perm (hperm : form.entries.Perm c.form.entries) (ns : Bytes) :
    (c.withForm form).form.lookup ns = c.form.lookup ns := AList.perm_lookup hperm

theorem keysOf_perm (hperm : form.entries.Perm c.form.entries) (ns : Bytes) :
    ((c.withForm form).keysOf ns).Perm (c.keysOf ns) := by
  have hkeys : form.keys.Perm c.form.keys := hperm.map Sigma.fst
  exact ((hkeys.flatMap_right _).filter _).map _

theorem leads_setSlice (hperm : form.entries.Perm c.form.entries) {set set' : Bytes → ℕ → Result X}
    (hlists : ∀ arr ∈ c.form.lookup ns, arr ≠ [] → ∀ i, Leads (set ns i) (set' ns i))
    (helems : ∀ ke ∈ c.keysOf ns, ke.ivalue ≠ -1 →
      Leads (set (ns ++ ke.searchValue) 0) (set' (ns ++ ke.searchValue) 0))
    (hun : ∀ ns' r, set ns' 0 = .ok r → r.set = true → ∀ ke ∈ c.keysOf ns, ∀ ke' ∈ c.keysOf ns,
      ke.ivalue = ke'.ivalue → ke.ivalue ≠ -1 → ke = ke') (current : Val X) :
    Leads (c.setSlice set current ns) ((c.withForm form).setSlice set' current ns) := by
  intro r hr
  obtain ⟨r₀, hlist, hrest⟩ := setSlice_cases hr
  obtain ⟨r₀', hlist', hsame⟩ := leads_setList hlists _ r₀ hlist
  have hkeys := keysOf_perm hperm ns
  rw [setSlice, lookup_of_perm hperm, hlist', findAlias_dm, dataOf]
  rcases hrest with ⟨hnil, rfl⟩ | ⟨hne, hindexed⟩
  · rw [if_pos (perm_nil.mp (hnil ▸ hkeys))]
    exact ⟨r₀', rfl, hsame⟩
  · have hne' : (c.withForm form).keysOf ns ≠ [] := fun hnil => hne (nil_perm.mp (hnil ▸ hkeys))
    rw [if_neg hne']
    refine leads_setIndexed helems (sliceLenOf_perm hkeys) hkeys ?_ hsame r hindexed
    intro ns' r' hr' hset ke hke ke' hke' hindex hindex' hnat
    obtain ⟨value, rfl, -⟩ := exists_value_of_mem_keysOf hke
    obtain ⟨value', rfl, -⟩ := exists_value_of_mem_keysOf hke'
    have hle := neg_one_le_ivalue value
    have hle' := neg_one_le_ivalue value'
    exact hun ns' r' hr' hset _ hke _ hke' (by omega) hindex

theorem leads_setPtr {set set' : Val X → Result X} (hset : ∀ v, Leads (set v) (set' v))
    (current : Val X) : Leads (setPtr set current) (setPtr set' current) := by
  intro r hr
  rcases setPtr_cases hr with ⟨v, r₁, rfl, hr₁, rfl⟩ | ⟨hne, r₁, hr₁, rfl⟩
  · obtain ⟨r₁', hr₁', hsame⟩ := hset v r₁ hr₁
    refine ⟨_, map_eq_ok_iff.mpr ⟨r₁', hr₁', rfl⟩, ?_, hsame.set, hsame.errs⟩
    rw [hsame.val]
  · obtain ⟨r₁', hr₁', hsame⟩ := hset .zero r₁ hr₁
    refine ⟨⟨if r₁'.set then .ptr r₁'.val else current, r₁'.set, r₁'.errs⟩, ?_, ?_, hsame.set,
      hsame.errs⟩
    · rw [setPtr.eq_def]
      split
      · rename_i v
        exact absurd rfl (hne v)
      · rw [hr₁']
        rfl
    · rw [hsame.val, hsame.set]

theorem leads_setField {set set' : Setter T X} {depth : ℕ} {f : CachedField T} {v : Val X}
    (h : f.canSet = true → Leads (set depth f.typ v ns 0 f.sanitizeMode)
      (set' depth f.typ v ns 0 f.sanitizeMode)) :
    Leads (setField set depth f v ns) (setField set' depth f v ns) := by
  rw [setField, setField]
  split
  · rename_i hset
    exact h hset
  · exact .refl _

variable {set set' : CachedField T → Val X → Bytes → Result X}

theorem leads_visitField {f : CachedField T}
    (hfirst : f.isAnonymous = true → ∀ v, Leads (set f v ns) (set' f v ns))
    (hlast : ∀ v, Leads (set f v (fieldNs ns f.name)) (set' f v (fieldNs ns f.name)))
    (current : Val X) : Leads (visitField set ns f current) (visitField set' ns f current) := by
  intro r hr
  rw [visitField]
  rcases visitField_cases hr with ⟨hplain, hone⟩ | ⟨hanonymous, r₁, r₂, hone, hsecond, rfl⟩
  · rw [if_neg (by rw [hplain]; exact Bool.false_ne_true)]
    exact hlast _ r hone
  · obtain ⟨r₁', hfirst', hsame₁⟩ := hfirst hanonymous _ r₁ hone
    obtain ⟨r₂', hsecond', hsame₂⟩ := hlast _ r₂ hsecond
    rw [if_pos hanonymous, hfirst']
    dsimp only
    rw [hsame₁.val, hsecond']
    refine ⟨_, rfl, hsame₂.val, ?_, hsame₁.errs.append hsame₂.errs⟩
    rw [andThen, andThen, hsame₁.set, hsame₂.set]

theorem leads_traverseStruct {depth : ℕ} {fields : List (StructField T)} {current : Val X}
    (hvisit : depth ≤ maxDecodeDepth → ∀ f ∈ parseStruct fields, ∀ v,
      Leads (visitField set ns f v) (visitField set' ns f v)) :
    Leads (c.traverseStruct set depth fields current ns)
      ((c.withForm form).traverseStruct set' depth fields current ns) := by
  intro r hr
  rw [traverseStruct]
  rcases traverseStruct_cases hr with ⟨hdepth, rfl⟩ | ⟨hdepth, rs, hrs, rfl⟩
  · rw [if_pos hdepth]
    exact ⟨_, rfl, .refl _⟩
  · rw [if_neg (not_lt.mpr hdepth)]
    obtain ⟨g, g', rfl, hrs', hboth⟩ := leads_collect .rfl
      (fun f hf => hvisit hdepth f ((c.libs.sort_perm _).mem_iff.mp hf) _) hrs
    have hsame (f : CachedField T) (hf : f ∈ c.libs.sort (parseStruct fields)) :
        Same (g f) (g' f) := (hboth f hf).2
    refine ⟨_, map_eq_ok_iff.mpr ⟨_, hrs', rfl⟩, ?_, any_set_eq .rfl hsame,
      flatMap_errs_perm .rfl hsame⟩
    exact congrArg Val.struct (foldl_storeField_eq hsame _)

/-- **The outcome does not depend on the order** if no index is spelled in two ways where the
decoder may come to. -/
theorem leads_of_perm (hperm : form.entries.Perm c.form.entries) (n : ℕ) {d : ℕ} {t : T}
    (hun : ∀ q, Relation.ReflTransGen (MayGo c) ⟨d, t, ns⟩ q → Unambiguous c q) (current : Val X)
    (idx : ℕ) (mode : SanitizeMode) : Leads (c.setFieldByType n d t current ns idx mode)
      ((c.withForm form).setFieldByType n d t current ns idx mode) := by
  have hvalue (ns : Bytes) (idx : ℕ) (mode : SanitizeMode) :
      (c.withForm form).formValue ns idx mode = c.formValue ns idx mode := by
    rw [formValue, lookup_of_perm hperm]
    rfl
  induction n generalizing d t current ns idx mode with
  | zero =>
    intro r hr
    cases hr
  | succ n ih =>
    have hnext {q : Place T} (hstep : MayGo c ⟨d, t, ns⟩ q) (q' : Place T)
        (hq' : Relation.ReflTransGen (MayGo c) q q') : Unambiguous c q' := hun q' (.head hstep hq')
    rw [setFieldByType, setFieldByType, setWith, setWith]
    have htypes : (c.withForm form).types = c.types := rfl
    rw [htypes]
    cases hview : c.types.view t with
    | ptr elem => exact leads_setPtr (fun v => ih (hnext (.goes (.ptr hview))) _ _ _) current
    | interface numMethod =>
      dsimp only
      rw [hvalue]
      exact .refl _
    | slice elem =>
      refine leads_setSlice hperm (fun arr harr hne i => ?_) (fun ke hke hindex => ?_)
        (fun ns' r hr hset => ?_) current
      · exact ih (hnext (.goes (.list hview harr hne))) _ _ _
      · exact ih (hnext (.elem hview hke hindex)) _ _ _
      · obtain ⟨path, hpath⟩ := takes_of_set hr hset
        exact hun _ .refl elem path hview hpath
    | struct fields =>
      refine leads_traverseStruct fun hdepth f hf v => leads_visitField ?_ ?_ v
      · intro hanonymous v
        exact leads_setField fun hset =>
          ih (hnext (.goes (.embedded hview hdepth hf hset hanonymous))) _ _ _
      · intro v
        exact leads_setField fun hset => ih (hnext (.goes (.field hview hdepth hf hset))) _ _ _
    | _ =>
      dsimp only
      rw [setLeaf, setLeaf, hvalue]
      exact .refl _

end

end Kiya.Decoder
