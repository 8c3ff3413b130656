import Kiya.Decoder.Decode

/-!
# Where the decoder goes

A place is a part of the destination that the decoder comes to: its type, its namespace and how deep
it is in structs. `Goes` says from which place the decoder goes on to which with a form, and
`Visits` where it comes to in the end. Nothing that is stored on the way has an influence on this.

If there is a result, then there is one for every place that is visited, and the errors there are
among the errors of the whole (`Runs.of_visits`). The decoder comes to an end if no type that is
visited is an endless chain of pointers and slices (`acc_goes`): the depth of structs is limited,
and a namespace with brackets is the beginning of a key.
-/

namespace Kiya.Decoder

open Collect List

variable {T X : Type}

/-! ### Places -/

/-- A part of the destination. -/
structure Place (T : Type) where
  depth : ℕ
  typ : T
  ns : Bytes

/-- From which place the decoder goes on to which. -/
inductive Goes (c : Ctx T X) : Place T → Place T → Prop
  | ptr {d : ℕ} {t elem : T} {ns : Bytes} : c.types.view t = .ptr elem →
    Goes c ⟨d, t, ns⟩ ⟨d, elem, ns⟩
  | list {d : ℕ} {t elem : T} {ns : Bytes} {arr : List Bytes} : c.types.view t = .slice elem →
    arr ∈ c.form.lookup ns → arr ≠ [] → Goes c ⟨d, t, ns⟩ ⟨d, elem, ns⟩
  | elem {d : ℕ} {t elem : T} {ns : Bytes} {ke : Key} : c.types.view t = .slice elem →
    ke ∈ c.keysOf ns → ke.ivalue ≠ -1 → sliceLenOf (c.keysOf ns) < c.maxArraySize →
    Goes c ⟨d, t, ns⟩ ⟨d, elem, ns ++ ke.searchValue⟩
  | field {d : ℕ} {t : T} {ns : Bytes} {fields : List (StructField T)} {f : CachedField T} :
    c.types.view t = .struct fields → d ≤ maxDecodeDepth → f ∈ parseStruct fields →
    f.canSet = true → Goes c ⟨d, t, ns⟩ ⟨d + 1, f.typ, fieldNs ns f.name⟩
  | embedded {d : ℕ} {t : T} {ns : Bytes} {fields : List (StructField T)} {f : CachedField T} :
    c.types.view t = .struct fields → d ≤ maxDecodeDepth → f ∈ parseStruct fields →
    f.canSet = true → f.isAnonymous = true → Goes c ⟨d, t, ns⟩ ⟨d + 1, f.typ, ns⟩

/-- The places that are visited for a destination. -/
def Visits (c : Ctx T X) (t : T) : Place T → Prop := Relation.ReflTransGen (Goes c) ⟨0, t, []⟩

/-! ### Indices -/

variable {c : Ctx T X} {ns : Bytes} {ke : Key} {r : Decoded X}

theorem exists_value_of_mem_keysOf (h : ke ∈ c.keysOf ns) :
    ∃ value, ke = Key.ofValue value ∧ ∃ k ∈ c.form.keys, ∃ after,
      k = ns ++ leftBracket :: (value ++ rightBracket :: after) := by
  obtain ⟨k, hk, hmem⟩ := mem_entriesOf.mp h
  obtain ⟨value, after, -, hkey, hsplit⟩ := mem_brackets_iff.mp hmem
  exact ⟨value, hkey, k, hk, after, hsplit⟩

theorem sliceLenOf_lt (c : Ctx T X) (ns : Bytes) : sliceLenOf (c.keysOf ns) < 2 ^ 63 := by
  refine Int.lt_of_le_sub_one (sliceLenOf_le (by norm_num) fun ke hke => ?_)
  obtain ⟨value, rfl, -⟩ := exists_value_of_mem_keysOf hke
  exact Int.le_sub_one_of_lt (ivalue_lt value)

theorem sliceLenOf_nonneg (ks : List Key) : 0 ≤ sliceLenOf ks := by
  induction ks using List.reverseRecOn with
  | nil => exact le_rfl
  | append_singleton ks last ih =>
    rw [sliceLenOf_append]
    exact ih.trans (le_max_left _ _)

/-- One more than the greatest index, unless this is the largest `int`. -/
theorem length_dataAt (h : sliceLenOf (c.keysOf ns) < 2 ^ 63 - 1) :
    (c.dataAt ns).length = sliceLenOf (c.keysOf ns) + 1 := by
  have hnonneg := sliceLenOf_nonneg (c.keysOf ns)
  have hbmod : (sliceLenOf (c.keysOf ns) + 1).bmod (2 ^ 64) = sliceLenOf (c.keysOf ns) + 1 :=
    Int.bmod_eq_of_le (by omega) (by omega)
  exact hbmod

theorem mem_inRange {len : ℕ} (h : sliceLenOf (c.keysOf ns) < len) :
    ke ∈ (c.dataAt ns).inRange len ↔ ke ∈ c.keysOf ns ∧ ke.ivalue ≠ -1 := by
  rw [RecursiveData.inRange, mem_filter, decide_eq_true_iff]
  constructor
  · exact fun hke => ⟨hke.1, hke.2.1⟩
  · exact fun hke => ⟨hke.1, hke.2, (le_sliceLenOf hke.1).trans_lt h⟩

theorem le_length_grown (vs : List (Val X)) (sl : ℤ) : sl ≤ (grown vs sl).length := by
  rw [grown, length_append, length_replicate]
  omega

/-! ### Results on the way -/

/-- The decoder has been at a place, and the errors there are among the given ones. -/
def Runs (c : Ctx T X) (p : Place T) (errs : List (Bytes × Bytes)) : Prop :=
  ∃ n current idx mode r, c.setFieldByType n p.depth p.typ current p.ns idx mode = .ok r ∧
    r.errs ⊆ errs

theorem subset_errs_setIndexed {set : Bytes → Result X} {maxArraySize : ℤ} {rd : RecursiveData}
    {r₀ r : Decoded X} (h : setIndexed set maxArraySize ns rd r₀ = .ok r) : r₀.errs ⊆ r.errs := by
  rcases setIndexed_cases h with ⟨-, rfl⟩ | ⟨-, -, rs, -, rfl⟩
  · exact subset_append_left _ _
  · exact subset_append_left _ _

theorem subset_flatMap_errs {rs : List (Decoded X)} (h : r ∈ rs) :
    r.errs ⊆ rs.flatMap Decoded.errs := fun _ he => mem_flatMap.mpr ⟨r, h, he⟩

variable {current : Val X} {set : Bytes → ℕ → Result X} {p : Place T}

theorem runs_list (h : c.setSlice set current ns = .ok r) {arr : List Bytes}
    (harr : arr ∈ c.form.lookup ns) (hne : arr ≠ []) :
    ∃ i r', set ns i = .ok r' ∧ r'.errs ⊆ r.errs := by
  obtain ⟨r₀, hlist, hrest⟩ := setSlice_cases h
  have hsubset : r₀.errs ⊆ r.errs := by
    rcases hrest with ⟨-, rfl⟩ | ⟨-, hindexed⟩
    · exact List.Subset.refl _
    · exact subset_errs_setIndexed hindexed
  rcases setList_cases hlist with ⟨hnil, -⟩ | ⟨vs, hvs, hvsne, rs, hrs, rfl⟩
  · exact absurd (hnil arr harr) hne
  · obtain ⟨r', hr', hset⟩ := exists_of_collect hrs (mem_range.mpr (length_pos_iff.mpr hvsne))
    exact ⟨0, r', hset, List.Subset.trans (subset_flatMap_errs hr') hsubset⟩

theorem runs_elem (h : c.setSlice set current ns = .ok r) (hke : ke ∈ c.keysOf ns)
    (hindex : ke.ivalue ≠ -1) (hmax : sliceLenOf (c.keysOf ns) < c.maxArraySize) :
    ∃ r', set (ns ++ ke.searchValue) 0 = .ok r' ∧ r'.errs ⊆ r.errs := by
  have hlt := c.maxArraySize_lt
  have hlength : (c.dataAt ns).length = sliceLenOf (c.keysOf ns) + 1 := length_dataAt (by omega)
  obtain ⟨r₀, -, ⟨hnil, -⟩ | ⟨-, hindexed⟩⟩ := setSlice_cases h
  · exact absurd hke (hnil ▸ not_mem_nil)
  · rcases setIndexed_cases hindexed with ⟨hlarge, -⟩ | ⟨-, -, rs, hrs, rfl⟩
    · omega
    · have hle := le_length_grown r₀.val.elems (c.dataAt ns).length
      obtain ⟨r', hr', hset⟩ := exists_of_collect hrs ((mem_inRange (by omega)).mpr ⟨hke, hindex⟩)
      exact ⟨r', hset, List.Subset.trans (subset_flatMap_errs hr') (subset_append_right _ _)⟩

theorem runs_field {n d : ℕ} {fields : List (StructField T)}
    (h : c.traverseStruct (setField (c.setFieldByType n) (d + 1)) d fields current ns = .ok r)
    (hdepth : d ≤ maxDecodeDepth) {f : CachedField T} (hf : f ∈ parseStruct fields)
    (hset : f.canSet = true) : Runs c ⟨d + 1, f.typ, fieldNs ns f.name⟩ r.errs ∧
      (f.isAnonymous = true → Runs c ⟨d + 1, f.typ, ns⟩ r.errs) := by
  rcases traverseStruct_cases h with ⟨hlt, -⟩ | ⟨-, rs, hrs, rfl⟩
  · omega
  · obtain ⟨r', hr', hvisit⟩ := exists_of_collect hrs ((c.libs.sort_perm _).mem_iff.mpr hf)
    have hsubset := subset_flatMap_errs hr'
    rcases visitField_cases hvisit with ⟨hanonymous, hone⟩ | ⟨-, r₁, r₂, hfirst, hsecond, rfl⟩
    · rw [setField, if_pos hset] at hone
      refine ⟨⟨_, _, _, _, r', hone, hsubset⟩, fun htrue => ?_⟩
      exact absurd (htrue.symm.trans hanonymous) Bool.noConfusion
    · rw [setField, if_pos hset] at hfirst hsecond
      refine ⟨⟨_, _, _, _, r₂, hsecond, ?_⟩, fun _ => ⟨_, _, _, _, r₁, hfirst, ?_⟩⟩
      · exact List.Subset.trans (subset_append_right _ _) hsubset
      · exact List.Subset.trans (subset_append_left _ _) hsubset

/-- Where the decoder goes on, there is a result. -/
theorem Runs.of_goes {p q : Place T} {errs : List (Bytes × Bytes)}
    (hp : Runs c p errs) (hpq : Goes c p q) : Runs c q errs := by
  obtain ⟨n, current, idx, mode, r, hr, hsubset⟩ := hp
  obtain ⟨n, rfl⟩ := exists_succ_of_ok hr
  cases hpq with
  | ptr hview =>
    rw [setFieldByType_ptr hview] at hr
    rcases setPtr_cases hr with ⟨v, r', -, hr', rfl⟩ | ⟨-, r', hr', rfl⟩
    · exact ⟨n, v, idx, mode, r', hr', hsubset⟩
    · exact ⟨n, .zero, idx, mode, r', hr', hsubset⟩
  | list hview harr hne =>
    rw [setFieldByType_slice hview] at hr
    obtain ⟨i, r', hr', hsub⟩ := runs_list hr harr hne
    exact ⟨n, .zero, i, mode, r', hr', List.Subset.trans hsub hsubset⟩
  | elem hview hke hindex hmax =>
    rw [setFieldByType_slice hview] at hr
    obtain ⟨r', hr', hsub⟩ := runs_elem hr hke hindex hmax
    exact ⟨n, .zero, 0, mode, r', hr', List.Subset.trans hsub hsubset⟩
  | field hview hdepth hf hset =>
    rw [setFieldByType_struct hview] at hr
    obtain ⟨m, v, i, md, r', hr', hsub⟩ := (runs_field hr hdepth hf hset).1
    exact ⟨m, v, i, md, r', hr', List.Subset.trans hsub hsubset⟩
  | embedded hview hdepth hf hset hanonymous =>
    rw [setFieldByType_struct hview] at hr
    obtain ⟨m, v, i, md, r', hr', hsub⟩ := (runs_field hr hdepth hf hset).2 hanonymous
    exact ⟨m, v, i, md, r', hr', List.Subset.trans hsub hsubset⟩

/-- **A result of the whole is one of every place.** -/
theorem Runs.of_visits {t : T} {n : ℕ} (h : c.decode n t = .ok r)
    (hp : Visits c t p) : Runs c p r.errs := by
  induction hp with
  | refl => exact ⟨n, .zero, 0, .default, r, h, List.Subset.refl _⟩
  | tail _ hstep ih => exact ih.of_goes hstep

/-! ### The end -/

/-- A type is not an endless chain of pointers and slices. -/
def Settles (U : Types T) : T → Prop :=
  Acc fun elem t => U.view t = .ptr elem ∨ U.view t = .slice elem

/-- The longest key. -/
def maxKeyLen (form : Form) : ℕ := (form.keys.map List.length).foldr max 0

theorem le_maxKeyLen {form : Form} {k : Bytes} (h : k ∈ form.keys) : k.length ≤ maxKeyLen form :=
  le_max_of_le (mem_map_of_mem h) le_rfl

theorem length_elem_le (h : ke ∈ c.keysOf ns) : ns.length < (ns ++ ke.searchValue).length ∧
      (ns ++ ke.searchValue).length ≤ maxKeyLen c.form := by
  obtain ⟨value, rfl, k, hk, after, hsplit⟩ := exists_value_of_mem_keysOf h
  have hle := le_maxKeyLen hk
  rw [hsplit] at hle
  simp only [Key.ofValue, length_append, length_cons, length_nil] at hle ⊢
  omega

/-- **The decoder comes to an end** from a place if the types it comes to settle. -/
theorem acc_goes (h : ∀ q, Relation.ReflTransGen (Goes c) p q → Settles c.types q.typ) :
    Acc (fun q p => Goes c p q) p := by
  obtain ⟨d, t, ns⟩ := p
  -- By how many structs are left, then by how much of a key is left, then by the chain of the type.
  induction hD : maxDecodeDepth + 1 - d using Nat.strong_induction_on generalizing d t ns with
  | _ D ihD =>
    induction hL : maxKeyLen c.form - ns.length using Nat.strong_induction_on generalizing t ns with
    | _ L ihL =>
      have hsettles : Settles c.types t := h _ .refl
      induction hsettles with
      | intro t _ ihT =>
        refine Acc.intro _ fun q hq => ?_
        have hrest (q' : Place T) (hq' : Relation.ReflTransGen (Goes c) q q') :
            Settles c.types q'.typ := h q' (.head hq hq')
        cases hq with
        | ptr hview => exact ihT _ (.inl hview) hrest
        | list hview harr hne => exact ihT _ (.inr hview) hrest
        | elem hview hke hindex hmax =>
          have hlength := length_elem_le hke
          exact ihL _ (by omega) _ _ hrest rfl
        | field | embedded => exact ihD _ (by omega) _ _ _ hrest rfl

end Kiya.Decoder
