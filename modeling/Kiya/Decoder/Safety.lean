import Kiya.Decoder.Places

/-!
# When decoding is safe

Decoding is safe if it returns, if no slice that is stored is longer than the limit, and if every
key that asks for a longer one is reported. There are four ways in which it is not:

* a list of values for a slice is stored without a look at the limit;
* an index may be the largest `int`, to which one is added, so that the length is negative;
* what is embedded is visited twice, and an interface that holds a text cannot be set again;
* a type may be an endless chain of pointers.

At a place where none of them occurs the decoder is `Fine`, and if it is so wherever it comes to, it
is safe (`safe_of_fine`).
-/

namespace Kiya.Decoder

open Collect List Option

variable {T X : Type}

/-! ### Stored values -/

/-- No slice in a value is longer than the limit. If `ifaces` is false, there are also no texts in
interfaces, except for those in elements of slices. -/
inductive Bounded (m : ℤ) : (ifaces : Bool) → Val X → Prop
  | zero {ifaces : Bool} : Bounded m ifaces .zero
  | str {ifaces : Bool} {s : Bytes} : Bounded m ifaces (.str s)
  | bool {ifaces : Bool} {b : Bool} : Bounded m ifaces (.bool b)
  | int {ifaces : Bool} {i : ℤ} : Bounded m ifaces (.int i)
  | uint {ifaces : Bool} {n : ℕ} : Bounded m ifaces (.uint n)
  | opaq {ifaces : Bool} {x : X} : Bounded m ifaces (.opaq x)
  | iface {s : Bytes} : Bounded m true (.iface s)
  | ptr {ifaces : Bool} {v : Val X} : Bounded m ifaces v → Bounded m ifaces (.ptr v)
  | slice {ifaces : Bool} {vs : List (Val X)} : (vs.length : ℤ) ≤ m →
    (∀ v ∈ vs, Bounded m true v) → Bounded m ifaces (.slice vs)
  | struct {ifaces : Bool} {vs : List (Val X)} : (∀ v ∈ vs, Bounded m ifaces v) →
    Bounded m ifaces (.struct vs)

variable {m : ℤ} {ifaces : Bool} {v current : Val X} {vs : List (Val X)} {c : Ctx T X}
  {p : Place T} {idx : ℕ} {mode : SanitizeMode} {ns : Bytes}

theorem Bounded.weaken (h : Bounded m false v) : Bounded m ifaces v := by
  generalize hfalse : false = b at h
  induction h with
  | iface => cases hfalse
  | ptr _ ih => exact .ptr (ih hfalse)
  | slice hlen hvs => exact .slice hlen hvs
  | struct _ ih => exact .struct fun v hv => ih v hv hfalse
  | zero => exact .zero
  | str => exact .str
  | bool => exact .bool
  | int => exact .int
  | uint => exact .uint
  | opaq => exact .opaq

theorem Bounded.elems (h : Bounded m ifaces v) :
    (∀ w ∈ v.elems, Bounded m true w) ∧ (v.elems = [] ∨ (v.elems.length : ℤ) ≤ m) := by
  cases h with
  | slice hlen hvs => exact ⟨hvs, .inr hlen⟩
  | _ => exact ⟨nofun, .inl rfl⟩

theorem Bounded.fields (h : Bounded m ifaces v) (count : ℕ) :
    ∀ w ∈ v.fields count, Bounded m ifaces w := by
  cases h with
  | struct hvs => exact hvs
  | _ =>
    intro w hw
    rw [eq_of_mem_replicate hw]
    exact .zero

theorem bounded_getD (h : ∀ v ∈ vs, Bounded m ifaces v) (i : ℕ) :
    Bounded m ifaces (vs.getD i .zero) := by
  rw [getD_eq_getElem?_getD]
  cases hv : vs[i]? with
  | none => exact .zero
  | some v => exact h v (mem_of_getElem? hv)

theorem bounded_grown (h : ∀ v ∈ vs, Bounded m ifaces v) (sl : ℤ) :
    ∀ v ∈ grown vs sl, Bounded m ifaces v := by
  intro v hv
  rcases mem_append.mp hv with hmem | hzero
  · exact h v hmem
  · rw [eq_of_mem_replicate hzero]
    exact .zero

theorem length_grown_le (h : vs = [] ∨ (vs.length : ℤ) ≤ m) {sl : ℤ}
    (hpos : 0 ≤ sl) (hsl : sl ≤ m) : ((grown vs sl).length : ℤ) ≤ m := by
  rw [grown, length_append, length_replicate]
  rcases h with rfl | hle
  · rw [length_nil]
    omega
  · omega

theorem bounded_storeElem {es : List (Key × Decoded X)}
    (hvs : ∀ v ∈ vs, Bounded m ifaces v) (hes : ∀ e ∈ es, Bounded m ifaces e.2.val) :
    ∀ v ∈ es.foldl storeElem vs, Bounded m ifaces v := by
  refine List.foldlRecOn (motive := fun vs => ∀ v ∈ vs, Bounded m ifaces v) es storeElem hvs ?_
  intro vs hvs e he v hv
  rw [storeElem] at hv
  split at hv
  · rcases mem_or_eq_of_mem_set hv with hmem | rfl
    · exact hvs v hmem
    · exact hes e he
  · exact hvs v hv

theorem length_storeElem (vs : List (Val X)) (es : List (Key × Decoded X)) :
    (es.foldl storeElem vs).length = vs.length := by
  refine List.foldlRecOn (motive := fun ws => ws.length = vs.length) es storeElem rfl ?_
  intro ws hws e _
  rw [storeElem]
  split
  · rw [length_set, hws]
  · exact hws

theorem bounded_storeField {es : List (CachedField T × Decoded X)}
    (hvs : ∀ v ∈ vs, Bounded m ifaces v) (hes : ∀ e ∈ es, Bounded m ifaces e.2.val) :
    ∀ v ∈ es.foldl storeField vs, Bounded m ifaces v := by
  refine List.foldlRecOn (motive := fun vs => ∀ v ∈ vs, Bounded m ifaces v) es storeField hvs ?_
  intro vs hvs e he v hv
  rcases mem_or_eq_of_mem_set hv with hmem | rfl
  · exact hvs v hmem
  · exact hes e he

/-! ### Conditions -/

/-- The parts of a type that are stored in place, with the depth at which they are decoded. Fields
that are embedded count if `embedded` is true. -/
inductive Part (U : Types T) (embedded : Bool) : ℕ × T → ℕ × T → Prop
  | ptr {d : ℕ} {t elem : T} : U.view t = .ptr elem → Part U embedded (d, t) (d, elem)
  | field {d : ℕ} {t : T} {fields : List (StructField T)} {f : CachedField T} :
    U.view t = .struct fields → d ≤ maxDecodeDepth → f ∈ parseStruct fields → f.canSet = true →
    (f.isAnonymous = true → embedded = true) → Part U embedded (d, t) (d + 1, f.typ)

/-- No interface that a text can be stored in is part of a type. -/
def Quiet (U : Types T) (x : ℕ × T) : Prop :=
  ∀ y, Relation.ReflTransGen (Part U true) x y → U.view y.2 ≠ .interface 0

/-- A field is embedded in a type, and decoded. -/
def Embeds (U : Types T) (x : ℕ × T) (f : CachedField T) : Prop :=
  ∃ fields, U.view x.2 = .struct fields ∧ x.1 ≤ maxDecodeDepth ∧ f ∈ parseStruct fields ∧
    f.canSet = true ∧ f.isAnonymous = true

/-- The form has an index for the elements of a slice. -/
def HasIndex (c : Ctx T X) (ns : Bytes) (i : ℕ) : Prop :=
  ∃ k ∈ c.form.keys, ∃ digits after, Numeral.parseNat digits = some i ∧
    k = ns ++ leftBracket :: (digits ++ rightBracket :: after)

/-- None of the four defects occurs at a place. -/
structure Fine (c : Ctx T X) (p : Place T) : Prop where
  settles : Settles c.types p.typ
  quiet : ∀ f, Embeds c.types (p.depth, p.typ) f → Quiet c.types (p.depth + 1, f.typ)
  list_le : ∀ elem, c.types.view p.typ = .slice elem → ∀ arr ∈ c.form.lookup p.ns,
    (arr.length : ℤ) ≤ c.maxArraySize
  index_lt : ∀ elem, c.types.view p.typ = .slice elem → ∀ i, HasIndex c p.ns i → i < 2 ^ 63 - 1

/-- A form asks for more elements than there may be. -/
def Offends (c : Ctx T X) (ns : Bytes) : Prop :=
  (∃ arr ∈ c.form.lookup ns, c.maxArraySize < arr.length) ∨
    ∃ i : ℕ, HasIndex c ns i ∧ c.maxArraySize ≤ i

/-- Decoding returns, stores no slice that is too long, and reports what asks for one. -/
def Safe (c : Ctx T X) (t : T) : Prop :=
  ∃ n r, c.decode n t = .ok r ∧ Bounded c.maxArraySize true r.val ∧
    ∀ p, Visits c t p → ∀ elem, c.types.view p.typ = .slice elem → Offends c p.ns →
      p.ns ∈ r.errs.map Prod.fst

variable {elem : T} {d : ℕ}

theorem Fine.sliceLenOf_lt (h : Fine c p) (hview : c.types.view p.typ = .slice elem) :
    sliceLenOf (c.keysOf p.ns) < 2 ^ 63 - 1 := by
  refine Int.lt_of_le_sub_one (sliceLenOf_le (by norm_num) fun ke hke => ?_)
  obtain ⟨value, rfl, k, hk, after, hsplit⟩ := exists_value_of_mem_keysOf hke
  rcases ivalue_cases value with hnone | hzero | ⟨i, hi⟩
  · omega
  · omega
  · have hlt := h.index_lt elem hview i ⟨k, hk, value, after, hi, hsplit⟩
    rw [ivalue_of_parseNat hi]
    omega

/-! ### One place -/

variable {view : TypeView T} {f : CachedField T}

theorem bounded_readLeaf {formValue : Bytes} (h : c.readLeaf formValue view = some (.ok v)) :
    Bounded m ifaces v := by
  rw [Ctx.readLeaf.eq_def] at h
  repeat' split at h
  all_goals cases h
  all_goals constructor

theorem bounded_setLeaf (hcurrent : Bounded m ifaces current) (ns : Bytes)
    (idx : ℕ) (mode : SanitizeMode) :
    Bounded m ifaces (c.setLeaf view current ns idx mode).val := by
  rw [Ctx.setLeaf]
  split
  · exact hcurrent
  · rename_i read hread
    obtain ⟨formValue, -, hread⟩ := bind_eq_some_iff.mp hread
    cases read with
    | ok v => exact bounded_readLeaf hread
    | error err => exact hcurrent

theorem exists_setInterface {numMethod : ℕ} (hnumMethod : ifaces = false → numMethod ≠ 0)
    (hcurrent : Bounded m ifaces current) (hzero : ifaces = true → current = .zero)
    (formValue : Option Bytes) (typeName ns : Bytes) :
    ∃ r, setInterface formValue numMethod typeName current ns = .ok r ∧ Bounded m ifaces r.val := by
  cases formValue with
  | none => exact ⟨_, rfl, hcurrent⟩
  | some formValue =>
    have hne (s : Bytes) : current ≠ .iface s := by
      rintro rfl
      cases hcurrent with
      | iface => cases hzero rfl
    rw [setInterface_of_ne hne]
    by_cases hmethods : numMethod = 0
    · rw [if_pos hmethods]
      cases ifaces with
      | false => exact absurd hmethods (hnumMethod rfl)
      | true => exact ⟨_, rfl, .iface⟩
    · rw [if_neg hmethods]
      exact ⟨_, rfl, hcurrent⟩

/-- A part is decoded with so much fuel, to a value that is bounded. -/
def Ends (c : Ctx T X) (p : Place T) (ifaces : Bool) (current : Val X) (idx : ℕ)
    (mode : SanitizeMode) (n : ℕ) : Prop :=
  ∃ r, c.setFieldByType n p.depth p.typ current p.ns idx mode = .ok r ∧
    Bounded c.maxArraySize ifaces r.val

theorem Ends.mono {n n' : ℕ} (hn : n ≤ n') (h : Ends c p ifaces current idx mode n) :
    Ends c p ifaces current idx mode n' :=
  h.imp fun _ => And.imp_left (setFieldByType_mono c hn _ _ _ _ _ _ _)

theorem ends_ptr {t elem : T} (hview : c.types.view t = .ptr elem)
    (hcurrent : Bounded c.maxArraySize ifaces current) (hzero : ifaces = true → current = .zero)
    (h : ∀ v, Bounded c.maxArraySize ifaces v → (ifaces = true → v = .zero) →
      ∃ n, Ends c ⟨d, elem, ns⟩ ifaces v idx mode n) :
    ∃ n, Ends c ⟨d, t, ns⟩ ifaces current idx mode n := by
  by_cases hptr : ∃ v, current = .ptr v
  · obtain ⟨v, rfl⟩ := hptr
    have hv : Bounded c.maxArraySize ifaces v := by
      cases hcurrent with
      | ptr hv => exact hv
    obtain ⟨n, r, hr, hbounded⟩ := h v hv fun htrue => by cases hzero htrue
    refine ⟨n + 1, ⟨.ptr r.val, r.set, r.errs⟩, ?_, .ptr hbounded⟩
    rw [setFieldByType_ptr hview, setPtr, hr]
    rfl
  · obtain ⟨n, r, hr, hbounded⟩ := h .zero .zero fun _ => rfl
    refine ⟨n + 1, ⟨if r.set then .ptr r.val else current, r.set, r.errs⟩, ?_, ?_⟩
    · rw [setFieldByType_ptr hview, setPtr.eq_def]
      split
      · rename_i v
        exact absurd ⟨v, rfl⟩ hptr
      · rw [hr]
        rfl
    · split
      · exact .ptr hbounded
      · exact hcurrent

theorem exists_setList {set : ℕ → Result X} {arr : Option (List Bytes)}
    (hcurrent : Bounded m ifaces current) (hlen : ∀ vs ∈ arr, (vs.length : ℤ) ≤ m)
    (hset : ∀ vs ∈ arr, ∀ i ∈ List.range vs.length, ∃ r, set i = .ok r ∧ Bounded m true r.val) :
    ∃ r, setList set arr current = .ok r ∧ Bounded m ifaces r.val := by
  rw [setList.eq_def]
  split
  · exact ⟨_, rfl, hcurrent⟩
  · exact ⟨_, rfl, hcurrent⟩
  · rename_i vs _
    obtain ⟨rs, hrs, hbounded⟩ := exists_collect_forall (hset vs rfl)
    refine ⟨.ofList rs, by rw [hrs]; rfl, .slice ?_ ?_⟩
    · rw [length_map, ← (collect_eq_ok_iff.mp hrs).length_eq, length_range]
      exact hlen vs rfl
    · exact List.forall_mem_map.mpr hbounded

theorem exists_setIndexed {set : Bytes → Result X} {rd : RecursiveData}
    {r₀ : Decoded X} (hr₀ : Bounded m ifaces r₀.val) (hlength : 0 ≤ rd.length)
    (hset : rd.length ≤ m → ∀ ke ∈ rd.keys, ke.ivalue ≠ -1 →
      ∃ r, set (ns ++ ke.searchValue) = .ok r ∧ Bounded m true r.val) :
    ∃ r, setIndexed set m ns rd r₀ = .ok r ∧ Bounded m ifaces r.val := by
  rw [setIndexed]
  by_cases hlarge : m < rd.length
  · rw [if_pos hlarge]
    exact ⟨_, rfl, hr₀⟩
  · rw [if_neg hlarge, if_neg fun hnegative => not_lt.mpr hlength hnegative.2]
    obtain ⟨helems, hshort⟩ := hr₀.elems
    have helem : ∀ ke ∈ rd.inRange (grown r₀.val.elems rd.length).length,
        ∃ r, set (ns ++ ke.searchValue) = .ok r ∧ Bounded m true r.val := by
      intro ke hke
      rw [RecursiveData.inRange, mem_filter, decide_eq_true_iff] at hke
      exact hset (not_lt.mp hlarge) ke hke.1 hke.2.1
    obtain ⟨rs, hrs, hbounded⟩ := exists_collect_forall helem
    refine ⟨r₀.ofIndexed (grown r₀.val.elems rd.length)
      (rd.inRange (grown r₀.val.elems rd.length).length) rs, ?_, ?_⟩
    · simp only [hrs]
      rfl
    · rw [Decoded.ofIndexed]
      dsimp only
      split
      · refine .slice ?_ (bounded_storeElem (bounded_grown helems _) fun e he => ?_)
        · rw [length_storeElem]
          exact length_grown_le hshort hlength (not_lt.mp hlarge)
        · exact hbounded e.2 (of_mem_zip he).2
      · exact hr₀

theorem ends_slice (hp : Fine c p) (hview : c.types.view p.typ = .slice elem)
    (hcurrent : Bounded c.maxArraySize ifaces current)
    (h : ∀ q, Goes c p q → ∀ i, ∃ n, Ends c q true .zero i mode n) :
    ∃ n, Ends c p ifaces current idx mode n := by
  have hlength := length_dataAt (hp.sliceLenOf_lt hview)
  have hnonneg := sliceLenOf_nonneg (c.keysOf p.ns)
  -- Enough fuel for the list of values, and enough for the indexed elements.
  obtain ⟨n₁, hn₁⟩ : ∃ n, ∀ vs ∈ c.form.lookup p.ns, ∀ i ∈ List.range vs.length,
      Ends c ⟨p.depth, elem, p.ns⟩ true .zero i mode n := by
    cases hlookup : c.form.lookup p.ns with
    | none => exact ⟨0, fun vs hvs => absurd hvs (not_mem_none vs)⟩
    | some vs =>
      have hi : ∀ i ∈ List.range vs.length,
          ∃ n, Ends c ⟨p.depth, elem, p.ns⟩ true .zero i mode n := by
        intro i hi
        have hpos : 0 < vs.length := (Nat.zero_le i).trans_lt (mem_range.mp hi)
        exact h _ (.list hview hlookup (ne_nil_of_length_pos hpos)) i
      obtain ⟨n, hn⟩ := exists_bound
        (P := fun n i => Ends c ⟨p.depth, elem, p.ns⟩ true .zero i mode n) Ends.mono hi
      exact ⟨n, fun vs' hvs' => some_inj.mp hvs' ▸ hn⟩
  obtain ⟨n₂, hn₂⟩ : ∃ n, ∀ ke ∈ c.keysOf p.ns, ke.ivalue ≠ -1 →
      (c.dataAt p.ns).length ≤ c.maxArraySize →
      Ends c ⟨p.depth, elem, p.ns ++ ke.searchValue⟩ true .zero 0 mode n := by
    refine exists_bound (fun hmn hm hindex hmax => (hm hindex hmax).mono hmn) fun ke hke => ?_
    by_cases hgoes : ke.ivalue ≠ -1 ∧ (c.dataAt p.ns).length ≤ c.maxArraySize
    · obtain ⟨n, hn⟩ := h _ (.elem hview hke hgoes.1 (by omega)) 0
      exact ⟨n, fun _ _ => hn⟩
    · exact ⟨0, fun hindex hmax => absurd ⟨hindex, hmax⟩ hgoes⟩
  let set (ns : Bytes) (i : ℕ) : Result X :=
    c.setFieldByType (max n₁ n₂) p.depth elem .zero ns i mode
  have hlist : ∃ r, setList (set p.ns) (c.form.lookup p.ns) current = .ok r ∧
      Bounded c.maxArraySize ifaces r.val :=
    exists_setList hcurrent (hp.list_le elem hview) fun vs hvs i hi =>
      (hn₁ vs hvs i hi).mono (le_max_left n₁ n₂)
  obtain ⟨r₀, hr₀, hbounded₀⟩ := hlist
  have hindexed : ∃ r, setIndexed (fun ns => set ns 0) c.maxArraySize p.ns (c.dataAt p.ns) r₀ =
      .ok r ∧ Bounded c.maxArraySize ifaces r.val :=
    exists_setIndexed hbounded₀ (by omega) fun hmax ke hke hindex =>
      (hn₂ ke hke hindex hmax).mono (le_max_right n₁ n₂)
  have hslice : ∃ r, c.setSlice set current p.ns = .ok r ∧ Bounded c.maxArraySize ifaces r.val := by
    rw [Ctx.setSlice, hr₀, c.findAlias_dm, dataOf]
    by_cases hkeys : c.keysOf p.ns = []
    · rw [if_pos hkeys]
      exact ⟨r₀, rfl, hbounded₀⟩
    · rwa [if_neg hkeys]
  obtain ⟨r, hr, hbounded⟩ := hslice
  exact ⟨max n₁ n₂ + 1, r, by rw [setFieldByType_slice hview]; exact hr, hbounded⟩

theorem exists_setField (hv : Bounded c.maxArraySize ifaces v)
    (h : f.canSet = true → ∃ n, Ends c ⟨d + 1, f.typ, ns⟩ ifaces v 0 f.sanitizeMode n) :
    ∃ n r, setField (c.setFieldByType n) (d + 1) f v ns = .ok r ∧
      Bounded c.maxArraySize ifaces r.val := by
  simp only [setField]
  by_cases hset : f.canSet = true
  · simp only [if_pos hset]
    exact h hset
  · simp only [if_neg hset]
    exact ⟨0, _, rfl, hv⟩

/-- A field that is embedded is visited twice, the second time with what the first has stored. -/
theorem exists_visitField (hv : Bounded c.maxArraySize ifaces v) (hzero : ifaces = true → v = .zero)
    (hone : f.isAnonymous = false → f.canSet = true →
      ∃ n, Ends c ⟨d + 1, f.typ, fieldNs ns f.name⟩ ifaces v 0 f.sanitizeMode n)
    (htwo : f.isAnonymous = true → f.canSet = true → ∀ ns' ∈ [ns, fieldNs ns f.name], ∀ w,
      Bounded c.maxArraySize false w → ∃ n, Ends c ⟨d + 1, f.typ, ns'⟩ false w 0 f.sanitizeMode n) :
    ∃ n r, visitField (setField (c.setFieldByType n) (d + 1)) ns f v = .ok r ∧
      Bounded c.maxArraySize ifaces r.val := by
  have hmono {n n' : ℕ} (hn : n ≤ n') {w : Val X} {ns' : Bytes} {r : Decoded X} :
      setField (c.setFieldByType n) (d + 1) f w ns' = .ok r →
        setField (c.setFieldByType n') (d + 1) f w ns' = .ok r :=
    setField_mono (setFieldByType_mono c hn)
  simp only [visitField]
  by_cases hanonymous : f.isAnonymous = true
  · simp only [if_pos hanonymous]
    have hfalse : Bounded c.maxArraySize false v := by
      cases ifaces with
      | false => exact hv
      | true => exact hzero rfl ▸ .zero
    obtain ⟨n₁, r₁, hr₁, hbounded₁⟩ := exists_setField hfalse fun hset =>
      htwo hanonymous hset ns mem_cons_self v hfalse
    obtain ⟨n₂, r₂, hr₂, hbounded₂⟩ := exists_setField hbounded₁ fun hset =>
      htwo hanonymous hset (fieldNs ns f.name) (mem_cons_of_mem _ mem_cons_self) r₁.val
        hbounded₁
    refine ⟨max n₁ n₂, r₁.andThen r₂, ?_, hbounded₂.weaken⟩
    rw [hmono (le_max_left n₁ n₂) hr₁]
    exact map_eq_ok_iff.mpr ⟨r₂, hmono (le_max_right n₁ n₂) hr₂, rfl⟩
  · simp only [if_neg hanonymous]
    exact exists_setField hv (hone (Bool.not_eq_true _ ▸ hanonymous))

theorem fields_zero_getD (count i : ℕ) :
    ((Val.zero : Val X).fields count).getD i .zero = .zero := by
  have hfields : (Val.zero : Val X).fields count = List.replicate count .zero := rfl
  rw [hfields, getD_eq_getElem?_getD, getElem?_replicate]
  split <;> rfl

theorem ends_struct {fields : List (StructField T)}
    (hview : c.types.view p.typ = .struct fields) (hcurrent : Bounded c.maxArraySize ifaces current)
    (hzero : ifaces = true → current = .zero)
    (h : p.depth ≤ maxDecodeDepth → ∀ f ∈ parseStruct fields, ∀ v, Bounded c.maxArraySize ifaces v →
      (ifaces = true → v = .zero) →
      ∃ n r, visitField (setField (c.setFieldByType n) (p.depth + 1)) p.ns f v = .ok r ∧
        Bounded c.maxArraySize ifaces r.val) :
    ∃ n, Ends c p ifaces current idx mode n := by
  by_cases hdepth : maxDecodeDepth < p.depth
  · refine ⟨1, ⟨current, false, [(p.ns, utf8 "maximum recursion depth exceeded")]⟩, ?_, hcurrent⟩
    rw [setFieldByType_struct hview, Ctx.traverseStruct, if_pos hdepth]
  · have hfields := hcurrent.fields fields.length
    obtain ⟨n, hn⟩ : ∃ n, ∀ f ∈ c.libs.sort (parseStruct fields),
        ∃ r, visitField (setField (c.setFieldByType n) (p.depth + 1)) p.ns f
          ((current.fields fields.length).getD f.idx .zero) = .ok r ∧
          Bounded c.maxArraySize ifaces r.val := by
      refine exists_bound (fun hmn hm => hm.imp fun r => And.imp_left (visitField_mono
        fun f v ns r => setField_mono (setFieldByType_mono c hmn))) fun f hf => ?_
      refine h (not_lt.mp hdepth) f ((c.libs.sort_perm _).mem_iff.mp hf) _
        (bounded_getD hfields _) fun htrue => ?_
      rw [hzero htrue]
      exact fields_zero_getD _ _
    obtain ⟨rs, hrs, hbounded⟩ := exists_collect_forall hn
    refine ⟨n + 1, .ofFields (current.fields fields.length) (c.libs.sort (parseStruct fields)) rs,
      ?_, .struct (bounded_storeField hfields fun e he => hbounded e.2 (of_mem_zip he).2)⟩
    rw [setFieldByType_struct hview, Ctx.traverseStruct, if_neg hdepth]
    exact map_eq_ok_iff.mpr ⟨rs, hrs, rfl⟩

/-- **Where everything is fine the decoder returns**, and what it stores is bounded. -/
theorem exists_ends (hfine : ∀ q, Relation.ReflTransGen (Goes c) p q → Fine c q)
    (hquiet : ifaces = false → Quiet c.types (p.depth, p.typ))
    (hcurrent : Bounded c.maxArraySize ifaces current) (hzero : ifaces = true → current = .zero)
    (idx : ℕ) (mode : SanitizeMode) : ∃ n, Ends c p ifaces current idx mode n := by
  have hacc := acc_goes fun q hq => (hfine q hq).settles
  induction hacc generalizing ifaces current idx mode with
  | intro p _ ih =>
    have hrest {q : Place T} (hq : Goes c p q) (q' : Place T)
        (hq' : Relation.ReflTransGen (Goes c) q q') : Fine c q' := hfine q' (.head hq hq')
    cases hview : c.types.view p.typ with
    | ptr elem =>
      refine ends_ptr hview hcurrent hzero fun v hv hvzero => ?_
      exact ih _ (.ptr hview) (hrest (.ptr hview))
        (fun hfalse y hy => hquiet hfalse y (.head (.ptr hview) hy)) hv hvzero idx mode
    | interface numMethod =>
      have hnumMethod (hfalse : ifaces = false) : numMethod ≠ 0 := by
        rintro rfl
        exact hquiet hfalse _ .refl hview
      obtain ⟨r, hr, hbounded⟩ := exists_setInterface hnumMethod hcurrent hzero
        (c.formValue p.ns idx mode) (c.types.string p.typ) p.ns
      exact ⟨1, r, by rw [setFieldByType_interface hview, hr], hbounded⟩
    | slice elem =>
      refine ends_slice (hfine p .refl) hview hcurrent fun q hq i => ?_
      exact ih q hq (hrest hq) (Bool.noConfusion) .zero (fun _ => rfl) i mode
    | struct fields =>
      refine ends_struct hview hcurrent hzero fun hdepth f hf v hv hvzero => ?_
      refine exists_visitField hv hvzero (fun hplain hset => ?_)
        fun hanonymous hset ns hns w hw => ?_
      · have hgoes : Goes c p ⟨p.depth + 1, f.typ, fieldNs p.ns f.name⟩ :=
          .field hview hdepth hf hset
        refine ih _ hgoes (hrest hgoes) (fun hfalse y hy => ?_) hv hvzero 0 f.sanitizeMode
        exact hquiet hfalse y (.head (.field hview hdepth hf hset fun _ => rfl) hy)
      · have hgoes : Goes c p ⟨p.depth + 1, f.typ, ns⟩ := by
          rcases mem_pair.mp hns with rfl | rfl
          · exact .embedded hview hdepth hf hset hanonymous
          · exact .field hview hdepth hf hset
        refine ih _ hgoes (hrest hgoes) (fun _ => ?_) hw (Bool.noConfusion) 0 f.sanitizeMode
        exact (hfine p .refl).quiet f ⟨fields, hview, hdepth, hf, hset, hanonymous⟩
    | _ =>
      have hleaf : (c.types.view p.typ).IsLeaf := by
        rw [hview]
        trivial
      exact ⟨1, _, setFieldByType_leaf hleaf, bounded_setLeaf hcurrent _ _ _⟩

/-! ### Errors -/

theorem HasIndex.exists_mem {i : ℕ} (h : HasIndex c ns i) :
    ∃ ke ∈ c.keysOf ns, ke.ivalue = min (i : ℤ) (2 ^ 63 - 1) := by
  obtain ⟨k, hk, digits, after, hdigits, hsplit⟩ := h
  refine ⟨Key.ofValue digits, mem_entriesOf.mpr ⟨k, hk, mem_brackets_iff.mpr ?_⟩,
    ivalue_of_parseNat hdigits⟩
  exact ⟨digits, after, plain_of_parseNat hdigits, rfl, hsplit⟩

/-- What asks for too many elements is reported where the decoder has been. -/
theorem Fine.reported (hp : Fine c p) (hview : c.types.view p.typ = .slice elem)
    (hoffends : Offends c p.ns)
    {errs : List (Bytes × Bytes)} (hruns : Runs c p errs) : p.ns ∈ errs.map Prod.fst := by
  obtain ⟨n, current, idx, mode, r, hr, hsubset⟩ := hruns
  obtain ⟨n, rfl⟩ := exists_succ_of_ok hr
  rw [setFieldByType_slice hview] at hr
  rcases hoffends with ⟨arr, harr, hlong⟩ | ⟨i, hindex, hlarge⟩
  · exact absurd hlong (not_lt.mpr (hp.list_le elem hview arr harr))
  · have hlt := hp.index_lt elem hview i hindex
    obtain ⟨ke, hke, hivalue⟩ := hindex.exists_mem
    have hle := le_sliceLenOf hke
    have hlength := length_dataAt (hp.sliceLenOf_lt hview)
    obtain ⟨r₀, -, ⟨hnil, -⟩ | ⟨-, hindexed⟩⟩ := setSlice_cases hr
    · exact absurd hke (hnil ▸ not_mem_nil)
    · rcases setIndexed_cases hindexed with ⟨-, rfl⟩ | ⟨hsmall, -⟩
      · exact List.mem_map.mpr ⟨_, hsubset (mem_append_right _ mem_cons_self), rfl⟩
      · omega

/-- **Decoding is safe** if none of the defects occurs where the decoder comes to. -/
theorem safe_of_fine {t : T} (h : ∀ p, Visits c t p → Fine c p) : Safe c t := by
  have hends : ∃ n, Ends c ⟨0, t, []⟩ true .zero 0 .default n :=
    exists_ends h (fun hfalse => Bool.noConfusion hfalse) .zero (fun _ => rfl) 0 .default
  obtain ⟨n, r, hr, hbounded⟩ := hends
  refine ⟨n, r, hr, hbounded, fun p hp elem hview hoffends => ?_⟩
  exact (h p hp).reported hview hoffends (Runs.of_visits hr hp)

end Kiya.Decoder
