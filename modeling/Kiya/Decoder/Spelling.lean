import Kiya.Decoder.Order
import Kiya.Decoder.Crash

/-!
# When the order of the keys matters

With a form in which no index is spelled in two ways where the decoder comes to, the outcome does
not depend on the order of the keys. For some destinations it never does: those in which nothing
that can be set is an element of a slice. For every other one there is a form with two keys that
differ in the spelling of their indices, `0` and `00`, and of which the one that is visited last
decides what is stored. The part that it is stored in is found by following a path through the value
(`Takes.tells`).

For this the types have to be tame: decoding them comes to an end without a fault, no name of a
field has brackets, and two texts can be told apart where they can be stored.
-/

namespace Kiya.Decoder

open Collect Decoded Ctx List

variable {T X : Type}

/-! ### The same outcome -/

/-- With the one there is a result exactly if there is one with the other, and then the same value
is stored and there are the same errors, in some order. -/
def Agree (c c' : Ctx T X) (t : T) : Prop :=
  ∀ n, Leads (c.decode n t) (c'.decode n t) ∧ Leads (c'.decode n t) (c.decode n t)

section

variable {c : Ctx T X} {form : Form} (hperm : form.entries.Perm c.form.entries)
include hperm

theorem MayGo.of_perm {p q : Place T} (h : MayGo (c.withForm form) p q) : MayGo c p q := by
  have hmem (ns : Bytes) (ke : Key) : ke ∈ (c.withForm form).keysOf ns → ke ∈ c.keysOf ns :=
    (keysOf_perm hperm ns).mem_iff.mp
  cases h with
  | elem hview hke hindex => exact .elem hview (hmem _ _ hke) hindex
  | goes hgoes =>
    cases hgoes with
    | ptr hview => exact .goes (.ptr hview)
    | list hview harr hne => exact .goes (.list hview (lookup_of_perm hperm _ ▸ harr) hne)
    | elem hview hke hindex => exact .elem hview (hmem _ _ hke) hindex
    | field hview hdepth hf hset => exact .goes (.field hview hdepth hf hset)
    | embedded hview hdepth hf hset hanonymous =>
      exact .goes (.embedded hview hdepth hf hset hanonymous)

/-- **Another order gives the same outcome** if no index is spelled in two ways. -/
theorem agree_of_perm {t : T}
    (hun : ∀ q, Relation.ReflTransGen (MayGo c) ⟨0, t, []⟩ q → Unambiguous c q) :
    Agree c (c.withForm form) t := by
  intro n
  have hback : c.form.entries.Perm (c.withForm form).form.entries := hperm.symm
  refine ⟨leads_of_perm hperm n hun _ _ _, leads_of_perm hback n (fun q hq => ?_) _ _ _⟩
  intro elem path hview hpath ke hke ke' hke'
  have hkeys := keysOf_perm hperm q.ns
  exact hun q (Relation.ReflTransGen.mono (fun _ _ => MayGo.of_perm hperm) _ _ hq) elem path hview
    hpath ke (hkeys.mem_iff.mp hke) ke' (hkeys.mem_iff.mp hke')

end

/-- What can be set at a place can be set in the whole. -/
theorem MayGo.takes {c : Ctx T X} {p q : Place T} (h : MayGo c p q) {path : List (Option Bytes)}
    (hq : Takes c.types (q.depth, q.typ) path) :
    ∃ path', Takes c.types (p.depth, p.typ) path' ∧ path ⊆ path' := by
  cases h with
  | elem hview => exact ⟨_, .elem hview hq, subset_cons_self _ _⟩
  | goes hgoes =>
    cases hgoes with
    | ptr hview => exact ⟨_, .ptr hview hq, List.Subset.refl _⟩
    | list hview | elem hview => exact ⟨_, .elem hview hq, subset_cons_self _ _⟩
    | field hview hdepth hf hset | embedded hview hdepth hf hset =>
      exact ⟨_, .field hview hdepth hf hset hq, subset_cons_self _ _⟩

theorem takes_of_mayGo {c : Ctx T X} {p q : Place T} (h : Relation.ReflTransGen (MayGo c) p q)
    {path : List (Option Bytes)} (hq : Takes c.types (q.depth, q.typ) path) :
    ∃ path', Takes c.types (p.depth, p.typ) path' ∧ path ⊆ path' := by
  induction h generalizing path with
  | refl => exact ⟨path, hq, List.Subset.refl _⟩
  | tail _ hstep ih =>
    obtain ⟨path₁, hpath₁, hsub₁⟩ := hstep.takes hq
    obtain ⟨path₂, hpath₂, hsub₂⟩ := ih hpath₁
    exact ⟨path₂, hpath₂, List.Subset.trans hsub₁ hsub₂⟩

/-! ### The key of a path -/

/-- The namespace at the end of a path, with one spelling for all indices. -/
def place (value : Bytes) : List (Option Bytes) → Bytes → Bytes
  | [], ns => ns
  | some name :: path, ns => place value path (fieldNs ns name)
  | none :: path, ns => place value path (ns ++ (Key.ofValue value).searchValue)

variable {value : Bytes} {path : List (Option Bytes)}

theorem exists_place_eq (value : Bytes) (path : List (Option Bytes)) (ns : Bytes) :
    ∃ after, place value path ns = ns ++ after := by
  induction path generalizing ns with
  | nil => exact ⟨[], (append_nil ns).symm⟩
  | cons step path ih =>
    cases step with
    | none =>
      obtain ⟨after, h⟩ := ih (ns ++ (Key.ofValue value).searchValue)
      exact ⟨_, h.trans (append_assoc _ _ _)⟩
    | some name =>
      obtain ⟨after, h⟩ := ih (fieldNs ns name)
      rw [place, h, fieldNs]
      split
      · rename_i hns
        exact ⟨name ++ after, by rw [hns]; rfl⟩
      · exact ⟨_, append_assoc _ _ _⟩

/-- The pairs of brackets of the key of a path. -/
theorem map_brackets_place (hvalue : Plain value) (hnames : ∀ name, some name ∈ path → Plain name)
    (ns : Bytes) : (brackets (place value path ns)).map Prod.snd =
      (brackets ns).map Prod.snd ++ List.replicate (path.count none) (Key.ofValue value) := by
  induction path generalizing ns with
  | nil => exact (append_nil _).symm
  | cons step path ih =>
    have ih := ih fun name hname => hnames name (mem_cons_of_mem _ hname)
    cases step with
    | none =>
      rw [place, ih, brackets_append_value hvalue, map_append, count_cons_self,
        replicate_succ, append_assoc]
      rfl
    | some name =>
      have hname := hnames name mem_cons_self
      have hfield : brackets (fieldNs ns name) = brackets ns := by
        rw [fieldNs]
        split
        · rename_i hns
          rw [hns]
          exact brackets_append_plain hname []
        · refine brackets_append_plain ⟨?_, ?_⟩ ns
          · exact not_mem_cons_of_ne_of_not_mem (by decide) hname.1
          · exact not_mem_cons_of_ne_of_not_mem (by decide) hname.2
      rw [place, ih, hfield, count_cons_of_ne (by simp)]

/-! ### Two keys -/

/-- The last key of a form has one value and one spelling of its indices, and all indices are 0. -/
structure Spelled (form : Form) (k value s : Bytes) : Prop where
  plain : Plain value
  lookup : form.lookup k = some [s]
  last : ∃ before, form.keys = before ++ [k]
  zero : ∀ e ∈ form.keys.flatMap brackets, e.2.ivalue = 0
  spelled : ∀ e ∈ brackets k, e.2 = Key.ofValue value

variable {c : Ctx T X} {form : Form} {k ns s : Bytes}

/-- The last element of a slice on the way to the key is the one that the key belongs to. -/
theorem Spelled.keysOf (h : Spelled form (place value path (ns ++ (Key.ofValue value).searchValue))
    value s) (c : Ctx T X) :
    ∃ before, (c.withForm form).keysOf ns = before ++ [Key.ofValue value] := by
  obtain ⟨before, hkeys⟩ := h.last
  obtain ⟨after, hplace⟩ := exists_place_eq value path (ns ++ (Key.ofValue value).searchValue)
  rw [hplace] at hkeys h
  set k := ns ++ (Key.ofValue value).searchValue ++ after with hk
  have hsplit : (c.withForm form).keysOf ns =
      entriesOf ns (before.flatMap brackets) ++ entriesOf ns ([k].flatMap brackets) := by
    rw [← entriesOf_append, ← flatMap_append, ← hkeys]
    rfl
  have hmem : Key.ofValue value ∈ entriesOf ns ([k].flatMap brackets) :=
    mem_entriesOf.mpr ⟨k, mem_singleton_self k, mem_brackets_iff.mpr
      ⟨value, after, h.plain, rfl, by simp [hk, Key.ofValue]⟩⟩
  have hne := ne_nil_of_mem hmem
  obtain ⟨k', hk', hentry⟩ := mem_entriesOf.mp (getLast_mem hne)
  rw [mem_singleton.mp hk'] at hentry
  have hlast : Key.ofValue value = _ := (h.spelled _ hentry).symm
  refine ⟨entriesOf ns (before.flatMap brackets) ++
    (entriesOf ns ([k].flatMap brackets)).dropLast, ?_⟩
  rw [hsplit, hlast, append_assoc, dropLast_append_getLast]

/-- The element that is stored last is found in the slice. -/
theorem elem_of_setSlice {set : Bytes → ℕ → Result X} {current : Val X} {r : Decoded X}
    (h : c.setSlice set current ns = .ok r) (hmax : 1 ≤ c.maxArraySize)
    (hzero : ∀ ke ∈ c.keysOf ns, ke.ivalue = 0) {before : List Key} {ke : Key}
    (hlast : c.keysOf ns = before ++ [ke]) : ∃ r', set (ns ++ ke.searchValue) 0 = .ok r' ∧
      (r'.set = true → r.val.elems.getD 0 .zero = r'.val ∧ r.set = true) := by
  have hke : ke ∈ c.keysOf ns := hlast ▸ mem_append_right _ (mem_singleton_self ke)
  have hlen : sliceLenOf (c.keysOf ns) = 0 :=
    (sliceLenOf_le le_rfl fun ke hke => (hzero ke hke).le).antisymm (sliceLenOf_nonneg _)
  have hlength : (c.dataAt ns).length = 1 := by rw [length_dataAt (by omega), hlen, zero_add]
  obtain ⟨r₀, -, ⟨hnil, -⟩ | ⟨-, hindexed⟩⟩ := setSlice_cases h
  · exact absurd hke (hnil ▸ not_mem_nil)
  rcases setIndexed_cases hindexed with ⟨hlarge, -⟩ | ⟨-, -, rs, hrs, rfl⟩
  · omega
  have hgrown := le_length_grown r₀.val.elems (c.dataAt ns).length
  set varr := grown r₀.val.elems (c.dataAt ns).length
  -- All entries are in range, so the last one is decoded and stored last.
  have hinRange : (c.dataAt ns).inRange varr.length = before ++ [ke] := by
    rw [← hlast, RecursiveData.inRange]
    refine filter_eq_self.mpr fun ke' hke' => decide_eq_true ?_
    rw [hzero ke' hke']
    omega
  rw [hinRange] at hrs
  obtain ⟨g, hg, rfl⟩ := exists_map_of_collect hrs
  refine ⟨g ke, hg ke (hlast ▸ hke), fun hset => ?_⟩
  have hstored : ((before ++ [ke]).zip ((before ++ [ke]).map g)).foldl storeElem varr =
      ((before.zip (before.map g)).foldl storeElem varr).set 0 (g ke).val := by
    rw [map_append, zip_append (length_map g).symm, foldl_append]
    simp [storeElem, hset, hzero ke hke]
  have hany : ((before ++ [ke]).map g).any Decoded.set = true :=
    List.any_eq_true.mpr ⟨g ke, mem_map_of_mem (hlast ▸ hke), hset⟩
  simp only [ofIndexed, hinRange, hstored, hany, Bool.or_true, if_true, and_true, Val.elems]
  rw [getD_eq_getElem?_getD, getElem?_set_self (by rw [length_storeElem]; omega)]
  rfl

/-! ### The value at the end of a path -/

/-- How a text is read where it can be stored. -/
def Ctx.read (c : Ctx T X) (view : TypeView T) (s : Bytes) (mode : SanitizeMode) :
    Option (Except Bytes (Val X)) :=
  match view with
  | .interface _ => some (.ok (.iface (cleanValue c.libs s mode)))
  | view => c.readLeaf (cleanValue c.libs s mode) view

/-- Decoding comes to an end without a fault as long as lists and indices are small, names have no
brackets, and where texts can be stored there are two that are stored as different values. -/
structure Tame (c : Ctx T X) : Prop where
  size : 1 ≤ c.maxArraySize
  settles : ∀ t, Settles c.types t
  quiet : ∀ x f, Embeds c.types x f → Quiet c.types (x.1 + 1, f.typ)
  plain : ∀ t fields, c.types.view t = .struct fields → ∀ f ∈ parseStruct fields, Plain f.name
  texts : ∀ t, (c.types.view t).TakesText → ∃ (text : Bool → Bytes) (val : Bool → Val X),
    val true ≠ val false ∧ ∀ b mode, c.read (c.types.view t) (text b) mode = some (.ok (val b))

theorem val_of_read {t : T} (htakes : (c.types.view t).TakesText) {n d : ℕ} {current v : Val X}
    {mode : SanitizeMode} {r : Decoded X} (hread : c.read (c.types.view t) s mode = some (.ok v))
    (hform : form.lookup ns = some [s])
    (hr : (c.withForm form).setFieldByType n d t current ns 0 mode = .ok r) :
    r.val = v ∧ r.set = true := by
  have hcases : c.types.view t = .interface 0 ∨ (c.types.view t).IsLeaf ∧
      c.read (c.types.view t) s mode =
        c.readLeaf (cleanValue c.libs s mode) (c.types.view t) := by
    cases hview : c.types.view t with
    | interface numMethod => rw [hview] at htakes; exact .inl (congrArg _ htakes)
    | ptr | slice | struct | other => rw [hview] at htakes; exact htakes.elim
    | _ => exact .inr ⟨trivial, rfl⟩
  rcases hcases with hview | ⟨hleaf, heq⟩
  · obtain ⟨-, rfl⟩ := eq_iface_of_ok (x := (d, t)) hform hview hr
    rw [hview] at hread
    exact ⟨Except.ok.inj (Option.some.inj hread), rfl⟩
  · obtain ⟨n, rfl⟩ := exists_succ_of_ok hr
    have hread : (c.withForm form).readLeaf _ ((c.withForm form).types.view t) = _ :=
      heq.symm.trans hread
    rw [setFieldByType_leaf (c := c.withForm form) hleaf, setLeaf, formValue_withForm hform,
      Option.bind_some, hread] at hr
    cases hr
    exact ⟨rfl, rfl⟩

/-- What a pointer points to. -/
def Val.deref : Val X → Val X
  | .ptr v => v
  | v => v

/-- What a struct holds in a field; there is a place for it. -/
theorem fits_field {fits : Val X → Prop} (hzero : fits .zero) {i count : ℕ} (hi : i < count)
    {current : Val X}
    (h : ∀ vs, current = .struct vs → i < vs.length ∧ fits (vs.getD i .zero)) :
    i < (current.fields count).length ∧ fits ((current.fields count).getD i .zero) := by
  cases current with
  | struct vs => exact h vs rfl
  | _ =>
    refine ⟨(length_replicate (a := Val.zero) (n := count)).symm ▸ hi, ?_⟩
    have hfield : ((Val.zero : Val X).fields count).getD i .zero = .zero := fields_zero_getD _ _
    exact hfield.symm ▸ hzero

/-- **The text at the end of a path can be told from the value of the whole.** A value that is
decoded again has to fit the path: there are places for the fields. -/
theorem Takes.tells {x : ℕ × T} (h : Takes c.types x path) (hc : Tame c) :
    ∃ (text : Bool → Bytes) (val : Bool → Val X) (get : Val X → Val X) (fits : Val X → Prop),
      val true ≠ val false ∧ fits .zero ∧ ∀ form ns n current mode r, fits current →
        (c.withForm form).setFieldByType n x.1 x.2 current ns 0 mode = .ok r → fits r.val ∧
          ∀ value b, Spelled form (place value path ns) value (text b) →
            get r.val = val b ∧ r.set = true := by
  induction h with
  | leaf hview =>
    obtain ⟨text, val, hne, hval⟩ := hc.texts _ hview
    exact ⟨text, val, id, fun _ => True, hne, trivial, fun form ns n current mode r _ hr =>
      ⟨trivial, fun value b hb => val_of_read hview (hval b mode) hb.lookup hr⟩⟩
  | @ptr d t elem path hview _ ih =>
    obtain ⟨text, val, get, fits, hne, hzero, hih⟩ := ih
    refine ⟨text, val, fun v => get v.deref, fun v => ∀ w, v = .ptr w → fits w, hne, nofun, ?_⟩
    intro form ns n current mode r hfits hr
    obtain ⟨n, rfl⟩ := exists_succ_of_ok hr
    rw [setFieldByType_ptr (c := c.withForm form) hview] at hr
    rcases setPtr_cases hr with ⟨v, r', rfl, hr', rfl⟩ | ⟨hnil, r', hr', rfl⟩
    · obtain ⟨hfits', htold⟩ := hih form ns n v mode r' (hfits v rfl) hr'
      exact ⟨fun w hw => Val.ptr.inj hw ▸ hfits', htold⟩
    · obtain ⟨hfits', htold⟩ := hih form ns n .zero mode r' hzero hr'
      refine ⟨fun w hw => ?_, fun value b hb => ?_⟩
      · dsimp only at hw
        split at hw
        · exact Val.ptr.inj hw ▸ hfits'
        · exact absurd hw (hnil w)
      · obtain ⟨hget, hset⟩ := htold value b hb
        exact ⟨by rw [if_pos hset]; exact hget, hset⟩
  | @elem d t elem path hview _ ih =>
    obtain ⟨text, val, get, fits, hne, hzero, hih⟩ := ih
    refine ⟨text, val, fun v => get (v.elems.getD 0 .zero), fun _ => True, hne, trivial, ?_⟩
    intro form ns n current mode r _ hr
    refine ⟨trivial, fun value b hb => ?_⟩
    obtain ⟨n, rfl⟩ := exists_succ_of_ok hr
    rw [setFieldByType_slice (c := c.withForm form) hview] at hr
    obtain ⟨before, hlast⟩ := hb.keysOf c
    have hindex : ∀ ke ∈ (c.withForm form).keysOf ns, ke.ivalue = 0 := fun ke hke => by
      obtain ⟨k, hk, hentry⟩ := mem_entriesOf.mp hke
      exact hb.zero _ (mem_flatMap.mpr ⟨k, hk, hentry⟩)
    obtain ⟨r', hr', hstored⟩ := elem_of_setSlice hr hc.size hindex hlast
    obtain ⟨hget, hset⟩ := (hih form _ n .zero mode r' hzero hr').2 value b hb
    obtain ⟨hval, hset'⟩ := hstored hset
    exact ⟨(congrArg get hval).trans hget, hset'⟩
  | @field d t fields f path hview hdepth hf hcanSet _ ih =>
    obtain ⟨text, val, get, fits, hne, hzero, hih⟩ := ih
    refine ⟨text, val, fun v => get ((v.fields 0).getD f.idx .zero),
      fun v => ∀ vs, v = .struct vs → f.idx < vs.length ∧ fits (vs.getD f.idx .zero),
      hne, nofun, ?_⟩
    intro form ns n current mode r hfits hr
    obtain ⟨n, rfl⟩ := exists_succ_of_ok hr
    obtain ⟨rs, r', hmem, rfl, hlength, hvisit⟩ := visits_of_struct hr hview hdepth hf
    obtain ⟨hidx, hfits⟩ := fits_field hzero (idx_lt hf) hfits
    -- The last visit of the field is under its name, and what the first one stored still fits.
    obtain ⟨v, r₂, hv, hr₂, hval, hset⟩ : ∃ v r₂, fits v ∧
        (c.withForm form).setFieldByType n (d + 1) f.typ v (fieldNs ns f.name) 0 f.sanitizeMode =
          .ok r₂ ∧ r'.val = r₂.val ∧ (r₂.set = true → r'.set = true) := by
      rcases visitField_cases hvisit with ⟨-, hone⟩ | ⟨-, r₁, r₂, hfirst, hsecond, rfl⟩
      · rw [setField, if_pos hcanSet] at hone
        exact ⟨_, r', hfits, hone, rfl, id⟩
      · rw [setField, if_pos hcanSet] at hfirst hsecond
        refine ⟨_, r₂, (hih form ns n _ _ r₁ hfits hfirst).1, hsecond, rfl, fun hset => ?_⟩
        rw [andThen, hset, Bool.or_true]
    obtain ⟨hfits₂, htold⟩ := hih form _ n v _ r₂ hv hr₂
    have hstored := getElem?_ofFields hmem hlength hidx
    have hgetD : (((((c.withForm form).libs.sort (parseStruct fields)).zip rs).foldl storeField
        (current.fields fields.length))).getD f.idx .zero = r₂.val := by
      rw [getD_eq_getElem?_getD, hstored, Option.getD_some, hval]
    refine ⟨fun vs hvs => ?_, fun value b hb => ?_⟩
    · cases hvs
      exact ⟨(List.getElem?_eq_some_iff.mp hstored).1, hgetD.symm ▸ hfits₂⟩
    · obtain ⟨hget, hset₂⟩ := htold value b hb
      refine ⟨(congrArg get hgetD).trans hget, List.any_eq_true.mpr ⟨r', ?_, hset hset₂⟩⟩
      exact (of_mem_zip hmem).2

/-! ### Two spellings -/

/-- A form with two keys. -/
def pairForm (k k' s s' : Bytes) (h : k ≠ k') : Form where
  entries := [⟨k, [s]⟩, ⟨k', [s']⟩]
  nodupKeys := by
    rw [List.NodupKeys]
    exact nodup_cons.mpr ⟨fun hmem => h (mem_singleton.mp hmem), nodup_singleton _⟩

theorem pairForm_perm {k k' s s' : Bytes} (h : k ≠ k') :
    (pairForm k' k s' s h.symm).entries.Perm (pairForm k k' s s' h).entries := .swap _ _ _

theorem Takes.plain {x : ℕ × T} (h : Takes c.types x path) (hc : Tame c) :
    ∀ name, some name ∈ path → Plain name := by
  induction h with
  | leaf => exact nofun
  | ptr _ _ ih => exact ih
  | elem _ _ ih => exact fun name hname => ih name ((mem_cons.mp hname).resolve_left nofun)
  | field hview _ hf _ _ ih =>
    intro name hname
    rcases mem_cons.mp hname with hfirst | hrest
    · exact Option.some.inj hfirst ▸ hc.plain _ _ hview _ hf
    · exact ih name hrest

/-- Of two keys with indices that are all 0 the last one is read last. -/
theorem spelled_pairForm {k' value' u : Bytes} (hvalue : Plain value) (h : k' ≠ k)
    (hk : ∀ e ∈ brackets k, e.2 = Key.ofValue value)
    (hk' : ∀ e ∈ brackets k', e.2 = Key.ofValue value') (hzero : (Key.ofValue value).ivalue = 0)
    (hzero' : (Key.ofValue value').ivalue = 0) : Spelled (pairForm k' k u s h) k value s where
  plain := hvalue
  lookup := AList.mem_lookup_iff.mpr (mem_cons_of_mem _ (mem_singleton_self _))
  last := ⟨[k'], rfl⟩
  zero e he := by
    obtain ⟨k₁, hk₁, hmem⟩ := mem_flatMap.mp he
    rcases mem_pair.mp hk₁ with rfl | rfl
    · rw [hk' e hmem, hzero']
    · rw [hk e hmem, hzero]
  spelled := hk

/-- A tame type is decoded from a form with short lists whose indices are all 0. -/
theorem exists_decode (hc : Tame c) (hlist : ∀ e ∈ c.form.entries, e.2.length ≤ 1)
    (hzero : ∀ e ∈ c.form.keys.flatMap brackets, e.2.ivalue = 0) (t : T) :
    ∃ n r, c.decode n t = .ok r := by
  obtain ⟨n, r, hr, -⟩ := safe_of_fine (c := c) (t := t) fun p _ => {
    settles := hc.settles p.typ
    quiet := hc.quiet (p.depth, p.typ)
    list_le := fun elem _ arr harr => by
      have hle := hlist ⟨p.ns, arr⟩ (AList.mem_lookup_iff.mp harr)
      have hsize := hc.size
      dsimp only at hle
      omega
    index_lt := fun elem _ i hi => by
      obtain ⟨ke, hke, hivalue⟩ := hi.exists_mem
      obtain ⟨k, hk, hmem⟩ := mem_entriesOf.mp hke
      have hindex := hzero _ (mem_flatMap.mpr ⟨k, hk, hmem⟩)
      dsimp only at hindex
      omega }
  exact ⟨n, r, hr⟩

/-- **If something in a slice can be set, then the order of two keys matters.** -/
theorem notMem_of_agree (hc : Tame c) {t : T} (hpath : Takes c.types (0, t) path)
    (h : ∀ form form' : Form, form'.entries.Perm form.entries →
      Agree (c.withForm form) (c.withForm form') t) : none ∉ path := by
  intro hnone
  obtain ⟨text, val, get, fits, hne, hzero, htells⟩ := hpath.tells hc
  -- The keys of the path, with their indices spelled in two ways.
  have hspelled (value : Bytes) (hvalue : Plain value) :
      (brackets (place value path [])).map Prod.snd =
        List.replicate (path.count none) (Key.ofValue value) :=
    map_brackets_place hvalue (hpath.plain hc) []
  have hentries (value : Bytes) (hvalue : Plain value) :
      ∀ e ∈ brackets (place value path []), e.2 = Key.ofValue value := fun e he =>
    eq_of_mem_replicate (hspelled value hvalue ▸ mem_map_of_mem he)
  have hone : Plain (utf8 "0") := ⟨by decide, by decide⟩
  have htwo : Plain (utf8 "00") := ⟨by decide, by decide⟩
  have hdiffer : place (utf8 "0") path [] ≠ place (utf8 "00") path [] := by
    intro heq
    have hreplicate := (hspelled _ hone).symm.trans (heq ▸ hspelled _ htwo)
    have hcount := count_pos_iff.mpr hnone
    rw [replicate_inj] at hreplicate
    exact absurd (hreplicate.2.resolve_left (by omega)) (by decide)
  have hlast := spelled_pairForm (s := text true) (u := text false) htwo hdiffer (hentries _ htwo)
    (hentries _ hone) (by decide) (by decide)
  have hlast' := spelled_pairForm (s := text false) (u := text true) hone hdiffer.symm
    (hentries _ hone) (hentries _ htwo) (by decide) (by decide)
  obtain ⟨n, r, hr⟩ := exists_decode (c := c.withForm (pairForm _ _ _ _ hdiffer)) { hc with }
    (fun e he => by rcases mem_pair.mp he with rfl | rfl <;> exact le_rfl) hlast.zero t
  obtain ⟨r', hr', hsame⟩ := (h _ _ (pairForm_perm hdiffer) n).1 r hr
  have htrue := (htells _ _ _ _ _ _ hzero hr).2 _ _ hlast
  have hfalse := (htells _ _ _ _ _ _ hzero hr').2 _ _ hlast'
  exact hne (htrue.1.symm.trans (hsame.val ▸ hfalse.1))

/-- **When decoding does not depend on the order of the keys**: with a form in which no index is
spelled in two ways at a slice that the decoder may come to and in which something can be set, and,
if the types are tame, with every form for exactly those destinations in which nothing in a slice
can be set. -/
theorem decode_perm_iff (c : Ctx T X) (t : T) :
    ((∀ p, Relation.ReflTransGen (MayGo c) ⟨0, t, []⟩ p → Unambiguous c p) →
      ∀ form : Form, form.entries.Perm c.form.entries → Agree c (c.withForm form) t) ∧
    (Tame c → ((∀ form form' : Form, form'.entries.Perm form.entries →
        Agree (c.withForm form) (c.withForm form') t) ↔
      ∀ path, Takes c.types (0, t) path → none ∉ path)) := by
  refine ⟨fun hun form hperm => agree_of_perm hperm hun,
    fun hc => ⟨fun h path hpath => notMem_of_agree hc hpath h, ?_⟩⟩
  intro h form form' hperm
  refine agree_of_perm (c := c.withForm form) hperm fun q hq elem path hview hpath => ?_
  obtain ⟨path', hpath', hsub⟩ := takes_of_mayGo hq (.elem hview hpath)
  exact absurd (hsub mem_cons_self) (h path' hpath')

theorem unambiguous_twoItemsForm (p : Place Shop) : Unambiguous (shopCtx twoItemsForm) p := by
  have hall : ∀ e ∈ twoItemsForm.keys.flatMap brackets,
      ∀ e' ∈ twoItemsForm.keys.flatMap brackets, e.2.ivalue = e'.2.ivalue → e.2 = e'.2 := by
    decide +kernel
  intro elem path _ _ ke hke ke' hke' heq _
  obtain ⟨k, hk, hmem⟩ := mem_entriesOf.mp hke
  obtain ⟨k', hk', hmem'⟩ := mem_entriesOf.mp hke'
  exact hall _ (mem_flatMap.mpr ⟨k, hk, hmem⟩) _ (mem_flatMap.mpr ⟨k', hk', hmem'⟩) heq

theorem tame_shop (form : Form) : Tame (shopCtx form) where
  size := by norm_num [shopCtx]
  settles := settles_shop
  quiet x f hf := absurd hf (not_embeds_shop x f)
  plain t fields hview := by
    have hall : ∀ f ∈ parseStruct [nameField, qtyField] ++ parseStruct [itemsField],
        leftBracket ∉ f.name ∧ rightBracket ∉ f.name := by decide +kernel
    cases t with
    | item => cases hview; exact fun f hf => hall f (mem_append_left _ hf)
    | order => cases hview; exact fun f hf => hall f (mem_append_right _ hf)
    | _ => cases hview
  texts t htakes := by
    have hne : utf8 "1" ≠ utf8 "0" := by decide
    cases t with
    | text =>
      refine ⟨fun b => if b then utf8 "1" else utf8 "0",
        fun b => .str (if b then utf8 "1" else utf8 "0"), fun h => hne (Val.str.inj h), ?_⟩
      rintro (_ | _) (_ | _ | _) <;> rfl
    | number =>
      refine ⟨fun b => if b then utf8 "1" else utf8 "0", fun b => .int b.toNat, nofun, ?_⟩
      rintro (_ | _) (_ | _ | _) <;> rfl
    | _ => exact htakes.elim

/-- An item has no slices. -/
theorem notMem_of_takes_item (h : Takes shopTypes (0, .item) path) : none ∉ path := by
  have htyp : ∀ f ∈ parseStruct [nameField, qtyField], f.typ = .text ∨ f.typ = .number := by
    decide +kernel
  cases h with
  | leaf hview => exact hview.elim
  | ptr hview | elem hview => cases hview
  | @field _ _ _ f _ hview _ hf _ hrest =>
    cases hview
    have htyp := htyp f hf
    generalize f.typ = t at htyp hrest
    rcases htyp with rfl | rfl <;> cases hrest with
    | leaf => simp
    | ptr hview | elem hview | field hview => cases hview

/-- The form of the two items, in the opposite order. -/
def twoItemsReversed : Form where
  entries := twoItemsForm.entries.reverse
  nodupKeys := by
    rw [List.NodupKeys, List.keys, map_reverse, nodup_reverse]
    exact twoItemsForm.nodupKeys

/-- Two items are decoded alike in the opposite order. An order with items depends on the order for
some form, and an item does not for any. -/
theorem order_matters_for_items :
    (∃ r, (shopCtx twoItemsReversed).decode 8 .order = .ok r ∧ r.val = twoItems ∧ r.errs = []) ∧
    (¬ ∀ form form' : Form, form'.entries.Perm form.entries →
      Agree (shopCtx form) (shopCtx form') .order) ∧
    ∀ form form' : Form, form'.entries.Perm form.entries →
      Agree (shopCtx form) (shopCtx form') .item := by
  refine ⟨?_, fun h => ?_, ?_⟩
  · obtain ⟨r, hr, hsame⟩ := ((decode_perm_iff (shopCtx twoItemsForm) .order).1
      (fun p _ => unambiguous_twoItemsForm p) twoItemsReversed (reverse_perm _) 8).1 _ rfl
    exact ⟨r, hr, hsame.val, hsame.errs.eq_nil⟩
  · refine ((decode_perm_iff (shopCtx ∅) .order).2 (tame_shop ∅)).mp h
      [some (utf8 "items"), none, some (utf8 "name")] ?_ (by simp)
    have hitem : shopTypes.view .item = .struct [nameField, qtyField] := rfl
    have horder : shopTypes.view .order = .struct [itemsField] := rfl
    exact .field horder (Nat.zero_le _) mem_cons_self rfl (.elem rfl
      (.field hitem (by decide) mem_cons_self rfl (.leaf trivial)))
  · refine ((decode_perm_iff (shopCtx ∅) .item).2 (tame_shop ∅)).mpr fun path hpath => ?_
    exact notMem_of_takes_item hpath

/-- One item under two spellings of its index. -/
def spelledForm (first second : String) (h : utf8 first ≠ utf8 second) : Form :=
  pairForm (utf8 first) (utf8 second) (utf8 first) (utf8 second) h

theorem spelled_order_matters :
    (spelledForm "items[00].name" "items[0].name" (by decide)).entries.Perm
      (spelledForm "items[0].name" "items[00].name" (by decide)).entries ∧
    (shopCtx (spelledForm "items[0].name" "items[00].name" (by decide))).decode 8
      .order = .ok ⟨.struct [.slice [.struct [.str (utf8 "items[00].name"), .zero]]], true, []⟩ ∧
    (shopCtx (spelledForm "items[00].name" "items[0].name" (by decide))).decode 8
      .order = .ok ⟨.struct [.slice [.struct [.str (utf8 "items[0].name"), .zero]]], true, []⟩ :=
  ⟨.swap _ _ _, rfl, rfl⟩

end Kiya.Decoder
