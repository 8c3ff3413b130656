import Kiya.Decoder.Decode

/-!
# The canonical form of a value

A value of a type that is built from texts, numbers, truth values, structs and slices has a form
that maps every leaf to its text, under the namespace of the leaf. This file defines it and shows
that it is a form: no two leaves have the same namespace. Names of fields have neither dots nor
brackets, so a key tells at every step by which field or index it goes on.
-/

namespace Kiya.Decoder

open Numeral List

variable {T X : Type}

/-! ### Entries -/

/-- The namespace of an element. -/
def elemNs (ns : Bytes) (i : ℕ) : Bytes :=
  ns ++ leftBracket :: (formatNat i ++ [rightBracket])

/-- The text of a leaf. -/
def leafText : Val X → Bytes
  | .str s => s
  | .bool b => if b then utf8 "true" else utf8 "false"
  | .int i => formatInt i
  | .uint n => formatNat n
  | _ => []

mutual

/-- The leaves of a value, with their namespaces and texts. -/
def entries (U : Types T) (t : T) : Val X → Bytes → List (Bytes × Bytes)
  | .slice vs, ns =>
    match U.view t with
    | .slice elem => elemEntries U elem vs 0 ns
    | _ => []
  | .struct vs, ns =>
    match U.view t with
    | .struct fields => fieldEntries U vs fields ns
    | _ => []
  | v, ns => [(ns, leafText v)]

/-- The leaves of elements, from an index on. -/
def elemEntries (U : Types T) (elem : T) : List (Val X) → ℕ → Bytes → List (Bytes × Bytes)
  | [], _, _ => []
  | v :: vs, i, ns => entries U elem v (elemNs ns i) ++ elemEntries U elem vs (i + 1) ns

/-- The leaves of fields. -/
def fieldEntries (U : Types T) : List (Val X) → List (StructField T) → Bytes → List (Bytes × Bytes)
  | v :: vs, f :: fields, ns =>
    entries U f.typ v (fieldNs ns f.formName) ++ fieldEntries U vs fields ns
  | _, _, _ => []

end

/-! ### Which values have a canonical form -/

/-- A field that is decoded, once and as it is, under a name without dots and brackets. -/
structure IsFormField (f : StructField T) : Prop where
  exported : f.exported = true
  not_anonymous : f.anonymous = false
  not_skipped : (parseTag f.tag).1 ≠ utf8 "-"
  raw : (parseTag f.tag).2 = .raw
  dot_notMem : dot ∉ f.formName
  plain : Plain f.formName

/-- A value that has a canonical form: its texts are trimmed, its slices not empty and not too long,
and each of their elements has a leaf. Structs are nested up to a given depth, and leaves are within
a field, which says how they are cleaned. -/
inductive HasForm (U : Types T) (maxArraySize : ℤ) : ℕ → Bool → T → Val X → Prop
  | str {d : ℕ} {t : T} {s : Bytes} : U.view t = .string → Strings.trimSpace s = s →
    HasForm U maxArraySize d true t (.str s)
  | bool {d : ℕ} {t : T} {b : Bool} : U.view t = .bool → HasForm U maxArraySize d true t (.bool b)
  | int {d : ℕ} {t : T} {w : Width} {i : ℤ} : U.view t = .int w → -2 ^ (w.bits - 1) ≤ i →
    i < 2 ^ (w.bits - 1) → HasForm U maxArraySize d true t (.int i)
  | uint {d : ℕ} {t : T} {w : Width} {n : ℕ} : U.view t = .uint w → n < 2 ^ w.bits →
    HasForm U maxArraySize d true t (.uint n)
  | slice {d : ℕ} {within : Bool} {t elem : T} {vs : List (Val X)} : U.view t = .slice elem →
    vs ≠ [] → (vs.length : ℤ) ≤ maxArraySize →
    (∀ v ∈ vs, HasForm U maxArraySize d within elem v) →
    (∀ v ∈ vs, entries U elem v [] ≠ []) → HasForm U maxArraySize d within t (.slice vs)
  | struct {d : ℕ} {within : Bool} {t : T} {fields : List (StructField T)} {vs : List (Val X)} :
    U.view t = .struct fields → (fields.map StructField.formName).Nodup →
    (∀ f ∈ fields, IsFormField f) → vs.length = fields.length →
    (∀ (i : ℕ) (f : StructField T) (v : Val X), fields[i]? = some f → vs[i]? = some v →
      HasForm U maxArraySize d true f.typ v) →
    HasForm U maxArraySize (d + 1) within t (.struct vs)

variable {U : Types T} {maxArraySize : ℤ}

theorem formName_ne_nil (f : StructField T) : f.formName ≠ [] := by
  rw [StructField.formName]
  split
  · exact f.name_ne
  · rename_i h
    exact h

/-! ### Entries of slices and structs -/

theorem elemEntries_eq (elem : T) (vs : List (Val X)) (i : ℕ) (ns : Bytes) :
    elemEntries U elem vs i ns =
      (vs.zipIdx i).flatMap fun p => entries U elem p.1 (elemNs ns p.2) := by
  induction vs generalizing i with
  | nil => rfl
  | cons v vs ih => rw [elemEntries, ih, zipIdx_cons, flatMap_cons]

theorem fieldEntries_eq (vs : List (Val X)) (fields : List (StructField T)) (ns : Bytes) :
    fieldEntries U vs fields ns =
      (vs.zip fields).flatMap fun p => entries U p.2.typ p.1 (fieldNs ns p.2.formName) := by
  induction vs generalizing fields with
  | nil => rfl
  | cons v vs ih =>
    cases fields with
    | nil => rfl
    | cons f fields => rw [fieldEntries, ih, zip_cons_cons, flatMap_cons]

theorem entries_slice {t elem : T} (h : U.view t = .slice elem) (vs : List (Val X)) (ns : Bytes) :
    entries U t (.slice vs) ns = vs.zipIdx.flatMap fun p => entries U elem p.1 (elemNs ns p.2) := by
  rw [entries, h, ← elemEntries_eq]

variable {t : T} {ns k : Bytes} {e : Bytes × Bytes} {d : ℕ} {within : Bool} {v : Val X}
  {fields : List (StructField T)} {vs : List (Val X)}

theorem entries_struct (h : U.view t = .struct fields) (vs : List (Val X)) (ns : Bytes) :
    entries U t (.struct vs) ns =
      (vs.zip fields).flatMap fun p => entries U p.2.typ p.1 (fieldNs ns p.2.formName) := by
  rw [entries, h, ← fieldEntries_eq]

theorem mem_entries_slice {t elem : T} (h : U.view t = .slice elem) :
    e ∈ entries U t (.slice vs) ns ↔
      ∃ i v, vs[i]? = some v ∧ e ∈ entries U elem v (elemNs ns i) := by
  rw [entries_slice h, mem_flatMap]
  constructor
  · rintro ⟨p, hp, he⟩
    exact ⟨p.2, p.1, mem_zipIdx_iff_getElem?.mp hp, he⟩
  · rintro ⟨i, v, hv, he⟩
    exact ⟨(v, i), mem_zipIdx_iff_getElem?.mpr hv, he⟩

theorem mem_entries_struct (h : U.view t = .struct fields) :
    e ∈ entries U t (.struct vs) ns ↔ ∃ (i : ℕ) (f : StructField T) (v : Val X),
      fields[i]? = some f ∧ vs[i]? = some v ∧ e ∈ entries U f.typ v (fieldNs ns f.formName) := by
  rw [entries_struct h, mem_flatMap]
  constructor
  · rintro ⟨p, hp, he⟩
    obtain ⟨i, hi⟩ := mem_iff_getElem?.mp hp
    rw [getElem?_zip_eq_some] at hi
    exact ⟨i, p.2, p.1, hi.2, hi.1, he⟩
  · rintro ⟨i, f, v, hf, hv, he⟩
    exact ⟨(v, f), mem_iff_getElem?.mpr ⟨i, getElem?_zip_eq_some.mpr ⟨hv, hf⟩⟩, he⟩

/-! ### Namespaces -/

/-- What may follow a namespace: nothing, a field or an index. -/
def Continues (s : Bytes) : Prop := ∀ b ∈ s.head?, b = dot ∨ b = leftBracket

/-- A key under a namespace; every key is under the empty one. -/
def Below (ns k : Bytes) : Prop := ∃ s, k = ns ++ s ∧ (ns ≠ [] → Continues s)

theorem below_self (ns : Bytes) : Below ns ns :=
  ⟨[], (append_nil ns).symm, fun _ b hb => absurd hb (Option.not_mem_none b)⟩

theorem fieldNs_ne_nil {ns name : Bytes} (h : name ≠ []) : fieldNs ns name ≠ [] := by
  rw [fieldNs]
  split
  · exact h
  · exact append_ne_nil_of_right_ne_nil _ (cons_ne_nil _ _)

theorem Below.of_fieldNs {ns name k : Bytes} (h : Below (fieldNs ns name) k) : Below ns k := by
  obtain ⟨s, rfl, -⟩ := h
  by_cases hns : ns = []
  · exact ⟨fieldNs ns name ++ s, by rw [hns]; rfl, fun hne => absurd hns hne⟩
  · refine ⟨dot :: (name ++ s), ?_, ?_⟩
    · rw [fieldNs, if_neg hns, append_assoc, cons_append]
    · rintro - b ⟨⟩
      exact .inl rfl

theorem Below.of_elemNs {i : ℕ} (h : Below (elemNs ns i) k) : Below ns k := by
  obtain ⟨s, rfl, -⟩ := h
  refine ⟨leftBracket :: (formatNat i ++ [rightBracket] ++ s), ?_, ?_⟩
  · rw [elemNs, append_assoc, cons_append]
  · rintro - b ⟨⟩
    exact .inr rfl

/-- **A leaf is under the namespace of its value.** -/
theorem below_of_mem (h : HasForm U maxArraySize d within t v) (he : e ∈ entries U t v ns) :
    Below ns e.1 := by
  induction h generalizing ns e with
  | slice hview hne hlen hvs hleaf ih =>
    obtain ⟨i, v, hv, he⟩ := (mem_entries_slice hview).mp he
    exact (ih v (mem_of_getElem? hv) he).of_elemNs
  | struct hview hnodup hfields hlen hvs ih =>
    obtain ⟨i, f, v, hf, hv, he⟩ := (mem_entries_struct hview).mp he
    exact (ih i f v hf hv he).of_fieldNs
  | _ =>
    rw [mem_singleton.mp he]
    exact below_self ns

/-- The name of a field ends where something else begins. -/
theorem name_inj {n m s s' : Bytes} (hn : dot ∉ n ∧ leftBracket ∉ n)
    (hm : dot ∉ m ∧ leftBracket ∉ m)
    (hs : Continues s) (hs' : Continues s') (h : n ++ s = m ++ s') : n = m := by
  induction n generalizing m with
  | nil =>
    cases m with
    | nil => rfl
    | cons b m =>
      have hhead : b ∈ s.head? := by
        rw [← nil_append s, h]
        rfl
      rcases hs b hhead with rfl | rfl
      · exact absurd mem_cons_self hm.1
      · exact absurd mem_cons_self hm.2
  | cons b n ih =>
    cases m with
    | nil =>
      have hhead : b ∈ s'.head? := by
        rw [← nil_append s', ← h]
        rfl
      rcases hs' b hhead with rfl | rfl
      · exact absurd mem_cons_self hn.1
      · exact absurd mem_cons_self hn.2
    | cons b' m =>
      obtain ⟨hb, hrest⟩ := List.cons.inj h
      rw [hb, ih ⟨fun hmem => hn.1 (mem_cons_of_mem _ hmem),
        fun hmem => hn.2 (mem_cons_of_mem _ hmem)⟩
        ⟨fun hmem => hm.1 (mem_cons_of_mem _ hmem),
        fun hmem => hm.2 (mem_cons_of_mem _ hmem)⟩ hrest]

/-- **A key is under one field only.** -/
theorem formName_eq_of_below {f g : StructField T} (hf : IsFormField f) (hg : IsFormField g)
    (hkf : Below (fieldNs ns f.formName) k) (hkg : Below (fieldNs ns g.formName) k) :
    f.formName = g.formName := by
  obtain ⟨s, hs, hcs⟩ := hkf
  obtain ⟨s', hs', hcs'⟩ := hkg
  have hs := hs.symm.trans hs'
  refine name_inj ⟨hf.dot_notMem, hf.plain.1⟩ ⟨hg.dot_notMem, hg.plain.1⟩
    (hcs (fieldNs_ne_nil (formName_ne_nil f))) (hcs' (fieldNs_ne_nil (formName_ne_nil g))) ?_
  by_cases hns : ns = []
  · rwa [fieldNs, if_pos hns, fieldNs, if_pos hns] at hs
  · rw [fieldNs, if_neg hns, fieldNs, if_neg hns, append_assoc, append_assoc] at hs
    exact (List.cons.inj (append_cancel_left hs)).2

theorem plain_formatNat (n : ℕ) : Plain (formatNat n) :=
  plain_of_parseNat (parseNat_formatNat n)

/-- **A key is under one element only.** -/
theorem eq_of_below_elemNs {i j : ℕ} (hi : Below (elemNs ns i) k)
    (hj : Below (elemNs ns j) k) : i = j := by
  obtain ⟨s, rfl, -⟩ := hi
  obtain ⟨s', hs', -⟩ := hj
  rw [elemNs, elemNs, append_assoc, append_assoc, cons_append, cons_append,
    append_assoc, append_assoc] at hs'
  exact formatNat_injective (plain_append_inj (plain_formatNat i) (plain_formatNat j)
    (List.cons.inj (append_cancel_left hs')).2).1

/-! ### The form -/

/-- Whether a value has leaves does not depend on the namespace. -/
theorem entries_eq_nil_iff (h : HasForm U maxArraySize d within t v) (ns ns' : Bytes) :
    entries U t v ns = [] ↔ entries U t v ns' = [] := by
  induction h generalizing ns ns' with
  | slice hview hne hlen hvs hleaf ih =>
    rw [entries_slice hview, entries_slice hview, flatMap_eq_nil_iff, flatMap_eq_nil_iff]
    refine forall₂_congr fun p hp => ih p.1 ?_ _ _
    exact mem_of_getElem? (mem_zipIdx_iff_getElem?.mp hp)
  | struct hview hnodup hfields hlen hvs ih =>
    rw [entries_struct hview, entries_struct hview, flatMap_eq_nil_iff, flatMap_eq_nil_iff]
    refine forall₂_congr fun p hp => ?_
    obtain ⟨i, hi⟩ := mem_iff_getElem?.mp hp
    rw [getElem?_zip_eq_some] at hi
    exact ih i p.2 p.1 hi.2 hi.1 _ _
  | _ => exact iff_of_false (cons_ne_nil _ _) (cons_ne_nil _ _)

/-- **No two leaves have the same namespace.** -/
theorem nodup_entries (h : HasForm U maxArraySize d within t v) (ns : Bytes) :
    ((entries U t v ns).map Prod.fst).Nodup := by
  induction h generalizing ns with
  | @slice d within t elem vs hview hne hlen hvs hleaf ih =>
    rw [entries_slice hview, map_flatMap, nodup_flatMap]
    refine ⟨fun p hp => ih p.1 (mem_of_getElem? (mem_zipIdx_iff_getElem?.mp hp)) _, ?_⟩
    rw [pairwise_iff_getElem]
    intro i j hi hj hij k hki hkj
    rw [length_zipIdx] at hi hj
    simp only [getElem_zipIdx, zero_add] at hki hkj
    obtain ⟨e, he, rfl⟩ := mem_map.mp hki
    obtain ⟨e', he', heq⟩ := mem_map.mp hkj
    have hbelow := below_of_mem (hvs _ (getElem_mem hi)) he
    have hbelow' := below_of_mem (hvs _ (getElem_mem hj)) he'
    rw [heq] at hbelow'
    exact absurd (eq_of_below_elemNs hbelow hbelow') hij.ne
  | @struct d within t fields vs hview hnodup hfields hlen hvs ih =>
    rw [entries_struct hview, map_flatMap, nodup_flatMap]
    constructor
    · intro p hp
      obtain ⟨i, hi⟩ := mem_iff_getElem?.mp hp
      rw [getElem?_zip_eq_some] at hi
      exact ih i p.2 p.1 hi.2 hi.1 _
    · rw [pairwise_iff_getElem]
      intro i j hi hj hij k hki hkj
      rw [length_zip, lt_min_iff] at hi hj
      simp only [getElem_zip] at hki hkj
      obtain ⟨e, he, rfl⟩ := mem_map.mp hki
      obtain ⟨e', he', heq⟩ := mem_map.mp hkj
      have hbelow := below_of_mem (hvs i _ _ (getElem?_eq_getElem hi.2)
        (getElem?_eq_getElem hi.1)) he
      have hbelow' := below_of_mem (hvs j _ _ (getElem?_eq_getElem hj.2)
        (getElem?_eq_getElem hj.1)) he'
      rw [heq] at hbelow'
      have hname := formName_eq_of_below (hfields _ (getElem_mem hi.2))
        (hfields _ (getElem_mem hj.2)) hbelow hbelow'
      have hfield := inj_on_of_nodup_map hnodup (getElem_mem hi.2)
        (getElem_mem hj.2) hname
      exact hij.ne (hnodup.of_map.getElem_inj_iff.mp hfield)
  | _ => exact nodup_singleton _

/-- **The canonical form of a value.** -/
def encodeForm {d : ℕ} {within : Bool} {t : T} {v : Val X}
    (h : HasForm U maxArraySize d within t v) : Form where
  entries := (entries U t v []).map fun e => ⟨e.1, [e.2]⟩
  nodupKeys := by
    rw [List.NodupKeys, List.keys, map_map]
    exact nodup_entries h []

end Kiya.Decoder
