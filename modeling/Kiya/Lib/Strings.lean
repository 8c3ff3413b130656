import Kiya.Lib.Bytes

/-!
# Texts of UTF-8

White space is trimmed as a decoder of UTF-8 sees it: at both ends of a text, what is the encoding
of a space. Bytes that are no encoding of anything are left alone.
-/

namespace Strings

open List

/-- The encodings of the characters that are white space. -/
def spaces : List Bytes :=
  [[9], [10], [11], [12], [13], [32], [0xc2, 0x85], [0xc2, 0xa0], [0xe1, 0x9a, 0x80],
    [0xe2, 0x80, 0x80], [0xe2, 0x80, 0x81], [0xe2, 0x80, 0x82], [0xe2, 0x80, 0x83],
    [0xe2, 0x80, 0x84], [0xe2, 0x80, 0x85], [0xe2, 0x80, 0x86], [0xe2, 0x80, 0x87],
    [0xe2, 0x80, 0x88], [0xe2, 0x80, 0x89], [0xe2, 0x80, 0x8a], [0xe2, 0x80, 0xa8],
    [0xe2, 0x80, 0xa9], [0xe2, 0x80, 0xaf], [0xe2, 0x81, 0x9f], [0xe3, 0x80, 0x80]]

/-- Drop what is at the start, as often as one of the given texts is there. -/
def dropAny (ts : List Bytes) : ℕ → Bytes → Bytes
  | 0, s => s
  | n + 1, s =>
    match ts.find? fun t => t.isPrefixOf s with
    | none => s
    | some t => dropAny ts n (s.drop t.length)

/-- Without white space at the start. -/
def trimLeft (s : Bytes) : Bytes := dropAny spaces s.length s

/-- Without white space at the end. -/
def trimRight (s : Bytes) : Bytes :=
  (dropAny (spaces.map List.reverse) s.length s.reverse).reverse

/-- Without white space at both ends. -/
def trimSpace (s : Bytes) : Bytes := trimRight (trimLeft s)

/-- Whether a text is a given word of small letters (other than k) when its letters are made small:
apart from the capital ones there is a dotted capital I. -/
def lowersTo : Bytes → Bytes → Bool
  | [], s => s.isEmpty
  | _ :: _, [] => false
  | c :: word, b :: s =>
    if b = c ∨ (65 ≤ b ∧ b ≤ 90 ∧ b + 32 = c) then lowersTo word s
    else if c = 105 ∧ b = 0xc4 ∧ s.head? = some 0xb0 then lowersTo word s.tail
    else false

/-- A visible character of ASCII. -/
def IsVisible (b : UInt8) : Prop := 33 ≤ b ∧ b ≤ 126

instance : DecidablePred IsVisible := fun _ => inferInstanceAs (Decidable (_ ∧ _))

variable {ts : List Bytes} {s : Bytes} {mark : UInt8}

theorem dropAny_of_visible (hts : ∀ t ∈ ts, ∃ b ∈ t, ¬ IsVisible b) (hs : ∀ b ∈ s, IsVisible b)
    (n : ℕ) : dropAny ts n s = s := by
  cases n with
  | zero => rfl
  | succ n =>
    rw [dropAny, find?_eq_none.mpr]
    intro t ht hprefix
    obtain ⟨b, hb, hnot⟩ := hts t ht
    exact hnot (hs b ((List.isPrefixOf_iff_prefix.mp hprefix).subset hb))

/-- **A text of visible characters has nothing to trim.** -/
theorem trimSpace_of_visible (hs : ∀ b ∈ s, IsVisible b) : trimSpace s = s := by
  rw [trimSpace, trimLeft, dropAny_of_visible (by decide) hs, trimRight,
    dropAny_of_visible (by decide) fun b hb => hs b (mem_reverse.mp hb), reverse_reverse]

/-! ### What is trimmed -/

/-- What is dropped are some of the texts. -/
theorem exists_dropAny (ts : List Bytes) (n : ℕ) (s : Bytes) :
    ∃ ws : List Bytes, (∀ w ∈ ws, w ∈ ts) ∧ s = ws.flatten ++ dropAny ts n s := by
  induction n generalizing s with
  | zero => exact ⟨[], nofun, rfl⟩
  | succ n ih =>
    rw [dropAny]
    cases hfind : ts.find? fun t => t.isPrefixOf s with
    | none => exact ⟨[], nofun, rfl⟩
    | some t =>
      obtain ⟨ws, hws, hrest⟩ := ih (s.drop t.length)
      have htrue : t.isPrefixOf s = true := find?_some (p := fun t : Bytes => t.isPrefixOf s) hfind
      obtain ⟨rest, rfl⟩ := isPrefixOf_iff_prefix.mp htrue
      refine ⟨t :: ws, forall_mem_cons.mpr ⟨mem_of_find?_eq_some hfind, hws⟩, ?_⟩
      rw [flatten_cons, append_assoc, ← hrest, drop_left]

/-- With enough rounds nothing is left to drop. -/
theorem not_prefix_dropAny (hts : [] ∉ ts) {n : ℕ} (hn : s.length ≤ n) :
    ∀ w ∈ ts, ¬ w <+: dropAny ts n s := by
  induction n generalizing s with
  | zero =>
    intro w hw hprefix
    rw [length_eq_zero_iff.mp (Nat.le_zero.mp hn)] at hprefix
    exact hts (prefix_nil.mp hprefix ▸ hw)
  | succ n ih =>
    rw [dropAny]
    cases hfind : ts.find? fun t => t.isPrefixOf s with
    | none =>
      intro w hw hprefix
      exact find?_eq_none.mp hfind w hw (List.isPrefixOf_iff_prefix.mpr hprefix)
    | some t =>
      have hne : t ≠ [] := fun hnil => hts (hnil ▸ mem_of_find?_eq_some hfind)
      have hpos := length_pos_iff.mpr hne
      exact ih (by rw [length_drop]; omega)

theorem dropAny_of_not_prefix (h : ∀ w ∈ ts, ¬ w <+: s) (n : ℕ) : dropAny ts n s = s := by
  cases n with
  | zero => rfl
  | succ n =>
    rw [dropAny, find?_eq_none.mpr]
    exact fun w hw hprefix => h w hw (List.isPrefixOf_iff_prefix.mp hprefix)

/-- What is dropped at the end is white space. -/
theorem exists_trimRight (s : Bytes) :
    ∃ us : List Bytes, (∀ u ∈ us, u ∈ spaces) ∧ s = trimRight s ++ us.flatten := by
  obtain ⟨us, hus, hdrop⟩ := exists_dropAny (spaces.map List.reverse) s.length s.reverse
  refine ⟨(us.map List.reverse).reverse, ?_, ?_⟩
  · intro u hu
    obtain ⟨u', hu', rfl⟩ := mem_map.mp (mem_reverse.mp hu)
    obtain ⟨w, hw, rfl⟩ := mem_map.mp (hus u' hu')
    rwa [reverse_reverse]
  · rw [← reverse_flatten, trimRight, ← reverse_append, ← hdrop, reverse_reverse]

/-- **A text is white space around what is left when it is trimmed.** -/
theorem exists_trimSpace (s : Bytes) :
    ∃ ws us : List Bytes, (∀ w ∈ ws, w ∈ spaces) ∧ (∀ u ∈ us, u ∈ spaces) ∧
      s = ws.flatten ++ (trimSpace s ++ us.flatten) := by
  obtain ⟨ws, hws, hleft⟩ := exists_dropAny spaces s.length s
  obtain ⟨us, hus, hright⟩ := exists_trimRight (trimLeft s)
  refine ⟨ws, us, hws, hus, ?_⟩
  rwa [trimSpace, ← hright]

/-- No white space is left at the start. -/
theorem not_prefix_trimSpace (s : Bytes) : ∀ w ∈ spaces, ¬ w <+: trimSpace s := by
  intro w hw hpre
  obtain ⟨us, -, hright⟩ := exists_trimRight (trimLeft s)
  exact not_prefix_dropAny (by decide) le_rfl w hw (hpre.trans ⟨us.flatten, hright.symm⟩)

@[simp]
theorem trimSpace_trimSpace (s : Bytes) : trimSpace (trimSpace s) = trimSpace s := by
  have hright : ∀ w ∈ spaces.map List.reverse, ¬ w <+: (trimSpace s).reverse := by
    rw [trimSpace, trimRight, reverse_reverse]
    exact not_prefix_dropAny (by decide) length_reverse.le
  conv_lhs => rw [trimSpace, trimLeft, dropAny_of_not_prefix (not_prefix_trimSpace s), trimRight,
    dropAny_of_not_prefix hright, reverse_reverse]

theorem mem_of_mem_trimSpace {b : UInt8} (h : b ∈ trimSpace s) : b ∈ s := by
  obtain ⟨ws, us, -, -, hsplit⟩ := exists_trimSpace s
  rw [hsplit]
  exact mem_append_right _ (mem_append_left _ h)

/-- What follows a mark does not make white space at the start. -/
theorem not_prefix_append (hmark : ∀ w ∈ spaces, mark ∉ w) {t y : Bytes}
    (hy : ∀ b ∈ y.head?, b = mark) (ht : ∀ w ∈ spaces, ¬ w <+: t) :
    ∀ w ∈ spaces, ¬ w <+: t ++ y := by
  intro w hw hpre
  rcases prefix_or_prefix_of_prefix hpre (prefix_append t y) with hle | ⟨r, rfl⟩
  · exact ht w hw hle
  · obtain _ | ⟨b, r⟩ := r
    · rw [append_nil] at hw
      exact ht t hw prefix_rfl
    · obtain ⟨z, rfl⟩ := (prefix_append_right_inj t).mp hpre
      have hb : b = mark := hy b rfl
      exact hmark _ hw (hb ▸ mem_append_right t mem_cons_self)

/-- **Where a text and its trimmed form go on in the same way, nothing was trimmed.** What follows
is nothing, or something after a mark that is no part of white space; in place of an empty text
there may be any other. -/
theorem trimSpace_eq_of_append_eq (hmark : ∀ w ∈ spaces, mark ∉ w)
    {s t x y : Bytes} (h : s ++ x = t ++ y) (hy : ∀ b ∈ y.head?, b = mark)
    (ht : ∀ w ∈ spaces, ¬ w <+: t) (hs : trimSpace s = t ∨ trimSpace s = []) : trimSpace s = s := by
  have hstart : ∀ w ∈ spaces, ¬ w <+: t ++ y := not_prefix_append hmark hy ht
  obtain ⟨ws, us, hws, hus, hsplit⟩ := exists_trimSpace s
  obtain _ | ⟨w, ws⟩ := ws
  · rw [flatten_nil, nil_append] at hsplit
    obtain _ | ⟨u, us⟩ := us
    · rw [flatten_nil, append_nil] at hsplit
      exact hsplit.symm
    · have hu : u ∈ spaces := hus u mem_cons_self
      rw [flatten_cons] at hsplit
      rcases hs with hs | hs
      · rw [hsplit, hs, append_assoc, append_cancel_left_eq] at h
        obtain _ | ⟨b, u⟩ := u
        · exact absurd hu (by decide)
        · have hb : b = mark := hy b (h ▸ rfl)
          exact absurd (hb ▸ mem_cons_self) (hmark _ hu)
      · rw [hs, nil_append] at hsplit
        refine absurd ?_ (hstart u hu)
        rw [← h, hsplit, append_assoc]
        exact prefix_append _ _
  · refine absurd ?_ (hstart w (hws w mem_cons_self))
    rw [← h, hsplit, flatten_cons, append_assoc, append_assoc]
    exact prefix_append _ _

/-! ### Parts between marks -/

theorem notMem_of_mem_splitOn {α : Type} [BEq α] [LawfulBEq α] {mark : α} {s x : List α}
    (h : x ∈ s.splitOn mark) : mark ∉ x := by
  induction hn : s.length using Nat.strong_induction_on generalizing s with
  | _ n ih =>
    by_cases hmark : mark ∈ s
    · obtain ⟨before, after, rfl, hbefore⟩ := eq_append_cons_of_mem hmark
      rw [splitOn_append_cons_self, splitOn_eq_singleton hbefore, singleton_append, mem_cons] at h
      rw [length_append, length_cons] at hn
      rcases h with rfl | h
      · exact hbefore
      · exact ih after.length (by omega) h rfl
    · rw [splitOn_eq_singleton hmark, mem_singleton] at h
      rwa [h]

/-- What is in front of the first mark, and what is behind it. -/
theorem append_mark_inj {x x' y y' : Bytes} (hx : mark ∉ x) (hx' : mark ∉ x')
    (h : x ++ mark :: y = x' ++ mark :: y') : x = x' ∧ y = y' := by
  rcases append_eq_append_iff.mp h with ⟨r, rfl, hr⟩ | ⟨r, rfl, hr⟩
  · obtain _ | ⟨c, r⟩ := r
    · exact ⟨(append_nil x).symm, (List.cons.inj hr).2⟩
    · obtain ⟨rfl, -⟩ := List.cons.inj hr
      exact absurd (mem_append_right _ mem_cons_self) hx'
  · obtain _ | ⟨c, r⟩ := r
    · exact ⟨append_nil x', (List.cons.inj hr).2.symm⟩
    · obtain ⟨rfl, -⟩ := List.cons.inj hr
      exact absurd (mem_append_right _ mem_cons_self) hx

/-- Two parts, and no more. -/
theorem splitOn_eq_pair_iff {s x y : Bytes} :
    s.splitOn mark = [x, y] ↔ s = x ++ mark :: y ∧ mark ∉ x ∧ mark ∉ y := by
  constructor
  · intro h
    have hs : [mark].intercalate (s.splitOn mark) = s := intercalate_splitOn mark
    rw [h] at hs
    refine ⟨hs.symm.trans (by simp [List.intercalate]), ?_, ?_⟩
    · exact notMem_of_mem_splitOn (h ▸ mem_cons_self)
    · exact notMem_of_mem_splitOn (h ▸ mem_cons_of_mem _ mem_cons_self)
  · rintro ⟨rfl, hx, hy⟩
    rw [splitOn_append_cons_self, splitOn_eq_singleton hx, splitOn_eq_singleton hy]
    rfl

end Strings
