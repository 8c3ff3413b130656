import Kiya.Router.Tree

/-!
# Spellings of a path

`AddRoute` and `FindRoute` see a path only through `splitPath(cleanPath(path))`. These segments are
the elements that lexical cleaning leaves of the rooted path, so that none of them is empty, `.` or
`..`, and a slash at the end, a second slash, a `./` behind a slash or a missing slash at the start
makes no difference. The value of a wildcard is a number of segments joined again, and so has no
`..` in it either.
-/

namespace Kiya.Router

open SlashPath List

/-! ### Segments -/

theorem cleanPath_eq (p : Str) : cleanPath p = '/' :: ['/'].intercalate (elements true p) := by
  rw [cleanPath]
  split_ifs with hnil hroot
  · rw [hnil]
    rfl
  · exact clean_of_rooted hroot
  · rw [clean_of_rooted rfl, elements_slash]

variable {e : Str}

theorem exists_cons_of_plain (he : Plain e) : ∃ c rest, e = c :: rest ∧ c ≠ '/' := by
  obtain _ | ⟨c, rest⟩ := e
  · exact absurd rfl he.ne_nil
  · refine ⟨c, rest, rfl, ?_⟩
    rintro rfl
    exact he.no_slash mem_cons_self

theorem exists_concat_of_plain (he : Plain e) : ∃ rest c, e = rest ++ [c] ∧ c ≠ '/' := by
  obtain rfl | ⟨rest, c, rfl⟩ := eq_nil_or_concat e
  · exact absurd rfl he.ne_nil
  · refine ⟨rest, c, concat_eq_append, ?_⟩
    rintro rfl
    exact he.no_slash (by simp)

theorem exists_cons_intercalate (he : Plain e) (es : List Str) :
    ∃ c rest, ['/'].intercalate (e :: es) = c :: rest ∧ c ≠ '/' := by
  obtain ⟨c, rest, rfl, hc⟩ := exists_cons_of_plain he
  cases es with
  | nil => exact ⟨c, rest, intercalate_singleton, hc⟩
  | cons e' es => exact ⟨c, _, by rw [intercalate_cons_cons]; rfl, hc⟩

theorem exists_concat_intercalate {es : List Str} (h : ∀ x ∈ e :: es, Plain x) :
    ∃ rest c, ['/'].intercalate (e :: es) = rest ++ [c] ∧ c ≠ '/' := by
  induction es generalizing e with
  | nil =>
    rw [intercalate_singleton]
    exact exists_concat_of_plain (h e mem_cons_self)
  | cons e' es ih =>
    obtain ⟨rest, c, hrest, hc⟩ := ih (forall_mem_cons.mp h).2
    refine ⟨e ++ ['/'] ++ rest, c, ?_, hc⟩
    rw [intercalate_cons_cons, hrest, ← append_assoc]

variable {elems : List Str}

theorem splitPath_intercalate (h : ∀ e ∈ elems, Plain e) :
    splitPath ('/' :: ['/'].intercalate elems) = elems := by
  cases elems with
  | nil => rfl
  | cons e es =>
    obtain ⟨c, rest, hfirst, hc⟩ := exists_cons_intercalate (h e mem_cons_self) es
    obtain ⟨front, d, hlast, hd⟩ := exists_concat_intercalate h
    have htrim : (('/' :: ['/'].intercalate (e :: es)).dropWhile (· = '/')).rdropWhile (· = '/') =
        ['/'].intercalate (e :: es) := by
      -- only the slash in front is trimmed: the joined elements neither start nor end with one
      rw [dropWhile_cons_of_pos (by simp), hfirst, dropWhile_cons_of_neg (by simp [hc]),
        ← hfirst, hlast, rdropWhile_concat_neg _ _ _ (by simp [hd])]
    have hne : ['/'].intercalate (e :: es) ≠ [] := by
      rw [hfirst]
      exact cons_ne_nil _ _
    rw [splitPath, if_neg (fun heq => hne (List.cons.inj heq).2)]
    simp only [htrim, if_neg hne]
    exact splitOn_intercalate '/' (fun x hx => (h x hx).no_slash) (cons_ne_nil _ _)

/-- **The segments of a path are the elements that cleaning leaves.** -/
theorem segments_eq (p : Str) : segments p = elements true p := by
  rw [segments, cleanPath_eq, splitPath_intercalate fun e => plain_of_mem_elements]

theorem plain_of_mem_segments {p seg : Str} (h : seg ∈ segments p) : Plain seg := by
  rw [segments_eq] at h
  exact plain_of_mem_elements h

/-- The segments of joined segments. -/
theorem segments_intercalate (h : ∀ e ∈ elems, Plain e) :
    segments ('/' :: ['/'].intercalate elems) = elems := by
  rw [segments_eq, elements_slash, elements_intercalate h]

/-! ### Spellings -/

/-- `Respelling p q`: the path `q` is the path `p` with a slash behind it, with one of its slashes
doubled, without the slash in front, or with `./` behind one of its slashes. -/
inductive Respelling : Str → Str → Prop
  | trailing (p : Str) : Respelling p (p ++ ['/'])
  | double (x y : Str) : Respelling (x ++ '/' :: y) (x ++ '/' :: '/' :: y)
  | unrooted (p : Str) : Respelling ('/' :: p) p
  | dot (x y : Str) : Respelling (x ++ '/' :: y) (x ++ '/' :: '.' :: '/' :: y)

/-- Cleaning makes all spellings of a path the same. -/
theorem Respelling.cleanPath_eq {p q : Str} (h : Respelling p q) : cleanPath q = cleanPath p := by
  rw [Router.cleanPath_eq, Router.cleanPath_eq]
  cases h with
  | trailing => rw [elements_append_slash]
  | double => rw [elements_double_slash]
  | unrooted => rw [elements_slash]
  | dot => rw [elements_dot_slash]

/-! ### Parameters -/

section Search

variable {H : Type}

/-- What holds of the segments, and of the rests of the path, holds of all parameters. -/
theorem keeps_search (E : Engine) {P : Str → Prop} {segs : List Str} (hseg : ∀ seg ∈ segs, P seg)
    (hrest : ∀ rest, rest <:+ segs → rest ≠ [] → P (['/'].intercalate rest)) (n : Node H) :
    Attempt.Keeps (fun param : Param => P param.value) (search E segs n) := by
  induction segs generalizing n with
  | nil => exact fun _ hstack => hstack
  | cons seg rest ih =>
    rw [forall_mem_cons] at hseg
    have hchild := ih hseg.2 fun r hr => hrest r (hr.trans (suffix_cons seg rest))
    rw [search]
    refine .orElse (.firstOf fun c _ => hchild c) ?_
    refine .orElse (.firstOf fun c _ => .pushing hseg.1 (hchild c)) ?_
    refine .orElse (.firstOf fun c _ => .pushing hseg.1 (hchild c)) ?_
    intro params hparams
    cases n.children.find? fun c => c.label.nType = .wildcardNode with
    | none => exact hparams
    | some c =>
      exact forall_mem_append.mpr ⟨hparams, forall_mem_singleton.mpr
        (hrest _ suffix_rfl (cons_ne_nil _ _))⟩

/-- No segment of a parameter leads up. -/
theorem up_notMem_params (E : Engine) (t : Tree H) (method : String) (p : Str) :
    ∀ param ∈ (t.findRoute E method p).2, ['.', '.'] ∉ param.value.splitOn '/' := by
  rw [Tree.findRoute]
  cases t.root method with
  | none => exact nofun
  | some root =>
    refine keeps_search E (P := fun value => ['.', '.'] ∉ value.splitOn '/') ?_ ?_ root [] nofun
    · intro seg hseg hup
      have hplain := plain_of_mem_segments hseg
      rw [splitOn_eq_singleton hplain.no_slash, mem_singleton] at hup
      exact hplain.ne_up hup.symm
    · intro rest hrest hne hup
      have hplain (e : Str) (he : e ∈ rest) : Plain e := plain_of_mem_segments (hrest.subset he)
      rw [splitOn_intercalate '/' (fun e he => (hplain e he).no_slash) hne] at hup
      exact (hplain _ hup).ne_up rfl

end Search

/-- **Path normalisation.** The segments of a path are not empty, are neither `.` nor `..` and have
no slash in them, and joined again they are the segments of what they make; other spellings of a
path have the same segments, are registered and looked up with the same result; and no parameter
contains `..` as a segment. -/
theorem path_normalised (E : Engine) (p : Str) :
    (∀ seg ∈ segments p, seg ≠ [] ∧ seg ≠ ['.'] ∧ seg ≠ ['.', '.'] ∧ '/' ∉ seg) ∧
    segments ('/' :: ['/'].intercalate (segments p)) = segments p ∧
    (∀ q, Respelling p q → segments q = segments p ∧
      ∀ (H : Type) (t : Tree H) (method : String),
        (∀ h, t.addRoute E method q h = t.addRoute E method p h) ∧
        t.findRoute E method q = t.findRoute E method p) ∧
    ∀ (H : Type) (t : Tree H) (method : String), ∀ param ∈ (t.findRoute E method p).2,
      ['.', '.'] ∉ param.value.splitOn '/' := by
  refine ⟨fun seg hseg => ?_, segments_intercalate fun e => plain_of_mem_segments, fun q hq => ?_,
    fun H t method => up_notMem_params E t method p⟩
  · have hplain := plain_of_mem_segments hseg
    exact ⟨hplain.ne_nil, hplain.ne_dot, hplain.ne_up, hplain.no_slash⟩
  · have hclean := hq.cleanPath_eq
    have hsegments : segments q = segments p := congrArg splitPath hclean
    refine ⟨hsegments, fun H t method => ⟨fun h => ?_, ?_⟩⟩
    · simp only [Tree.addRoute, hclean]
    · simp only [Tree.findRoute, hsegments]

/-- A path with and without a slash at its end. -/
theorem manage_normalised :
    Respelling "/manage".toList "/manage/".toList ∧ segments "/manage".toList = ["manage".toList] ∧
      segments "/manage/".toList = segments "/manage".toList :=
  ⟨.trailing _, by decide +kernel,
    ((path_normalised ⟨fun _ => false, fun _ _ => false⟩ "/manage".toList).2.2.1
      "/manage/".toList (.trailing _)).1⟩

end Kiya.Router
