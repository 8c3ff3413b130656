import Kiya.Lib.Strings

/-!
# Paths with slashes

Lexical cleaning of slash-separated paths, element by element: empty elements and `.` are dropped,
`..` takes the element before it away, and is dropped itself at the start of a rooted path and kept
at the start of another one. A text is a list of bytes, each written as the character of that
number.
-/

namespace SlashPath

open List

/-- Put an element behind those that are kept; the last of these comes first. -/
def push (rooted : Bool) (kept : List (List Char)) (elem : List Char) : List (List Char) :=
  if elem = [] ∨ elem = ['.'] then kept
  else if elem = ['.', '.'] then
    match kept with
    | [] => if rooted then [] else [elem]
    | last :: others => if last = ['.', '.'] then elem :: kept else others
  else elem :: kept

/-- The elements of a path that are kept, in order. -/
def elements (rooted : Bool) (path : List Char) : List (List Char) :=
  ((path.splitOn '/').foldl (push rooted) []).reverse

/-- The shortest path that is lexically the same; `.` for none. -/
def clean (path : List Char) : List Char :=
  let rooted := path.head? = some '/'
  let body := ['/'].intercalate (elements rooted path)
  if rooted then '/' :: body
  else if body = [] then ['.'] else body

example : clean "/a/./b//../c/".toList = "/a/c".toList := by decide

/-! ### Way up -/

/-- So many steps up. -/
def ups (n : ℕ) : List Char := (List.replicate n ['/', '.', '.']).flatten

theorem splitOn_ups (path : List Char) (n : ℕ) :
    (path ++ ups n).splitOn '/' = path.splitOn '/' ++ List.replicate n ['.', '.'] := by
  induction n with
  | zero => rw [ups, replicate_zero, flatten_nil, append_nil, replicate_zero,
      append_nil]
  | succ n ih =>
    have hups : ups (n + 1) = ups n ++ '/' :: ['.', '.'] := by
      rw [ups, replicate_succ', List.flatten_append]
      rfl
    rw [hups, ← append_assoc, splitOn_append_cons_self, ih, append_assoc, replicate_succ']
    rfl

/-- In a rooted path nothing kept leads up. -/
theorem push_rooted {kept : List (List Char)} (h : ['.', '.'] ∉ kept) (elem : List Char) :
    ['.', '.'] ∉ push true kept elem := by
  by_cases hdot : elem = [] ∨ elem = ['.']
  · rwa [push.eq_def, if_pos hdot]
  · by_cases hup : elem = ['.', '.']
    · rw [push.eq_def, if_neg hdot, if_pos hup]
      cases kept with
      | nil => exact not_mem_nil
      | cons last others =>
        rw [mem_cons, not_or] at h
        simp only [if_neg (Ne.symm h.1)]
        exact h.2
    · rw [push.eq_def, if_neg hdot, if_neg hup, mem_cons, not_or]
      exact ⟨Ne.symm hup, h⟩

theorem foldl_push_rooted {kept : List (List Char)} (h : ['.', '.'] ∉ kept)
    (elems : List (List Char)) : ['.', '.'] ∉ elems.foldl (push true) kept := by
  induction elems generalizing kept with
  | nil => exact h
  | cons elem elems ih => exact ih (push_rooted h elem)

/-- Enough steps up leave nothing. -/
theorem foldl_push_ups {kept : List (List Char)} (h : ['.', '.'] ∉ kept) :
    (List.replicate kept.length ['.', '.']).foldl (push true) kept = [] := by
  induction kept with
  | nil => rfl
  | cons last others ih =>
    rw [mem_cons, not_or] at h
    have hpush : push true (last :: others) ['.', '.'] = others := by
      rw [push, if_neg (by decide), if_pos rfl]
      exact if_neg (Ne.symm h.1)
    rw [length_cons, replicate_succ, foldl_cons, hpush]
    exact ih h.2

variable {path elem : List Char} {elems : List (List Char)} {rooted : Bool}

/-- **From every rooted path a way leads up to the root.** -/
theorem exists_clean_ups (h : path.head? = some '/') : ∃ n, clean (path ++ ups n) = ['/'] := by
  refine ⟨((path.splitOn '/').foldl (push true) []).length, ?_⟩
  have hhead (rest : List Char) : (path ++ rest).head? = some '/' := by
    rw [head?_append, h]
    rfl
  simp only [clean, hhead, decide_true, if_true, elements, splitOn_ups, foldl_append]
  rw [foldl_push_ups (foldl_push_rooted not_mem_nil _)]
  rfl

/-! ### Elements of a rooted path -/

/-- An element that cleaning has nothing to do with. -/
structure Plain (elem : List Char) : Prop where
  ne_nil : elem ≠ []
  ne_dot : elem ≠ ['.']
  ne_up : elem ≠ ['.', '.']
  no_slash : '/' ∉ elem

@[simp]
theorem push_nil (rooted : Bool) (kept : List (List Char)) : push rooted kept [] = kept :=
  if_pos (.inl rfl)

@[simp]
theorem push_dot (rooted : Bool) (kept : List (List Char)) : push rooted kept ['.'] = kept :=
  if_pos (.inr rfl)

theorem push_of_plain (h : Plain elem) (rooted : Bool)
    (kept : List (List Char)) : push rooted kept elem = elem :: kept := by
  rw [push.eq_def, if_neg (not_or.mpr ⟨h.ne_nil, h.ne_dot⟩), if_neg h.ne_up]

theorem plain_push {kept : List (List Char)} (hkept : ∀ e ∈ kept, Plain e) (helem : '/' ∉ elem) :
    ∀ e ∈ push true kept elem, Plain e := by
  by_cases hdot : elem = [] ∨ elem = ['.']
  · rwa [push.eq_def, if_pos hdot]
  · by_cases hup : elem = ['.', '.']
    · rw [push.eq_def, if_neg hdot, if_pos hup]
      cases kept with
      | nil => exact nofun
      | cons last others =>
        rw [forall_mem_cons] at hkept
        simp only [if_neg hkept.1.ne_up]
        exact hkept.2
    · rw [not_or] at hdot
      rw [push_of_plain ⟨hdot.1, hdot.2, hup, helem⟩]
      exact forall_mem_cons.mpr ⟨⟨hdot.1, hdot.2, hup, helem⟩, hkept⟩

theorem plain_foldl_push {elems kept : List (List Char)} (hkept : ∀ e ∈ kept, Plain e)
    (helems : ∀ e ∈ elems, '/' ∉ e) : ∀ e ∈ elems.foldl (push true) kept, Plain e := by
  induction elems generalizing kept with
  | nil => exact hkept
  | cons elem elems ih =>
    rw [forall_mem_cons] at helems
    exact ih (plain_push hkept helems.1) helems.2

/-- **The elements of a rooted path are plain.** -/
theorem plain_of_mem_elements (h : elem ∈ elements true path) : Plain elem := by
  refine plain_foldl_push (fun e he => absurd he not_mem_nil) ?_ elem (mem_reverse.mp h)
  exact fun e he => Strings.notMem_of_mem_splitOn he

theorem foldl_push_of_plain (h : ∀ e ∈ elems, Plain e) (rooted : Bool)
    (kept : List (List Char)) : elems.foldl (push rooted) kept = elems.reverse ++ kept := by
  induction elems generalizing kept with
  | nil => rfl
  | cons elem elems ih =>
    rw [forall_mem_cons] at h
    rw [foldl_cons, push_of_plain h.1, ih h.2, reverse_cons, append_assoc]
    rfl

/-- Plain elements that are joined are the elements of the path. -/
theorem elements_intercalate (h : ∀ e ∈ elems, Plain e) (rooted : Bool) :
    elements rooted (['/'].intercalate elems) = elems := by
  cases elems with
  | nil => rfl
  | cons elem elems =>
    rw [elements, splitOn_intercalate '/' (fun e he => (h e he).no_slash) (cons_ne_nil _ _),
      foldl_push_of_plain h, append_nil, reverse_reverse]

/-! ### Spellings of a path -/

theorem elements_append (rooted : Bool) (x y : List Char) : elements rooted (x ++ '/' :: y) =
    ((y.splitOn '/').foldl (push rooted) ((x.splitOn '/').foldl (push rooted) [])).reverse := by
  rw [elements, splitOn_append_cons_self, foldl_append]

/-- A slash at the start adds no element. -/
theorem elements_slash (rooted : Bool) (path : List Char) :
    elements rooted ('/' :: path) = elements rooted path := by
  have h := elements_append rooted [] path
  rwa [splitOn_nil, foldl_cons, push_nil, foldl_nil] at h

/-- A slash at the end adds no element. -/
theorem elements_append_slash (rooted : Bool) (path : List Char) :
    elements rooted (path ++ ['/']) = elements rooted path := by
  rw [elements_append, splitOn_nil, foldl_cons, push_nil]
  rfl

/-- A second slash adds no element. -/
theorem elements_double_slash (rooted : Bool) (x y : List Char) :
    elements rooted (x ++ '/' :: '/' :: y) = elements rooted (x ++ '/' :: y) := by
  rw [elements_append, elements_append, ← nil_append ('/' :: y),
    splitOn_append_cons_self, splitOn_nil, singleton_append, foldl_cons,
    push_nil]

/-- A dot between two slashes adds no element. -/
theorem elements_dot_slash (rooted : Bool) (x y : List Char) :
    elements rooted (x ++ '/' :: '.' :: '/' :: y) = elements rooted (x ++ '/' :: y) := by
  have hdot : List.splitOn '/' ['.'] = [['.']] := splitOn_eq_singleton (by decide)
  rw [elements_append, elements_append, ← singleton_append, splitOn_append_cons_self,
    hdot, singleton_append, foldl_cons, push_dot]

/-- A rooted path that is clean is the root with its elements. -/
theorem clean_of_rooted (h : path.head? = some '/') :
    clean path = '/' :: ['/'].intercalate (elements true path) := by
  simp only [clean, h, decide_true, if_true]

/-! ### Joining -/

/-- The parts with slashes between them, cleaned; empty parts are ignored. -/
def join (parts : List (List Char)) : List Char :=
  let kept := parts.filter (· ≠ [])
  if kept = [] then [] else clean (['/'].intercalate kept)

/-- A clean path with further elements. -/
def extend (base : List Char) (elems : List (List Char)) : List Char :=
  if base = ['.'] then ['/'].intercalate elems
  else if base = ['/'] then '/' :: ['/'].intercalate elems
  else base ++ '/' :: ['/'].intercalate elems

/-- An element that can be kept. -/
structure Kept (elem : List Char) : Prop where
  ne_nil : elem ≠ []
  ne_dot : elem ≠ ['.']
  no_slash : '/' ∉ elem

theorem Plain.kept (h : Plain elem) : Kept elem :=
  ⟨h.ne_nil, h.ne_dot, h.no_slash⟩

theorem kept_push {kept : List (List Char)} (hkept : ∀ e ∈ kept, Kept e)
    (helem : '/' ∉ elem) : ∀ e ∈ push rooted kept elem, Kept e := by
  by_cases hdot : elem = [] ∨ elem = ['.']
  · rwa [push.eq_def, if_pos hdot]
  have hself : Kept elem := ⟨(not_or.mp hdot).1, (not_or.mp hdot).2, helem⟩
  by_cases hup : elem = ['.', '.']
  · rw [push.eq_def, if_neg hdot, if_pos hup]
    cases kept with
    | nil =>
      cases rooted with
      | true => exact nofun
      | false => exact forall_mem_singleton.mpr hself
    | cons last others =>
      dsimp only
      split
      · exact forall_mem_cons.mpr ⟨hself, hkept⟩
      · exact (forall_mem_cons.mp hkept).2
  · rw [push.eq_def, if_neg hdot, if_neg hup]
    exact forall_mem_cons.mpr ⟨hself, hkept⟩

theorem kept_foldl_push {elems kept : List (List Char)}
    (hkept : ∀ e ∈ kept, Kept e) (helems : ∀ e ∈ elems, '/' ∉ e) :
    ∀ e ∈ elems.foldl (push rooted) kept, Kept e := by
  induction elems generalizing kept with
  | nil => exact hkept
  | cons elem elems ih =>
    rw [forall_mem_cons] at helems
    exact ih (kept_push hkept helems.1) helems.2

theorem kept_of_mem_elements (h : elem ∈ elements rooted path) : Kept elem := by
  refine kept_foldl_push (fun e he => absurd he not_mem_nil) ?_ elem (mem_reverse.mp h)
  exact fun e he => Strings.notMem_of_mem_splitOn he

/-- Elements that are joined can be told apart again. -/
theorem splitOn_intercalate_kept (h : ∀ e ∈ elems, Kept e)
    (hne : elems ≠ []) : (['/'].intercalate elems).splitOn '/' = elems :=
  splitOn_intercalate '/' (fun e he => (h e he).no_slash) hne

theorem intercalate_append {elems more : List (List Char)} (helems : elems ≠ [])
    (hmore : more ≠ []) : ['/'].intercalate (elems ++ more) =
      ['/'].intercalate elems ++ '/' :: ['/'].intercalate more := by
  induction elems with
  | nil => exact absurd rfl helems
  | cons elem elems ih =>
    cases elems with
    | nil =>
      obtain ⟨e, more, rfl⟩ := exists_cons_of_ne_nil hmore
      simp [List.intercalate]
    | cons next elems =>
      have h := ih (cons_ne_nil _ _)
      simp only [List.intercalate, cons_append, intersperse_cons_cons, flatten_cons,
        append_assoc] at h ⊢
      rw [h]

/-- What a path of kept elements starts with. -/
theorem head_intercalate_kept (h : ∀ e ∈ elems, Kept e) :
    (['/'].intercalate elems).head? ≠ some '/' := by
  cases elems with
  | nil => nofun
  | cons elem elems =>
    have helem := h elem mem_cons_self
    obtain ⟨c, rest, rfl⟩ := exists_cons_of_ne_nil helem.ne_nil
    have hc : c ≠ '/' := fun hc => helem.no_slash (hc ▸ mem_cons_self)
    cases elems <;> simpa [List.intercalate] using hc

/-- The path that consists of the given elements. -/
def ofElements (rooted : Bool) (elems : List (List Char)) : List Char :=
  if rooted then '/' :: ['/'].intercalate elems
  else if elems = [] then ['.'] else ['/'].intercalate elems

theorem intercalate_eq_nil_iff (h : ∀ e ∈ elems, Kept e) :
    ['/'].intercalate elems = [] ↔ elems = [] := by
  refine ⟨fun hnil => ?_, fun hnil => hnil ▸ rfl⟩
  by_contra hne
  have hsplit := splitOn_intercalate_kept h hne
  rw [hnil, splitOn_nil] at hsplit
  exact (h [] (hsplit ▸ mem_singleton_self _)).ne_nil rfl

/-- **A clean path consists of its elements.** -/
theorem clean_eq_ofElements (path : List Char) :
    clean path = ofElements (path.head? = some '/') (elements (path.head? = some '/') path) := by
  unfold clean ofElements
  simp only [intercalate_eq_nil_iff fun e he => kept_of_mem_elements he, decide_eq_true_eq]

/-- A path of elements is extended by adding elements. -/
theorem extend_ofElements {elems more : List (List Char)}
    (helems : ∀ e ∈ elems, Kept e) (hmore : more ≠ []) :
    extend (ofElements rooted elems) more = ofElements rooted (elems ++ more) := by
  have happend : elems ++ more ≠ [] := append_ne_nil_of_right_ne_nil _ hmore
  by_cases hnil : elems = []
  · subst hnil
    cases rooted
    · simp [extend, ofElements, hmore]
    · simp [extend, ofElements, List.intercalate]
  have hbody : ['/'].intercalate elems ≠ [] := (intercalate_eq_nil_iff helems).not.mpr hnil
  cases rooted with
  | true =>
    have hdot : '/' :: ['/'].intercalate elems ≠ ['.'] := fun h => by cases (List.cons.inj h).1
    have hslash : '/' :: ['/'].intercalate elems ≠ ['/'] := fun h => hbody (List.cons.inj h).2
    simp only [extend, ofElements, if_true, if_neg hdot, if_neg hslash,
      intercalate_append hnil hmore, cons_append]
  | false =>
    -- A dot or a slash alone would be split into elements that are not kept.
    have hne (text e : List Char) (he : e ∈ text.splitOn '/') (hbad : ¬ Kept e) :
        ['/'].intercalate elems ≠ text := by
      rintro rfl
      rw [splitOn_intercalate_kept helems hnil] at he
      exact hbad (helems e he)
    have hdot := hne ['.'] ['.'] (by decide) fun h => h.ne_dot rfl
    have hslash := hne ['/'] [] (by decide) fun h => h.ne_nil rfl
    simp only [extend, ofElements, Bool.false_eq_true, if_false, if_neg hnil, if_neg happend,
      if_neg hdot, if_neg hslash, intercalate_append hnil hmore]

/-- Plain elements that are joined make up a clean path. -/
theorem clean_intercalate (h : ∀ e ∈ elems, Plain e) (hne : elems ≠ []) :
    clean (['/'].intercalate elems) = ['/'].intercalate elems := by
  have hhead := head_intercalate_kept fun e he => (h e he).kept
  rw [clean_eq_ofElements, elements_intercalate h, decide_eq_false hhead]
  simp [ofElements, hne]

theorem join_nil_left (h : path ≠ []) : join [[], path] = clean path := by
  simp [join, h, List.intercalate]

theorem join_pair {root path : List Char} (hroot : root ≠ []) (hpath : path ≠ []) :
    join [root, path] = clean (root ++ '/' :: path) := by
  simp [join, hroot, hpath, List.intercalate]

/-- **Joining extends**: plain elements are put behind the elements of a path. -/
theorem join_eq_extend (root : List Char) (h : ∀ e ∈ elems, Plain e)
    (hne : elems ≠ []) : join [root, ['/'].intercalate elems] = extend (clean root) elems := by
  have hbody : ['/'].intercalate elems ≠ [] :=
    (intercalate_eq_nil_iff fun e he => (h e he).kept).not.mpr hne
  by_cases hroot : root = []
  · rw [hroot, join_nil_left hbody, clean_intercalate h hne]
    rfl
  have hhead : (root ++ '/' :: ['/'].intercalate elems).head? = root.head? := by
    obtain ⟨c, rest, rfl⟩ := exists_cons_of_ne_nil hroot
    rfl
  have helements (rooted : Bool) : elements rooted (root ++ '/' :: ['/'].intercalate elems) =
      elements rooted root ++ elems := by
    rw [elements_append, splitOn_intercalate_kept (fun e he => (h e he).kept) hne,
      foldl_push_of_plain h, reverse_append, reverse_reverse]
    rfl
  rw [join_pair hroot hbody, clean_eq_ofElements, clean_eq_ofElements root, hhead, helements,
    extend_ofElements (fun e he => kept_of_mem_elements he) hne]

/-- The directory of a path: what is in front of its last element, cleaned. -/
def dir (path : List Char) : List Char :=
  clean (path.take (path.length - (path.reverse.takeWhile (· ≠ '/')).length))

example : dir "a/b/c".toList = "a/b".toList := by decide

/-- The suffix of a path from the last dot in its last element on. -/
def ext (path : List Char) : List Char :=
  let last := path.reverse.takeWhile (· ≠ '/')
  if '.' ∈ last then '.' :: (last.takeWhile (· ≠ '.')).reverse else []

example : ext "a.b/c.tar.gz".toList = ".gz".toList := by decide

/-- An element of a path with something behind it. -/
theorem mem_splitOn_append {path suffix elem : List Char} (hsuffix : '/' ∉ suffix)
    (h : elem ∈ (path ++ suffix).splitOn '/') : elem ∈ path.splitOn '/' ∨ suffix <:+ elem := by
  by_cases hslash : '/' ∈ path
  · obtain ⟨before, after, heq, -⟩ := eq_append_cons_of_mem hslash
    have hlen : after.length < path.length := by
      rw [heq, length_append, length_cons]
      omega
    rw [heq, append_assoc, cons_append, splitOn_append_cons_self, mem_append] at h
    rw [heq, splitOn_append_cons_self, mem_append]
    rcases h with h | h
    · exact .inl (.inl h)
    · exact (mem_splitOn_append hsuffix h).imp_left .inr
  · rw [splitOn_eq_singleton (by simp [hslash, hsuffix]), mem_singleton] at h
    exact .inr (h ▸ suffix_append path suffix)
termination_by path.length

theorem infix_of_mem_splitOn {path elem : List Char} (h : elem ∈ path.splitOn '/') :
    elem <:+: path := by
  by_cases hslash : '/' ∈ path
  · obtain ⟨before, after, heq, hbefore⟩ := eq_append_cons_of_mem hslash
    rw [heq, splitOn_append_cons_self, splitOn_eq_singleton hbefore, mem_append, mem_singleton] at h
    rcases h with rfl | h
    · exact heq ▸ (prefix_append _ _).isInfix
    · have hlen : after.length < path.length := by
        rw [heq, length_append, length_cons]
        omega
      rw [heq]
      exact (infix_of_mem_splitOn h).trans ⟨before ++ ['/'], [], by simp⟩
  · rw [splitOn_eq_singleton hslash, mem_singleton] at h
    exact h ▸ infix_rfl
termination_by path.length

end SlashPath
