import Kiya.Lib.Sql.Parse

/-!
# Conditions as texts with arguments

A condition as a program writes it: a text with `?` placeholders, and a list of arguments. The
rules of the grammar for texts put together from texts, `parseText_join` and `parseText_paren`;
the texts that are made from a name, `parseText_equals` and `parseText_not_in`; and
`forall_termAtoms_of_parseText`, which says that a text without arguments has atoms without
them.
-/

namespace Sql

open Item List

variable {V : Type}

/-- The form of a condition given as text, with the arguments of its placeholders. -/
def parseText (text : String) (args : List V) : Option (Terms (Atom V)) := do
  let is ← lex text.toList
  let xs ← bindArgs is args
  parse xs

variable {args vs : List V} {ts : Terms (Atom V)} {is : List (Item Unit)} {xs : List (Item V)}
  {col : String}

theorem parseText_eq_some_iff {text : String} : parseText text args = some ts ↔
      ∃ is xs, lex text.toList = some is ∧ bindArgs is args = some xs ∧ parse xs = some ts := by
  simp [parseText, Option.bind_eq_some_iff]

theorem complete_of_parseText {text : String} (h : parseText text args = some ts) :
    Complete ts := by
  obtain ⟨_, _, -, -, hparse⟩ := parseText_eq_some_iff.mp h
  exact complete_of_parse hparse

/-- The text of a connective. -/
def Conn.text : Conn → String
  | .and => "AND"
  | .or => "OR"

/-- The form of two texts with a connective between them. -/
def Conn.join : Conn → Terms (Atom V) → Terms (Atom V) → Terms (Atom V)
  | .and, ts, us => andTerms ts us
  | .or, ts, us => ts ++ us

/-- **Two texts with a connective between them.** -/
theorem parseText_join (c : Conn) {s t : String} {vs ws : List V} {ts us : Terms (Atom V)}
    (hs : parseText s vs = some ts) (ht : parseText t ws = some us) :
    parseText (s ++ " " ++ c.text ++ " " ++ t) (vs ++ ws) = some (c.join ts us) := by
  obtain ⟨is, xs, his, hxs, hps⟩ := parseText_eq_some_iff.mp hs
  obtain ⟨js, ys, hjs, hys, hpt⟩ := parseText_eq_some_iff.mp ht
  have hword : lex c.text.toList = some [.word c.text.toList] := by cases c <;> rfl
  have hbind : bindArgs (.word c.text.toList :: js) ws = some (.word c.text.toList :: ys) := by
    simp [bindArgs, fixed, hys]
  refine parseText_eq_some_iff.mpr
    ⟨is ++ .word c.text.toList :: js, xs ++ .word c.text.toList :: ys, ?_, ?_, ?_⟩
  · have hlex := lex_blank his (lex_blank hword hjs)
    simpa using hlex
  · exact bindArgs_append hxs hbind
  · cases c with
    | and => exact parse_and rfl hps hpt
    | or => exact parse_or rfl hps hpt

/-- **A text in parentheses** is one factor. -/
theorem parseText_paren {s : String} (h : parseText s vs = some ts) :
    ∃ e, ofTerms ts = some e ∧ parseText ("(" ++ s ++ ")") vs = some [[e]] := by
  obtain ⟨is, xs, his, hxs, hp⟩ := parseText_eq_some_iff.mp h
  obtain ⟨e, he, hparen⟩ := parse_paren hp
  refine ⟨e, he, parseText_eq_some_iff.mpr
    ⟨.lparen :: (is ++ [.rparen]), .lparen :: (xs ++ [.rparen]), ?_, ?_, hparen⟩⟩
  · simpa using lex_paren his
  · have hclose : bindArgs [.rparen] ([] : List V) = some [.rparen] := rfl
    have hbind := bindArgs_append hxs hclose
    rw [append_nil] at hbind
    simp [bindArgs, fixed, hbind]

/-- **A name and a text after it** are one atom, if their items are. -/
theorem parseText_name {col after : String} {text : List Char} (hne : col ≠ "")
    (hword : ∀ c ∈ col.toList, isWordChar c = true) (hafter : after.toList = ' ' :: text)
    (hlex : lex text = some is) (hbind : bindArgs is vs = some xs)
    (hparse : parse (.word col.toList :: xs) = some [[.atom (.word col.toList :: xs)]]) :
    parseText (col ++ after) vs = some [[.atom (.word col.toList :: xs)]] := by
  have hcol : lex col.toList = some [.word col.toList] := lex_word (by simpa using hne) hword
  refine parseText_eq_some_iff.mpr ⟨.word col.toList :: is, _, ?_, ?_, hparse⟩
  · have happ := lex_blank hcol hlex
    simpa [hafter] using happ
  · simp [bindArgs, fixed, hbind]

/-- A comparison of a name with a placeholder. -/
theorem parseText_equals (hne : col ≠ "")
    (hword : ∀ c ∈ col.toList, isWordChar c = true) (hkey : keyword col.toList = .plain) (v : V) :
    parseText (col ++ " = ?") [v] = some [[.atom [.word col.toList, .sym '=', .arg v]]] := by
  have hafter : " = ?".toList = ' ' :: "= ?".toList := by decide
  have hlex : lex "= ?".toList = some [.sym '=', .arg ()] := rfl
  have hbind : bindArgs [.sym '=', .arg ()] [v] = some [.sym '=', .arg v] := rfl
  exact parseText_name hne hword hafter hlex hbind (parse_words hkey (by simp [role]))

/-- A list of placeholders. -/
def placeholderItems : List V → List (Item V)
  | [] => []
  | [v] => [.arg v]
  | v :: w :: vs => .arg v :: .sym ',' :: placeholderItems (w :: vs)

theorem placeholderItems_plain (vs : List V) : ∀ i ∈ placeholderItems vs, i.role = .plain := by
  fun_induction placeholderItems vs with
  | case1 => simp
  | case2 v => simp [role]
  | case3 v w vs ih =>
    intro i hi
    rcases mem_cons.mp hi with rfl | hi
    · rfl
    rcases mem_cons.mp hi with rfl | hi
    · rfl
    · exact ih i hi

theorem lex_placeholders (vs : List V) :
    ∃ is, lex (", ".intercalate (vs.map fun _ => "?")).toList = some is ∧
      bindArgs is vs = some (placeholderItems vs) := by
  fun_induction placeholderItems vs with
  | case1 => exact ⟨[], rfl, rfl⟩
  | case2 v =>
    refine ⟨[.arg ()], ?_, rfl⟩
    rw [map_singleton, String.intercalate_singleton]
    rfl
  | case3 v w vs ih =>
    obtain ⟨is, hlex, hbind⟩ := ih
    refine ⟨.arg () :: .sym ',' :: is, ?_, by simp [bindArgs, fixed, hbind]⟩
    have hfirst : lex "?,".toList = some [.arg (), .sym ','] := rfl
    have htext : (", ".intercalate ((v :: w :: vs).map fun _ => "?")).toList =
        "?,".toList ++ ' ' :: (", ".intercalate ((w :: vs).map fun _ => "?")).toList := by
      simp [String.intercalate_cons_cons]
    rw [htext]
    exact lex_blank hfirst hlex

/-- The word `IN` and a list of placeholders in parentheses. -/
theorem lex_in_list (vs : List V) :
    ∃ is, lex ("IN (" ++ ", ".intercalate (vs.map fun _ => "?") ++ ")").toList = some is ∧
      bindArgs is vs =
        some (.word "IN".toList :: .lparen :: (placeholderItems vs ++ [.rparen])) := by
  obtain ⟨is, his, hbind⟩ := lex_placeholders vs
  have hin : lex "IN".toList = some [.word "IN".toList] := rfl
  refine ⟨.word "IN".toList :: .lparen :: (is ++ [.rparen]), ?_, ?_⟩
  · have hlex := lex_blank hin (lex_paren his)
    simpa using hlex
  · have hclose : bindArgs [.rparen] ([] : List V) = some [.rparen] := rfl
    have happ := bindArgs_append hbind hclose
    rw [append_nil] at happ
    simp [bindArgs, fixed, happ]

/-- The atom `name NOT IN (…)`. -/
def notInAtom (name : String) (vs : List V) : Atom V :=
  .word name.toList :: ([.word "NOT".toList, .word "IN".toList] ++
    .lparen :: (placeholderItems vs ++ [.rparen]))

/-- A name, `NOT IN`, and a list of placeholders. -/
theorem parseText_not_in (hne : col ≠ "")
    (hword : ∀ c ∈ col.toList, isWordChar c = true) (hkey : keyword col.toList = .plain)
    (vs : List V) :
    parseText (col ++ " NOT IN (" ++ ", ".intercalate (vs.map fun _ => "?") ++ ")") vs =
      some [[.atom (notInAtom col vs)]] := by
  obtain ⟨is, his, hbind⟩ := lex_in_list vs
  have hnot : lex "NOT".toList = some [.word "NOT".toList] := rfl
  have hrole : ∀ i ∈ ([.word "NOT".toList, .word "IN".toList] : List (Item V)),
      i.role = .plain ∨ i.role = .not := by
    intro i hi
    rcases mem_pair.mp hi with rfl | rfl
    · exact .inr (show keyword "NOT".toList = .not by decide)
    · exact .inl (show keyword "IN".toList = .plain by decide)
  have hparse := parse_listed hkey hrole (placeholderItems_plain vs)
  have htext : lex ("NOT IN (" ++ ", ".intercalate (vs.map fun _ => "?") ++ ")").toList =
      some (.word "NOT".toList :: is) := by
    have hlex := lex_blank hnot his
    simpa using hlex
  have hargs : bindArgs (.word "NOT".toList :: is) vs = some ([.word "NOT".toList,
      .word "IN".toList] ++ .lparen :: (placeholderItems vs ++ [.rparen])) := by
    simp [bindArgs, fixed, hbind]
  have hafter : (" NOT IN (" ++ ", ".intercalate (vs.map fun _ => "?") ++ ")").toList =
      ' ' :: ("NOT IN (" ++ ", ".intercalate (vs.map fun _ => "?") ++ ")").toList := by
    simp
  have hname := parseText_name hne hword hafter htext hargs hparse
  simpa [String.append_assoc, notInAtom] using hname

/-- Is the item a placeholder with its argument? -/
def Item.isArg : Item V → Bool
  | .arg _ => true
  | _ => false

theorem isArg_of_bindArgs_nil (h : bindArgs is [] = some xs) : ∀ i ∈ xs, i.isArg = false := by
  induction is generalizing xs with
  | nil =>
    obtain rfl := Option.some.inj h
    simp
  | cons i is ih =>
    cases i with
    | arg u => cases h
    | _ =>
      obtain ⟨ys, hys, rfl⟩ := Option.map_eq_some_iff.mp h
      exact forall_mem_cons.mpr ⟨rfl, ih hys⟩

/-- **A text without arguments** has atoms without arguments. -/
theorem forall_termAtoms_of_parseText {text : String} (h : parseText text [] = some ts) :
    ∀ a ∈ termAtoms ts, ∀ i ∈ a, i.isArg = false := by
  obtain ⟨is, xs, -, hbind, hparse⟩ := parseText_eq_some_iff.mp h
  exact forall_termAtoms_of_parse hparse (isArg_of_bindArgs_nil hbind)

end Sql
