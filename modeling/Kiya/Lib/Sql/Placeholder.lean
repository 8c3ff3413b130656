import Mathlib

/-!
# Placeholders

A placeholder of a query text is a `?` that stands outside of single quotes; a quote inside a quoted
literal is written twice, so it is enough to count quotes. `number f` writes the placeholders of a
text as `f 1`, `f 2`, and so on. A text is put together from pieces: each is a fragment with
arguments of its own, after a separator. If every piece has as many placeholders as arguments and
closes its quotes, then so does the whole text, and the placeholders of a piece get the numbers of
its arguments (`number_textOf`).

In the numbered form of PostgreSQL the placeholders are read back by `dollarNumbers`. They are the
ones that were written as long as no `$` of a fragment begins a number or is taken for one
(`dollarNumbers_textOf`).
-/

namespace Sql

open List

variable (cs : List Char) (c : Char)

/-- The single quote. -/
def isQuote : Bool := c.toNat = 39

/-- Does a character outside of quotes stand for an argument? -/
def isMark : Bool := c = '?'

/-- Is the text inside a quoted literal after these characters? -/
def quotedAfter : Bool → List Char → Bool
  | q, [] => q
  | q, c :: cs => quotedAfter (if isQuote c then !q else q) cs

/-- The number of placeholders. -/
def marks : Bool → List Char → Nat
  | _, [] => 0
  | q, c :: cs =>
    if isQuote c then marks (!q) cs
    else if isMark c && !q then marks q cs + 1
    else marks q cs

/-- Write the placeholders as `f (k + 1)`, `f (k + 2)`, and so on. -/
def number (f : Nat → List Char) : Bool → Nat → List Char → List Char
  | _, _, [] => []
  | q, k, c :: cs =>
    if isQuote c then c :: number f (!q) k cs
    else if isMark c && !q then f (k + 1) ++ number f q (k + 1) cs
    else c :: number f q k cs

theorem quotedAfter_append (ds : List Char) :
    ∀ q, quotedAfter q (cs ++ ds) = quotedAfter (quotedAfter q cs) ds := by
  induction cs with
  | nil => exact fun q => rfl
  | cons c cs ih => exact fun q => ih _

theorem marks_append (ds : List Char) :
    ∀ q, marks q (cs ++ ds) = marks q cs + marks (quotedAfter q cs) ds := by
  induction cs with
  | nil => exact fun q => (Nat.zero_add _).symm
  | cons c cs ih =>
    intro q
    simp only [cons_append, marks, quotedAfter]
    split_ifs with hquote hmark
    · exact ih _
    · rw [ih]
      omega
    · exact ih _

theorem number_append (f : Nat → List Char) (cs ds : List Char) : ∀ q k, number f q k (cs ++ ds) =
      number f q k cs ++ number f (quotedAfter q cs) (k + marks q cs) ds := by
  induction cs with
  | nil => exact fun q k => rfl
  | cons c cs ih =>
    intro q k
    simp only [cons_append, number, marks, quotedAfter]
    split_ifs with hquote hmark
    · rw [ih, cons_append]
    · rw [ih, append_assoc, Nat.add_assoc, Nat.add_comm 1]
    · rw [ih, cons_append]

/-- A placeholder that is written as it is leaves the text as it is. -/
theorem number_self : ∀ q k, number (fun _ => ['?']) q k cs = cs := by
  induction cs with
  | nil => exact fun q k => rfl
  | cons c cs ih =>
    intro q k
    simp only [number]
    split_ifs with hquote hmark
    · rw [ih]
    · have hc : c = '?' := by simpa [isMark] using (Bool.and_eq_true_iff.mp hmark).1
      rw [ih, hc, singleton_append]
    · rw [ih]

/-! ### Pieces -/

/-- A part of a text, with the arguments that were given for it. -/
structure Fragment (α : Type) where
  text : List Char
  args : List α := []

/-- Quotes are closed, and there is a placeholder for every argument. -/
def Fragment.Aligned {α : Type} (p : Fragment α) : Prop :=
  quotedAfter false p.text = false ∧ marks false p.text = p.args.length

instance {α : Type} (p : Fragment α) : Decidable p.Aligned :=
  inferInstanceAs (Decidable (_ ∧ _))

section Pieces

variable {α : Type} {ps : List (Fragment α)}

/-- The text that is put together from pieces. -/
def textOf (ps : List (Fragment α)) : List Char := ps.flatMap (·.text)

/-- The arguments of pieces. -/
def argsOf (ps : List (Fragment α)) : List α := ps.flatMap (·.args)

@[simp] theorem textOf_nil : textOf ([] : List (Fragment α)) = [] := rfl

@[simp] theorem textOf_cons (p : Fragment α) (ps : List (Fragment α)) :
    textOf (p :: ps) = p.text ++ textOf ps := rfl

@[simp] theorem textOf_append (ps qs : List (Fragment α)) :
    textOf (ps ++ qs) = textOf ps ++ textOf qs := flatMap_append

@[simp] theorem argsOf_nil : argsOf ([] : List (Fragment α)) = [] := rfl

@[simp] theorem argsOf_cons (p : Fragment α) (ps : List (Fragment α)) :
    argsOf (p :: ps) = p.args ++ argsOf ps := rfl

@[simp] theorem argsOf_append (ps qs : List (Fragment α)) :
    argsOf (ps ++ qs) = argsOf ps ++ argsOf qs := flatMap_append

/-- The pieces with numbered placeholders: those of a piece have the numbers of its arguments. -/
def numbered (f : Nat → List Char) : Nat → List (Fragment α) → List Char
  | _, [] => []
  | k, p :: ps => number f false k p.text ++ numbered f (k + p.args.length) ps

/-- **Aligned pieces**: the text has one placeholder for each argument, and numbering the
placeholders of the text is numbering those of the pieces. -/
theorem number_textOf (f : Nat → List Char) (h : ∀ p ∈ ps, p.Aligned) :
    ∀ k, number f false k (textOf ps) = numbered f k ps := by
  induction ps with
  | nil => exact fun k => rfl
  | cons p ps ih =>
    intro k
    obtain ⟨⟨hquote, hmarks⟩, hrest⟩ := forall_mem_cons.mp h
    rw [textOf_cons, number_append, hquote, hmarks, ih hrest, numbered]

theorem quotedAfter_textOf (h : ∀ p ∈ ps, p.Aligned) : quotedAfter false (textOf ps) = false := by
  induction ps with
  | nil => rfl
  | cons p ps ih =>
    obtain ⟨hp, hrest⟩ := forall_mem_cons.mp h
    rw [textOf_cons, quotedAfter_append, hp.1, ih hrest]

theorem marks_textOf (h : ∀ p ∈ ps, p.Aligned) : marks false (textOf ps) = (argsOf ps).length := by
  induction ps with
  | nil => rfl
  | cons p ps ih =>
    obtain ⟨hp, hrest⟩ := forall_mem_cons.mp h
    rw [textOf_cons, argsOf_cons, marks_append, hp.1, hp.2, ih hrest, length_append]

end Pieces

/-! ### Numbers after a dollar sign -/

/-- What a reader of numbered placeholders is in the middle of. -/
inductive DollarMode where
  | text
  | quoted
  | dollar
  | digits (n : Nat)

open DollarMode

/-- The mode after a character outside of quotes and numbers. -/
def DollarMode.start : DollarMode :=
  if isQuote c then .quoted else if c = '$' then .dollar else .text

/-- The value of a digit. -/
def digitValue : Nat := c.toNat - '0'.toNat

/-- The numbers that follow dollar signs outside of quotes. -/
def readNumbers : DollarMode → List Char → List Nat
  | .digits n, [] => [n]
  | _, [] => []
  | .text, c :: cs => readNumbers (.start c) cs
  | .quoted, c :: cs => readNumbers (if isQuote c then .text else .quoted) cs
  | .dollar, c :: cs =>
    if c.isDigit then readNumbers (.digits (digitValue c)) cs else readNumbers (.start c) cs
  | .digits n, c :: cs =>
    if c.isDigit then readNumbers (.digits (10 * n + digitValue c)) cs
    else n :: readNumbers (.start c) cs

/-- The numbered placeholders of a text, in order. -/
def dollarNumbers : List Nat := readNumbers .text cs

/-- The numbered placeholder of PostgreSQL. -/
def dollar (k : Nat) : List Char := '$' :: Nat.toDigits 10 k

/-- The text does not begin with a digit. -/
def NoDigit : Prop := ∀ c ∈ cs.head?, c.isDigit = false

/-- A pair of characters outside of quotes that would be read otherwise once placeholders are
numbered: a placeholder with a digit after it, or a dollar sign before a digit, a placeholder or
another dollar sign. -/
def clashes (d : Char) : Bool :=
  (isMark c && d.isDigit) || (c = '$' && (d.isDigit || d = '$' || isMark d))

/-- There is no such pair. -/
def clean : Bool → List Char → Bool
  | _, [] => true
  | q, c :: cs => (q || !cs.head?.any (clashes c)) && clean (if isQuote c then !q else q) cs

/-- The text begins with a character that clashes with none before it. -/
def StartsSafe : Prop :=
  ∀ d ∈ cs.head?, d.isDigit = false ∧ d ≠ '$' ∧ isMark d = false

variable {cs rest : List Char}

theorem StartsSafe.noDigit (h : StartsSafe cs) : NoDigit cs :=
  fun c hc => (h c hc).1

theorem StartsSafe.not_clashes (h : StartsSafe cs) (c : Char) :
    cs.head?.any (clashes c) = false := by
  cases cs with
  | nil => rfl
  | cons d ds =>
    obtain ⟨hdigit, hdollar, hmark⟩ := h d rfl
    simp [clashes, hdigit, hdollar, hmark]

theorem clean_append {cs ds : List Char} (hds : StartsSafe ds) :
    ∀ {q}, clean q cs = true → clean (quotedAfter q cs) ds = true → clean q (cs ++ ds) = true := by
  induction cs with
  | nil => exact fun _ h => h
  | cons c cs ih =>
    intro q hcs hrest
    simp only [clean, cons_append, Bool.and_eq_true] at hcs ⊢
    refine ⟨?_, ih hcs.2 hrest⟩
    cases cs with
    | nil =>
      rw [nil_append, hds.not_clashes c]
      simp
    | cons d cs => exact hcs.1

/-! ### Reading back -/

theorem readNumbers_dollar (h : NoDigit cs) : readNumbers .dollar cs = readNumbers .text cs := by
  cases cs with
  | nil => rfl
  | cons c cs => simp [readNumbers, h c rfl]

theorem readNumbers_digits (hrest : NoDigit rest) (ds : List Char) :
    ∀ n, (∀ c ∈ ds, c.isDigit = true) → readNumbers (.digits n) (ds ++ rest) =
        Nat.ofDigitChars 10 ds n :: readNumbers .text rest := by
  induction ds with
  | nil =>
    intro n _
    cases rest with
    | nil => rfl
    | cons c cs => simp [readNumbers, hrest c rfl, Nat.ofDigitChars]
  | cons d ds ih =>
    intro n hds
    obtain ⟨hd, hds⟩ := forall_mem_cons.mp hds
    rw [Nat.ofDigitChars_cons, ← ih _ hds]
    simp [readNumbers, hd, digitValue]

/-- The number that was written is read. -/
theorem readNumbers_dollar_append (k : Nat) (hrest : NoDigit rest) :
    readNumbers .text (dollar k ++ rest) = k :: readNumbers .text rest := by
  have hdigits : ∀ c ∈ Nat.toDigits 10 k, c.isDigit = true :=
    fun c hc => Nat.isDigit_of_mem_toDigits (by decide) (by decide) hc
  have hvalue : Nat.ofDigitChars 10 (Nat.toDigits 10 k) 0 = k := Nat.ofDigitChars_ten_toDigits
  obtain ⟨d, ds, hds⟩ := exists_cons_of_ne_nil (@Nat.toDigits_ne_nil k 10)
  rw [hds] at hdigits hvalue
  obtain ⟨hd, hdigits⟩ := forall_mem_cons.mp hdigits
  rw [Nat.ofDigitChars_cons] at hvalue
  have hread := readNumbers_digits hrest ds (digitValue d) hdigits
  have hmode : start '$' = .dollar := rfl
  rw [dollar, hds, cons_append, cons_append, readNumbers, hmode, readNumbers, if_pos hd, hread]
  simpa [digitValue] using hvalue

/-- The mode of the reader between the characters of a text. -/
def DollarMode.between (q : Bool) : DollarMode := if q then .quoted else .text

theorem noDigit_number (h : NoDigit (cs ++ rest)) (q : Bool) (k : Nat) :
    NoDigit (number dollar q k cs ++ rest) := by
  cases cs with
  | nil => exact h
  | cons c cs =>
    have hc : c.isDigit = false := h c rfl
    simp only [number]
    split_ifs with hquote hmark
    · exact fun d hd => by cases hd; exact hc
    · exact fun d hd => by cases hd; decide
    · exact fun d hd => by cases hd; exact hc

variable {c : Char}

/-- After a placeholder or a dollar sign outside of quotes there is no digit. -/
theorem noDigit_of_clean (hrest : StartsSafe rest)
    (hclean : clean false (c :: cs) = true) (hc : isMark c = true ∨ c = '$') :
    NoDigit (cs ++ rest) := by
  cases cs with
  | nil => exact hrest.noDigit
  | cons d cs =>
    intro e he
    cases he
    simp only [clean, Bool.false_or, Bool.and_eq_true, Bool.not_eq_true', head?_cons,
      Option.any_some] at hclean
    by_contra hdigit
    rcases hc with hc | hc <;> simp [clashes, hc, hdigit] at hclean

/-- **Numbered placeholders are read back** from a clean text. -/
theorem readNumbers_number (hrest : StartsSafe rest) (cs : List Char) :
    ∀ q k, clean q cs = true → readNumbers (.between q) (number dollar q k cs ++ rest) =
        List.range' (k + 1) (marks q cs) ++ readNumbers (.between (quotedAfter q cs)) rest := by
  induction cs with
  | nil => exact fun q k _ => rfl
  | cons c cs ih =>
    intro q k hclean
    have hcs : clean (if isQuote c then !q else q) cs = true := (Bool.and_eq_true_iff.mp hclean).2
    simp only [number, marks, quotedAfter]
    split_ifs at hcs ⊢ with hquote hmark
    · -- a quote begins or ends a literal
      have hmode : ∀ ds, readNumbers (.between q) (c :: ds) = readNumbers (.between (!q)) ds := by
        cases q <;> simp [between, readNumbers, start, hquote]
      rw [cons_append, hmode, ih _ _ hcs]
    · -- a placeholder; what follows it does not continue its number
      obtain ⟨hmarkc, hq⟩ := Bool.and_eq_true_iff.mp hmark
      obtain rfl : q = false := by simpa using hq
      have hnext := noDigit_number (noDigit_of_clean hrest hclean (Or.inl hmarkc)) false (k + 1)
      rw [append_assoc]
      refine (readNumbers_dollar_append (k + 1) hnext).trans ?_
      rw [List.range'_succ, cons_append]
      exact congrArg _ (ih false (k + 1) hcs)
    · rw [cons_append, ← ih q k hcs]
      cases q with
      | true => simp [between, readNumbers, hquote]
      | false =>
        by_cases hdollar : c = '$'
        · have hnext := noDigit_number (noDigit_of_clean hrest hclean (Or.inr hdollar)) false k
          subst hdollar
          exact readNumbers_dollar hnext
        · simp [between, readNumbers, start, hquote, hdollar]

section Pieces

variable {α : Type} {ps : List (Fragment α)}

theorem startsSafe_numbered (k : Nat) (hsafe : ∀ p ∈ ps, p.text ≠ [] ∧ StartsSafe p.text) :
    StartsSafe (numbered dollar k ps) := by
  cases ps with
  | nil => exact nofun
  | cons p ps =>
    obtain ⟨hne, hp⟩ := hsafe p mem_cons_self
    obtain ⟨c, cs, hcs⟩ := exists_cons_of_ne_nil hne
    obtain ⟨-, -, hmark⟩ := hp c (by rw [hcs]; rfl)
    intro d hd
    refine hp d ?_
    rw [hcs]
    simp only [numbered, hcs, number, hmark, Bool.false_and, Bool.false_eq_true, if_false] at hd
    split_ifs at hd <;> exact hd

/-- The placeholders of clean pieces are read back. All but the first have to begin with a
character that does not clash with the piece before. -/
theorem readNumbers_numbered (halign : ∀ p ∈ ps, p.Aligned)
    (hclean : ∀ p ∈ ps, clean false p.text = true)
    (hsafe : ∀ p ∈ ps.tail, p.text ≠ [] ∧ StartsSafe p.text) :
    ∀ k, readNumbers .text (numbered dollar k ps) = List.range' (k + 1) (argsOf ps).length := by
  induction ps with
  | nil => exact fun k => rfl
  | cons p ps ih =>
    intro k
    obtain ⟨hp, halign⟩ := forall_mem_cons.mp halign
    obtain ⟨hpclean, hclean⟩ := forall_mem_cons.mp hclean
    have hrest := @startsSafe_numbered α ps (k + p.args.length) hsafe
    have hread := readNumbers_number hrest p.text false k hpclean
    have htail := ih halign hclean (fun q hq => hsafe q (mem_of_mem_tail hq))
      (k + p.args.length)
    simp only [between, hp.1, hp.2, Bool.false_eq_true, if_false] at hread
    rw [numbered, hread, htail, argsOf_cons, length_append, ← List.range'_append_1,
      Nat.add_right_comm]

theorem clean_textOf (halign : ∀ p ∈ ps, p.Aligned) (hclean : ∀ p ∈ ps, clean false p.text = true)
    (hsafe : ∀ p ∈ ps.tail, p.text ≠ [] ∧ StartsSafe p.text) : clean false (textOf ps) = true := by
  induction ps with
  | nil => rfl
  | cons p ps ih =>
    obtain ⟨hp, halign⟩ := forall_mem_cons.mp halign
    obtain ⟨hpclean, hclean⟩ := forall_mem_cons.mp hclean
    have hstart : StartsSafe (textOf ps) := by
      cases ps with
      | nil => exact nofun
      | cons r ps =>
        obtain ⟨hne, hr⟩ := hsafe r mem_cons_self
        intro d hd
        rw [textOf_cons, head?_append_of_ne_nil _ hne] at hd
        exact hr d hd
    have hrest := ih halign hclean fun q hq => hsafe q (mem_of_mem_tail hq)
    rw [textOf_cons]
    refine clean_append hstart hpclean ?_
    rwa [hp.1]

end Pieces

/-! ### Separators -/

/-- A character that is no quote, no placeholder and no dollar sign. -/
def isPlainChar (c : Char) : Bool := !isQuote c && !isMark c && c ≠ '$'

/-- A separator consists of such characters, and does not begin with a digit. -/
def isSeparator (sep : List Char) : Bool :=
  !sep.isEmpty && !sep.head?.any Char.isDigit && sep.all isPlainChar

/-- A fragment after a separator. -/
def Fragment.after {α : Type} (sep : List Char) (p : Fragment α) : Fragment α :=
  ⟨sep ++ p.text, p.args⟩

theorem isPlain_iff : isPlainChar c = true ↔ isQuote c = false ∧ isMark c = false ∧ c ≠ '$' := by
  simp [isPlainChar, and_assoc]

section Plain

variable (hplain : cs.all isPlainChar = true)

include hplain

theorem quotedAfter_plain (q : Bool) : quotedAfter q cs = q := by
  induction cs with
  | nil => rfl
  | cons c cs ih =>
    obtain ⟨hc, hcs⟩ := Bool.and_eq_true_iff.mp hplain
    rw [quotedAfter, (isPlain_iff.mp hc).1, if_neg Bool.false_ne_true, ih hcs]

theorem marks_plain (q : Bool) : marks q cs = 0 := by
  induction cs with
  | nil => rfl
  | cons c cs ih =>
    obtain ⟨hc, hcs⟩ := Bool.and_eq_true_iff.mp hplain
    obtain ⟨hquote, hmark, -⟩ := isPlain_iff.mp hc
    simp [marks, hquote, hmark, ih hcs]

theorem clean_plain_append {ds : List Char} {q : Bool} (h : clean q ds = true) :
    clean q (cs ++ ds) = true := by
  induction cs with
  | nil => exact h
  | cons c cs ih =>
    obtain ⟨hc, hcs⟩ := Bool.and_eq_true_iff.mp hplain
    obtain ⟨hquote, hmark, hdollar⟩ := isPlain_iff.mp hc
    have hnone : (cs ++ ds).head?.any (clashes c) = false := by
      cases (cs ++ ds).head? <;> simp [clashes, hmark, hdollar]
    rw [cons_append, clean, hnone, hquote, if_neg Bool.false_ne_true, ih hcs]
    simp

variable {α : Type} {p : Fragment α}

theorem Fragment.Aligned.after (h : p.Aligned) : (p.after cs).Aligned := by
  refine ⟨?_, ?_⟩
  · rw [Fragment.after, quotedAfter_append, quotedAfter_plain hplain]
    exact h.1
  · rw [Fragment.after, marks_append, quotedAfter_plain hplain, marks_plain hplain, Nat.zero_add]
    exact h.2

theorem Fragment.clean_after (h : clean false p.text = true) :
    clean false (p.after cs).text = true :=
  clean_plain_append hplain h

end Plain

theorem Fragment.startsSafe_after {α : Type} {sep : List Char} (hsep : isSeparator sep = true)
    (p : Fragment α) : (p.after sep).text ≠ [] ∧ StartsSafe (p.after sep).text := by
  obtain ⟨⟨hne, hdigit⟩, hplain⟩ : (sep.isEmpty = false ∧ sep.head?.any Char.isDigit = false) ∧
      sep.all isPlainChar = true := by
    simpa [isSeparator] using hsep
  cases sep with
  | nil => cases hne
  | cons c cs =>
    obtain ⟨-, hmark, hdollar⟩ := isPlain_iff.mp (Bool.and_eq_true_iff.mp hplain).1
    refine ⟨cons_ne_nil _ _, ?_⟩
    intro d hd
    cases hd
    exact ⟨hdigit, hdollar, hmark⟩

end Sql
