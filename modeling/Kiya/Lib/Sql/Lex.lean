import Mathlib.Data.List.Basic

/-!
# Lexical items of SQL conditions

A condition is read character by character into words, quoted literals, symbols, parentheses
and `?` placeholders. The fragment is the one in which the dialects agree: comments, `;`, `#`,
`$`, backslashes inside quotes and the doubled operators `||` and `&&` are rejected, and a
quote inside a quoted literal is written twice.

The reader is a state machine, so a text can be read in pieces. A piece that can be read on its
own can be read anywhere after a blank or an opening parenthesis, with the same items
(`lex_blank`, `lex_paren`); `bindArgs` then replaces the placeholders by the arguments, in
order, and rejects any other number of them.
-/

namespace Sql

/-- A lexical item; a placeholder carries the argument bound to it. -/
inductive Item (V : Type) where
  | word (cs : List Char)
  | quoted (q : Nat) (cs : List Char)
  | sym (c : Char)
  | lparen
  | rparen
  | arg (v : V)
  deriving DecidableEq, Repr

/-- The quotes: of strings, and of names in the two dialects. -/
inductive Quote where
  | single
  | double
  | back
  deriving DecidableEq, Repr

/-- The character code of a quote. -/
def Quote.code : Quote → Nat
  | .single => 39
  | .double => 34
  | .back => 96

/-- The quote a character is. -/
def quote? (c : Char) : Option Quote :=
  if c.toNat = 39 then some .single
  else if c.toNat = 34 then some .double
  else if c.toNat = 96 then some .back
  else none

/-- Blanks: space, tab and the line ends. -/
def isBlank (c : Char) : Bool := c.toNat = 32 || c.toNat = 9 || c.toNat = 10 || c.toNat = 13

/-- Characters of names, keywords and numbers. -/
def isWordChar (c : Char) : Bool := c.isAlphanum || c = '_' || c = '.' || 128 ≤ c.toNat

/-- Characters outside the fragment: `;`, `#`, `$` and the backslash. -/
def isForeign (c : Char) : Bool := c = ';' || c = '#' || c = '$' || c.toNat = 92

/-- Pairs of symbols outside the fragment: comments and the doubled operators. -/
def isForeignPair (c d : Char) : Bool :=
  (c = '-' && d = '-') || (c = '/' && d = '*') || (c = '|' && d = '|') || (c = '&' && d = '&')

/-- What the reader is in the middle of. -/
inductive Mode where
  | gap
  | word (cs : List Char)
  | quoted (q : Quote) (cs : List Char)
  | closed (q : Quote) (cs : List Char)
  | sym (c : Char)

/-- The items read so far, and what the reader is in the middle of. -/
structure Reader where
  items : List (Item Unit)
  mode : Mode

variable {is : List (Item Unit)} {cs : List Char}

namespace Reader

/-- Finish the item the reader is in the middle of; an open quote cannot be finished. -/
def flush : Reader → Option (List (Item Unit))
  | ⟨is, .gap⟩ => some is
  | ⟨is, .word cs⟩ => some (is ++ [.word cs])
  | ⟨is, .closed q cs⟩ => some (is ++ [.quoted q.code cs])
  | ⟨is, .sym c⟩ => some (is ++ [.sym c])
  | ⟨_, .quoted _ _⟩ => none

/-- Begin a new item with `c`. -/
def start (is : List (Item Unit)) (c : Char) : Option Reader :=
  if isBlank c then some ⟨is, .gap⟩
  else if isWordChar c then some ⟨is, .word [c]⟩
  else if c = '(' then some ⟨is ++ [.lparen], .gap⟩
  else if c = ')' then some ⟨is ++ [.rparen], .gap⟩
  else if c = '?' then some ⟨is ++ [.arg ()], .gap⟩
  else if isForeign c then none
  else match quote? c with
    | some q => some ⟨is, .quoted q []⟩
    | none => some ⟨is, .sym c⟩

/-- Read one character. -/
def step (r : Reader) (c : Char) : Option Reader :=
  match r.mode with
  | .gap => start r.items c
  | .word cs =>
    if isWordChar c then some ⟨r.items, .word (cs ++ [c])⟩ else r.flush >>= (start · c)
  | .quoted q cs =>
    if c.toNat = q.code then some ⟨r.items, .closed q cs⟩
    else if c.toNat = 92 then none
    else some ⟨r.items, .quoted q (cs ++ [c])⟩
  | .closed q cs =>
    -- a doubled quote is one quote inside the literal
    if c.toNat = q.code then some ⟨r.items, .quoted q (cs ++ [c])⟩ else r.flush >>= (start · c)
  | .sym d => if isForeignPair d c then none else r.flush >>= (start · c)

/-- Read a text. -/
def read (r : Reader) (cs : List Char) : Option Reader := cs.foldlM step r

/-- The reader after the items `pre`. -/
def after (pre : List (Item Unit)) (r : Reader) : Reader := ⟨pre ++ r.items, r.mode⟩

variable (pre : List (Item Unit))

theorem flush_after (r : Reader) : (r.after pre).flush = r.flush.map (pre ++ ·) := by
  obtain ⟨is, m⟩ := r
  cases m <;> simp [after, flush]

theorem start_append (pre is : List (Item Unit)) (c : Char) :
    start (pre ++ is) c = (start is c).map (after pre) := by
  unfold start
  split_ifs <;> try simp [after]
  split <;> simp [after]

/-- Earlier items do not influence how a character is read. -/
theorem step_after (r : Reader) (c : Char) : (r.after pre).step c = (r.step c).map (after pre) := by
  have hflush : ((r.after pre).flush >>= (start · c)) =
      (r.flush >>= (start · c)).map (after pre) := by
    rw [flush_after]
    cases r.flush with
    | none => rfl
    | some is => exact start_append pre is c
  obtain ⟨is, m⟩ := r
  cases m with
  | gap => exact start_append pre is c
  | word cs =>
    simp only [step, after] at hflush ⊢
    split_ifs
    · rfl
    · exact hflush
  | quoted q cs =>
    simp only [step, after]
    split_ifs <;> rfl
  | closed | sym =>
    simp only [step, after] at hflush ⊢
    split_ifs
    · rfl
    · exact hflush

theorem read_after (r : Reader) (cs : List Char) :
    (r.after pre).read cs = (r.read cs).map (after pre) := by
  induction cs generalizing r with
  | nil => rfl
  | cons c cs ih =>
    simp only [read, List.foldlM_cons, step_after]
    cases r.step c with
    | none => rfl
    | some r' => exact ih r'

theorem read_append (r : Reader) (cs ds : List Char) :
    r.read (cs ++ ds) = r.read cs >>= fun r' => r'.read ds := by
  simp [read, List.foldlM_append]

theorem read_cons (r : Reader) (c : Char) (cs : List Char) :
    r.read (c :: cs) = r.step c >>= fun r' => r'.read cs := by
  simp [read, List.foldlM_cons]

variable {r : Reader}

/-- A blank ends the item that is being read. -/
theorem step_blank (h : r.flush = some is) : r.step ' ' = some ⟨is, .gap⟩ := by
  obtain ⟨js, m⟩ := r
  cases m with
  | gap => simpa [step, start, flush, isBlank] using h
  | word cs =>
    have hw : isWordChar ' ' = false := by decide
    simp only [step, hw, h]
    rfl
  | quoted q cs => simp [flush] at h
  | closed q cs =>
    have hq : ' '.toNat ≠ q.code := by cases q <;> decide
    simp only [step, hq, h]
    rfl
  | sym d =>
    have hp : isForeignPair d ' ' = false := by simp [isForeignPair]
    simp only [step, hp, h]
    rfl

/-- A closing parenthesis ends the item that is being read, and is an item. -/
theorem step_rparen (h : r.flush = some is) : r.step ')' = some ⟨is ++ [.rparen], .gap⟩ := by
  obtain ⟨js, m⟩ := r
  cases m with
  | gap =>
    obtain rfl : js = is := by simpa [flush] using h
    rfl
  | word cs =>
    have hw : isWordChar ')' = false := by decide
    simp only [step, hw, h]
    rfl
  | quoted q cs => simp [flush] at h
  | closed q cs =>
    have hq : ')'.toNat ≠ q.code := by cases q <;> decide
    simp only [step, hq, h]
    rfl
  | sym d =>
    have hp : isForeignPair d ')' = false := by simp [isForeignPair]
    simp only [step, hp, h]
    rfl

end Reader

open Reader

/-- The items of a text, if it is in the fragment and its quotes are closed. -/
def lex (cs : List Char) : Option (List (Item Unit)) :=
  (mk [] .gap).read cs >>= flush

theorem lex_eq_some_iff :
    lex cs = some is ↔ ∃ r, (mk [] .gap).read cs = some r ∧ r.flush = some is := by
  simp [lex, Option.bind_eq_some_iff]

/-- Reading a text after other items. -/
theorem read_of_lex (h : lex cs = some is) (pre : List (Item Unit)) :
    ∃ r, (mk pre .gap).read cs = some r ∧ r.flush = some (pre ++ is) := by
  obtain ⟨r, hread, hflush⟩ := lex_eq_some_iff.mp h
  refine ⟨r.after pre, ?_, ?_⟩
  · have hafter := read_after pre ⟨[], .gap⟩ cs
    rw [hread] at hafter
    simpa [after] using hafter
  · rw [flush_after, hflush]
    rfl

/-- **Texts separated by a blank** are read independently. -/
theorem lex_blank {cs ds : List Char} {is js : List (Item Unit)} (hc : lex cs = some is)
    (hd : lex ds = some js) : lex (cs ++ ' ' :: ds) = some (is ++ js) := by
  obtain ⟨r, hread, hflush⟩ := lex_eq_some_iff.mp hc
  obtain ⟨r', hread', hflush'⟩ := read_of_lex hd is
  refine lex_eq_some_iff.mpr ⟨r', ?_, hflush'⟩
  rw [read_append, hread, Option.bind_eq_bind, Option.bind_some, read_cons, step_blank hflush]
  exact hread'

/-- **A text in parentheses** is read as it is alone. -/
theorem lex_paren (h : lex cs = some is) :
    lex ('(' :: (cs ++ [')'])) = some (.lparen :: (is ++ [.rparen])) := by
  obtain ⟨r, hread, hflush⟩ := read_of_lex h [.lparen]
  refine lex_eq_some_iff.mpr ⟨⟨[.lparen] ++ is ++ [.rparen], .gap⟩, ?_, rfl⟩
  have hopen : (mk [] .gap).step '(' = some ⟨[.lparen], .gap⟩ := rfl
  rw [read_cons, hopen, Option.bind_eq_bind, Option.bind_some, read_append, hread,
    Option.bind_eq_bind, Option.bind_some, read_cons, step_rparen hflush]
  rfl

theorem read_word (pre : List Char) (h : ∀ c ∈ cs, isWordChar c = true) :
    (mk [] (.word pre)).read cs = some ⟨[], .word (pre ++ cs)⟩ := by
  induction cs generalizing pre with
  | nil => simp [Reader.read]
  | cons c cs ih =>
    have hc : isWordChar c = true := h c List.mem_cons_self
    rw [read_cons]
    simp only [step, hc, if_true, Option.bind_eq_bind, Option.bind_some]
    rw [ih (pre ++ [c]) fun d hd => h d (List.mem_cons_of_mem _ hd), List.append_assoc,
      List.singleton_append]

/-- A word is one item. -/
theorem lex_word (hne : cs ≠ []) (h : ∀ c ∈ cs, isWordChar c = true) :
    lex cs = some [.word cs] := by
  obtain ⟨c, cs, rfl⟩ := List.exists_cons_of_ne_nil hne
  have hc : isWordChar c = true := h c List.mem_cons_self
  have hb : isBlank c = false := by
    by_contra hb
    simp only [isBlank, Bool.not_eq_false, Bool.or_eq_true, decide_eq_true_eq] at hb
    have hc' : c = ' ' ∨ c = '\t' ∨ c = '\n' ∨ c = '\r' := by
      rcases hb with ((hb | hb) | hb) | hb
      · exact .inl (Char.toNat_inj.mp hb)
      · exact .inr (.inl (Char.toNat_inj.mp hb))
      · exact .inr (.inr (.inl (Char.toNat_inj.mp hb)))
      · exact .inr (.inr (.inr (Char.toNat_inj.mp hb)))
    rcases hc' with rfl | rfl | rfl | rfl <;> exact absurd hc (by decide)
  have hstep : (mk [] .gap).step c = some ⟨[], .word [c]⟩ := by
    simp [step, start, hb, hc]
  refine lex_eq_some_iff.mpr ⟨⟨[], .word (c :: cs)⟩, ?_, rfl⟩
  rw [read_cons, hstep, Option.bind_eq_bind, Option.bind_some,
    read_word [c] fun d hd => h d (List.mem_cons_of_mem _ hd), List.singleton_append]

/-! ### Arguments -/

variable {V : Type}

/-- An item other than a placeholder, which no argument changes. -/
def Item.fixed : Item Unit → Option (Item V)
  | .word cs => some (.word cs)
  | .quoted q cs => some (.quoted q cs)
  | .sym c => some (.sym c)
  | .lparen => some .lparen
  | .rparen => some .rparen
  | .arg () => none

/-- Replace the placeholders by the arguments, in order; there must be one for each. -/
def bindArgs : List (Item Unit) → List V → Option (List (Item V))
  | [], [] => some []
  | [], _ :: _ => none
  | i :: is, vs =>
    match i.fixed, vs with
    | some x, vs => (bindArgs is vs).map (x :: ·)
    | none, v :: vs => (bindArgs is vs).map (.arg v :: ·)
    | none, [] => none

/-- Texts with their own arguments can be put one after the other. -/
theorem bindArgs_append {is js : List (Item Unit)} {vs ws : List V} {xs ys : List (Item V)}
    (hi : bindArgs is vs = some xs) (hj : bindArgs js ws = some ys) :
    bindArgs (is ++ js) (vs ++ ws) = some (xs ++ ys) := by
  fun_induction bindArgs is vs generalizing xs with
  | case1 =>
    obtain rfl := Option.some.inj hi
    exact hj
  | case2 => cases hi
  | case3 i is vs x hx ih =>
    obtain ⟨zs, hzs, rfl⟩ := Option.map_eq_some_iff.mp hi
    simp [bindArgs, hx, ih hzs]
  | case4 i is v vs hx ih =>
    obtain ⟨zs, hzs, rfl⟩ := Option.map_eq_some_iff.mp hi
    simp [bindArgs, hx, ih hzs]
  | case5 => cases hi

end Sql
