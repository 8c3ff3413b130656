import Kiya.Lib.Regex

/-!
# The syntax of regular expressions

How a text is read as a regular expression, by the rules of RE2: literal characters and escapes,
classes, groups, alternation and repetition. A lexer splits the text into tokens; a parser goes
through them with a stack of open groups, where alternation binds weakest and repetition takes the
last item only. What is not covered is refused: flags, named groups, quoted text, and anchors other
than `^` and `$`. Which characters a Unicode class has is a parameter.

`parse_anchored` says what becomes of an expression when `^` is put in front of its text and `$`
behind it: the anchors go to the first and to the last alternative.
-/

namespace RegexSyntax

open List Option

/-- The tokens of an expression. -/
inductive Token
  | atom (p : Char → Bool)
  | caret
  | dollar
  | opening
  | closing
  | bar
  | times (min : ℕ) (max : Option ℕ)

/-- The characters of Unicode classes, by name; none if there is no such class. -/
abbrev UnicodeTable := List Char → Option (Char → Bool)

/-! ### Numbers and escapes -/

/-- The value of digits to some base. -/
def numeral (base : ℕ) (value : Char → ℕ) (ds : List Char) : ℕ :=
  ds.foldl (fun n c => base * n + value c) 0

variable (t : List Char) (f : Frame) (c : Char) (s : List Char)

/-- A number in decimal, without leading zeros. -/
def parseInt : Option (ℕ × List Char) :=
  let ds := s.takeWhile Char.isDigit
  if ds = [] ∨ (2 ≤ ds.length ∧ ds.head? = some '0') then none
  else some (numeral 10 (fun c => c.toNat - 48) ds, s.dropWhile Char.isDigit)

/-- The rest of a counted repetition, behind its opening brace. -/
def parseRepeat : Option ((ℕ × Option ℕ) × List Char) :=
  match parseInt s with
  | some (min, '}' :: rest) => some ((min, some min), rest)
  | some (min, ',' :: '}' :: rest) => some ((min, none), rest)
  | some (min, ',' :: t) =>
    match parseInt t with
    | some (max, '}' :: rest) => some ((min, some max), rest)
    | _ => none
  | _ => none

/-- A digit to base 8. -/
def isOctal : Bool := '0' ≤ c ∧ c ≤ '7'

/-- A digit to base 16. -/
def isHex : Bool := c.isDigit ∨ ('a' ≤ c ∧ c ≤ 'f') ∨ ('A' ≤ c ∧ c ≤ 'F')

/-- The value of a digit to base 16. -/
def hexValue : ℕ :=
  if c.isDigit then c.toNat - 48 else if 'a' ≤ c then c.toNat - 87 else c.toNat - 55

/-- A character by its number to base 16: in braces, or with two digits. -/
def parseHex : List Char → Option (ℕ × List Char)
  | '{' :: t =>
    let ds := t.takeWhile isHex
    match t.dropWhile isHex with
    | '}' :: rest =>
      if ds = [] ∨ 0x10ffff < numeral 16 hexValue ds then none
      else some (numeral 16 hexValue ds, rest)
    | _ => none
  | a :: b :: t => if isHex a ∧ isHex b then some (numeral 16 hexValue [a, b], t) else none
  | _ => none

/-- The escapes of control characters. -/
def controls : List (Char × ℕ) := [('a', 7), ('f', 12), ('t', 9), ('n', 10), ('r', 13), ('v', 11)]

/-- The number of an escaped character, behind its backslash. -/
def parseEscape : List Char → Option (ℕ × List Char)
  | [] => none
  | c :: t =>
    if isOctal c then
      -- a single digit other than zero would be a reference to a group
      if c ≠ '0' ∧ ¬ t.head?.any isOctal then none
      else
        let ds := (t.takeWhile isOctal).take 2
        some (numeral 8 (fun c => c.toNat - 48) (c :: ds), t.drop ds.length)
    else if c = 'x' then parseHex t
    else
      match controls.lookup c with
      | some n => some (n, t)
      | none => if c.toNat < 128 ∧ ¬ c.isAlphanum then some (c.toNat, t) else none

/-! ### Classes -/

/-- The characters with numbers in a range. -/
def inRange (lo hi : ℕ) (c : Char) : Bool := lo ≤ c.toNat ∧ c.toNat ≤ hi

/-- A character by its number. -/
def single (n : ℕ) : Char → Bool := inRange n n

/-- Letters, digits and the underscore. -/
def isWord : Bool := c.isAlphanum ∨ c = '_'

/-- White space. -/
def isSpace : Bool := c ∈ ['\t', '\n', '\r', ' '] ∨ c.toNat = 12

/-- The classes with a letter. -/
def perlClass : Char → Option (Char → Bool)
  | 'd' => some Char.isDigit
  | 's' => some isSpace
  | 'w' => some isWord
  | 'D' => some fun c => !c.isDigit
  | 'S' => some fun c => !isSpace c
  | 'W' => some fun c => !isWord c
  | _ => none

/-- The classes with a name between colons. -/
def posixTable : List (String × (Char → Bool)) :=
  [("alnum", Char.isAlphanum), ("alpha", Char.isAlpha), ("ascii", inRange 0 127),
    ("blank", fun c => c = '\t' ∨ c = ' '), ("cntrl", fun c => inRange 0 31 c ∨ c.toNat = 127),
    ("digit", Char.isDigit), ("graph", inRange 33 126), ("lower", Char.isLower),
    ("print", inRange 32 126), ("punct", fun c => inRange 33 126 c ∧ ¬ c.isAlphanum),
    ("space", fun c => isSpace c ∨ c.toNat = 11), ("upper", Char.isUpper), ("word", isWord),
    ("xdigit", isHex)]

/-- A class by its name between colons, which may start with `^`. -/
def posixClass : List Char → Option (Char → Bool)
  | '^' :: name => (posixTable.lookup (String.ofList name)).map fun p c => !p c
  | name => posixTable.lookup (String.ofList name)

/-- A Unicode class by its name, which may start with `^`. -/
def tableClass (U : UnicodeTable) (negated : Bool) : List Char → Option (Char → Bool)
  | '^' :: name => (U name).map fun p c => p c == negated
  | name => (U name).map fun p c => p c != negated

/-- The rest of a Unicode class, behind `\p` or `\P`. -/
def parseUnicode (U : UnicodeTable) (negated : Bool) :
    List Char → Option ((Char → Bool) × List Char)
  | [] => none
  | '{' :: t =>
    match t.dropWhile (· ≠ '}') with
    | [] => none
    | _ :: rest => (tableClass U negated (t.takeWhile (· ≠ '}'))).map (·, rest)
  | c :: t => (tableClass U negated [c]).map (·, t)

/-- A character in a class. -/
def classChar : List Char → Option (ℕ × List Char)
  | [] => none
  | '\\' :: t => parseEscape t
  | c :: t => some (c.toNat, t)

/-- A hyphen that makes a range: a last one before the closing bracket is a character. -/
def startsRange : Bool :=
  t.head? = some '-' ∧ 2 ≤ t.length ∧ t.tail.head? ≠ some ']'

/-- A character or a range in a class. -/
def classRange : Option ((Char → Bool) × List Char) :=
  (classChar s).bind fun x =>
    if startsRange x.2 then
      (classChar x.2.tail).bind fun y => if y.1 < x.1 then none else some (inRange x.1 y.1, y.2)
    else some (single x.1, x.2)

/-- What stands before the first `:]`, and what behind it. -/
def splitName : List Char → Option (List Char × List Char)
  | [] => none
  | c :: t =>
    if c = ':' ∧ t.head? = some ']' then some ([], t.tail)
    else (splitName t).map fun x => (c :: x.1, x.2)

/-- An item of a class, behind a backslash. -/
def classEscape (U : UnicodeTable) : List Char → Option ((Char → Bool) × List Char)
  | [] => none
  | c :: t =>
    if c = 'p' ∨ c = 'P' then parseUnicode U (c = 'P') t
    else
      match perlClass c with
      | some p => some (p, t)
      | none => classRange ('\\' :: c :: t)

/-- An item of a class, behind a bracket: a name between colons, or else the bracket itself. -/
def classNamed : Option ((Char → Bool) × List Char) :=
  match if t.head? = some ':' then splitName t.tail else none with
  | some (name, rest) => (posixClass name).map (·, rest)
  | none => classRange ('[' :: t)

/-- One item of a class. -/
def classItem (U : UnicodeTable) : List Char → Option ((Char → Bool) × List Char)
  | [] => none
  | c :: t =>
    if c = '[' then classNamed t else if c = '\\' then classEscape U t else classRange (c :: t)

/-- The items of a class up to the bracket that closes it, in so many steps; a bracket that comes
first is an item. -/
def classItems (U : UnicodeTable) : ℕ → Bool → List Char → Option ((Char → Bool) × List Char)
  | 0, _, _ => none
  | n + 1, first, s =>
    if s.head? = some ']' ∧ first = false then some (fun _ => false, s.tail)
    else
      match classItem U s with
      | none => none
      | some (p, t) => (classItems U n false t).map fun x => (fun c => p c || x.1 c, x.2)

/-- The rest of a class, behind its opening bracket. -/
def parseClass (U : UnicodeTable) : List Char → Option ((Char → Bool) × List Char)
  | '^' :: t => (classItems U (t.length + 1) true t).map fun x => (fun c => !x.1 c, x.2)
  | t => classItems U (t.length + 1) true t

/-! ### Tokens -/

/-- A mark that makes a repetition take as little as it can; it does not change the language. -/
def dropLazy : List Char → List Char
  | '?' :: t => t
  | t => t

/-- The numbers of a repetition are not too large and in order. -/
def countsOk (min : ℕ) (max : Option ℕ) : Bool :=
  min ≤ 1000 ∧ max.all fun m => m ≤ 1000 ∧ min ≤ m

/-- What is behind a backslash outside of a class. -/
def lexEscape (U : UnicodeTable) : List Char → Option (Token × List Char)
  | [] => none
  | c :: t =>
    if c = 'p' ∨ c = 'P' then (parseUnicode U (c = 'P') t).map fun x => (.atom x.1, x.2)
    else
      match perlClass c with
      | some p => some (.atom p, t)
      | none => (parseEscape (c :: t)).map fun x => (.atom (single x.1), x.2)

/-- What is behind an opening parenthesis: `(?:` opens a group as well, and other marks are not
covered. -/
def lexGroup : List Char → Option (Token × List Char)
  | '?' :: ':' :: t => some (.opening, t)
  | '?' :: _ => none
  | t => some (.opening, t)

/-- What is behind an opening brace: the brace is a character unless a repetition follows. -/
def lexBrace : Option (Token × List Char) :=
  match parseRepeat t with
  | none => some (.atom (single 123), t)
  | some ((min, max), rest) =>
    if countsOk min max then some (.times min max, dropLazy rest) else none

/-- The next token. -/
def lexOne (U : UnicodeTable) : List Char → Option (Token × List Char)
  | [] => none
  | '(' :: t => lexGroup t
  | ')' :: t => some (.closing, t)
  | '|' :: t => some (.bar, t)
  | '^' :: t => some (.caret, t)
  | '$' :: t => some (.dollar, t)
  | '.' :: t => some (.atom (· ≠ '\n'), t)
  | '[' :: t => (parseClass U t).map fun x => (.atom x.1, x.2)
  | '*' :: t => some (.times 0 none, dropLazy t)
  | '+' :: t => some (.times 1 none, dropLazy t)
  | '?' :: t => some (.times 0 (some 1), dropLazy t)
  | '{' :: t => lexBrace t
  | '\\' :: t => lexEscape U t
  | c :: t => some (.atom (single c.toNat), t)

/-- The tokens of a text, in so many steps. -/
def lexIn (U : UnicodeTable) : ℕ → List Char → Option (List Token)
  | _, [] => some []
  | 0, _ :: _ => none
  | n + 1, c :: s =>
    match lexOne U (c :: s) with
    | none => none
    | some (t, rest) => (lexIn U n rest).map (t :: ·)

/-- The tokens of a text. -/
def lex (U : UnicodeTable) (s : List Char) : Option (List Token) := lexIn U s.length s

/-! ### Parsing -/

/-- A group that is being read: the alternatives that are finished, and the items of the last
one. -/
structure Frame where
  alts : List (List (Regex Char))
  items : List (Regex Char)

/-- The groups that are open, and whether the last token was a repetition. -/
structure Parser where
  top : Frame
  outer : List Frame
  repeated : Bool

/-- The alternatives of a group. -/
def Frame.all : List (List (Regex Char)) := f.alts ++ [f.items]

/-- One more item in the group. -/
def Frame.push (r : Regex Char) : Frame := { f with items := f.items ++ [r] }

/-- Repetitions inside each other do not make more than a number of copies. -/
def repeatOk : Regex Char → ℕ → Bool
  | .rep r min max, n =>
    let m := max.getD min
    if max = some 0 then true
    else if m > n then false
    else repeatOk r (if m > 0 then n / m else n)
  | .cat r s, n => repeatOk r n && repeatOk s n
  | .alt r s, n => repeatOk r n && repeatOk s n
  | _, _ => true

/-- One token. -/
def step (p : Parser) : Token → Option Parser
  | .atom q => some ⟨p.top.push (.char q), p.outer, false⟩
  | .caret => some ⟨p.top.push .start, p.outer, false⟩
  | .dollar => some ⟨p.top.push .stop, p.outer, false⟩
  | .opening => some ⟨⟨[], []⟩, p.top :: p.outer, false⟩
  | .closing =>
    match p.outer with
    | [] => none
    | f :: outer => some ⟨f.push (.ofAlts p.top.all), outer, false⟩
  | .bar => some ⟨⟨p.top.all, []⟩, p.outer, false⟩
  | .times min max =>
    match p.top.items.getLast? with
    | none => none
    | some r =>
      if p.repeated ∨ ((2 ≤ min ∨ max.any (2 ≤ ·)) ∧ ¬ repeatOk (.rep r min max) 1000) then none
      else some ⟨{ p.top with items := p.top.items.dropLast ++ [.rep r min max] }, p.outer, true⟩

/-- Token by token. -/
def steps : Parser → List Token → Option Parser
  | p, [] => some p
  | p, t :: ts => (step p t).bind (steps · ts)

/-- The alternatives of an expression; none if the text is not one. -/
def parse (U : UnicodeTable) (s : List Char) : Option (List (List (Regex Char))) :=
  match (lex U s).bind (steps ⟨⟨[], []⟩, [], false⟩) with
  | some ⟨top, [], _⟩ => some top.all
  | _ => none

/-! ### A dollar behind the text -/

/-- What reading a text comes to is the same with a dollar behind it. -/
def Stable {β : Type} (f : List Char → Option (β × List Char)) : Prop :=
  ∀ s x rest, f s = some (x, rest) → f (s ++ ['$']) = some (x, rest ++ ['$'])

variable {ts : List Token} (U : UnicodeTable)

section Stable

variable {p : Char → Bool} {s : List Char}

theorem takeWhile_end (hp : p '$' = false) (s : List Char) :
    (s ++ ['$']).takeWhile p = s.takeWhile p := by
  induction s with
  | nil => simp [hp]
  | cons c s ih => simp only [cons_append, takeWhile_cons, ih]

theorem dropWhile_end (hp : p '$' = false) (s : List Char) :
    (s ++ ['$']).dropWhile p = s.dropWhile p ++ ['$'] := by
  induction s with
  | nil => simp [hp]
  | cons c s ih =>
    simp only [cons_append, dropWhile_cons, ih]
    split_ifs <;> rfl

theorem parseInt_end (s : List Char) :
    parseInt (s ++ ['$']) = (parseInt s).map fun x => (x.1, x.2 ++ ['$']) := by
  simp only [parseInt, takeWhile_end (p := Char.isDigit) (by decide),
    dropWhile_end (p := Char.isDigit) (by decide)]
  split_ifs <;> rfl

theorem head?_end {c : Char} (hc : c ≠ '$') (s : List Char) :
    (s ++ ['$']).head? = some c ↔ s.head? = some c := by
  rcases s with _ | ⟨d, s⟩
  · simp [Ne.symm hc]
  · rfl

theorem parseRepeat_end (s : List Char) :
    parseRepeat (s ++ ['$']) = (parseRepeat s).map fun x => (x.1, x.2 ++ ['$']) := by
  rw [parseRepeat, parseRepeat, parseInt_end]
  rcases parseInt s with _ | ⟨min, _ | ⟨c, t⟩⟩
  · rfl
  · rfl
  · by_cases hbrace : c = '}'
    · subst hbrace
      rfl
    by_cases hcomma : c = ','
    · subst hcomma
      rcases t with _ | ⟨d, t⟩
      · simp [parseInt]
      by_cases hopen : d = '}'
      · subst hopen
        rfl
      · have hmax := parseInt_end (d :: t)
        simp only [cons_append] at hmax
        simp [hopen]
        rw [hmax]
        rcases parseInt (d :: t) with _ | ⟨max, _ | ⟨e, u⟩⟩
        · rfl
        · rfl
        · by_cases hclose : e = '}'
          · subst hclose
            rfl
          · simp [hclose]
    · simp [hbrace, hcomma]

theorem stable_parseHex : Stable parseHex := by
  intro s x rest h
  rw [parseHex.eq_def] at h
  split at h
  · rename_i t
    simp only [cons_append, parseHex, takeWhile_end (p := isHex) (by decide),
      dropWhile_end (p := isHex) (by decide)]
    dsimp only at h
    split at h
    · rename_i rest' heq
      rw [heq]
      split_ifs at h with hbad
      obtain ⟨rfl, rfl⟩ := Prod.mk.inj (some_inj.mp h)
      exact if_neg hbad
    · cases h
  · rename_i a b t hne
    split_ifs at h with hhex
    obtain ⟨rfl, rfl⟩ := Prod.mk.inj (some_inj.mp h)
    simp [parseHex, hhex]
  · cases h

theorem stable_parseEscape : Stable parseEscape := by
  intro s x rest h
  rcases s with _ | ⟨c, t⟩
  · cases h
  rw [cons_append]
  simp only [parseEscape] at h ⊢
  by_cases hoctal : isOctal c = true
  · rw [if_pos hoctal] at h ⊢
    have hhead : (t ++ ['$']).head?.any isOctal = t.head?.any isOctal := by
      rcases t with _ | ⟨d, t⟩
      · decide
      · rfl
    rw [hhead, takeWhile_end (p := isOctal) (by decide)]
    split_ifs at h ⊢ with href
    obtain ⟨rfl, rfl⟩ := Prod.mk.inj (some_inj.mp h)
    rw [drop_append_of_le_length]
    exact ((take_sublist _ _).trans (takeWhile_sublist _)).length_le
  rw [if_neg hoctal] at h ⊢
  by_cases hx : c = 'x'
  · rw [if_pos hx] at h ⊢
    exact stable_parseHex _ _ _ h
  rw [if_neg hx] at h ⊢
  rcases hcontrol : controls.lookup c with _ | n
  · simp only [hcontrol] at h ⊢
    split_ifs at h ⊢
    obtain ⟨rfl, rfl⟩ := Prod.mk.inj (some_inj.mp h)
    rfl
  · simp only [hcontrol] at h ⊢
    obtain ⟨rfl, rfl⟩ := Prod.mk.inj (some_inj.mp h)
    rfl

variable {rest : List Char}

/-- What is found in a text is found with something behind it. -/
theorem dropWhile_of_cons {p : Char → Bool} {t : List Char} {d : Char}
    (h : t.dropWhile p = d :: rest) (y : List Char) :
    (t ++ y).dropWhile p = d :: (rest ++ y) ∧ (t ++ y).takeWhile p = t.takeWhile p := by
  induction t with
  | nil => cases h
  | cons c t ih =>
    rw [dropWhile_cons] at h
    rw [cons_append, dropWhile_cons, takeWhile_cons, takeWhile_cons]
    split_ifs at h ⊢ with hc
    · exact ⟨(ih h).1, by rw [(ih h).2]⟩
    · obtain ⟨rfl, rfl⟩ := List.cons.inj h
      exact ⟨rfl, rfl⟩

theorem stable_parseUnicode (negated : Bool) : Stable (parseUnicode U negated) := by
  intro s x rest h
  rw [parseUnicode.eq_def] at h
  split at h
  · cases h
  · rename_i t
    split at h
    · cases h
    · rename_i d rest' heq
      obtain ⟨q, hq, hpair⟩ := map_eq_some_iff.mp h
      obtain ⟨rfl, rfl⟩ := Prod.mk.inj hpair
      obtain ⟨hdrop, htake⟩ := dropWhile_of_cons heq ['$']
      simp only [cons_append, parseUnicode, hdrop, htake, hq, map_some]
  · rename_i c t hne
    obtain ⟨q, hq, hpair⟩ := map_eq_some_iff.mp h
    obtain ⟨rfl, rfl⟩ := Prod.mk.inj hpair
    simp [parseUnicode, hq]

theorem stable_classChar : Stable classChar := by
  intro s x rest h
  rw [classChar.eq_def] at h
  split at h
  · cases h
  · exact stable_parseEscape _ _ _ h
  · rename_i c t hne
    obtain ⟨rfl, rfl⟩ := Prod.mk.inj (some_inj.mp h)
    simp [classChar]

theorem splitName_end (s : List Char) :
    splitName (s ++ ['$']) = (splitName s).map fun x => (x.1, x.2 ++ ['$']) := by
  induction s with
  | nil => rfl
  | cons c t ih =>
    rw [cons_append, splitName, splitName, ih]
    simp only [head?_end (c := ']') (by decide)]
    by_cases hmark : c = ':' ∧ t.head? = some ']'
    · rw [if_pos hmark, if_pos hmark]
      rcases t with _ | ⟨d, t⟩
      · cases hmark.2
      · rfl
    · rw [if_neg hmark, if_neg hmark, Option.map_map, Option.map_map]
      rfl

variable {t : List Char} {first : Bool}

theorem startsRange_end (ht : t ≠ ['-']) : startsRange (t ++ ['$']) = startsRange t := by
  rcases t with _ | ⟨c, _ | ⟨d, t⟩⟩
  · rfl
  · have hc : c ≠ '-' := fun hc => ht (by rw [hc])
    simp [startsRange, hc]
  · simp [startsRange]

theorem tail_end (ht : t ≠ []) : (t ++ ['$']).tail = t.tail ++ ['$'] :=
  tail_append_of_ne_nil ht

variable {q : Char → Bool} {n : ℕ}

/-- An item of a class, unless a hyphen is all that is left. -/
theorem classRange_end {s : List Char} (h : classRange s = some (q, rest)) (hrest : rest ≠ ['-']) :
    classRange (s ++ ['$']) = some (q, rest ++ ['$']) := by
  obtain ⟨⟨lo, t⟩, hchar, h⟩ := bind_eq_some_iff.mp h
  rw [classRange, stable_classChar _ _ _ hchar, bind_some]
  by_cases hrange : startsRange t = true
  · have hne : t ≠ ['-'] := by
      rintro rfl
      cases hrange
    have hnil : t ≠ [] := by
      rintro rfl
      cases hrange
    rw [if_pos hrange] at h
    obtain ⟨⟨hi, u⟩, hhi, h⟩ := bind_eq_some_iff.mp h
    rw [if_pos ((startsRange_end hne).trans hrange), tail_end hnil, stable_classChar _ _ _ hhi,
      bind_some]
    dsimp only at h ⊢
    split_ifs at h ⊢
    obtain ⟨rfl, rfl⟩ := Prod.mk.inj (some_inj.mp h)
    rfl
  · rw [if_neg hrange] at h
    obtain ⟨rfl, rfl⟩ := Prod.mk.inj (some_inj.mp h)
    rw [if_neg fun hend => hrange ((startsRange_end hrest).symm.trans hend)]

theorem classEscape_end {s : List Char} (h : classEscape U s = some (q, rest))
    (hrest : rest ≠ ['-']) : classEscape U (s ++ ['$']) = some (q, rest ++ ['$']) := by
  rcases s with _ | ⟨c, t⟩
  · cases h
  rw [cons_append]
  simp only [classEscape] at h ⊢
  by_cases hunicode : c = 'p' ∨ c = 'P'
  · rw [if_pos hunicode] at h ⊢
    exact stable_parseUnicode U _ _ _ _ h
  rw [if_neg hunicode] at h ⊢
  rcases hperl : perlClass c with _ | r
  · simp only [hperl] at h ⊢
    exact classRange_end h hrest
  · simp only [hperl] at h ⊢
    obtain ⟨rfl, rfl⟩ := Prod.mk.inj (some_inj.mp h)
    rfl

theorem classNamed_end {s : List Char} (h : classNamed s = some (q, rest)) (hrest : rest ≠ ['-']) :
    classNamed (s ++ ['$']) = some (q, rest ++ ['$']) := by
  have hname : (if (s ++ ['$']).head? = some ':' then splitName (s ++ ['$']).tail else none) =
      (if s.head? = some ':' then splitName s.tail else none).map fun x => (x.1, x.2 ++ ['$']) := by
    rcases s with _ | ⟨c, t⟩
    · rfl
    · by_cases hc : (c :: t).head? = some ':'
      · have hc' : (c :: t ++ ['$']).head? = some ':' := hc
        rw [if_pos hc, if_pos hc']
        exact splitName_end t
      · have hc' : ¬ (c :: t ++ ['$']).head? = some ':' := hc
        rw [if_neg hc, if_neg hc']
        rfl
  rw [classNamed] at h ⊢
  rw [hname]
  rcases hsplit : if s.head? = some ':' then splitName s.tail else none with _ | ⟨name, after⟩
  · rw [hsplit] at h
    exact classRange_end h hrest
  · rw [hsplit] at h
    obtain ⟨r, hr, hpair⟩ := map_eq_some_iff.mp h
    obtain ⟨rfl, rfl⟩ := Prod.mk.inj hpair
    simp only [map_some, hr]

theorem classItem_end {s : List Char} (h : classItem U s = some (q, rest)) (hrest : rest ≠ ['-']) :
    classItem U (s ++ ['$']) = some (q, rest ++ ['$']) := by
  rcases s with _ | ⟨c, t⟩
  · cases h
  rw [cons_append]
  simp only [classItem] at h ⊢
  split_ifs at h ⊢
  · exact classNamed_end h hrest
  · exact classEscape_end U h hrest
  · exact classRange_end h hrest

theorem classItems_succ {s : List Char}
    {x : (Char → Bool) × List Char} (h : classItems U n first s = some x) :
    classItems U (n + 1) first s = some x := by
  induction n generalizing first s x with
  | zero => cases h
  | succ n ih =>
    rw [classItems] at h ⊢
    split_ifs at h ⊢ with hclose
    · exact h
    · rcases hitem : classItem U s with _ | ⟨q, t⟩
      · simp only [hitem] at h
        cases h
      · simp only [hitem] at h ⊢
        obtain ⟨y, hy, rfl⟩ := map_eq_some_iff.mp h
        rw [ih hy, map_some]

/-- With a hyphen alone a class is not closed. -/
theorem classItems_hyphen (n : ℕ) : classItems U n false ['-'] = none := by
  rcases n with _ | _ | n
  · rfl
  · rfl
  · rfl

theorem classItems_end {s : List Char} (h : classItems U n first s = some (q, rest)) :
    classItems U n first (s ++ ['$']) = some (q, rest ++ ['$']) := by
  induction n generalizing first s q rest with
  | zero => cases h
  | succ n ih =>
    rw [classItems] at h ⊢
    have hhead : (s ++ ['$']).head? = some ']' ↔ s.head? = some ']' := head?_end (by decide) s
    simp only [hhead]
    split_ifs at h ⊢ with hclose
    · obtain ⟨rfl, rfl⟩ := Prod.mk.inj (some_inj.mp h)
      rcases s with _ | ⟨c, s⟩
      · cases hclose.1
      · rfl
    · rcases hitem : classItem U s with _ | ⟨r, t⟩
      · simp only [hitem] at h
        cases h
      · simp only [hitem] at h
        obtain ⟨⟨y, rest'⟩, hy, hpair⟩ := map_eq_some_iff.mp h
        obtain ⟨rfl, rfl⟩ := Prod.mk.inj hpair
        have hne : t ≠ ['-'] := by
          rintro rfl
          rw [classItems_hyphen] at hy
          cases hy
        simp only [classItem_end U hitem hne, ih hy, map_some]

theorem stable_parseClass : Stable (parseClass U) := by
  have hmore (t : List Char) (q : Char → Bool) (rest : List Char)
      (h : classItems U (t.length + 1) true t = some (q, rest)) :
      classItems U ((t ++ ['$']).length + 1) true (t ++ ['$']) = some (q, rest ++ ['$']) := by
    rw [length_append]
    exact classItems_succ U (classItems_end U h)
  intro s x rest h
  rw [parseClass.eq_def] at h
  split at h
  · rename_i t
    obtain ⟨⟨q, rest'⟩, hq, hpair⟩ := map_eq_some_iff.mp h
    obtain ⟨rfl, rfl⟩ := Prod.mk.inj hpair
    simp only [cons_append, parseClass, hmore t q rest' hq, map_some]
  · rename_i hne
    have hitems := hmore s x rest h
    rw [parseClass.eq_def]
    split
    · rename_i t heq
      rcases s with _ | ⟨c, s⟩
      · cases heq
      · obtain ⟨rfl, -⟩ := List.cons.inj heq
        exact absurd rfl (hne s)
    · exact hitems

theorem dropLazy_end (t : List Char) : dropLazy (t ++ ['$']) = dropLazy t ++ ['$'] := by
  rcases t with _ | ⟨c, t⟩
  · rfl
  by_cases hc : c = '?'
  · subst hc
    rfl
  · simp [dropLazy, hc]

theorem stable_lexEscape : Stable (lexEscape U) := by
  intro s x rest h
  rcases s with _ | ⟨c, t⟩
  · cases h
  rw [cons_append]
  simp only [lexEscape] at h ⊢
  by_cases hunicode : c = 'p' ∨ c = 'P'
  · rw [if_pos hunicode] at h ⊢
    obtain ⟨⟨r, u⟩, hr, hpair⟩ := map_eq_some_iff.mp h
    obtain ⟨rfl, rfl⟩ := Prod.mk.inj hpair
    rw [stable_parseUnicode U _ _ _ _ hr, map_some]
  rw [if_neg hunicode] at h ⊢
  rcases hperl : perlClass c with _ | r
  · simp only [hperl] at h ⊢
    obtain ⟨⟨n, u⟩, hn, hpair⟩ := map_eq_some_iff.mp h
    obtain ⟨rfl, rfl⟩ := Prod.mk.inj hpair
    have hn' := stable_parseEscape _ _ _ hn
    rw [cons_append] at hn'
    rw [hn', map_some]
  · simp only [hperl] at h ⊢
    obtain ⟨rfl, rfl⟩ := Prod.mk.inj (some_inj.mp h)
    rfl

theorem stable_lexGroup : Stable lexGroup := by
  intro s x rest h
  rw [lexGroup.eq_def] at h
  split at h
  · obtain ⟨rfl, rfl⟩ := Prod.mk.inj (some_inj.mp h)
    rfl
  · cases h
  · rename_i hcolon hmark
    obtain ⟨rfl, rfl⟩ := Prod.mk.inj (some_inj.mp h)
    rcases s with _ | ⟨c, t⟩
    · rfl
    · have hc : c ≠ '?' := fun hc => hmark t (by rw [hc])
      simp [lexGroup, hc]

theorem stable_lexBrace : Stable lexBrace := by
  intro s x rest h
  rw [lexBrace, parseRepeat_end]
  rw [lexBrace] at h
  rcases hrepeat : parseRepeat s with _ | ⟨⟨min, max⟩, u⟩
  · simp only [hrepeat] at h
    obtain ⟨rfl, rfl⟩ := Prod.mk.inj (some_inj.mp h)
    rfl
  · simp only [hrepeat, map_some, dropLazy_end] at h ⊢
    split_ifs at h ⊢
    obtain ⟨rfl, rfl⟩ := Prod.mk.inj (some_inj.mp h)
    rfl

theorem stable_lexOne : Stable (lexOne U) := by
  intro s x rest h
  rw [lexOne.eq_def] at h
  split at h
  · cases h
  · exact stable_lexGroup _ _ _ h
  · cases h; rfl
  · cases h; rfl
  · cases h; rfl
  · cases h; rfl
  · cases h; rfl
  · obtain ⟨⟨q, u⟩, hq, hpair⟩ := map_eq_some_iff.mp h
    obtain ⟨rfl, rfl⟩ := Prod.mk.inj hpair
    simp only [cons_append, lexOne, stable_parseClass U _ _ _ hq, map_some]
  · cases h
    exact congrArg (fun u => some (Token.times 0 none, u)) (dropLazy_end _)
  · cases h
    exact congrArg (fun u => some (Token.times 1 none, u)) (dropLazy_end _)
  · cases h
    exact congrArg (fun u => some (Token.times 0 (some 1), u)) (dropLazy_end _)
  · exact stable_lexBrace _ _ _ h
  · exact stable_lexEscape U _ _ _ h
  · rename_i c t h1 h2 h3 h4 h5 h6 h7 h8 h9 h10 h11 h12
    cases h
    simp [lexOne, *]

theorem lexIn_end {s : List Char} (h : lexIn U n s = some ts) :
    lexIn U (n + 1) (s ++ ['$']) = some (ts ++ [.dollar]) := by
  induction n generalizing s ts with
  | zero =>
    rcases s with _ | ⟨c, s⟩
    · obtain rfl := some_inj.mp h
      rfl
    · cases h
  | succ n ih =>
    rcases s with _ | ⟨c, s⟩
    · obtain rfl := some_inj.mp h
      rfl
    rw [lexIn] at h
    rcases hone : lexOne U (c :: s) with _ | ⟨t, rest⟩
    · simp only [hone] at h
      cases h
    simp only [hone] at h
    obtain ⟨ts', hts, rfl⟩ := map_eq_some_iff.mp h
    have hone' := stable_lexOne U _ _ _ hone
    rw [cons_append] at hone' ⊢
    rw [lexIn]
    simp only [hone', ih hts, map_some, cons_append]

/-- **The tokens of a text between anchors.** -/
theorem lex_anchored {s : List Char} (h : lex U s = some ts) :
    lex U ('^' :: s ++ ['$']) = some (.caret :: ts ++ [.dollar]) := by
  have hlength : ('^' :: s ++ ['$']).length = s.length + 1 + 1 := by simp
  rw [lex, hlength, cons_append, lexIn]
  simp only [lexOne, lexIn_end U h, map_some, cons_append]

end Stable

/-! ### Anchors around an expression -/

/-- The same group with an anchor in front of its first alternative. -/
def Frame.anchor : Frame :=
  match f.alts with
  | [] => { f with items := .start :: f.items }
  | c :: cs => { f with alts := (.start :: c) :: cs }

/-- The outermost group is the last one. -/
def anchorLast : List Frame → List Frame
  | [] => []
  | [f] => [f.anchor]
  | f :: fs => f :: anchorLast fs

/-- The anchor is in the outermost group. -/
def Parser.anchor (p : Parser) : Parser :=
  match p.outer with
  | [] => { p with top := p.top.anchor }
  | _ => { p with outer := anchorLast p.outer }

section Anchor

variable {p p₁ : Parser} {t : Token}

theorem push_anchor (f : Frame) (r : Regex Char) : f.anchor.push r = (f.push r).anchor := by
  obtain ⟨_ | ⟨c, cs⟩, items⟩ := f <;> rfl

/-- An item that is added goes behind the anchor. -/
theorem anchor_push (f : Frame) (r : Regex Char) (repeated : Bool) :
    (⟨f.push r, [], repeated⟩ : Parser).anchor = ⟨f.anchor.push r, [], repeated⟩ :=
  congrArg (fun top => (⟨top, [], repeated⟩ : Parser)) (push_anchor f r).symm

/-- A repetition takes the last item, which is not the anchor. -/
theorem step_times_anchor {f : Frame} {outer : List Frame} {repeated : Bool} {min : ℕ}
    {max : Option ℕ} (h : step ⟨f, outer, repeated⟩ (.times min max) = some p₁) :
    p₁.outer = outer ∧ step ⟨f.anchor, outer, repeated⟩ (.times min max) =
      some { p₁ with top := p₁.top.anchor } := by
  obtain ⟨alts, items⟩ := f
  obtain rfl | ⟨items, r, rfl⟩ := eq_nil_or_concat items
  · cases h
  rw [concat_eq_append] at h ⊢
  simp only [step, getLast?_concat, dropLast_concat] at h
  split_ifs at h with hbad
  obtain rfl := some_inj.mp h
  refine ⟨rfl, ?_⟩
  obtain _ | ⟨c, cs⟩ := alts
  · have hlast : (Regex.start :: (items ++ [r])).getLast? = some r := by
      rw [← cons_append, getLast?_concat]
    have hinit : (Regex.start :: (items ++ [r])).dropLast = .start :: items := by
      rw [← cons_append, dropLast_concat]
    simp only [step, Frame.anchor, hlast, hinit, if_neg hbad, cons_append]
  · simp only [step, Frame.anchor, getLast?_concat, dropLast_concat, if_neg hbad]

/-- **The anchor stays where it is.** -/
theorem step_anchor (h : step p t = some p₁) : step p.anchor t = some p₁.anchor := by
  obtain ⟨top, outer, repeated⟩ := p
  rcases t with q | _ | _ | _ | _ | _ | ⟨min, max⟩
  · obtain rfl := some_inj.mp h
    obtain _ | ⟨f, fs⟩ := outer
    · exact congrArg some (anchor_push top _ false).symm
    · rfl
  · obtain rfl := some_inj.mp h
    obtain _ | ⟨f, fs⟩ := outer
    · exact congrArg some (anchor_push top _ false).symm
    · rfl
  · obtain rfl := some_inj.mp h
    obtain _ | ⟨f, fs⟩ := outer
    · exact congrArg some (anchor_push top _ false).symm
    · rfl
  · obtain rfl := some_inj.mp h
    obtain _ | ⟨f, fs⟩ := outer <;> rfl
  · obtain _ | ⟨f, _ | ⟨g, fs⟩⟩ := outer
    · cases h
    · obtain rfl := some_inj.mp h
      exact congrArg some (anchor_push f _ false).symm
    · obtain rfl := some_inj.mp h
      rfl
  · obtain rfl := some_inj.mp h
    obtain _ | ⟨f, fs⟩ := outer
    · obtain ⟨_ | ⟨c, cs⟩, items⟩ := top <;> rfl
    · rfl
  · obtain _ | ⟨f, fs⟩ := outer
    · obtain ⟨houter, hstep⟩ := step_times_anchor h
      obtain ⟨top₁, outer₁, repeated₁⟩ := p₁
      obtain rfl : outer₁ = [] := houter
      exact hstep
    · obtain ⟨alts, items⟩ := top
      simp only [step, Parser.anchor] at h ⊢
      rcases hlast : items.getLast? with _ | r
      · simp only [hlast] at h
        cases h
      · simp only [hlast] at h ⊢
        split_ifs at h with hbad
        obtain rfl := some_inj.mp h
        exact if_neg hbad

theorem steps_anchor (h : steps p ts = some p₁) : steps p.anchor ts = some p₁.anchor := by
  induction ts generalizing p with
  | nil =>
    obtain rfl := some_inj.mp h
    rfl
  | cons t ts ih =>
    obtain ⟨p', hstep, hrest⟩ := bind_eq_some_iff.mp h
    rw [steps, step_anchor hstep, bind_some]
    exact ih hrest

theorem steps_append (p : Parser) (ts us : List Token) :
    steps p (ts ++ us) = (steps p ts).bind (steps · us) := by
  induction ts generalizing p with
  | nil => rfl
  | cons t ts ih =>
    rw [cons_append, steps, steps, Option.bind_assoc]
    exact congrArg _ (funext ih)

/-- The anchors of the alternatives, one alternative after the other. -/
theorem anchored_eq (cs : List (List (Regex Char))) (items : List (Regex Char)) :
    Regex.anchored (cs ++ [items]) = ((⟨cs, items⟩ : Frame).anchor.push .stop).all := by
  obtain _ | ⟨c, cs⟩ := cs
  · rfl
  · rw [Regex.anchored, mapIdx_concat, mapIdx_cons]
    have hinner : (cs.mapIdx fun i c => (if i + 1 = 0 then [Regex.start] else []) ++ c ++
        if i + 1 + 1 = (c :: cs ++ [items]).length then [.stop] else []) = cs := by
      refine ext_getElem (length_mapIdx) fun i hi _ => ?_
      have hi : i < cs.length := by rwa [length_mapIdx] at hi
      rw [getElem_mapIdx, if_neg (Nat.succ_ne_zero i), nil_append,
        if_neg (by simp only [length_append, length_cons, length_nil]; omega),
        append_nil]
    refine congrArg₂ (· ++ ·) (congrArg₂ List.cons ?_ hinner) (congrArg (fun c => [c]) ?_)
    · rw [if_pos rfl, if_neg (by simp), append_nil]
      rfl
    · rw [if_neg (by simp), if_pos (by simp)]
      rfl

/-- **An expression between anchors.** With `^` in front of its text and `$` behind it, the first
anchor belongs to the first alternative and the second one to the last. -/
theorem parse_anchored {s : List Char} {alts : List (List (Regex Char))}
    (h : parse U s = some alts) :
    alts ≠ [] ∧ parse U ('^' :: s ++ ['$']) = some (Regex.anchored alts) := by
  rw [parse] at h
  rcases hrun : (lex U s).bind (steps ⟨⟨[], []⟩, [], false⟩) with _ | ⟨top, outer, repeated⟩
  · rw [hrun] at h
    cases h
  rw [hrun] at h
  obtain _ | ⟨f, fs⟩ := outer
  · obtain rfl := some_inj.mp h
    obtain ⟨ts, hlex, hsteps⟩ := bind_eq_some_iff.mp hrun
    have hanchor := steps_anchor hsteps
    refine ⟨append_ne_nil_of_right_ne_nil _ (cons_ne_nil _ _), ?_⟩
    have hrun' : (lex U ('^' :: s ++ ['$'])).bind (steps ⟨⟨[], []⟩, [], false⟩) =
        some ⟨top.anchor.push .stop, [], false⟩ := by
      rw [lex_anchored U hlex, bind_some, cons_append, steps]
      refine (steps_append _ ts [.dollar]).trans ?_
      exact congrArg (Option.bind · (steps · [.dollar])) hanchor
    rw [parse, hrun', Frame.all, anchored_eq]
  · cases h

end Anchor

end RegexSyntax
