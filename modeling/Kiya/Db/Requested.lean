import Kiya.Db.Retain

/-!
# Requested conditions and the rows that are written

Ten calls ask for a condition on one column: `WhereEq`, `WhereIn`, `WhereNull` and so on. A column
that is no identifier is not written into the text, and the call then does nothing: the rest of the
conditions decides which rows an `Update`, `Delete`, `Purge` or `Restore` finds. A column that is
one becomes the last factor of the text so far; it holds in the last `OR` branch only.

`Builder.Respects` says of a builder and the requests, before any statement is made, that neither
happens: every request follows from the branches by which a row could be found without it. If all
columns are identifiers and there is no `OR`, then there are no such branches
(`Builder.respects_of_isIdent`, `Builder.earlier_eq_nil`).
-/

namespace Kiya

open Sql Builder CondCall
open List hiding lex

/-! ### Requests -/

/-- What is asked of a column. -/
inductive Comparison where
  | eq (val : Value)
  | notEq (val : Value)
  | gt (val : Value)
  | gte (val : Value)
  | lt (val : Value)
  | lte (val : Value)
  | like (pattern : String)
  | inList (vals : List Value)
  | notInList (vals : List Value)
  | null

/-- A requested condition. -/
structure RowRequest where
  col : String
  cmp : Comparison

namespace RowRequest

/-- The call that makes the request. -/
def call (q : RowRequest) : CondCall :=
  match q.cmp with
  | .eq val => .eq q.col val
  | .notEq val => .notEq q.col val
  | .gt val => .gt q.col val
  | .gte val => .gte q.col val
  | .lt val => .lt q.col val
  | .lte val => .lte q.col val
  | .like pattern => .like q.col pattern
  | .inList vals => .inList q.col vals
  | .notInList vals => .notInList q.col vals
  | .null => .null q.col

end RowRequest

open RowRequest

namespace Comparison

/-- The text after the column. -/
def text : Comparison → String
  | .eq _ => " = ?"
  | .notEq _ => " != ?"
  | .gt _ => " > ?"
  | .gte _ => " >= ?"
  | .lt _ => " < ?"
  | .lte _ => " <= ?"
  | .like _ => " LIKE ?"
  | .inList vals => " IN (" ++ placeholders vals ++ ")"
  | .notInList vals => " NOT IN (" ++ placeholders vals ++ ")"
  | .null => " IS NULL"

/-- The arguments of the text. -/
def args : Comparison → List Value
  | .eq val | .notEq val | .gt val | .gte val | .lt val | .lte val => [val]
  | .like pattern => [.str (.text pattern)]
  | .inList vals | .notInList vals => vals
  | .null => []

/-- The items of the text, with the arguments. -/
def items : Comparison → List (Item Value)
  | .eq val => [.sym '=', .arg val]
  | .notEq val => [.sym '!', .sym '=', .arg val]
  | .gt val => [.sym '>', .arg val]
  | .gte val => [.sym '>', .sym '=', .arg val]
  | .lt val => [.sym '<', .arg val]
  | .lte val => [.sym '<', .sym '=', .arg val]
  | .like pattern => [.word "LIKE".toList, .arg (.str (.text pattern))]
  | .inList vals => .word "IN".toList :: .lparen :: (placeholderItems vals ++ [.rparen])
  | .notInList vals =>
    [.word "NOT".toList, .word "IN".toList] ++ .lparen :: (placeholderItems vals ++ [.rparen])
  | .null => [.word "IS".toList, .word "NULL".toList]

end Comparison

/-- The atom `1 = 0`. -/
def neverAtom : Atom Value := [.word "1".toList, .sym '=', .word "0".toList]

namespace RowRequest

/-- The request as an atomic condition. -/
def atom (q : RowRequest) : Atom Value := .word q.col.toList :: q.cmp.items

/-- The request holds, given the truth of atomic conditions: no value is in an empty list, and
every value is not in it. -/
def Holds (I : Atom Value → Truth) (q : RowRequest) : Prop :=
  match q.cmp with
  | .inList [] => False
  | .notInList [] => True
  | _ => I q.atom = .true

end RowRequest

/-- Make the requests. -/
def Builder.requested (b : Builder) (qs : List RowRequest) : Builder :=
  (qs.map call).foldl apply b

/-! ### Writes -/

/-- Does the statement write? -/
def StmtKind.isWrite : StmtKind → Bool
  | .update _ => true
  | .delete => true
  | .raw => true
  | _ => false

/-- The rows that a write affects: those that meet its condition. Which rows the raw query of a
builder affects is left open. -/
def Server.Affects (sv : Server) (raw : Stored → Prop) (s : Stmt) (r : Stored) : Prop :=
  match s.kind with
  | .raw => raw r
  | _ => sv.sat s.cond r = true

/-- The operations that write rows by the conditions of the builder. -/
def Terminal.writesRows : Terminal → Bool
  | .update _ => true
  | .updateAll _ => true
  | .delete _ => true
  | .deleteAll _ => true
  | .purge _ => true
  | .purgeAll _ => true
  | .restore _ => true
  | _ => false

/-! ### Requests that are respected -/

/-- No requested column is a keyword of the Boolean grammar. -/
def PlainColumns (qs : List RowRequest) : Prop := ∀ q ∈ qs, isIdent q.col = true → isPlain q.col

/-- Some truth values of the atoms satisfy one of the branches; `1 = 0` is not true. -/
def Satisfiable (ts : Terms (Atom Value)) : Prop :=
  ∃ I : Atom Value → Truth, I neverAtom ≠ .true ∧ ∃ t ∈ ts, evalBranch I t = .true

/-- A request follows from branches if no row meets one of them, or if it is itself a condition
there and is met with each of them. -/
def RowRequest.Follows (q : RowRequest) (ts : Terms (Atom Value)) : Prop :=
  ¬Satisfiable ts ∨ q.atom ∈ termAtoms ts ∧
    ∀ I, I neverAtom ≠ .true → ∀ t ∈ ts, evalBranch I t = .true → q.Holds I

namespace Builder

/-- The conditions of the builder and of its scope can be read one by one. -/
def Readable (b : Builder) : Prop := b.WellFormed ∧ ∀ w ∈ b.scopeGroup, w.WellFormed

/-- The `OR` branches of the WHERE text that conditions added by `AND` are not part of. -/
def earlier (b : Builder) : Terms (Atom Value) :=
  let soft := (softClause b.softDeleteCondition).terms
  if b.pendingScope.isEmpty && !hasOr b.wheres then
    (joinTerms ((if b.softDeleteCondition = "" then [] else [(.and, soft)]) ++
      clauseTerms b.wheres)).dropLast
  else enclosing soft b.pendingScope (joinTerms (clauseTerms b.wheres)).dropLast

/-- The branches without a request: those that stand before it, or all branches of the other
conditions if its column is no identifier. -/
def without (b : Builder) (qs : List RowRequest) (q : RowRequest) : Terms (Atom Value) :=
  if isIdent q.col then b.earlier else (b.requested qs).applyScope.whereTerms.getD [[]]

/-- **No request is ignored.** There is no raw query, and each request follows from the branches
without it. Not to be in an empty list asks for nothing. -/
def Respects (b : Builder) (qs : List RowRequest) : Prop :=
  ∀ q ∈ qs, q.cmp = .notInList [] ∨ b.rawQuery = "" ∧ q.Follows (b.without qs q)

end Builder

/-! ### The texts of requests -/

/-- The text of a comparison is read as its items. -/
theorem Comparison.lex_text (cmp : Comparison) :
    ∃ text is, cmp.text.toList = ' ' :: text ∧ lex text = some is ∧
      bindArgs is cmp.args = some cmp.items := by
  cases cmp with
  | eq val => exact ⟨"= ?".toList, [.sym '=', .arg ()], by simp [text], rfl, rfl⟩
  | notEq val => exact ⟨"!= ?".toList, [.sym '!', .sym '=', .arg ()], by simp [text], rfl, rfl⟩
  | gt val => exact ⟨"> ?".toList, [.sym '>', .arg ()], by simp [text], rfl, rfl⟩
  | gte val => exact ⟨">= ?".toList, [.sym '>', .sym '=', .arg ()], by simp [text], rfl, rfl⟩
  | lt val => exact ⟨"< ?".toList, [.sym '<', .arg ()], by simp [text], rfl, rfl⟩
  | lte val => exact ⟨"<= ?".toList, [.sym '<', .sym '=', .arg ()], by simp [text], rfl, rfl⟩
  | like pattern =>
    exact ⟨"LIKE ?".toList, [.word "LIKE".toList, .arg ()], by simp [text], rfl, rfl⟩
  | inList vals =>
    obtain ⟨is, hlex, hbind⟩ := lex_in_list vals
    exact ⟨_, is, by simp [text, placeholders]; rfl, by simpa using hlex, hbind⟩
  | notInList vals =>
    obtain ⟨is, hlex, hbind⟩ := lex_in_list vals
    have hnot : lex "NOT".toList = some [.word "NOT".toList] := rfl
    refine ⟨_, .word "NOT".toList :: is, ?_, lex_blank hnot hlex, ?_⟩
    · simp [text, placeholders]
    · simp [bindArgs, Item.fixed, args, items, hbind]
  | null =>
    exact ⟨"IS NULL".toList, [.word "IS".toList, .word "NULL".toList], by simp [text], rfl, rfl⟩

/-- A plain word and a comparison are one atom. -/
theorem Comparison.parse_items (cmp : Comparison) {w : List Char} (hw : keyword w = .plain) :
    parse (.word w :: cmp.items) = some [[.atom (.word w :: cmp.items)]] := by
  have hin : keyword "IN".toList = .plain := by decide
  have hnot : keyword "NOT".toList = .not := by decide
  cases cmp with
  | inList vals =>
    have hrole : ∀ i ∈ ([.word "IN".toList] : List (Item Value)),
        i.role = .plain ∨ i.role = .not := forall_mem_singleton.mpr (.inl hin)
    exact parse_listed hw hrole (placeholderItems_plain vals)
  | notInList vals =>
    have hrole : ∀ i ∈ ([.word "NOT".toList, .word "IN".toList] : List (Item Value)),
        i.role = .plain ∨ i.role = .not :=
      forall_mem_cons.mpr ⟨.inr hnot, forall_mem_singleton.mpr (.inl hin)⟩
    exact parse_listed hw hrole (placeholderItems_plain vals)
  | like pattern =>
    have hlike : keyword "LIKE".toList = .plain := by decide
    refine parse_words hw (forall_mem_cons.mpr ⟨.inl hlike, ?_⟩)
    exact forall_mem_singleton.mpr (.inl rfl)
  | null =>
    have hnull : keyword "IS".toList = .plain ∧ keyword "NULL".toList = .plain := by decide
    refine parse_words hw (forall_mem_cons.mpr ⟨.inl hnull.1, ?_⟩)
    exact forall_mem_singleton.mpr (.inl hnull.2)
  | _ => exact parse_words hw (by simp [items, Item.role])

variable {meaning : Stored → Atom Value → Truth} {I : Atom Value → Truth} {r : Stored} {sv : Server}

namespace RowRequest

variable {q : RowRequest}

/-- What a request adds to the conditions: its comparison, or for an empty list a condition that
is never met, or nothing. -/
theorem clauses_call (hident : isIdent q.col = true) :
    (q.cmp = .inList [] ∧ q.call.clauses = [⟨.and, "1 = 0", []⟩]) ∨
      (q.cmp = .notInList [] ∧ q.call.clauses = []) ∨
      (q.cmp ≠ .inList [] ∧ q.cmp ≠ .notInList [] ∧
        q.call.clauses = [⟨.and, q.col ++ q.cmp.text, q.cmp.args⟩]) := by
  obtain ⟨col, cmp⟩ := q
  have hsafe : sanitizeIdentifier col = col := sanitizeIdentifier_of_isIdent hident
  have hne : col ≠ "" := by
    rintro rfl
    cases hident
  have hcol : ∀ rest args, (({} : Builder).whereCol col rest args).wheres =
      [⟨.and, col ++ rest, args⟩] := by
    intro rest args
    simp [whereCol, whereExpr, hsafe, hne]
  cases cmp with
  | inList vals =>
    rcases vals with - | ⟨v, vs⟩
    · refine .inl ⟨rfl, ?_⟩
      simp [call, clauses, apply, whereIn, whereExpr, hsafe, hne]
    · refine .inr (.inr ⟨by simp, by simp, ?_⟩)
      simp only [call, clauses, apply, whereIn, hsafe, if_neg hne]
      exact hcol _ _
  | notInList vals =>
    rcases vals with - | ⟨v, vs⟩
    · exact .inr (.inl ⟨rfl, rfl⟩)
    · exact .inr (.inr ⟨by simp, by simp, hcol _ _⟩)
  | _ => exact .inr (.inr ⟨by simp, by simp, hcol _ _⟩)

/-- A column that is no identifier adds nothing. -/
theorem clauses_call_of_not_isIdent (h : isIdent q.col = false) : q.call.clauses = [] := by
  obtain ⟨col, cmp⟩ := q
  have hsafe : sanitizeIdentifier col = "" := sanitizeIdentifier_of_not_isIdent h
  have hcol : ∀ rest args, (({} : Builder).whereCol col rest args).wheres = [] := by
    intro rest args
    simp [whereCol, hsafe]
  cases cmp with
  | inList vals => simp [call, clauses, apply, whereIn, hsafe]
  | notInList vals =>
    rcases vals with - | ⟨v, vs⟩
    · rfl
    · exact hcol _ _
  | _ => exact hcol _ _

/-- The atoms that a request adds to the conditions. -/
def atoms (q : RowRequest) : List (Atom Value) :=
  if isIdent q.col then
    match q.cmp with
    | .inList [] => [neverAtom]
    | .notInList [] => []
    | _ => [q.atom]
  else []

/-- **What a request is read as**: its atoms, joined by `AND`. -/
theorem clauseTerms_call (hplain : isIdent q.col = true → isPlain q.col) :
    (∀ w ∈ q.call.clauses, w.WellFormed) ∧
      clauseTerms q.call.clauses = q.atoms.map fun a => (.and, [[.atom a]]) := by
  cases hident : isIdent q.col with
  | false => simp [clauses_call_of_not_isIdent hident, atoms, hident, clauseTerms]
  | true =>
    obtain ⟨hne, hall⟩ : q.col ≠ "" ∧ ∀ c ∈ q.col.toList, isIdentChar c = true := by
      simpa [isIdent] using hident
    rcases clauses_call hident with ⟨hcmp, hclauses⟩ | ⟨hcmp, hclauses⟩ | ⟨hin, hnot, hclauses⟩
    · have hnever : parseText "1 = 0" ([] : List Value) = some [[.atom neverAtom]] := by
        decide +kernel
      obtain ⟨hwf, hterms⟩ := WhereClause.wellFormed_of_parseText (w := ⟨.and, "1 = 0", []⟩) hnever
      simp [hclauses, atoms, hident, hcmp, clauseTerms, hterms, hwf]
    · simp [hclauses, atoms, hident, hcmp, clauseTerms]
    · obtain ⟨text, is, hafter, hlex, hbind⟩ := q.cmp.lex_text
      have hparse := parseText_name hne (fun c hc => isWordChar_of_isIdentChar (hall c hc)) hafter
        hlex hbind (q.cmp.parse_items (hplain hident))
      obtain ⟨hwf, hterms⟩ := WhereClause.wellFormed_of_parseText
        (w := ⟨.and, q.col ++ q.cmp.text, q.cmp.args⟩) hparse
      have hatoms : q.atoms = [q.atom] := by
        simp [atoms, hident]
      simp [hclauses, hatoms, clauseTerms, hterms, hwf, atom]

/-- A request that does not hold has an atom that is not true. -/
theorem exists_atom_of_not_holds (hnever : I neverAtom ≠ .true) (hident : isIdent q.col = true)
    (h : ¬ q.Holds I) : ∃ a ∈ q.atoms, I a ≠ .true := by
  unfold Holds at h
  unfold atoms
  rw [if_pos hident]
  split at h
  · exact ⟨_, mem_singleton_self _, hnever⟩
  · exact absurd trivial h
  · exact ⟨_, mem_singleton_self _, h⟩

/-- If its atom is not true, only the request not to be in an empty list holds. -/
theorem not_holds_of_atom (hcmp : q.cmp ≠ .notInList []) (h : I q.atom ≠ .true) :
    ¬ q.Holds I := by
  unfold Holds
  split
  · exact not_false
  · contradiction
  · exact h

/-- A request that is met with each branch, whatever the atoms say, follows from the branches. A
request that is no condition there can be made false, so no branch can be met then. -/
theorem follows_iff (hcmp : q.cmp ≠ .notInList []) {ts : Terms (Atom Value)} :
    q.Follows ts ↔
      ∀ I, I neverAtom ≠ .true → ∀ t ∈ ts, evalBranch I t = .true → q.Holds I := by
  constructor
  · rintro (hunsat | ⟨-, himplied⟩)
    · exact fun I hI t ht htrue => absurd ⟨I, hI, t, ht, htrue⟩ hunsat
    · exact himplied
  · intro himplied
    by_cases hmem : q.atom ∈ termAtoms ts
    · exact .inr ⟨hmem, himplied⟩
    · left
      rintro ⟨I, hI, t, ht, htrue⟩
      obtain ⟨J, hfalse, hother⟩ : ∃ J : Atom Value → Truth,
          J q.atom ≠ .true ∧ ∀ a, a ≠ q.atom → J a = I a :=
        ⟨Function.update I q.atom .false, by simp, fun a ha => Function.update_of_ne ha _ _⟩
      have hnever : J neverAtom ≠ .true := by
        by_cases heq : neverAtom = q.atom
        · rwa [heq]
        · rwa [hother _ heq]
      have hsame : evalBranch J t = evalBranch I t :=
        evalBranch_congr ht fun a ha => hother a (ne_of_mem_of_not_mem ha hmem)
      exact not_holds_of_atom hcmp hfalse (himplied J hnever t ht (hsame.trans htrue))

end RowRequest

/-! ### The WHERE text with requests -/

section WhereText

variable {b : Builder} {qs : List RowRequest}

theorem requested_eq (b : Builder) (qs : List RowRequest) : b.requested qs =
      { b with wheres := b.wheres ++ qs.flatMap fun q => q.call.clauses } := by
  rw [requested, foldl_apply_eq, flatMap_map]

section Plain

variable (hplain : PlainColumns qs)
include hplain

theorem wellFormed_requested (hwf : b.WellFormed) : (b.requested qs).WellFormed := by
  rw [requested_eq]
  refine ⟨fun w hw => ?_, hwf.soft⟩
  rcases mem_append.mp hw with hw | hw
  · exact hwf.wheres w hw
  · obtain ⟨q, hq, hw⟩ := mem_flatMap.mp hw
    exact (clauseTerms_call (hplain q hq)).1 w hw

/-- The requests are read as factors behind the conditions. -/
theorem clauseTerms_requested : clauseTerms (b.requested qs).wheres = clauseTerms b.wheres ++
      ((qs.flatMap atoms).map Expr.atom).map fun e => (.and, [[e]]) := by
  have hflat : clauseTerms (qs.flatMap fun q => q.call.clauses) =
      qs.flatMap fun q => q.atoms.map fun a => (Conn.and, [[Expr.atom a]]) := by
    rw [clauseTerms, map_flatMap]
    exact flatMap_congr fun q hq => (clauseTerms_call (hplain q hq)).2
  rw [requested_eq, clauseTerms, map_append, ← clauseTerms, ← clauseTerms, hflat]
  simp [map_flatMap, Function.comp_def]

theorem hasOr_requested : hasOr (b.requested qs).wheres = hasOr b.wheres := by
  have hasOr_eq : ∀ ws, hasOr ws = (clauseTerms ws).any fun p => p.1 = .or := by
    intro ws
    simp [hasOr, clauseTerms, Function.comp_def]
  rw [hasOr_eq, hasOr_eq, clauseTerms_requested hplain, List.any_append]
  simp

/-- **Which rows are found though they do not satisfy a request** with an identifier as its
column: those that meet an `OR` branch before it. -/
theorem sat_requested_iff (hsql : sv.ReadsSql meaning) (hread : b.Readable) {q : RowRequest}
    (hq : q ∈ qs) (hident : isIdent q.col = true) (hnever : meaning r neverAtom ≠ .true)
    (hnot : ¬ q.Holds (meaning r)) : sv.sat (b.requested qs).applyScope.whereText r = true ↔
      ∃ t ∈ b.earlier, evalBranch (meaning r) t = .true := by
  have hcwf := wellFormed_requested hplain hread.1
  have hterms := @clauseTerms_requested b qs hplain
  have hor := @hasOr_requested b qs hplain
  have hfields : (b.requested qs).softDeleteCondition = b.softDeleteCondition ∧
      (b.requested qs).pendingScope = b.pendingScope ∧
      (b.requested qs).scopeGroup = b.scopeGroup := by
    rw [requested_eq]
    exact ⟨rfl, rfl, rfl⟩
  obtain ⟨hsoft, hpending, hgroup⟩ := hfields
  set c := b.requested qs
  have hscope : ∀ w ∈ c.scopeGroup, w.WellFormed := hgroup ▸ hread.2
  obtain ⟨a, ha, hfalse⟩ := exists_atom_of_not_holds hnever hident hnot
  have hmem : Expr.atom a ∈ (qs.flatMap atoms).map Expr.atom :=
    mem_map_of_mem (mem_flatMap.mpr ⟨q, hq, ha⟩)
  have hwne : c.wheres ≠ [] := by
    intro hnil
    rw [hnil] at hterms
    have happ := append_eq_nil_iff.mp hterms.symm
    rw [map_eq_nil_iff.mp happ.2] at hmem
    cases hmem
  have hbefore := complete_clauseTerms hread.1.wheres
  rw [hsql.sat_whereText_iff (wellFormed_applyScope hcwf hscope), ← evalTerms_eq_true, earlier]
  by_cases hflat : (b.pendingScope.isEmpty && !hasOr b.wheres) = true
  · obtain ⟨hp, ho⟩ : b.pendingScope = [] ∧ hasOr b.wheres = false := by simpa using hflat
    rw [if_pos hflat, whereTerms_flat hcwf hscope hwne (hpending.trans hp) (hor.trans ho),
      Option.getD_some, hterms, ← append_assoc, hsoft]
    refine evalTerms_joinTerms_factors (fun p hp => ?_) hmem hfalse
    rcases mem_append.mp hp with hp | hp
    · split_ifs at hp with hs
      · cases hp
      · obtain rfl := mem_singleton.mp hp
        exact (hread.1.soft hs).complete
    · exact hbefore p hp
  · rw [if_neg hflat]
    have henclosed : c.pendingScope ≠ [] ∨ hasOr c.wheres = true := by
      rw [hpending, hor]
      by_contra hno
      push Not at hno
      exact hflat (by simpa [hno.1] using hno.2)
    have hts := evalTerms_joinTerms_factors hbefore hmem hfalse
    rw [← hterms] at hts
    have hbranch := exists_branch_enclosed_iff hcwf hscope hwne henclosed hts
    rwa [hsoft, hpending] at hbranch

end Plain

end WhereText

/-! ### The operations -/

section Written

variable {b : Builder} {qs : List RowRequest} {op : Terminal}

/-- Requests before an operation that writes rows are part of the conditions of its statements. -/
theorem prepared_requested (hop : op.writesRows = true) :
    op.prepared (b.requested qs) = (op.prepared b).requested qs := by
  rw [requested_eq, requested_eq]
  cases op with
  | find | findOrFail | findAll | count | exist | paginate | retain => cases hop
  | _ => rfl

variable {b₀ : Builder} {s : Stmt}

/-- A statement is the raw query of the builder or none. -/
theorem CondOf.kind_eq_raw_iff (h : CondOf b₀ s) : s.kind = .raw ↔ b₀.rawQuery ≠ "" := by
  obtain ⟨d, a, hd, rfl⟩ := h
  rw [← hd.raw]
  unfold build
  split_ifs with hraw
  · simp [hraw]
  · refine iff_of_false (fun hkind => ?_) hraw
    cases a with
    | select => cases hkind
    | insert inserts primaryKeys autoIncCol =>
      simp only [buildInsert] at hkind
      split_ifs at hkind
    | update updates =>
      simp only [buildUpdate] at hkind
      split_ifs at hkind
    | delete => cases hkind

/-- The rows that a write affects. -/
theorem affects_iff {raw : Stored → Prop} (h : CondOf b₀ s) (hwrite : s.kind.isWrite = true)
    (r : Stored) : sv.Affects raw s r ↔
      if b₀.rawQuery ≠ "" then raw r else sv.sat b₀.whereText r = true := by
  have hraw := h.kind_eq_raw_iff
  unfold Server.Affects
  split
  next hkind => rw [if_pos (hraw.mp hkind)]
  next hkind =>
    have hconditional : s.kind.isConditional = true := by
      cases hs : s.kind with
      | update | delete => rfl
      | raw => exact absurd hs hkind
      | select | insert | empty =>
        rw [hs] at hwrite
        cases hwrite
    rw [if_neg fun hne => hkind (hraw.mpr hne), h.cond_eq hconditional]

/-- Which rows that do not satisfy a request are affected by a write. -/
theorem affects_iff_without {raw : Stored → Prop} (hplain : PlainColumns qs)
    (hsql : sv.ReadsSql meaning) (hread : b.Readable) (hraw : b.rawQuery = "")
    (hcond : CondOf (b.requested qs).applyScope s) (hwrite : s.kind.isWrite = true)
    {q : RowRequest} (hq : q ∈ qs) (hnever : meaning r neverAtom ≠ .true)
    (hnot : ¬ q.Holds (meaning r)) :
    sv.Affects raw s r ↔ ∃ t ∈ b.without qs q, evalBranch (meaning r) t = .true := by
  have hrawQuery : (b.requested qs).applyScope.rawQuery = "" := by
    rwa [rawQuery_applyScope, requested_eq]
  rw [affects_iff hcond hwrite, if_neg (not_not_intro hrawQuery), without]
  split_ifs with hident
  · exact sat_requested_iff hplain hsql hread hq hident hnever hnot
  · have hgroup : (b.requested qs).scopeGroup = b.scopeGroup := by
      rw [requested_eq]
      rfl
    exact hsql.sat_whereText_iff
      (wellFormed_applyScope (wellFormed_requested hplain hread.1) (hgroup ▸ hread.2)) r

/-- **When no requested condition is ignored.** For every builder, every sequence of requests and
every write that a following `Update`, `Delete`, `Purge` or `Restore` issues, whatever the database
answers: the write affects only rows that satisfy all requests, whatever the atomic conditions say
of a row and whatever a raw query affects, if and only if the builder `Respects` the requests. -/
theorem requests_respected_iff (b : Builder) {qs : List RowRequest} (hop : op.writesRows = true)
    (hplain : PlainColumns qs) (hread : (op.prepared b).Readable) :
    Issues (fun s => s.kind.isWrite = true →
      ((∀ (sv : Server) (meaning : Stored → Atom Value → Truth) (raw : Stored → Prop),
        sv.ReadsSql meaning → (∀ r, meaning r neverAtom ≠ .true) →
          ∀ r, sv.Affects raw s r → ∀ q ∈ qs, q.Holds (meaning r)) ↔
        (op.prepared b).Respects qs)) (op.run (b.requested qs)) := by
  refine (issues_run (b.requested qs) op).mono fun s hcond hwrite => ?_
  rw [prepared_requested hop] at hcond
  set d := op.prepared b
  constructor
  · intro hall q hq
    by_cases hcmp : q.cmp = .notInList []
    · exact .inl hcmp
    · by_cases hraw : d.rawQuery = ""
      · refine .inr ⟨hraw, (q.follows_iff hcmp).mpr fun I hI t ht htrue => ?_⟩
        by_contra hnot
        have hsql := readsSql_sqlServer fun _ => I
        have haffects : (sqlServer fun _ => I).Affects (fun _ => True) s fun _ => .null :=
          (affects_iff_without hplain hsql hread hraw hcond hwrite hq hI hnot).mpr ⟨t, ht, htrue⟩
        exact hnot (hall _ _ _ hsql (fun _ => hI) _ haffects q hq)
      · -- a raw query may affect every row
        have hrawQuery : (d.requested qs).applyScope.rawQuery ≠ "" := by
          rwa [rawQuery_applyScope, requested_eq]
        have haffects : ∀ sv : Server, sv.Affects (fun _ => True) s fun _ => .null := fun sv => by
          rw [affects_iff hcond hwrite, if_pos hrawQuery]
          trivial
        refine absurd (hall (sqlServer fun _ _ => .false) _ _ (readsSql_sqlServer _)
          (fun _ => by decide) _ (haffects _) q hq) ?_
        exact not_holds_of_atom hcmp (by decide)
  · intro hrespects sv meaning raw hsql hnever r haffects q hq
    by_contra hnot
    have hcmp : q.cmp ≠ .notInList [] := by
      intro hcmp
      rw [RowRequest.Holds, hcmp] at hnot
      exact hnot trivial
    obtain ⟨hraw, hfollows⟩ := (hrespects q hq).resolve_left hcmp
    obtain ⟨t, ht, htrue⟩ := (affects_iff_without hplain hsql hread hraw hcond hwrite hq (hnever r)
      hnot).mp haffects
    exact hnot ((q.follows_iff hcmp).mp hfollows _ (hnever r) t ht htrue)

/-- If all requested columns are identifiers and no `OR` branch stands before them, then no request
is ignored. -/
theorem Builder.respects_of_isIdent (hraw : b.rawQuery = "") (hearlier : b.earlier = [])
    (hident : ∀ q ∈ qs, isIdent q.col = true) : b.Respects qs := by
  intro q hq
  refine .inr ⟨hraw, .inl ?_⟩
  rintro ⟨I, -, t, ht, -⟩
  rw [without, if_pos (hident q hq), hearlier] at ht
  cases ht

/-- Conditions joined by `AND`, without a top-level `OR` in one of them. -/
theorem Builder.earlier_eq_nil
    (hwheres : ∀ w ∈ b.wheres, w.boolean = .and ∧ w.terms.length ≤ 1)
    (hsoft : (softClause b.softDeleteCondition).terms.length ≤ 1) : b.earlier = [] := by
  have hdrop : ∀ ts : Terms (Atom Value), ts.length ≤ 1 → ts.dropLast = [] := by
    intro ts hts
    rw [← length_eq_zero_iff, length_dropLast]
    omega
  have hclauses : ∀ p ∈ clauseTerms b.wheres, p.1 = Conn.and ∧ p.2.length ≤ 1 :=
    forall_mem_map.mpr hwheres
  unfold earlier
  split_ifs
  · refine hdrop _ (length_joinTerms_le_one ?_)
    rwa [nil_append]
  · refine hdrop _ (length_joinTerms_le_one (forall_mem_append.mpr ⟨?_, hclauses⟩))
    exact forall_mem_singleton.mpr ⟨rfl, hsoft⟩
  · rw [enclosing, hdrop _ hsoft, hdrop _ (length_joinTerms_le_one hclauses)]
    rfl

end Written

/-- Simple conditions, and `1 = 0`. -/
def requestMeaning (r : Stored) (a : Atom Value) : Truth :=
  if a = neverAtom then .false else simpleMeaning r a

theorem requestMeaning_neverAtom (r : Stored) : requestMeaning r neverAtom ≠ .true := by
  simp [requestMeaning]

/-- The conditions on two columns of the tasks. -/
def levelRequests : List RowRequest := [⟨"id", .eq (.int 1)⟩, ⟨"level", .gt (.int 5)⟩]

/-- Both columns are identifiers: only task 1 with a high level is marked as deleted. -/
theorem levelRequests_respected :
    Issues (fun s => s.kind.isWrite = true → ∀ r,
      (sqlServer requestMeaning).Affects (fun _ => True) s r →
        ∀ q ∈ levelRequests, q.Holds (requestMeaning r))
      (Terminal.run (tasks.requested levelRequests) (.delete none)) := by
  have hcols : ∀ q ∈ levelRequests, isIdent q.col = true ∧ isPlain q.col := by
    intro q hq
    rcases mem_pair.mp hq with rfl | rfl
    · show isIdent "id" = true ∧ isPlain "id"
      decide
    · show isIdent "level" = true ∧ isPlain "level"
      decide
  have hread : tasks.Readable :=
    ⟨⟨by decide +kernel, fun _ => by decide +kernel⟩, by decide +kernel⟩
  have hrespects : tasks.Respects levelRequests := respects_of_isIdent rfl
    (earlier_eq_nil (by decide +kernel) (by decide +kernel)) fun q hq => (hcols q hq).1
  refine (@requests_respected_iff (.delete none) tasks levelRequests rfl
    (fun q hq _ => (hcols q hq).2) hread).mono fun s hiff hwrite => ?_
  exact (hiff hwrite).mpr hrespects _ _ _ (readsSql_sqlServer _) requestMeaning_neverAtom

/-- A condition on a column and one on a column with a blank in its name. -/
def ownerRequests : List RowRequest :=
  [⟨"id", .eq (.int 1)⟩, ⟨"owner name", .eq (.str (.text "ann"))⟩]

/-- Task 1, which belongs to someone else. -/
def bobsTask : Stored := fun c =>
  if c = "id" then .int 1 else if c = "owner name" then .str (.text "bob") else .null

/-- The second condition is dropped: `Purge` issues `DELETE FROM tasks WHERE id = ?`, which also
deletes a task of another owner. -/
theorem ownerRequests_ignored :
    (¬ Issues (fun s => s.kind.isWrite = true → ∀ r,
      (sqlServer requestMeaning).Affects (fun _ => True) s r →
        ∀ q ∈ ownerRequests, q.Holds (requestMeaning r))
      (Terminal.run (({ table := "tasks" } : Builder).requested ownerRequests) (.purge none))) ∧
    (((sqlServer requestMeaning).exec
      (Terminal.run (({ table := "tasks" } : Builder).requested ownerRequests) (.purge none))
      { tables := fun _ => ⟨["id", "owner name"], [(0, bobsTask)], by simp⟩
        clock := fun _ => ⟨0, 0, 0⟩ }).2.tables "tasks").row 0 = none := by
  refine ⟨?_, ?_⟩
  · rintro ⟨hfirst, -⟩
    have hfound : (sqlServer requestMeaning).sat
        (({ table := "tasks" } : Builder).requested ownerRequests).whereText bobsTask = true := by
      decide +kernel
    have hfails : requestMeaning bobsTask
        [.word "owner name".toList, .sym '=', .arg (.str (.text "ann"))] ≠ .true := by
      decide +kernel
    exact hfails (hfirst _ rfl rfl bobsTask hfound
      ⟨"owner name", .eq (.str (.text "ann"))⟩ (mem_pair.mpr (.inr rfl)))
  · decide +kernel

end Kiya
