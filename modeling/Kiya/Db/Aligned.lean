import Kiya.Db.Build

/-!
# Placeholders stay aligned with arguments

If each fragment that a caller supplied has a placeholder for every argument and closes its quotes,
then this holds of every statement, before and after the scope is applied, and each placeholder
stands for the argument that was given for it. For PostgreSQL the fragments have to be clean, too: a
caller who writes `$1` has a placeholder that no argument was given for, and a digit after `?`
becomes a part of its number.

The texts do not depend on the order in which maps are iterated, because their keys are sorted.
-/

namespace Kiya

open Sql Builder List

/-! ### Fragments -/

/-- A fragment as a caller has to supply it. -/
structure Supplied (d : Dialect) (p : Fragment Value) : Prop where
  aligned : p.Aligned
  clean : d = .postgres → clean false p.text = true

/-- The fragments of a builder that a caller supplied. -/
def Builder.fragments (b : Builder) (a : BuildAction) : List (Fragment Value) :=
  b.wheres.map (·.fragment) ++ b.havings.map (·.fragment) ++
  (match a with
    | .select clauses => clauses.map (·.fragment)
    | .insert _ primaryKeys _ => primaryKeys.map frag
    | .insertBatch _ primaryKeys => primaryKeys.map frag
    | _ => []) ++
  (if b.rawQuery ≠ "" then [⟨b.rawQuery.toList, b.rawArgs⟩] else []) ++
  [frag b.table, frag b.softDeleteCondition] ++
  (b.joins.flatMap fun j => [frag j.typ, frag j.table, frag j.on]) ++
  (b.groupBys ++ b.orderBys).map frag

/-- A piece of a statement: it can follow any other. -/
structure PieceOk (d : Dialect) (p : Fragment Value) : Prop extends Supplied d p where
  safe : p.text ≠ [] ∧ StartsSafe p.text

variable {ws : List WhereClause} {col : String} {rows : List (GoMap Value)}

section Pieces

variable {d : Dialect} {p : Fragment Value} {ps : List (Fragment Value)} {sep first : String}
  {text : String}

theorem Supplied.prepend (htext : text.toList.all isPlainChar = true)
    (h : Supplied d p) : Supplied d (after text p) :=
  ⟨h.aligned.after htext, fun hd => Fragment.clean_after htext (h.clean hd)⟩

theorem Supplied.after (hsep : isSeparator sep.toList = true) (h : Supplied d p) :
    PieceOk d (after sep p) :=
  ⟨h.prepend (Bool.and_eq_true_iff.mp hsep).2, Fragment.startsSafe_after hsep p⟩

theorem supplied_empty : Supplied d (frag "") := ⟨⟨rfl, rfl⟩, fun _ => rfl⟩

theorem supplied_mark (v : Value) : Supplied d (mark v) := ⟨⟨rfl, rfl⟩, fun _ => rfl⟩

theorem supplied_plain (htext : text.toList.all isPlainChar = true) : Supplied d (frag text) := by
  have h := (@supplied_empty d).prepend htext
  rwa [show after text (frag "") = frag text by simp [after, frag, Fragment.after]] at h

theorem pieceOk_fixed (hsep : isSeparator sep.toList = true) : PieceOk d (fixed sep) :=
  supplied_empty.after hsep

theorem pieceOk_listed (hfirst : isSeparator first.toList = true)
    (hsep : isSeparator sep.toList = true) (h : ∀ p ∈ ps, Supplied d p) :
    ∀ p ∈ listed first sep ps, PieceOk d p := by
  cases ps with
  | nil => exact nofun
  | cons p ps =>
    obtain ⟨hp, hps⟩ := forall_mem_cons.mp h
    refine forall_mem_cons.mpr ⟨hp.after hfirst, ?_⟩
    exact forall_mem_map.mpr fun q hq => (hps q hq).after hsep

theorem pieceOk_clausePieces (hfirst : isSeparator first.toList = true)
    (h : ∀ w ∈ ws, Supplied d w.fragment) : ∀ p ∈ clausePieces first ws, PieceOk d p := by
  cases ws with
  | nil => exact nofun
  | cons w ws =>
    obtain ⟨hw, hws⟩ := forall_mem_cons.mp h
    refine forall_mem_cons.mpr ⟨hw.after hfirst, ?_⟩
    refine forall_mem_map.mpr fun u hu => (hws u hu).after ?_
    cases u.boolean <;> decide

end Pieces

/-! ### Identifiers -/

theorem isPlain_of_isIdentChar {c : Char} (h : isIdentChar c = true) : isPlainChar c = true := by
  rw [isPlain_iff]
  refine ⟨?_, ?_, ?_⟩
  · rw [isQuote, decide_eq_false_iff_not]
    intro hc
    obtain rfl : c = Char.ofNat 39 := by rw [← hc, Char.ofNat_toNat]
    exact absurd h (by decide)
  · rw [isMark, decide_eq_false_iff_not]
    rintro rfl
    exact absurd h (by decide)
  · rintro rfl
    exact absurd h (by decide)

theorem plain_of_sanitizeIdentifier_ne (h : sanitizeIdentifier col ≠ "") :
    col.toList.all isPlainChar = true := by
  have hident : isIdent col = true := by
    by_contra hno
    exact h (sanitizeIdentifier_of_not_isIdent (by simpa using hno))
  obtain ⟨-, hall⟩ : col ≠ "" ∧ ∀ c ∈ col.toList, isIdentChar c = true := by
    simpa [isIdent] using hident
  exact List.all_eq_true.mpr fun c hc => isPlain_of_isIdentChar (hall c hc)

theorem plain_sanitizeIdentifier (col : String) :
    (sanitizeIdentifier col).toList.all isPlainChar = true := by
  by_cases h : sanitizeIdentifier col = ""
  · rw [h]
    rfl
  · have hplain := plain_of_sanitizeIdentifier_ne h
    unfold sanitizeIdentifier at h ⊢
    split_ifs at h ⊢ with hempty hall
    · exact absurd rfl h
    · exact hplain
    · exact absurd rfl h

theorem sanitizeIdentifier_ne_of_mem_columnsOf {m : GoMap Value} {q : String × Value}
    (h : q ∈ columnsOf m) : sanitizeIdentifier q.1 ≠ "" := by
  obtain ⟨k, hk, rfl⟩ := mem_map.mp h
  simpa using (mem_filter.mp hk).2

theorem sanitizeIdentifier_ne_of_mem_batchCols {c : String}
    (h : c ∈ batchCols rows) : sanitizeIdentifier c ≠ "" := by
  cases rows with
  | nil => cases h
  | cons m ms => simpa using (mem_filter.mp h).2

/-- A column with a placeholder after it. -/
theorem supplied_assignment {d : Dialect} (hcol : col.toList.all isPlainChar = true)
    (v : Value) : Supplied d ⟨(col ++ " = ?").toList, [v]⟩ := by
  have hplain : (col ++ " = ").toList.all isPlainChar = true := by
    rw [String.toList_append, List.all_append, hcol]
    decide
  have hmark := (@supplied_mark d v).prepend hplain
  rwa [show after (col ++ " = ") (mark v) = ⟨(col ++ " = ?").toList, [v]⟩ by
    simp [after, mark, Fragment.after]] at hmark

/-! ### The pieces of a statement can follow each other -/

variable {a : BuildAction}

section Statements

variable {b : Builder} {d : Dialect}

theorem pieceOk_wherePieces (hwheres : ∀ w ∈ b.wheres, Supplied d w.fragment)
    (hsoft : Supplied d (frag b.softDeleteCondition)) : ∀ p ∈ b.wherePieces, PieceOk d p := by
  unfold wherePieces
  split_ifs with hnosoft hempty hor
  · exact pieceOk_clausePieces (by decide) hwheres
  · exact forall_mem_cons.mpr ⟨hsoft.after (by decide), nofun⟩
  · refine forall_mem_cons.mpr ⟨hsoft.after (by decide), ?_⟩
    refine forall_mem_append.mpr ⟨pieceOk_clausePieces (by decide) hwheres, ?_⟩
    exact forall_mem_singleton.mpr (pieceOk_fixed (by decide))
  · refine forall_mem_cons.mpr ⟨hsoft.after (by decide), ?_⟩
    exact forall_mem_map.mpr fun w hw => (hwheres w hw).after (by decide)

theorem pieceOk_selectPieces {clauses : List SelectClause}
    (hclauses : ∀ c ∈ clauses, Supplied d c.fragment) (htable : Supplied d (frag b.table))
    (hjoins : ∀ j ∈ b.joins, Supplied d (frag j.typ) ∧ Supplied d (frag j.table) ∧
      Supplied d (frag j.on)) :
    ∀ p ∈ b.selectPieces clauses, PieceOk d p := by
  unfold selectPieces
  refine forall_mem_append.mpr ⟨forall_mem_append.mpr ⟨?_, ?_⟩, ?_⟩
  · split_ifs
    · exact forall_mem_singleton.mpr (pieceOk_fixed (by decide))
    · exact pieceOk_listed (by decide) (by decide) (forall_mem_map.mpr hclauses)
  · refine forall_mem_singleton.mpr ?_
    split_ifs
    · exact pieceOk_fixed (by decide)
    · exact htable.after (by decide)
  · intro p hp
    obtain ⟨j, hj, hp⟩ := mem_flatMap.mp hp
    obtain ⟨htyp, hjtable, hon⟩ := hjoins j hj
    rcases mem_cons.mp hp with rfl | hp
    · exact htyp.after (by decide)
    · rcases mem_cons.mp hp with rfl | hp
      · exact hjtable.after (by decide)
      · rw [mem_singleton.mp hp]
        exact hon.after (by decide)

theorem pieceOk_endPieces (hgroups : ∀ t ∈ b.groupBys, Supplied d (frag t))
    (hhavings : ∀ w ∈ b.havings, Supplied d w.fragment)
    (horders : ∀ t ∈ b.orderBys, Supplied d (frag t)) : ∀ p ∈ b.endPieces, PieceOk d p := by
  unfold endPieces
  simp only [forall_mem_append]
  refine ⟨⟨⟨⟨⟨?_, ?_⟩, ?_⟩, ?_⟩, ?_⟩, ?_⟩
  · exact pieceOk_listed (by decide) (by decide) (forall_mem_map.mpr hgroups)
  · exact pieceOk_clausePieces (by decide) hhavings
  · exact pieceOk_listed (by decide) (by decide) (forall_mem_map.mpr horders)
  · exact forall_mem_map.mpr fun n _ => (supplied_mark _).after (by decide)
  · exact forall_mem_map.mpr fun n _ => (supplied_mark _).after (by decide)
  · split_ifs
    · exact forall_mem_singleton.mpr (pieceOk_fixed (by decide))
    · exact nofun

theorem pieceOk_onConflictPieces {primaryKeys : List String}
    (hkeys : ∀ k ∈ primaryKeys, Supplied d (frag k)) :
    ∀ p ∈ b.onConflictPieces primaryKeys, PieceOk d p := by
  have hcols : ∀ c ∈ b.overwritten, c.toList.all isPlainChar = true := by
    intro c hc
    exact plain_of_sanitizeIdentifier_ne (by simpa using (mem_filter.mp hc).2)
  unfold onConflictPieces
  simp only
  generalize b.overwritten = cols at hcols
  by_cases hempty : cols = []
  · simp [hempty]
  · simp only [List.isEmpty_iff, hempty, if_false]
    cases b.dialect with
    | mysql =>
      refine pieceOk_listed (by decide) (by decide) (forall_mem_map.mpr ?_)
      refine forall_mem_map.mpr fun c hc => supplied_plain ?_
      simp only [String.toList_append, List.all_append, hcols c hc]
      decide
    | postgres =>
      refine forall_mem_append.mpr ⟨?_, ?_⟩
      · split_ifs
        · exact forall_mem_singleton.mpr (pieceOk_fixed (by decide))
        · exact pieceOk_listed (by decide) (by decide) (forall_mem_map.mpr hkeys)
      · refine pieceOk_listed (by decide) (by decide) (forall_mem_map.mpr ?_)
        refine forall_mem_map.mpr fun c hc => supplied_plain ?_
        simp only [String.toList_append, List.all_append, hcols c hc]
        decide

theorem pieceOk_insertPieces {cols : List String} (htable : Supplied d (frag b.table))
    (hcols : ∀ c ∈ cols, sanitizeIdentifier c ≠ "") : ∀ p ∈ b.insertPieces cols, PieceOk d p := by
  refine forall_mem_cons.mpr ⟨htable.after (by decide), ?_⟩
  refine pieceOk_listed (by decide) (by decide) (forall_mem_map.mpr fun c hc => ?_)
  exact supplied_plain (plain_of_sanitizeIdentifier_ne (hcols c hc))

theorem pieceOk_rowPieces {first : String} (hfirst : isSeparator first.toList = true)
    (vals : List Value) : ∀ p ∈ rowPieces first vals, PieceOk d p := by
  refine forall_mem_append.mpr ⟨?_, forall_mem_singleton.mpr (pieceOk_fixed (by decide))⟩
  exact pieceOk_listed hfirst (by decide) (forall_mem_map.mpr fun v _ => supplied_mark v)

/-- **The pieces of a statement** are supplied, and can follow each other. -/
theorem pieceOk_pieces (hraw : b.rawQuery = "")
    (h : ∀ p ∈ b.fragments a, Supplied d p) : ∀ p ∈ b.pieces a, PieceOk d p := by
  simp only [fragments, forall_mem_append, forall_mem_map] at h
  obtain ⟨⟨⟨⟨⟨⟨hwheres, hhavings⟩, haction⟩, -⟩, hplain⟩, hjoins⟩, hgroups, horders⟩ := h
  have htable : Supplied d (frag b.table) := hplain _ mem_cons_self
  have hsoft : Supplied d (frag b.softDeleteCondition) := hplain _ (mem_cons_of_mem _ mem_cons_self)
  have hwhere := pieceOk_wherePieces hwheres hsoft
  simp only [pieces, hraw, ne_eq, not_true_eq_false, if_false]
  cases a with
  | select clauses =>
    refine forall_mem_append.mpr ⟨forall_mem_append.mpr ⟨?_, hwhere⟩, ?_⟩
    · refine pieceOk_selectPieces (forall_mem_map.mp haction) htable fun j hj => ?_
      exact ⟨hjoins _ (mem_flatMap.mpr ⟨j, hj, by simp⟩),
        hjoins _ (mem_flatMap.mpr ⟨j, hj, by simp⟩),
        hjoins _ (mem_flatMap.mpr ⟨j, hj, by simp⟩)⟩
    · exact pieceOk_endPieces hgroups hhavings horders
  | insert inserts primaryKeys autoIncCol =>
    have hcols : ∀ c ∈ (columnsOf inserts).map Prod.fst, sanitizeIdentifier c ≠ "" :=
      forall_mem_map.mpr fun q hq => sanitizeIdentifier_ne_of_mem_columnsOf hq
    by_cases hempty : columnsOf inserts = []
    · simp [hempty]
    · simp only [List.isEmpty_iff, hempty, if_false, forall_mem_append]
      refine ⟨⟨⟨pieceOk_insertPieces htable hcols, pieceOk_rowPieces (by decide) _⟩,
        pieceOk_onConflictPieces (forall_mem_map.mp haction)⟩, ?_⟩
      split_ifs
      · refine forall_mem_singleton.mpr ?_
        exact (supplied_plain (plain_sanitizeIdentifier autoIncCol)).after (by decide)
      · exact nofun
  | insertBatch rows primaryKeys =>
    have hcols : ∀ c ∈ batchCols rows, sanitizeIdentifier c ≠ "" :=
      fun c hc => sanitizeIdentifier_ne_of_mem_batchCols hc
    by_cases hempty : batchCols rows = []
    · simp [hempty]
    · simp only [List.isEmpty_iff, hempty, if_false, forall_mem_append]
      refine ⟨⟨pieceOk_insertPieces htable hcols, ?_⟩,
        pieceOk_onConflictPieces (forall_mem_map.mp haction)⟩
      cases rows with
      | nil => exact nofun
      | cons m ms =>
        refine forall_mem_append.mpr ⟨pieceOk_rowPieces (by decide) _, fun p hp => ?_⟩
        obtain ⟨m', -, hp⟩ := mem_flatMap.mp hp
        exact pieceOk_rowPieces (by decide) _ p hp
  | update updates =>
    by_cases hempty : columnsOf updates = []
    · simp [hempty]
    · simp only [List.isEmpty_iff, hempty, if_false, cons_append]
      refine forall_mem_cons.mpr ⟨htable.after (by decide), ?_⟩
      refine forall_mem_append.mpr ⟨?_, hwhere⟩
      refine pieceOk_listed (by decide) (by decide) (forall_mem_map.mpr fun q hq => ?_)
      exact supplied_assignment
        (plain_of_sanitizeIdentifier_ne (sanitizeIdentifier_ne_of_mem_columnsOf hq)) q.2
  | delete => exact forall_mem_cons.mpr ⟨htable.after (by decide), hwhere⟩

end Statements

/-! ### The scope -/

section Scope

variable {b : Builder} {d : Dialect}

theorem supplied_parenthesised (hne : ws ≠ [])
    (h : ∀ w ∈ ws, Supplied d w.fragment) : Supplied d (parenthesised ws).fragment := by
  have hpieces : ∀ p ∈ clausePieces "(" ws ++ [fixed ")"], PieceOk d p :=
    forall_mem_append.mpr ⟨pieceOk_clausePieces (by decide) h,
      forall_mem_singleton.mpr (pieceOk_fixed (by decide))⟩
  have htext : (parenthesised ws).fragment.text = textOf (clausePieces "(" ws ++ [fixed ")"]) := by
    simp [parenthesised, textOf_clausePieces hne, fixed]
  have hargs : (parenthesised ws).fragment.args = argsOf (clausePieces "(" ws ++ [fixed ")"]) := by
    simp [parenthesised, argsOf_clausePieces, fixed]
  refine ⟨⟨?_, ?_⟩, fun hd => ?_⟩
  · rw [htext, quotedAfter_textOf fun p hp => (hpieces p hp).aligned]
  · rw [htext, hargs, marks_textOf fun p hp => (hpieces p hp).aligned]
  · rw [htext]
    exact clean_textOf (fun p hp => (hpieces p hp).aligned) (fun p hp => (hpieces p hp).clean hd)
      fun p hp => (hpieces p (mem_of_mem_tail hp)).safe

theorem supplied_scopeClauses (conds : GoMap Value) :
    ∀ w ∈ scopeClauses conds, Supplied d w.fragment := by
  intro w hw
  obtain ⟨k, -, rfl⟩ := mem_map.mp hw
  exact supplied_assignment (plain_sanitizeIdentifier k) _

theorem supplied_scopeGroup : ∀ w ∈ b.scopeGroup, Supplied d w.fragment := by
  unfold scopeGroup
  split
  · split_ifs
    · exact nofun
    · exact nofun
    · exact supplied_scopeClauses _
  · exact nofun

/-- Grouping the conditions and adding those of the scope keeps them aligned. -/
theorem supplied_scopedWheres (h : ∀ w ∈ b.wheres, Supplied d w.fragment) :
    ∀ w ∈ b.scopedWheres, Supplied d w.fragment := by
  unfold scopedWheres
  split_ifs with hgroup hwheres
  · exact h
  · have hne : b.scopeGroup ≠ [] := by simpa using hgroup
    exact forall_mem_singleton.mpr (supplied_parenthesised hne supplied_scopeGroup)
  · have hne : b.scopeGroup ≠ [] := by simpa using hgroup
    have hwne : b.wheres ≠ [] := by simpa using hwheres
    exact forall_mem_cons.mpr ⟨supplied_parenthesised hwne h,
      forall_mem_singleton.mpr (supplied_parenthesised hne supplied_scopeGroup)⟩

theorem supplied_applyScope (h : ∀ p ∈ b.fragments a, Supplied d p) :
    ∀ p ∈ b.applyScope.fragments a, Supplied d p := by
  unfold applyScope
  split_ifs
  · exact h
  · simp only [fragments, forall_mem_append, forall_mem_map] at h ⊢
    exact ⟨⟨⟨⟨⟨⟨supplied_scopedWheres h.1.1.1.1.1.1, h.1.1.1.1.1.2⟩, h.1.1.1.1.2⟩, h.1.1.1.2⟩,
      h.1.1.2⟩, h.1.2⟩, h.2⟩

end Scope

/-! ### Placeholders of a statement -/

/-- How a dialect writes the `k`-th placeholder. -/
def Dialect.placeholder : Dialect → Nat → List Char
  | .mysql, _ => ['?']
  | .postgres, k => dollar k

/-- The number of a placeholder, if the dialect has numbers. -/
def Dialect.label : Dialect → Nat → Option Nat
  | .mysql, _ => none
  | .postgres, k => some k

/-- The placeholders of a text, in order. -/
def Dialect.placeholders : Dialect → String → List (Option Nat)
  | .mysql, text => List.replicate (marks false text.toList) none
  | .postgres, text => (dollarNumbers text.toList).map some

section Placeholders

variable {b : Builder} (h : ∀ p ∈ b.fragments a, Supplied b.dialect p)

include h

theorem supplied_pieces : ∀ p ∈ b.pieces a, Supplied b.dialect p := by
  by_cases hraw : b.rawQuery = ""
  · exact fun p hp => (pieceOk_pieces hraw h p hp).toSupplied
  · intro p hp
    simp only [pieces, ne_eq, hraw, not_false_eq_true, if_true, mem_singleton] at hp
    refine h p ?_
    simp [fragments, hraw, hp]

theorem safe_pieces : ∀ p ∈ (b.pieces a).tail, p.text ≠ [] ∧ StartsSafe p.text := by
  by_cases hraw : b.rawQuery = ""
  · exact fun p hp => (pieceOk_pieces hraw h p (mem_of_mem_tail hp)).safe
  · simp [pieces, hraw]

/-- The text in the form of the dialect: the placeholders of each piece get the numbers of its
arguments. -/
theorem text_buildSql :
    (b.buildSql a).1.toList = numbered b.dialect.placeholder 0 (b.pieces a) := by
  have hpieces := supplied_pieces h
  have haligned := fun p hp => (hpieces p hp).aligned
  rw [← number_textOf _ haligned, ← text_buildRaw]
  unfold buildSql
  cases hd : b.dialect with
  | mysql => exact (number_self _ _ _).symm
  | postgres =>
    have hclean : clean false (textOf (b.pieces a)) = true :=
      clean_textOf haligned (fun p hp => (hpieces p hp).clean hd) (safe_pieces h)
    have hquoted := quotedAfter_textOf haligned
    rw [← text_buildRaw] at hclean hquoted
    simp only [Dialect.convertPlaceholders, String.toList_ofList]
    exact replaceMatches_eq_number _ _ 0 le_rfl hquoted hclean

/-- There is a placeholder for every argument, and they are numbered in order. -/
theorem placeholders_buildSql : b.dialect.placeholders (b.buildSql a).1 =
      (List.range' 1 (argsOf (b.pieces a)).length).map b.dialect.label := by
  have hpieces := supplied_pieces h
  have haligned := fun p hp => (hpieces p hp).aligned
  have htext := text_buildSql h
  cases hd : b.dialect with
  | mysql =>
    have hself : numbered Dialect.mysql.placeholder 0 (b.pieces a) = textOf (b.pieces a) := by
      rw [← number_textOf _ haligned]
      exact number_self _ _ _
    rw [hd, hself] at htext
    rw [Dialect.placeholders, htext, marks_textOf haligned]
    rw [show Dialect.mysql.label = fun _ => none from rfl, map_const', length_range']
  | postgres =>
    rw [hd] at htext
    simp only [Dialect.placeholders, htext, dollarNumbers]
    exact congrArg _ (readNumbers_numbered haligned (fun p hp => (hpieces p hp).clean hd)
      (safe_pieces h) 0)

end Placeholders

/-! ### The order of maps -/

namespace GoMap

variable {α : Type} {m m₁ : GoMap α}

theorem get_eq_of_perm (h : m.Perm m₁) (hm : (m.map Prod.fst).Nodup) (k : String) :
    m.get k = m₁.get k := by
  induction h with
  | nil => rfl
  | cons q h ih =>
    obtain ⟨a, v⟩ := q
    by_cases hk : k = a
    · subst hk
      rw [get_cons_self, get_cons_self]
    · rw [get_cons_of_ne hk, get_cons_of_ne hk, ih (nodup_cons.mp hm).2]
  | swap q r l =>
    obtain ⟨a, v⟩ := q
    obtain ⟨c, w⟩ := r
    have hne : a ≠ c := by
      rintro rfl
      simp at hm
    by_cases hk : k = a
    · subst hk
      rw [get_cons_of_ne hne, get_cons_self, get_cons_self]
    · by_cases hk₁ : k = c
      · subst hk₁
        rw [get_cons_self, get_cons_of_ne hk, get_cons_self]
      · rw [get_cons_of_ne hk, get_cons_of_ne hk₁, get_cons_of_ne hk₁, get_cons_of_ne hk]
  | trans h₁ h₂ ih₁ ih₂ => rw [ih₁ hm, ih₂ ((h₁.map Prod.fst).nodup_iff.mp hm)]

theorem sortedKeys_eq_of_perm (h : m.Perm m₁) : m.sortedKeys = m₁.sortedKeys := by
  have : Std.Total fun s t : String => s.toList ≤ t.toList := ⟨fun s t => le_total _ _⟩
  have : IsTrans String fun s t => s.toList ≤ t.toList := ⟨fun _ _ _ => le_trans⟩
  unfold sortedKeys
  refine List.Perm.eq_of_pairwise
    (fun s t _ _ hst hts => String.toList_inj.mp (le_antisymm hst hts))
    (pairwise_insertionSort (fun s t : String => s.toList ≤ t.toList) _)
    (pairwise_insertionSort (fun s t : String => s.toList ≤ t.toList) _) ?_
  exact (perm_insertionSort _ _).trans ((h.map Prod.fst).trans (perm_insertionSort _ _).symm)

end GoMap

/-- The same action, with its maps iterated in other orders. -/
inductive BuildAction.Reordered : BuildAction → BuildAction → Prop
  | select (clauses : List SelectClause) : Reordered (.select clauses) (.select clauses)
  | insert {m m₁ : GoMap Value} (h : m.Perm m₁) (primaryKeys : List String) (autoIncCol : String) :
    Reordered (.insert m primaryKeys autoIncCol) (.insert m₁ primaryKeys autoIncCol)
  | insertBatch {rows rows₁ : List (GoMap Value)} (h : List.Forall₂ List.Perm rows rows₁)
    (primaryKeys : List String) :
    Reordered (.insertBatch rows primaryKeys) (.insertBatch rows₁ primaryKeys)
  | update {m m₁ : GoMap Value} (h : m.Perm m₁) : Reordered (.update m) (.update m₁)
  | delete : Reordered .delete .delete

/-- The keys of a map are distinct. -/
def IsMap (m : GoMap Value) : Prop := (m.map Prod.fst).Nodup

/-- The maps of an action have distinct keys. -/
def BuildAction.AreMaps : BuildAction → Prop
  | .insert m _ _ => IsMap m
  | .insertBatch rows _ => ∀ m ∈ rows, IsMap m
  | .update m => IsMap m
  | _ => True

/-- The same scope function, with its maps iterated in other orders. -/
def ScopeReordered : Option ScopeFunc → Option ScopeFunc → Prop
  | none, none => True
  | some scope, some scope₁ => ∀ fields res, IsMap (scope fields res) ∧
      (scope fields res).Perm (scope₁ fields res)
  | _, _ => False

section Order

variable {m m₁ : GoMap Value}

theorem columnsOf_eq_of_perm (h : m.Perm m₁) (hm : IsMap m) :
    columnsOf m = columnsOf m₁ := by
  simp only [columnsOf, GoMap.sortedKeys_eq_of_perm h, GoMap.get_eq_of_perm h hm]

theorem scopeClauses_eq_of_perm (h : m.Perm m₁) (hm : IsMap m) :
    scopeClauses m = scopeClauses m₁ := by
  simp only [scopeClauses, GoMap.sortedKeys_eq_of_perm h, GoMap.get_eq_of_perm h hm]

theorem batchRow_eq_of_perm (h : m.Perm m₁) (hm : IsMap m) (cols : List String) :
    batchRow cols m = batchRow cols m₁ := by
  simp only [batchRow, GoMap.get_eq_of_perm h hm]

variable {rows₁ : List (GoMap Value)} {scope₁ : Option ScopeFunc}

theorem batchCols_eq_of_forall₂ (h : List.Forall₂ List.Perm rows rows₁) :
    batchCols rows = batchCols rows₁ := by
  cases h with
  | nil => rfl
  | cons hm _ => simp only [batchCols, GoMap.sortedKeys_eq_of_perm hm]

theorem map_batchRow_eq_of_forall₂ (h : List.Forall₂ List.Perm rows rows₁)
    (hrows : ∀ m ∈ rows, IsMap m) (cols : List String) :
    rows.map (batchRow cols) = rows₁.map (batchRow cols) := by
  induction h with
  | nil => rfl
  | cons hm _ ih =>
    obtain ⟨hmap, hrows⟩ := forall_mem_cons.mp hrows
    rw [map_cons, map_cons, batchRow_eq_of_perm hm hmap, ih hrows]

section Batch

variable (hcols : batchCols rows = batchCols rows₁)
  (hrows : ∀ cols, rows.map (batchRow cols) = rows₁.map (batchRow cols))

include hcols hrows

theorem text_buildInsertBatch_eq (b : Builder) (primaryKeys : List String) :
    (b.buildInsertBatch rows₁ primaryKeys).text = (b.buildInsertBatch rows primaryKeys).text := by
  have hmarks : ∀ cols, (rows₁.map fun m => "(" ++ placeholders (batchRow cols m) ++ ")") =
      rows.map fun m => "(" ++ placeholders (batchRow cols m) ++ ")" := by
    intro cols
    have h := congrArg (List.map fun row => "(" ++ placeholders row ++ ")") (hrows cols)
    rw [map_map, map_map] at h
    exact h.symm
  simp only [buildInsertBatch, hcols, hmarks]
  split_ifs <;> rfl

theorem args_buildInsertBatch_eq (b : Builder) (primaryKeys : List String) :
    (b.buildInsertBatch rows₁ primaryKeys).args = (b.buildInsertBatch rows primaryKeys).args := by
  have hargs : ∀ cols, rows₁.flatMap (batchRow cols) = rows.flatMap (batchRow cols) := by
    intro cols
    rw [flatMap_def, flatMap_def, hrows]
  simp only [buildInsertBatch, hcols, hargs]
  split_ifs <;> rfl

end Batch

/-- Text and arguments do not depend on the order of the maps. -/
theorem buildSql_reordered (b : Builder) {a a₁ : BuildAction} (h : a.Reordered a₁)
    (hmaps : a.AreMaps) : b.buildSql a₁ = b.buildSql a := by
  have hraw : (b.buildRaw a₁).text = (b.buildRaw a).text ∧
      (b.buildRaw a₁).args = (b.buildRaw a).args := by
    unfold buildRaw
    split_ifs
    · exact ⟨rfl, rfl⟩
    · cases h with
      | select clauses => exact ⟨rfl, rfl⟩
      | insert h primaryKeys autoIncCol =>
        simp only [buildInsert, columnsOf_eq_of_perm h hmaps, and_self]
      | insertBatch h primaryKeys =>
        have hcols := batchCols_eq_of_forall₂ h
        have hrows := map_batchRow_eq_of_forall₂ h hmaps
        exact ⟨text_buildInsertBatch_eq hcols hrows b primaryKeys,
          args_buildInsertBatch_eq hcols hrows b primaryKeys⟩
      | update h => simp only [buildUpdate, columnsOf_eq_of_perm h hmaps, and_self]
      | delete => exact ⟨rfl, rfl⟩
  rw [buildSql, buildSql, hraw.1, hraw.2]

/-- The conditions of a scope do not depend on the order of its maps. -/
theorem scopeGroup_reordered (b : Builder) (h : ScopeReordered b.scope scope₁) :
    { b with scope := scope₁ }.scopeGroup = b.scopeGroup := by
  unfold scopeGroup
  cases scope₁ with
  | none =>
    cases hs : b.scope with
    | none => rfl
    | some scope =>
      rw [hs] at h
      exact h.elim
  | some scope₁ =>
    cases hs : b.scope with
    | none =>
      rw [hs] at h
      exact h.elim
    | some scope =>
      cases hres : b.res with
      | none => rfl
      | some res =>
        rw [hs] at h
        obtain ⟨hmap, hperm⟩ := h b.scopeFields res
        simp only [scopeClauses_eq_of_perm hperm hmap]
        rfl

theorem applyScope_reordered (b : Builder) (h : ScopeReordered b.scope scope₁) :
    { b with scope := scope₁ }.applyScope = { b.applyScope with scope := scope₁ } := by
  have hwheres : { b with scope := scope₁ }.scopedWheres = b.scopedWheres := by
    simp only [scopedWheres, scopeGroup_reordered b h]
  unfold applyScope
  rw [hwheres]
  split_ifs <;> rfl

/-- A statement is built from the conditions, whatever the scope function is. -/
theorem buildSql_scope (b : Builder) (scope₁ : Option ScopeFunc) (a : BuildAction) :
    { b with scope := scope₁ }.buildSql a = b.buildSql a := by
  cases a <;> rfl

end Order

/-! ### Alignment -/

/-- What it means that a statement is aligned: its arguments are those of its pieces, its text is
that of its pieces with each placeholder written for the argument at its position, and a reader of
the text finds one placeholder for every argument, in order. -/
structure Builder.IsAligned (b : Builder) (a : BuildAction) : Prop where
  args : (b.buildSql a).2 = argsOf (b.pieces a)
  text : (b.buildSql a).1.toList = numbered b.dialect.placeholder 0 (b.pieces a)
  placeholders : b.dialect.placeholders (b.buildSql a).1 =
    (List.range' 1 (b.buildSql a).2.length).map b.dialect.label

theorem isAligned_of_supplied {b : Builder} (h : ∀ p ∈ b.fragments a, Supplied b.dialect p) :
    b.IsAligned a := by
  have hargs : (b.buildSql a).2 = argsOf (b.pieces a) := args_buildRaw b a
  refine ⟨hargs, text_buildSql h, ?_⟩
  rw [hargs]
  exact placeholders_buildSql h

/-- **Placeholders and arguments stay aligned.** If every fragment has as many placeholders as
arguments outside quotes and closes its quotes, and for PostgreSQL has no digit after a placeholder
and no `$` before a digit, a placeholder or another `$`, then the statement that is built, before
or after the scope is applied, is aligned. It does not depend on the order in which the maps of the
action and of the scope are iterated. -/
theorem placeholders_aligned (b : Builder) (a : BuildAction)
    (haligned : ∀ p ∈ b.fragments a, p.Aligned)
    (hclean : b.dialect = .postgres → ∀ p ∈ b.fragments a, clean false p.text = true) :
    b.IsAligned a ∧ b.applyScope.IsAligned a ∧
      ∀ a₁ scope₁, a.AreMaps → a.Reordered a₁ → ScopeReordered b.scope scope₁ →
        { b with scope := scope₁ }.buildSql a₁ = b.buildSql a ∧
        { b with scope := scope₁ }.applyScope.buildSql a₁ = b.applyScope.buildSql a := by
  have h : ∀ p ∈ b.fragments a, Supplied b.dialect p :=
    fun p hp => ⟨haligned p hp, fun hd => hclean hd p hp⟩
  have hscoped : ∀ p ∈ b.applyScope.fragments a, Supplied b.applyScope.dialect p := by
    rw [dialect_applyScope]
    exact supplied_applyScope h
  refine ⟨isAligned_of_supplied h, isAligned_of_supplied hscoped, ?_⟩
  intro a₁ scope₁ hmaps hre hscope
  constructor
  · rw [buildSql_scope, buildSql_reordered b hre hmaps]
  · rw [applyScope_reordered b hscope, buildSql_scope, buildSql_reordered _ hre hmaps]

/-- One note, with a scope and a question mark in quotes. -/
def quotedNote : Builder :=
  { table := "notes", dialect := .postgres, res := some ⟨none⟩
    wheres := [⟨.and, "title <> 'why?' OR id = ?", [.int 7]⟩]
    selects := ["title"]
    scope := some fun _ _ => [("tenant_id", .int 3), ("region", .int 4)] }

/-- The same scope, in another order. -/
def regionFirst : ScopeFunc := fun _ _ => [("region", .int 4), ("tenant_id", .int 3)]

theorem quotedNote_aligned :
    quotedNote.applyScope.IsAligned (.update [("title", .int 1)]) ∧
    quotedNote.applyScope.buildSql (.update [("title", .int 1)]) =
      ("UPDATE notes SET title = $1 WHERE (title <> 'why?' OR id = $2) AND " ++
        "(region = $3 AND tenant_id = $4)", [.int 1, .int 7, .int 4, .int 3]) ∧
    { quotedNote with scope := some regionFirst }.applyScope.buildSql
        (.update [("title", .int 1)]) =
      quotedNote.applyScope.buildSql (.update [("title", .int 1)]) := by
  have h := placeholders_aligned quotedNote (.update [("title", .int 1)]) (by decide +kernel)
    fun _ => by decide +kernel
  refine ⟨h.2.1, by decide +kernel, (h.2.2 _ (some regionFirst) ?_ (.update (.refl _)) ?_).2⟩
  · exact nodup_singleton "title"
  · exact fun _ _ => ⟨show List.Nodup ["tenant_id", "region"] by decide, List.Perm.swap _ _ _⟩

/-- A caller that writes a number for one of two placeholders. -/
def mixedNote : Builder :=
  { table := "notes", dialect := .postgres
    wheres := [⟨.and, "a = $1", []⟩, ⟨.and, "b = ?", [.int 5]⟩] }

/-- All fragments have as many placeholders as arguments, and still two placeholders stand for one
argument. -/
theorem mixedNote_not_aligned :
    (∀ p ∈ mixedNote.fragments .delete, p.Aligned ∧ ¬ ['$', '$'] <:+: p.text) ∧
    mixedNote.buildSql .delete = ("DELETE FROM notes WHERE a = $1 AND b = $1", [.int 5]) ∧
    mixedNote.dialect.placeholders (mixedNote.buildSql .delete).1 = [some 1, some 1] ∧
    ¬ mixedNote.IsAligned .delete := by
  refine ⟨by decide +kernel, by decide +kernel, by decide +kernel, fun h => ?_⟩
  exact absurd h.placeholders (by decide +kernel)

end Kiya
