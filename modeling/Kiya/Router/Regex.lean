import Kiya.Lib.RegexSyntax
import Kiya.Lib.Utf8
import Kiya.Router.Lookup

/-!
# Segments with an expression

`parseSegment` compiles `"^" + pattern + "$"` for a segment `{name:pattern}`. The anchors are put
around the text of the pattern, and `|` binds weaker than they do: with several alternatives, the
first one is held to the start of a segment only and the last one to its end only. So the node
accepts the language of the pattern if there is a single alternative, and otherwise only if that
language takes in the rest of a segment by itself.

`goEngine` is `regexp`, as far as `Lib/RegexSyntax` covers the syntax of its expressions.
-/

namespace Kiya.Router

open Regex RegexSyntax Utf8 List

/-- A Go string as bytes. -/
def bytes (s : Str) : Bytes := s.map fun c => UInt8.ofNat c.toNat

/-- The characters of a Go string, as a loop over the string finds them. -/
def runes (s : Str) : List Char := decode (bytes s)

/-- `regexp.Compile`: the alternatives of an expression, if it is one. -/
def compile (U : UnicodeTable) (expr : Str) : Option (List (List (Regex Char))) :=
  if Valid (bytes expr) then parse U (runes expr) else none

/-- `regexp`. -/
def goEngine (U : UnicodeTable) : Engine where
  compiles expr := (compile U expr).isSome
  matchString expr seg := (compile U expr).any fun alts => (ofAlts alts).search (runes seg)

/-- The node for a segment of a pattern accepts a segment of a path. -/
def Accepts (E : Engine) (part seg : Str) : Prop :=
  ∃ label, parseSegment E part = some label ∧ label.accepts E seg = true

section Runes

variable {s t : Str}

theorem bytes_append (s t : Str) : bytes (s ++ t) = bytes s ++ bytes t := map_append

/-- Every list of characters is found in some string. -/
theorem exists_runes_eq (text : List Char) : ∃ s, runes s = text := by
  refine ⟨(encode text).map fun b => Char.ofNat b.toNat, ?_⟩
  have hbyte (b : UInt8) : UInt8.ofNat (Char.ofNat b.toNat).toNat = b := by
    have hvalid : b.toNat.isValidChar := .inl (b.toNat_lt.trans (by decide))
    rw [Char.toNat_ofNat, if_pos hvalid, UInt8.ofNat_toNat]
  have hbytes : bytes ((encode text).map fun b => Char.ofNat b.toNat) = encode text := by
    rw [bytes, map_map]
    exact (map_congr_left fun b _ => hbyte b).trans (map_id _)
  rw [runes, hbytes, decode_encode]

end Runes

section Segment

variable {U : UnicodeTable} {name e seg : Str} {alts : List (List (Regex Char))}

/-- Between anchors, an expression is still one. -/
theorem compile_anchored (h : compile U e = some alts) :
    alts ≠ [] ∧ compile U ('^' :: e ++ ['$']) = some (anchored alts) := by
  have hcaret : isRune (bytes ['^']) = true := by decide
  have hdollar : Valid (bytes ['$']) := by decide
  by_cases he : Valid (bytes e)
  · rw [compile, if_pos he] at h
    obtain ⟨hne, hparse⟩ := parse_anchored U h
    have hbytes : bytes ('^' :: e ++ ['$']) = bytes ['^'] ++ (bytes e ++ bytes ['$']) := by
      rw [← bytes_append, ← bytes_append]
      rfl
    have hrunes : runes ('^' :: e ++ ['$']) = '^' :: runes e ++ ['$'] := by
      rw [runes, hbytes, decode_rune_append hcaret, decode_append he]
      rfl
    refine ⟨hne, ?_⟩
    rw [compile, if_pos (hbytes ▸ .append hcaret (he.append_valid hdollar)), hrunes, hparse]
  · rw [compile, if_neg he] at h
    cases h

/-- `parseSegment` for a name and an expression. -/
theorem parseSegment_of_compile (hname : ':' ∉ name) (hlength : (name ++ ':' :: e).length ≤ 100)
    (h : compile U e = some alts) : parseSegment (goEngine U) ('{' :: name ++ ':' :: e ++ ['}']) =
      some (.regex name ('^' :: e ++ ['$'])) := by
  have hstar : e ≠ ['*'] := by
    rintro rfl
    cases h
  have hbody : ('{' :: name ++ ':' :: e ++ ['}']).tail.dropLast = name ++ ':' :: e := by
    rw [cons_append, cons_append, tail_cons, dropLast_concat]
  have hspan : (name ++ ':' :: e).span (· ≠ ':') = (name, ':' :: e) := by
    have hall : ∀ c ∈ name, decide (c ≠ ':') = true := by
      intro c hc
      exact decide_eq_true fun h => hname (h ▸ hc)
    rw [span_eq_takeWhile_dropWhile, takeWhile_append_of_pos hall, dropWhile_append_of_pos hall]
    simp
  have hcompiles : (goEngine U).compiles ('^' :: e ++ ['$']) = true := by
    exact congrArg Option.isSome (compile_anchored h).2
  rw [parseSegment, if_neg (by simp), if_neg (by simp)]
  simp only [hbody, if_neg (Nat.not_lt.mpr hlength), hspan, if_neg hstar, hcompiles, if_true]

/-- The node accepts what is matched loosely. -/
theorem accepts_iff_loose (hname : ':' ∉ name) (hlength : (name ++ ':' :: e).length ≤ 100)
    (h : compile U e = some alts) (hfree : ∀ c ∈ alts, (ofItems c).AnchorFree) :
    Accepts (goEngine U) ('{' :: name ++ ':' :: e ++ ['}']) seg ↔ Loose alts (runes seg) := by
  obtain ⟨hne, hcompile⟩ := compile_anchored h
  have hmatch : (goEngine U).matchString ('^' :: e ++ ['$']) seg =
      (ofAlts (anchored alts)).search (runes seg) := by
    exact congrArg (Option.any fun alts => (ofAlts alts).search (runes seg)) hcompile
  rw [← search_anchored_iff hne hfree, ← hmatch, Accepts, parseSegment_of_compile hname hlength h]
  constructor
  · rintro ⟨_, ⟨⟩, haccepts⟩
    exact haccepts
  · intro haccepts
    exact ⟨_, rfl, haccepts⟩

end Segment

/-- **A segment with an expression.** The node accepts the language of the expression if and only if
there is one alternative, or the language takes in what the anchors leave open. -/
theorem regexSegment_iff (U : UnicodeTable) (name e : Str) (alts : List (List (Regex Char)))
    (hname : ':' ∉ name) (hlength : (name ++ ':' :: e).length ≤ 100)
    (hcompile : compile U e = some alts) (hfree : ∀ c ∈ alts, (ofItems c).AnchorFree) :
    (∀ seg, Accepts (goEngine U) ('{' :: name ++ ':' :: e ++ ['}']) seg ↔
      runes seg ∈ (ofAlts alts).language) ↔ alts.length = 1 ∨ Absorbs alts := by
  have hone : alts.length = 1 ∨ Absorbs alts ↔ Absorbs alts := by
    refine or_iff_right_of_imp fun hlen => ?_
    obtain ⟨c, rfl⟩ := length_eq_one_iff.mp hlen
    exact absorbs_singleton c
  have hne := (compile_anchored hcompile).1
  rw [hone, absorbs_iff]
  constructor
  · intro h text hloose
    obtain ⟨seg, rfl⟩ := exists_runes_eq text
    exact (h seg).mp ((accepts_iff_loose hname hlength hcompile hfree).mpr hloose)
  · intro h seg
    rw [accepts_iff_loose hname hlength hcompile hfree]
    exact ⟨h _, loose_of_mem_language hne⟩

/-- The expression `[0-9]+`. -/
def digitsAlts : List (List (Regex Char)) :=
  [[.rep (.char fun c => inRange 48 57 c || false) 1 none]]

theorem digitsSegment_whole :
    compile (fun _ => none) "[0-9]+".toList = some digitsAlts ∧
    ∀ seg, Accepts (goEngine fun _ => none) "{id:[0-9]+}".toList seg ↔
      runes seg ∈ (ofAlts digitsAlts).language := by
  have hcompile : compile (fun _ => none) "[0-9]+".toList = some digitsAlts := by
    rw [compile, if_pos (by decide +kernel)]
    rfl
  refine ⟨hcompile, (regexSegment_iff (fun _ => none) "id".toList "[0-9]+".toList digitsAlts
    (by decide) (by decide) hcompile ?_).mpr (.inl rfl)⟩
  intro c hc
  obtain rfl := mem_singleton.mp hc
  exact ⟨trivial, trivial⟩

/-- The expression `a|b`. -/
def eitherAlts : List (List (Regex Char)) := [[.char (single 97)], [.char (single 98)]]

/-- The segment `axx` of a path is not in the language of `a|b`. -/
theorem eitherSegment_not_whole :
    compile (fun _ => none) "a|b".toList = some eitherAlts ∧
    Accepts (goEngine fun _ => none) "{id:a|b}".toList "axx".toList ∧
    runes "axx".toList ∉ (ofAlts eitherAlts).language := by
  refine ⟨?_, ⟨.regex "id".toList "^a|b$".toList, by rfl, by decide +kernel⟩, ?_⟩
  · rw [compile, if_pos (by decide +kernel)]
    rfl
  · have hlength : (runes "axx".toList).length = 3 := by decide
    rintro (⟨_, ⟨c, -, rfl⟩, _, rfl, htext⟩ | ⟨_, ⟨c, -, rfl⟩, _, rfl, htext⟩)
    · rw [← htext] at hlength
      cases hlength
    · rw [← htext] at hlength
      cases hlength

end Kiya.Router
