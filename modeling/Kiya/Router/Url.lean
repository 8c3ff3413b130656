import Kiya.Lib.Replace
import Kiya.Router.Groups
import Kiya.Router.Paths
import Kiya.Router.Registration

/-!
# Reverse routing

`router.go`, `URL`: the path of a named route with values in place of its parameters. The tree
writes a parameter as `{name}`; `URL` looks for `:name`, and so leaves every parameter as it is and
replaces text of static segments.

A pattern is given by its segments. Its path comes out right if and only if every value is the text
`{name}` that stands there already, and no static segment contains `:name`.
-/

namespace Kiya.Router

open SlashPath Replace App List Option

variable {ω : Type}

/-! ### `URL` -/

/-- `URL`, for a map that is iterated in this order; the values are given as `%v` prints them. -/
def App.url (a : App ω) (name : String) (params : List (Str × Str)) : Str :=
  match a.routeNames.lookup name with
  | none => []
  | some path => params.foldl (fun path kv => replaceAll (':' :: kv.1) kv.2 path) path

/-- `Context.Param`. -/
def paramOf (params : List Param) (key : Str) : Str :=
  ((params.find? fun p => p.key = key).map Param.value).getD []

/-! ### Patterns -/

/-- A segment of a pattern: static text, or a parameter. -/
inductive Segment
  | static (part : Str)
  | param (name : Str)
deriving DecidableEq, Repr

namespace Segment

/-- How a pattern writes a parameter. -/
def braces (name : Str) : Str := '{' :: name ++ ['}']

/-- The text of a segment. -/
def text : Segment → Str
  | static part => part
  | param name => braces name

/-- Static text does not start with a brace; a name has neither a slash nor a colon, which would
make it a parameter with an expression. -/
def Ok : Segment → Prop
  | static part => Plain part ∧ part.head? ≠ some '{'
  | param name => '/' ∉ name ∧ ':' ∉ name

/-- The name of a parameter. -/
def name? : Segment → Option Str
  | static _ => none
  | param name => some name

/-- The label that the tree has for a segment. -/
def label : Segment → Label
  | static part => .static part
  | param name => .param name

end Segment

open Segment

/-- A pattern of static segments and parameters with distinct names. -/
structure Pattern where
  segs : List Segment
  ok : ∀ s ∈ segs, s.Ok
  nodup : (segs.filterMap name?).Nodup

namespace Pattern

/-- The names of the parameters. -/
def names (p : Pattern) : List Str := p.segs.filterMap name?

/-- The pattern as it is registered. -/
def text (p : Pattern) : Str := '/' :: ['/'].intercalate (p.segs.map Segment.text)

end Pattern

/-- A value for every parameter of a pattern: not empty, without a slash, and neither `.` nor
`..`. -/
structure Values (p : Pattern) where
  entries : List (Str × Str)
  keys : (entries.map Prod.fst).Perm p.names
  plain : ∀ kv ∈ entries, Plain kv.2

namespace Values

variable {p : Pattern}

/-- The value of a parameter. -/
def get (v : Values p) (name : Str) : Str := (v.entries.lookup name).getD []

/-- A segment with the value of its parameter. -/
def fill (v : Values p) : Segment → Str
  | .static part => part
  | .param name => v.get name

end Values

/-! ### Texts of segments -/

variable {name : Str}

section Text

variable {p : Pattern}

theorem plain_braces (h : '/' ∉ name) : Plain (braces name) := by
  refine ⟨cons_ne_nil _ _, ?_, ?_, ?_⟩
  · simp [braces]
  · simp [braces]
  · simp [braces, h]

variable {s : Segment}

theorem plain_text (hs : s.Ok) : Plain s.text := by
  cases s with
  | static part => exact hs.1
  | param name => exact plain_braces hs.1

theorem segments_text (p : Pattern) : segments p.text = p.segs.map Segment.text := by
  refine segments_intercalate (List.forall_mem_map.mpr fun s hs => ?_)
  exact plain_text (p.ok s hs)

theorem parseSegment_text (E : Engine) (hs : s.Ok) : parseSegment E s.text = some s.label := by
  cases s with
  | static part => exact if_pos hs.2
  | param name =>
    have hbody : (braces name).tail.dropLast = name := dropLast_concat
    have hspan : name.span (fun c => decide (c ≠ ':')) = (name, []) := by
      rw [span_eq_takeWhile_dropWhile, takeWhile_eq_self_iff.mpr, dropWhile_eq_nil_iff.mpr]
      · intro c hc
        exact decide_eq_true fun h => hs.2 (h ▸ hc)
      · intro c hc
        exact decide_eq_true fun h => hs.2 (h ▸ hc)
    rw [text, parseSegment, if_neg (by simp [braces]), if_neg (by simp [braces])]
    simp only [hbody, hspan, label]
    split_ifs <;> rfl

theorem labelsOf_text (E : Engine) {segs : List Segment} (h : ∀ s ∈ segs, s.Ok) :
    labelsOf E (segs.map text) = some (segs.map label) := by
  induction segs with
  | nil => rfl
  | cons s segs ih =>
    obtain ⟨hs, hsegs⟩ := forall_mem_cons.mp h
    have hwild : s.label.nType ≠ .wildcardNode := by cases s <;> simp [label, Label.nType]
    rw [map_cons, labelsOf, parseSegment_text E hs, ih hsegs]
    simp only [if_neg hwild, map_some, map_cons]

end Text

/-! ### The only route -/

section Only

variable {H : Type} {E : Engine} {m : String}

/-- The parameters that a pattern captures from its filled segments. -/
def Values.params {p : Pattern} (v : Values p) : List Param :=
  p.segs.filterMap fun s => s.name?.map fun name => ⟨name, v.get name⟩

variable {p : Pattern}

theorem captures_fill (v : Values p) :
    captures E (p.segs.map label) (p.segs.map v.fill) = some v.params := by
  rw [Values.params]
  induction p.segs with
  | nil => rfl
  | cons s segs ih =>
    have haccepts : s.label.accepts E (v.fill s) = true := by
      cases s with
      | static part => exact decide_eq_true rfl
      | param name => rfl
    rw [map_cons, map_cons, captures_cons haccepts, ih, map_some]
    cases s <;> rfl

theorem addRoute_text_registered (p : Pattern) (F : H) :
    ((newTree : Tree H).addRoute E m p.text (some F)).2 = .registered := by
  have w := walks_walk E (cleanPath p.text) (some F) (segments p.text)
    ((newTree : Tree H).rootOrNew m)
  have hconflict := w.no_conflict rfl
  have hpanic := w.not_panic fun seg hseg => by
    rw [segments_text] at hseg
    obtain ⟨s, hs, rfl⟩ := List.mem_map.mp hseg
    rw [parseSegment_text E (p.ok s hs)]
    exact some_ne_none _
  change (walk E (cleanPath p.text) (some F) (segments p.text) _).2 = _
  generalize (walk E (cleanPath p.text) (some F) (segments p.text) _).2 = o at hconflict hpanic
  cases o with
  | registered => rfl
  | conflict => cases hconflict
  | panic => exact absurd rfl hpanic

/-- With one route registered, every path that matches its pattern is found. -/
theorem findRoute_only {F : H} {q : Str} {params : List Param}
    (hq : captures E (p.segs.map label) (segments q) = some params) :
    ((newTree : Tree H).addRoute E m p.text (some F)).1.findRoute E m q = (some F, params) := by
  have hreg := addRoute_text_registered (E := E) (m := m) p F
  have hlabels : labelsOf E (segments p.text) = some (p.segs.map label) := by
    rw [segments_text, labelsOf_text E p.ok]
  have hlanding : LabelTree.landing sameNode (p.segs.map label) ((newTree : Tree H).rootOrNew m) =
      p.segs.map label := by
    cases p.segs <;> rfl
  have hstored : storedCaptures E (newTree : Tree H) m p.text q = some params := by
    rw [storedCaptures, storedLabels, hlabels, map_some, hlanding, bind_some, hq]
  rcases findRoute_of_stored .newTree hreg hstored with hfind | ⟨ls, w, hfirst, -⟩
  · exact hfind
  · -- the new tree has no other route
    have hroute := hfirst.mem.1
    cases hroute with
    | here hvalue => cases hvalue
    | child hc => cases hc

end Only

/-- The call registers a route. -/
def Call.registers : Call ω → Bool
  | .addRoute .. => true
  | _ => false

section Run

variable {E : Engine} {g : Slice.Growth} {before : List (Call ω)} {r : ℕ} {p : Str}
  {ms : List (Middleware ω)}

theorem registrations_eq_nil (hbefore : ∀ c ∈ before, c.registers = false) :
    registrations before = [] := by
  refine eq_nil_iff_forall_not_mem.mpr fun reg hreg => ?_
  obtain ⟨pre, i, path, name, post, q, rfl, -⟩ := mem_registrations_iff.mp hreg
  have hcall := hbefore _ (mem_append_right _ mem_cons_self)
  cases hcall

/-- What the routers share after the one registration. -/
theorem run_only (hbefore : ∀ c ∈ before, c.registers = false) (hr : InForce before r p ms)
    (method : String) (path : Str) (h : Option (Handler ω)) {name : String} (hname : name ≠ "")
    (hpanic : ((newTree : Tree (HandlerFunc ω)).addRoute E method (p ++ path) (chain h ms)).2 ≠
      .panic) :
    let a := run E g (before ++ [.addRoute r method path h [name]])
    a.tree = ((newTree : Tree (HandlerFunc ω)).addRoute E method (p ++ path) (chain h ms)).1 ∧
      a.routeNames.lookup name = some (p ++ path) := by
  obtain ⟨hscopes, htree⟩ := run_refines E g before
  rw [registrations_eq_nil hbefore] at htree
  have hscope := scopesAfter_eq_some_iff.mpr hr
  rw [← hscopes, scopes, getElem?_map] at hscope
  obtain ⟨rt, hrt, hmk⟩ := map_eq_some_iff.mp hscope
  obtain ⟨rfl, rfl⟩ := Scope.mk.inj hmk
  have hcall : run E g (before ++ [.addRoute r method path h [name]]) =
      (run E g before).addRoute E rt method path h [name] := by
    rw [run, foldl_append]
    simp only [foldl_cons, foldl_nil, call]
    rw [show List.foldl (call E g) new before = run E g before from rfl, hrt]
    rfl
  simp only [hcall]
  rw [foldl_nil] at htree
  simp only [addRoute, htree]
  refine ⟨trivial, ?_⟩
  generalize (newTree.addRoute E method (rt.prefixPath ++ path) _).2 = o at hpanic ⊢
  cases o with
  | panic => exact absurd rfl hpanic
  | registered | conflict => simp [hname]

end Run

/-! ### What is replaced -/

/-- The loop of `URL`. -/
def replaceIn (order : List (Str × Str)) (s : Str) : Str :=
  order.foldl (fun path kv => replaceAll (':' :: kv.1) kv.2 path) s

section ReplaceIn

variable {order : List (Str × Str)} {s : Str} {old : Str}

theorem replaceAll_slash (new : Str) (hold : old ≠ []) (hslash : '/' ∉ old) (s : Str) :
    replaceAll old new ('/' :: s) = '/' :: replaceAll old new s :=
  replaceAll_append_mark hold hslash [] s

theorem replaceAll_intercalate (new : Str) (hold : old ≠ []) (hslash : '/' ∉ old)
    (segs : List Str) : replaceAll old new (['/'].intercalate segs) =
      ['/'].intercalate (segs.map (replaceAll old new)) := by
  induction segs with
  | nil => rfl
  | cons seg segs ih =>
    cases segs with
    | nil => simp
    | cons seg' segs =>
      rw [intercalate_cons_cons, append_assoc, singleton_append,
        replaceAll_append_mark hold hslash, ih, map_cons, map_cons, map_cons,
        intercalate_cons_cons, append_assoc, singleton_append]

/-- **`URL` replaces segment by segment.** -/
theorem replaceIn_intercalate (horder : ∀ kv ∈ order, '/' ∉ kv.1) (segs : List Str) :
    replaceIn order ('/' :: ['/'].intercalate segs) =
      '/' :: ['/'].intercalate (segs.map (replaceIn order)) := by
  induction order generalizing segs with
  | nil =>
    rw [show replaceIn [] = id from rfl, List.map_id]
    rfl
  | cons kv order ih =>
    obtain ⟨hkv, horder⟩ := forall_mem_cons.mp horder
    have hslash : '/' ∉ ':' :: kv.1 := by simp [hkv]
    have hmap : segs.map (replaceIn (kv :: order)) =
        (segs.map (replaceAll (':' :: kv.1) kv.2)).map (replaceIn order) := by
      rw [List.map_map]
      rfl
    rw [hmap, ← ih horder, ← replaceAll_intercalate kv.2 (cons_ne_nil _ _) hslash,
      ← replaceAll_slash kv.2 (cons_ne_nil _ _) hslash]
    rfl

/-- A part of two dots at most is itself of this kind. -/
theorem dots_of_infix {v s : Str} (h : v <:+: s) (hs : s = [] ∨ s = ['.'] ∨ s = ['.', '.']) :
    v = [] ∨ v = ['.'] ∨ v = ['.', '.'] := by
  have hmem : v ∈ s.sublists := mem_sublists.mpr h.sublist
  rcases hs with rfl | rfl | rfl
  · exact .inl (infix_nil.mp h)
  · simp [List.sublists] at hmem
    tauto
  · have hlist : ['.', '.'].sublists = [[], ['.'], ['.'], ['.', '.']] := by decide
    rw [hlist] at hmem
    simp at hmem
    tauto

/-- A segment stays one when a value is put in. -/
theorem plain_replaceAll {k v : Str} (hv : Plain v) (hs : Plain s) :
    Plain (replaceAll (':' :: k) v s) := by
  by_cases hin : ':' :: k <:+: s
  · have hpart : v <:+: replaceAll (':' :: k) v s := infix_replaceAll (cons_ne_nil _ _) hin
    have hdots : ∀ t, t = [] ∨ t = ['.'] ∨ t = ['.', '.'] → replaceAll (':' :: k) v s ≠ t := by
      rintro t ht rfl
      rcases dots_of_infix hpart ht with hnil | hdot | hup
      · exact hv.ne_nil hnil
      · exact hv.ne_dot hdot
      · exact hv.ne_up hup
    refine ⟨hdots _ (.inl rfl), hdots _ (.inr (.inl rfl)), hdots _ (.inr (.inr rfl)), ?_⟩
    intro hslash
    exact (mem_replaceAll (cons_ne_nil _ _) hslash).elim hs.no_slash hv.no_slash
  · rwa [replaceAll_eq_self hin]

theorem plain_replaceIn (horder : ∀ kv ∈ order, Plain kv.2) (hs : Plain s) :
    Plain (replaceIn order s) := by
  induction order generalizing s with
  | nil => exact hs
  | cons kv order ih =>
    obtain ⟨hkv, horder⟩ := forall_mem_cons.mp horder
    exact ih horder (plain_replaceAll hkv hs)

/-- Where none of the keys occurs with a colon, nothing is replaced. -/
theorem replaceIn_eq_self (h : ∀ kv ∈ order, ¬ ':' :: kv.1 <:+: s) : replaceIn order s = s := by
  induction order with
  | nil => rfl
  | cons kv order ih =>
    obtain ⟨hkv, horder⟩ := forall_mem_cons.mp h
    have hstep : replaceIn (kv :: order) s =
        replaceIn order (replaceAll (':' :: kv.1) kv.2 s) := rfl
    rw [hstep, replaceAll_eq_self hkv, ih horder]

/-- With the placeholders themselves as values, only what has no key in it stays as it is: every
replacement makes the text longer. -/
theorem not_infix_of_replaceIn (horder : ∀ kv ∈ order, kv.2 = braces kv.1)
    (h : replaceIn order s = s) : ∀ kv ∈ order, ¬ ':' :: kv.1 <:+: s := by
  have hlonger (kv : Str × Str) (hkv : kv.2 = braces kv.1) :
      (':' :: kv.1).length < kv.2.length := by
    simp [hkv, braces]
  have hle : ∀ {order : List (Str × Str)}, (∀ kv ∈ order, kv.2 = braces kv.1) →
      ∀ s : Str, s.length ≤ (replaceIn order s).length := by
    intro order horder
    induction order with
    | nil => exact fun s => le_rfl
    | cons kv order ih =>
      obtain ⟨hkv, horder⟩ := forall_mem_cons.mp horder
      intro s
      exact (length_replaceAll (hlonger kv hkv) (cons_ne_nil _ _) s).1.trans (ih horder _)
  induction order with
  | nil => exact nofun
  | cons kv order ih =>
    obtain ⟨hkv, horder⟩ := forall_mem_cons.mp horder
    have hstep : replaceIn order (replaceAll (':' :: kv.1) kv.2 s) = s := h
    have hnot : ¬ ':' :: kv.1 <:+: s := by
      intro hin
      have hlt := (length_replaceAll (hlonger kv hkv) (cons_ne_nil _ _) s).2 hin
      have hback := hle horder (replaceAll (':' :: kv.1) kv.2 s)
      rw [hstep] at hback
      omega
    rw [replaceAll_eq_self hnot] at hstep
    exact forall_mem_cons.mpr ⟨hnot, ih horder hstep⟩

end ReplaceIn

/-! ### When reverse routing inverts routing -/

section Inverts

variable {p : Pattern} (v : Values p)

theorem Values.nodup_keys : (v.entries.map Prod.fst).Nodup := v.keys.nodup_iff.mpr p.nodup

variable {kv : Str × Str}

theorem lookup_of_mem {entries : List (Str × Str)} (hnodup : (entries.map Prod.fst).Nodup)
    (h : kv ∈ entries) : entries.lookup kv.1 = some kv.2 := by
  induction entries with
  | nil => cases h
  | cons e entries ih =>
    rw [map_cons, nodup_cons] at hnodup
    rcases mem_cons.mp h with rfl | h
    · exact lookup_cons_self
    · have hne : (kv.1 == e.1) = false := by
        refine beq_eq_false_iff_ne.mpr fun heq => hnodup.1 ?_
        exact heq ▸ List.mem_map_of_mem h
      rw [lookup_cons, hne]
      exact ih hnodup.2 h

theorem Values.get_of_mem (h : kv ∈ v.entries) : v.get kv.1 = kv.2 := by
  rw [Values.get, lookup_of_mem v.nodup_keys h, getD_some]

theorem Values.mem_names (h : kv ∈ v.entries) : kv.1 ∈ p.names :=
  v.keys.subset (List.mem_map_of_mem h)

theorem Pattern.param_mem (h : name ∈ p.names) : .param name ∈ p.segs := by
  obtain ⟨s, hs, hname⟩ := mem_filterMap.mp h
  cases s with
  | static => cases hname
  | param name' =>
    obtain rfl := some_inj.mp hname
    exact hs

theorem paramOf_params (h : kv ∈ v.entries) : paramOf v.params kv.1 = kv.2 := by
  have hmem : (⟨kv.1, v.get kv.1⟩ : Param) ∈ v.params :=
    mem_filterMap.mpr ⟨_, Pattern.param_mem (v.mem_names h), rfl⟩
  rw [paramOf]
  cases hfind : v.params.find? fun q => q.key = kv.1 with
  | none => exact absurd (decide_eq_true rfl) (find?_eq_none.mp hfind _ hmem)
  | some q =>
    -- every parameter has the value of its key
    have hkey : q.key = kv.1 := by simpa using find?_some hfind
    obtain ⟨s, -, hs⟩ := mem_filterMap.mp (mem_of_find?_eq_some hfind)
    obtain ⟨name, -, rfl⟩ := map_eq_some_iff.mp hs
    rw [map_some, getD_some, ← v.get_of_mem h, ← hkey]

/-- What `URL` should do for the values, whatever the order of the map is: the path has the segments
of the pattern with the values in their places, the lookup of it finds the handler and the values,
and the path does not depend on the order. -/
structure UrlInverts (E : Engine) (a : App ω) (method name : String) (F : HandlerFunc ω) :
    Prop where
  filled : ∀ order, order.Perm v.entries → segments (a.url name order) = p.segs.map v.fill
  found : ∀ order, order.Perm v.entries → ∃ params,
    a.tree.findRoute E method (a.url name order) = (some F, params) ∧
      ∀ kv ∈ v.entries, paramOf params kv.1 = kv.2
  same : ∀ order₁ order₂, order₁.Perm v.entries → order₂.Perm v.entries →
    a.url name order₁ = a.url name order₂

variable {order : List (Str × Str)}

/-- The segments of the path that the loop makes of a pattern. -/
theorem replaceIn_text (horder : order.Perm v.entries) :
    replaceIn order p.text = '/' :: ['/'].intercalate (p.segs.map fun s => replaceIn order s.text) ∧
    segments (replaceIn order p.text) = p.segs.map fun s => replaceIn order s.text := by
  have hkeys : ∀ kv ∈ order, '/' ∉ kv.1 := fun kv hkv =>
    (p.ok _ (Pattern.param_mem (v.mem_names (horder.subset hkv)))).1
  have htext : replaceIn order p.text =
      '/' :: ['/'].intercalate (p.segs.map fun s => replaceIn order s.text) := by
    rw [Pattern.text, replaceIn_intercalate hkeys, List.map_map]
    rfl
  refine ⟨htext, ?_⟩
  rw [htext]
  refine segments_intercalate (List.forall_mem_map.mpr fun s hs => ?_)
  exact plain_replaceIn (fun kv hkv => v.plain kv (horder.subset hkv)) (plain_text (p.ok s hs))

/-- A parameter is never replaced: there is no colon in it. -/
theorem replaceIn_braces (hname : ':' ∉ name) (order : List (Str × Str)) :
    replaceIn order (braces name) = braces name := by
  refine replaceIn_eq_self fun kv _ hin => ?_
  have hcolon : ':' ∈ braces name := hin.subset mem_cons_self
  simp [braces, hname] at hcolon

/-- The condition on the values and on the static segments. -/
def Spared : Prop :=
  (∀ name ∈ p.names, v.get name = braces name) ∧
    ∀ part, .static part ∈ p.segs → ∀ name ∈ p.names, ¬ ':' :: name <:+: part

/-- All segments come out right if and only if the values are the placeholders and no static
segment has one of them in it. -/
theorem replaceIn_eq_fill_iff (horder : order.Perm v.entries) :
    (∀ s ∈ p.segs, replaceIn order s.text = v.fill s) ↔ Spared v := by
  have hkey (name : Str) (hname : name ∈ p.names) : ∃ kv ∈ order, kv.1 = name := by
    obtain ⟨kv, hkv, rfl⟩ := List.mem_map.mp (v.keys.symm.subset hname)
    exact ⟨kv, horder.symm.subset hkv, rfl⟩
  constructor
  · intro h
    have hvalues : ∀ name ∈ p.names, v.get name = braces name := by
      intro name hname
      have hseg := Pattern.param_mem hname
      exact (h _ hseg).symm.trans (replaceIn_braces (p.ok _ hseg).2 order)
    refine ⟨hvalues, fun part hpart name hname => ?_⟩
    have hbraces : ∀ kv ∈ order, kv.2 = braces kv.1 := by
      intro kv hkv
      have hmem := horder.subset hkv
      rw [← v.get_of_mem hmem]
      exact hvalues _ (v.mem_names hmem)
    obtain ⟨kv, hkv, rfl⟩ := hkey name hname
    exact not_infix_of_replaceIn hbraces (h _ hpart) kv hkv
  · rintro ⟨hvalues, hstatic⟩ s hs
    cases s with
    | static part =>
      exact replaceIn_eq_self fun kv hkv => hstatic part hs _ (v.mem_names (horder.subset hkv))
    | param name =>
      have hname : name ∈ p.names := mem_filterMap.mpr ⟨_, hs, rfl⟩
      exact (replaceIn_braces (p.ok _ hs).2 order).trans (hvalues name hname).symm

end Inverts

/-- **When reverse routing inverts routing.** For a named route that is the only one, `URL` and the
lookup invert each other if and only if every value is the placeholder of its parameter, and no
static segment contains the name of a parameter behind a colon. -/
theorem url_inverts_iff (E : Engine) (g : Slice.Growth) (before : List (Call ω)) (r : ℕ)
    (method : String) (path : Str) (h : Handler ω) (name : String) (pre : Str)
    (ms : List (Middleware ω)) (p : Pattern) (v : Values p)
    (hbefore : ∀ c ∈ before, c.registers = false) (hr : InForce before r pre ms)
    (hpath : pre ++ path = p.text) (hname : name ≠ "") :
    UrlInverts v E (run E g (before ++ [.addRoute r method path (some h) [name]])) method name
      (chainFrom h 0 ms) ↔ Spared v := by
  obtain ⟨htree, hlookup⟩ := run_only (E := E) (g := g) hbefore hr method path (some h) hname (by
    rw [hpath]
    exact fun hpanic => by
      rw [show chain (some h) ms = some (chainFrom h 0 ms) from rfl,
        addRoute_text_registered] at hpanic
      cases hpanic)
  rw [hpath] at htree hlookup
  generalize run E g (before ++ [.addRoute r method path (some h) [name]]) = a at htree hlookup
  have hurl (order : List (Str × Str)) : a.url name order = replaceIn order p.text := by
    rw [url, hlookup]
    rfl
  have hsegments (order : List (Str × Str)) (horder : order.Perm v.entries) :
      segments (a.url name order) = p.segs.map v.fill ↔ Spared v := by
    rw [hurl, (replaceIn_text v horder).2, map_inj_left, replaceIn_eq_fill_iff v horder]
  constructor
  · intro hinverts
    exact (hsegments v.entries .rfl).mp (hinverts.filled v.entries .rfl)
  · intro hspared
    refine ⟨fun order horder => (hsegments order horder).mpr hspared, fun order horder => ?_, ?_⟩
    · refine ⟨v.params, ?_, fun kv hkv => paramOf_params v hkv⟩
      rw [htree]
      refine findRoute_only ?_
      rw [(hsegments order horder).mpr hspared, captures_fill]
    · intro order₁ order₂ horder₁ horder₂
      have hsame (order : List (Str × Str)) (horder : order.Perm v.entries) :
          a.url name order = '/' :: ['/'].intercalate (p.segs.map v.fill) := by
        rw [hurl, (replaceIn_text v horder).1,
          map_congr_left ((replaceIn_eq_fill_iff v horder).mpr hspared)]
      rw [hsame order₁ horder₁, hsame order₂ horder₂]

/-- The pattern `/users/{id}`. -/
def usersPattern : Pattern where
  segs := [.static "users".toList, .param "id".toList]
  ok := by
    refine forall_mem_cons.mpr ⟨⟨⟨by decide, by decide, by decide, by decide⟩, by decide⟩,
      forall_mem_singleton.mpr ⟨by decide, by decide⟩⟩
  nodup := by decide

/-- One value for the parameter of `/users/{id}`. -/
def usersValues (value : Str) (h : Plain value) : Values usersPattern :=
  ⟨[("id".toList, value)], .rfl, forall_mem_singleton.mpr h⟩

/-- A handler that does nothing. -/
def showUser : Handler Unit := ⟨"show", fun _ => ([], none)⟩

/-- An engine without expressions. -/
def noExpressions : Engine := ⟨fun _ => false, fun _ _ => false⟩

/-- The application with the one route `/users/{id}`. -/
def usersApp : App Unit :=
  .run noExpressions exactGrowth
    [.addRoute 0 "GET" "/users/{id}".toList (some showUser) ["user"]]

/-- The placeholder as its own value is the only one that comes out right. -/
theorem usersUrl_inverted :
    UrlInverts (usersValues "{id}".toList ⟨by decide, by decide, by decide, by decide⟩)
      noExpressions usersApp "GET" "user" (chainFrom showUser 0 []) := by
  refine (url_inverts_iff noExpressions exactGrowth [] 0 "GET" "/users/{id}".toList showUser "user"
    [] [] usersPattern _ (nofun) (.root []) rfl (by decide)).mpr ⟨?_, ?_⟩
  · exact forall_mem_singleton.mpr rfl
  · intro part hpart name hname
    obtain rfl : part = "users".toList := by simpa [usersPattern] using hpart
    obtain rfl : name = "id".toList := mem_singleton.mp hname
    decide

/-- A user by number: `URL` returns the pattern, and the lookup of it finds the placeholder. -/
theorem usersUrl_not_inverted :
    usersApp.url "user" [("id".toList, "7".toList)] = "/users/{id}".toList ∧
    ¬ UrlInverts (usersValues "7".toList ⟨by decide, by decide, by decide, by decide⟩)
      noExpressions usersApp "GET" "user" (chainFrom showUser 0 []) := by
  have hurl : usersApp.url "user" [("id".toList, "7".toList)] = "/users/{id}".toList := by
    decide +kernel
  refine ⟨hurl, fun hinverts => ?_⟩
  have hfilled := hinverts.filled [("id".toList, "7".toList)] .rfl
  rw [hurl] at hfilled
  revert hfilled
  decide +kernel

end Kiya.Router
