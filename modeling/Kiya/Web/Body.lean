import Kiya.Net.Http

/-!
# The body of a request

The body of a request is a stream. `Context.GetBody` reads it and keeps it, in the context and as a
new stream of the request. But the stream can also be read by the form parser of `net/http`, for
`Post` and for `Bind`, and then it is gone if it has not been kept before. `Bind` reads the body
first, but it keeps it in the context only if it succeeds.

So a later `GetBody` gets the whole body unless the first call that does something is a `Post`, or a
`Bind` that fails, on a form that the parser reads. A `Bind` that fails on JSON does nothing.

What a media type, a query or a multipart form look like, and what the decoders accept, are
parameters. A body that ends with an error is not returned by any call.
-/

namespace Kiya.Web

open List Option

/-- The values of a form, those of a key in order. -/
abbrev Values := List (Bytes × Bytes)

/-- What the libraries do: the parsers of `mime`, `net/url` and `mime/multipart`, and the decoders
for the targets of `Bind`. The multipart parser also says how much of the body it reads. -/
structure Env (T : Type) where
  parseMediaType : String → String × List (String × String) × Bool
  parseQuery : Bytes → Values × Bool
  readForm : String → Body → Option Values × ℕ
  decodeJSON : T → Bytes → Bool
  decodeForm : T → Values → Bool

/-- The parts of a request that stay as they are. -/
structure Incoming where
  method : String
  contentType : String
  rawQuery : Bytes

/-- The parts of a request and of its context that calls change. -/
structure State where
  -- `Context.body`
  cached : Option Bytes
  -- `Request.Body`, what is left of it
  body : Option Body
  form : Option Values
  postForm : Option Values
  multipartForm : Option Values

/-- `MaxMultipartMemory`, which is also the limit for forms in `net/http`. -/
def maxMultipartMemory : ℕ := 10 * 2 ^ 20

variable {T : Type} {s' : State} (env : Env T) (body : Body) (req : Incoming) (ok : Bool)
  (s : State)

/-- A stream of which so many bytes have been read. -/
def dropBody (n : ℕ) : Body := { body with data := body.data.drop n }

/-! ### Forms of `net/http` -/

/-- The content type of a form. -/
def urlencodedType : String := "application/x-www-form-urlencoded"

/-- The content type of a form in parts. -/
def multipartType : String := "multipart/form-data"

/-- The media type of a request, with the default for none. -/
def mediaType : String × List (String × String) × Bool :=
  env.parseMediaType
    (if req.contentType = "" then "application/octet-stream" else req.contentType)

/-- `parsePostForm`. -/
def parsePostForm : (Option Values × Bool) × State :=
  match s.body with
  | none => ((none, true), s)
  | some body =>
    let ok := (mediaType env req).2.2
    if (mediaType env req).1 = urlencodedType then
      let s := { s with body := some (dropBody body (maxMultipartMemory + 1)) }
      if maxMultipartMemory < body.data.length ∨ body.err ≠ none then ((none, false), s)
      else
        let parsed := env.parseQuery body.data
        ((some parsed.1, ok && parsed.2), s)
    else ((none, ok), s)

/-- The first half of `ParseForm`. -/
def parsePost : Bool × State :=
  match s.postForm with
  | some _ => (true, s)
  | none =>
    if req.method ∈ ["POST", "PUT", "PATCH"] then
      let parsed := parsePostForm env req s
      (parsed.1.2, { parsed.2 with postForm := some (parsed.1.1.getD []) })
    else (true, { s with postForm := some [] })

/-- The second half of `ParseForm`. -/
def parseRest : Bool × State :=
  match s.form with
  | some _ => (ok, s)
  | none =>
    let query := env.parseQuery req.rawQuery
    (ok && query.2, { s with form := some (s.postForm.getD [] ++ query.1) })

/-- `Request.ParseForm`. -/
def parseForm : Bool × State :=
  let post := parsePost env req s
  parseRest env req post.1 post.2

/-- `multipartReader`: the boundary, if there is one. -/
def boundary (env : Env T) (req : Incoming) : Option String :=
  if req.contentType = "" then none
  else
    let parsed := env.parseMediaType req.contentType
    if parsed.2.2 ∧ parsed.1 = multipartType then parsed.2.1.lookup "boundary" else none

/-- The second half of `ParseMultipartForm`. -/
def parseParts : Bool × State :=
  match s.multipartForm with
  | some _ => (true, s)
  | none =>
    match s.body, boundary env req with
    | some body, some b =>
      let read := env.readForm b body
      let s := { s with body := some (dropBody body read.2) }
      match read.1 with
      | none => (false, s)
      | some vs => (ok, { s with
          form := some (s.form.getD [] ++ vs)
          postForm := some (s.postForm.getD [] ++ vs)
          multipartForm := some vs })
    | _, _ => (false, s)

/-- `Request.ParseMultipartForm`. -/
def parseMultipartForm : Bool × State :=
  match s.form with
  | some _ => parseParts env req true s
  | none =>
    let parsed := parseForm env req s
    parseParts env req parsed.1 parsed.2

/-! ### Calls -/

/-- `web.GetBody`; nothing stands for an error. -/
def webGetBody : Option Bytes × State :=
  match s.cached with
  | some b => (some b, { s with body := some (.ofBytes b) })
  | none =>
    match s.body with
    | none => (some [], s)
    | some body =>
      match (body.maxBytesReader maxMultipartMemory).readAll with
      | (b, none) => (some b, { s with body := some (.ofBytes b) })
      | (_, some _) => (none, { s with body := some (dropBody body (maxMultipartMemory + 1)) })

/-- The part of `web.Bind` that follows `GetBody`. -/
def bindBody (v : T) (b : Bytes) (s : State) : Bool × State :=
  if contains req.contentType "application/json" then (env.decodeJSON v b, s)
  else
    let parsed := if contains req.contentType multipartType then parseMultipartForm env req s
      else parseForm env req s
    (parsed.1 && env.decodeForm v (parsed.2.postForm.getD []), parsed.2)

/-- The calls of a context that have to do with the body. -/
inductive Call (T : Type)
  | getBody
  | bindJSON (v : T)
  | bind (v : T)
  | post (key : Bytes)
deriving DecidableEq

/-- What a call returns. -/
inductive Answer
  | body (b : Bytes)
  | value (text : Bytes)
  | bound
  | failed
deriving DecidableEq

/-- One call of a context. -/
def step : Call T → Answer × State
  | .getBody =>
    match webGetBody s with
    | (none, s) => (.failed, s)
    | (some b, s) => (.body b, { s with cached := some b })
  | .bindJSON v =>
    match webGetBody s with
    | (none, s) => (.failed, s)
    | (some b, s) =>
      (if env.decodeJSON v b then .bound else .failed, { s with cached := some b })
  | .bind v =>
    match webGetBody s with
    | (none, s) => (.failed, s)
    | (some b, s) =>
      match bindBody env req v b s with
      | (true, s) => (.bound, { s with cached := some b })
      | (false, s) => (.failed, s)
  | .post key =>
    let s := if s.postForm.isNone then (parseMultipartForm env req s).2 else s
    (.value (((s.postForm.getD []).lookup key).getD []), s)

/-- The answers to calls, one after the other. -/
def run (env : Env T) (req : Incoming) : State → List (Call T) → List Answer
  | _, [] => []
  | s, c :: cs => (step env req s c).1 :: run env req (step env req s c).2 cs

/-- A request that has come in. -/
def start : State := ⟨none, some body, none, none, none⟩

/-! ### What is read of the stream -/

/-- The state after some bytes of the stream have been read, and what else the parsers change. -/
def Shrinks (s' : State) : Prop :=
  s'.cached = s.cached ∧ ∃ n, s'.body = s.body.map (dropBody · n)

theorem dropBody_zero : dropBody body 0 = body := rfl

theorem dropBody_dropBody (n m : ℕ) : dropBody (dropBody body n) m = dropBody body (n + m) := by
  rw [dropBody, dropBody, dropBody, drop_drop]

theorem Shrinks.of_eq {s : State} (hcached : s'.cached = s.cached) (hbody : s'.body = s.body) :
    Shrinks s s' := by
  refine ⟨hcached, 0, hbody.trans ?_⟩
  cases s.body <;> rfl

theorem Shrinks.trans {s s'' : State} (h : Shrinks s s') (h' : Shrinks s' s'') : Shrinks s s'' := by
  obtain ⟨hcached, n, hbody⟩ := h
  obtain ⟨hcached', m, hbody'⟩ := h'
  refine ⟨hcached'.trans hcached, n + m, ?_⟩
  rw [hbody', hbody, Option.map_map]
  exact congrArg (Option.map · s.body) (funext fun body => dropBody_dropBody body n m)

theorem parsePostForm_shrinks : Shrinks s (parsePostForm env req s).2 := by
  cases hbody : s.body with
  | none =>
    rw [parsePostForm, hbody]
    exact .of_eq rfl rfl
  | some body =>
    rw [parsePostForm, hbody]
    dsimp only
    split_ifs
    · exact ⟨rfl, maxMultipartMemory + 1, by rw [hbody]; rfl⟩
    · exact ⟨rfl, maxMultipartMemory + 1, by rw [hbody]; rfl⟩
    · exact .of_eq rfl rfl

theorem parsePost_shrinks : Shrinks s (parsePost env req s).2 := by
  rw [parsePost.eq_def]
  split
  · exact .of_eq rfl rfl
  · split_ifs
    · exact (parsePostForm_shrinks env req s).trans (.of_eq rfl rfl)
    · exact .of_eq rfl rfl

theorem parseRest_shrinks : Shrinks s (parseRest env req ok s).2 := by
  rw [parseRest.eq_def]
  split
  · exact .of_eq rfl rfl
  · exact .of_eq rfl rfl

theorem parseForm_shrinks : Shrinks s (parseForm env req s).2 :=
  (parsePost_shrinks env req s).trans (parseRest_shrinks env req _ _)

theorem parseParts_shrinks : Shrinks s (parseParts env req ok s).2 := by
  rw [parseParts.eq_def]
  split
  · exact .of_eq rfl rfl
  · split
    · rename_i body b hbody _
      have hdrop (n : ℕ) : some (dropBody body n) = s.body.map (dropBody · n) := by
        rw [hbody]
        rfl
      dsimp only
      split
      · exact ⟨rfl, _, hdrop _⟩
      · exact ⟨rfl, _, hdrop _⟩
    · exact .of_eq rfl rfl

theorem parseMultipartForm_shrinks : Shrinks s (parseMultipartForm env req s).2 := by
  rw [parseMultipartForm.eq_def]
  split
  · exact parseParts_shrinks env req true s
  · exact (parseForm_shrinks env req s).trans (parseParts_shrinks env req _ _)

theorem bindBody_shrinks (v : T) (b : Bytes) (s : State) :
    Shrinks s (bindBody env req v b s).2 := by
  rw [bindBody.eq_def]
  split_ifs
  · exact .of_eq rfl rfl
  · exact parseMultipartForm_shrinks env req s
  · exact parseForm_shrinks env req s

/-! ### Forms of a request that has come in -/

/-- The form parser reads the whole body of such a request. -/
def IsUrlencoded (env : Env T) (req : Incoming) : Prop :=
  req.method ∈ ["POST", "PUT", "PATCH"] ∧ (mediaType env req).1 = urlencodedType

instance (env : Env T) (req : Incoming) : Decidable (IsUrlencoded env req) :=
  inferInstanceAs (Decidable (_ ∧ _))

/-- How much the multipart parser reads of a body. -/
def partsRead (body : Body) : ℕ :=
  match boundary env req with
  | some b => (env.readForm b body).2
  | none => 0

/-- How much `ParseMultipartForm` reads. -/
def multipartRead (body : Body) : ℕ :=
  if IsUrlencoded env req then maxMultipartMemory + 1 else partsRead env req body

variable {env : Env T} {req : Incoming}

theorem boundary_of_isUrlencoded (h : IsUrlencoded env req) : boundary env req = none := by
  obtain ⟨-, hmedia⟩ := h
  rw [boundary]
  by_cases hct : req.contentType = ""
  · rw [if_pos hct]
  · rw [mediaType, if_neg hct] at hmedia
    have hparts : ¬ ((env.parseMediaType req.contentType).2.2 = true ∧
        (env.parseMediaType req.contentType).1 = multipartType) := by
      rw [hmedia]
      exact fun h => absurd h.2 (by decide)
    rw [if_neg hct]
    exact if_neg hparts

/-- A form was parsed, and so much read of the body. -/
structure AfterForm (body : Body) (n : ℕ) (s : State) : Prop where
  cached : s.cached = none
  body_eq : s.body = some (dropBody body n)
  form : s.form.isSome
  postForm : s.postForm.isSome

theorem parsePost_start :
    ∃ p, (parsePost env req (start body)).2 = { start body with
      body := some (dropBody body (if IsUrlencoded env req then maxMultipartMemory + 1 else 0))
      postForm := some p } := by
  rw [parsePost.eq_def]
  dsimp only [start]
  by_cases hmethod : req.method ∈ ["POST", "PUT", "PATCH"]
  · rw [if_pos hmethod, parsePostForm]
    dsimp only
    by_cases hmedia : (mediaType env req).1 = urlencodedType
    · rw [if_pos hmedia, if_pos (show IsUrlencoded env req from ⟨hmethod, hmedia⟩)]
      split_ifs
      · exact ⟨_, rfl⟩
      · exact ⟨_, rfl⟩
    · rw [if_neg hmedia, if_neg fun h : IsUrlencoded env req => hmedia h.2]
      exact ⟨_, rfl⟩
  · rw [if_neg hmethod, if_neg fun h : IsUrlencoded env req => hmethod h.1]
    exact ⟨_, rfl⟩

theorem parseForm_start (env : Env T) (req : Incoming) (body : Body) :
    AfterForm body (if IsUrlencoded env req then maxMultipartMemory + 1 else 0)
        (parseForm env req (start body)).2 ∧
      (parseForm env req (start body)).2.multipartForm = none := by
  obtain ⟨p, hpost⟩ := parsePost_start body
  rw [parseForm, hpost]
  exact ⟨⟨rfl, rfl, rfl, rfl⟩, rfl⟩

variable {s : State} {body : Body} {n : ℕ} {data : Bytes}

/-- What the multipart parser does with a form that has been parsed. -/
theorem parseParts_afterForm (env : Env T) (req : Incoming) (h : AfterForm body n s)
    (hparts : s.multipartForm = none) (ok : Bool) :
    AfterForm body (n + partsRead env req (dropBody body n)) (parseParts env req ok s).2 := by
  rw [parseParts, hparts, h.body_eq, partsRead]
  cases boundary env req with
  | none => exact { h with }
  | some b =>
    dsimp only
    have hdrop := congrArg some (dropBody_dropBody body n (env.readForm b (dropBody body n)).2)
    split
    · exact ⟨h.cached, hdrop, h.form, h.postForm⟩
    · exact ⟨h.cached, hdrop, rfl, rfl⟩

theorem parseMultipartForm_start (env : Env T) (req : Incoming) (body : Body) :
    AfterForm body (multipartRead env req body) (parseMultipartForm env req (start body)).2 := by
  obtain ⟨hform, hparts⟩ := parseForm_start env req body
  have h := parseParts_afterForm env req hform hparts
    (parseForm env req (start body)).1
  rw [multipartRead]
  by_cases hurl : IsUrlencoded env req
  · rw [if_pos hurl, partsRead, boundary_of_isUrlencoded hurl] at h
    rwa [if_pos hurl]
  · rw [if_neg hurl, Nat.zero_add, dropBody_zero] at h
    rwa [if_neg hurl]

/-! ### Four phases -/

/-- Nothing of the stream has been read, and nothing more is read of it by the parsers. -/
structure Unread (env : Env T) (req : Incoming) (body : Body) (s : State) : Prop where
  afterForm : AfterForm body 0 s
  parts : contains req.contentType "application/json" = false →
    contains req.contentType multipartType = true → s.multipartForm = none →
      dropBody body (partsRead env req body) = body

/-- The body is kept. -/
def Kept (data : Bytes) (s : State) : Prop := s.cached = some data

/-- Only a part of the body is there. -/
def Lost (data : Bytes) (s : State) : Prop :=
  (∀ b, s.cached = some b → b.length < data.length) ∧
    (s.cached = none → ∃ rest, s.body = some rest ∧ rest.err = none ∧
      rest.data.length < data.length)

/-- The stream ends with an error. -/
def Broken (s : State) : Prop := s.cached = none ∧ ∃ rest, s.body = some rest ∧ rest.err ≠ none

/-- The answer is no body, or the given one. -/
def Answer.Whole (data : Bytes) (a : Answer) : Prop := ∀ b, a = .body b → b = data

theorem webGetBody_of_uncached (hcached : s.cached = none)
    (hbody : s.body = some body) (herr : body.err = none)
    (hlimit : body.data.length ≤ maxMultipartMemory) : webGetBody s = (some body.data, s) := by
  have hle : (body.data.length : ℤ) ≤ (maxMultipartMemory : ℕ) := Nat.cast_le.mpr hlimit
  obtain ⟨data, err⟩ := body
  obtain ⟨cached, _, form, postForm, multipartForm⟩ := s
  cases hbody
  cases herr
  cases hcached
  simp only [webGetBody, Body.maxBytesReader, if_pos hle, Body.readAll]
  rfl

theorem webGetBody_of_broken (h : Broken s) :
    (webGetBody s).1 = none ∧ Broken (webGetBody s).2 := by
  obtain ⟨hcached, body, hbody, herr⟩ := h
  obtain ⟨e, herr⟩ := ne_none_iff_exists'.mp herr
  have hread : ∃ b e', (body.maxBytesReader maxMultipartMemory).readAll = (b, some e') := by
    rw [Body.maxBytesReader]
    split_ifs
    · exact ⟨_, e, by rw [Body.readAll, herr]⟩
    · exact ⟨_, _, rfl⟩
  obtain ⟨b, e', hread⟩ := hread
  have heq : webGetBody s =
      (none, { s with body := some (dropBody body (maxMultipartMemory + 1)) }) := by
    rw [webGetBody, hcached, hbody]
    dsimp only
    rw [hread]
  rw [heq]
  exact ⟨rfl, hcached, _, rfl, by rw [dropBody, herr]; nofun⟩

theorem dropBody_length (hdata : body.data ≠ []) (hn : 0 < n) :
    (dropBody body n).data.length < body.data.length := by
  have hlength := length_pos_of_ne_nil hdata
  rw [dropBody, length_drop]
  omega

theorem dropBody_eq_self (h : body.data = [] ∨ n = 0) : dropBody body n = body := by
  obtain ⟨data, err⟩ := body
  rcases h with rfl | rfl
  · rw [dropBody, drop_nil]
  · rfl

/-! ### Steps in a phase -/

theorem Kept.step (h : Kept data s) (env : Env T) (req : Incoming)
    (c : Call T) : (Web.step env req s c).1.Whole data ∧ Kept data (Web.step env req s c).2 := by
  have hget : webGetBody s = (some data, { s with body := some (.ofBytes data) }) := by
    rw [webGetBody, show s.cached = some data from h]
  cases c with
  | getBody =>
    rw [Web.step, hget]
    exact ⟨fun b hb => (Answer.body.inj hb).symm, rfl⟩
  | bindJSON v =>
    rw [Web.step, hget]
    refine ⟨fun b hb => ?_, rfl⟩
    dsimp only at hb
    split_ifs at hb
  | bind v =>
    have hcached := (bindBody_shrinks env req v data { s with body := some (.ofBytes data) }).1
    rw [Web.step, hget]
    dsimp only
    split
    · exact ⟨nofun, rfl⟩
    · rename_i heq
      rw [heq] at hcached
      exact ⟨nofun, hcached.trans h⟩
  | post key =>
    rw [Web.step]
    refine ⟨nofun, ?_⟩
    dsimp only
    split
    · exact (parseMultipartForm_shrinks env req s).1.trans h
    · exact h

theorem Lost.shrinks {s : State} (h : Lost data s) (hs : Shrinks s s') : Lost data s' := by
  obtain ⟨hcached, n, hbody⟩ := hs
  refine ⟨fun b hb => h.1 b (hcached ▸ hb), fun hnone => ?_⟩
  obtain ⟨rest, hrest, herr, hlength⟩ := h.2 (hcached ▸ hnone)
  refine ⟨dropBody rest n, by rw [hbody, hrest]; rfl, herr, ?_⟩
  rw [dropBody, length_drop]
  omega

/-- A part of the body is returned as if it were the body. -/
theorem Lost.webGetBody (h : Lost data s) (hlimit : data.length ≤ maxMultipartMemory) :
    ∃ b s', Web.webGetBody s = (some b, s') ∧ b.length < data.length ∧ Lost data s' := by
  cases hcached : s.cached with
  | some b =>
    have hlength := h.1 b hcached
    refine ⟨b, { s with body := some (.ofBytes b) }, by rw [Web.webGetBody, hcached], hlength,
      h.1, ?_⟩
    exact fun hnone => ⟨.ofBytes b, rfl, rfl, hlength⟩
  | none =>
    obtain ⟨rest, hrest, herr, hlength⟩ := h.2 hcached
    exact ⟨rest.data, s, webGetBody_of_uncached hcached hrest herr (by omega), hlength, h⟩

theorem lost_of_cached {data b : Bytes} (hlength : b.length < data.length) :
    Lost data { s with cached := some b } :=
  ⟨fun _ hb => Option.some.inj hb ▸ hlength, nofun⟩

theorem Lost.step (h : Lost data s)
    (hlimit : data.length ≤ maxMultipartMemory) (env : Env T) (req : Incoming) (c : Call T) :
    Lost data (Web.step env req s c).2 ∧ ((Web.step env req s c).1.Whole data ↔ c ≠ .getBody) := by
  obtain ⟨b, s', hget, hlength, hlost⟩ := h.webGetBody hlimit
  cases c with
  | getBody =>
    rw [Web.step, hget]
    refine ⟨lost_of_cached hlength, fun hwhole => ?_, fun hne => absurd rfl hne⟩
    have hb : b = data := hwhole b rfl
    exact absurd hlength (hb ▸ lt_irrefl _)
  | bindJSON v =>
    rw [Web.step, hget]
    refine ⟨lost_of_cached hlength, fun _ => nofun, fun _ b hb => ?_⟩
    dsimp only at hb
    split_ifs at hb
  | bind v =>
    have hshrinks := bindBody_shrinks env req v b s'
    rw [Web.step, hget]
    dsimp only
    split
    · exact ⟨lost_of_cached hlength, fun _ => nofun, fun _ => nofun⟩
    · rename_i heq
      rw [heq] at hshrinks
      exact ⟨hlost.shrinks hshrinks, fun _ => nofun, fun _ => nofun⟩
  | post key =>
    rw [Web.step]
    refine ⟨?_, fun _ => nofun, fun _ => nofun⟩
    dsimp only
    split
    · exact h.shrinks (parseMultipartForm_shrinks env req s)
    · exact h

theorem Broken.shrinks {s : State} (h : Broken s) (hs : Shrinks s s') : Broken s' := by
  obtain ⟨hcached, n, hbody⟩ := hs
  obtain ⟨hnone, rest, hrest, herr⟩ := h
  exact ⟨hcached.trans hnone, dropBody rest n, by rw [hbody, hrest]; rfl, herr⟩

theorem Broken.step (h : Broken s) (env : Env T) (req : Incoming) (data : Bytes)
    (c : Call T) : (Web.step env req s c).1.Whole data ∧ Broken (Web.step env req s c).2 := by
  obtain ⟨hnone, hbroken⟩ := webGetBody_of_broken h
  have hget : webGetBody s = (none, (webGetBody s).2) := Prod.ext hnone rfl
  cases c with
  | getBody | bindJSON | bind =>
    rw [Web.step, hget]
    exact ⟨nofun, hbroken⟩
  | post key =>
    rw [Web.step]
    refine ⟨nofun, ?_⟩
    dsimp only
    split
    · exact h.shrinks (parseMultipartForm_shrinks env req s)
    · exact h

theorem AfterForm.of_dropBody (h : AfterForm body n s)
    (hn : dropBody body n = body) : AfterForm body 0 s :=
  ⟨h.cached, h.body_eq.trans (congrArg some hn), h.form, h.postForm⟩

theorem AfterForm.lost (h : AfterForm body n s)
    (herr : body.err = none) (hdata : body.data ≠ []) (hn : 0 < n) : Lost body.data s := by
  refine ⟨fun b hb => ?_, fun _ => ⟨_, h.body_eq, herr, dropBody_length hdata hn⟩⟩
  rw [h.cached] at hb
  cases hb

/-- A form that has been parsed is not parsed again. -/
theorem parseForm_of_afterForm (h : AfterForm body n s) : parseForm env req s = (true, s) := by
  obtain ⟨f, hf⟩ := isSome_iff_exists.mp h.form
  obtain ⟨p, hp⟩ := isSome_iff_exists.mp h.postForm
  have hpost : parsePost env req s = (true, s) := by rw [parsePost, hp]
  rw [parseForm, hpost]
  dsimp only
  rw [parseRest, hf]

theorem Unread.parseMultipartForm (h : Unread env req body s)
    (hjson : contains req.contentType "application/json" = false)
    (hmultipart : contains req.contentType multipartType = true) :
    Unread env req body (Web.parseMultipartForm env req s).2 := by
  obtain ⟨f, hf⟩ := isSome_iff_exists.mp h.afterForm.form
  rw [Web.parseMultipartForm, hf]
  dsimp only
  cases hparts : s.multipartForm with
  | some vs =>
    rwa [parseParts, hparts]
  | none =>
    have hdrop := h.parts hjson hmultipart hparts
    have hform := parseParts_afterForm env req h.afterForm hparts true
    refine ⟨hform.of_dropBody ?_, fun _ _ _ => hdrop⟩
    rwa [Nat.zero_add]

theorem Unread.bindBody (h : Unread env req body s) (v : T) (b : Bytes) :
    Unread env req body (Web.bindBody env req v b s).2 := by
  rw [Web.bindBody]
  split_ifs with hjson hmultipart
  · exact h
  · exact h.parseMultipartForm (Bool.eq_false_iff.mpr hjson) hmultipart
  · dsimp only
    rwa [parseForm_of_afterForm h.afterForm]

section Phases

/-- The stream has not been touched by a call that does not keep it. -/
def Safe (env : Env T) (req : Incoming) (body : Body) (s : State) : Prop :=
  Kept body.data s ∨ Unread env req body s

theorem Safe.step (herr : body.err = none) (hlimit : body.data.length ≤ maxMultipartMemory)
    (h : Safe env req body s) (c : Call T) :
    (Web.step env req s c).1.Whole body.data ∧ Safe env req body (Web.step env req s c).2 := by
  rcases h with h | h
  · exact (h.step env req c).imp_right .inl
  have hget : webGetBody s = (some body.data, s) :=
    webGetBody_of_uncached h.afterForm.cached h.afterForm.body_eq herr hlimit
  cases c with
  | getBody =>
    rw [Web.step, hget]
    exact ⟨fun b hb => (Answer.body.inj hb).symm, .inl rfl⟩
  | bindJSON v =>
    rw [Web.step, hget]
    refine ⟨fun b hb => ?_, .inl rfl⟩
    dsimp only at hb
    split_ifs at hb
  | bind v =>
    have hbind := h.bindBody v body.data
    rw [Web.step, hget]
    dsimp only
    split
    · exact ⟨nofun, .inl rfl⟩
    · rename_i heq
      rw [heq] at hbind
      exact ⟨nofun, .inr hbind⟩
  | post key =>
    obtain ⟨p, hp⟩ := isSome_iff_exists.mp h.afterForm.postForm
    rw [Web.step, hp]
    exact ⟨nofun, .inr h⟩

/-! ### The first calls -/

/-- A call that does nothing: a `Bind` of a JSON body that fails. -/
def Idle (env : Env T) (req : Incoming) (body : Body) : Call T → Prop
  | .bind v => contains req.contentType "application/json" = true ∧
      env.decodeJSON v body.data = false
  | _ => False

/-- A call that takes bytes from the stream and does not keep them: a `Post` on a form, or a `Bind`
of a form that fails. -/
def Takes (env : Env T) (req : Incoming) (body : Body) : Call T → Prop
  | .post _ => body.data ≠ [] ∧ (IsUrlencoded env req ∨ 0 < partsRead env req body)
  | .bind v => body.data ≠ [] ∧ contains req.contentType "application/json" = false ∧
      (bindBody env req v body.data (start body)).1 = false ∧
      (IsUrlencoded env req ∨
        contains req.contentType multipartType = true ∧ 0 < partsRead env req body)
  | _ => False

theorem not_takes_of_idle {c : Call T} (h : Idle env req body c) : ¬ Takes env req body c := by
  cases c with
  | bind v => exact fun htakes => absurd (h.1.symm.trans htakes.2.1) (by decide)
  | _ => cases h

theorem multipartRead_pos (h : IsUrlencoded env req ∨ 0 < partsRead env req body) :
    0 < multipartRead env req body := by
  rw [multipartRead]
  split_ifs with hurl
  · exact Nat.succ_pos _
  · exact h.resolve_left hurl

/-- Where nothing is taken, the stream is as it was. -/
theorem dropBody_of_not {P : Prop} (h : ¬ (body.data ≠ [] ∧ P)) (hn : ¬ P → n = 0) :
    dropBody body n = body := by
  refine dropBody_eq_self ?_
  by_cases hdata : body.data = []
  · exact .inl hdata
  · exact .inr (hn fun hP => h ⟨hdata, hP⟩)

theorem multipartRead_eq_zero (h : ¬ (IsUrlencoded env req ∨ 0 < partsRead env req body)) :
    multipartRead env req body = 0 := by
  rw [not_or, Nat.not_lt, Nat.le_zero] at h
  rw [multipartRead, if_neg h.1, h.2]

variable (env req) in
theorem post_start (herr : body.err = none) (key : Bytes) :
    (Takes env req body (.post key : Call T) →
        Lost body.data (Web.step env req (start body) (.post key)).2) ∧
      (¬ Takes env req body (.post key : Call T) →
        Safe env req body (Web.step env req (start body) (.post key)).2) := by
  have hform := parseMultipartForm_start env req body
  constructor
  · rintro ⟨hdata, htakes⟩
    exact hform.lost herr hdata (multipartRead_pos htakes)
  · intro htakes
    refine .inr ⟨hform.of_dropBody (dropBody_of_not htakes multipartRead_eq_zero), fun _ _ _ => ?_⟩
    refine dropBody_of_not htakes fun h => ?_
    rw [not_or, Nat.not_lt, Nat.le_zero] at h
    exact h.2

/-- A `Bind` of a form that fails. -/
theorem bindBody_start (herr : body.err = none) {v : T}
    (hjson : contains req.contentType "application/json" = false)
    (hfails : (bindBody env req v body.data (start body)).1 = false) :
    (Takes env req body (.bind v) → Lost body.data (bindBody env req v body.data (start body)).2) ∧
      (¬ Takes env req body (.bind v) →
        Safe env req body (bindBody env req v body.data (start body)).2) := by
  have hnot : ¬ Takes env req body (.bind v) → ¬ (body.data ≠ [] ∧ (IsUrlencoded env req ∨
      contains req.contentType multipartType = true ∧ 0 < partsRead env req body)) :=
    fun h hread => h ⟨hread.1, hjson, hfails, hread.2⟩
  have hne : ¬ contains req.contentType "application/json" = true := Bool.eq_false_iff.mp hjson
  rw [bindBody, if_neg hne]
  by_cases hmultipart : contains req.contentType multipartType = true
  · rw [if_pos hmultipart]
    have hform := parseMultipartForm_start env req body
    constructor
    · rintro ⟨hdata, -, -, htakes⟩
      exact hform.lost herr hdata (multipartRead_pos (htakes.imp_right And.right))
    · intro htakes
      have hread := hnot htakes
      simp only [hmultipart, true_and] at hread
      refine .inr ⟨hform.of_dropBody (dropBody_of_not hread multipartRead_eq_zero),
        fun _ _ _ => dropBody_of_not hread fun h => ?_⟩
      rw [not_or, Nat.not_lt, Nat.le_zero] at h
      exact h.2
  · rw [if_neg hmultipart]
    obtain ⟨hform, -⟩ := parseForm_start env req body
    constructor
    · rintro ⟨hdata, -, -, htakes⟩
      have hurl : IsUrlencoded env req := htakes.resolve_right fun h => hmultipart h.1
      rw [if_pos hurl] at hform
      exact hform.lost herr hdata (Nat.succ_pos _)
    · intro htakes
      refine .inr ⟨hform.of_dropBody (dropBody_of_not (hnot htakes) fun h => ?_),
        fun _ hmultipart' => absurd hmultipart' hmultipart⟩
      exact if_neg (not_or.mp h).1

variable (env req) in
/-- **The first call** does nothing, takes the body away, or leaves it safe. -/
theorem start_step (herr : body.err = none) (hlimit : body.data.length ≤ maxMultipartMemory)
    (c : Call T) : (Web.step env req (start body) c).1.Whole body.data ∧
      (Idle env req body c → (Web.step env req (start body) c).2 = start body) ∧
      (Takes env req body c → Lost body.data (Web.step env req (start body) c).2) ∧
      (¬ Idle env req body c → ¬ Takes env req body c →
        Safe env req body (Web.step env req (start body) c).2) := by
  have hget : webGetBody (start body) = (some body.data, start body) :=
    webGetBody_of_uncached rfl rfl herr hlimit
  cases c with
  | getBody =>
    rw [Web.step, hget]
    exact ⟨fun b hb => (Answer.body.inj hb).symm, False.elim, False.elim, fun _ _ => .inl rfl⟩
  | bindJSON v =>
    rw [Web.step, hget]
    refine ⟨fun b hb => ?_, False.elim, False.elim, fun _ _ => .inl rfl⟩
    dsimp only at hb
    split_ifs at hb
  | bind v =>
    rw [Web.step, hget]
    dsimp only
    split
    · rename_i heq
      refine ⟨nofun, fun hidle => ?_, fun htakes => ?_, fun _ _ => .inl rfl⟩
      · rw [bindBody, if_pos hidle.1, hidle.2] at heq
        cases heq
      · have hfails := htakes.2.2.1
        rw [heq] at hfails
        cases hfails
    · rename_i s heq
      have hs : (bindBody env req v body.data (start body)).2 = s := by rw [heq]
      have hfails : (bindBody env req v body.data (start body)).1 = false := by rw [heq]
      by_cases hjson : contains req.contentType "application/json" = true
      · rw [bindBody, if_pos hjson] at hs hfails
        refine ⟨nofun, fun _ => hs.symm, fun htakes => ?_,
          fun hidle => absurd ⟨hjson, hfails⟩ hidle⟩
        exact absurd (hjson.symm.trans htakes.2.1) (by decide)
      · have hfalse : contains req.contentType "application/json" = false :=
          Bool.eq_false_iff.mpr hjson
        obtain ⟨hlost, hsafe⟩ := bindBody_start herr hfalse hfails
        rw [hs] at hlost hsafe
        exact ⟨nofun, fun hidle => absurd hidle.1 hjson, hlost, fun _ => hsafe⟩
  | post key =>
    obtain ⟨hlost, hsafe⟩ := post_start env req herr key
    exact ⟨nofun, False.elim, hlost, fun _ => hsafe⟩

/-! ### Runs -/

theorem whole_run_of_safe (herr : body.err = none)
    (hlimit : body.data.length ≤ maxMultipartMemory) (h : Safe env req body s)
    (calls : List (Call T)) : ∀ a ∈ run env req s calls, a.Whole body.data := by
  induction calls generalizing s with
  | nil => exact nofun
  | cons c calls ih =>
    obtain ⟨hwhole, hsafe⟩ := h.step herr hlimit c
    exact forall_mem_cons.mpr ⟨hwhole, ih hsafe⟩

theorem whole_run_of_broken (h : Broken s) (calls : List (Call T)) :
    ∀ a ∈ run env req s calls, a.Whole data := by
  induction calls generalizing s with
  | nil => exact nofun
  | cons c calls ih =>
    obtain ⟨hwhole, hbroken⟩ := h.step env req data c
    exact forall_mem_cons.mpr ⟨hwhole, ih hbroken⟩

theorem whole_run_of_lost_iff (hlimit : data.length ≤ maxMultipartMemory)
    (h : Lost data s) (calls : List (Call T)) :
    (∀ a ∈ run env req s calls, a.Whole data) ↔ .getBody ∉ calls := by
  induction calls generalizing s with
  | nil => exact ⟨fun _ => not_mem_nil, nofun⟩
  | cons c calls ih =>
    obtain ⟨hlost, hwhole⟩ := h.step hlimit env req c
    rw [run, forall_mem_cons, hwhole, ih hlost, mem_cons, not_or, ne_comm]

/-- No call of `GetBody` follows a call that takes the body away, where the calls before that one do
nothing. -/
def KeptInTime (env : Env T) (req : Incoming) (body : Body) (calls : List (Call T)) : Prop :=
  ∀ before c later, calls = before ++ c :: later → (∀ c' ∈ before, Idle env req body c') →
    Takes env req body c → .getBody ∉ later

theorem keptInTime_cons_iff (c : Call T) (calls : List (Call T)) :
    KeptInTime env req body (c :: calls) ↔ (Takes env req body c → .getBody ∉ calls) ∧
      (Idle env req body c → KeptInTime env req body calls) := by
  constructor
  · intro h
    refine ⟨h [] c calls rfl nofun, fun hidle before c' later heq hbefore => ?_⟩
    exact h (c :: before) c' later (congrArg (c :: ·) heq) (forall_mem_cons.mpr ⟨hidle, hbefore⟩)
  · rintro ⟨htakes, hidle⟩ before c' later heq hbefore
    cases before with
    | nil =>
      cases heq
      exact htakes
    | cons first before =>
      cases heq
      obtain ⟨hfirst, hbefore⟩ := forall_mem_cons.mp hbefore
      exact hidle hfirst before c' later rfl hbefore

theorem whole_run_start_iff (herr : body.err = none)
    (hlimit : body.data.length ≤ maxMultipartMemory) (calls : List (Call T)) :
    (∀ a ∈ run env req (start body) calls, a.Whole body.data) ↔ KeptInTime env req body calls := by
  induction calls with
  | nil =>
    refine ⟨fun _ before c later heq => ?_, nofun⟩
    exact absurd heq.symm (by simp)
  | cons c calls ih =>
    obtain ⟨hwhole, hidle, hlost, hsafe⟩ := start_step env req herr hlimit c
    rw [run, forall_mem_cons, and_iff_right hwhole, keptInTime_cons_iff]
    by_cases hc : Idle env req body c
    · rw [hidle hc, ih]
      exact ⟨fun h => ⟨fun htakes => absurd htakes (not_takes_of_idle hc), fun _ => h⟩,
        fun h => h.2 hc⟩
    · by_cases ht : Takes env req body c
      · rw [whole_run_of_lost_iff hlimit (hlost ht)]
        exact ⟨fun h => ⟨fun _ => h, fun hidle => absurd hidle hc⟩, fun h => h.1 ht⟩
      · refine ⟨fun _ => ⟨fun htakes => absurd htakes ht, fun hidle => absurd hidle hc⟩,
          fun _ => ?_⟩
        exact whole_run_of_safe herr hlimit (hsafe hc ht) calls

end Phases

/-- **The body stays readable** if and only if the stream ends with an error, or no call of
`GetBody` follows a first call that takes the body away. -/
theorem body_readable_iff (env : Env T) (req : Incoming) {body : Body}
    (hlimit : body.data.length ≤ maxMultipartMemory) (calls : List (Call T)) :
    (∀ b, .body b ∈ run env req (start body) calls → b = body.data) ↔
      (body.err = none → KeptInTime env req body calls) := by
  have hwhole : (∀ b, .body b ∈ run env req (start body) calls → b = body.data) ↔
      ∀ a ∈ run env req (start body) calls, a.Whole body.data :=
    ⟨fun h a ha b hb => h b (hb ▸ ha), fun h b hb => h _ hb b rfl⟩
  rw [hwhole]
  by_cases herr : body.err = none
  · rw [whole_run_start_iff herr hlimit]
    exact ⟨fun h _ => h, fun h => h herr⟩
  · refine ⟨fun _ h => absurd h herr, fun _ => whole_run_of_broken ⟨rfl, body, rfl, herr⟩ _⟩

/-! ### A form with one field -/

/-- Libraries that know media types without parameters, read a form with one field, and decode
nothing. -/
def plainEnv : Env Unit where
  parseMediaType ct := (ct, [], true)
  parseQuery data :=
    (if data = [] then [] else [(data.takeWhile (· ≠ 61), (data.dropWhile (· ≠ 61)).tail)], true)
  readForm _ body := (none, body.data.length)
  decodeJSON _ _ := false
  decodeForm _ _ := false

/-- A form that is sent with `POST`. -/
def nameForm : Incoming := ⟨"POST", urlencodedType, []⟩

/-- The body of the form. -/
def nameBody : Body := { data := [97, 61, 49] }

/-- The body is kept before the form is parsed. -/
theorem nameBody_readable : nameBody.data.length ≤ maxMultipartMemory ∧
    ∀ b, .body b ∈ run plainEnv nameForm (start nameBody) [.getBody, .post [97], .getBody] →
      b = nameBody.data := by
  refine ⟨by decide, (body_readable_iff plainEnv nameForm (by decide) _).mpr ?_⟩
  intro _ before c later heq hbefore htakes
  cases before with
  | nil =>
    cases heq
    cases htakes
  | cons first before =>
    obtain rfl : .getBody = first := (List.cons.inj heq).1
    exact (hbefore .getBody mem_cons_self).elim

/-- After `Post` the body is empty. -/
theorem nameBody_not_readable :
    .body [] ∈ run plainEnv nameForm (start nameBody) [.post [97], .getBody] ∧
      ¬ ∀ b, .body b ∈ run plainEnv nameForm (start nameBody) [.post [97], .getBody] →
        b = nameBody.data := by
  have h : .body [] ∈ run plainEnv nameForm (start nameBody) [.post [97], .getBody] := by
    decide +kernel
  exact ⟨h, fun hall => absurd (hall [] h) (by decide)⟩

end Kiya.Web
