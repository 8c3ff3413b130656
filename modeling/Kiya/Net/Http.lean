import Kiya.Lib.Bytes

/-!
# The parts of `net/http` the framework writes to and reads from

The response side is `ResponseWriter`: the first `WriteHeader` (or an implicit `200` at the
first `Write` or `Flush`) fixes the status line and takes a snapshot of the header map, and
`Write` appends. Whether the connection implements `http.Flusher` and `http.Hijacker` is a
property of the connection, hence a field of the writer.

The request side is `Request` with its body reader: a `Body` is the byte sequence a reader
delivers together with the error, if any, that ends it (`none` is a clean `io.EOF`).
`maxBytesReader` is `http.MaxBytesReader`, which passes a body of at most `n` bytes through
unchanged and cuts a longer one after `n` bytes with its own error.
-/

namespace Kiya

variable (s : String)

/-- The bytes of a Go string constant. -/
def goBytes : Bytes := s.toUTF8.data.toList

/-- `strings.HasPrefix`. -/
def hasPrefix (pre : String) : Bool := pre.toList.isPrefixOf s.toList

/-- `strings.ToLower`, on the ASCII letters that header names consist of. -/
def toLower : String := String.ofList (s.toList.map Char.toLower)

/-- `strings.Contains`. -/
def contains (sub : String) : Bool := s.toList.tails.any fun t => sub.toList.isPrefixOf t

/-! ### Headers -/

/-- `http.Header`: the values under each (canonical) key. The list order stands for the
iteration order of the map. -/
abbrev Header := List (String × List String)

namespace Header

/-- `Header.Get`: the first value under `k`, or the empty string. -/
def get (h : Header) (k : String) : String :=
  ((h.lookup k).getD []).headD ""

/-- `Header.Set`: `v` becomes the only value under `k`. -/
def set (h : Header) (k v : String) : Header :=
  (k, [v]) :: h.filter fun e => e.1 ≠ k

@[simp] theorem get_set_self (h : Header) (k v : String) : (h.set k v).get k = v := by
  simp [get, set]

/-- `Header.Values`: all values under `k`. -/
def values (h : Header) (k : String) : List String := (h.lookup k).getD []

/-- `Header.Del`. -/
def del (h : Header) (k : String) : Header := h.filter fun e => e.1 ≠ k

/-- `Header.Add`: `v` becomes the last value under `k`. -/
def add (h : Header) (k v : String) : Header := (k, h.values k ++ [v]) :: h.del k

@[simp] theorem values_add_self (h : Header) (k v : String) :
    (h.add k v).values k = h.values k ++ [v] := by
  simp [values, add]

@[simp] theorem values_set_self (h : Header) (k v : String) : (h.set k v).values k = [v] := by
  simp [values, set]

variable {k k' : String}

theorem values_del_of_ne (h : Header) (hne : k' ≠ k) : (h.del k).values k' = h.values k' := by
  unfold values del
  induction h with
  | nil => rfl
  | cons e h ih =>
    obtain ⟨k₀, vs⟩ := e
    by_cases he : k₀ = k
    · have hk : (k' == k) = false := by simpa using hne
      simpa [he, List.lookup_cons, hk] using ih
    · simp only [he, ne_eq, not_false_eq_true, decide_true, List.filter_cons_of_pos,
        List.lookup_cons]
      cases k' == k₀ with
      | true => rfl
      | false => exact ih

theorem values_set_of_ne (h : Header) (hne : k' ≠ k) (v : String) :
    (h.set k v).values k' = h.values k' := by
  have hk : (k' == k) = false := by simpa using hne
  rw [← values_del_of_ne h hne]
  simp [values, set, del, List.lookup_cons, hk]

end Header

/-! ### Responses -/

/-- `http.StatusOK`. -/
def statusOK : Int := 200

/-- `http.StatusRequestEntityTooLarge`. -/
def statusRequestEntityTooLarge : Int := 413

/-- `http.StatusInternalServerError`. -/
def statusInternalServerError : Int := 500

/-- The server's `http.ResponseWriter` for one connection, with what it has sent so far. -/
structure ResponseWriter where
  /-- The header map handed out by `Header()`. -/
  header : Header := []
  /-- Does the writer implement `http.Flusher`? -/
  flusher : Bool := true
  /-- Does the writer implement `http.Hijacker`? -/
  hijacker : Bool := true
  /-- The status line and the header snapshot, once they are fixed. -/
  sent : Option (Int × Header) := none
  /-- The chunks passed to `Write`, in order. -/
  writes : List Bytes := []
  /-- The number of `Flush` calls. -/
  flushes : Nat := 0
  /-- Has the connection been taken over by `Hijack`? -/
  hijacked : Bool := false

namespace ResponseWriter

/-- `http.ErrHijacked`. -/
def errHijacked : String := "http: connection has been hijacked"

variable (rw : ResponseWriter)

/-- `WriteHeader`: only the first call on a connection that is still the server's counts. -/
def writeHeader (code : Int) : ResponseWriter :=
  if rw.hijacked then rw
  else match rw.sent with
    | some _ => rw
    | none => { rw with sent := some (code, rw.header) }

/-- `Write`: fixes the status at `200` if it is still open, then appends. -/
def write (b : Bytes) : (Nat × Option String) × ResponseWriter :=
  if rw.hijacked then ((0, some errHijacked), rw)
  else ((b.length, none), { rw.writeHeader statusOK with writes := rw.writes ++ [b] })

/-- `Flush`: fixes the status at `200` if it is still open, then sends what is buffered. -/
def flush : ResponseWriter :=
  if rw.hijacked then rw
  else { rw.writeHeader statusOK with flushes := rw.flushes + 1 }

/-- `Hijack`. -/
def hijack : Option String × ResponseWriter :=
  if rw.hijacked then (some errHijacked, rw) else (none, { rw with hijacked := true })

/-- The status the client receives: the server sends `200` for a handler that returned
without fixing one. -/
def clientStatus : Int := (rw.sent.map Prod.fst).getD statusOK

/-- The headers the client receives: the server takes the snapshot when a handler has returned
without fixing the status. -/
def clientHeader : Header := (rw.sent.map Prod.snd).getD rw.header

/-- The body the client receives. -/
def clientBody : Bytes := rw.writes.flatten

/-- Nothing has been sent and the connection is the server's: the state in which a handler
receives the writer. -/
structure Untouched (rw : ResponseWriter) : Prop where
  sent : rw.sent = none
  writes : rw.writes = []
  hijacked : rw.hijacked = false

variable {rw : ResponseWriter} {code : Int}

/-- A header change leaves an untouched writer untouched. -/
theorem Untouched.withHeader (h : rw.Untouched) (hd : Header) :
    ResponseWriter.Untouched { rw with header := hd } :=
  ⟨h.sent, h.writes, h.hijacked⟩

/-- The status is fixed at `code` and the connection is the server's. -/
structure Open (rw : ResponseWriter) (code : Int) : Prop where
  status : rw.sent.map Prod.fst = some code
  hijacked : rw.hijacked = false

theorem Open.clientStatus (h : rw.Open code) : rw.clientStatus = code := by
  rw [ResponseWriter.clientStatus, h.status, Option.getD_some]

/-- The first `WriteHeader` fixes the status. -/
theorem Untouched.open_writeHeader (h : rw.Untouched) (code : Int) :
    (rw.writeHeader code).Open code := by
  simp only [writeHeader, h.hijacked, h.sent]
  exact ⟨rfl, rfl⟩

@[simp] theorem writes_writeHeader (rw : ResponseWriter) (code : Int) :
    (rw.writeHeader code).writes = rw.writes := by
  unfold writeHeader
  split
  · rfl
  · split <;> rfl

@[simp] theorem hijacked_writeHeader (rw : ResponseWriter) (code : Int) :
    (rw.writeHeader code).hijacked = rw.hijacked := by
  unfold writeHeader
  split
  · rfl
  · split <;> rfl

@[simp] theorem flusher_writeHeader (rw : ResponseWriter) (code : Int) :
    (rw.writeHeader code).flusher = rw.flusher := by
  unfold writeHeader
  split
  · rfl
  · split <;> rfl

/-- Later `WriteHeader` calls are ignored. -/
theorem Open.writeHeader_eq (h : rw.Open code) (code' : Int) : rw.writeHeader code' = rw := by
  unfold writeHeader
  cases hs : rw.sent with
  | none => exact absurd h.status (by simp [hs])
  | some s => simp

/-- `Write` appends its chunk when the connection is the server's. -/
theorem writes_write (h : rw.hijacked = false) (b : Bytes) :
    (rw.write b).2.writes = rw.writes ++ [b] := by
  simp [write, h]

@[simp] theorem flusher_write (rw : ResponseWriter) (b : Bytes) :
    (rw.write b).2.flusher = rw.flusher := by
  unfold write
  split <;> simp

/-- `Write` keeps a status that is already fixed. -/
theorem Open.write (h : rw.Open code) (b : Bytes) : (rw.write b).2.Open code := by
  simp only [ResponseWriter.write, h.hijacked, h.writeHeader_eq]
  exact ⟨h.status, rfl⟩

/-- The first `Write` fixes the status at `200`. -/
theorem Untouched.open_write (h : rw.Untouched) (b : Bytes) : (rw.write b).2.Open statusOK := by
  have ho := h.open_writeHeader statusOK
  simp only [ResponseWriter.write, h.hijacked]
  exact ⟨ho.status, ho.hijacked⟩

/-- `Flush` keeps a status that is already fixed. -/
theorem Open.flush (h : rw.Open code) : rw.flush.Open code := by
  simp only [ResponseWriter.flush, h.hijacked, h.writeHeader_eq]
  exact ⟨h.status, rfl⟩

@[simp] theorem writes_flush (rw : ResponseWriter) : rw.flush.writes = rw.writes := by
  unfold flush
  split <;> simp

end ResponseWriter

/-! ### Requests -/

/-- What a body reader delivers: its bytes, then `io.EOF` (`none`) or an error. -/
structure Body where
  data : Bytes
  err : Option String := none
deriving DecidableEq

namespace Body

/-- The text of `http.MaxBytesError`. -/
def tooLarge : String := "http: request body too large"

/-- `http.MaxBytesReader(w, body, n)`. -/
def maxBytesReader (body : Body) (n : Int) : Body :=
  if (body.data.length : Int) ≤ n then body
  else { data := body.data.take n.toNat, err := some tooLarge }

/-- `io.ReadAll`: the bytes delivered and the error, an `io.EOF` being none. -/
def readAll (body : Body) : Bytes × Option String := (body.data, body.err)

/-- `io.NopCloser(bytes.NewReader(b))`. -/
def ofBytes (b : Bytes) : Body := { data := b }

end Body

/-- The fields of `http.Request` that the framework's WAF layer reads. The addresses are the
results of `parseIPPort` on the local address and of `util.RealIP`. -/
structure Request where
  method : String
  requestURI : String := "/"
  proto : String := "HTTP/1.1"
  host : String := ""
  header : Header := []
  serverIP : String := ""
  serverPort : Int := 80
  clientIP : String := ""
  body : Body := { data := [] }

end Kiya
