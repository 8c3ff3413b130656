import Kiya.Router.Lookup

/-!
# Policies by path

What `createRootHandler` and `serveInternal` of `router.go` decide by the path of a request: whether
it passes the firewall, whether the response has a security policy, whether it may be cached and
whether its success is logged. Each decision looks for a prefix of the path as it was sent, where
`FindRoute` looks for a route of the cleaned path. So two requests that get the same handler may be
decided differently: a path may lead into an exempted directory and out of it again.

This is so for every list of prefixes that decides anything: only an empty one, and one with the
empty prefix, treat all the paths alike that are cleaned to the same.
-/

namespace Kiya.Router

open SlashPath List

/-- The fields of `Router` by which paths are decided. -/
structure Policies where
  /-- There is a firewall. -/
  waf : Bool
  wafExemptPaths : List Str
  csp : Str
  cspExemptPaths : List Str
  cachePaths : List Str
  noLogSuccessPaths : List Str

/-- What is decided by the path of a request. -/
structure Decisions where
  skipsWAF : Bool
  omitsCSP : Bool
  shouldCache : Bool
  shouldSkipLog : Bool
deriving DecidableEq

/-- Whether the path has one of the prefixes. -/
def hasPrefixOf (prefixes : List Str) (path : Str) : Bool := prefixes.any fun p => p.isPrefixOf path

namespace Policies

variable (r : Policies)

/-- `createRootHandler`: the handler is not wrapped. -/
def skipsWAF (path : Str) : Bool := !r.waf || hasPrefixOf r.wafExemptPaths path

/-- `serveInternal`: no `Content-Security-Policy`. -/
def omitsCSP (path : Str) : Bool := decide (r.csp = []) || hasPrefixOf r.cspExemptPaths path

/-- `shouldCache`. -/
def shouldCache (path : Str) : Bool := hasPrefixOf r.cachePaths path

/-- `shouldSkipLog`. -/
def shouldSkipLog (path : Str) : Bool := hasPrefixOf r.noLogSuccessPaths path

/-- All decisions. -/
def decisions (path : Str) : Decisions :=
  ⟨r.skipsWAF path, r.omitsCSP path, r.shouldCache path, r.shouldSkipLog path⟩

end Policies

open Policies

/-! ### Lists of prefixes -/

/-- A list of prefixes that no path has, or every path. -/
def Indifferent (prefixes : List Str) : Prop := prefixes = [] ∨ [] ∈ prefixes

variable {prefixes : List Str} {p : Str}

theorem hasPrefixOf_of_nil_mem (h : [] ∈ prefixes) (path : Str) :
    hasPrefixOf prefixes path = true :=
  List.any_eq_true.mpr ⟨[], h, rfl⟩

theorem Indifferent.eq (h : Indifferent prefixes) (p q : Str) :
    hasPrefixOf prefixes p = hasPrefixOf prefixes q := by
  rcases h with rfl | hmem
  · rfl
  · rw [hasPrefixOf_of_nil_mem hmem, hasPrefixOf_of_nil_mem hmem]

theorem cleanPath_of_head (h : p.head? = some '/') : cleanPath p = clean p := by
  rw [cleanPath, if_neg, if_pos h]
  rintro rfl
  cases h

theorem cleanPath_of_head_ne (hne : p ≠ []) (h : p.head? ≠ some '/') :
    cleanPath p = clean ('/' :: p) := by
  rw [cleanPath, if_neg hne, if_neg h]

/-- Every text is the beginning of a path to the root. -/
theorem exists_cleanPath_eq {l : Str} (hl : l ≠ []) : ∃ p, l <+: p ∧ cleanPath p = ['/'] := by
  by_cases hhead : l.head? = some '/'
  · obtain ⟨n, hn⟩ := exists_clean_ups hhead
    refine ⟨l ++ ups n, prefix_append _ _, ?_⟩
    rw [cleanPath_of_head, hn]
    rwa [head?_append_of_ne_nil _ hl]
  · have hroot : ('/' :: l).head? = some '/' := rfl
    obtain ⟨n, hn⟩ := exists_clean_ups hroot
    refine ⟨l ++ ups n, prefix_append _ _, ?_⟩
    rw [cleanPath_of_head_ne, ← cons_append, hn]
    · exact append_ne_nil_of_left_ne_nil hl _
    · rwa [head?_append_of_ne_nil _ hl]

/-- **A list of prefixes treats paths alike that are cleaned to the same** only if it treats all
paths alike. -/
theorem hasPrefixOf_congr_iff (prefixes : List Str) :
    (∀ p q, cleanPath p = cleanPath q → hasPrefixOf prefixes p = hasPrefixOf prefixes q) ↔
      Indifferent prefixes := by
  constructor
  · intro h
    by_contra hnot
    rw [Indifferent, not_or] at hnot
    obtain ⟨l, hmem⟩ := exists_mem_of_ne_nil _ hnot.1
    have hl : l ≠ [] := fun hnil => hnot.2 (hnil ▸ hmem)
    -- the way back up from the prefix ends at the root, as the empty path does
    obtain ⟨p, hprefix, hp⟩ := exists_cleanPath_eq hl
    have hyes : hasPrefixOf prefixes p = true :=
      List.any_eq_true.mpr ⟨l, hmem, isPrefixOf_iff_prefix.mpr hprefix⟩
    rw [h p [] hp, hasPrefixOf, List.any_eq_true] at hyes
    obtain ⟨other, hother, hnil⟩ := hyes
    rw [List.isPrefixOf_iff_prefix, prefix_nil] at hnil
    exact hnot.2 (hnil ▸ hother)
  · exact fun h p q _ => h.eq p q

/-! ### Decisions -/

/-- **The policies agree with routing** exactly if no list of prefixes that is in use decides
anything. -/
theorem decisions_congr_iff (r : Policies) :
    (∀ p q, cleanPath p = cleanPath q → r.decisions p = r.decisions q) ↔
      (r.waf = true → Indifferent r.wafExemptPaths) ∧
      (r.csp ≠ [] → Indifferent r.cspExemptPaths) ∧
      Indifferent r.cachePaths ∧ Indifferent r.noLogSuccessPaths := by
  have hsplit : (∀ p q, cleanPath p = cleanPath q → r.decisions p = r.decisions q) ↔
      (∀ p q, cleanPath p = cleanPath q → r.skipsWAF p = r.skipsWAF q) ∧
      (∀ p q, cleanPath p = cleanPath q → r.omitsCSP p = r.omitsCSP q) ∧
      (∀ p q, cleanPath p = cleanPath q → r.shouldCache p = r.shouldCache q) ∧
      (∀ p q, cleanPath p = cleanPath q → r.shouldSkipLog p = r.shouldSkipLog q) := by
    simp only [decisions, Decisions.mk.injEq, ← forall_and]
  rw [hsplit]
  refine and_congr ?_ (and_congr ?_ (and_congr ?_ ?_))
  · cases hwaf : r.waf with
    | false => simp [skipsWAF, hwaf]
    | true => simpa [skipsWAF, hwaf] using hasPrefixOf_congr_iff r.wafExemptPaths
  · by_cases hcsp : r.csp = []
    · simp [omitsCSP, hcsp]
    · simpa [omitsCSP, hcsp] using hasPrefixOf_congr_iff r.cspExemptPaths
  · exact hasPrefixOf_congr_iff r.cachePaths
  · exact hasPrefixOf_congr_iff r.noLogSuccessPaths

/-- A webhook is exempt from the firewall, and the assets may be cached. -/
def webhookPolicies : Policies where
  waf := true
  wafExemptPaths := ["/webhook".toList]
  csp := []
  cspExemptPaths := []
  cachePaths := ["/assets".toList]
  noLogSuccessPaths := ["/assets".toList]

/-- **A request for the admin pages passes the firewall** by way of the webhook, and its answer may
be cached by way of the assets. -/
theorem webhook_admin_skips_waf :
    cleanPath "/webhook/../admin".toList = cleanPath "/admin".toList ∧
      webhookPolicies.skipsWAF "/webhook/../admin".toList = true ∧
      webhookPolicies.skipsWAF "/admin".toList = false ∧
      cleanPath "/assets/../admin".toList = cleanPath "/admin".toList ∧
      webhookPolicies.shouldCache "/assets/../admin".toList = true ∧
      webhookPolicies.shouldCache "/admin".toList = false := by
  decide

end Kiya.Router
