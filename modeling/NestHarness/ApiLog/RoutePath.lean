import NestHarness.ApiLog.Columns
import NestHarness.Lib.Segments

/-!
# The logged path and the route

The path of a log entity is put together from the metadata of controller and handler, the router
picks the alternative on its own. The two agree when the alternative that the request came through
is the first one.
-/

namespace NestHarness

open Segments (segments rooted segments_cons_sep segments_append_cons normalize_eq_iff)

/-- The paths that a decorator has been given. -/
def PathMeta.alternatives : PathMeta → List String
  | .missing => []
  | .one path => [path]
  | .many paths => paths

/-- The slash-normalised pattern of an alternative. -/
def pattern (controllerPath handlerPath : String) : String :=
  .ofList (Segments.normalize '/' (controllerPath.toList ++ '/' :: handlerPath.toList))

namespace ApiLogInterceptor

/-- `slice(0, -1)` of what ends with a slash. -/
def dropSlash (s : List Char) : List Char := if s.getLast? = some '/' then s.dropLast else s

theorem dropSlash_cons {c : Char} {s : List Char} (h : c ≠ '/' ∨ s ≠ []) :
    dropSlash (c :: s) = c :: dropSlash s := by
  cases s with
  | nil =>
    have hc : c ≠ '/' := h.resolve_right (· rfl)
    simp [dropSlash, hc]
  | cons d s =>
    simp only [dropSlash, List.getLast?_cons_cons, List.dropLast_cons_cons]
    split <;> rfl

/-- What is collapsed, by whether a slash stands before it. -/
theorem dropSlash_collapseSlashes (s : List Char) :
    (∀ part parts, s.splitOn '/' = part :: parts →
      dropSlash (collapseSlashes false s) =
        part ++ (parts.filter (· ≠ [])).flatMap ('/' :: ·)) ∧
    dropSlash ('/' :: collapseSlashes true s) = (segments '/' s).flatMap ('/' :: ·) := by
  induction s with
  | nil =>
    refine ⟨fun part parts h => ?_, rfl⟩
    cases h
    rfl
  | cons c s ih =>
    obtain ⟨ihfalse, ihtrue⟩ := ih
    by_cases hc : c = '/'
    · subst hc
      refine ⟨fun part parts h => ?_, ?_⟩
      · rw [List.splitOn_cons_eq_if_modifyHead, if_pos (beq_self_eq_true '/')] at h
        cases h
        exact ihtrue
      · rw [segments_cons_sep]
        exact ihtrue
    · obtain ⟨part, parts, hparts⟩ := List.exists_cons_of_ne_nil (List.splitOn_ne_nil '/' s)
      have hsplit : (c :: s).splitOn '/' = (c :: part) :: parts := by
        rw [List.splitOn_cons_eq_if_modifyHead, if_neg (by simpa using hc), hparts]
        rfl
      have hcollapse (after : Bool) :
          collapseSlashes after (c :: s) = c :: collapseSlashes false s := if_neg hc
      refine ⟨fun part' parts' h => ?_, ?_⟩
      · cases hsplit.symm.trans h
        rw [hcollapse, dropSlash_cons (.inl hc), ihfalse part parts hparts]
        rfl
      · rw [hcollapse, dropSlash_cons (.inr (List.cons_ne_nil _ _)), dropSlash_cons (.inl hc),
          ihfalse part parts hparts, segments, hsplit]
        simp

theorem toList_combined (c h : String) :
    ("/" ++ c ++ "/" ++ h).toList = '/' :: (c.toList ++ '/' :: h.toList) := by
  simp [String.toList_append]

/-- The path is the normalised pattern of the first alternatives, unless both are empty. -/
theorem extractRoutePath_eq (controllerMeta handlerMeta : PathMeta) :
    extractRoutePath controllerMeta handlerMeta =
      if controllerMeta.first = "" ∧ handlerMeta.first = "" then none
      else some (pattern controllerMeta.first handlerMeta.first) := by
  unfold extractRoutePath
  dsimp only
  split
  · rfl
  · rw [toList_combined, pattern, Segments.normalize, rooted]
    generalize controllerMeta.first.toList ++ '/' :: handlerMeta.first.toList = s
    have hdrop := (dropSlash_collapseSlashes s).2
    have hcombined : collapseSlashes false ('/' :: s) = '/' :: collapseSlashes true s := rfl
    rw [hcombined]
    cases hcollapse : collapseSlashes true s with
    | nil =>
      have hsegs : segments '/' s = [] := by
        rw [hcollapse] at hdrop
        cases hsegs : segments '/' s with
        | nil => rfl
        | cons seg segs =>
          rw [hsegs] at hdrop
          cases hdrop
      rw [if_pos hsegs, if_neg (by simp)]
    | cons c cs =>
      rw [hcollapse, dropSlash_cons (.inr (List.cons_ne_nil _ _))] at hdrop
      have hsegs : segments '/' s ≠ [] := by
        intro hsegs
        rw [hsegs] at hdrop
        cases hdrop
      rw [if_neg hsegs, ← hdrop, ← dropSlash_cons (.inr (List.cons_ne_nil _ _)), dropSlash]
      simp

end ApiLogInterceptor

/-! ## What the router does -/

/-- The fields of `params`. -/
def Request.paramFields : Option Json → List (String × Json)
  | some (.obj fields) => fields
  | _ => []

theorem Request.paramFields_toJson (params : Option Json) :
    paramFields (ApiLogInterceptor.toJson params) = paramFields params := by
  unfold ApiLogInterceptor.toJson
  split <;> rfl

def normalizePath (path : String) : String := .ofList (Segments.normalize '/' path.toList)

/-- The path that the client has asked for. -/
def Request.path (req : Request) : String :=
  ApiLogInterceptor.beforeQuery (req.originalUrl.getD (req.url.getD ""))

/-- The router. `fill` puts parameters in a pattern, and `canon` is what it looks at in a path: the
case of the letters and the percent-encoding may not count. A request that it has sent to a handler
has the parameters that the pattern takes out of the path. -/
structure Router where
  fill : List (String × Json) → String → String
  canon : String → String
  Reaches : Request → String → String → Prop
  fills : ∀ {req : Request} {c h : String}, Reaches req c h →
    canon (normalizePath (fill (Request.paramFields req.params) (pattern c h))) =
      canon (normalizePath req.path)

/-- The request has come to the handler through an alternative of its metadata. -/
structure Router.Dispatches (R : Router) (controllerMeta handlerMeta : PathMeta) (c h : String)
    (req : Request) : Prop where
  controller : c ∈ controllerMeta.alternatives
  handler : h ∈ handlerMeta.alternatives
  reaches : R.Reaches req c h

namespace ApiLogInterceptor

/-- A request when its log is saved. -/
structure Saved where
  req : Request
  res : HttpResponse
  startTime : Nat
  now : Nat

def Saved.entity (x : Saved) (controllerMeta handlerMeta : PathMeta) : ApiLogEntity :=
  buildLogEntity x.req x.res x.startTime (extractRoutePath controllerMeta handlerMeta) x.now

/-- The requests are logged with the pattern of the alternative, which their parameters turn into
the path again, and all with the same. -/
structure LogsRoute (R : Router) (controllerMeta handlerMeta : PathMeta) (c h : String)
    (xs : Set Saved) : Prop where
  path : ∀ x ∈ xs, (x.entity controllerMeta handlerMeta).path = pattern c h
  fills : ∀ x ∈ xs, R.canon (normalizePath
      (R.fill (Request.paramFields (x.entity controllerMeta handlerMeta).requestParam)
        (x.entity controllerMeta handlerMeta).path)) = R.canon (normalizePath x.req.path)
  same : ∀ x ∈ xs, ∀ y ∈ xs,
    (x.entity controllerMeta handlerMeta).path = (y.entity controllerMeta handlerMeta).path

/-- The first alternatives have the segments of the given one; when both are empty, the URL has. -/
def MatchesFirst (controllerMeta handlerMeta : PathMeta) (c h : String) (req : Request) : Prop :=
  if controllerMeta.first = "" ∧ handlerMeta.first = "" then
    (req.originalUrl.map beforeQuery).getD (req.url.getD "") = pattern c h
  else
    segments '/' controllerMeta.first.toList ++ segments '/' handlerMeta.first.toList =
      segments '/' c.toList ++ segments '/' h.toList

instance (controllerMeta handlerMeta : PathMeta) (c h : String) (req : Request) :
    Decidable (MatchesFirst controllerMeta handlerMeta c h req) :=
  inferInstanceAs (Decidable (if controllerMeta.first = "" ∧ handlerMeta.first = "" then
      (req.originalUrl.map beforeQuery).getD (req.url.getD "") = pattern c h
    else
      segments '/' controllerMeta.first.toList ++ segments '/' handlerMeta.first.toList =
        segments '/' c.toList ++ segments '/' h.toList))

theorem pattern_eq_iff {c h c' h' : String} : pattern c h = pattern c' h' ↔
    segments '/' c.toList ++ segments '/' h.toList =
      segments '/' c'.toList ++ segments '/' h'.toList := by
  rw [pattern, pattern, String.ofList_inj, normalize_eq_iff, segments_append_cons,
    segments_append_cons]

theorem path_entity_eq_iff {x : Saved} {controllerMeta handlerMeta : PathMeta} {c h : String} :
    (x.entity controllerMeta handlerMeta).path = pattern c h ↔
      MatchesFirst controllerMeta handlerMeta c h x.req := by
  have hpath : (x.entity controllerMeta handlerMeta).path =
      (extractRoutePath controllerMeta handlerMeta).getD
        ((x.req.originalUrl.map beforeQuery).getD (x.req.url.getD "")) := rfl
  rw [hpath, extractRoutePath_eq, MatchesFirst]
  split
  · rfl
  · exact pattern_eq_iff

theorem LogsRoute.of_matchesFirst {R : Router} {controllerMeta handlerMeta : PathMeta}
    {c h : String} {xs : Set Saved}
    (hxs : ∀ x ∈ xs, R.Dispatches controllerMeta handlerMeta c h x.req)
    (hall : ∀ x ∈ xs, MatchesFirst controllerMeta handlerMeta c h x.req) :
    LogsRoute R controllerMeta handlerMeta c h xs := by
  have hpath (x : Saved) (hx : x ∈ xs) :
      (x.entity controllerMeta handlerMeta).path = pattern c h :=
    path_entity_eq_iff.mpr (hall x hx)
  refine ⟨hpath, fun x hx => ?_, fun x hx y hy => (hpath x hx).trans (hpath y hy).symm⟩
  have hparam : (x.entity controllerMeta handlerMeta).requestParam = toJson x.req.params := rfl
  rw [hpath x hx, hparam, Request.paramFields_toJson]
  exact R.fills (hxs x hx).reaches

/-- **The log has the route** of the requests that come through an alternative just when the first
one is spelled like it. -/
theorem logsRoute_iff (R : Router) (controllerMeta handlerMeta : PathMeta) (c h : String)
    (xs : Set Saved) (hxs : ∀ x ∈ xs, R.Dispatches controllerMeta handlerMeta c h x.req) :
    LogsRoute R controllerMeta handlerMeta c h xs ↔
      ∀ x ∈ xs, MatchesFirst controllerMeta handlerMeta c h x.req := by
  constructor
  · exact fun hlogs x hx => path_entity_eq_iff.mp (hlogs.path x hx)
  · exact fun hall => .of_matchesFirst hxs hall

/-! ## A router for patterns of plain segments and parameters -/

/-- A segment `:name` stands for the parameter. -/
def fillSegment (params : List (String × Json)) : List Char → List Char
  | ':' :: name =>
    match params.lookup (.ofList name) with
    | some (.str value) => value.toList
    | _ => []
  | segment => segment

def fillPattern (params : List (String × Json)) (path : String) : String :=
  .ofList (rooted '/' ((segments '/' path.toList).map (fillSegment params)))

/-- It compares paths letter by letter. -/
def colonRouter : Router where
  fill := fillPattern
  canon := id
  Reaches req c h := normalizePath (fillPattern (Request.paramFields req.params) (pattern c h)) =
    normalizePath req.path
  fills h := h

instance (req : Request) (c h : String) : Decidable (colonRouter.Reaches req c h) :=
  inferInstanceAs (Decidable (_ = _))

/-- A request of a user by its id. -/
def savedGet (url userId : String) : Saved where
  req := { HttpExchange.sampleRequest url with params := some (.obj [("user_id", .str userId)]) }
  res := ⟨200, .text "ok"⟩
  startTime := 0
  now := 1

theorem logsRoute_user : LogsRoute colonRouter (.one "/api/v1/user")
    (.one "/admin/:user_id/password") "/api/v1/user" "/admin/:user_id/password"
    {savedGet "/api/v1/user/admin/ec2a/password?x=1" "ec2a"} := by
  refine (logsRoute_iff colonRouter (.one "/api/v1/user") (.one "/admin/:user_id/password") _ _ _
    fun x hx => ?_).mpr fun x hx => ?_
  · cases hx
    exact ⟨List.mem_singleton_self _, List.mem_singleton_self _, by decide +kernel⟩
  · cases hx
    decide +kernel

/-- A user that is asked for under the second path of a controller is logged with the first one. -/
theorem not_logsRoute_second :
    (∀ x ∈ ({savedGet "/api/v2/user/u-1" "u-1"} : Set Saved), colonRouter.Dispatches
      (.many ["/api/v1/user", "/api/v2/user"]) (.one "/:user_id") "/api/v2/user" "/:user_id"
      x.req) ∧
    ¬ LogsRoute colonRouter (.many ["/api/v1/user", "/api/v2/user"]) (.one "/:user_id")
      "/api/v2/user" "/:user_id" {savedGet "/api/v2/user/u-1" "u-1"} := by
  constructor
  · intro x hx
    cases hx
    exact ⟨by simp [PathMeta.alternatives], List.mem_singleton_self _, by decide +kernel⟩
  · intro h
    have hpath := h.path _ rfl
    revert hpath
    decide +kernel

end ApiLogInterceptor

end NestHarness
