import NestHarness.Http.Exchange
import NestHarness.User.Validation

/-!
# The errors of validation as an exception

The `exceptionFactory` of the `ValidationPipe` on the trees of errors that class-validator gives. It
reads the constraints of the errors at the top, which those of nested objects do not have.
-/

namespace NestHarness

/-- The `constraints` of an error by their types, in the order of `Object.keys`. There is one or
more. -/
structure Violations where
  first : String × String
  rest : List (String × String)

def Violations.toList (v : Violations) : List (String × String) := v.first :: v.rest

/-- A `ValidationError`. Of the `contexts` the `target` is kept, `none` where there is none. -/
inductive ErrorTree where
  | node (property : String) (constraints : Option Violations)
      (contexts : Option (List (String × Option String))) (children : List ErrorTree)

namespace ErrorTree

def property : ErrorTree → String
  | node property _ _ _ => property

def constraints : ErrorTree → Option Violations
  | node _ constraints _ _ => constraints

def contexts : ErrorTree → Option (List (String × Option String))
  | node _ _ contexts _ => contexts

mutual

/-- The constraints violated anywhere in the tree. -/
def violations : ErrorTree → List (String × String)
  | node _ constraints _ children =>
    (constraints.map Violations.toList).getD [] ++ childViolations children

def childViolations : List ErrorTree → List (String × String)
  | [] => []
  | error :: errors => violations error ++ childViolations errors

end

end ErrorTree

/-- `Object.keys(undefined)` -/
def undefinedKeys : Exn := .error "Cannot convert undefined or null to object"

/-- The entry of an error, or what is thrown. -/
def toValidationErrorDto (error : ErrorTree) : Except Exn ValidationErrorDto :=
  match error.constraints with
  | none => .error undefinedKeys
  | some constraints =>
    let (type, message) := constraints.first
    if type = "isBoolean" then
      match error.contexts with
      | some contexts => .ok { type, property := ((contexts.lookup type).join).getD "", message }
      | none => .ok { type, property := error.property, message }
    else .ok { type, property := error.property, message }

/-- The exception that `exceptionFactory` returns or what it throws instead. -/
def exceptionFactory (errors : List ErrorTree) : Except Exn Exn := do
  let validationErrors ← errors.mapM toValidationErrorDto
  let message := match validationErrors with
    | entry :: _ => entry.message
    | [] => "실패했습니다."
  return badRequestException { message, validationErrors }

/-- What the `ValidationPipe` throws for the errors. -/
def validationException (errors : List ErrorTree) : Exn :=
  match exceptionFactory errors with
  | .ok exception | .error exception => exception

/-- An entry that reports its error. -/
def Reports (error : ErrorTree) (entry : ValidationErrorDto) : Prop :=
  (entry.type, entry.message) ∈ error.violations ∧ entry.message ≠ ""

/-- The errors are answered by a `BadRequestException` with an entry for each of them, and with the
message of the first. -/
def AnsweredInFull (errors : List ErrorTree) : Prop :=
  ∃ body entries, exceptionFactory errors = .ok (.http 400 body) ∧
    body.validationErrors = some entries ∧
    List.Forall₂ Reports errors entries ∧ entries.head?.map (·.message) = some body.message

/-- An error with a constraint to report. -/
def ErrorTree.Reportable (error : ErrorTree) : Prop :=
  ∃ constraints, error.constraints = some constraints ∧ constraints.first.2 ≠ ""

theorem mapM_ok_iff {α β ε : Type} {f : α → Except ε β} {l : List α} {r : List β} :
    l.mapM f = .ok r ↔ List.Forall₂ (fun a b => f a = .ok b) l r := by
  induction l generalizing r with
  | nil =>
    rw [List.mapM_nil, List.forall₂_nil_left_iff]
    exact ⟨fun h => (Except.ok.inj h).symm, fun h => congrArg Except.ok h.symm⟩
  | cons a l ih =>
    rw [List.mapM_cons, List.forall₂_cons_left_iff]
    constructor
    · intro h
      cases ha : f a with
      | error e =>
        rw [ha] at h
        cases h
      | ok b =>
        cases hl : l.mapM f with
        | error e =>
          rw [ha, hl] at h
          cases h
        | ok bs =>
          rw [ha, hl] at h
          cases h
          exact ⟨b, bs, rfl, ih.mp hl, rfl⟩
    · rintro ⟨b, bs, ha, hl, rfl⟩
      rw [ha, ih.mpr hl]
      rfl

/-- An entry has the type and the message of the first constraint. -/
theorem toValidationErrorDto_ok {error : ErrorTree} {entry : ValidationErrorDto}
    (h : toValidationErrorDto error = .ok entry) :
    ∃ constraints, error.constraints = some constraints ∧
      constraints.first = (entry.type, entry.message) := by
  unfold toValidationErrorDto at h
  split at h
  · cases h
  · next constraints hc =>
    refine ⟨constraints, hc, ?_⟩
    dsimp only at h
    split at h
    · split at h <;> cases h <;> rfl
    · cases h
      rfl

theorem exists_toValidationErrorDto {error : ErrorTree} (h : error.constraints ≠ none) :
    ∃ entry, toValidationErrorDto error = .ok entry := by
  unfold toValidationErrorDto
  split
  · next hc => exact (h hc).elim
  · dsimp only
    split
    · split <;> exact ⟨_, rfl⟩
    · exact ⟨_, rfl⟩

theorem mem_violations {error : ErrorTree} {constraints : Violations}
    (h : error.constraints = some constraints) : constraints.first ∈ error.violations := by
  cases error with
  | node property _ contexts children =>
    cases h
    rw [ErrorTree.violations]
    exact List.mem_append_left _ List.mem_cons_self

theorem ErrorTree.Reportable.exists_entry {error : ErrorTree} (h : error.Reportable) :
    ∃ entry, toValidationErrorDto error = .ok entry ∧ Reports error entry := by
  obtain ⟨constraints, hc, hmessage⟩ := h
  obtain ⟨entry, hentry⟩ := exists_toValidationErrorDto (hc ▸ Option.some_ne_none constraints)
  obtain ⟨constraints', hc', hfirst⟩ := toValidationErrorDto_ok hentry
  cases hc.symm.trans hc'
  refine ⟨entry, hentry, ?_, ?_⟩
  · rw [← hfirst]
    exact mem_violations hc
  · rwa [hfirst] at hmessage

/-- Where every error is reportable, every one is reported. -/
theorem exists_entries {errors : List ErrorTree} (h : ∀ e ∈ errors, e.Reportable) :
    ∃ entries, errors.mapM toValidationErrorDto = .ok entries ∧
      List.Forall₂ Reports errors entries := by
  induction errors with
  | nil => exact ⟨[], rfl, .nil⟩
  | cons error errors ih =>
    obtain ⟨entry, hentry, hreports⟩ := (h error List.mem_cons_self).exists_entry
    obtain ⟨entries, hentries, hall⟩ := ih fun e he => h e (List.mem_cons_of_mem _ he)
    refine ⟨entry :: entries, ?_, .cons hreports hall⟩
    rw [mapM_ok_iff] at hentries ⊢
    exact .cons hentry hentries

theorem reportable_of_entries {errors : List ErrorTree} {entries : List ValidationErrorDto}
    (hentries : List.Forall₂ (fun error entry => toValidationErrorDto error = .ok entry)
      errors entries)
    (hreports : List.Forall₂ Reports errors entries) : ∀ e ∈ errors, e.Reportable := by
  induction hentries with
  | nil => exact fun e he => absurd he List.not_mem_nil
  | cons hentry _ ih =>
    cases hreports with
    | cons hreport hreports =>
      intro e he
      rcases List.mem_cons.mp he with rfl | he
      · obtain ⟨constraints, hc, hfirst⟩ := toValidationErrorDto_ok hentry
        exact ⟨constraints, hc, by rw [hfirst]; exact hreport.2⟩
      · exact ih hreports e he

/-- The errors of a request are answered if each of them has a constraint of its own. -/
theorem exceptionFactory_answered_iff (error : ErrorTree) (errors : List ErrorTree) :
    AnsweredInFull (error :: errors) ↔ ∀ e ∈ error :: errors, e.Reportable := by
  constructor
  · rintro ⟨body, entries, hok, hbody, hreports, -⟩
    unfold exceptionFactory at hok
    cases hmap : (error :: errors).mapM toValidationErrorDto with
    | error e =>
      rw [hmap] at hok
      cases hok
    | ok entries' =>
      rw [hmap] at hok
      cases hok
      cases hbody
      exact reportable_of_entries (mapM_ok_iff.mp hmap) hreports
  · intro h
    obtain ⟨entries, hentries, hreports⟩ := exists_entries h
    unfold AnsweredInFull exceptionFactory
    rw [hentries]
    refine ⟨_, entries, rfl, rfl, hreports, ?_⟩
    cases hreports
    rfl

theorem answered_of_leaf :
    AnsweredInFull [.node "name" (some ⟨("isNotEmpty", "이름을 입력해주세요."), []⟩) none []] := by
  refine (exceptionFactory_answered_iff _ []).mpr ?_
  intro e he
  cases List.mem_singleton.mp he
  exact ⟨_, rfl, by decide⟩

/-- The first of `times` has no `start_time`. -/
def nestedError : ErrorTree :=
  .node "times" none none [.node "0" none none
    [.node "start_time" (some ⟨("isNotEmpty", "시작 시간을 입력해주세요."), []⟩) none []]]

theorem not_answered_nestedError : ¬AnsweredInFull [nestedError] := by
  rintro ⟨body, entries, hok, -⟩
  have hthrows : exceptionFactory [nestedError] = .error undefinedKeys := rfl
  rw [hthrows] at hok
  cases hok

/-! ## Answers -/

/-- An error without constraints of its own makes the factory throw. -/
theorem validationException_of_inner {errors : List ErrorTree}
    (h : ∃ e ∈ errors, e.constraints = none) : validationException errors = undefinedKeys := by
  have hmap : errors.mapM toValidationErrorDto = .error undefinedKeys := by
    induction errors with
    | nil =>
      obtain ⟨e, he, -⟩ := h
      cases he
    | cons error errors ih =>
      rw [List.mapM_cons]
      cases hc : error.constraints with
      | none =>
        have hthrows : toValidationErrorDto error = .error undefinedKeys := by
          unfold toValidationErrorDto
          rw [hc]
        rw [hthrows]
        rfl
      | some constraints =>
        obtain ⟨entry, hentry⟩ := exists_toValidationErrorDto (hc ▸ Option.some_ne_none constraints)
        have hrest : ∃ e ∈ errors, e.constraints = none := by
          obtain ⟨e, he, hnone⟩ := h
          rcases List.mem_cons.mp he with rfl | he
          · rw [hc] at hnone
            cases hnone
          · exact ⟨e, he, hnone⟩
        rw [hentry, ih hrest]
        rfl
  unfold validationException exceptionFactory
  rw [hmap]
  rfl

/-- The client is told that the request failed. -/
theorem customErrorFilter_of_inner {errors : List ErrorTree}
    (h : ∃ e ∈ errors, e.constraints = none) :
    (customErrorFilter (validationException errors)).statusCode = 500 := by
  rw [validationException_of_inner h]
  rfl

/-- Otherwise it is told what is wrong. -/
theorem customErrorFilter_of_answered {errors : List ErrorTree} (h : AnsweredInFull errors) :
    ∃ body, validationException errors = .http 400 body ∧
      (includes body.message "request entity too large" = false →
        customErrorFilter (validationException errors) = ⟨400, .json body.toJson⟩) := by
  obtain ⟨body, -, hok, -⟩ := h
  have hexception : validationException errors = .http 400 body := by
    unfold validationException
    rw [hok]
  refine ⟨body, hexception, ?_⟩
  intro hmessage
  rw [hexception, customErrorFilter, Exn.message, hmessage]
  rfl

/-! ## The errors of the user requests -/

def ErrorTree.ofValidationError (e : ValidationError) : ErrorTree :=
  let constraints := match e.constraints with
    | [] => none
    | first :: rest => some ⟨first, rest⟩
  .node e.property constraints none []

theorem reportable_validateField {property : String} {checks : List Constraint}
    {e : ValidationError} (hmessages : ∀ c ∈ checks, c.message ≠ "")
    (h : validateField property checks = some e) :
    (ErrorTree.ofValidationError e).Reportable := by
  obtain ⟨-, hne, hmem⟩ := validateField_some h
  obtain ⟨first, rest, heq⟩ := List.exists_cons_of_ne_nil hne
  obtain ⟨c, hc, -, hfirst⟩ := hmem first (heq ▸ List.mem_cons_self)
  refine ⟨⟨first, rest⟩, ?_, ?_⟩
  · unfold ErrorTree.ofValidationError
    rw [heq]
    rfl
  · rw [hfirst]
    exact hmessages c hc

/-- Every error of a form that is not nested has a constraint to report. -/
theorem AdminUserCreateDto.reportable_validate (dto : AdminUserCreateDto) :
    ∀ e ∈ dto.validate, (ErrorTree.ofValidationError e).Reportable := by
  intro e he
  obtain ⟨field, hfield, rfl⟩ := List.mem_filterMap.mp he
  simp only [List.mem_cons, List.not_mem_nil, or_false] at hfield
  rcases hfield with h | h | h | h | h | h <;>
    exact reportable_validateField
      (by simp [isNotEmpty, minLength, maxLength, fieldMatches]) h.symm

theorem SignInBody.reportable_validate (body : SignInBody) :
    ∀ e ∈ body.validate, (ErrorTree.ofValidationError e).Reportable := by
  intro e he
  obtain ⟨field, hfield, rfl⟩ := List.mem_filterMap.mp he
  simp only [List.mem_cons, List.not_mem_nil, or_false] at hfield
  rcases hfield with h | h <;> exact reportable_validateField (by simp [isNotEmpty]) h.symm

end NestHarness
