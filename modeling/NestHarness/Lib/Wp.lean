import NestHarness.Lib.Prog

/-!
# Preconditions of programs

An environment says what an operation needs of the state it is performed in, and how it may be
answered. `Prog.wp` is the precondition under which every operation of a program gets what it needs,
however the environment answers, and the program ends in a state and with an outcome that meet `Q`.
-/

/-- An environment for the operations of `E` with states `S`. -/
structure Env (E : Effect) (S : Type) where
  needs : S → E.Op → Prop
  /-- The operation may be answered so, and leads to the state. -/
  answers : S → (o : E.Op) → E.Ans o → S → Prop

namespace Prog

variable {E : Effect} {S ε ε' α β : Type} {V : Env E S} {Q Q' : S → Except ε α → Prop} {s : S}

def wp (V : Env E S) : Prog E ε α → (S → Except ε α → Prop) → S → Prop
  | ret a, Q, s => Q s (.ok a)
  | raise e, Q, s => Q s (.error e)
  | call o k, Q, s => V.needs s o ∧ ∀ x s', V.answers s o x s' → (k x).wp V Q s'

theorem wp_ended {r : Except ε α} : (ended r : Prog E ε α).wp V Q s ↔ Q s r := by
  cases r <;> exact Iff.rfl

theorem wp.mono {p : Prog E ε α} (h : p.wp V Q s) (hQ : ∀ s r, Q s r → Q' s r) : p.wp V Q' s := by
  induction p generalizing s with
  | ret | raise => exact hQ _ _ h
  | call o k ih => exact ⟨h.1, fun x s' hx => ih x (h.2 x s' hx)⟩

/-- A program whose operations need nothing and whose outcome does not matter. -/
theorem wp_of_forall (hneeds : ∀ s o, V.needs s o) (hQ : ∀ s r, Q s r) {p : Prog E ε α} :
    p.wp V Q s := by
  induction p generalizing s with
  | ret | raise => exact hQ _ _
  | call o k ih => exact ⟨hneeds s o, fun x s' _ => ih x⟩

theorem wp_bind {p : Prog E ε α} {f : α → Prog E ε β} {Q : S → Except ε β → Prop}
    (h : p.wp V (fun s r => match r with
      | .ok a => (f a).wp V Q s
      | .error e => Q s (.error e)) s) : (p.bind f).wp V Q s := by
  induction p generalizing s with
  | ret | raise => exact h
  | call o k ih => exact ⟨h.1, fun x s' hx => ih x (h.2 x s' hx)⟩

theorem wp_attempt {p : Prog E ε α} {Q : S → Except ε' (Except ε α) → Prop}
    (h : p.wp V (fun s r => Q s (.ok r)) s) : (p.attempt : Prog E ε' (Except ε α)).wp V Q s := by
  induction p generalizing s with
  | ret | raise => exact h
  | call o k ih => exact ⟨h.1, fun x s' hx => ih x (h.2 x s' hx)⟩

theorem wp_tryCatch {p : Prog E ε α} {f : ε → Prog E ε α}
    (h : p.wp V (fun s r => match r with
      | .ok a => Q s (.ok a)
      | .error e => (f e).wp V Q s) s) : (tryCatch p f).wp V Q s := by
  refine wp_bind (wp_attempt (h.mono ?_))
  intro s r hr
  cases r <;> exact hr

theorem wp_andFinally {p : Prog E ε α} {q : Prog E ε PUnit}
    (h : p.wp V (fun s r => q.wp V (fun s r' => match r' with
      | .ok _ => Q s r
      | .error e => Q s (.error e)) s) s) : (p.andFinally q).wp V Q s := by
  refine wp_bind (wp_attempt (h.mono ?_))
  intro s r hr
  refine wp_bind (hr.mono ?_)
  intro s r' hr'
  cases r' with
  | ok => exact wp_ended.mpr hr'
  | error => exact hr'

/-- A program whose operations need nothing more than what every answer keeps. -/
theorem Only.wp {C : E.Op → Prop} {I : S → Prop} {p : Prog E ε α} (hp : p.Only C)
    (hneeds : ∀ s o, I s → C o → V.needs s o) (hkeeps : ∀ s o x s', I s → C o →
      V.answers s o x s' → I s') (hs : I s) (hQ : ∀ s r, I s → Q s r) : p.wp V Q s := by
  induction p generalizing s with
  | ret | raise => exact hQ _ _ hs
  | call o k ih =>
    refine ⟨hneeds s o hs hp.1, ?_⟩
    intro x s' hx
    exact ih x (hp.2 x) (hkeeps s o x s' hs hp.1 hx)

end Prog
