import Mathlib.Logic.Relation

/-!
# Programs over an effect signature

A program performs operations of a fixed signature one at a time and ends with a value or an
exception. The operations are uninterpreted: a machine that runs programs decides what each of them
answers, so that programs of several callers can be interleaved at their operations.
-/

/-- The operations a program may perform and the type of the answer to each. -/
structure Effect where
  Op : Type
  Ans : Op → Type

/-- A program over the operations of `E`, ending with a value or an exception. -/
inductive Prog (E : Effect) (ε α : Type) where
  | ret (a : α)
  | raise (e : ε)
  | call (o : E.Op) (k : E.Ans o → Prog E ε α)

namespace Prog

variable {E : Effect} {ε ε' α β γ : Type}

def bind : Prog E ε α → (α → Prog E ε β) → Prog E ε β
  | ret a, f => f a
  | raise e, _ => raise e
  | call o k, f => call o fun x => (k x).bind f

instance : Monad (Prog E ε) where
  pure := ret
  bind := bind

/-- Perform one operation and return its answer. -/
def perform (o : E.Op) : Prog E ε (E.Ans o) := call o ret

/-- Run a program and hand its outcome over as a value, exceptions included. -/
def attempt : Prog E ε α → Prog E ε' (Except ε α)
  | ret a => ret (.ok a)
  | raise e => ret (.error e)
  | call o k => call o fun x => (k x).attempt

/-- The program that has ended with the given outcome. -/
def ended : Except ε α → Prog E ε α
  | .ok a => ret a
  | .error e => raise e

/-- `try p finally q`: `q` runs after either outcome of `p`, and its own exception wins. -/
def andFinally (p : Prog E ε α) (q : Prog E ε PUnit) : Prog E ε α :=
  (attempt p : Prog E ε (Except ε α)).bind fun r => q.bind fun _ => ended r

instance : MonadExceptOf ε (Prog E ε) where
  throw := raise
  tryCatch p h := (attempt p : Prog E ε (Except ε _)).bind fun
    | .ok a => ret a
    | .error e => h e

@[simp] theorem pure_eq (a : α) : (pure a : Prog E ε α) = ret a := rfl

@[simp] theorem bind_eq (p : Prog E ε α) (f : α → Prog E ε β) : p >>= f = p.bind f := rfl

@[simp] theorem throw_eq (e : ε) : (throw e : Prog E ε α) = raise e := rfl

@[simp] theorem ret_bind (a : α) (f : α → Prog E ε β) : (ret a).bind f = f a := rfl

@[simp] theorem raise_bind (e : ε) (f : α → Prog E ε β) : (raise e).bind f = raise e := rfl

@[simp] theorem call_bind (o : E.Op) (k : E.Ans o → Prog E ε α) (f : α → Prog E ε β) :
    (call o k).bind f = call o fun x => (k x).bind f := rfl

theorem bind_assoc (p : Prog E ε α) (f : α → Prog E ε β) (g : β → Prog E ε γ) :
    (p.bind f).bind g = p.bind fun x => (f x).bind g := by
  induction p with
  | ret | raise => rfl
  | call o k ih => exact congrArg (call o) (funext ih)

theorem bind_ret (p : Prog E ε α) : p.bind ret = p := by
  induction p with
  | ret | raise => rfl
  | call o k ih => exact congrArg (call o) (funext ih)

@[simp] theorem attempt_ret (a : α) :
    ((ret a : Prog E ε α).attempt : Prog E ε' (Except ε α)) = ret (.ok a) := rfl

@[simp] theorem attempt_raise (e : ε) :
    ((raise e : Prog E ε α).attempt : Prog E ε' (Except ε α)) = ret (.error e) := rfl

theorem ended_injective : Function.Injective (ended : Except ε α → Prog E ε α) := by
  rintro (e | a) (e' | a') h <;> cases h <;> rfl

/-! ## What a program may perform -/

/-- The program has ended. -/
def Halted : Prog E ε α → Prop
  | ret _ | raise _ => True
  | call _ _ => False

instance : DecidablePred (Halted : Prog E ε α → Prop)
  | ret _ | raise _ => isTrue trivial
  | call _ _ => isFalse id

/-- Every operation the program may perform meets `C`. -/
def Only (C : E.Op → Prop) : Prog E ε α → Prop
  | ret _ | raise _ => True
  | call o k => C o ∧ ∀ x, (k x).Only C

/-- Every exception the program may end with meets `C`. -/
def Raises (C : ε → Prop) : Prog E ε α → Prop
  | ret _ => True
  | raise e => C e
  | call _ k => ∀ x, (k x).Raises C

/-- Every value the program may end with meets `C`. -/
def Returns (C : α → Prop) : Prog E ε α → Prop
  | ret a => C a
  | raise _ => True
  | call _ k => ∀ x, (k x).Returns C

/-- The program performs operations that meet `C`, then one that meets `L`, and ends. -/
def Closes (C L : E.Op → Prop) : Prog E ε α → Prop
  | ret _ | raise _ => False
  | call o k => C o ∧ (∀ x, (k x).Closes C L) ∨ L o ∧ ∀ x, (k x).Halted

section

variable {C L : E.Op → Prop} {p : Prog E ε α} {f : α → Prog E ε β}

@[simp] theorem halted_ended (r : Except ε α) : (ended r : Prog E ε α).Halted := by
  cases r <;> trivial

theorem Only.bind (h : p.Only C) (hf : ∀ a, (f a).Only C) : (p.bind f).Only C := by
  induction p with
  | ret a => exact hf a
  | raise => trivial
  | call o k ih => exact ⟨h.1, fun x => ih x (h.2 x)⟩

theorem Only.attempt (h : p.Only C) : (p.attempt : Prog E ε' (Except ε α)).Only C := by
  induction p with
  | ret | raise => trivial
  | call o k ih => exact ⟨h.1, fun x => ih x (h.2 x)⟩

theorem Raises.bind {C : ε → Prop} (h : p.Raises C) (hf : ∀ a, (f a).Raises C) :
    (p.bind f).Raises C := by
  induction p with
  | ret a => exact hf a
  | raise => exact h
  | call o k ih => exact fun x => ih x (h x)

theorem Returns.bind {C : α → Prop} {D : β → Prop} (h : p.Returns C)
    (hf : ∀ a, C a → (f a).Returns D) : (p.bind f).Returns D := by
  induction p with
  | ret a => exact hf a h
  | raise => trivial
  | call o k ih => exact fun x => ih x (h x)

/-- What a program returns that goes on whatever the outcome of its first part. -/
theorem Returns.bind_of {D : β → Prop} (hf : ∀ a, (f a).Returns D) : (p.bind f).Returns D := by
  induction p with
  | ret a => exact hf a
  | raise => trivial
  | call o k ih => exact ih

theorem Closes.not_halted (h : p.Closes C L) : ¬p.Halted := by
  cases p with
  | ret | raise => exact h.elim
  | call => exact id

theorem Halted.bind (h : p.Halted) (hf : ∀ a, (f a).Halted) : (p.bind f).Halted := by
  cases p with
  | ret a => exact hf a
  | raise => trivial
  | call => exact h.elim

theorem Closes.bind (h : p.Closes C L) (hf : ∀ a, (f a).Halted) : (p.bind f).Closes C L := by
  induction p with
  | ret | raise => exact h.elim
  | call o k ih =>
    exact h.imp (fun h => ⟨h.1, fun x => ih x (h.2 x)⟩) fun h => ⟨h.1, fun x => (h.2 x).bind hf⟩

/-- The closing operation of a `finally` block is performed after either outcome of its body. -/
theorem Only.andFinally {q : Prog E ε PUnit} (h : p.Only C) (hq : q.Closes C L) :
    (p.andFinally q).Closes C L := by
  unfold Prog.andFinally
  induction p with
  | ret | raise => exact hq.bind fun _ => halted_ended _
  | call o k ih => exact .inl ⟨h.1, fun x => ih x (h.2 x)⟩

end

end Prog
