import Mathlib.Algebra.GroupWithZero.Nat
import Mathlib.Logic.Relation

/-!
# Labelled runs

A system is a partial step function on its states: a label says which party moves and resolves
every choice that is not the party's own. A run is the list of its labels. The rules below say
once what an induction over a run gives: an invariant, a preorder between its ends, and an
invariant that needs every step of the run to meet a condition.
-/

namespace Run

variable {σ ℓ : Type*} {step : σ → ℓ → Option σ}

/-- The state a list of labels leads to, `none` when one of them is not enabled. -/
def exec (step : σ → ℓ → Option σ) : σ → List ℓ → Option σ
  | s, [] => some s
  | s, l :: ls => (step s l).bind fun s' => exec step s' ls

/-- Every step of the run is taken in a state and with a label that meet `C`. -/
def Along (step : σ → ℓ → Option σ) (C : σ → ℓ → Prop) : σ → List ℓ → Prop
  | _, [] => True
  | s, l :: ls => C s l ∧ ∀ s', step s l = some s' → Along step C s' ls

/-- Every state the run passes through meets `Q`, its ends included. -/
def Always (step : σ → ℓ → Option σ) (Q : σ → Prop) (s : σ) (ls : List ℓ) : Prop :=
  ∀ ls' t, ls' <+: ls → exec step s ls' = some t → Q t

instance Along.decidable {C : σ → ℓ → Prop} [∀ s l, Decidable (C s l)] :
    (s : σ) → (ls : List ℓ) → Decidable (Along step C s ls)
  | _, [] => isTrue trivial
  | s, l :: ls =>
    match h : step s l with
    | none => decidable_of_iff (C s l) (by simp [Along, h])
    | some t =>
      have := Along.decidable (C := C) t ls
      decidable_of_iff (C s l ∧ Along step C t ls) (by simp [Along, h])

@[simp] theorem exec_nil (s : σ) : exec step s [] = some s := rfl

theorem exec_cons_iff {s s' : σ} {l : ℓ} {ls : List ℓ} :
    exec step s (l :: ls) = some s' ↔ ∃ t, step s l = some t ∧ exec step t ls = some s' := by
  simp [exec, Option.bind_eq_some_iff]

/-- What one step preserves, a run preserves. -/
theorem invariant {I : σ → Prop} (hstep : ∀ {s l s'}, I s → step s l = some s' → I s')
    {s s' : σ} {ls : List ℓ} (h : exec step s ls = some s') (hs : I s) : I s' := by
  induction ls generalizing s with
  | nil => cases h; exact hs
  | cons l ls ih =>
    obtain ⟨t, ht, h⟩ := exec_cons_iff.mp h
    exact ih h (hstep hs ht)

/-- What one step preserves under `C`, a run whose steps all meet `C` preserves. -/
theorem invariant_along {C : σ → ℓ → Prop} {I : σ → Prop}
    (hstep : ∀ {s l s'}, I s → C s l → step s l = some s' → I s') {s s' : σ} {ls : List ℓ}
    (h : exec step s ls = some s') (hC : Along step C s ls) (hs : I s) : I s' := by
  induction ls generalizing s with
  | nil => cases h; exact hs
  | cons l ls ih =>
    obtain ⟨t, ht, h⟩ := exec_cons_iff.mp h
    exact ih h (hC.2 t ht) (hstep hs hC.1 ht)

theorem along_of_forall {C : ℓ → Prop} {s : σ} {ls : List ℓ} (h : ∀ l ∈ ls, C l) :
    Along step (fun _ => C) s ls := by
  induction ls generalizing s with
  | nil => trivial
  | cons l ls ih =>
    refine ⟨h l List.mem_cons_self, ?_⟩
    intro t _
    exact ih fun l hl => h l (List.mem_cons_of_mem _ hl)

theorem always_cons_iff {Q : σ → Prop} {s t : σ} {l : ℓ} {ls : List ℓ} (h : step s l = some t) :
    Always step Q s (l :: ls) ↔ Q s ∧ Always step Q t ls := by
  constructor
  · intro hQ
    refine ⟨hQ [] s List.nil_prefix rfl, fun ls' u hls hu => hQ (l :: ls') u ?_ ?_⟩
    · exact (List.prefix_cons_inj l).mpr hls
    · exact exec_cons_iff.mpr ⟨t, h, hu⟩
  · rintro ⟨hs, hQ⟩ (_ | ⟨l', ls'⟩) u hls hu
    · cases hu
      exact hs
    · obtain ⟨rfl, hls'⟩ := List.cons_prefix_cons.mp hls
      obtain ⟨t', ht, hu⟩ := exec_cons_iff.mp hu
      cases h.symm.trans ht
      exact hQ ls' u hls' hu

/-- A condition that keeps an invariant and that no step may miss: a run keeps `Q` just when all of
its steps meet the condition. -/
theorem always_iff_along {C : σ → ℓ → Prop} {I Q : σ → Prop} (hQ : ∀ {s}, I s → Q s)
    (hstep : ∀ {s l s'}, I s → C s l → step s l = some s' → I s')
    (hC : ∀ {s l s'}, I s → step s l = some s' → Q s' → C s l)
    {s s' : σ} {ls : List ℓ} (h : exec step s ls = some s') (hs : I s) :
    Always step Q s ls ↔ Along step C s ls := by
  induction ls generalizing s with
  | nil =>
    refine ⟨fun _ => trivial, ?_⟩
    intro _ ls' t hls ht
    cases List.prefix_nil.mp hls
    cases ht
    exact hQ hs
  | cons l ls ih =>
    obtain ⟨t, ht, h⟩ := exec_cons_iff.mp h
    rw [always_cons_iff ht]
    constructor
    · rintro ⟨_, hall⟩
      have hc : C s l := hC hs ht (hall [] t List.nil_prefix rfl)
      refine ⟨hc, ?_⟩
      intro u hu
      cases ht.symm.trans hu
      exact (ih h (hstep hs hc ht)).mp hall
    · rintro ⟨hc, hall⟩
      exact ⟨hQ hs, (ih h (hstep hs hc ht)).mpr (hall t ht)⟩

/-- A preorder that every step respects from a state of the invariant relates the ends of a run. -/
theorem relates {I : σ → Prop} {R : σ → σ → Prop} (hrefl : ∀ s, R s s)
    (htrans : ∀ {a b c}, R a b → R b c → R a c)
    (hstep : ∀ {s l s'}, I s → step s l = some s' → I s' ∧ R s s')
    {s s' : σ} {ls : List ℓ} (h : exec step s ls = some s') (hs : I s) : R s s' := by
  induction ls generalizing s with
  | nil => cases h; exact hrefl _
  | cons l ls ih =>
    obtain ⟨t, ht, h⟩ := exec_cons_iff.mp h
    obtain ⟨hI, hR⟩ := hstep hs ht
    exact htrans hR (ih h hI)

/-- What each label adds to a count, a run adds. -/
theorem accumulates {I : σ → Prop} (count : σ → Nat) (weight : ℓ → Nat)
    (hstep : ∀ {s l s'}, I s → step s l = some s' → I s' ∧ count s' = count s + weight l)
    {s s' : σ} {ls : List ℓ} (h : exec step s ls = some s') (hs : I s) :
    count s' = count s + (ls.map weight).sum := by
  induction ls generalizing s with
  | nil => cases h; rfl
  | cons l ls ih =>
    obtain ⟨t, ht, h⟩ := exec_cons_iff.mp h
    obtain ⟨hI, hcount⟩ := hstep hs ht
    rw [ih h hI, hcount, List.map_cons, List.sum_cons, Nat.add_assoc]

/-! ## What must happen -/

/-- However the steps of `move` are chosen, with any steps of `other` before each of them, a state
of `Q` is reached after finitely many, and until then some step of `ready` is enabled. -/
inductive Inevitable (step : σ → ℓ → Option σ) (ready move other : ℓ → Prop) (Q : σ → Prop) :
    σ → Prop
  | now {s : σ} : Q s → Inevitable step ready move other Q s
  | later {s : σ} :
    (∀ ls t, (∀ l ∈ ls, other l) → exec step s ls = some t → ¬Q t →
      ∃ l t', ready l ∧ step t l = some t') →
    (∀ ls t l t', (∀ l ∈ ls, other l) → exec step s ls = some t → move l → step t l = some t' →
      Inevitable step ready move other Q t') →
    Inevitable step ready move other Q s

/-- A measure that the moves make smaller and the other steps keep, under an invariant that leaves
some step enabled short of `Q`. -/
theorem inevitable {μ : Type*} {r : μ → μ → Prop} (hr : WellFounded r) (m : σ → μ) {I Q : σ → Prop}
    {ready move other : ℓ → Prop}
    (hother : ∀ {s l s'}, I s → other l → step s l = some s' → I s' ∧ m s' = m s)
    (hmove : ∀ {s l s'}, I s → move l → step s l = some s' → I s' ∧ r (m s') (m s))
    (hready : ∀ {s}, I s → ¬Q s → ∃ l s', ready l ∧ step s l = some s') {s : σ} (hs : I s) :
    Inevitable step ready move other Q s := by
  induction h : m s using hr.induction generalizing s with
  | _ x ih =>
    subst h
    have hrest {ls : List ℓ} {t : σ} (hls : ∀ l ∈ ls, other l) (ht : exec step s ls = some t) :
        I t ∧ m t = m s := by
      refine invariant_along (C := fun _ l => other l) (I := fun t => I t ∧ m t = m s) ?_ ht
        (along_of_forall hls) ⟨hs, rfl⟩
      rintro u l u' ⟨hu, hm⟩ hl hstep
      obtain ⟨hu', hm'⟩ := hother hu hl hstep
      exact ⟨hu', hm'.trans hm⟩
    refine .later ?_ ?_
    · intro ls t hls ht hQ
      exact hready (hrest hls ht).1 hQ
    · intro ls t l t' hls ht hl hstep
      obtain ⟨hI, hm⟩ := hrest hls ht
      obtain ⟨hI', hlt⟩ := hmove hI hl hstep
      exact ih (m t') (hm ▸ hlt) hI' rfl

/-! ## Two systems -/

variable {τ κ : Type*} {step' : τ → κ → Option τ} {abs : σ → τ}

theorem exec_append (s : σ) (ls ls' : List ℓ) :
    exec step s (ls ++ ls') = (exec step s ls).bind fun t => exec step t ls' := by
  induction ls generalizing s with
  | nil => rfl
  | cons l ls ih =>
    rw [List.cons_append, exec, exec, Option.bind_assoc]
    exact Option.bind_congr fun t _ => ih t

/-- Seen through `abs` a run is one of another system when each of its steps is; `weight` counts the
steps that the other system has no counterpart of. -/
theorem simulates {I : σ → Prop} {weight : σ → Nat}
    (hstep : ∀ {s l s'}, I s → step s l = some s' → I s' ∧ ∃ ks,
      exec step' (abs s) ks = some (abs s') ∧ 1 + weight s = ks.length + weight s')
    {s s' : σ} {ls : List ℓ} (h : exec step s ls = some s') (hs : I s) :
    ∃ ks, exec step' (abs s) ks = some (abs s') ∧
      ls.length + weight s = ks.length + weight s' := by
  induction ls generalizing s with
  | nil =>
    cases h
    exact ⟨[], rfl, rfl⟩
  | cons l ls ih =>
    obtain ⟨t, ht, h⟩ := exec_cons_iff.mp h
    obtain ⟨hI, ks, hks, hweight⟩ := hstep hs ht
    obtain ⟨ks', hks', hweight'⟩ := ih h hI
    refine ⟨ks ++ ks', ?_, ?_⟩
    · rw [exec_append, hks]
      exact hks'
    · rw [List.length_cons, List.length_append]
      omega

/-- A relation that every step keeps, while the other system takes any number of steps, carries a
run over to a run of the other system. -/
theorem simulates_along {R : σ → τ → Prop} {C : σ → ℓ → Prop}
    (hstep : ∀ {s l s' u}, R s u → C s l → step s l = some s' →
      ∃ ks u', exec step' u ks = some u' ∧ R s' u')
    {s s' : σ} {ls : List ℓ} (h : exec step s ls = some s') (hC : Along step C s ls) {u : τ}
    (hR : R s u) : ∃ ks u', exec step' u ks = some u' ∧ R s' u' := by
  induction ls generalizing s u with
  | nil =>
    cases h
    exact ⟨[], u, rfl, hR⟩
  | cons l ls ih =>
    obtain ⟨t, ht, h⟩ := exec_cons_iff.mp h
    obtain ⟨ks, u₁, hks, hR₁⟩ := hstep hR hC.1 ht
    obtain ⟨ks', u₂, hks', hR₂⟩ := ih h (hC.2 t ht) hR₁
    refine ⟨ks ++ ks', u₂, ?_, hR₂⟩
    rw [exec_append, hks]
    exact hks'

theorem exec_map {ι : Type*} (f : ι → ℓ) (s : σ) (is : List ι) :
    exec step s (is.map f) = exec (fun s i => step s (f i)) s is := by
  induction is generalizing s with
  | nil => rfl
  | cons i is ih => exact Option.bind_congr fun t _ => ih t

/-- Two systems whose steps are enabled alike and lead to the same end. -/
theorem exec_abs {I : σ → Prop} {step' : τ → ℓ → Option τ}
    (hstep : ∀ {s} l, I s → (step s l).map abs = step' (abs s) l)
    (hI : ∀ {s l s'}, I s → step s l = some s' → I s') {s : σ} (hs : I s) (ls : List ℓ) :
    (exec step s ls).map abs = exec step' (abs s) ls := by
  induction ls generalizing s with
  | nil => rfl
  | cons l ls ih =>
    rw [exec, exec, ← hstep l hs]
    cases hl : step s l with
    | none => rfl
    | some t => exact ih (hI hs hl)

end Run
