import Mathlib.Data.List.Basic
import Mathlib.Tactic

/-!
# Runs of a guarded transition function

A system is an initial state and a partial step function on labelled actions.
`Reachable init step ok` is the set of states of those runs all of whose steps
satisfy the guard `ok`, so that one invariant rule serves both the results about
every run and the results about the runs that keep to a condition.
-/

namespace OsLabs
namespace Transition

variable {S A : Type*}

/-- States of the runs whose every step is allowed in the state it starts from. -/
inductive Reachable (init : S) (step : S → A → Option S) (ok : S → A → Prop) : S → Prop
  | init : Reachable init step ok init
  | step {s s' : S} (a : A) : Reachable init step ok s → ok s a → step s a = some s' →
      Reachable init step ok s'

variable {init : S} {step : S → A → Option S} {ok ok' : S → A → Prop}

/-- A property of the initial state that every allowed step keeps holds in every run. -/
theorem Reachable.invariant {P : S → Prop} (hinit : P init)
    (hstep : ∀ s a s', P s → ok s a → step s a = some s' → P s') {s : S}
    (h : Reachable init step ok s) : P s := by
  induction h with
  | init => exact hinit
  | step a _ hok hs ih => exact hstep _ a _ ih hok hs

/-- Runs under a stronger guard are runs under a weaker one. -/
theorem Reachable.mono (hok : ∀ s a, ok s a → ok' s a) {s : S}
    (h : Reachable init step ok s) : Reachable init step ok' s := by
  induction h with
  | init => exact .init
  | step a _ ha hs ih => exact .step a ih (hok _ _ ha) hs

/-- Execute a list of actions. -/
def exec (step : S → A → Option S) : List A → S → Option S
  | [], s => some s
  | a::as, s => (step s a).bind (exec step as)

theorem exec_append (as bs : List A) (s : S) :
    exec step (as ++ bs) s = (exec step as s).bind (exec step bs) := by
  induction as generalizing s with
  | nil => rfl
  | cons a as ih =>
    rw [List.cons_append,exec,exec]
    cases step s a with
    | none => rfl
    | some t => exact ih t

theorem exec_trans {as bs : List A} {s t u : S} (h : exec step as s = some t)
    (h' : exec step bs t = some u) : exec step (as ++ bs) s = some u := by
  rw [exec_append,h]
  exact h'

/-- A list of actions that are allowed whatever the state is a run. -/
theorem reachable_of_exec {as : List A} {s s' : S} (h : Reachable init step ok s)
    (hok : ∀ a ∈ as, ∀ t, ok t a) (he : exec step as s = some s') :
    Reachable init step ok s' := by
  induction as generalizing s with
  | nil =>
    obtain rfl : s = s' := by simpa [exec] using he
    exact h
  | cons a as ih =>
    cases hs : step s a with
    | none => simp [exec,hs] at he
    | some t =>
      have ht : exec step as t = some s' := by simpa [exec,hs] using he
      exact ih (.step a h (hok a (by simp) s) hs) (fun b hb => hok b (by simp [hb])) ht

/-- The state after a list of actions that can be executed. -/
def final (step : S → A → Option S) (as : List A) (s : S) (h : (exec step as s).isSome = true) : S :=
  (exec step as s).get h

theorem reachable_final {as : List A} {s : S} {h : (exec step as s).isSome = true}
    (hs : Reachable init step ok s) (hok : ∀ a ∈ as, ∀ t, ok t a) :
    Reachable init step ok (final step as s h) :=
  reachable_of_exec hs hok (Option.some_get h).symm

/-- Every action of the list passes a test in the state it starts from. -/
def checked (step : S → A → Option S) (test : S → A → Bool) : List A → S → Bool
  | [], _ => true
  | a::as, s => test s a && (step s a).all (checked step test as)

theorem reachable_final_of_checked {test : S → A → Bool} (htest : ∀ s a, test s a = true → ok s a)
    {as : List A} {s : S} {h : (exec step as s).isSome = true} (hs : Reachable init step ok s)
    (hc : checked step test as s = true) : Reachable init step ok (final step as s h) := by
  have he : ∀ {as s s'}, Reachable init step ok s → checked step test as s = true →
      exec step as s = some s' → Reachable init step ok s' := by
    intro as
    induction as with
    | nil =>
      intro s s' hs _ he
      obtain rfl : s = s' := by simpa [exec] using he
      exact hs
    | cons a as ih =>
      intro s s' hs hc he
      obtain ⟨ha,hc⟩ := Bool.and_eq_true_iff.mp hc
      cases hst : step s a with
      | none => simp [exec,hst] at he
      | some t =>
        rw [hst] at hc
        exact ih (.step a hs (htest s a ha) hst) hc (by simpa [exec,hst] using he)
  exact he hs hc (Option.some_get h).symm

/-- Every action of the list is allowed in the state it starts from. -/
def Allowed (step : S → A → Option S) (ok : S → A → Prop) : List A → S → Prop
  | [], _ => True
  | a::as, s => ok s a ∧ ∀ s', step s a = some s' → Allowed step ok as s'

/-- The property holds in every state that the list of actions passes through. -/
def Along (step : S → A → Option S) (P : S → Prop) : List A → S → Prop
  | [], s => P s
  | a::as, s => P s ∧ ∀ s', step s a = some s' → Along step P as s'

theorem Along.here {P : S → Prop} {as : List A} {s : S} (h : Along step P as s) : P s := by
  cases as with
  | nil => exact h
  | cons a as => exact h.1

theorem Along.of_exec {P : S → Prop} {as : List A} {s s' : S} (h : Along step P as s)
    (he : exec step as s = some s') : P s' := by
  induction as generalizing s with
  | nil =>
    obtain rfl : s = s' := by simpa [exec] using he
    exact h
  | cons a as ih =>
    obtain ⟨t,hst,hrest⟩ := Option.bind_eq_some_iff.mp he
    exact ih (h.2 t hst) hrest

theorem checked_iff_allowed [∀ s a, Decidable (ok s a)] {as : List A} {s : S} :
    checked step (fun s a => decide (ok s a)) as s = true ↔ Allowed step ok as s := by
  induction as generalizing s with
  | nil => exact ⟨fun _ => trivial,fun _ => rfl⟩
  | cons a as ih =>
    simp only [checked,Allowed,Bool.and_eq_true,decide_eq_true_eq]
    refine and_congr_right fun _ => ?_
    cases step s a with
    | none => simp
    | some t => simp [ih]

theorem exec_singleton (s : S) (a : A) : exec step [a] s = step s a := by
  cases hst : step s a <;> simp [exec,hst]

theorem step_of_final {s s' : S} {a : A} {hs : (exec step [a] s).isSome = true}
    (h : s' = final step [a] s hs) : step s a = some s' := by
  refine (exec_singleton s a).symm.trans ?_
  rw [h]
  exact (Option.some_get hs).symm

theorem Reachable.next {s : S} (h : Reachable init step ok s) (a : A) (ha : ok s a)
    (hs : (exec step [a] s).isSome = true) : Reachable init step ok (final step [a] s hs) :=
  .step a h ha (step_of_final rfl)

end Transition
end OsLabs
