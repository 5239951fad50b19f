import Mathlib.Tactic

/-!
# Weakest liberal preconditions

A program that reads and writes a state and that may stop without returning (a failed
assertion, an exit, undefined behaviour) is an element of `StateT σ Option α`. `Wlp m s Q` says
that whenever `m` returns from the state `s`, the result and the final state satisfy `Q`. Each
way to build a program has its rule, and a function is used through its own specification and
`Wlp.mono`.
-/

namespace OsLabs

variable {σ α β : Type}

theorem guard_of_true {c : Prop} [Decidable c] (h : c) :
    (guard c : StateT σ Option Unit) = pure () := by
  rw [guard,if_pos h]

/-- If `m` returns from `s`, then `Q` holds of the result and the state it leaves. -/
def Wlp (m : StateT σ Option α) (s : σ) (Q : α → σ → Prop) : Prop :=
  ∀ a t, m.run s = some (a,t) → Q a t

namespace Wlp

theorem mono {m : StateT σ Option α} {s : σ} {Q R : α → σ → Prop} (h : Wlp m s Q)
    (hQR : ∀ a t, Q a t → R a t) : Wlp m s R :=
  fun a t ht => hQR a t (h a t ht)

theorem and {m : StateT σ Option α} {s : σ} {Q R : α → σ → Prop} (hQ : Wlp m s Q)
    (hR : Wlp m s R) : Wlp m s (fun a t => Q a t ∧ R a t) :=
  fun a t ht => ⟨hQ a t ht,hR a t ht⟩

theorem pure_iff {a : α} {s : σ} {Q : α → σ → Prop} :
    Wlp (pure a : StateT σ Option α) s Q ↔ Q a s := by
  constructor
  · intro h
    exact h a s rfl
  · intro h b t ht
    cases ht
    exact h

theorem bind_iff {m : StateT σ Option α} {f : α → StateT σ Option β} {s : σ} {Q : β → σ → Prop} :
    Wlp (m >>= f) s Q ↔ Wlp m s (fun a t => Wlp (f a) t Q) := by
  constructor
  · intro h a t ha b u hb
    refine h b u ?_
    rw [StateT.run_bind,ha]
    exact hb
  · intro h b u hb
    rw [StateT.run_bind] at hb
    cases hm : m.run s with
    | none => rw [hm] at hb; cases hb
    | some p => rw [hm] at hb; exact h p.1 p.2 hm b u hb

/-- A program of the monad itself, lifted by a function that is defined for any monad above it. -/
theorem liftM_iff {m : StateT σ Option α} {s : σ} {Q : α → σ → Prop} :
    Wlp (liftM m : StateT σ Option α) s Q ↔ Wlp m s Q := Iff.rfl

theorem get_iff {s : σ} {Q : σ → σ → Prop} :
    Wlp (get : StateT σ Option σ) s Q ↔ Q s s := by
  constructor
  · intro h
    exact h s s rfl
  · intro h b t ht
    cases ht
    exact h

theorem modify_iff {f : σ → σ} {s : σ} {Q : PUnit → σ → Prop} :
    Wlp (modify f : StateT σ Option PUnit) s Q ↔ Q ⟨⟩ (f s) := by
  constructor
  · intro h
    exact h ⟨⟩ (f s) rfl
  · intro h b t ht
    cases ht
    exact h

theorem lift_iff {o : Option α} {s : σ} {Q : α → σ → Prop} :
    Wlp (StateT.lift o : StateT σ Option α) s Q ↔ ∀ a, o = some a → Q a s := by
  constructor
  · intro h a ha
    refine h a s ?_
    rw [StateT.run_lift,ha]
    rfl
  · intro h a t ht
    rw [StateT.run_lift] at ht
    cases ho : o with
    | none => rw [ho] at ht; cases ht
    | some b => rw [ho] at ht; cases ht; exact h a ho

theorem guard_iff {c : Prop} [Decidable c] {s : σ} {Q : Unit → σ → Prop} :
    Wlp (guard c : StateT σ Option Unit) s Q ↔ (c → Q () s) := by
  by_cases hc : c
  · rw [guard_of_true hc,pure_iff]
    exact ⟨fun h _ => h,fun h => h hc⟩
  · have he : (guard c : StateT σ Option Unit) = failure := by rw [guard,if_neg hc]
    rw [he]
    constructor
    · intro _ h
      exact absurd h hc
    · intro _ a t ht
      cases ht

theorem of_failure {s : σ} {Q : α → σ → Prop} : Wlp (failure : StateT σ Option α) s Q := by
  intro a t ht
  cases ht

theorem ite_iff {c : Prop} [Decidable c] {m n : StateT σ Option α} {s : σ} {Q : α → σ → Prop} :
    Wlp (if c then m else n) s Q ↔ (c → Wlp m s Q) ∧ (¬c → Wlp n s Q) := by
  by_cases hc : c <;> simp [hc]

end Wlp

/-- Two programs have the same run if their parts have. -/
theorem run_bind_congr {m m' : StateT σ Option α} {f g : α → StateT σ Option β} {s : σ}
    (hm : m.run s = m'.run s) (hf : Wlp m' s fun a t => (f a).run t = (g a).run t) :
    (m >>= f).run s = (m' >>= g).run s := by
  rw [StateT.run_bind,StateT.run_bind,hm]
  cases hr : m'.run s with
  | none => rfl
  | some p => exact hf p.1 p.2 hr

/-- The program leaves the state as it is. -/
def Keeps (m : StateT σ Option α) : Prop := ∀ s, Wlp m s fun _ t => t = s

namespace Keeps

theorem pure (a : α) : Keeps (pure a : StateT σ Option α) := fun _ => Wlp.pure_iff.mpr rfl

theorem get : Keeps (get : StateT σ Option σ) := fun _ => Wlp.get_iff.mpr rfl

theorem lift (o : Option α) : Keeps (StateT.lift o : StateT σ Option α) :=
  fun _ => Wlp.lift_iff.mpr fun _ _ => rfl

theorem guard (c : Prop) [Decidable c] : Keeps (guard c : StateT σ Option Unit) :=
  fun _ => Wlp.guard_iff.mpr fun _ => rfl

theorem failure : Keeps (failure : StateT σ Option α) := fun _ => Wlp.of_failure

theorem bind {m : StateT σ Option α} {f : α → StateT σ Option β} (hm : Keeps m)
    (hf : ∀ a, Keeps (f a)) : Keeps (m >>= f) := by
  intro s
  rw [Wlp.bind_iff]
  refine (hm s).mono ?_
  rintro a t rfl
  exact hf a t

theorem ite {c : Prop} [Decidable c] {m n : StateT σ Option α} (hm : Keeps m) (hn : Keeps n) :
    Keeps (if c then m else n) := by
  split
  · exact hm
  · exact hn

end Keeps

/-- The program leaves a part of the state as it is. -/
def Fixes {τ : Type} (f : σ → τ) (m : StateT σ Option α) : Prop := ∀ s, Wlp m s fun _ t => f t = f s

namespace Fixes

variable {τ : Type} {f : σ → τ}

theorem of_keeps {m : StateT σ Option α} (h : Keeps m) : Fixes f m :=
  fun s => (h s).mono fun _ _ ht => congrArg f ht

theorem pure (a : α) : Fixes f (pure a : StateT σ Option α) := of_keeps (Keeps.pure a)

theorem modify {g : σ → σ} (h : ∀ s, f (g s) = f s) : Fixes f (modify g : StateT σ Option PUnit) :=
  fun s => Wlp.modify_iff.mpr (h s)

theorem bind {m : StateT σ Option α} {k : α → StateT σ Option β} (hm : Fixes f m)
    (hk : ∀ a, Fixes f (k a)) : Fixes f (m >>= k) := by
  intro s
  rw [Wlp.bind_iff]
  refine (hm s).mono fun a t ht => ?_
  rw [← ht]
  exact hk a t

theorem ite {c : Prop} [Decidable c] {m n : StateT σ Option α} (hm : Fixes f m) (hn : Fixes f n) :
    Fixes f (if c then m else n) := by
  split
  · exact hm
  · exact hn

end Fixes

/-! ## Programs that return -/

/-- The program returns. -/
def Returns (m : StateT σ Option α) (s : σ) : Prop := ∃ a t, m.run s = some (a,t)

/-- The program returns, and `Q` holds of the result and the state it leaves. -/
def Total (m : StateT σ Option α) (s : σ) (Q : α → σ → Prop) : Prop :=
  ∃ a t, m.run s = some (a,t) ∧ Q a t

/-- A program that can reach no state does not return. -/
theorem Wlp.not_returns {m : StateT σ Option α} {s : σ} (h : Wlp m s fun _ _ => False) :
    ¬Returns m s :=
  fun ⟨a,t,hr⟩ => h a t hr

namespace Returns

theorem pure (a : α) (s : σ) : Returns (pure a : StateT σ Option α) s := ⟨a,s,rfl⟩

theorem get (s : σ) : Returns (get : StateT σ Option σ) s := ⟨s,s,rfl⟩

theorem modify (f : σ → σ) (s : σ) : Returns (modify f : StateT σ Option PUnit) s := ⟨⟨⟩,f s,rfl⟩

theorem lift {o : Option α} {a : α} (h : o = some a) (s : σ) :
    Returns (StateT.lift o : StateT σ Option α) s := by
  refine ⟨a,s,?_⟩
  rw [StateT.run_lift,h]
  rfl

theorem guard {c : Prop} [Decidable c] (h : c) (s : σ) :
    Returns (guard c : StateT σ Option Unit) s := by
  rw [guard_of_true h]
  exact ⟨(),s,rfl⟩

/-- The rest returns from every state that the first part can leave. -/
theorem bind {m : StateT σ Option α} {f : α → StateT σ Option β} {s : σ} (hm : Returns m s)
    (hf : Wlp m s fun a t => Returns (f a) t) : Returns (m >>= f) s := by
  obtain ⟨a,t,hr⟩ := hm
  obtain ⟨b,u,hb⟩ := hf a t hr
  refine ⟨b,u,?_⟩
  rw [StateT.run_bind,hr]
  exact hb

theorem ite {c : Prop} [Decidable c] {m n : StateT σ Option α} {s : σ} (hm : c → Returns m s)
    (hn : ¬c → Returns n s) : Returns (if c then m else n) s := by
  by_cases hc : c
  · rw [if_pos hc]
    exact hm hc
  · rw [if_neg hc]
    exact hn hc

/-- What holds if the program returns holds when it does. -/
theorem total {m : StateT σ Option α} {s : σ} {Q : α → σ → Prop} (hm : Returns m s)
    (hw : Wlp m s Q) : Total m s Q := by
  obtain ⟨a,t,hr⟩ := hm
  exact ⟨a,t,hr,hw a t hr⟩

end Returns

namespace Total

theorem returns {m : StateT σ Option α} {s : σ} {Q : α → σ → Prop} (h : Total m s Q) :
    Returns m s := by
  obtain ⟨a,t,hr,-⟩ := h
  exact ⟨a,t,hr⟩

/-- There is only one run. -/
theorem wlp {m : StateT σ Option α} {s : σ} {Q : α → σ → Prop} (h : Total m s Q) : Wlp m s Q := by
  obtain ⟨a,t,hr,hq⟩ := h
  intro b u hb
  cases hr.symm.trans hb
  exact hq

theorem mono {m : StateT σ Option α} {s : σ} {Q R : α → σ → Prop} (h : Total m s Q)
    (hQR : ∀ a t, Q a t → R a t) : Total m s R := by
  obtain ⟨a,t,hr,hq⟩ := h
  exact ⟨a,t,hr,hQR a t hq⟩

/-- A program that returns has the properties it has whenever it returns. -/
theorem and_wlp {m : StateT σ Option α} {s : σ} {Q R : α → σ → Prop} (h : Total m s Q)
    (hR : Wlp m s R) : Total m s (fun a t => Q a t ∧ R a t) := by
  obtain ⟨a,t,hr,hq⟩ := h
  exact ⟨a,t,hr,hq,hR a t hr⟩

theorem pure {a : α} {s : σ} {Q : α → σ → Prop} (h : Q a s) :
    Total (pure a : StateT σ Option α) s Q := ⟨a,s,rfl,h⟩

theorem get {s : σ} {Q : σ → σ → Prop} (h : Q s s) : Total (get : StateT σ Option σ) s Q :=
  ⟨s,s,rfl,h⟩

theorem modify {f : σ → σ} {s : σ} {Q : PUnit → σ → Prop} (h : Q ⟨⟩ (f s)) :
    Total (modify f : StateT σ Option PUnit) s Q := ⟨⟨⟩,f s,rfl,h⟩

theorem lift {o : Option α} {a : α} {s : σ} {Q : α → σ → Prop} (ho : o = some a) (h : Q a s) :
    Total (StateT.lift o : StateT σ Option α) s Q := by
  refine (Returns.lift ho s).total (Wlp.lift_iff.mpr fun b hb => ?_)
  obtain rfl : a = b := Option.some.inj (ho.symm.trans hb)
  exact h

theorem guard {c : Prop} [Decidable c] {s : σ} {Q : Unit → σ → Prop} (hc : c) (h : Q () s) :
    Total (guard c : StateT σ Option Unit) s Q :=
  (Returns.guard hc s).total (Wlp.guard_iff.mpr fun _ => h)

theorem bind {m : StateT σ Option α} {f : α → StateT σ Option β} {s : σ} {Q : β → σ → Prop}
    (h : Total m s fun a t => Total (f a) t Q) : Total (m >>= f) s Q := by
  obtain ⟨a,t,hr,b,u,hb,hq⟩ := h
  refine ⟨b,u,?_,hq⟩
  rw [StateT.run_bind,hr]
  exact hb

end Total
end OsLabs
