import OsLabs.SchedulerInvariant

/-!
# The history of a scheduler

What the recorded history says about the present: which instance owns an identifier,
that no event belongs to an instance of the future, and which call is in progress.
Every move adds events of the running instance only.
-/

namespace OsLabs
namespace Scheduler

open ThreadModel Sched

/-- A property of every event of a history, newest first, and of what happened before it. -/
def Always (P : Event → List Event → Prop) (h : List Event) : Prop :=
  ∀ e older, (e::older) <:+ h → P e older

theorem always_nil {P : Event → List Event → Prop} : Always P [] := by
  intro e older h
  simp at h

theorem always_cons {P : Event → List Event → Prop} {e : Event} {h : List Event} :
    Always P (e::h) ↔ P e h ∧ Always P h := by
  constructor
  · intro ha
    exact ⟨ha e h List.suffix_rfl,fun e' o hs => ha e' o (hs.trans (List.suffix_cons e h))⟩
  · rintro ⟨he,ha⟩ e' o hs
    rcases List.suffix_cons_iff.mp hs with hs | hs
    · cases hs; exact he
    · exact ha e' o hs

/-- Events that the property does not speak of can be added. -/
theorem Always.append {P : Event → List Event → Prop} {n h : List Event} (ha : Always P h)
    (hn : ∀ e ∈ n, ∀ older, P e older) : Always P (n ++ h) := by
  induction n with
  | nil => exact ha
  | cons e n ih =>
    exact always_cons.mpr ⟨hn e (by simp) _,ih fun e' he' => hn e' (by simp [he'])⟩

/-- The instance whose own code or call an event belongs to. -/
def actor : Event → Option Inst
  | .call i _ _ | .ret i _ _ _ | .own i | .exited i _ | .slept i _ => some i
  | .acquired i _ | .passed i _ | .released i _ | .killed i _ => some i
  | .created _ | .woken _ _ _ | .discarded _ _ => none

def isCreated (t : Tid) : Event → Bool
  | .created i => i.tid == t
  | _ => false

/-- The instance that owns an identifier after the events of a history. -/
def ownerAt (t : Tid) (h : List Event) : Inst := ⟨t,h.countP (isCreated t)⟩

/-- What a move does to the history, the generations and the calls in progress. -/
structure Effect (σ σ' : Sched) (n : List Event) : Prop where
  history : σ'.history = n ++ σ.history
  actors : ∀ e ∈ n, ∀ i, actor e = some i → i = σ.self
  generation : ∀ t, (σ'.slots t).generation = (σ.slots t).generation + n.countP (isCreated t)
  pending : ∀ t c, (σ'.slots t).pending = some c →
    ((σ.slots t).pending = some c ∧ (σ'.slots t).generation = (σ.slots t).generation ∧
      ∀ e ∈ n, isCall (σ.inst t) e = false) ∨
    (t = σ.current ∧ (∃ enabled, n = [.call σ.self c enabled]) ∧
      (σ'.slots t).generation = (σ.slots t).generation)

/-- Moves that change neither generations nor other threads' calls. -/
theorem Effect.of_slots {σ σ' : Sched} {n : List Event} (hh : σ'.history = n ++ σ.history)
    (ha : ∀ e ∈ n, ∀ i, actor e = some i → i = σ.self) (hc : ∀ e ∈ n, ∀ t, isCreated t e = false)
    (hn : ∀ e ∈ n, ∀ t c, (σ'.slots t).pending = some c → isCall (σ.inst t) e = false)
    (hg : ∀ t, (σ'.slots t).generation = (σ.slots t).generation)
    (hp : ∀ t c, (σ'.slots t).pending = some c → (σ.slots t).pending = some c) :
    Effect σ σ' n where
  history := hh
  actors := ha
  generation t := by
    rw [hg,List.countP_eq_zero.mpr fun e he => by simp [hc e he t]]
    rfl
  pending t c ht := .inl ⟨hp t c ht,hg t,fun e he => hn e he t c ht⟩

theorem Move.effect {D : Set Defect} {σ σ' : Sched} (hm : Move D σ σ') (hi : Inv σ) :
    ∃ n, Effect σ σ' n := by
  cases hm with
  | call c enabled _ hn =>
    refine ⟨[.call σ.self c enabled],rfl,by simp [actor],fun t => ?_,fun t c' hc => ?_⟩
    · simp only [Sched.modify,record]
      split <;> simp [isCreated]
    · by_cases ht : t = σ.current
      · subst ht
        obtain rfl : c = c' := by simpa [Sched.modify,record] using hc
        exact .inr ⟨rfl,⟨enabled,rfl⟩,by simp [Sched.modify,record]⟩
      · refine .inl ⟨by simpa [Sched.modify,record,ht] using hc,by simp [Sched.modify,record,ht],?_⟩
        simpa [isCall,Sched.self] using Sched.inst_ne (Ne.symm ht)
  | own | passed | unlock =>
    exact ⟨[_],.of_slots rfl (by simp [actor]) (by simp [isCreated]) (by simp [isCall])
      (fun _ => rfl) (fun _ _ h => h)⟩
  | discard =>
    exact ⟨[_],.of_slots rfl (by simp [actor]) (by simp [isCreated]) (by simp [isCall])
      (fun _ => rfl) (fun _ _ h => h)⟩
  | lose | forget =>
    exact ⟨[],.of_slots rfl (by simp) (by simp) (by simp) (fun _ => rfl) (fun _ _ h => h)⟩
  | request | resume =>
    refine ⟨[],.of_slots rfl (by simp) (by simp) (by simp) (fun t => ?_) (fun t c h => ?_)⟩
    · simp only [Sched.modify]
      split <;> rfl
    · by_cases ht : t = σ.current <;> simpa [Sched.modify,ht] using h
  | refuse cv lock l v enabled _ hn _ _ =>
    refine ⟨[_,_],.of_slots rfl (by simp [actor]) (by simp [isCreated]) ?_ (fun _ => rfl)
      (fun _ _ h => h)⟩
    intro e he t c hc
    have hp : (σ.slots t).pending = some c := hc
    have ht : t ≠ σ.current := by
      rintro rfl
      exact absurd (hn.symm.trans hp) (by simp)
    simp only [List.mem_cons,List.not_mem_nil,or_false] at he
    rcases he with rfl | rfl
    · rfl
    · simpa [isCall,Sched.self] using Sched.inst_ne (Ne.symm ht)
  | wake waker queue l rest hq _ =>
    refine ⟨_,.of_slots rfl ?_ ?_ ?_ (fun _ => rfl) (fun _ _ h => h)⟩ <;>
    · intro e he
      simp only [List.mem_reverse,List.mem_map] at he
      obtain ⟨u,_,rfl⟩ := he
      simp [actor,isCreated,isCall]
  | ret | free =>
    refine ⟨[_],.of_slots rfl (by simp [actor,Sched.self,Sched.inst,Sched.setLock])
      (by simp [isCreated]) (by simp [isCall]) (fun t => ?_) (fun t c h => ?_)⟩
    · by_cases ht : t = σ.current <;> simp [Sched.ret,Sched.modify,record,Sched.setLock,ht]
    · by_cases ht : t = σ.current
      · simp [Sched.ret,Sched.modify,record,Sched.setLock,ht] at h
      · simpa [Sched.ret,Sched.modify,record,Sched.setLock,ht] using h
  | acquire =>
    refine ⟨[_,_],.of_slots rfl (by simp [actor,Sched.self,Sched.inst,Sched.setLock,record]) (by simp [isCreated]) (by simp [isCall])
      (fun t => ?_) (fun t c h => ?_)⟩
    · by_cases ht : t = σ.current <;> simp [Sched.ret,Sched.modify,record,Sched.setLock,ht]
    · by_cases ht : t = σ.current
      · simp [Sched.ret,Sched.modify,record,Sched.setLock,ht] at h
      · simpa [Sched.ret,Sched.modify,record,Sched.setLock,ht] using h
  | kill tid hne _ _ _ _ _ =>
    refine ⟨[_],.of_slots rfl (by simp [actor]) (by simp [isCreated]) (by simp [isCall])
      (fun t => ?_) (fun t c h => ?_)⟩
    · simp only [Sched.modify,record]
      split <;> rfl
    · by_cases ht : t = tid <;> simpa [Sched.modify,record,ht] using h
  | switch x hx _ _ _ =>
    have hp : ∀ t, ((σ.switch x).slots t).pending = (σ.slots t).pending := by
      intro t
      simp only [Sched.switch]
      split
      · rfl
      · split <;> rfl
    have hg : ∀ t, ((σ.switch x).slots t).generation = (σ.slots t).generation := by
      intro t
      simp only [Sched.switch]
      split
      · rfl
      · split <;> rfl
    cases hq : σ.me.waitQueue with
    | none =>
      exact ⟨[],.of_slots (by simp [Sched.switch,hq]) (by simp) (by simp) (by simp) hg
        (fun t c h => hp t ▸ h)⟩
    | some q =>
      exact ⟨[.slept σ.self q],.of_slots (by simp [Sched.switch,hq]) (by simp [actor])
        (by simp [isCreated]) (by simp [isCall]) hg (fun t c h => hp t ▸ h)⟩
  | exit marked next rest _ hn =>
    have hnc : next ≠ σ.current := by
      have hm : next ∈ σ.ready ++ σ.waits (.tWait σ.current) := by simp [hn]
      rcases List.mem_append.mp hm with hm | hm
      · exact hi.ne_current_of_ready hm
      · exact hi.ne_current_of_waiting hm
    have he : ∀ e ∈ ((σ.waits (.tWait σ.current)).map fun t =>
        Event.woken (σ.inst t) (.tWait σ.current) .threadExit).reverse ++ [.exited σ.self marked],
        e = .exited σ.self marked ∨ ∃ u, e = .woken (σ.inst u) (.tWait σ.current) .threadExit := by
      intro e he
      simp only [List.mem_append,List.mem_reverse,List.mem_map,List.mem_singleton] at he
      rcases he with ⟨u,_,rfl⟩ | rfl
      · exact .inr ⟨u,rfl⟩
      · exact .inl rfl
    refine ⟨((σ.waits (.tWait σ.current)).map fun t =>
        Event.woken (σ.inst t) (.tWait σ.current) .threadExit).reverse ++ [.exited σ.self marked],
      .of_slots (by simp [Sched.exit]) (fun e hm i ha => ?_) (fun e hm t => ?_)
      (fun e hm t c _ => ?_) (fun t => ?_) (fun t c h => ?_)⟩
    · rcases he e hm with rfl | ⟨u,rfl⟩
      · exact (Option.some.inj ha).symm
      · simp [actor] at ha
    · rcases he e hm with rfl | ⟨u,rfl⟩ <;> rfl
    · rcases he e hm with rfl | ⟨u,rfl⟩ <;> rfl
    · simp only [Sched.exit]
      split
      · rfl
      · split <;> rfl
    · by_cases ht : t = σ.current
      · simp [Sched.exit,ht,hnc.symm] at h
      · by_cases htn : t = next
        · simpa [Sched.exit,htn] using h
        · simpa [Sched.exit,htn,ht] using h
  | create id rest _ ha _ _ =>
    refine ⟨[.created ⟨id,(σ.slots id).generation+1⟩],rfl,by simp [actor],fun t => ?_,fun t c h => ?_⟩
    · by_cases ht : t = id
      · simp [Sched.create,ht,isCreated]
      · have ht' : id ≠ t := Ne.symm ht
        simp [Sched.create,ht,isCreated,ht']
    · by_cases ht : t = id
      · simp [Sched.create,ht] at h
      · exact .inl ⟨by simpa [Sched.create,ht] using h,by simp [Sched.create,ht],by simp [isCall]⟩

/-- What the history says about the present. -/
structure HistoryInv (σ : Sched) : Prop where
  past : ∀ e ∈ σ.history, ∀ i, actor e = some i → i.generation ≤ (σ.slots i.tid).generation
  counted : ∀ t, ownerAt t σ.history = σ.inst t
  matched : ∀ t c, (σ.slots t).pending = some c → ∃ enabled older,
    σ.history = inCall (σ.inst t) σ.history ++ .call (σ.inst t) c enabled :: older

theorem Effect.historyInv {σ σ' : Sched} {n : List Event} (he : Effect σ σ' n)
    (h : HistoryInv σ) : HistoryInv σ' where
  past e hm i ha := by
    rw [he.history] at hm
    have hle : ∀ t, (σ.slots t).generation ≤ (σ'.slots t).generation := fun t => by
      rw [he.generation]; exact Nat.le_add_right _ _
    rcases List.mem_append.mp hm with hm | hm
    · obtain rfl := he.actors e hm i ha
      exact hle _
    · exact (h.past e hm i ha).trans (hle _)
  counted t := by
    have hc : (σ.slots t).generation = σ.history.countP (isCreated t) :=
      (congrArg Inst.generation (h.counted t)).symm
    simp only [ownerAt,Sched.inst,he.history,he.generation,List.countP_append,hc]
    rw [Nat.add_comm]
  matched t c hc := by
    rcases he.pending t c hc with ⟨hp,hg,hn⟩ | ⟨rfl,⟨enabled,hnew⟩,hg⟩
    · obtain ⟨enabled,older,ho⟩ := h.matched t c hp
      have hi : σ'.inst t = σ.inst t := by simp [Sched.inst,hg]
      refine ⟨enabled,older,?_⟩
      rw [hi,he.history,inCall_append hn,List.append_assoc,← ho]
    · have hi : σ'.inst σ.current = σ.self := by simp [Sched.inst,Sched.self,hg]
      refine ⟨enabled,σ.history,?_⟩
      rw [hi,he.history,hnew]
      simp [inCall]

/-- What holds of every scheduler, whatever its defects. -/
structure Sound (D : Set Defect) (σ : Sched) : Prop extends Inv σ, LockInv σ, HistoryInv σ where
  settled : Settled D σ

theorem Move.sound {D : Set Defect} {σ σ' : Sched} (hm : Move D σ σ') (h : Sound D σ) :
    Sound D σ' where
  toInv := hm.inv h.toInv
  toLockInv := hm.lockInv h.toInv h.toLockInv
  toHistoryInv := (hm.effect h.toInv).elim fun _ he => he.historyInv h.toHistoryInv
  settled := hm.settled h.toInv h.toLockInv h.settled

theorem Moves.sound {D : Set Defect} {σ σ' : Sched} (hm : Moves D σ σ') (h : Sound D σ) :
    Sound D σ' := by
  induction hm with
  | refl => exact h
  | tail _ hm ih => exact hm.sound ih

end Scheduler
end OsLabs
