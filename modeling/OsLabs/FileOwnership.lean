import OsLabs.CacheMembers
import OsLabs.RequestClosing

/-!
# Who owns the data of a file

A request allocates a structure, a name and, when it reads a file that is not empty, a buffer.
Either it frees all of them, or the cache takes them. A request that finds its file in the
cache frees its structure only, and one whose file is too large for the cache frees nothing.
-/

namespace OsLabs
namespace FileOwnership

open CacheModel CacheInvariant CacheMembers ServerModel ServedFiles RequestModel RequestClosing
open Transition

variable {requests : File → Request} {maxCacheSize : BitVec 32} {s s' : State} {w : Worker}

/-- The object is in the cache, or was evicted from it. -/
def Cached (s : State) (n : File) : Prop := n ∈ table s.server.cache ∨ Freed s.server.cache n

/-- The events that allocate or free a block. -/
def isBlock : Event → Bool
  | .allocated _ _ | .freed _ _ => true
  | _ => false

def blocks (l : List Event) : List Event := l.filter isBlock

/-- The events about the blocks of the object `n`. -/
def account (n : File) (l : List Event) : List Event := (blocks l).filter (number · = n)

/-- The account of an object all of whose blocks are freed. -/
def disposal (n : File) (size : BitVec 32) : List Event :=
  fileDataInit n ++ allocateBuf n size ++ fileDataFree n size

theorem number_fileDataInit {n : File} : ∀ e ∈ fileDataInit n, number e = n := by
  simp [fileDataInit,number]

theorem number_allocateBuf {n : File} {size : BitVec 32} : ∀ e ∈ allocateBuf n size, number e = n := by
  unfold allocateBuf
  split <;> simp [number]

theorem mem_account {n : File} {e : Event} {l : List Event} (hb : isBlock e = true)
    (hn : number e = n) : e ∈ account n l ↔ e ∈ l := by
  simp [account,blocks,hb,hn]

/-- The events of a step are about one object. -/
theorem account_append {l l' events : List Event} {m : File} (hl : blocks l' = blocks l ++ events)
    (hm : ∀ e ∈ events, number e = m) (n : File) :
    account n l' = account n l ++ if n = m then events else [] := by
  rw [account,hl,List.filter_append]
  refine congrArg (account n l ++ ·) ?_
  split
  · rename_i hn
    exact List.filter_eq_self.mpr fun e he => by simpa [hn] using hm e he
  · rename_i hn
    refine List.filter_eq_nil_iff.mpr fun e he => ?_
    have hne : m ≠ n := fun hmn => hn hmn.symm
    simpa [hm e he] using hne

/-- The object that the worker has to free or to hand over. -/
def holds (cached : Bool) : Pc → Option File
  | .sending data => if cached then none else some data
  | pc => owns pc

/-- The account of the object that the worker holds. -/
def due (requests : File → Request) : Pc → List Event
  | .requested n | .missed n => fileDataInit n
  | .read n | .evicting n _ _ | .sending n =>
    fileDataInit n ++ allocateBuf n (fileData requests n).fileSize
  | _ => []

theorem workers_setWorker (t : Server) (w : Worker) (pc : Pc) : (t.setWorker w pc).workers w = pc :=
  Function.update_self ..

theorem busy_of_holds {cached : Bool} {pc : Pc} {n : File} (h : holds cached pc = some n) :
    pc ≠ .idle := by
  rintro rfl
  cases h

theorem number_due {cached : Bool} {pc : Pc} {n : File} (h : holds cached pc = some n) :
    ∀ e ∈ due requests pc, number e = n := by
  have hread : ∀ e ∈ fileDataInit n ++ allocateBuf n (fileData requests n).fileSize, number e = n :=
    fun e he => (List.mem_append.mp he).elim (number_fileDataInit e) (number_allocateBuf e)
  cases pc with
  | requested | missed =>
    obtain rfl := Option.some.inj h
    exact number_fileDataInit
  | read | evicting =>
    obtain rfl := Option.some.inj h
    exact hread
  | sending data =>
    cases cached with
    | true => cases h
    | false =>
      obtain rfl := Option.some.inj h
      exact hread
  | idle | chosen | sent | signalling => cases h

/-- What a step does with the objects. -/
inductive Deal (requests : File → Request) (cached : Bool) (forgets : Prop) (s : State) (w : Worker)
    (s' : State) : Prop
  | nothing (h : holds cached (s.server.workers w) = none)
      (h' : holds cached (s'.server.workers w) = none)
      (hn : s'.server.nextFile = s.server.nextFile) (hl : blocks s'.log = blocks s.log)
  | begins (h : s.server.workers w = .idle)
      (h' : holds cached (s'.server.workers w) = some s.server.nextFile)
      (hr : s'.request w = s.server.nextFile) (hn : s'.server.nextFile = s.server.nextFile+1)
      (hl : blocks s'.log = blocks s.log ++ due requests (s'.server.workers w))
  | refused (h : s.server.workers w = .idle) (h' : s'.server.workers w = .idle)
      (hn : s'.server.nextFile = s.server.nextFile+1)
      (hl : blocks s'.log = blocks s.log ++ disposal s.server.nextFile 0)
  | keeps (n : File) (events : List Event) (h : holds cached (s.server.workers w) = some n)
      (h' : holds cached (s'.server.workers w) = some n)
      (hn : s'.server.nextFile = s.server.nextFile) (hl : blocks s'.log = blocks s.log ++ events)
      (hdue : due requests (s'.server.workers w) = due requests (s.server.workers w) ++ events)
  | parts (n : File) (events : List Event) (h : holds cached (s.server.workers w) = some n)
      (h' : holds cached (s'.server.workers w) = none)
      (hn : s'.server.nextFile = s.server.nextFile) (hl : blocks s'.log = blocks s.log ++ events)
      (hev : ∀ e ∈ events, number e = n)
      (hplace : Cached s' n ∨ (∃ size, due requests (s.server.workers w) ++ events = disposal n size) ∨
        forgets ∧ .freed n .fileName ∉ events)

section Deals

variable {cached : Bool} {forgets : Prop} {data : File} {events : List Event} {t : Server}

end Deals

/-! ### The cache under the requests -/

/-- A step with a cache is a step of the server, or the use of an object that was freed. -/
theorem cachedStep_server (hs : cachedStep requests w s = some s') :
    runWorker (fileData requests) w s.server = some s'.server ∨
      failWorker w s.server = some s'.server ∨
      s'.server = { s.server with status := .undefined } ∧ ∃ data,
        serves (s.server.workers w) = some data := by
  have hgo : ∀ events, (runWorker (fileData requests) w s.server).map (s.emit events) = some s' →
      runWorker (fileData requests) w s.server = some s'.server := by
    intro events hm
    obtain ⟨t,hst,rfl⟩ := Option.map_eq_some_iff.mp hm
    exact hst
  unfold cachedStep at hs
  dsimp only at hs
  split at hs
  · rename_i hw
    obtain rfl := Option.some.inj hs
    unfold startRequest
    dsimp only
    cases requestInit (requests s.server.nextFile) with
    | error e => exact .inr (.inl (by simp only [failWorker,hw]; rfl))
    | ok name => exact .inl (by simp only [runWorker,hw]; rfl)
  · exact .inl (hgo _ hs)
  · split at hs
    · obtain ⟨t,hst,rfl⟩ := Option.map_eq_some_iff.mp hs
      exact .inr (.inl hst)
    · exact .inl (hgo _ hs)
  · exact .inl (hgo _ hs)
  · exact .inl (hgo _ hs)
  · rename_i data hw
    split at hs
    · obtain rfl := Option.some.inj hs
      exact .inr (.inr ⟨rfl,data,by rw [hw]; rfl⟩)
    · exact .inl (hgo _ hs)
  · rename_i data hw
    split at hs
    · obtain rfl := Option.some.inj hs
      exact .inr (.inr ⟨rfl,data,by rw [hw]; rfl⟩)
    · exact .inl (hgo _ hs)
  · rename_i data hw
    split at hs
    · obtain rfl := Option.some.inj hs
      exact .inr (.inr ⟨rfl,data,by rw [hw]; rfl⟩)
    · exact .inl (hgo _ hs)
  · obtain ⟨t,hst,rfl⟩ := Option.map_eq_some_iff.mp hs
    refine .inl (hst.trans ?_)
    split <;> rfl

theorem evicted_of_serves {files : File → FileData} {t : Server} {data : File}
    (h : serves (t.workers w) = some data) : evicted files t w = [] := by
  refine evicted_nil (fun d hd => ?_) fun d e en hd => ?_
  all_goals
    rw [hd] at h
    cases h

/-- The frame of a step, and the files that it leaves in the cache. -/
theorem cachedStep_frame (h : Core (fileData requests) s.server)
    (hs : cachedStep requests w s = some s') :
    Frame (fileData requests) s.server w s'.server ∧ ∀ f ∈ table s.server.cache,
      f ∈ table s'.server.cache ∨ f ∈ evicted (fileData requests) s.server w := by
  rcases cachedStep_server hs with hst | hst | ⟨ht,data,hserves⟩
  · exact ⟨runWorker_frame h hst,runWorker_kept h hst⟩
  · refine ⟨(failWorker_frame h hst).2,fun f hf => .inl ?_⟩
    unfold failWorker at hst
    split at hst
    · exact Option.some.inj hst ▸ hf
    · exact Option.some.inj hst ▸ hf
    · cases hst
  · rw [ht]
    exact ⟨h.stops (evicted_of_serves hserves) _,fun f hf => .inl hf⟩

/-- A worker holds the object of its own request, whose account is as far as the worker is, and
objects that have not come yet have no account. -/
structure Ledger (requests : File → Request) (cached : Bool) (s : State) : Prop where
  books : Books s
  core : cached = true → Core (fileData requests) s.server
  held : ∀ w n, holds cached (s.server.workers w) = some n →
    n = s.request w ∧ n < s.server.nextFile ∧ account n s.log = due requests (s.server.workers w)
  fresh : ∀ n, s.server.nextFile ≤ n → account n s.log = []

/-- Everything that a step does for the ledger. -/
structure Moves (requests : File → Request) (cached : Bool) (forgets : Prop) (s : State) (w : Worker)
    (s' : State) : Prop where
  turn : ∃ fails, Turn fails s w s'
  deal : Deal requests cached forgets s w s'
  core : cached = true → Core (fileData requests) s'.server
  mono : ∀ n, Cached s n → Cached s' n
  enters : ∀ n, Cached s' n → Cached s n ∨ holds cached (s.server.workers w) = some n

section Ledgers

variable {cached : Bool} {forgets : Prop} {n : File}

/-- The step changes the account of the object that the worker holds, or of a new one. -/
theorem Deal.account (h : Deal requests cached forgets s w s')
    (hw : holds cached (s.server.workers w) ≠ some n)
    (hn : n ≠ s.server.nextFile ∨ s'.server.nextFile ≤ s.server.nextFile) :
    account n s'.log = account n s.log := by
  have hnew : s'.server.nextFile = s.server.nextFile+1 → n ≠ s.server.nextFile := fun he =>
    hn.resolve_right (by rw [he]; exact Nat.not_succ_le_self _)
  cases h with
  | nothing _ _ _ hl => rw [FileOwnership.account,hl]; rfl
  | begins _ h' _ hn hl =>
    rw [account_append hl (number_due h'),if_neg (hnew hn),List.append_nil]
  | refused _ _ hn hl =>
    rw [account_append (m := s.server.nextFile) hl ?_,if_neg (hnew hn),List.append_nil]
    simp [disposal,fileDataInit,allocateBuf,fileDataFree,number]
  | keeps m events h h' _ hl hdue =>
    have hm : n ≠ m := fun hnm => hw (hnm ▸ h)
    have hev : ∀ e ∈ events, number e = m := fun e he =>
      number_due h' e (hdue ▸ List.mem_append_right _ he)
    rw [account_append hl hev,if_neg hm,List.append_nil]
  | parts m events h _ _ hl hev =>
    have hm : n ≠ m := fun hnm => hw (hnm ▸ h)
    rw [account_append hl hev,if_neg hm,List.append_nil]

theorem Deal.nextFile (h : Deal requests cached forgets s w s') :
    s.server.nextFile ≤ s'.server.nextFile := by
  cases h with
  | begins _ _ _ hn | refused _ _ hn => rw [hn]; exact Nat.le_succ _
  | nothing _ _ hn | keeps _ _ _ _ hn | parts _ _ _ _ hn => exact hn.ge

theorem Ledger.holds_ne (h : Ledger requests cached s) {v : Worker} (hv : v ≠ w)
    (hh : holds cached (s.server.workers v) = some n) :
    holds cached (s.server.workers w) ≠ some n := fun hw =>
  hv (h.books.distinct v w (busy_of_holds hh) (busy_of_holds hw)
    ((h.held v n hh).1.symm.trans (h.held w n hw).1))

theorem Ledger.moves (h : Ledger requests cached s) (hm : Moves requests cached forgets s w s') :
    Ledger requests cached s' := by
  obtain ⟨fails,hturn⟩ := hm.turn
  refine ⟨h.books.turn hturn,hm.core,fun v n hh => ?_,fun n hn => ?_⟩
  · by_cases hv : v = w
    · subst hv
      cases hm.deal with
      | nothing _ h' => rw [h'] at hh; cases hh
      | begins hi h' hr hn hl =>
        obtain rfl := Option.some.inj (h'.symm.trans hh)
        refine ⟨hr.symm,hn ▸ Nat.lt_succ_self _,?_⟩
        rw [account_append hl (number_due h'),if_pos rfl,h.fresh _ le_rfl]
        rfl
      | refused _ h' => rw [h'] at hh; cases hh
      | keeps m events h₀ h' hn hl hdue =>
        obtain rfl := Option.some.inj (h'.symm.trans hh)
        obtain ⟨hreq,hlt,hacc⟩ := h.held v m h₀
        have hev : ∀ e ∈ events, number e = m := fun e he =>
          number_due h' e (hdue ▸ List.mem_append_right _ he)
        refine ⟨?_,hn ▸ hlt,?_⟩
        · rw [hturn.request v (.inr (busy_of_holds h₀))]
          exact hreq
        · rw [account_append hl hev,if_pos rfl,hacc,hdue]
      | parts _ _ _ h' => rw [h'] at hh; cases hh
    · rw [hturn.others v hv] at hh ⊢
      obtain ⟨hreq,hlt,hacc⟩ := h.held v n hh
      refine ⟨?_,hlt.trans_le hm.deal.nextFile,?_⟩
      · rw [hturn.request v (.inl hv)]
        exact hreq
      · rw [hm.deal.account (h.holds_ne hv hh) (.inl hlt.ne)]
        exact hacc
  · have hle := hm.deal.nextFile.trans hn
    refine (hm.deal.account (fun hh => ?_) ?_).trans (h.fresh n hle)
    · exact absurd (h.held w n hh).2.1 (Nat.not_lt.mpr hle)
    · by_cases hself : n = s.server.nextFile
      · exact .inr (hself ▸ hn)
      · exact .inl hself

/-- Nobody holds the object, and its name was not freed. -/
structure Lost (cached : Bool) (n : File) (s : State) : Prop where
  old : n < s.server.nextFile
  uncached : ¬ Cached s n
  unheld : ∀ v, holds cached (s.server.workers v) ≠ some n
  allocated : .allocated n .fileName ∈ s.log
  unfreed : .freed n .fileName ∉ s.log

theorem Lost.moves (h : Lost cached n s) (hm : Moves requests cached forgets s w s') :
    Lost cached n s' := by
  obtain ⟨fails,hturn⟩ := hm.turn
  have hacc := hm.deal.account (h.unheld w) (.inl h.old.ne)
  refine ⟨h.old.trans_le hm.deal.nextFile,fun hc => ?_,fun v => ?_,?_,?_⟩
  · exact (hm.enters n hc).elim h.uncached (h.unheld w)
  · by_cases hv : v = w
    · subst hv
      cases hm.deal with
      | nothing _ h' | parts _ _ _ h' => rw [h']; simp
      | begins _ h' => rw [h']; simpa using h.old.ne'
      | refused _ h' => rw [h']; exact fun he => by cases he
      | keeps m _ h₀ h' => rw [h',← h₀]; exact h.unheld v
    · rw [hturn.others v hv]
      exact h.unheld v
  · rw [← mem_account (n := n) rfl rfl,hacc]
    exact (mem_account rfl rfl).mpr h.allocated
  · rw [← mem_account (n := n) rfl rfl,hacc]
    exact fun hmem => h.unfreed ((mem_account rfl rfl).mp hmem)

end Ledgers

end FileOwnership
end OsLabs
