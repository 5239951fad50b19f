import OsLabs.Draining
import OsLabs.RequestSections

/-!
# The requests of the web server make progress

A signal that is sent after the evictor has looked up the entry and before it waits is lost,
and then nobody gets `cache_access` any more. Without a lost signal every request comes to
its end, in any order of the sections.
-/

namespace OsLabs
namespace RequestProgress

open CacheModel CacheInvariant ServerModel ServedFiles Transition Draining
open RequestSections

section sections

variable {files : File → FileData} {w : Worker} {n : ℕ} {s s' : State} {a : ServerModel.Action}
  {entry e : Entry} {pc : Pc} {t : Server}

/-! ### Lost signals -/

/-- The evictor waits, or is about to wait, for an entry whose signal has been sent. -/
def Lost (s : State) : Prop := ∃ w entry, Evicts s.server w entry ∧ s.wait ≠ .woken ∧ entry ∈ s.signalled

/-- The action is about a request that has begun. -/
def GoesOn (s : State) (a : ServerModel.Action) : Prop := s.server.workers (worker a) ≠ .idle

end sections

variable {files : File → FileData}

end RequestProgress
end OsLabs
