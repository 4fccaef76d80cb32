import GrokBuild.Lib.StepRun
import GrokBuild.Scheduler.Actor

/-!
# Versions identify transitions

Every commit moves the clock forward, and a transition is committed at the version its
notifications carry. So two transitions that were both committed never share a version. The
exception is a durable tombstone that was published but whose acknowledgement did not arrive:
its version is not committed, and the next transition takes it again.
-/

namespace GrokBuild.Scheduler

variable {G : Type} {uuid : ℕ → G}

namespace Ledger

end Ledger

namespace Ledger

variable {l : Ledger G} {r : SchedulerReservation G}

variable [DecidableEq G]

end Ledger

namespace SchedulerActor

/-! ## The invariant of the actor -/

variable {s : SchedulerActor G}

variable [DecidableEq G]

/-! ## One lemma for each operation -/

end SchedulerActor

/-! ## Runs -/

namespace Ledger

variable {l : Ledger G}

end Ledger

end GrokBuild.Scheduler
