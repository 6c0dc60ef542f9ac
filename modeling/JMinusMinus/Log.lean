/-!
# Logs

A log holds everything that was reported about one unit, latest first. How many reports are
shown is decided when the log is read: a budget keeps the earliest ones. So a budget never
changes what is found, only how much of it is shown.
-/

namespace JMinusMinus

/-- A problem and the line it was found on. -/
structure Report (ε : Type) where
  line : Nat
  problem : ε
deriving DecidableEq

/-- Reports in the order they were made, latest first. -/
structure Log (ε : Type) where
  /-- The reports, latest first. -/
  latest : List (Report ε) := []
deriving DecidableEq

namespace Log

variable {ε : Type}

/-- Adds a report. -/
def add (log : Log ε) (line : Nat) (problem : ε) : Log ε := ⟨⟨line, problem⟩ :: log.latest⟩

/-- The reports in the order they were made. -/
def entries (log : Log ε) : List (Report ε) := log.latest.reverse

/-- The first reports, as many as are shown. -/
def shown (log : Log ε) (budget : Nat) : List (Report ε) := log.entries.take budget

/-- How many reports there are. -/
def count (log : Log ε) : Nat := log.latest.length

/-- Whether anything was reported. -/
def failed (log : Log ε) : Bool := !log.latest.isEmpty

theorem count_eq_length_entries (log : Log ε) : log.count = log.entries.length := by
  simp [count, entries]

end Log

end JMinusMinus
