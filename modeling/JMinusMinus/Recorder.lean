import JMinusMinus.Problem

/-!
# Recorders

A recorder stores the first reports about a unit, as many as its budget lets through, and counts the
others. A phase goes on from the log of what is stored, and what it adds is recorded when it ends.
Reports that were only counted make a unit fail as those that are stored do.
-/

namespace JMinusMinus

/-- Reports with a limit on how many are kept. -/
structure Recorder where
  budget : Nat
  /-- The reports that are stored, in the order they were made. -/
  entries : List (Report Problem) := []
  /-- How many more were made. -/
  suppressed : Nat := 0
deriving DecidableEq

namespace Recorder

/-- Keeps a report while there is room, and counts it otherwise. -/
def report (d : Recorder) (r : Report Problem) : Recorder :=
  if d.entries.length < d.budget then { d with entries := d.entries ++ [r] }
  else { d with suppressed := d.suppressed + 1 }

/-- Whether anything was reported. -/
def failed (d : Recorder) : Bool := !d.entries.isEmpty || 0 < d.suppressed

/-- How many reports were made, stored or not. -/
def count (d : Recorder) : Nat := d.entries.length + d.suppressed

/-- The log that a phase goes on from. -/
def log (d : Recorder) : Log Problem := ⟨d.entries.reverse⟩

/-- Records the reports that a phase added to the log it went on from. -/
def record (d : Recorder) (log : Log Problem) : Recorder :=
  (log.entries.drop d.entries.length).foldl report d

/-- The reports that were kept, as diagnostics of a file. -/
def diagnostics (d : Recorder) (file : String) : List Diagnostic :=
  d.entries.map (Report.diagnostic file)

end Recorder

end JMinusMinus
