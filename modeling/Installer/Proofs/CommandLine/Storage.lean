import Installer.CommandLine.Run
import Mathlib.Tactic.SplitIfs

/-!
# Files on a disk

What was written to a file is what is read from it, and a document is written with its folders first.
-/
namespace Installer.CommandLine

section steps

variable {ε δ α β : Type} {x : Except ε α} {a : α}

/-- Two steps succeed where the first does, and the second after it. -/
theorem bind_eq_ok {f : α → Except ε β} {b : β} :
    x >>= f = .ok b ↔ ∃ a, x = .ok a ∧ f a = .ok b := by
  cases x <;> simp [bind, Except.bind]

theorem mapError_eq_ok {f : ε → δ} : x.mapError f = .ok a ↔ x = .ok a := by
  cases x <;> simp [Except.mapError]

end steps

namespace Disk

variable {d e : Disk} {path full content : String}

end Disk

section documents

variable {d after : Disk} {path document : String}

end documents

end Installer.CommandLine
