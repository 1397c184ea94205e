import Installer.Compile.Directories

/-!
# Features in the document

Every feature refers to the components that were declared for it. Components without a feature go to
the default feature, which is added when it is needed and not declared. So is every feature that is
only referred to.
-/

namespace Installer.Compile

open Markup Schema

/-- The components of one feature, in the order in which they were made. -/
structure FeatureUse where
  feature : String
  components : List String
deriving DecidableEq

/-- The uses with one more component for a feature, letter case aside. -/
def addUse (feature component : String) : List FeatureUse → List FeatureUse
  | [] => [⟨feature, [component]⟩]
  | u :: us =>
      if Text.sameText u.feature feature then { u with components := u.components ++ [component] } :: us
      else u :: addUse feature component us

/-- The features for which components were declared, in the order of their first mention. -/
def featureUses (defaultFeature : String) (refs : List ComponentRef) : List FeatureUse :=
  refs.foldl
    (fun us r =>
      (if r.features.isEmpty then [defaultFeature] else r.features).foldl
        (fun us f => addUse f r.id us) us)
    []

/-- The components of a feature. -/
def usesOf (feature : String) (us : List FeatureUse) : List String :=
  ((us.find? fun u => Text.sameText u.feature feature).map (·.components)).getD []

def dropUse (feature : String) : List FeatureUse → List FeatureUse
  | [] => []
  | u :: us => if Text.sameText u.feature feature then us else u :: dropUse feature us

def componentRefElement (id : String) : Element :=
  (Element.named "ComponentRef").set "Id" id

/-- Features written so far: their elements, their identifiers, and the uses that no feature has
taken yet. -/
structure FeaturePart where
  elements : List Element := []
  assigned : List Assigned := []
  untaken : List FeatureUse

/-- A feature with the references to its components and the features below it. The first feature of
a name takes all its components. -/
def featurePart (us : List FeatureUse) : Feature → Emit FeaturePart
  | f@⟨_, name, _, _, _, _, _, _, children, _⟩ => do
      let e := (← Feature.schema.emit f).element
      let id := (e.get? "Id").getD ""
      let refs := (usesOf name us).map componentRefElement
      let below ← featureParts (dropUse name us) children
      return ⟨[(e.pushAll refs).pushAll below.elements], ⟨.feature, id, name⟩ :: below.assigned,
        below.untaken⟩
where
  featureParts (us : List FeatureUse) : List Feature → Emit FeaturePart
    | [] => return { untaken := us }
    | f :: fs => do
        let first ← featurePart us f
        let rest ← featureParts first.untaken fs
        return ⟨first.elements ++ rest.elements, first.assigned ++ rest.assigned, rest.untaken⟩

/-- The features that are declared, behind the default feature where that is to be added. -/
def leadingFeatures (p : Project) (us : List FeatureUse) : List Feature :=
  let name := p.options.defaultFeature
  let needed := us.any fun u => Text.sameText u.feature name
  if (p.feature? name).isNone && (needed || p.features.isEmpty) then
    Feature.named name :: p.features
  else p.features

/-- All features of the document, with a warning for each that had to be added. -/
def allFeatureParts (p : Project) (refs : List ComponentRef) : Emit (FeaturePart × List Warning) := do
  let us := featureUses p.options.defaultFeature refs
  let declared ← featurePart.featureParts us (leadingFeatures p us)
  let missing := declared.untaken.map fun u => Feature.named u.feature
  let added ← featurePart.featureParts declared.untaken missing
  return (⟨declared.elements ++ added.elements, declared.assigned ++ added.assigned, added.untaken⟩,
    missing.map fun _ => .undeclaredFeature)

end Installer.Compile
