import Installer.Dialog.Sequence

/-!
# Navigation

The way through the dialogs as a graph: a node for every dialog that a sequence mentions, and an
edge for every action that leads to another dialog.
-/

namespace Installer.Dialog

/-- An action that leads from one dialog to another. -/
structure Transition where
  source : String
  destination : String
  control : String
  event : Event
  condition : String
deriving DecidableEq

/-- Dialogs, each once, and the transitions between them in the order of the sequence. -/
structure Navigation where
  dialogs : List String
  transitions : List Transition
deriving DecidableEq

/-- The transition of an action, if it leads anywhere. -/
def Entry.transition? (e : Entry) (a : Action) : Option Transition :=
  match a.event, a.destination? with
  | some event, some destination => some ⟨e.dialog, destination, e.control, event, a.condition⟩
  | _, _ => none

def Entry.transitions (e : Entry) : List Transition :=
  e.actions.filterMap e.transition?

/-- A list with an element at its end, unless it is in the list. -/
def addOnce (xs : List String) (x : String) : List String :=
  if x ∈ xs then xs else xs ++ [x]

/-- Texts in order, each once. -/
def sortedOnce (xs : List String) : List String :=
  (xs.foldl addOnce []).mergeSort fun a b => a ≤ b

namespace Navigation

/-- The graph of a sequence. -/
def ofResolved (r : Resolved) : Navigation where
  dialogs :=
    (r.definitions.map (·.id) ++
      r.entries.flatMap fun e => e.dialog :: e.transitions.map (·.destination)).foldl addOnce []
  transitions := r.entries.flatMap Entry.transitions

def leaving (n : Navigation) (dialog : String) : List Transition :=
  n.transitions.filter (·.source == dialog)

/-- The dialogs to which some action of a dialog leads, in order. -/
def successors (n : Navigation) (dialog : String) : List String :=
  sortedOnce ((n.leaving dialog).map (·.destination))

/-- A breadth-first search that makes at most `steps` further steps. `found` has all dialogs found, in
the order in which they were found; those from `next` on wait for their actions to be followed. -/
def search (n : Navigation) : Nat → Nat → List String → List String
  | 0, _, found => found
  | steps + 1, next, found =>
      match found[next]? with
      | none => found
      | some dialog =>
          n.search steps (next + 1) (((n.leaving dialog).map (·.destination)).foldl addOnce found)

/-- The dialogs to which some row of actions leads from a dialog, and the dialog itself, in order.
A search makes no more steps than there are dialogs. -/
def reachable (n : Navigation) (dialog : String) : List String :=
  if dialog ∈ n.dialogs then sortedOnce (n.search n.dialogs.length 0 [dialog]) else []

/-- The dialogs to which no action leads, in order. -/
def entryPoints (n : Navigation) : List String :=
  sortedOnce (n.dialogs.filter fun d => !n.transitions.any (·.destination == d))

def sortedDialogs (n : Navigation) : List String :=
  sortedOnce n.dialogs

end Navigation

end Installer.Dialog
