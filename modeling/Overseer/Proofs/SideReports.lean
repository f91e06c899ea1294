import Overseer.Proofs.Published
import Overseer.RestartReport
import Overseer.SideReport

/-!
The reports beside the configuration as trees.  Whatever the slices and their failures are, the
restart report and the report on free resources can be written (`denotes_draft`).
-/

namespace Overseer

open Markup

theorem Markup.denotes_attributes (as : List (String × String)) {rest : Draft}
    {bs : List Attribute} {ps : List Piece} (h : Denotes rest bs ps) :
    Denotes (as.map (fun a => .attribute a.1 a.2) ++ rest)
      (as.map (fun a => InitConfig.written (a.1, escape a.2)) ++ bs) ps := by
  induction as with
  | nil => exact h
  | cons a as ih => exact InitConfig.denotes_attribute a.1 a.2 ih

namespace RestartReport

/-! ## The restart report -/

/-- The counters that are written of a record, as they are written. -/
def counterTexts (r : FailureRecord) : List (String × String) :=
  (counters.filter fun (f, _) => r.count f != 0).map fun (f, name) => (name, toString (r.count f))

def failedElement (r : FailureRecord) : Element :=
  writtenElement "failed".toList
    ((("label", r.label) :: counterTexts r).map fun a => InitConfig.written (a.1, escape a.2)) []

def componentTexts (s : Slice) : List (String × String) :=
  ("name", s.name) ::
    if s.combinedVersion = 0 then [] else [("restarts", toString s.combinedVersion)]

def componentElement (s : Slice) : Element :=
  writtenElement "component".toList
    ((componentTexts s).map fun a => InitConfig.written (a.1, escape a.2))
    (if s.combinedVersion = 0 then [] else s.failures.map fun r => .child (failedElement r))

theorem denotes_failed (r : FailureRecord) {rest : Draft} {ps : List Piece}
    (h : Denotes rest [] ps) :
    Denotes (failed r :: rest) [] (.child (failedElement r) :: ps) := by
  have hattributes := denotes_attributes (("label", r.label) :: counterTexts r) Denotes.nil
  rw [List.append_nil, List.append_nil] at hattributes
  have hnode := Denotes.node "failed" hattributes h
  simpa [failed, failedElement, counterTexts, Function.comp_def] using hnode

theorem denotes_component (s : Slice) {rest : Draft} {ps : List Piece} (h : Denotes rest [] ps) :
    Denotes (component s :: rest) [] (.child (componentElement s) :: ps) := by
  unfold component componentElement componentTexts
  split
  · exact .node "component" (InitConfig.denotes_attribute _ _ .nil) h
  · have hfailures : Denotes (s.failures.map failed) []
        (s.failures.map fun r => .child (failedElement r)) :=
      denotes_children fun r _ _ _ hrest => denotes_failed r hrest
    exact .node "component" (InitConfig.denotes_attribute _ _
      (InitConfig.denotes_attribute _ _ hfailures)) h

theorem denotes_draft (reg : Registry) :
    Denotes (draft reg) [] (reg.map fun s => .child (componentElement s)) :=
  denotes_children fun s _ _ _ h => denotes_component s h

end RestartReport

namespace FreeResources

/-! ## Free resources -/

def freeElement (resource name value : String) : Element :=
  writtenElement resource.toList [InitConfig.written (name, escape value)] []

theorem denotes_free (ram caps : Nat) : Denotes (draft ram caps) []
    [.child (freeElement "ram" "available_mb" (toString (ByteSize.toMebi ram))),
      .child (freeElement "caps" "available" (toString caps))] :=
  .node "ram" (InitConfig.denotes_attribute _ _ .nil)
    (.node "caps" (InitConfig.denotes_attribute _ _ .nil) .nil)

theorem exists_denotes_of_draft? {state : Element} {label : Label} {draft : Draft}
    (h : draft? state label = some draft) : ∃ ps, Denotes draft [] ps := by
  unfold draft? at h
  split at h
  · cases h
    exact ⟨_, denotes_free _ _⟩
  · cases h

end FreeResources

end Overseer
