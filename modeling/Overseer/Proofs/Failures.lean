import Overseer.Proofs.Registry

/-!
Failures, one by one.  `detections` says which failures a report shows, `attributed?` to which slice
each of them is charged; charging a report comes to just that (`failures_chargeAll`).
-/

namespace Overseer

open Markup

/-! ## Tallies -/

def labelsOf (rs : List FailureRecord) : List String := rs.map (·.label)

/-- How often a failure was counted under a label. -/
def countOf (rs : List FailureRecord) (label : String) (f : Failure) : Nat :=
  ((rs.find? (·.label == label)).map (·.count f)).getD 0

theorem countOf_tally (label : String) (f : Failure) (rs : List FailureRecord) (l : String)
    (k : Failure) : countOf (tally label f rs) l k =
      countOf rs l k + if label = l ∧ f = k then 1 else 0 := by
  induction rs with
  | nil =>
    have hfresh (l : String) : FailureRecord.count { label := l } k = 0 := by cases k <;> rfl
    by_cases h : label = l <;> simp [tally, countOf, h, FailureRecord.count_add, hfresh]
  | cons r rs ih =>
    by_cases hr : r.label = label
    · by_cases h : label = l
      · simp [tally, countOf, hr, h, FailureRecord.count_add]
      · simp [tally, countOf, hr, h]
    · by_cases hl : r.label = l
      · have h : label ≠ l := fun e => hr (hl.trans e.symm)
        simp [tally, countOf, hl, h, Ne.symm h]
      · simp only [countOf] at ih ⊢
        simpa [tally, hr, hl] using ih

theorem labelsOf_tally (label : String) (f : Failure) (rs : List FailureRecord) :
    labelsOf (tally label f rs) =
      if label ∈ labelsOf rs then labelsOf rs else labelsOf rs ++ [label] := by
  induction rs with
  | nil => simp [tally, labelsOf]
  | cons r rs ih =>
    by_cases hr : r.label = label
    · simp [tally, labelsOf, hr]
    · have hcons : labelsOf (tally label f (r :: rs)) = r.label :: labelsOf (tally label f rs) := by
        simp [tally, labelsOf, hr]
      have hmem : label ∈ labelsOf (r :: rs) ↔ label ∈ labelsOf rs := by
        simp [labelsOf, Ne.symm hr]
      rw [hcons, ih]
      by_cases h : label ∈ labelsOf rs
      · rw [if_pos h, if_pos (hmem.mpr h)]
        rfl
      · rw [if_neg h, if_neg (mt hmem.mp h)]
        rfl

/-! ## Detections -/

/-- A failure of the component `label`, reported for the slice `slice`. -/
structure Detection where
  slice : String
  label : String
  failure : Failure
  deriving DecidableEq, Repr

/-- The failures that a child of a report shows, in order. -/
def Markup.Element.failures (child : Element) (threshold : Nat) : List Failure :=
  let skipped := child.amount "skipped_heartbeats" 0
  let heartbeats := if 0 < skipped ∧ threshold ≤ skipped then [.heartbeat] else []
  let requests := (child.children.filter (·.hasAttribute "requested")).map fun resource =>
    if resource.name = "ram" ∨ resource.attribute? "name" = some "RAM" then .ramRequest
    else .capsRequest
  let pageFaults := if child.switch "pd_fault" false then [.segFault] else []
  let cpuFaults := if child.switch "cpu_fault" false then [.cpuFault] else []
  heartbeats ++ requests ++ pageFaults ++ cpuFaults

/-- The failures that a report shows, child by child. -/
def detections (state : Element) (threshold : Nat) (scope : Scope) : List Detection :=
  (state.childrenNamed "child").flatMap fun child =>
    let name := (child.attribute? "name").getD ""
    (child.failures threshold).map fun failure =>
      { slice := scope.failureSlice name, label := scope.failureLabel name, failure }

/-- The failure that a finding is charged for. -/
def Finding.detection? (f : Finding) : Option Detection :=
  f.failure.map fun failure => { slice := f.slice, label := f.label, failure }

theorem detections_cons (f : Finding) (fs : List Finding) :
    (f :: fs).filterMap Finding.detection? =
      f.detection?.toList ++ fs.filterMap Finding.detection? := by
  cases h : f.detection? <;> simp [h]

theorem requestFailure_eq (resource : Element) : resource.requestFailure =
    if resource.name = "ram" ∨ resource.attribute? "name" = some "RAM" then .ramRequest
    else .capsRequest := by
  simp [Element.requestFailure]

theorem detections_findings (child : Element) (threshold : Nat) (scope : Scope) :
    let name := (child.attribute? "name").getD ""
    (child.findings threshold scope).filterMap Finding.detection? =
      (child.failures threshold).map fun failure =>
        { slice := scope.failureSlice name, label := scope.failureLabel name, failure } := by
  intro name
  simp only [Element.findings, Element.failures, List.filterMap_append, List.map_append]
  congr 1
  congr 1
  congr 1
  · by_cases hskipped : child.amount "skipped_heartbeats" 0 = 0
    · simp [hskipped]
    · by_cases hthreshold : threshold ≤ child.amount "skipped_heartbeats" 0
      · simp [hskipped, hthreshold, Finding.detection?, Nat.pos_of_ne_zero, name]
      · simp [hskipped, hthreshold, Finding.detection?]
  · rw [List.filterMap_map, List.map_map, ← List.filterMap_eq_map]
    congr 1
    funext resource
    simp [Finding.detection?, requestFailure_eq, name]
  · cases child.switch "pd_fault" false <;> rfl
  · cases child.switch "cpu_fault" false <;> rfl

theorem detections_findingsOf (state : Element) (threshold : Nat) (scope : Scope) :
    (findingsOf state threshold scope).filterMap Finding.detection? =
      detections state threshold scope := by
  rw [findingsOf, detections, List.filterMap_flatMap]
  exact congrArg (List.flatMap · _) (funext fun child => detections_findings child threshold scope)

/-! ## Attribution -/

theorem modifyFirst_eq_none_iff_find? {α : Type} {p : α → Bool} {f : α → α} {as : List α} :
    modifyFirst p f as = none ↔ as.find? p = none := by
  simp [modifyFirst_eq_none_iff]

namespace Registry

/-- The slice that a failure is charged to: the one that it is reported for, or else the first one
whose name is a label above the component. -/
def attributed? (reg : Registry) (d : Detection) : Option String :=
  if d.slice ∈ reg.names then some d.slice
  else reg.names.find? fun name => (Label.parse d.label).startsWith (Label.parse name)

/-- The failures that are charged to a slice. -/
def attributedTo (reg : Registry) (name : String) (ds : List Detection) : List Detection :=
  ds.filter fun d => reg.attributed? d = some name

theorem attributed?_congr {reg other : Registry} (h : reg.names = other.names) :
    reg.attributed? = other.attributed? := by
  funext d
  rw [attributed?, attributed?, h]

theorem find?_isCharged (reg : Registry) (d : Detection) :
    (List.find? (reg.isCharged d.slice d.label) reg).map Slice.name = reg.attributed? d := by
  unfold attributed?
  by_cases h : d.slice ∈ reg.names
  · have hcharged : reg.isCharged d.slice d.label = fun s => s.name == d.slice := by
      funext s
      rw [isCharged, if_pos (contains_iff.mpr h)]
    obtain ⟨s, hs⟩ := exists_find? h
    have hfind : List.find? (fun s => s.name == d.slice) reg = some s := hs
    rw [if_pos h, hcharged, hfind, Option.map_some, name_of_find? hs]
  · have hcharged : reg.isCharged d.slice d.label =
        (fun name => (Label.parse d.label).startsWith (Label.parse name)) ∘ Slice.name := by
      funext s
      rw [isCharged, if_neg (mt contains_iff.mp h)]
      rfl
    rw [if_neg h, hcharged, names, List.find?_map]

theorem marked?_eq (reg : Registry) (f : Finding) :
    reg.marked? f = f.detection?.bind reg.attributed? := by
  unfold marked? Finding.detection?
  cases f.failure with
  | none => rfl
  | some failure =>
    have hattributed := find?_isCharged reg { slice := f.slice, label := f.label, failure }
    simp only [markRestart, Option.map_some, Option.bind_some]
    rw [← hattributed]
    cases hmodify : modifyFirst (reg.isCharged f.slice f.label)
        (fun s => s.markRestart f.label failure) reg with
    | some changed => rfl
    | none =>
      rw [modifyFirst_eq_none_iff_find?.mp hmodify]
      rfl

theorem marks_eq (reg : Registry) (fs : List Finding) :
    reg.marks fs = (fs.filterMap Finding.detection?).filterMap reg.attributed? := by
  induction fs generalizing reg with
  | nil => rfl
  | cons f fs ih =>
    rw [marks, ih, attributed?_congr (names_charge reg f), marked?_eq, detections_cons,
      List.filterMap_append]
    cases f.detection? with
    | none => rfl
    | some d => cases hd : reg.attributed? d <;> simp [hd]

end Registry

/-! ## Charging -/

/-- Count failures one after the other. -/
def tallyAll (ds : List Detection) (rs : List FailureRecord) : List FailureRecord :=
  ds.foldl (fun rs d => tally d.label d.failure rs) rs

theorem tallyAll_append (ds es : List Detection) (rs : List FailureRecord) :
    tallyAll (ds ++ es) rs = tallyAll es (tallyAll ds rs) := List.foldl_append

theorem countOf_tallyAll (ds : List Detection) (rs : List FailureRecord) (l : String)
    (k : Failure) : countOf (tallyAll ds rs) l k =
      countOf rs l k + ds.countP fun d => d.label = l ∧ d.failure = k := by
  induction ds generalizing rs with
  | nil => rfl
  | cons d ds ih =>
    have hrest : tallyAll (d :: ds) rs = tallyAll ds (tally d.label d.failure rs) := rfl
    rw [hrest, ih, countOf_tally, List.countP_cons]
    by_cases h : d.label = l ∧ d.failure = k
    · simp only [h, and_self, if_true, decide_true]
      omega
    · simp only [h, if_false, decide_false, Bool.false_eq_true]
      omega

/-- Counting keeps the labels that are there in their order. -/
theorem prefix_tallyAll (ds : List Detection) (rs : List FailureRecord) :
    labelsOf rs <+: labelsOf (tallyAll ds rs) := by
  induction ds generalizing rs with
  | nil => exact List.prefix_refl _
  | cons d ds ih =>
    have hfirst : labelsOf rs <+: labelsOf (tally d.label d.failure rs) := by
      rw [labelsOf_tally]
      split
      · exact List.prefix_refl _
      · exact List.prefix_append _ _
    exact hfirst.trans (ih _)

theorem nodup_tallyAll (ds : List Detection) {rs : List FailureRecord} (h : (labelsOf rs).Nodup) :
    (labelsOf (tallyAll ds rs)).Nodup := by
  induction ds generalizing rs with
  | nil => exact h
  | cons d ds ih =>
    refine ih ?_
    rw [labelsOf_tally]
    split
    · exact h
    · rename_i hnew
      rw [List.nodup_append]
      refine ⟨h, by simp, fun a ha b hb => ?_⟩
      rw [List.mem_singleton.mp hb]
      exact fun e => hnew (e ▸ ha)

namespace Registry

/-- A finding is counted just for the slice that its failure is charged to. -/
theorem failures_charge (reg : Registry) (f : Finding) (name : String) :
    ((reg.charge f).1.find? name).map Slice.failures =
      ((reg.find? name).map Slice.failures).map
        (tallyAll (reg.attributedTo name f.detection?.toList)) := by
  have hmarked := reg.marked?_eq f
  rcases charge_cases reg f with ⟨hnone, hsame⟩ | ⟨failure, hfailure, hmodify, _⟩
  · have hnothing : reg.attributedTo name f.detection?.toList = [] := by
      rw [attributedTo, List.filter_eq_nil_iff]
      intro d hd
      rw [hnone, Option.mem_toList.mp hd, Option.bind_some] at hmarked
      simp [← hmarked]
    rw [hsame, hnothing]
    exact (congrFun Option.map_id _).symm
  · let d : Detection := { slice := f.slice, label := f.label, failure }
    have hdetection : f.detection? = some d := by rw [Finding.detection?, hfailure]; rfl
    have hfind := find?_modifyFirst (fun s _ => name_markRestart s f.label failure)
      (fun _ _ => isCharged_congr reg f.slice f.label) hmodify name
    have hattributed : (List.find? (reg.isCharged f.slice f.label) reg).map Slice.name =
        reg.attributed? d := find?_isCharged reg d
    rw [hfind, hattributed, hdetection, Option.map_map, Option.map_map, attributedTo,
      Option.toList_some]
    congr 1
    funext s
    by_cases h : reg.attributed? d = some name
    · simp [h, Slice.markRestart, tallyAll, d]
    · simp [h, tallyAll]

theorem failures_chargeAll (reg : Registry) (fs : List Finding) (name : String) :
    ((reg.chargeAll fs).1.find? name).map Slice.failures =
      ((reg.find? name).map Slice.failures).map
        (tallyAll (reg.attributedTo name (fs.filterMap Finding.detection?))) := by
  induction fs generalizing reg with
  | nil => exact (congrFun Option.map_id _).symm
  | cons f fs ih =>
    have hrest : (reg.chargeAll (f :: fs)).1 = ((reg.charge f).1.chargeAll fs).1 := rfl
    have hattributed : (reg.charge f).1.attributedTo name = reg.attributedTo name := by
      funext ds
      rw [attributedTo, attributedTo, attributed?_congr (names_charge reg f)]
    rw [hrest, ih, failures_charge, hattributed, Option.map_map, detections_cons]
    congr 1
    funext rs
    rw [attributedTo, attributedTo, attributedTo, List.filter_append, tallyAll_append]
    rfl

end Registry

end Overseer
