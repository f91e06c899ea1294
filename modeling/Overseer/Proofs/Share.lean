import Overseer.Proofs.Overrides

/-!
What an assignment makes of a resource, in exact numbers.  The available figures and what the other
slices ask for are added up, and the margin is taken off, with sums and differences that stop at
their bounds; still a slice is given exactly what is left and never more (`assign_share`), and each
resource has its share by its own figures alone.
-/

namespace Overseer

open Markup

/-- What a report says is available of a resource, added up exactly. -/
def reportedAvail (state : Element) (r : Resource) : Nat :=
  ((state :: Availability.reported state).map fun e => e.figure r "avail").sum

def Problem.isShortage (r : Resource) : Problem → Bool
  | .resourcesInfeasible word _ _ _ => word == r.word
  | _ => false

/-- What an assignment leaves of one resource: the dynamic quota of the slice, whether the resource
is stale, what was assigned of it, and why nothing was. -/
structure Share where
  dynamic : Nat
  stale : Bool
  assigned : Option Nat
  problems : List Problem
  deriving DecidableEq, Repr

def Reallocation.share (o : Reallocation) (r : Resource) : Share :=
  ⟨o.slice.dynamic.get r, o.reallocator.stale.get r, o.assigned.get r,
    o.problems.filter (·.isShortage r)⟩

/-- The share of a slice, reckoned without bounds except that no report offers more than the largest
amount. -/
def exactShare (slice : String) (r : Resource) (dynamic : Nat) (stale : Bool)
    (margin avail asked : Nat) : Share :=
  let offered := min avail Amount.limit
  if dynamic = 0 ∨ stale = true then
    if margin + asked < offered then
      ⟨offered - margin - asked, false, some (offered - margin - asked), []⟩
    else
      ⟨dynamic, stale, none,
        [.resourcesInfeasible r.word slice (offered - margin) (min asked Amount.limit)]⟩
  else ⟨dynamic, stale, none, []⟩

theorem avail_ofState (state : Element) (r : Resource) :
    ((Availability.ofState state).tallies.get r).avail =
      min (reportedAvail state r) Amount.limit := by
  rw [Availability.ofState, Both.get_of]
  exact Amount.sum_eq_clamp _

/-- A sum that was cut down is at least as large as anything offered, so it decides as the exact one
does. -/
theorem softLimit_clamp {offered : Nat} (h : offered ≤ Amount.limit) (margin asked : Nat) :
    softLimit offered margin (Amount.clamp asked) =
      if margin + asked < offered then some (offered - margin - asked) else none := by
  by_cases hasked : asked ≤ Amount.limit
  · rw [softLimit, Amount.clamp_of_le hasked]
    by_cases hfits : margin + asked < offered
    · rw [if_pos (by omega), if_pos hfits]
    · rw [if_neg (by omega), if_neg hfits]
  · have hcut : Amount.clamp asked = Amount.limit := Nat.min_eq_right (by omega)
    rw [softLimit, hcut, if_neg (by omega), if_neg (by omega)]

namespace Reallocator

theorem isShortage_of_refusal? {a : Reallocator} {s : Slice} {availability : Availability}
    {configured : Both Nat} {q : Resource} {p : Problem}
    (h : a.refusal? s availability configured q = some p) (r : Resource) :
    p.isShortage r = decide (q = r) := by
  unfold refusal? at h
  dsimp only at h
  split at h
  · cases h
    cases q <;> cases r <;> rfl
  · cases h

theorem filterMap_resource {α : Type} (f : Resource → Option α) (r : Resource) :
    [Resource.caps, .ram].filterMap (fun q => if q = r then f q else none) = (f r).toList := by
  cases r with
  | caps => cases h : f .caps <;> simp [List.filterMap, h]
  | ram => cases h : f .ram <;> simp [List.filterMap, h]

/-- The shortages of a resource are its refusal. -/
theorem shortages_assign {a : Reallocator} (h : (a.stale.caps || a.stale.ram) = true)
    (state config : Element) (s : Slice) (r : Resource) :
    (a.assign state config s).problems.filter (·.isShortage r) =
      (a.refusal? s (.ofState state) (configuredTotals config s.name) r).toList := by
  let refused := a.refusal? s (.ofState state) (configuredTotals config s.name)
  have hother : ∀ q, (refused q).filter (·.isShortage r) = if q = r then refused q else none := by
    intro q
    cases hq : refused q with
    | none => split <;> rfl
    | some p =>
      rw [Option.filter_some, isShortage_of_refusal? hq]
      simp only [decide_eq_true_eq]
  have hfilter : (a.assign state config s).problems.filter (·.isShortage r) =
      [Resource.caps, .ram].filterMap fun q => if q = r then refused q else none := by
    rw [problems_assign h, List.filter_filterMap]
    exact congrArg (fun f => [Resource.caps, .ram].filterMap f) (funext hother)
  rw [hfilter, filterMap_resource]

/-- Nothing is wrong with an assignment but shortages. -/
theorem problems_eq_shortages {a : Reallocator} (h : (a.stale.caps || a.stale.ram) = true)
    (state config : Element) (s : Slice) :
    (a.assign state config s).problems = [Resource.caps, .ram].flatMap fun r =>
      ((a.assign state config s).share r).problems := by
  simp only [Reallocation.share, shortages_assign h, List.flatMap_cons, List.flatMap_nil,
    List.append_nil]
  rw [problems_assign h, List.filterMap, List.filterMap, List.filterMap]
  cases a.refusal? s (.ofState state) (configuredTotals config s.name) .caps <;>
    cases a.refusal? s (.ofState state) (configuredTotals config s.name) .ram <;> rfl

theorem share_assign {a : Reallocator} (h : (a.stale.caps || a.stale.ram) = true)
    (state config : Element) (s : Slice) (r : Resource) :
    (a.assign state config s).share r = exactShare s.name r (s.dynamic.get r) (a.stale.get r)
      (a.margin.get r) (reportedAvail state r) (InitConfig.asked config s.name r) := by
  let offered := min (reportedAvail state r) Amount.limit
  let asked := InitConfig.asked config s.name r
  have hlimit : softLimit ((Availability.ofState state).tallies.get r).avail (a.margin.get r)
      ((configuredTotals config s.name).get r) =
        if a.margin.get r + asked < offered then some (offered - a.margin.get r - asked)
        else none := by
    rw [avail_ofState, InitConfig.configuredTotals_get]
    exact softLimit_clamp (Nat.min_le_right ..) ..
  obtain ⟨hassigned, hdynamic, hstale⟩ := settles_assign h state config s r
  rw [Reallocation.share, hassigned, hdynamic, hstale, shortages_assign h, offer, refusal?, hlimit,
    avail_ofState, InitConfig.configuredTotals_get, exactShare]
  by_cases hdue : s.dynamic.get r = 0 ∨ a.stale.get r = true
  · by_cases hfits : a.margin.get r + asked < offered
    · simp [hdue, hfits, offered, asked]
    · simp [hdue, hfits, offered, asked, Amount.clamp]
  · simp [hdue]

/-- An assignment gives a slice of each resource exactly what the margin and the other slices leave
of it, if it is due and if they leave anything.  Otherwise the slice keeps what it has, and if the
resource was due, that is the one problem with it. -/
theorem assign_share (a : Reallocator) (state config : Element) (s : Slice)
    (h : (a.stale.caps || a.stale.ram) = true) :
    let o := a.assign state config s
    (∀ r, o.share r = exactShare s.name r (s.dynamic.get r) (a.stale.get r) (a.margin.get r)
      (reportedAvail state r) (InitConfig.asked config s.name r)) ∧
    (o.problems = [Resource.caps, .ram].flatMap fun r => (o.share r).problems) ∧
    o.slice = { s with dynamic := o.slice.dynamic } ∧ o.reallocator.margin = a.margin ∧
    ∀ r n, o.assigned.get r = some n → 0 < n ∧ n ≤ Amount.limit := by
  intro o
  obtain ⟨dynamic, hslice⟩ := (concerns_assign a state config s).slice
  refine ⟨share_assign h state config s, problems_eq_shortages h state config s, by rw [hslice],
    margin_assign a state config s, fun r n hn => ?_⟩
  obtain ⟨hnone, _⟩ | ⟨m, hsome, _, _, hpos, havail⟩ := a.assign_cases state config s r
  · cases hnone.symm.trans hn
  · cases hsome.symm.trans hn
    have hle := avail_le state r
    exact ⟨hpos, by omega⟩

/-- A report in which the children push the sum of what is available past the largest amount. -/
def brimState : Element :=
  let figures (r : Resource) (avail : Nat) : Piece :=
    .child (writtenElement r.word.toList
      ([("avail", escape (toString avail))].map InitConfig.written) [])
  writtenElement "state".toList []
    [figures .caps Amount.limit, figures .ram 128,
     .child (writtenElement "child".toList [] [figures .caps 5])]

/-- Caps are due since the slice has none yet, and are assigned; memory is due and falls short. -/
theorem brim_assign_share :
    let a : Reallocator := { margin := ⟨10, 100⟩, stale := ⟨false, true⟩ }
    let o := a.assign brimState Supervisor.batchConfig.root { name := "batch" }
    (a.stale.caps || a.stale.ram) = true ∧
      reportedAvail brimState .caps = Amount.limit + 5 ∧
      o.share .caps = ⟨Amount.limit - 17, false, some (Amount.limit - 17), []⟩ ∧
      o.share .ram = ⟨0, true, none, [.resourcesInfeasible "ram" "batch" 28 64]⟩ := by
  intro a o
  have harmed : (a.stale.caps || a.stale.ram) = true := rfl
  obtain ⟨hshare, _⟩ :=
    assign_share a brimState Supervisor.batchConfig.root { name := "batch" } harmed
  refine ⟨harmed, by decide +kernel, ?_, ?_⟩
  · exact (hshare .caps).trans (by decide +kernel)
  · exact (hshare .ram).trans (by decide +kernel)

end Reallocator

end Overseer
