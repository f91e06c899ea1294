import Overseer.Proofs.Quota

/-!
Assignments, resource by resource.  `settles_assign` says in full what an assignment makes of a
resource, and `problems_assign` what it refuses: the two resources do not depend on each other.
-/

namespace Overseer

open Markup

theorem Reallocation.assigned_of_not_updated {a : Reallocation} (h : a.updated = false)
    (r : Resource) : a.assigned.get r = none := by
  rw [updated, Bool.or_eq_false_iff] at h
  cases r with
  | caps => simpa [Both.get] using h.1
  | ram => simpa [Both.get] using h.2

namespace Reallocator

/-- What is assigned of a resource, if anything: nothing unless it is due. -/
def offer (a : Reallocator) (s : Slice) (availability : Availability) (configured : Both Nat)
    (r : Resource) : Option Nat :=
  if s.dynamic.get r = 0 ∨ a.stale.get r then
    softLimit (availability.tallies.get r).avail (a.margin.get r) (configured.get r)
  else none

/-- What an assignment has made of a resource, given what it had to offer. -/
structure Settles (o : Reallocation) (a : Reallocator) (s : Slice) (r : Resource)
    (offered : Option Nat) : Prop where
  assigned : o.assigned.get r = offered
  dynamic : o.slice.dynamic.get r = offered.getD (s.dynamic.get r)
  stale : o.reallocator.stale.get r = (a.stale.get r && offered.isNone)

variable (availability : Availability) (configured : Both Nat)

theorem margin_assignResource (o : Reallocation) (r : Resource) :
    (assignResource availability configured o r).reallocator.margin = o.reallocator.margin := by
  unfold assignResource
  dsimp only
  split
  · split <;> rfl
  · rfl

/-- The step for a resource settles this resource. -/
theorem settles_assignResource {o : Reallocation} {r : Resource} (h : o.assigned.get r = none) :
    Settles (assignResource availability configured o r) o.reallocator o.slice r
      (o.reallocator.offer o.slice availability configured r) := by
  unfold assignResource offer
  dsimp only
  split
  · split
    · rename_i n hlimit
      exact ⟨by simp [hlimit], by simp [hlimit], by simp [hlimit]⟩
    · rename_i hlimit
      exact ⟨by rw [h, hlimit], by rw [hlimit]; rfl, by simp [hlimit]⟩
  · exact ⟨h, rfl, by simp⟩

/-- The step for another resource leaves it alone. -/
theorem assignResource_other (o : Reallocation) {r q : Resource} (h : r ≠ q) :
    let p := assignResource availability configured o r
    p.assigned.get q = o.assigned.get q ∧ p.slice.dynamic.get q = o.slice.dynamic.get q ∧
      p.reallocator.stale.get q = o.reallocator.stale.get q := by
  unfold assignResource
  dsimp only
  split
  · split
    · simp [h]
    · exact ⟨rfl, rfl, rfl⟩
  · exact ⟨rfl, rfl, rfl⟩

/-- While nothing is stale, nothing is assigned. -/
theorem assign_of_fresh {a : Reallocator} (h : (a.stale.caps || a.stale.ram) = false)
    (state config : Element) (s : Slice) :
    a.assign state config s = { reallocator := a, slice := s } := by
  rw [assign, if_neg (by simp [h])]

/-- What an assignment makes of each resource. -/
theorem settles_assign {a : Reallocator} (h : (a.stale.caps || a.stale.ram) = true)
    (state config : Element) (s : Slice) (r : Resource) :
    Settles (a.assign state config s) a s r
      (a.offer s (.ofState state) (configuredTotals config s.name) r) := by
  let availability := Availability.ofState state
  let configured := configuredTotals config s.name
  let o : Reallocation := { reallocator := a, slice := s, availability := some availability }
  let step := assignResource availability configured
  have hassign : a.assign state config s = step (step o .caps) .ram := by
    rw [assign, if_pos h]
    rfl
  have hne : Resource.ram ≠ .caps := by decide
  rw [hassign]
  cases r with
  | caps =>
    have hcaps : Settles (step o .caps) a s .caps (a.offer s availability configured .caps) :=
      settles_assignResource availability configured rfl
    obtain ⟨hassigned, hdynamic, hstale⟩ :=
      assignResource_other availability configured (step o .caps) hne
    exact ⟨hassigned.trans hcaps.assigned, hdynamic.trans hcaps.dynamic,
      hstale.trans hcaps.stale⟩
  | ram =>
    -- the step for the other resource comes first and changes nothing of this one
    obtain ⟨hassigned, hdynamic, hstale⟩ :=
      assignResource_other availability configured o hne.symm
    have hmargin : (step o .caps).reallocator.margin = a.margin :=
      margin_assignResource availability configured o .caps
    have hram : Settles (step (step o .caps) .ram) _ _ .ram _ :=
      settles_assignResource availability configured hassigned
    have hoffer : (step o .caps).reallocator.offer (step o .caps).slice availability configured
        .ram = a.offer s availability configured .ram := by
      rw [offer, offer, hdynamic, hstale, hmargin]
    rw [hoffer] at hram
    exact ⟨hram.assigned, hram.dynamic.trans (by rw [hdynamic]),
      hram.stale.trans (by rw [hstale])⟩

/-! ## Problems -/

/-- Why nothing is assigned of a resource although that is due. -/
def refusal? (a : Reallocator) (s : Slice) (availability : Availability) (configured : Both Nat)
    (r : Resource) : Option Problem :=
  let avail := (availability.tallies.get r).avail
  let margin := a.margin.get r
  if (s.dynamic.get r = 0 ∨ a.stale.get r) ∧ softLimit avail margin (configured.get r) = none then
    some (.resourcesInfeasible r.word s.name (avail - margin) (configured.get r))
  else none

/-- What is due of a resource is assigned or refused. -/
theorem offer_or_refusal {a : Reallocator} {s : Slice} {r : Resource}
    (hdue : s.dynamic.get r = 0 ∨ a.stale.get r = true) :
    (∃ n, 0 < n ∧ a.offer s availability configured r = some n) ∨
      ∃ total, a.refusal? s availability configured r =
        some (.resourcesInfeasible r.word s.name total (configured.get r)) := by
  rw [offer, if_pos hdue, refusal?]
  cases hlimit : softLimit (availability.tallies.get r).avail (a.margin.get r)
      (configured.get r) with
  | some n => exact .inl ⟨n, (softLimit_eq_some_iff.mp hlimit).1, rfl⟩
  | none => exact .inr ⟨_, if_pos ⟨hdue, rfl⟩⟩

theorem problems_assignResource (o : Reallocation) (r : Resource) :
    (assignResource availability configured o r).problems = o.problems ++
      (o.reallocator.refusal? o.slice availability configured r).toList := by
  unfold assignResource refusal?
  dsimp only
  split
  · rename_i hdue
    split
    · rename_i hlimit
      simp [hlimit]
    · rename_i hlimit
      simp [hlimit, hdue]
  · rename_i hdue
    simp [hdue]

theorem name_assignResource (o : Reallocation) (r : Resource) :
    (assignResource availability configured o r).slice.name = o.slice.name := by
  unfold assignResource
  dsimp only
  split
  · split <;> rfl
  · rfl

/-- The problems of an assignment are the resources that are refused, in order. -/
theorem problems_assign {a : Reallocator} (h : (a.stale.caps || a.stale.ram) = true)
    (state config : Element) (s : Slice) :
    (a.assign state config s).problems = [Resource.caps, .ram].filterMap
      (a.refusal? s (.ofState state) (configuredTotals config s.name)) := by
  let availability := Availability.ofState state
  let configured := configuredTotals config s.name
  let o : Reallocation := { reallocator := a, slice := s, availability := some availability }
  let step := assignResource availability configured
  have hassign : a.assign state config s = step (step o .caps) .ram := by
    rw [assign, if_pos h]
    rfl
  obtain ⟨_, hdynamic, hstale⟩ :=
    assignResource_other availability configured o (by decide : Resource.caps ≠ .ram)
  have hrefusal : (step o .caps).reallocator.refusal? (step o .caps).slice availability configured
      .ram = a.refusal? s availability configured .ram := by
    have hmargin : (step o .caps).reallocator.margin = a.margin :=
      margin_assignResource availability configured o .caps
    have hname : (step o .caps).slice.name = s.name :=
      name_assignResource availability configured o .caps
    rw [refusal?, refusal?, hdynamic, hstale, hmargin, hname]
  rw [hassign, problems_assignResource, hrefusal, problems_assignResource]
  simp only [List.filterMap_cons, List.filterMap_nil, o, List.nil_append]
  cases a.refusal? s availability configured .caps <;>
    cases a.refusal? s availability configured .ram <;> rfl

theorem margin_assign (a : Reallocator) (state config : Element) (s : Slice) :
    (a.assign state config s).reallocator.margin = a.margin := by
  unfold assign
  split
  · exact (margin_assignResource _ _ _ _).trans (margin_assignResource _ _ _ _)
  · rfl

/-- What an assignment leaves of a resource: either nothing has changed of it, or the slice has what
the margin and the other slices leave of the available figure, and the resource is not stale. -/
theorem assign_cases (a : Reallocator) (state config : Element) (s : Slice) (r : Resource) :
    let o := a.assign state config s
    (o.assigned.get r = none ∧ o.slice.dynamic.get r = s.dynamic.get r ∧
      o.reallocator.stale.get r = a.stale.get r) ∨
    ∃ n, o.assigned.get r = some n ∧ o.slice.dynamic.get r = n ∧
      o.reallocator.stale.get r = false ∧ 0 < n ∧
      ((Availability.ofState state).tallies.get r).avail =
        a.margin.get r + (configuredTotals config s.name).get r + n := by
  cases hstale : a.stale.caps || a.stale.ram with
  | false =>
    rw [assign_of_fresh hstale]
    exact .inl ⟨by cases r <;> rfl, rfl, rfl⟩
  | true =>
    have hsettles := settles_assign hstale state config s r
    cases hoffer : a.offer s (.ofState state) (configuredTotals config s.name) r with
    | none =>
      rw [hoffer] at hsettles
      exact .inl ⟨hsettles.assigned, hsettles.dynamic, by rw [hsettles.stale]; simp⟩
    | some n =>
      rw [hoffer] at hsettles
      rw [offer] at hoffer
      split at hoffer
      · obtain ⟨hpos, havail⟩ := softLimit_eq_some_iff.mp hoffer
        exact .inr ⟨n, hsettles.assigned, hsettles.dynamic, by rw [hsettles.stale]; simp, hpos,
          havail⟩
      · cases hoffer

end Reallocator

end Overseer
