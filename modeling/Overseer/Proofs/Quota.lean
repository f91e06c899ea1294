import Overseer.Proofs.Numeral
import Overseer.Proofs.Sums
import Overseer.Reallocator

/-!
Quotas never pass the largest amount, wherever they come from, and an assignment changes nothing of
a slice but its dynamic quotas.
-/

namespace Overseer

open Markup

/-! ## Quotas in documents -/

theorem attributeD_le {parse : List Char → Except NumeralError Nat}
    (hparse : ∀ s n, parse s = .ok n → n ≤ Amount.limit) (e : Element) (name : String) :
    e.attributeD name parse 0 ≤ Amount.limit := by
  unfold Element.attributeD
  split
  · exact Nat.zero_le _
  · rename_i value _
    cases hvalue : parse (Text.trimChars value.toList) with
    | error e => exact Nat.zero_le _
    | ok n => exact hparse _ n hvalue

theorem amount_le (e : Element) (name : String) : e.amount name 0 ≤ Amount.limit :=
  attributeD_le (fun _ _ => Amount.le_of_parse) e name

theorem ramQuota_le (start : Element) : start.ramQuota ≤ Amount.limit := by
  unfold Element.ramQuota
  split
  · exact Nat.zero_le _
  · exact attributeD_le (fun _ _ => ByteSize.le_of_parse) _ "quantum"

theorem quotas_le (start : Element) (r : Resource) : start.quotas.get r ≤ Amount.limit := by
  cases r with
  | caps => exact amount_le start "caps"
  | ram => exact ramQuota_le start

theorem avail_le (state : Element) (r : Resource) :
    ((Availability.ofState state).tallies.get r).avail ≤ Amount.limit := by
  rw [Availability.ofState, Both.get_of]
  exact Amount.sum_le _

/-! ## Quotas of slices -/

def Slice.Bounded (s : Slice) : Prop :=
  ∀ r, s.configured.get r ≤ Amount.limit ∧ s.dynamic.get r ≤ Amount.limit

theorem Slice.Bounded.assigned_le {s : Slice} (h : s.Bounded) (r : Resource) :
    s.assigned r ≤ Amount.limit := by
  unfold Slice.assigned
  split
  · exact (h r).1
  · exact (h r).2

/-! ## Assignments -/

/-- The assignment is about this slice: nothing else of it can be changed than its dynamic quotas,
and these only if something was assigned.  It has no problem but that resources are too few. -/
structure Reallocation.Concerns (a : Reallocation) (s : Slice) : Prop where
  slice : ∃ dynamic, a.slice = { s with dynamic }
  bounded : s.Bounded → a.slice.Bounded
  unassigned : a.updated = false → a.slice = s
  problems : ∀ p ∈ a.problems, ∃ resource slice total configured,
    p = .resourcesInfeasible resource slice total configured

theorem Reallocation.Concerns.name {a : Reallocation} {s : Slice} (h : a.Concerns s) :
    a.slice.name = s.name := by
  obtain ⟨dynamic, hslice⟩ := h.slice
  rw [hslice]

theorem concerns_assignResource {availability : Availability} {a : Reallocation} {s : Slice}
    (havail : ∀ r, (availability.tallies.get r).avail ≤ Amount.limit) (h : a.Concerns s)
    (configured : Both Nat) (r : Resource) :
    (Reallocator.assignResource availability configured a r).Concerns s := by
  unfold Reallocator.assignResource
  dsimp only
  split
  · split
    · rename_i n hlimit
      have hn : n ≤ Amount.limit := by
        have hsum := (softLimit_eq_some_iff.mp hlimit).2
        have hle := havail r
        omega
      obtain ⟨dynamic, hslice⟩ := h.slice
      refine ⟨⟨dynamic.set r n, by simp [hslice]⟩, ?_, ?_, h.problems⟩
      · intro hs q
        have hbounded := h.bounded hs q
        refine ⟨hbounded.1, ?_⟩
        rw [Both.get_set]
        split
        · exact hn
        · exact hbounded.2
      · cases r <;> simp [Reallocation.updated, Both.set]
    · refine ⟨h.slice, h.bounded, h.unassigned, ?_⟩
      intro p hp
      rcases List.mem_append.mp hp with hp | hp
      · exact h.problems p hp
      · exact ⟨_, _, _, _, List.mem_singleton.mp hp⟩
  · exact h

theorem concerns_assign (a : Reallocator) (state config : Element) (s : Slice) :
    (a.assign state config s).Concerns s := by
  have hstart (availability : Option Availability) :
      Reallocation.Concerns { reallocator := a, slice := s, availability } s :=
    ⟨⟨s.dynamic, rfl⟩, id, fun _ => rfl, fun _ hp => nomatch hp⟩
  unfold Reallocator.assign
  split
  · exact concerns_assignResource (avail_le state)
      (concerns_assignResource (avail_le state) (hstart _) _ .caps) _ .ram
  · exact hstart none

end Overseer
