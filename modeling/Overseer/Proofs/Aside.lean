import Overseer.Proofs.Publishing

/-!
Effects beside the published configuration: whatever a report makes the supervision log, publish or
write, it is not mistaken for a regeneration or for one that failed.
-/

namespace Overseer

open Markup

namespace Supervisor

/-! ## Log lines -/

/-- Texts that start differently are different. -/
theorem append_ne_append {a b : String} {k : Nat} (ha : k ≤ a.toList.length)
    (hb : k ≤ b.toList.length) (h : a.toList.take k ≠ b.toList.take k) (s t : String) :
    a ++ s ≠ b ++ t := by
  intro heq
  have htake : (a ++ s).toList.take k = (b ++ t).toList.take k := by rw [heq]
  rw [String.toList_append, String.toList_append, List.take_append_of_le_length ha,
    List.take_append_of_le_length hb] at htake
  exact h htake

theorem isAside_error {text : String}
    (h : ∀ rest, text ≠ "unable to generate init configuration: " ++ rest) :
    IsAside (.error text) := by
  intro e he
  cases he
  exact h _ rfl

theorem isAside_infeasible (resource slice : String) (total configured : Nat) :
    IsAside (.error (Problem.resourcesInfeasible resource slice total configured).message) := by
  have hmessage : ∃ rest, (Problem.resourcesInfeasible resource slice total configured).message =
      "unable to upgrade dynamic " ++ rest := by
    have hfull : (Problem.resourcesInfeasible resource slice total configured).message =
        s!"unable to upgrade dynamic {resource} of '{slice}': total {resource} ({total}) " ++
          s!"less than total configured {resource} ({configured})" := rfl
    rw [hfull]
    simp only [String.append_assoc]
    exact ⟨_, rfl⟩
  obtain ⟨rest, hrest⟩ := hmessage
  rw [hrest]
  exact isAside_error (append_ne_append (k := 12) (by decide) (by decide) (by decide) rest)

theorem isAside_warn (text : String) : IsAside (.warn text) := isAside_log nofun

theorem isAside_info (text : String) : IsAside (.info text) := isAside_log nofun

/-! ## Steps -/

theorem isAside_problem (p : Problem) : IsAside (.publish p.event) := by
  cases p <;> rfl

/-- The kinds of the events that findings are published as. -/
def findingKinds : List EventKind := [.heartbeatSkipped, .resourceRequested, .pdFault, .cpuFault]

theorem kind_findings (child : Element) (threshold : Nat) (scope : Scope) :
    ∀ f ∈ child.findings threshold scope, f.event.kind ∈ findingKinds := by
  intro f hf
  simp only [Element.findings, List.mem_append] at hf
  rcases hf with ((hf | hf) | hf) | hf
  · split at hf
    · cases hf
    · rw [List.mem_singleton.mp hf]
      exact List.mem_cons_self ..
  · obtain ⟨resource, _, rfl⟩ := List.mem_map.mp hf
    show EventKind.resourceRequested ∈ findingKinds
    decide
  · split at hf
    · rw [List.mem_singleton.mp hf]
      show EventKind.pdFault ∈ findingKinds
      decide
    · cases hf
  · split at hf
    · rw [List.mem_singleton.mp hf]
      show EventKind.cpuFault ∈ findingKinds
      decide
    · cases hf

theorem kind_findingsOf (state : Element) (threshold : Nat) (scope : Scope) :
    ∀ f ∈ findingsOf state threshold scope, f.event.kind ∈ findingKinds := by
  intro f hf
  obtain ⟨child, _, hchild⟩ := List.mem_flatMap.mp hf
  exact kind_findings child threshold scope f hchild

theorem isRegeneration_findingsOf (state : Element) (threshold : Nat) (scope : Scope) :
    ∀ f ∈ findingsOf state threshold scope, isRegeneration f.event = false := by
  intro f hf
  have hkind := kind_findingsOf state threshold scope f hf
  rw [isRegeneration, beq_eq_false_iff_ne]
  intro h
  rw [h] at hkind
  exact absurd hkind (by decide)

theorem isAside_schedule (reg : Registry) (slice label : String) (failure : Failure) :
    ∀ e ∈ (reg.schedule slice label failure).2, IsAside e := by
  unfold Registry.schedule
  split
  · exact List.forall_mem_cons.mpr ⟨isAside_info _, List.forall_mem_singleton.mpr rfl⟩
  · exact List.forall_mem_cons.mpr
      ⟨isAside_warn _, List.forall_mem_singleton.mpr (isAside_problem _)⟩

theorem isAside_charge {f : Finding} (hf : isRegeneration f.event = false) (reg : Registry) :
    ∀ e ∈ (reg.charge f).2, IsAside e := by
  have hseen : ∀ e ∈ [Effect.warn f.warning, .publish f.event], IsAside e :=
    List.forall_mem_cons.mpr ⟨isAside_warn _, List.forall_mem_singleton.mpr hf⟩
  unfold Registry.charge
  split
  · exact hseen
  · exact List.forall_mem_append.mpr ⟨hseen, isAside_schedule reg _ _ _⟩

theorem isAside_chargeAll {fs : List Finding} (hfs : ∀ f ∈ fs, isRegeneration f.event = false)
    (reg : Registry) : ∀ e ∈ (reg.chargeAll fs).2, IsAside e := by
  induction fs generalizing reg with
  | nil => simp [Registry.chargeAll]
  | cons f fs ih =>
    obtain ⟨hf, hfs⟩ := List.forall_mem_cons.mp hfs
    exact List.forall_mem_append.mpr ⟨isAside_charge hf reg, ih hfs _⟩

theorem isAside_reallocationEffects {a : Reallocation} {s : Slice} (ha : a.Concerns s)
    (elastic : Elastic) : ∀ e ∈ reallocationEffects elastic a, IsAside e := by
  unfold reallocationEffects
  refine List.forall_mem_append.mpr ⟨List.forall_mem_append.mpr ⟨?_, ?_⟩, ?_⟩
  · intro e he
    obtain ⟨availability, _, rfl⟩ := List.mem_map.mp he
    exact isAside_info _
  · intro e he
    obtain ⟨p, hp, he⟩ := List.mem_flatMap.mp he
    obtain ⟨resource, slice, total, configured, rfl⟩ := ha.problems p hp
    rcases List.mem_cons.mp he with rfl | he
    · exact isAside_infeasible resource slice total configured
    · rw [List.mem_singleton.mp he]
      exact isAside_problem _
  · split
    · exact List.forall_mem_singleton.mpr rfl
    · simp

/-- The restart report is written beside the configuration. -/
theorem reportRestarts_eq {s : Supervisor} (hs : s.Equipped) :
    ∃ reporter, reporter.name = RestartReport.name ∧
      s.reportRestarts.1 = { s with restartReporter := reporter } ∧
      ∀ e ∈ s.reportRestarts.2, IsAside e := by
  let draft := RestartReport.draft s.registry
  refine ⟨(s.restartReporter.generate draft).reporter,
    (s.restartReporter.reporter_generate draft).1.trans hs.restart, rfl, ?_⟩
  refine List.forall_mem_append.mpr ⟨?_, ?_⟩
  · intro e he
    rcases s.restartReporter.effects_generate draft e he with hdebug | ⟨text, rfl⟩
    · exact isAside_of_isDebug hdebug
    · rw [hs.restart]
      simp [IsAside, RestartReport.name, configReport]
  · split
    · simp
    · exact List.forall_mem_singleton.mpr
        (isAside_error (append_ne_append (k := 12) (by decide) (by decide) (by decide) _))

end Supervisor

end Overseer
