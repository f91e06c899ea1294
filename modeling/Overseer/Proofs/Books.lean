import Mathlib.Logic.Basic
import Overseer.InitConfig
import Overseer.Proofs.Quota
import Overseer.Proofs.Registry

/-!
Bookkeeping, slice by slice.  `find?_update` says what an update makes of the slice under a name,
`keeps_update` that the registry then holds the slices of the configuration and nothing is left to
restart.
-/

namespace Overseer

open Markup

/-- What entering a start entry makes of a slice. -/
def Slice.enter (s : Slice) (start : Element) : Slice :=
  { s with
    configured := start.quotas
    deployVersion := start.amount "version" 0
    internalVersion := s.internalVersion + if s.restartPending then 1 else 0
    restartPending := false }

theorem Slice.name_enter (s : Slice) (start : Element) : (s.enter start).name = s.name := rfl

theorem Slice.enter_enter (s : Slice) (first last : Element) :
    (s.enter first).enter last = s.enter last := by
  simp [enter]

theorem Slice.Bounded.enter {s : Slice} (h : s.Bounded) (start : Element) :
    (s.enter start).Bounded :=
  fun r => ⟨quotas_le start r, (h r).2⟩

theorem Slice.bounded_fresh (name : String) : Slice.Bounded { name } := by
  intro r
  cases r <;> exact ⟨Nat.zero_le _, Nat.zero_le _⟩

namespace InitConfig

/-! ## The entry that counts -/

/-- The last start entry of a name. -/
def lastStart? (starts : List Element) (name : String) : Option Element :=
  (starts.filter (·.startName == name)).getLast?

theorem lastStart?_cons (start : Element) (starts : List Element) (name : String) :
    lastStart? (start :: starts) name =
      (lastStart? starts name).or (if start.startName = name then some start else none) := by
  unfold lastStart?
  by_cases h : start.startName = name
  · rw [List.filter_cons_of_pos (by simpa using h), List.getLast?_cons, if_pos h]
    cases (starts.filter (·.startName == name)).getLast? <;> rfl
  · rw [List.filter_cons_of_neg (by simpa using h), if_neg h, Option.or_none]

theorem lastStart?_eq_none_iff {starts : List Element} {name : String} :
    lastStart? starts name = none ↔ name ∉ starts.map Element.startName := by
  simp [lastStart?]

/-! ## Entering -/

theorem Books.enter_eq {b : Books} {start : Element} {s : Slice}
    (hs : (b.registry.add start.startName).find? start.startName = some s) :
    b.enter start = (⟨((b.registry.add start.startName).update? start.startName
      fun _ => s.enter start).getD (b.registry.add start.startName),
        (b.reallocator.observe s start.quotas).1⟩, overrides (s.enter start)) := by
  have henter : { s with configured := start.quotas
                         deployVersion := start.amount "version" 0 }.updateInternalVersion =
      s.enter start := by
    cases hpending : s.restartPending <;> simp [Slice.updateInternalVersion, Slice.enter, hpending]
  rw [Books.enter]
  simp only [hs, Reallocator.observe, henter]

theorem Books.registry_enter (b : Books) (start : Element) :
    ∃ s, (b.registry.add start.startName).find? start.startName = some s ∧
      s = (b.registry.find? start.startName).getD { name := start.startName } ∧
      (b.enter start).1.registry = ((b.registry.add start.startName).update? start.startName
        fun _ => s.enter start).getD (b.registry.add start.startName) := by
  let s := (b.registry.find? start.startName).getD { name := start.startName }
  have hs : (b.registry.add start.startName).find? start.startName = some s := by
    rw [Registry.find?_add, if_pos rfl]
    cases hfind : b.registry.find? start.startName <;> simp [s, hfind]
  exact ⟨s, hs, rfl, by rw [enter_eq hs]⟩

theorem Books.find?_enter (b : Books) (start : Element) (name : String) :
    (b.enter start).1.registry.find? name =
      if start.startName = name then some (((b.registry.find? name).getD { name }).enter start)
      else b.registry.find? name := by
  obtain ⟨s, hs, hold, hregistry⟩ := b.registry_enter start
  have hname : (s.enter start).name = start.startName :=
    (s.name_enter start).trans (Registry.name_of_find? hs)
  rw [hregistry, Registry.find?_replace hs hname]
  by_cases h : start.startName = name
  · subst h
    rw [if_pos rfl, if_pos rfl, hold]
  · rw [if_neg h, if_neg h, Registry.find?_add, if_neg h, Option.or_none]

theorem Books.nodup_enter {b : Books} (h : b.registry.names.Nodup) (start : Element) :
    (b.enter start).1.registry.names.Nodup := by
  obtain ⟨s, hs, _, hregistry⟩ := b.registry_enter start
  have hname : (s.enter start).name = start.startName :=
    (s.name_enter start).trans (Registry.name_of_find? hs)
  rw [hregistry, Registry.names_replace hname]
  exact Registry.nodup_names_add h _

theorem Books.find?_enterAll (b : Books) (starts : List Element) (name : String) :
    (enterAll b starts).1.registry.find? name =
      match lastStart? starts name with
      | none => b.registry.find? name
      | some start => some (((b.registry.find? name).getD { name }).enter start) := by
  induction starts generalizing b with
  | nil => rfl
  | cons start starts ih =>
    have hrest : (enterAll b (start :: starts)).1 = (enterAll (b.enter start).1 starts).1 := rfl
    rw [hrest, ih, lastStart?_cons, find?_enter]
    cases lastStart? starts name with
    | none => by_cases h : start.startName = name <;> simp [h]
    | some last =>
      by_cases h : start.startName = name
      · simp [h, Slice.enter_enter]
      · simp [h]

theorem Books.nodup_enterAll {b : Books} (h : b.registry.names.Nodup) (starts : List Element) :
    (enterAll b starts).1.registry.names.Nodup := by
  induction starts generalizing b with
  | nil => exact h
  | cons start starts ih => exact ih (nodup_enter h start)

/-! ## Updating -/

theorem isStarted_congr (root : Element) {s t : Slice} (h : s.name = t.name) :
    Registry.isStarted root s = Registry.isStarted root t := by
  simp only [Registry.isStarted, h]

theorem mem_startNames_of_isStarted {root : Element} {s : Slice}
    (h : Registry.isStarted root s = true) : s.name ∈ root.starts.map Element.startName := by
  obtain ⟨start, hstart, hname⟩ := List.any_eq_true.mp h
  refine List.mem_map.mpr ⟨start, hstart, ?_⟩
  rw [Element.startName, beq_iff_eq.mp hname, Option.getD_some]

/-- What an update makes of the slice under a name: there is none if the configuration does not
start it; otherwise the last entry of the name is entered, for a new slice if the name was not
started before. -/
theorem Books.find?_update (b : Books) (root : Element) (name : String) :
    (b.update root).1.registry.find? name = (lastStart? root.starts name).map fun start =>
      (((b.registry.find? name).filter (Registry.isStarted root)).getD { name }).enter start := by
  have hupdate : (b.update root).1 =
      (enterAll { b with registry := b.registry.filter (Registry.isStarted root) }
        root.starts).1 := rfl
  rw [hupdate, find?_enterAll, Registry.find?_filter fun _ _ => isStarted_congr root]
  cases hlast : lastStart? root.starts name with
  | some start => rfl
  | none =>
    rw [Option.map_none, Option.filter_eq_none_iff]
    intro s hs hstarted
    have hname := mem_startNames_of_isStarted hstarted
    rw [Registry.name_of_find? hs] at hname
    exact lastStart?_eq_none_iff.mp hlast hname

theorem Books.nodup_update {b : Books} (h : b.registry.names.Nodup) (root : Element) :
    (b.update root).1.registry.names.Nodup :=
  nodup_enterAll (Registry.nodup_names_filter h) _

/-- Every slice of an updated registry was entered. -/
theorem Books.exists_enter_of_mem {b : Books} (h : b.registry.names.Nodup) {root : Element}
    {s : Slice} (hs : s ∈ (b.update root).1.registry) :
    ∃ start, lastStart? root.starts s.name = some start ∧ s = (((b.registry.find? s.name).filter
      (Registry.isStarted root)).getD { name := s.name }).enter start := by
  have hfind := Registry.find?_of_mem (nodup_update h root) hs
  rw [b.find?_update, Option.map_eq_some_iff] at hfind
  obtain ⟨start, hlast, henter⟩ := hfind
  exact ⟨start, hlast, henter.symm⟩

/-- The registry holds the slices that a configuration starts, each once and as its last entry has
it, and none of them is to restart. -/
structure Keeps (root : Element) (reg : Registry) : Prop where
  nodup : reg.names.Nodup
  started : ∀ name, name ∈ reg.names ↔ name ∈ root.starts.map Element.startName
  entered : ∀ s ∈ reg, ∃ start, lastStart? root.starts s.name = some start ∧
    s.configured = start.quotas ∧ s.deployVersion = start.amount "version" 0
  idle : ∀ s ∈ reg, s.restartPending = false
  bounded : ∀ s ∈ reg, s.Bounded

theorem keeps_update {b : Books} (hnodup : b.registry.names.Nodup)
    (hbounded : ∀ s ∈ b.registry, s.Bounded) (root : Element) :
    Keeps root (b.update root).1.registry := by
  refine ⟨Books.nodup_update hnodup root, ?_, ?_, ?_, ?_⟩
  · intro name
    rw [← not_iff_not, ← Registry.find?_eq_none_iff, b.find?_update, Option.map_eq_none_iff,
      lastStart?_eq_none_iff]
  · intro s hs
    obtain ⟨start, hlast, henter⟩ := Books.exists_enter_of_mem hnodup hs
    refine ⟨start, hlast, ?_, ?_⟩
    · rw [henter]
      rfl
    · rw [henter]
      rfl
  · intro s hs
    obtain ⟨start, _, henter⟩ := Books.exists_enter_of_mem hnodup hs
    rw [henter]
    rfl
  · intro s hs
    obtain ⟨start, _, henter⟩ := Books.exists_enter_of_mem hnodup hs
    rw [henter]
    refine Slice.Bounded.enter ?_ start
    cases hold : (b.registry.find? s.name).filter (Registry.isStarted root) with
    | none => exact Slice.bounded_fresh _
    | some t =>
      exact hbounded t (Registry.mem_of_find? (Option.filter_eq_some_iff.mp hold).1)

/-! ## Versions -/

/-- Every start entry of the configuration has a name. -/
def Named (root : Element) : Prop := ∀ start ∈ root.starts, start.hasAttribute "name" = true

theorem isStarted_iff_of_named {root : Element} (h : Named root) {s : Slice} :
    Registry.isStarted root s = true ↔ s.name ∈ root.starts.map Element.startName := by
  refine ⟨mem_startNames_of_isStarted, fun hmem => ?_⟩
  obtain ⟨start, hstart, hname⟩ := List.mem_map.mp hmem
  obtain ⟨value, hvalue⟩ := Option.isSome_iff_exists.mp (h start hstart)
  refine List.any_eq_true.mpr ⟨start, hstart, ?_⟩
  rw [Element.startName, hvalue, Option.getD_some] at hname
  rw [hvalue, hname, beq_self_eq_true]

/-- A slice that stays started keeps its internal version, or goes to the next one if it is to
restart. -/
theorem find?_update_of_named {b : Books} {root : Element} (hnamed : Named root) {name : String}
    {s : Slice} (hs : b.registry.find? name = some s)
    (hstart : name ∈ root.starts.map Element.startName) :
    ∃ start, lastStart? root.starts name = some start ∧
      (b.update root).1.registry.find? name = some (s.enter start) := by
  cases hlast : lastStart? root.starts name with
  | none => exact absurd hstart (lastStart?_eq_none_iff.mp hlast)
  | some start =>
    have hstarted : Registry.isStarted root s = true := by
      rw [isStarted_iff_of_named hnamed, Registry.name_of_find? hs]
      exact hstart
    refine ⟨start, rfl, ?_⟩
    rw [b.find?_update, hlast, hs, Option.filter_some_pos hstarted]
    rfl

end InitConfig

end Overseer
