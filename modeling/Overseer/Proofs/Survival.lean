import Overseer.Proofs.Accounting
import Overseer.Proofs.Markup.RoundTrip
import Overseer.Proofs.Overrides

/-!
Slices across regenerations.  A slice stays with its failures, its dynamic quota and its versions
while a start entry states its name; the others are dropped, and new names follow in the order of
their first entry (`Retains`).  An entry without a name starts the nameless slice but does not state
it, so that slice is replaced by a fresh one whenever nothing else keeps it
(`nameless_slice_replaced`).
-/

namespace Overseer

open Markup

namespace InitConfig

/-! ## Names -/

/-- A start entry states the name. -/
def states (root : Element) (name : String) : Bool :=
  root.starts.any fun start => start.attribute? "name" == some name

/-- A start entry starts the slice of the name; without a name, it starts the nameless one. -/
def starts (root : Element) (name : String) : Bool :=
  (root.starts.map Element.startName).contains name

/-- The names started besides those of the slices that stay, in the order of their first entries. -/
def newNames (root : Element) (stay : List String) : List String :=
  ((root.starts.map Element.startName).filter fun name => !stay.contains name).eraseDups

theorem starts_iff {root : Element} {name : String} :
    starts root name = true ↔ name ∈ root.starts.map Element.startName :=
  List.contains_iff_mem

theorem starts_of_states {root : Element} {name : String} (h : states root name = true) :
    starts root name = true :=
  starts_iff.mpr (mem_startNames_of_isStarted (s := { name }) h)

/-- Only the nameless slice can be started and not stated. -/
theorem states_eq_starts {root : Element} {name : String}
    (h : name = "" → starts root "" = true → states root "" = true) :
    states root name = starts root name := by
  rw [Bool.eq_iff_iff]
  refine ⟨starts_of_states, fun hstarts => ?_⟩
  by_cases hname : name = ""
  · subst hname
    exact h rfl hstarts
  obtain ⟨start, hstart, hstartName⟩ := List.mem_map.mp (starts_iff.mp hstarts)
  refine List.any_eq_true.mpr ⟨start, hstart, ?_⟩
  rw [Element.startName] at hstartName
  cases hattribute : start.attribute? "name" with
  | none =>
    rw [hattribute] at hstartName
    exact absurd hstartName.symm hname
  | some value =>
    rw [hattribute, Option.getD_some] at hstartName
    rw [hstartName, beq_self_eq_true]

theorem Books.names_enter (b : Books) (start : Element) :
    (b.enter start).1.registry.names = (b.registry.add start.startName).names := by
  obtain ⟨s, hs, _, hregistry⟩ := b.registry_enter start
  rw [hregistry]
  exact Registry.names_replace ((s.name_enter start).trans (Registry.name_of_find? hs))

/-- Entering keeps the names that are there and adds the others in order. -/
theorem Books.names_enterAll (b : Books) (entries : List Element) :
    (enterAll b entries).1.registry.names = b.registry.names ++
      ((entries.map Element.startName).filter fun name =>
        !b.registry.names.contains name).eraseDups := by
  induction entries generalizing b with
  | nil => simp [enterAll]
  | cons start entries ih =>
    have hrest : (enterAll b (start :: entries)).1 = (enterAll (b.enter start).1 entries).1 := rfl
    rw [hrest, ih, names_enter, Registry.names_add, List.map_cons]
    by_cases h : start.startName ∈ b.registry.names
    · rw [if_pos h, List.filter_cons_of_neg (by simpa using h)]
    · -- the new name is there for the rest, which is what `eraseDups` makes of it
      rw [if_neg h, List.filter_cons_of_pos (by simpa using h), List.eraseDups_cons,
        List.filter_filter, List.append_assoc, List.singleton_append]
      congr 4
      funext name
      simp [Bool.and_comm, Bool.beq_eq_decide_eq]

theorem Books.names_update (b : Books) (root : Element) :
    (b.update root).1.registry.names =
      b.registry.names.filter (states root) ++
        newNames root (b.registry.names.filter (states root)) := by
  have hkept : Registry.names (b.registry.filter (Registry.isStarted root)) =
      b.registry.names.filter (states root) := by
    rw [Registry.names, Registry.names, List.filter_map]
    rfl
  have hupdate : (b.update root).1 =
      (enterAll { b with registry := b.registry.filter (Registry.isStarted root) }
        root.starts).1 := rfl
  rw [hupdate, names_enterAll, hkept]
  rfl

end InitConfig

/-! ## Retaining -/

/-- Slices whose name is one that stays are kept with their bookkeeping, up to the version that
carries out a pending restart.  All others are dropped, and fresh slices for the other names that
the configuration starts come behind them. -/
structure Registry.Retains (stays : String → Bool) (root : Element) (before after : Registry) :
    Prop where
  kept : ∀ s ∈ before, stays s.name = true → ∃ t ∈ after, t.name = s.name ∧
    t.failures = s.failures ∧ t.dynamic = s.dynamic ∧
    t.internalVersion = s.internalVersion + if s.restartPending then 1 else 0
  names : after.names =
    before.names.filter stays ++ InitConfig.newNames root (before.names.filter stays)
  fresh : ∀ t ∈ after, t.name ∉ before.names.filter stays →
    t.failures = [] ∧ t.dynamic = ⟨0, 0⟩ ∧ t.internalVersion = 0

theorem Registry.Retains.congr {stays stays' : String → Bool} {root : Element}
    {before after : Registry} (h : Retains stays root before after)
    (hstays : ∀ name ∈ before.names, stays name = stays' name) :
    Retains stays' root before after := by
  have hfilter : before.names.filter stays' = before.names.filter stays :=
    (List.filter_congr hstays).symm
  refine ⟨fun s hs hstay => ?_, ?_, ?_⟩
  · refine h.kept s hs ?_
    rw [hstays s.name (List.mem_map_of_mem hs)]
    exact hstay
  · rw [hfilter]
    exact h.names
  · rw [hfilter]
    exact h.fresh

theorem InitConfig.Books.retains_update {b : Books} (h : b.registry.names.Nodup) (root : Element) :
    Registry.Retains (states root) root b.registry (b.update root).1.registry where
  names := b.names_update root
  kept := by
    intro s hs hstay
    have hstarts := starts_iff.mp (starts_of_states hstay)
    cases hlast : lastStart? root.starts s.name with
    | none => exact absurd hstarts (lastStart?_eq_none_iff.mp hlast)
    | some start =>
      have hstarted : Registry.isStarted root s = true := hstay
      have hfind := b.find?_update root s.name
      rw [hlast, Registry.find?_of_mem h hs, Option.filter_some_pos hstarted] at hfind
      exact ⟨s.enter start, Registry.mem_of_find? hfind, rfl, rfl, rfl, rfl⟩
  fresh := by
    intro t ht hnew
    obtain ⟨start, _, henter⟩ := exists_enter_of_mem h ht
    cases hold : (b.registry.find? t.name).filter (Registry.isStarted root) with
    | none =>
      rw [hold, Option.getD_none] at henter
      rw [henter]
      exact ⟨rfl, rfl, rfl⟩
    | some old =>
      obtain ⟨hfind, hstarted⟩ := Option.filter_eq_some_iff.mp hold
      refine absurd (List.mem_filter.mpr ⟨Registry.mem_names_of_find? hfind, ?_⟩) hnew
      rw [← Registry.name_of_find? hfind]
      exact hstarted

namespace Supervisor

/-! ## Regenerations -/

/-- The states from which a call may publish the configuration anew: its own is accepted, or its
findings are charged and what remains is assigned. -/
inductive Readies (s : Supervisor) : Call → Supervisor → Prop where
  | accepted {text : String} {c : InitConfig} (h : InitConfig.parse text = .ok c) :
      Readies s (.updateConfig text) { s with config := some c }
  | reported {state : Element} {label : Label} {t : Supervisor} {events : List Event}
      (h : ¬ state.children.length ≤ 1)
      (hassigns : Assigns (s.charged state label) state t events) :
      Readies s (.handleReport state label) t

theorem Assigns.names {s t : Supervisor} {state : Element} {events : List Event}
    (h : Assigns s state t events) : t.registry.names = s.registry.names := by
  cases h with
  | nothing => rfl
  | elastic _ hslice _ => exact (Registry.prepared_replace hslice (concerns_assign ..)).names

theorem Readies.names {s t : Supervisor} {call : Call} (h : s.Readies call t) :
    t.registry.names = s.registry.names := by
  cases h with
  | accepted _ => rfl
  | reported _ hassigns => exact hassigns.names.trans (Registry.names_chargeAll _ _)

theorem Readies.equipped {s t : Supervisor} {call : Call} (h : s.Readies call t)
    (hs : s.Equipped) : t.Equipped := by
  cases h with
  | accepted _ => exact ⟨hs.name, hs.root, hs.restart⟩
  | reported _ hassigns => exact hassigns.equipped (hs.charged _ _)

theorem retains_regenerate {s : Supervisor} {c : InitConfig} (hc : s.config = some c)
    (hs : s.Equipped) (hnodup : s.registry.names.Nodup) :
    Registry.Retains (InitConfig.states c.root) c.root s.registry s.regenerate.1.registry := by
  rw [registry_regenerate hc hs]
  exact InitConfig.Books.retains_update (b := ⟨s.registry, s.reallocator⟩) hnodup c.root

/-- A call leaves the slices alone or changes them as one of the states before a regeneration
says, by that regeneration or without it. -/
theorem registry_answer (s : Supervisor) (call : Call) :
    (s.answer call).1.registry = s.registry ∨ ∃ t, s.Readies call t ∧
      ((s.answer call).1.registry = t.registry ∨
        (s.answer call).1.registry = t.regenerate.1.registry) := by
  have hsteps := s.answer_steps call
  generalize (s.answer call).1 = after at hsteps ⊢
  cases hsteps with
  | refused _ => exact .inl rfl
  | accepted h => exact .inr ⟨_, .accepted h, .inr rfl⟩
  | ignored _ => exact .inl rfl
  | assigned h hassigns _ => exact .inr ⟨_, .reported h hassigns, .inl rfl⟩
  | regenerated h hassigns _ => exact .inr ⟨_, .reported h hassigns, .inr rfl⟩

/-- Whenever a call publishes the configuration anew, a slice survives with its bookkeeping just if
a start entry states its name.  Those are all the slices that are started, unless the nameless one is
there and is started only by entries without a name. -/
theorem slices_retained (settings : Settings) (calls : List Call) (call : Call) :
    let s := after settings calls
    (∀ t c, s.Readies call t → t.config = some c →
      Registry.Retains (InitConfig.states c.root) c.root t.registry t.regenerate.1.registry ∧
      (("" ∈ s.registry.names → InitConfig.starts c.root "" = true →
          InitConfig.states c.root "" = true) →
        Registry.Retains (InitConfig.starts c.root) c.root t.registry
          t.regenerate.1.registry)) ∧
    ((s.answer call).1.registry = s.registry ∨ ∃ t, s.Readies call t ∧
      ((s.answer call).1.registry = t.registry ∨
        (s.answer call).1.registry = t.regenerate.1.registry)) := by
  intro s
  obtain ⟨_, _, hstanding, _⟩ := run_new settings calls
  refine ⟨fun t c hreadies hc => ?_, s.registry_answer call⟩
  have hretains := retains_regenerate hc (hreadies.equipped hstanding.equipped)
    (hreadies.names ▸ hstanding.nodup)
  refine ⟨hretains, fun hnameless => hretains.congr fun name hname => ?_⟩
  refine InitConfig.states_eq_starts fun hempty => hnameless ?_
  rw [← hempty, ← hreadies.names]
  exact hname

theorem web_slices_retained : ∃ t,
    (after {} webStarted).Readies (.handleReport troubledState ⟨["init", "state"]⟩) t ∧
    t.config = some (InitConfig.webConfig 1) ∧ t.registry.map Slice.restartPending = [true] ∧
    Registry.Retains (InitConfig.starts (InitConfig.webConfig 1).root) (InitConfig.webConfig 1).root
      t.registry t.regenerate.1.registry := by
  have hc : (after {} webStarted).config = some (InitConfig.webConfig 1) := by
    rw [config_after, webStarted, List.filterMap_cons_some (accepted?_own_text _)]
    rfl
  have hslices : (after {} webStarted).registry.names = ["web"] := by
    simp only [webStarted, after_started]
    decide +kernel
  have hpending : ((after {} webStarted).charged troubledState ⟨["init", "state"]⟩).registry.map
      Slice.restartPending = [true] := by
    simp only [webStarted, after_started]
    decide +kernel
  have hready : (after {} webStarted).Readies (.handleReport troubledState ⟨["init", "state"]⟩)
      ((after {} webStarted).charged troubledState ⟨["init", "state"]⟩) :=
    .reported (by decide +kernel) .nothing
  obtain ⟨_, hretains⟩ := (slices_retained {} webStarted _).1 _ _ hready hc
  refine ⟨_, hready, hc, hpending, hretains fun hnameless => ?_⟩
  rw [hslices] at hnameless
  exact absurd hnameless (by decide)

def namelessTree : Markup.Tree := .node "config" [] [.node "start" [("caps", "1")] []]

theorem namelessTree_writable : namelessTree.Writable := by
  simp only [namelessTree, Markup.Tree.Writable, AllWritable]
  decide

/-- The only start entry has no name. -/
def namelessConfig : InitConfig where
  text := namelessTree.element.source
  root := namelessTree.element
  parse_text :=
    parse_render (obeys_tree _ namelessTree_writable).1 (obeys_tree _ namelessTree_writable).2

/-- A component without a name skipped heartbeats. -/
def namelessFault : Element :=
  (Markup.Tree.node "state" []
    [.node "child" [("skipped_heartbeats", "4")] [], .node "child" [] []]).element

def failedSlice : Slice :=
  { name := "", restartPending := true, configured := ⟨1, 0⟩,
    failures := [{ label := "", heartbeat := 1 }] }

/-- The nameless slice is started before and after, and still it loses its failures and the restart
that is pending. -/
theorem nameless_slice_replaced : ∃ t,
    (after {} [.updateConfig namelessConfig.text]).Readies
      (.handleReport namelessFault ⟨["init", "state"]⟩) t ∧
    t.config = some namelessConfig ∧ InitConfig.starts namelessConfig.root "" = true ∧
    t.registry = [failedSlice] ∧
    t.regenerate.1.registry = [{ name := "", configured := ⟨1, 0⟩ }] ∧
    (after {} [.updateConfig namelessConfig.text,
      .handleReport namelessFault ⟨["init", "state"]⟩]).registry = t.regenerate.1.registry ∧
    ¬ Registry.Retains (InitConfig.starts namelessConfig.root) namelessConfig.root t.registry
      t.regenerate.1.registry := by
  let t := (after {} [.updateConfig namelessConfig.text]).charged namelessFault ⟨["init", "state"]⟩
  have hready : (after {} [.updateConfig namelessConfig.text]).Readies
      (.handleReport namelessFault ⟨["init", "state"]⟩) t :=
    .reported (by decide +kernel) .nothing
  have hc : t.config = some namelessConfig := by
    show (after {} [.updateConfig namelessConfig.text]).config = _
    rw [config_after, List.filterMap_cons_some (accepted?_own_text _)]
    rfl
  have hstarts : InitConfig.starts namelessConfig.root "" = true := by decide +kernel
  have hbefore : t.registry = [failedSlice] := by
    simp only [t, after_started]
    decide +kernel
  have hafter : t.regenerate.1.registry = [{ name := "", configured := ⟨1, 0⟩ }] := by
    simp only [t, after_started]
    decide +kernel
  have hanswer : (after {} [.updateConfig namelessConfig.text,
      .handleReport namelessFault ⟨["init", "state"]⟩]).registry = t.regenerate.1.registry := by
    rw [hafter]
    simp only [after_started]
    decide +kernel
  refine ⟨t, hready, hc, hstarts, hbefore, hafter, hanswer, fun hretains => ?_⟩
  obtain ⟨kept, hkept, _, hfailures, _⟩ :=
    hretains.kept failedSlice (hbefore ▸ List.mem_singleton_self _) hstarts
  rw [hafter, List.mem_singleton] at hkept
  rw [hkept] at hfailures
  cases hfailures

end Supervisor

end Overseer
