import Mathlib.Data.List.Forall2
import Overseer.Proofs.Commuting

/-!
The order of the children in a report does not matter.  Failures are charged by names, so another
order of them leaves the same slices with their records in another order (`matches_chargeAll`), and
tells of the same failures; sums of figures have no order.  What follows does not look at records:
from slices that match, an update, an assignment and a publication make slices that match, and with
the same effects (`react_concurs`).
-/

namespace Overseer

open Markup

/-! ## Reports in another order -/

/-- The reports have the same children in another order.  Their other elements are the same. -/
structure Rearranged (state state' : Element) : Prop where
  children : (state.childrenNamed "child").Perm (state'.childrenNamed "child")
  others : (state.children.filter fun e => !(e.name == "child")) =
    state'.children.filter fun e => !(e.name == "child")

namespace Rearranged

variable {state state' : Element} (h : Rearranged state state')
include h

theorem children_length : state.children.length = state'.children.length := by
  have hsplit (e : Element) : e.children.length =
      (e.childrenNamed "child").length + (e.children.filter fun c => !(c.name == "child")).length :=
    List.length_eq_length_filter_add _
  rw [hsplit state, hsplit state', h.children.length_eq, h.others]

theorem child?_eq {name : String} (hname : name ≠ "child") :
    state.child? name = state'.child? name := by
  have hother (e : Element) : e.child? name =
      (e.children.filter fun c => !(c.name == "child")).find? (·.name == name) := by
    rw [List.find?_filter, Element.child?]
    congr 1
    funext c
    by_cases hc : c.name = name
    · simp [hc, hname]
    · simp [hc]
  rw [hother state, hother state', h.others]

theorem figure_eq (r : Resource) (name : String) : state.figure r name = state'.figure r name := by
  have hword : r.word ≠ "child" := by cases r <;> decide
  rw [Element.figure, Element.figure, h.child?_eq hword]

theorem availability_eq : Availability.ofState state = Availability.ofState state' := by
  have hchildren (r : Resource) (name : String) :
      Amount.sum ((Availability.reported state).map fun e => e.figure r name) =
        Amount.sum ((Availability.reported state').map fun e => e.figure r name) :=
    Amount.sum_perm (h.children.map _)
  have hall (r : Resource) (name : String) :
      Amount.sum ((state :: Availability.reported state).map fun e => e.figure r name) =
        Amount.sum ((state' :: Availability.reported state').map fun e => e.figure r name) := by
    rw [List.map_cons, List.map_cons, h.figure_eq]
    exact Amount.sum_perm ((h.children.map _).cons _)
  simp only [Availability.ofState, hchildren, hall]
  rw [Availability.reported, h.children.length_eq, ← Availability.reported]

theorem findings_perm (threshold : Nat) (scope : Scope) :
    (findingsOf state threshold scope).Perm (findingsOf state' threshold scope) :=
  h.children.flatMap_right _

end Rearranged

/-! ## Slices that match -/

namespace Slice

theorem Matches.exists_eq {s t : Slice} (h : s.Matches t) :
    ∃ failures, t = { s with failures } ∧ s.failures.Perm failures :=
  ⟨t.failures, h.same.symm, h.failures⟩

theorem Matches.name_eq {s t : Slice} (h : s.Matches t) : s.name = t.name := by
  obtain ⟨failures, rfl, _⟩ := h.exists_eq
  rfl

theorem matches_charge {s : Slice} (h : (labelsOf s.failures).Nodup) {ds es : List Detection}
    (hds : ds.Perm es) : (s.charge ds).Matches (s.charge es) where
  same := by simp only [charge, hds.isEmpty_eq]
  failures := perm_tallyAll hds h

theorem Matches.enter {s t : Slice} (h : s.Matches t) (start : Element) :
    (s.enter start).Matches (t.enter start) := by
  obtain ⟨failures, rfl, hfailures⟩ := h.exists_eq
  exact ⟨rfl, hfailures⟩

theorem overlooked_failures (failures : List FailureRecord) :
    Overlooked fun s => { s with failures } :=
  ⟨fun _ => rfl, fun _ => rfl, fun _ _ => rfl⟩

end Slice

namespace Registry

/-- Failures charged in another order leave the same slices. -/
theorem matches_chargeAll {reg : Registry} (hnodup : reg.names.Nodup)
    (hlabels : ∀ s ∈ reg, (labelsOf s.failures).Nodup) {fs gs : List Finding} (h : fs.Perm gs) :
    List.Forall₂ Slice.Matches (reg.chargeAll fs).1 (reg.chargeAll gs).1 := by
  rw [chargeAll_eq_map hnodup, chargeAll_eq_map hnodup, List.forall₂_map_left_iff,
    List.forall₂_map_right_iff, List.forall₂_same]
  exact fun s hs => Slice.matches_charge (hlabels s hs) ((h.filterMap _).filter _)

/-- The same failures are told of. -/
theorem effects_chargeAll_perm (reg : Registry) {fs gs : List Finding} (h : fs.Perm gs) :
    (reg.chargeAll fs).2.Perm (reg.chargeAll gs).2 := by
  rw [effects_chargeAll, effects_chargeAll]
  exact h.flatMap_right _

section
variable {reg other : Registry} (h : List.Forall₂ Slice.Matches reg other)
include h

theorem names_eq_of_matches : reg.names = other.names := by
  have hsame := congrArg names (Slice.map_withoutFailures h)
  rwa [names_map Slice.name_withoutFailures, names_map Slice.name_withoutFailures] at hsame

theorem restartRequired_eq_of_matches : reg.restartRequired = other.restartRequired := by
  have hsame := congrArg restartRequired (Slice.map_withoutFailures h)
  rw [restartRequired, restartRequired, List.any_map, List.any_map] at hsame
  exact hsame

/-- Under a name there is a slice in both registries, or in neither. -/
theorem find?_of_matches (name : String) :
    (reg.find? name = none ∧ other.find? name = none) ∨
      ∃ s t, reg.find? name = some s ∧ other.find? name = some t ∧ s.Matches t := by
  induction h with
  | nil => exact .inl ⟨rfl, rfl⟩
  | @cons s t reg other hst _ ih =>
    rw [find?_cons, find?_cons, ← hst.name_eq]
    by_cases hs : s.name = name
    · rw [if_pos hs, if_pos hs]
      exact .inr ⟨s, t, rfl, rfl, hst⟩
    · rw [if_neg hs, if_neg hs]
      exact ih

theorem add_of_matches (name : String) :
    List.Forall₂ Slice.Matches (reg.add name) (other.add name) := by
  have hcontains : reg.contains name = other.contains name := by
    rw [Bool.eq_iff_iff, contains_iff, contains_iff, names_eq_of_matches h]
  rw [add, add, ← hcontains]
  split
  · exact h
  · exact List.rel_append h (.cons (.refl _) .nil)

theorem filter_of_matches {p : Slice → Bool} (hp : ∀ s t : Slice, s.name = t.name → p s = p t) :
    List.Forall₂ Slice.Matches (reg.filter p) (other.filter p) :=
  List.rel_filter (fun s t hst => Iff.of_eq (congrArg (· = true) (hp s t hst.name_eq))) h

theorem replace_of_matches {s t : Slice} (hst : s.Matches t) (name : String) :
    List.Forall₂ Slice.Matches ((reg.update? name fun _ => s).getD reg)
      ((other.update? name fun _ => t).getD other) := by
  induction h with
  | nil => exact .nil
  | @cons u v reg other huv hrest ih =>
    rw [replace_cons, replace_cons, ← huv.name_eq]
    by_cases hu : u.name = name
    · rw [if_pos hu, if_pos hu]
      exact .cons hst hrest
    · rw [if_neg hu, if_neg hu]
      exact .cons huv ih

end

end Registry

namespace InitConfig

/-! ## Books that match -/

/-- The slices match, and the reallocator is the same. -/
structure Books.Matches (b b' : Books) : Prop where
  registry : List.Forall₂ Slice.Matches b.registry b'.registry
  reallocator : b.reallocator = b'.reallocator

theorem overrides_of_matches {s t : Slice} (h : s.Matches t) : overrides s = overrides t := by
  obtain ⟨failures, rfl, _⟩ := h.exists_eq
  rfl

theorem enter_of_matches {b b' : Books} (h : b.Matches b') (start : Element) :
    (b.enter start).1.Matches (b'.enter start).1 ∧ (b.enter start).2 = (b'.enter start).2 := by
  have hadded := Registry.add_of_matches h.registry start.startName
  rcases Registry.find?_of_matches hadded start.startName with
    ⟨hnone, hnone'⟩ | ⟨s, t, hs, ht, hst⟩
  · simp only [Books.enter, hnone, hnone', and_true]
    exact h
  · have hentered := hst.enter start
    rw [Books.enter_eq hs, Books.enter_eq ht]
    refine ⟨⟨Registry.replace_of_matches hadded hentered _, ?_⟩, overrides_of_matches hentered⟩
    obtain ⟨failures, rfl, _⟩ := hst.exists_eq
    rw [h.reallocator]
    rfl

theorem enterAll_of_matches {b b' : Books} (h : b.Matches b') (starts : List Element) :
    (Books.enterAll b starts).1.Matches (Books.enterAll b' starts).1 ∧
      (Books.enterAll b starts).2 = (Books.enterAll b' starts).2 := by
  induction starts generalizing b b' with
  | nil => exact ⟨h, rfl⟩
  | cons start starts ih =>
    obtain ⟨hfirst, heffects⟩ := enter_of_matches h start
    obtain ⟨hrest, hmore⟩ := ih hfirst
    exact ⟨hrest, congrArg₂ (· ++ ·) heffects hmore⟩

theorem update_of_matches {b b' : Books} (h : b.Matches b') (root : Element) :
    (b.update root).1.Matches (b'.update root).1 ∧ (b.update root).2 = (b'.update root).2 := by
  have hkept := Registry.filter_of_matches h.registry fun _ _ => isStarted_congr root
  have hremoved := Registry.filter_of_matches h.registry fun _ _ hname =>
    congrArg not (isStarted_congr root hname)
  have hstart : Books.Matches ⟨b.registry.filter (Registry.isStarted root), b.reallocator⟩
      ⟨b'.registry.filter (Registry.isStarted root), b'.reallocator⟩ := ⟨hkept, h.reallocator⟩
  obtain ⟨hentered, heffects⟩ := enterAll_of_matches hstart root.starts
  have hnames := Registry.names_eq_of_matches hremoved
  refine ⟨hentered, ?_⟩
  rw [Registry.names, Registry.names] at hnames
  simp only [Books.update, Registry.removeOutdated, hnames, heffects]

end InitConfig

theorem Reallocator.assign_rearranged {state state' : Element} (h : Rearranged state state')
    (a : Reallocator) (config : Element) (s : Slice) :
    a.assign state config s = a.assign state' config s := by
  rw [assign, assign, h.availability_eq]

namespace Supervisor

/-! ## Supervisors that resemble each other -/

/-- The supervisors have the same books, and the rest is the same but how restarts are reported. -/
structure Resembles (s t : Supervisor) : Prop extends SameBooks s t where
  config : s.config = t.config
  elastic : s.elastic = t.elastic
  configReporter : s.configReporter = t.configReporter

/-- Supervisors that resemble each other, with the same effects. -/
structure Concurs (o p : Supervisor × List Effect) : Prop where
  state : o.1.Resembles p.1
  effects : o.2 = p.2

theorem Resembles.still {s t : Supervisor} (h : s.Resembles t) (es : List Effect) :
    Concurs (s, es) (t, es) := ⟨h, rfl⟩

theorem Concurs.after {o p : Supervisor × List Effect} (h : Concurs o p) (es : List Effect) :
    Concurs (o.1, es ++ o.2) (p.1, es ++ p.2) :=
  ⟨h.state, by rw [h.effects]⟩

theorem resembles_refl (s : Supervisor) : s.Resembles s :=
  ⟨⟨List.forall₂_same.mpr fun slice _ => .refl slice, rfl, rfl, rfl⟩, rfl, rfl, rfl⟩

section
variable {s t : Supervisor} (h : s.Resembles t)
include h

theorem publish_concurs (root : Element) : Concurs (s.publish root) (t.publish root) := by
  have hdraft := draft_of_matches h.slices root
  have htotals := totals_of_matches h.slices
  unfold publish
  dsimp only
  rw [← h.configReporter, ← hdraft, ← htotals]
  cases (s.configReporter.generate (InitConfig.draft root s.registry)).result with
  | error e =>
    exact ⟨⟨⟨h.slices, h.reallocator, h.totals, h.regenerations⟩, h.config, h.elastic, rfl⟩, rfl⟩
  | ok runs =>
    have hcount : s.regenerations + 1 = t.regenerations + 1 := congrArg (· + 1) h.regenerations
    exact ⟨⟨⟨h.slices, h.reallocator, rfl, hcount⟩, h.config, h.elastic, rfl⟩, rfl⟩

theorem regenerate_concurs : Concurs s.regenerate t.regenerate := by
  cases hc : s.config with
  | none =>
    rw [regenerate_unconfigured hc, regenerate_unconfigured (h.config.symm.trans hc)]
    exact h.still _
  | some c =>
    have hbefore : InitConfig.Books.Matches ⟨s.registry, s.reallocator⟩
        ⟨t.registry, t.reallocator⟩ := ⟨h.slices, h.reallocator⟩
    obtain ⟨hbooks, hbooked⟩ := InitConfig.update_of_matches hbefore c.root
    have hentered : (s.entered c).Resembles (t.entered c) :=
      ⟨⟨hbooks.registry, hbooks.reallocator, h.totals, h.regenerations⟩, h.config, h.elastic,
        h.configReporter⟩
    rw [regenerate_of_config hc, regenerate_of_config (h.config.symm.trans hc), hbooked]
    exact (publish_concurs hentered c.root).after _

/-- An assignment looks neither at records nor at the order of the children. -/
theorem reallocate_concurs {state state' : Element} (hstate : Rearranged state state')
    (elastic : Elastic) : Concurs (s.reallocate state elastic) (t.reallocate state' elastic) := by
  rcases Registry.find?_of_matches h.slices elastic.slice with
    ⟨hnone, hnone'⟩ | ⟨slice, slice', hslice, hslice', hmatches⟩
  · rw [reallocate_missing hnone, reallocate_missing hnone']
    exact (regenerate_concurs h).after _
  cases hc : s.config with
  | none =>
    rw [reallocate_unconfigured hc hslice,
      reallocate_unconfigured (h.config.symm.trans hc) hslice']
    exact h.still []
  | some c =>
    obtain ⟨failures, rfl, hfailures⟩ := hmatches.exists_eq
    let g (s : Slice) : Slice := { s with failures }
    let a := s.reallocator.assign state c.root slice
    have hassign : t.reallocator.assign state' c.root (g slice) = a.mapSlice g := by
      rw [← h.reallocator, ← Reallocator.assign_rearranged hstate]
      exact Reallocator.assign_overlooked (Slice.overlooked_failures failures) _ _ _ _
    have hassigned : a.slice.Matches (g a.slice) := by
      obtain ⟨dynamic, hdynamic⟩ := (concerns_assign s.reallocator state c.root slice).slice
      refine ⟨rfl, ?_⟩
      rw [hdynamic]
      exact hfailures
    have hreassigned : (s.reassigned elastic a).Resembles (t.reassigned elastic (a.mapSlice g)) :=
      ⟨⟨Registry.replace_of_matches h.slices hassigned _, rfl, h.totals, h.regenerations⟩, h.config,
        h.elastic, h.configReporter⟩
    have hupdated : (a.mapSlice g).updated = a.updated := rfl
    rw [reallocate_eq hc hslice, reallocate_eq (h.config.symm.trans hc) hslice', hassign, hupdated]
    split
    · exact (regenerate_concurs hreassigned).after _
    · exact hreassigned.still _

theorem react_concurs {state state' : Element} (hstate : Rearranged state state') (label : Label) :
    Concurs (s.react state label) (t.react state' label) := by
  have hempty : s.registry = [] ↔ t.registry = [] := by
    rw [← List.length_eq_zero_iff, h.slices.length_eq, List.length_eq_zero_iff]
  unfold react
  simp only [← Registry.restartRequired_eq_of_matches h.slices, ← h.elastic, ne_eq, ← hempty]
  split
  · exact regenerate_concurs h
  · split
    · exact h.still []
    · split
      · exact reallocate_concurs h hstate _
      · exact h.still []

theorem reportRestarts_resembles : s.reportRestarts.1.Resembles t.reportRestarts.1 :=
  ⟨⟨h.slices, h.reallocator, h.totals, h.regenerations⟩, h.config, h.elastic, h.configReporter⟩

end

/-- One report with its children in another order. -/
theorem handleReport_rearranged {s : Supervisor} (hnodup : s.registry.names.Nodup)
    (hlabels : ∀ slice ∈ s.registry, (labelsOf slice.failures).Nodup) {state state' : Element}
    (h : Rearranged state state') (label : Label) :
    (s.handleReport state label).1.Resembles (s.handleReport state' label).1 ∧
      ((s.handleReport state label).2.filterMap Effect.event?).Perm
        ((s.handleReport state' label).2.filterMap Effect.event?) := by
  by_cases hfew : state.children.length ≤ 1
  · have hfew' : state'.children.length ≤ 1 := h.children_length ▸ hfew
    rw [handleReport, handleReport, if_pos hfew, if_pos hfew']
    exact ⟨resembles_refl s, .refl _⟩
  have hfew' : ¬ state'.children.length ≤ 1 := h.children_length ▸ hfew
  have hfindings := h.findings_perm s.threshold label.scope
  have hcharged : (s.charged state label).Resembles (s.charged state' label) :=
    ⟨⟨Registry.matches_chargeAll hnodup hlabels hfindings, rfl, rfl, rfl⟩, rfl, rfl, rfl⟩
  have hreacted := react_concurs hcharged h label
  have hsilent (u : Supervisor) : u.reportRestarts.2.filterMap Effect.event? = [] :=
    filterMap_event?_eq_nil (announces_reportRestarts u)
  rw [handleReport_eq hfew, handleReport_eq hfew']
  refine ⟨reportRestarts_resembles hreacted.state, ?_⟩
  simp only [List.filterMap_append, hsilent, List.append_nil, hreacted.effects]
  exact ((Registry.effects_chargeAll_perm s.registry hfindings).filterMap _).append_right _

/-- The order of the children in a report does not matter in whatever state calls lead to: the
slices and all that is counted of them are the same but for the order of records, the same
configuration is published, and the same events, in some order. -/
theorem child_order_immaterial (settings : Settings) (calls : List Call) {state state' : Element}
    (h : Rearranged state state') (label : Label) :
    let s := after settings calls
    let there := calls ++ [.handleReport state label]
    let back := calls ++ [.handleReport state' label]
    (after settings there).SameBooks (after settings back) ∧
      (storeAfter settings there).latest? configReport =
        (storeAfter settings back).latest? configReport ∧
      ((s.handleReport state label).2.filterMap Effect.event?).Perm
        ((s.handleReport state' label).2.filterMap Effect.event?) := by
  intro s there back
  obtain ⟨_, _, hbefore, _⟩ := run_new settings calls
  obtain ⟨texts, htells, hstanding, _⟩ := run_new settings there
  obtain ⟨texts', htells', hstanding', _⟩ := run_new settings back
  obtain ⟨hresembles, hevents⟩ :=
    handleReport_rearranged hbefore.nodup (labels_nodup_after settings calls) h label
  have hthere : after settings there = (s.handleReport state label).1 := after_snoc ..
  have hback : after settings back = (s.handleReport state' label).1 := after_snoc ..
  rw [← hthere, ← hback] at hresembles
  refine ⟨hresembles.toSameBooks, ?_, hevents⟩
  rw [latest?_storeAfter htells, latest?_storeAfter htells']
  exact hstanding.latest_congr hstanding' hresembles.config hresembles.slices

/-- A report from inside `web`: two components failed, the second of them in two ways. -/
def faultyChildren : List Element :=
  [writtenElement "child".toList
    ([("name", "disk"), ("cpu_fault", "yes")].map InitConfig.written) [],
   writtenElement "child".toList
    ([("name", "net"), ("pd_fault", "yes"), ("skipped_heartbeats", "3")].map InitConfig.written) []]

def faultyState (children : List Element) : Element :=
  writtenElement "state".toList [] (children.map .child)

/-- The components of `web` are recorded in the order in which they are reported, and nothing else
depends on it. -/
theorem web_child_order :
    let label : Label := ⟨["init", "web", "state"]⟩
    let there := batchStarted ++ [.handleReport (faultyState faultyChildren) label]
    let back := batchStarted ++ [.handleReport (faultyState faultyChildren.reverse) label]
    Rearranged (faultyState faultyChildren) (faultyState faultyChildren.reverse) ∧
      (after batchSettings there).registry.map (fun s => (s.name, s.internalVersion,
        labelsOf s.failures)) = [("batch", 0, []), ("web", 1, ["web -> disk", "web -> net"])] ∧
      (after batchSettings back).registry.map (fun s => (s.name, s.internalVersion,
        labelsOf s.failures)) = [("batch", 0, []), ("web", 1, ["web -> net", "web -> disk"])] ∧
      (after batchSettings there).SameBooks (after batchSettings back) := by
  intro label there back
  have hrearranged : Rearranged (faultyState faultyChildren)
      (faultyState faultyChildren.reverse) := ⟨List.Perm.swap .., rfl⟩
  refine ⟨hrearranged, ?_, ?_,
    (child_order_immaterial batchSettings batchStarted hrearranged label).1⟩
  · simp only [there, batchStarted, List.singleton_append, after_started]
    decide +kernel
  · simp only [back, batchStarted, List.singleton_append, after_started]
    decide +kernel

end Supervisor

end Overseer
