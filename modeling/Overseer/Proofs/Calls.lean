import Overseer.Proofs.Aside

/-!
Calls of a supervisor and what they come to.  `answer_cases`: a call leaves what is published alone,
or it publishes a configuration anew with the registry that it prepared for that.
-/

namespace Overseer

open Markup

/-! ## Preparations -/

/-- Nothing changes in the slices but their failures and dynamic quotas, and that those marked are
to restart. -/
structure Registry.Prepared (marks : List String) (reg prepared : Registry) : Prop where
  names : prepared.names = reg.names
  slices : ∀ {name : String} {s : Slice}, reg.find? name = some s → ∃ failures dynamic,
    prepared.find? name = some { s with
      failures, dynamic, restartPending := s.restartPending || marks.contains name } ∧
    (s.Bounded → ∀ r, dynamic.get r ≤ Amount.limit)

namespace Registry

theorem prepared_refl (reg : Registry) : Prepared [] reg reg where
  names := rfl
  slices := by
    intro name s hs
    exact ⟨s.failures, s.dynamic, by simp [hs], fun h r => (h r).2⟩

theorem prepared_chargeAll (reg : Registry) (fs : List Finding) :
    Prepared (reg.marks fs) reg (reg.chargeAll fs).1 where
  names := names_chargeAll reg fs
  slices := by
    intro name s hs
    obtain ⟨failures, hcharged⟩ := find?_chargeAll hs fs
    exact ⟨failures, s.dynamic, hcharged, fun h r => (h r).2⟩

theorem prepared_replace {reg : Registry} {name : String} {s : Slice} {a : Reallocation}
    (hs : reg.find? name = some s) (ha : a.Concerns s) :
    Prepared [] reg ((reg.update? name fun _ => a.slice).getD reg) := by
  obtain ⟨dynamic, hslice⟩ := ha.slice
  have hname : a.slice.name = name := ha.name.trans (name_of_find? hs)
  refine ⟨names_replace hname, ?_⟩
  intro n t ht
  rw [find?_replace hs hname]
  by_cases hn : name = n
  · subst hn
    cases hs.symm.trans ht
    refine ⟨s.failures, dynamic, by simp [hslice], fun h r => ?_⟩
    have hbounded := (ha.bounded h r).2
    rwa [hslice] at hbounded
  · exact ⟨t.failures, t.dynamic, by simp [hn, ht], fun h r => (h r).2⟩

theorem Prepared.trans {marks : List String} {reg first last : Registry}
    (h : Prepared marks reg first) (hlast : Prepared [] first last) :
    Prepared marks reg last where
  names := hlast.names.trans h.names
  slices := by
    intro name s hs
    obtain ⟨_, dynamic, hfirst, hbounded⟩ := h.slices hs
    obtain ⟨failures, assigned, hfind, hassigned⟩ := hlast.slices hfirst
    refine ⟨failures, assigned, by simpa using hfind, fun hs => hassigned fun r => ?_⟩
    exact ⟨(hs r).1, hbounded hs r⟩

/-- A prepared slice comes from the slice of its name. -/
theorem Prepared.exists_of_mem {marks : List String} {reg prepared : Registry}
    (h : Prepared marks reg prepared) (hnodup : reg.names.Nodup) {s : Slice} (hs : s ∈ prepared) :
    ∃ t ∈ reg, ∃ failures dynamic,
      s = { t with
        failures, dynamic, restartPending := t.restartPending || marks.contains s.name } ∧
      (t.Bounded → ∀ r, dynamic.get r ≤ Amount.limit) := by
  have hfind := find?_of_mem (h.names ▸ hnodup) hs
  obtain ⟨t, ht⟩ := exists_find? (h.names ▸ mem_names_of_find? hfind)
  obtain ⟨failures, dynamic, hprepared, hdynamic⟩ := h.slices ht
  exact ⟨t, mem_of_find? ht, failures, dynamic,
    Option.some.inj (hfind.symm.trans hprepared), hdynamic⟩

theorem Prepared.bounded {marks : List String} {reg prepared : Registry}
    (h : Prepared marks reg prepared) (hnodup : reg.names.Nodup)
    (hbounded : ∀ s ∈ reg, s.Bounded) : ∀ s ∈ prepared, s.Bounded := by
  intro s hs
  obtain ⟨t, ht, failures, dynamic, hslice, hdynamic⟩ := h.exists_of_mem hnodup hs
  have hold := hbounded t ht
  intro r
  rw [congrArg Slice.configured hslice, congrArg Slice.dynamic hslice]
  exact ⟨(hold r).1, hdynamic hold r⟩

theorem replace_self {reg : Registry} {name : String} {s : Slice} (h : reg.find? name = some s) :
    (reg.update? name fun _ => s).getD reg = reg := by
  induction reg with
  | nil => rfl
  | cons t reg ih =>
    rw [find?_cons] at h
    rw [replace_cons]
    by_cases ht : t.name = name
    · rw [if_pos ht] at h
      cases h
      rw [if_pos ht]
    · rw [if_neg ht] at h
      rw [if_neg ht, ih h]

end Registry

namespace Supervisor

/-! ## Reports -/

/-- Without a configuration there are no slices. -/
def Sound (s : Supervisor) : Prop := s.config = none → s.registry = []

theorem Sound.exists_config {s : Supervisor} (h : s.Sound) (hne : s.registry ≠ []) :
    ∃ c, s.config = some c := by
  cases hc : s.config with
  | none => exact absurd (h hc) hne
  | some c => exact ⟨c, rfl⟩

theorem isAside_missing (p : Problem) :
    ∀ e ∈ [Effect.warn p.message, .publish p.event], IsAside e :=
  List.forall_mem_cons.mpr ⟨isAside_warn _, List.forall_mem_singleton.mpr (isAside_problem p)⟩

/-- The supervisor after an assignment to the elastic slice. -/
def reassigned (s : Supervisor) (elastic : Elastic) (a : Reallocation) : Supervisor :=
  { s with
    registry := (s.registry.update? elastic.slice fun _ => a.slice).getD s.registry
    reallocator := a.reallocator }

theorem Equipped.reassigned {s : Supervisor} (h : s.Equipped) (elastic : Elastic)
    (a : Reallocation) : (s.reassigned elastic a).Equipped := ⟨h.name, h.root, h.restart⟩

theorem find?_reassigned {s : Supervisor} {elastic : Elastic} {slice : Slice} {a : Reallocation}
    (hslice : s.registry.find? elastic.slice = some slice) (ha : a.Concerns slice) (name : String) :
    (s.reassigned elastic a).registry.find? name =
      if elastic.slice = name then some a.slice else s.registry.find? name :=
  Registry.find?_replace hslice (ha.name.trans (Registry.name_of_find? hslice)) name

theorem reallocate_missing {s : Supervisor} {elastic : Elastic}
    (hmissing : s.registry.find? elastic.slice = none) (state : Element) :
    let p := Problem.elasticSliceMissing elastic.slice
    s.reallocate state elastic =
      (s.regenerate.1, [.warn p.message, .publish p.event] ++ s.regenerate.2) := by
  simp only [reallocate, hmissing]

theorem reallocate_unconfigured {s : Supervisor} (hc : s.config = none) {slice : Slice}
    {elastic : Elastic} (hslice : s.registry.find? elastic.slice = some slice) (state : Element) :
    s.reallocate state elastic = (s, []) := by
  simp only [reallocate, hslice, hc]

theorem reallocate_eq {s : Supervisor} {c : InitConfig} (hc : s.config = some c) {slice : Slice}
    {elastic : Elastic} (hslice : s.registry.find? elastic.slice = some slice) (state : Element) :
    let a := s.reallocator.assign state c.root slice
    let t := s.reassigned elastic a
    s.reallocate state elastic =
      if a.updated then (t.regenerate.1, reallocationEffects elastic a ++ t.regenerate.2)
      else (t, reallocationEffects elastic a) := by
  unfold reallocate
  split
  · rename_i hnone
    cases hslice.symm.trans hnone
  · rename_i found hfound
    cases hslice.symm.trans hfound
    split
    · rename_i hnone
      cases hc.symm.trans hnone
    · rename_i config hconfig
      cases hc.symm.trans hconfig
      rfl

theorem reallocate_cases {s : Supervisor} {c : InitConfig} (hs : s.Equipped)
    (hc : s.config = some c) (state : Element) (elastic : Elastic) :
    ((∃ reallocator, (s.reallocate state elastic).1 = { s with reallocator }) ∧
      Tells [] (s.reallocate state elastic).2) ∨
    ∃ books reporter, Registry.Prepared [] s.registry books.registry ∧
      reporter.name = configReport ∧ reporter.root = "config" ∧
      (s.reallocate state elastic).1 = s.renewed c books reporter ∧
      Tells [publishedText c (s.reallocate state elastic).1.registry]
        (s.reallocate state elastic).2 := by
  cases hslice : s.registry.find? elastic.slice with
  | none =>
    obtain ⟨reporter, hname, hroot, hstate, htells⟩ := regenerate_eq hc hs
    have haside := tells_of_isAside (isAside_missing (.elasticSliceMissing elastic.slice))
    rw [reallocate_missing hslice]
    exact .inr ⟨⟨s.registry, s.reallocator⟩, reporter, Registry.prepared_refl _, hname, hroot,
      hstate, haside.append htells⟩
  | some slice =>
    have hconcerns := concerns_assign s.reallocator state c.root slice
    have haside := tells_of_isAside (isAside_reallocationEffects hconcerns elastic)
    rw [reallocate_eq hc hslice]
    split
    · let t := s.reassigned elastic (s.reallocator.assign state c.root slice)
      have ht : t.Equipped := hs.reassigned elastic _
      obtain ⟨reporter, hname, hroot, hstate, htells⟩ := regenerate_eq (s := t) hc ht
      exact .inr ⟨⟨t.registry, t.reallocator⟩, reporter, Registry.prepared_replace hslice hconcerns,
        hname, hroot, hstate, haside.append htells⟩
    · rename_i hupdated
      have hunchanged := hconcerns.unassigned (by simpa using hupdated)
      refine .inl ⟨⟨(s.reallocator.assign state c.root slice).reallocator, ?_⟩, haside⟩
      rw [reassigned, hunchanged, Registry.replace_self hslice]

theorem react_eq (s : Supervisor) (state : Element) (label : Label) :
    (s.registry.restartRequired = true ∧ s.react state label = s.regenerate) ∨
    (s.registry.restartRequired = false ∧ (s.react state label = (s, []) ∨
      ∃ elastic, s.elastic = some elastic ∧ label = elastic.sibling ∧ s.registry ≠ [] ∧
        s.react state label = s.reallocate state elastic)) := by
  unfold react
  cases s.registry.restartRequired with
  | true => exact .inl ⟨rfl, rfl⟩
  | false =>
    refine .inr ⟨rfl, ?_⟩
    cases s.elastic with
    | none => exact .inl rfl
    | some elastic =>
      by_cases hsibling : label = elastic.sibling ∧ s.registry ≠ []
      · simp only [if_pos hsibling]
        exact .inr ⟨elastic, rfl, hsibling.1, hsibling.2, rfl⟩
      · simp only [if_neg hsibling]
        exact .inl rfl

/-- A report that asks for nothing leaves the slices alone; any other publishes the configuration
anew. -/
theorem react_cases {s : Supervisor} (hs : s.Equipped) (hsound : s.Sound) (state : Element)
    (label : Label) :
    (s.registry.restartRequired = false ∧
      (∃ reallocator, (s.react state label).1 = { s with reallocator }) ∧
      Tells [] (s.react state label).2) ∨
    ∃ c books reporter, s.config = some c ∧ Registry.Prepared [] s.registry books.registry ∧
      reporter.name = configReport ∧ reporter.root = "config" ∧
      (s.react state label).1 = s.renewed c books reporter ∧
      Tells [publishedText c (s.react state label).1.registry] (s.react state label).2 := by
  rcases s.react_eq state label with
    ⟨hrequired, hreact⟩ | ⟨hrequired, hreact | ⟨elastic, _, _, hne, hreact⟩⟩
  · have hne : s.registry ≠ [] := by
      intro hnil
      rw [hnil] at hrequired
      cases hrequired
    obtain ⟨c, hc⟩ := hsound.exists_config hne
    obtain ⟨reporter, hname, hroot, hstate, htells⟩ := regenerate_eq hc hs
    rw [hreact]
    exact .inr ⟨c, ⟨s.registry, s.reallocator⟩, reporter, hc, Registry.prepared_refl _, hname,
      hroot, hstate, htells⟩
  · rw [hreact]
    exact .inl ⟨hrequired, ⟨s.reallocator, rfl⟩, tells_nil⟩
  · obtain ⟨c, hc⟩ := hsound.exists_config hne
    rw [hreact]
    rcases reallocate_cases hs hc state elastic with ⟨hsame, htells⟩ | ⟨books, reporter, hrenewed⟩
    · exact .inl ⟨hrequired, hsame, htells⟩
    · exact .inr ⟨c, books, reporter, hc, hrenewed⟩

/-! ## Calls -/

/-- What is asked of a supervisor. -/
inductive Call where
  | updateConfig (text : String)
  | handleReport (state : Element) (label : Label)

/-- The configuration that a call brings, if it is accepted. -/
def Call.accepted? : Call → Option InitConfig
  | .updateConfig text => (InitConfig.parse text).toOption
  | .handleReport _ _ => none

def answer (s : Supervisor) : Call → Supervisor × List Effect
  | .updateConfig text => (s.updateConfig text).2
  | .handleReport state label => s.handleReport state label

/-- The names of the slices that a call marks for a restart. -/
def marks (s : Supervisor) : Call → List String
  | .updateConfig _ => []
  | .handleReport state label =>
    if state.children.length ≤ 1 then []
    else s.registry.marks (findingsOf state s.threshold label.scope)

/-- The call leaves what is published alone. -/
structure Rests (s : Supervisor) (call : Call) : Prop where
  accepted : call.accepted? = none
  marks : s.marks call = []
  state : ∃ reallocator reporter, reporter.name = RestartReport.name ∧
    (s.answer call).1 = { s with reallocator, restartReporter := reporter }
  tells : Tells [] (s.answer call).2

/-- The call publishes a configuration, the one that it brings or else the one in force, after the
books were prepared. -/
structure Renews (s : Supervisor) (call : Call) (c : InitConfig) (books : InitConfig.Books) :
    Prop where
  config : call.accepted?.or s.config = some c
  prepared : Registry.Prepared (s.marks call) s.registry books.registry
  state : ∃ reporter restartReporter, reporter.name = configReport ∧ reporter.root = "config" ∧
    restartReporter.name = RestartReport.name ∧
    (s.answer call).1 = { s.renewed c books reporter with restartReporter }
  tells : Tells [publishedText c (s.answer call).1.registry] (s.answer call).2

theorem updateConfig_cases {s : Supervisor} (hs : s.Equipped) (text : String) :
    s.Rests (.updateConfig text) ∨ ∃ c books, s.Renews (.updateConfig text) c books := by
  cases hparse : InitConfig.parse text with
  | error e =>
    have hanswer : s.answer (.updateConfig text) = (s,
        [.warn ((Problem.malformedConfig e).message ++ ", keeping the previous configuration"),
          .publish (Problem.malformedConfig e).event]) := by
      simp only [answer, updateConfig, hparse]
    refine .inl ⟨by rw [Call.accepted?, hparse]; rfl, rfl, ?_, ?_⟩
    · exact ⟨s.reallocator, s.restartReporter, hs.restart, by rw [hanswer]⟩
    · rw [hanswer]
      exact tells_of_isAside (List.forall_mem_cons.mpr
        ⟨isAside_warn _, List.forall_mem_singleton.mpr (isAside_problem _)⟩)
  | ok c =>
    let t : Supervisor := { s with config := some c }
    have ht : t.Equipped := ⟨hs.name, hs.root, hs.restart⟩
    have hanswer : s.answer (.updateConfig text) = t.regenerate := by
      simp only [answer, updateConfig, hparse, t]
    obtain ⟨reporter, hname, hroot, hstate, htells⟩ := regenerate_eq (s := t) rfl ht
    refine .inr ⟨c, ⟨s.registry, s.reallocator⟩, ?_, Registry.prepared_refl _, ?_, ?_⟩
    · rw [Call.accepted?, hparse]
      rfl
    · exact ⟨reporter, s.restartReporter, hname, hroot, hs.restart, by rw [hanswer, hstate]; rfl⟩
    · rw [hanswer]
      exact htells

theorem answer_updateConfig (s : Supervisor) (c : InitConfig) :
    s.answer (.updateConfig c.text) = ({ s with config := some c } : Supervisor).regenerate := by
  simp only [answer, updateConfig, c.parse_own_text]

theorem accepted?_own_text (c : InitConfig) : Call.accepted? (.updateConfig c.text) = some c := by
  rw [Call.accepted?, c.parse_own_text]
  rfl

/-- The supervisor once the findings of a report are charged. -/
def charged (s : Supervisor) (state : Element) (label : Label) : Supervisor :=
  { s with registry := (s.registry.chargeAll (findingsOf state s.threshold label.scope)).1 }

theorem Equipped.charged {s : Supervisor} (h : s.Equipped) (state : Element) (label : Label) :
    (s.charged state label).Equipped := ⟨h.name, h.root, h.restart⟩

theorem charged_of_marks_nil {s : Supervisor} {state : Element} {label : Label}
    (h : s.registry.marks (findingsOf state s.threshold label.scope) = []) :
    s.charged state label = s := by
  rw [charged, Registry.chargeAll_of_marks_nil h]

theorem handleReport_eq {s : Supervisor} {state : Element} (h : ¬ state.children.length ≤ 1)
    (label : Label) :
    let reacted := (s.charged state label).react state label
    s.handleReport state label = (reacted.1.reportRestarts.1,
      (s.registry.chargeAll (findingsOf state s.threshold label.scope)).2 ++ reacted.2 ++
        reacted.1.reportRestarts.2) := by
  unfold handleReport
  rw [if_neg h]
  rfl

theorem Sound.charged {s : Supervisor} (h : s.Sound) (state : Element) (label : Label) :
    (s.charged state label).Sound := by
  intro hc
  have hnames := Registry.names_chargeAll s.registry (findingsOf state s.threshold label.scope)
  rw [h hc, Registry.names, Registry.names, List.map_nil, List.map_eq_nil_iff] at hnames
  rw [Supervisor.charged, h hc]
  exact hnames

/-- Reporting the restarts comes last and touches its own reporter only. -/
theorem handleReport_eq_reported {s : Supervisor} {state : Element}
    (h : ¬ state.children.length ≤ 1) (label : Label)
    (hequipped : ((s.charged state label).react state label).1.Equipped) {texts : List String}
    (htells : Tells texts ((s.charged state label).react state label).2) :
    ∃ restartReporter : Reporter, restartReporter.name = RestartReport.name ∧
      (s.handleReport state label).1 =
        { ((s.charged state label).react state label).1 with restartReporter } ∧
      Tells texts (s.handleReport state label).2 := by
  have hcharges := tells_of_isAside
    (isAside_chargeAll (isRegeneration_findingsOf state s.threshold label.scope) s.registry)
  obtain ⟨restartReporter, hname, hreported, haside⟩ := reportRestarts_eq hequipped
  have htold := (hcharges.append htells).append (tells_of_isAside haside)
  rw [List.nil_append, List.append_nil] at htold
  rw [handleReport_eq h label, hreported]
  exact ⟨restartReporter, hname, rfl, htold⟩

theorem handleReport_cases {s : Supervisor} (hs : s.Equipped) (hsound : s.Sound) (state : Element)
    (label : Label) :
    s.Rests (.handleReport state label) ∨
      ∃ c books, s.Renews (.handleReport state label) c books := by
  by_cases hfew : state.children.length ≤ 1
  · have hanswer : s.answer (.handleReport state label) = (s, []) := by
      rw [answer, handleReport, if_pos hfew]
    refine .inl ⟨rfl, by rw [marks, if_pos hfew], ?_, ?_⟩
    · exact ⟨s.reallocator, s.restartReporter, hs.restart, by rw [hanswer]⟩
    · rw [hanswer]
      exact tells_nil
  let findings := findingsOf state s.threshold label.scope
  have hmarks : s.marks (.handleReport state label) = s.registry.marks findings := by
    rw [marks, if_neg hfew]
  rcases react_cases (hs.charged state label) (hsound.charged state label) state label with
    ⟨hrequired, ⟨reallocator, hstate⟩, htells⟩ |
    ⟨c, books, reporter, hc, hprepared, hname, hroot, hstate, htells⟩
  · -- nothing is marked, so the registry is as it was
    have hnone : s.registry.marks findings = [] := Registry.marks_of_not_restartRequired hrequired
    have hsame : (s.charged state label).registry = s.registry :=
      Registry.chargeAll_of_marks_nil hnone
    have hequipped : ((s.charged state label).react state label).1.Equipped := by
      rw [hstate]
      exact ⟨hs.name, hs.root, hs.restart⟩
    obtain ⟨restartReporter, hrestart, hreported, htold⟩ :=
      handleReport_eq_reported hfew label hequipped htells
    refine .inl ⟨rfl, hmarks.trans hnone, ⟨reallocator, restartReporter, hrestart, ?_⟩, htold⟩
    rw [answer, hreported, hstate, hsame]
    rfl
  · have hequipped : ((s.charged state label).react state label).1.Equipped := by
      rw [hstate]
      exact ⟨hname, hroot, hs.restart⟩
    obtain ⟨restartReporter, hrestart, hreported, htold⟩ :=
      handleReport_eq_reported hfew label hequipped htells
    refine .inr ⟨c, books, hc, ?_, ⟨reporter, restartReporter, hname, hroot, hrestart, ?_⟩, ?_⟩
    · rw [hmarks]
      exact (Registry.prepared_chargeAll s.registry findings).trans hprepared
    · rw [answer, hreported, hstate]
      rfl
    · rw [answer, hreported]
      exact htold

/-- What a call comes to. -/
theorem answer_cases {s : Supervisor} (hs : s.Equipped) (hsound : s.Sound) (call : Call) :
    s.Rests call ∨ ∃ c books, s.Renews call c books := by
  cases call with
  | updateConfig text => exact updateConfig_cases hs text
  | handleReport state label => exact handleReport_cases hs hsound state label

end Supervisor

end Overseer
