import Overseer.Proofs.Serving

/-!
Calls that bring no other configuration.  They leave every configured quota as it was
(`quota_kept`), and when each entry asks for what its slice keeps (`Steady`) they make nothing
stale.  So once both resources are assigned, the report that was answered may come again as often as
it likes (`run_repeated`).  Entries of one name with different quotas are not steady, and neither is
an entry that has a quota and no name: they make something stale whenever the configuration is
published (`unsteady_configs_reassigned`).
-/

namespace Overseer

open Markup

namespace InitConfig

/-- Every start entry asks for what its slice has under the configuration. -/
def Steady (c : InitConfig) : Prop := ∀ r, ¬ Changes (some c) c r

/-- A configuration is steady if entries of one name ask for the same, and those whose name no entry
states ask for nothing. -/
theorem steady_iff {c : InitConfig} : Steady c ↔ ∀ start ∈ c.root.starts, ∀ r,
    if states c.root start.startName then
      ∀ last, lastStart? c.root.starts start.startName = some last →
        start.quotas.get r = last.quotas.get r
    else start.quotas.get r = 0 := by
  unfold Steady Changes
  constructor
  · intro h start hstart r
    have hsame : start.quotas.get r = if states c.root start.startName then
        quotaUnder (some c) start.startName r else 0 :=
      Decidable.not_not.mp fun hne => h r ⟨start, hstart, hne⟩
    split
    · rename_i hstates
      intro last hlast
      rw [hsame, if_pos hstates, quotaUnder, Option.bind_some, hlast]
      rfl
    · rename_i hstates
      rw [hsame, if_neg hstates]
  · rintro h r ⟨start, hstart, hne⟩
    have hsteady := h start hstart r
    by_cases hstates : states c.root start.startName = true
    · rw [if_pos hstates] at hsteady hne
      cases hlast : lastStart? c.root.starts start.startName with
      | none => exact lastStart?_eq_none_iff.mp hlast (List.mem_map_of_mem hstart)
      | some last =>
        rw [quotaUnder, Option.bind_some, hlast] at hne
        exact hne (hsteady last hlast)
    · rw [if_neg hstates] at hsteady hne
      exact hne hsteady

/-- With names that differ, a configuration is steady. -/
theorem steady_of_distinct {c : InitConfig} (hnamed : Named c.root) (hdistinct : Distinct c.root) :
    Steady c := by
  rw [steady_iff]
  intro start hstart r
  have hstates : states c.root start.startName = true :=
    (isStarted_iff_of_named hnamed (s := { name := start.startName })).mpr
      (List.mem_map_of_mem hstart)
  rw [if_pos hstates]
  intro last hlast
  rw [lastStart?_of_distinct hdistinct hstart] at hlast
  cases hlast
  rfl

end InitConfig

/-- The call leaves the configuration in force: it brings none or the same. -/
def Supervisor.Call.Leaves (call : Supervisor.Call) (c : InitConfig) : Prop :=
  call.accepted? = none ∨ call.accepted? = some c

namespace Supervisor

open InitConfig (Changes Steady)

variable {s : Supervisor} {texts : List String} {c : InitConfig} {call : Call} {r : Resource}

/-! ## One call -/

theorem config_kept (h : s.Standing texts) (hc : s.config = some c) (hcall : call.Leaves c) :
    (s.answer call).1.config = some c := by
  obtain ⟨_, _, _, hconfig⟩ := answer_standing h call
  rw [hconfig]
  rcases hcall with hnone | hsame
  · rw [hnone]
    exact hc
  · rw [hsame]
    rfl

theorem quota_kept (h : s.Standing texts) (hc : s.config = some c) (hcall : call.Leaves c)
    (name : String) (r : Resource) :
    (s.answer call).1.registry.quota name r = s.registry.quota name r := by
  obtain ⟨_, _, hafter, _⟩ := answer_standing h call
  rw [hafter.quota_eq, h.quota_eq, config_kept h hc hcall, hc]

theorem stale_kept (h : s.Standing texts) (hc : s.config = some c) (hcall : call.Leaves c)
    (r : Resource) : (s.answer call).1.reallocator.stale.get r = true ↔
      ((s.answer call).1.regenerations ≠ s.regenerations ∧ Changes (some c) c r) ∨
        (s.reallocator.stale.get r = true ∧ s.grant? r call = none) := by
  have hafter := config_kept h hc hcall
  rw [stale_answer_iff h, Finds, hafter, hc]
  simp

/-! ## Runs -/

theorem answer_elastic (h : s.Standing texts) (call : Call) :
    (s.answer call).1.elastic = s.elastic := by
  rcases answer_cases h.equipped h.sound call with hrests | ⟨c, books, hrenews⟩
  · obtain ⟨_, _, _, hstate⟩ := hrests.state
    rw [hstate]
  · obtain ⟨_, _, _, _, _, hstate⟩ := hrenews.state
    rw [hstate]
    rfl

/-- Whatever is assigned is assigned to a slice that the configuration starts. -/
theorem starts_of_grant (h : s.Standing texts) (hc : s.config = some c) {elastic : Elastic}
    (helastic : s.elastic = some elastic) (hgrant : s.grant? r call ≠ none) :
    InitConfig.starts c.root elastic.slice = true := by
  cases call with
  | updateConfig text => exact absurd rfl hgrant
  | handleReport state label =>
    have hsome : eventsOf .dynamicResourcesAssigned (s.handleReport state label).2 ≠ [] := by
      intro hnone
      rw [grant?, hnone] at hgrant
      exact hgrant rfl
    obtain ⟨event, hevent⟩ := List.exists_mem_of_ne_nil _ hsome
    obtain ⟨e, slice, _, he, _, hreallots⟩ := reallots_handleReport hevent
    cases helastic.symm.trans he
    exact InitConfig.starts_iff.mpr
      (((h.keeps c hc).started _).mp (Registry.mem_names_of_find? hreallots.found))

/-- While a steady configuration is kept, nothing becomes stale, and an assignment ends the staleness
of what it assigns.  Assignments go to a slice that is started. -/
theorem run_kept (hsteady : Steady c) (h : s.Standing texts) (hc : s.config = some c)
    {calls : List Call} (hcalls : ∀ call ∈ calls, call.Leaves c) :
    (s.run calls).1.config = some c ∧ (s.run calls).1.elastic = s.elastic ∧
    ∀ r, ((s.run calls).1.reallocator.stale.get r = true ↔
        s.reallocator.stale.get r = true ∧ s.lastGrant? r calls = none) ∧
      (s.lastGrant? r calls ≠ none → ∀ elastic, s.elastic = some elastic →
        InitConfig.starts c.root elastic.slice = true) := by
  induction calls generalizing s texts with
  | nil => simp [run, lastGrant?, hc]
  | cons call calls ih =>
    obtain ⟨hcall, hrest⟩ := List.forall_mem_cons.mp hcalls
    obtain ⟨_, _, hafter, _⟩ := answer_standing h call
    obtain ⟨hconfig, helastic, hrun⟩ := ih hafter (config_kept h hc hcall) hrest
    rw [answer_elastic h] at helastic hrun
    refine ⟨hconfig, helastic, fun r => ⟨?_, ?_⟩⟩
    · have hanswer := stale_kept h hc hcall r
      rw [run_cons, (hrun r).1, hanswer, lastGrant?, Option.or_eq_none_iff]
      simp [hsteady r, and_comm, and_assoc]
    · intro hgrant elastic hs
      rw [lastGrant?, ne_eq, Option.or_eq_none_iff, not_and_or] at hgrant
      rcases hgrant with hlater | hfirst
      · exact (hrun r).2 hlater elastic hs
      · exact starts_of_grant h hc hs hfirst

/-- A report without failures that finds nothing stale may be repeated. -/
theorem run_repeated {elastic : Elastic} {slice : Slice} {state : Element}
    (h : s.Standing texts) (hreceives : s.elastic = some elastic)
    (hslice : s.registry.find? elastic.slice = some slice)
    (hfresh : ∀ q, s.reallocator.stale.get q = false) (hlong : 2 ≤ state.children.length)
    (hcalm : detections state s.threshold elastic.sibling.scope = []) (n : Nat) :
    let again := s.run (List.replicate n (.handleReport state elastic.sibling))
    (∃ restartReporter, again.1 = { s with restartReporter }) ∧
      ∀ k ∈ reactionKinds, eventsOf k again.2 = [] := by
  induction n generalizing s texts with
  | zero => exact ⟨⟨s.restartReporter, rfl⟩, fun k _ => rfl⟩
  | succ n ih =>
    obtain ⟨_, _, hafter, _⟩ := answer_standing h (.handleReport state elastic.sibling)
    obtain ⟨⟨restartReporter, hstate⟩, hnothing⟩ :=
      handleReport_of_fresh h (calm_of_no_failures hreceives hlong hcalm) hslice hfresh
    rw [answer, hstate] at hafter
    obtain ⟨⟨last, hrun⟩, hevents⟩ := ih hafter hreceives hslice hfresh hcalm
    simp only [List.replicate_succ, run_cons, answer, hstate]
    refine ⟨⟨last, hrun⟩, fun k hk => ?_⟩
    rw [eventsOf_append, hnothing k hk, hevents k hk]
    rfl

/-- Calls that bring no other configuration leave the configured quotas as they are, and they make a
resource stale just if they publish the configuration and it is not steady.  If it is, then once both
resources were assigned the same report without failures has nothing assigned and nothing published
any more. -/
theorem kept_config_settles (settings : Settings) (calls : List Call) (c : InitConfig)
    (hc : (after settings calls).config = some c) :
    let s := after settings calls
    (∀ call : Call, call.Leaves c →
      (∀ name r, (s.answer call).1.registry.quota name r = s.registry.quota name r) ∧
      ∀ r, (s.answer call).1.reallocator.stale.get r = true ↔
        ((s.answer call).1.regenerations ≠ s.regenerations ∧ Changes (some c) c r) ∨
          (s.reallocator.stale.get r = true ∧ s.grant? r call = none)) ∧
    (Steady c → ∀ later : List Call, (∀ call ∈ later, call.Leaves c) →
      (∀ r, s.lastGrant? r later ≠ none) →
      ∀ elastic, s.elastic = some elastic → ∀ state : Element, 2 ≤ state.children.length →
        detections state settings.heartbeatThreshold elastic.sibling.scope = [] → ∀ n,
          let t := (s.run later).1
          let again := t.run (List.replicate n (.handleReport state elastic.sibling))
          (∃ restartReporter, again.1 = { t with restartReporter }) ∧
            ∀ k ∈ reactionKinds, eventsOf k again.2 = []) := by
  intro s
  obtain ⟨_, _, hstanding, _⟩ := run_new settings calls
  refine ⟨fun call hcall =>
    ⟨quota_kept hstanding hc hcall, stale_kept hstanding hc hcall⟩, ?_⟩
  intro hsteady later hlater hgrants elastic hreceives state hlong hcalm n
  obtain ⟨_, _, hafter, _⟩ := run_standing hstanding later
  obtain ⟨hconfig, helastic, hrun⟩ := run_kept hsteady hstanding hc hlater
  have hfresh : ∀ q, (s.run later).1.reallocator.stale.get q = false := by
    intro q
    rw [← Bool.not_eq_true, (hrun q).1]
    exact fun h => hgrants q h.2
  have hstarts := (hrun .caps).2 (hgrants .caps) elastic hreceives
  obtain ⟨slice, hslice⟩ := Registry.exists_find?
    (((hafter.keeps c hconfig).started _).mpr (InitConfig.starts_iff.mp hstarts))
  have hthreshold : (s.run later).1.threshold = settings.heartbeatThreshold := by
    have happend := threshold_after settings (calls ++ later)
    rwa [after, run_append] at happend
  rw [← hthreshold] at hcalm
  exact run_repeated hafter (helastic.trans hreceives) hslice hfresh hlong hcalm n

/-- The report that leaves something for `batch`. -/
def leftReport : Call := .handleReport leftState ⟨["init", "state"]⟩

/-- Once `batch` has its resources, the same report changes nothing, however often it comes; and so
it is with the quotas when the configuration comes again. -/
theorem batch_settles :
    (after batchSettings (batchStarted ++ [leftReport])).registry.map Slice.dynamic =
        [⟨12, 48⟩, ⟨0, 0⟩] ∧
      (∀ name r, ((after batchSettings batchStarted).answer
        (.updateConfig batchConfig.text)).1.registry.quota name r =
          (after batchSettings batchStarted).registry.quota name r) ∧
      ∀ n, ∀ k ∈ reactionKinds, eventsOf k (((after batchSettings batchStarted).run
        [leftReport]).1.run (List.replicate n leftReport)).2 = [] := by
  have hdynamic : (after batchSettings (batchStarted ++ [leftReport])).registry.map Slice.dynamic =
      [⟨12, 48⟩, ⟨0, 0⟩] := by
    simp only [batchStarted, List.singleton_append, after_started]
    decide +kernel
  have hcaps : ((after batchSettings batchStarted).lastGrant? .caps [leftReport]).isSome = true := by
    simp only [batchStarted, after_started]
    decide +kernel
  have hram : ((after batchSettings batchStarted).lastGrant? .ram [leftReport]).isSome = true := by
    simp only [batchStarted, after_started]
    decide +kernel
  have hcalm : detections leftState batchSettings.heartbeatThreshold batchElastic.sibling.scope =
      [] := by decide +kernel
  have hreports : ∀ call ∈ [leftReport], call.Leaves batchConfig :=
    List.forall_mem_singleton.mpr (.inl rfl)
  obtain ⟨hcall, hrepeated⟩ :=
    kept_config_settles batchSettings batchStarted batchConfig config_batchStarted
  refine ⟨hdynamic, (hcall _ (.inr (accepted?_own_text batchConfig))).1, fun n => ?_⟩
  refine (hrepeated (InitConfig.steady_of_distinct named_batch distinct_batch) [leftReport] hreports
    ?_ batchElastic (elastic_after ..) leftState (by decide +kernel) hcalm n).2
  intro r
  rw [← Option.isSome_iff_ne_none]
  cases r with
  | caps => exact hcaps
  | ram => exact hram

/-- Two entries of the slice `web` that ask for different quotas. -/
def repeatedConfig : InitConfig :=
  quotaConfig [("batch", 3, some 32), ("web", 1, none), ("web", 2, none)]

def idleTree : Markup.Tree :=
  .node "config" [] [.node "start" [("name", "batch"), ("caps", "3")]
    [.node "resource" [("name", "RAM"), ("quantum", "32")] []], .node "start" [("caps", "1")] []]

theorem idleTree_writable : idleTree.Writable := by
  simp only [idleTree, Markup.Tree.Writable, AllWritable]
  decide

/-- An entry without a name that asks for a quota. -/
def anonymousConfig : InitConfig where
  text := idleTree.element.source
  root := idleTree.element
  parse_text :=
    parse_render (obeys_tree _ idleTree_writable).1 (obeys_tree _ idleTree_writable).2

/-- The supervisor that has accepted a configuration and answered the report. -/
def answered (c : InitConfig) : Supervisor := after batchSettings [.updateConfig c.text, leftReport]

theorem answered_eq (c : InitConfig) : answered c =
    ((({ new batchSettings with config := some c } : Supervisor).regenerate.1.answer
      leftReport).1) := by
  rw [answered, after_started]
  rfl

theorem config_answered (c : InitConfig) : (answered c).config = some c := by
  rw [answered, config_after, List.filterMap_cons_some (accepted?_own_text c)]
  rfl

/-- Both resources were assigned by the report, and still the capabilities are assigned anew when it
is repeated: the configuration that was published in between has made them stale. -/
theorem unsteady_configs_reassigned :
    detections leftState batchSettings.heartbeatThreshold batchElastic.sibling.scope = [] ∧
      ∀ c ∈ [repeatedConfig, anonymousConfig],
        (answered c).config = some c ∧
          ((answered c).registry.dynamic "batch" .caps ≠ 0 ∧
            (answered c).registry.dynamic "batch" .ram ≠ 0) ∧
          (answered c).reallocator.stale = ⟨true, false⟩ ∧
          ((answered c).answer leftReport).1.regenerations ≠ (answered c).regenerations ∧
          eventsOf .dynamicResourcesAssigned ((answered c).answer leftReport).2 ≠ [] := by
  refine ⟨by decide +kernel, List.forall_mem_cons.mpr
    ⟨⟨config_answered repeatedConfig, ?_⟩, List.forall_mem_singleton.mpr
      ⟨config_answered anonymousConfig, ?_⟩⟩⟩
  · simp only [answered_eq]
    decide +kernel
  · simp only [answered_eq]
    decide +kernel

end Supervisor

end Overseer
