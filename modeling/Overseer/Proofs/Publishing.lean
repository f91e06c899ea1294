import Overseer.Proofs.Books
import Overseer.Proofs.Generation
import Overseer.Proofs.Published
import Overseer.Supervisor

/-!
What the effects of the supervision tell of the published configuration.  `Tells texts es` says
which texts were published; a regeneration publishes just one and cannot fail (`regenerate_eq`).
-/

namespace Overseer

open Markup

/-! ## Reports in a store -/

/-- The text that an effect writes into a report, if it writes into the one with this name. -/
def Effect.content? (name : String) : Effect → Option String
  | .write report content => if report = name then some content else none
  | _ => none

theorem Effect.write_mem_iff {name content : String} {es : List Effect} :
    .write name content ∈ es ↔ content ∈ es.filterMap (content? name) := by
  rw [List.mem_filterMap]
  constructor
  · intro h
    exact ⟨_, h, if_pos rfl⟩
  · rintro ⟨e, he, hcontent⟩
    cases e with
    | log line => cases hcontent
    | publish event => cases hcontent
    | write report text =>
      rw [content?] at hcontent
      split at hcontent
      · rename_i hname
        cases hcontent
        exact hname ▸ he
      · cases hcontent

namespace ReportStore

theorem writes_write (store : ReportStore) (name content other : String) :
    (store.write name content).writes other =
      store.writes other + if name = other then 1 else 0 := by
  induction store with
  | nil => by_cases h : name = other <;> simp [write, writes, find?, h]
  | cons r rs ih =>
    by_cases hr : r.name = name
    · by_cases h : name = other <;> simp [write, writes, find?, hr, h]
    · by_cases ho : r.name = other
      · have hn : name ≠ other := fun e => hr (ho.trans e.symm)
        simp [write, writes, find?, ho, hn, Ne.symm hn]
      · simp only [writes, find?] at ih ⊢
        simpa [write, hr, ho] using ih

theorem writes_apply (es : List Effect) (store : ReportStore) (name : String) :
    (es.foldl apply store).writes name =
      store.writes name + (es.filterMap (Effect.content? name)).length := by
  induction es generalizing store with
  | nil => rfl
  | cons e es ih =>
    rw [List.foldl_cons, ih]
    cases e with
    | write report content =>
      rw [apply, writes_write]
      by_cases h : report = name
      · simp [Effect.content?, h]
        omega
      · simp [Effect.content?, h]
    | log line => rfl
    | publish event => rfl

theorem latest?_apply (es : List Effect) (store : ReportStore) (name : String) :
    (es.foldl apply store).latest? name =
      (es.filterMap (Effect.content? name)).getLast?.or (store.latest? name) := by
  induction es generalizing store with
  | nil => rfl
  | cons e es ih =>
    rw [List.foldl_cons, ih]
    cases e with
    | write report content =>
      rw [apply, latest?_write]
      by_cases h : report = name
      · have hcons : (Effect.write report content :: es).filterMap (Effect.content? name) =
            content :: es.filterMap (Effect.content? name) := by simp [Effect.content?, h]
        rw [if_pos h, hcons, List.getLast?_cons]
        cases (es.filterMap (Effect.content? name)).getLast? <;> rfl
      · simp [Effect.content?, h]
    | log line => rfl
    | publish event => rfl

end ReportStore

/-! ## What effects tell -/

namespace Supervisor

def generationFailed (e : Markup.Error) : Effect :=
  .error ("unable to generate init configuration: " ++ e.message)

def isRegeneration (e : Event) : Bool := e.kind == .configRegenerated

/-- Just these texts are published, one after the other and each with its event, and no generation
fails. -/
structure Tells (texts : List String) (es : List Effect) : Prop where
  contents : es.filterMap (Effect.content? configReport) = texts
  events : (es.filterMap Effect.event?).countP isRegeneration = texts.length
  unfailed : ∀ e, generationFailed e ∉ es

theorem Tells.append {texts more : List String} {es fs : List Effect} (h : Tells texts es)
    (hmore : Tells more fs) : Tells (texts ++ more) (es ++ fs) where
  contents := by rw [List.filterMap_append, h.contents, hmore.contents]
  events := by
    rw [List.filterMap_append, List.countP_append, h.events, hmore.events, List.length_append]
  unfailed := by
    intro e he
    rcases List.mem_append.mp he with he | he
    · exact h.unfailed e he
    · exact hmore.unfailed e he

/-- The effect has nothing to do with the published configuration. -/
def IsAside : Effect → Prop
  | .log line => ∀ e, Effect.log line ≠ generationFailed e
  | .publish event => isRegeneration event = false
  | .write report _ => report ≠ configReport

theorem tells_of_isAside {es : List Effect} (h : ∀ e ∈ es, IsAside e) : Tells [] es where
  contents := by
    rw [List.filterMap_eq_nil_iff]
    intro e he
    have haside := h e he
    cases e with
    | log line => rfl
    | publish event => rfl
    | write report content =>
      rw [IsAside] at haside
      simp [Effect.content?, haside]
  events := by
    rw [List.length_nil, List.countP_eq_zero]
    intro event hevent
    obtain ⟨e, he, hsome⟩ := List.mem_filterMap.mp hevent
    have haside := h e he
    cases e with
    | log line => cases hsome
    | publish f =>
      cases hsome
      rw [IsAside] at haside
      simp [haside]
    | write report content => cases hsome
  unfailed := by
    intro e he
    exact h _ he e rfl

theorem tells_nil : Tells [] [] := tells_of_isAside (by simp)

theorem isAside_log {line : LogLine} (h : line.level ≠ .error) : IsAside (.log line) := by
  intro e he
  cases he
  exact h rfl

theorem isAside_of_isDebug {e : Effect} (h : e.IsDebug) : IsAside e := by
  obtain ⟨text, rfl⟩ := h
  exact isAside_log nofun

/-! ## Regeneration -/

/-- The published text for a configuration and a registry. -/
def publishedText (c : InitConfig) (reg : Registry) : String :=
  (InitConfig.published c.root reg).source

theorem isDebug_overrides (s : Slice) : ∀ e ∈ InitConfig.overrides s, e.IsDebug := by
  intro e he
  obtain ⟨r, _, hr⟩ := List.mem_filterMap.mp he
  split at hr
  · cases hr
  · cases hr
    exact ⟨_, rfl⟩

theorem isDebug_enter (b : InitConfig.Books) (start : Element) : ∀ e ∈ (b.enter start).2,
    e.IsDebug := by
  unfold InitConfig.Books.enter
  dsimp only
  split
  · simp
  · exact isDebug_overrides _

theorem isDebug_enterAll (b : InitConfig.Books) (starts : List Element) :
    ∀ e ∈ (b.enterAll starts).2, e.IsDebug := by
  induction starts generalizing b with
  | nil => simp [InitConfig.Books.enterAll]
  | cons start starts ih =>
    intro e he
    rcases List.mem_append.mp he with he | he
    · exact isDebug_enter b start e he
    · exact ih _ e he

theorem isDebug_update (b : InitConfig.Books) (root : Element) : ∀ e ∈ (b.update root).2,
    e.IsDebug := by
  intro e he
  rcases List.mem_append.mp he with he | he
  · obtain ⟨name, _, rfl⟩ := List.mem_map.mp he
    exact ⟨_, rfl⟩
  · exact isDebug_enterAll _ _ e he

/-- The reporters write the reports that they are for. -/
structure Equipped (s : Supervisor) : Prop where
  name : s.configReporter.name = configReport
  root : s.configReporter.root = "config"
  restart : s.restartReporter.name = RestartReport.name

/-- Publishing always goes through. -/
theorem publish_eq {s : Supervisor} (hs : s.Equipped) (c : InitConfig) :
    ∃ reporter, reporter.name = configReport ∧ reporter.root = "config" ∧
      (s.publish c.root).1 = { s with
        totals := s.registry.totals
        regenerations := s.regenerations + 1
        configReporter := reporter } ∧
      Tells [publishedText c s.registry] (s.publish c.root).2 := by
  let draft := InitConfig.draft c.root s.registry
  have hrendering := InitConfig.rendering_draft c.root s.registry
  rw [← hs.root] at hrendering
  obtain ⟨runs, retries, hresult, heffects, hdebug⟩ := Reporter.generate_eq_ok
    (plainDraft_of_denotes (InitConfig.denotes_draft c.root s.registry)) hrendering
  obtain ⟨hname, hroot⟩ := s.configReporter.reporter_generate draft
  refine ⟨_, hname.trans hs.name, hroot.trans hs.root, ?_, ?_⟩
  · simp only [publish, hresult, draft]
  · have hretries := tells_of_isAside fun e he => isAside_of_isDebug (hdebug e he)
    have hpublished (text : String) (event : Event) (hevent : isRegeneration event = true) :
        Tells [publishedText c s.registry]
          [.write configReport (publishedText c s.registry), .info text, .publish event] := by
      have hevents : [event].countP isRegeneration = 1 := by simp [hevent]
      refine ⟨by simp [Effect.content?, Effect.info], hevents, ?_⟩
      intro e he
      simp [generationFailed, Effect.error, Effect.info] at he
    simp only [publish, hresult, heffects, hs.name, List.append_assoc]
    exact hretries.append (hpublished _ _ rfl)

/-- The supervisor once it has published a configuration with the books brought up to date. -/
def renewed (s : Supervisor) (c : InitConfig) (books : InitConfig.Books) (reporter : Reporter) :
    Supervisor :=
  let updated := (books.update c.root).1
  { s with
    config := some c
    registry := updated.registry
    reallocator := updated.reallocator
    totals := updated.registry.totals
    regenerations := s.regenerations + 1
    configReporter := reporter }

/-- The supervisor with the books brought up to date, before it publishes them. -/
def entered (s : Supervisor) (c : InitConfig) : Supervisor :=
  let books := (InitConfig.Books.update ⟨s.registry, s.reallocator⟩ c.root).1
  { s with registry := books.registry, reallocator := books.reallocator }

theorem regenerate_unconfigured {s : Supervisor} (hc : s.config = none) :
    s.regenerate = (s, [.debug "no init configuration yet, skipping regeneration"]) := by
  unfold regenerate
  split
  · rfl
  · rename_i config hconfig
    cases hc.symm.trans hconfig

theorem regenerate_of_config {s : Supervisor} {c : InitConfig} (hc : s.config = some c) :
    s.regenerate = (((s.entered c).publish c.root).1,
      (InitConfig.Books.update ⟨s.registry, s.reallocator⟩ c.root).2 ++
        ((s.entered c).publish c.root).2) := by
  unfold regenerate
  split
  · rename_i hnone
    cases hc.symm.trans hnone
  · rename_i config hconfig
    cases hc.symm.trans hconfig
    rfl

/-- A regeneration always goes through. -/
theorem regenerate_eq {s : Supervisor} {c : InitConfig} (hc : s.config = some c)
    (hs : s.Equipped) : ∃ reporter, reporter.name = configReport ∧ reporter.root = "config" ∧
      s.regenerate.1 = s.renewed c ⟨s.registry, s.reallocator⟩ reporter ∧
      Tells [publishedText c s.regenerate.1.registry] s.regenerate.2 := by
  have ht : (s.entered c).Equipped := ⟨hs.name, hs.root, hs.restart⟩
  obtain ⟨reporter, hname, hroot, hstate, htells⟩ := publish_eq ht c
  have hbooked := tells_of_isAside fun e he => isAside_of_isDebug
    (isDebug_update ⟨s.registry, s.reallocator⟩ c.root e he)
  rw [regenerate_of_config hc, hstate]
  refine ⟨reporter, hname, hroot, ?_, hbooked.append htells⟩
  rw [renewed, ← hc]
  rfl

end Supervisor

end Overseer
