import Overseer.Monitor
import Overseer.Proofs.Seen

/-!
The sizes of the report buffers cannot be observed.  Supervisors that are equal but for their
reporters (`Alike`) stay so under every call, with the same to be seen of it (`answer_alike`), and
so do the monitors around them (`Monitor.handle_alike`).
-/

namespace Overseer

open Markup

namespace Supervisor

/-! ## Equal but for the reporters -/

/-- The same configuration, slices, recalculation flags, totals and number of regenerations. -/
structure Agrees (s t : Supervisor) : Prop where
  config : s.config = t.config
  registry : s.registry = t.registry
  reallocator : s.reallocator = t.reallocator
  totals : s.totals = t.totals
  regenerations : s.regenerations = t.regenerations

/-- The reporters write the reports that they are for. -/
structure Furnish (configReporter restartReporter : Reporter) : Prop where
  name : configReporter.name = configReport
  root : configReporter.root = "config"
  restart : restartReporter.name = RestartReport.name
  restartRoot : restartReporter.root = RestartReport.name

def withReporters (s : Supervisor) (configReporter restartReporter : Reporter) : Supervisor :=
  { s with configReporter, restartReporter }

/-- Equal but for the reporters, which write the same reports. -/
structure Alike (s t : Supervisor) : Prop where
  left : Furnish s.configReporter s.restartReporter
  right : Furnish t.configReporter t.restartReporter
  state : t = s.withReporters t.configReporter t.restartReporter

/-- Outcomes that cannot be told apart. -/
structure SameOutcome (o p : Supervisor × List Effect) : Prop where
  state : o.1.Alike p.1
  seen : seen o.2 = seen p.2

variable {s t : Supervisor}

theorem Furnish.equipped (h : Furnish s.configReporter s.restartReporter) : s.Equipped :=
  ⟨h.name, h.root, h.restart⟩

theorem Alike.agrees (h : s.Alike t) : s.Agrees t := by
  rw [h.state]
  exact ⟨rfl, rfl, rfl, rfl, rfl⟩

theorem Alike.elastic (h : s.Alike t) : s.elastic = t.elastic := by
  rw [h.state]
  rfl

theorem Alike.threshold (h : s.Alike t) : s.threshold = t.threshold := by
  rw [h.state]
  rfl

theorem Alike.still (h : s.Alike t) (es : List Effect) : SameOutcome (s, es) (t, es) := ⟨h, rfl⟩

theorem SameOutcome.after {o p : Supervisor × List Effect} (h : SameOutcome o p)
    (es : List Effect) : SameOutcome (o.1, es ++ o.2) (p.1, es ++ p.2) :=
  ⟨h.state, by simp only [seen_append, h.seen]⟩

/-! ## Steps -/

theorem Alike.withConfig (h : s.Alike t) (c : InitConfig) :
    ({ s with config := some c } : Supervisor).Alike { t with config := some c } := by
  refine ⟨h.left, h.right, ?_⟩
  rw [h.state]
  rfl

theorem Alike.charged (h : s.Alike t) (state : Element) (label : Label) :
    (s.charged state label).Alike (t.charged state label) := by
  refine ⟨h.left, h.right, ?_⟩
  rw [h.state]
  rfl

theorem Alike.reassigned (h : s.Alike t) (elastic : Elastic) (a : Reallocation) :
    (s.reassigned elastic a).Alike (t.reassigned elastic a) := by
  refine ⟨h.left, h.right, ?_⟩
  rw [h.state]
  rfl

theorem regenerate_alike (h : s.Alike t) : SameOutcome s.regenerate t.regenerate := by
  cases hc : s.config with
  | none =>
    have ht : t.config = none := h.agrees.config.symm.trans hc
    rw [regenerate_unconfigured hc, regenerate_unconfigured ht]
    exact h.still _
  | some c =>
    have ht : t.config = some c := h.agrees.config.symm.trans hc
    obtain ⟨r, hname, hroot, hleft, _⟩ := regenerate_eq hc h.left.equipped
    obtain ⟨q, hname', hroot', hright, _⟩ := regenerate_eq ht h.right.equipped
    have hentered : s.entered c =
        (t.entered c).withReporters s.configReporter s.restartReporter := by
      rw [h.state]
      rfl
    refine ⟨?_, ?_⟩
    · rw [hleft, hright]
      refine ⟨⟨hname, hroot, h.left.restart, h.left.restartRoot⟩,
        ⟨hname', hroot', h.right.restart, h.right.restartRoot⟩, ?_⟩
      rw [h.state]
      rfl
    · rw [regenerate_seen hc h.left.equipped, regenerate_seen ht h.right.equipped, hentered]
      rfl

theorem updateConfig_alike (h : s.Alike t) (text : String) :
    (s.updateConfig text).1 = (t.updateConfig text).1 ∧
      SameOutcome (s.updateConfig text).2 (t.updateConfig text).2 := by
  unfold updateConfig
  cases InitConfig.parse text with
  | error e => exact ⟨rfl, h.still _⟩
  | ok c => exact ⟨rfl, regenerate_alike (h.withConfig c)⟩

theorem reallocate_alike (h : s.Alike t) (state : Element) (elastic : Elastic) :
    SameOutcome (s.reallocate state elastic) (t.reallocate state elastic) := by
  cases hslice : s.registry.find? elastic.slice with
  | none =>
    rw [reallocate_missing hslice, reallocate_missing (h.agrees.registry ▸ hslice)]
    exact (regenerate_alike h).after _
  | some slice =>
    have hslice' : t.registry.find? elastic.slice = some slice := h.agrees.registry ▸ hslice
    cases hc : s.config with
    | none =>
      rw [reallocate_unconfigured hc hslice,
        reallocate_unconfigured (h.agrees.config.symm.trans hc) hslice']
      exact h.still []
    | some c =>
      have hassigned := h.reassigned elastic (s.reallocator.assign state c.root slice)
      rw [reallocate_eq hc hslice, reallocate_eq (h.agrees.config.symm.trans hc) hslice',
        ← h.agrees.reallocator]
      split
      · exact (regenerate_alike hassigned).after _
      · exact hassigned.still _

theorem react_alike (h : s.Alike t) (state : Element) (label : Label) :
    SameOutcome (s.react state label) (t.react state label) := by
  unfold react
  rw [← h.agrees.registry, ← h.elastic]
  split
  · exact regenerate_alike h
  · split
    · exact h.still []
    · split
      · exact reallocate_alike h state _
      · exact h.still []

theorem reportRestarts_alike (h : s.Alike t) : SameOutcome s.reportRestarts t.reportRestarts := by
  obtain ⟨hname, hroot⟩ :=
    s.restartReporter.reporter_generate (RestartReport.draft s.registry)
  obtain ⟨hname', hroot'⟩ :=
    t.restartReporter.reporter_generate (RestartReport.draft t.registry)
  refine ⟨⟨?_, ?_, ?_⟩, ?_⟩
  · exact ⟨h.left.name, h.left.root, hname.trans h.left.restart, hroot.trans h.left.restartRoot⟩
  · exact ⟨h.right.name, h.right.root, hname'.trans h.right.restart,
      hroot'.trans h.right.restartRoot⟩
  · rw [h.state]
    rfl
  · rw [reportRestarts_seen h.left.restart h.left.restartRoot,
      reportRestarts_seen h.right.restart h.right.restartRoot, h.agrees.registry]

theorem handleReport_alike (h : s.Alike t) (state : Element) (label : Label) :
    SameOutcome (s.handleReport state label) (t.handleReport state label) := by
  by_cases hfew : state.children.length ≤ 1
  · rw [handleReport, handleReport, if_pos hfew, if_pos hfew]
    exact h.still []
  · have hreacted := react_alike (h.charged state label) state label
    have hreported := reportRestarts_alike hreacted.state
    rw [handleReport_eq hfew, handleReport_eq hfew, ← h.agrees.registry, ← h.threshold]
    refine ⟨hreported.state, ?_⟩
    simp only [seen_append, hreacted.seen, hreported.seen]

theorem answer_alike (h : s.Alike t) (call : Call) :
    SameOutcome (s.answer call) (t.answer call) := by
  cases call with
  | updateConfig text => exact (updateConfig_alike h text).2
  | handleReport state label => exact handleReport_alike h state label

theorem run_alike (h : s.Alike t) (calls : List Call) :
    SameOutcome (s.run calls) (t.run calls) := by
  induction calls generalizing s t with
  | nil => exact h.still []
  | cons call calls ih =>
    have hcall := answer_alike h call
    have hrest := ih hcall.state
    rw [run_cons, run_cons]
    refine ⟨hrest.state, ?_⟩
    simp only [seen_append, hcall.seen, hrest.seen]

theorem alike_new (settings : Settings) (configSize reportSize : Nat) :
    (new settings).Alike (new { settings with
      configBufferSize := configSize, reportBufferSize := reportSize }) :=
  ⟨⟨rfl, rfl, rfl, rfl⟩, ⟨rfl, rfl, rfl, rfl⟩, rfl⟩

end Supervisor

/-! ## The bus -/

/-- What the bus holds, without the numbers of runs. -/
def Bus.withoutRuns (b : Bus) : Bus := { b with held := b.held.map Event.withoutRuns }

theorem Bus.withoutRuns_publish (b : Bus) (e : Event) :
    (b.publish e).withoutRuns = b.withoutRuns.publish e.withoutRuns := by
  unfold publish
  by_cases h : b.receivers = 0
  · rw [if_pos h, if_pos (show b.withoutRuns.receivers = 0 from h)]
  · rw [if_neg h, if_neg (show b.withoutRuns.receivers ≠ 0 from h)]
    simp [withoutRuns]

theorem Bus.withoutRuns_publishAll (b : Bus) (es : List Event) :
    (b.publishAll es).withoutRuns = b.withoutRuns.publishAll (es.map Event.withoutRuns) := by
  induction es generalizing b with
  | nil => rfl
  | cons e es ih =>
    have hrest := ih (b.publish e)
    rw [withoutRuns_publish] at hrest
    exact hrest

namespace Monitor

/-! ## Monitors -/

/-- Monitors that cannot be told apart: their supervisors agree, their reports were written equally
often and have the same contents, and their buses hold the same events. -/
structure Agrees (m n : Monitor) : Prop where
  supervisor : m.supervisor.Agrees n.supervisor
  store : m.store = n.store
  bus : m.fanOut.bus.withoutRuns = n.fanOut.bus.withoutRuns

structure Alike (m n : Monitor) : Prop where
  supervisor : m.supervisor.Alike n.supervisor
  name : m.freeResources.name = n.freeResources.name
  root : m.freeResources.root = n.freeResources.root
  store : m.store = n.store
  bus : m.fanOut.bus.withoutRuns = n.fanOut.bus.withoutRuns

structure SameOutcome (o p : Monitor × List Effect) : Prop where
  state : o.1.Alike p.1
  seen : seen o.2 = seen p.2

variable {m n : Monitor}

theorem Alike.agrees (h : m.Alike n) : m.Agrees n := ⟨h.supervisor.agrees, h.store, h.bus⟩

/-- The report on free resources is the same from both reporters. -/
theorem freeResources_alike {r q : Reporter} (hname : r.name = q.name) (hroot : r.root = q.root)
    (state : Element) (label : Label) :
    let o := FreeResources.report r state label
    let p := FreeResources.report q state label
    (∃ written, o.1 = .ok written ∧ p.1 = .ok written) ∧
      (o.2.1.name = p.2.1.name ∧ o.2.1.root = p.2.1.root) ∧ seen o.2.2 = seen p.2.2 := by
  unfold FreeResources.report
  cases hdraft : FreeResources.draft? state label with
  | none => exact ⟨⟨false, rfl, rfl⟩, ⟨hname, hroot⟩, rfl⟩
  | some draft =>
    obtain ⟨ps, hdenotes⟩ := FreeResources.exists_denotes_of_draft? hdraft
    obtain ⟨⟨runs, hresult⟩, hseen⟩ := r.seen_generate hdenotes
    obtain ⟨⟨runs', hresult'⟩, hseen'⟩ := q.seen_generate hdenotes
    obtain ⟨hkept, hkeptRoot⟩ := r.reporter_generate draft
    obtain ⟨hkept', hkeptRoot'⟩ := q.reporter_generate draft
    refine ⟨⟨true, ?_, ?_⟩, ⟨?_, ?_⟩, ?_⟩
    · simp only [hresult, Except.map]
    · simp only [hresult', Except.map]
    · exact hkept.trans (hname.trans hkept'.symm)
    · exact hkeptRoot.trans (hroot.trans hkeptRoot'.symm)
    · rw [hseen, hseen', hname, hroot]

theorem handleState_alike (h : m.Alike n) (label : Label) (text : String) (state : Element) :
    SameOutcome (m.handleState label text state) (n.handleState label text state) := by
  have hhandled := Supervisor.handleReport_alike h.supervisor state label
  obtain ⟨⟨written, hleft, hright⟩, ⟨hname, hroot⟩, hfree⟩ :=
    freeResources_alike h.name h.root state label
  refine ⟨⟨hhandled.state, hname, hroot, h.store, h.bus⟩, ?_⟩
  simp only [handleState, hleft, hright, seen_append, hhandled.seen, hfree]

theorem handleReport_alike (h : m.Alike n) (label : Label) (bytes : ByteArray) :
    SameOutcome (m.handleReport label bytes) (n.handleReport label bytes) := by
  unfold handleReport
  cases String.fromUTF8? bytes with
  | none => exact ⟨h, rfl⟩
  | some padded =>
    dsimp only
    cases Markup.Element.parse (dropPadding padded) with
    | error e => exact ⟨h, rfl⟩
    | ok state => exact handleState_alike h label _ state

theorem handle_alike (h : m.Alike n) (input : Input) :
    SameOutcome (m.handle input) (n.handle input) := by
  cases input with
  | report label bytes => exact handleReport_alike h label bytes
  | config text =>
    obtain ⟨hresult, houtcome⟩ := Supervisor.updateConfig_alike h.supervisor text
    refine ⟨⟨houtcome.state, h.name, h.root, h.store, h.bus⟩, ?_⟩
    simp only [handle, handleConfig, seen_append, houtcome.seen, hresult]

theorem perform_alike {o p : Monitor × List Effect} (h : SameOutcome o p) :
    (o.1.perform o.2).1.Alike (p.1.perform p.2).1 := by
  refine ⟨h.state.supervisor, h.state.name, h.state.root, ?_, ?_⟩
  · simp only [perform]
    rw [apply_seen, apply_seen p.2, h.seen, h.state.store]
  · have hevents : publishedEvents o.2 = publishedEvents p.2 := by
      rw [publishedEvents_seen, publishedEvents_seen, h.seen]
    simp only [perform, FanOut.publishAll]
    rw [Bus.withoutRuns_publishAll, Bus.withoutRuns_publishAll, h.state.bus]
    exact congrArg _ hevents

/-- Handle inputs one after the other, with the effects of all. -/
def handleAll : Monitor → List Input → Monitor × List Effect
  | m, [] => (m, [])
  | m, input :: inputs =>
    let (n, rest) := handleAll (m.process input).1 inputs
    (n, (m.handle input).2 ++ rest)

theorem handleAll_alike (h : m.Alike n) (inputs : List Input) :
    SameOutcome (m.handleAll inputs) (n.handleAll inputs) := by
  induction inputs generalizing m n with
  | nil => exact ⟨h, rfl⟩
  | cons input inputs ih =>
    have hinput := handle_alike h input
    have hrest := ih (perform_alike hinput)
    refine ⟨hrest.state, ?_⟩
    show seen ((m.handle input).2 ++ ((m.process input).1.handleAll inputs).2) = _
    rw [seen_append, hinput.seen]
    exact (congrArg _ hrest.seen).trans (seen_append _ _).symm

/-- Monitors with these settings are built or refused together. -/
theorem build_alike (settings : Settings) (configSize reportSize : Nat)
    (subscribers : List Subscriber) (config : Option String) :
    let resized := { settings with configBufferSize := configSize, reportBufferSize := reportSize }
    (∃ p, (build settings subscribers config).1 = .error p ∧
      (build resized subscribers config).1 = .error p) ∨
    ∃ m n, (build settings subscribers config).1 = .ok m ∧
      (build resized subscribers config).1 = .ok n ∧ m.Alike n := by
  have hnew := Supervisor.alike_new settings configSize reportSize
  cases config with
  | none => exact .inr ⟨_, _, rfl, rfl, hnew, rfl, rfl, rfl, rfl⟩
  | some text =>
    obtain ⟨hresult, houtcome⟩ := Supervisor.updateConfig_alike hnew text
    unfold build
    dsimp only
    rw [← hresult]
    cases ((Supervisor.new settings).updateConfig text).1 with
    | error p => exact .inl ⟨p, rfl, rfl⟩
    | ok _ =>
      refine .inr ⟨_, _, rfl, rfl, perform_alike (o := (_, _)) (p := (_, _)) ⟨?_, houtcome.seen⟩⟩
      exact ⟨houtcome.state, rfl, rfl, rfl, rfl⟩

/-- After the same inputs, two monitors that were built or refused together show the same. -/
def ShowSame (inputs : List Input) : Except Problem Monitor → Except Problem Monitor → Prop
  | .ok m, .ok n => (m.handleAll inputs).1.Agrees (n.handleAll inputs).1 ∧
      publishedEvents (m.handleAll inputs).2 = publishedEvents (n.handleAll inputs).2
  | .error p, .error q => p = q
  | _, _ => False

end Monitor

/-- The sizes of the report buffers cannot be observed: after any calls two supervisors, and after
any inputs two monitors, whose settings differ only in them have the same configuration, slices,
flags, totals and regenerations, have written the same reports equally often, and have published the
same events, but for the number of runs that a regeneration took. -/
theorem buffer_sizes_unobservable (settings : Settings) (configSize reportSize : Nat) :
    let resized := { settings with configBufferSize := configSize, reportBufferSize := reportSize }
    (∀ calls : List Supervisor.Call,
      (Supervisor.after settings calls).Agrees (Supervisor.after resized calls) ∧
      Supervisor.storeAfter settings calls = Supervisor.storeAfter resized calls ∧
      publishedEvents ((Supervisor.new settings).run calls).2 =
        publishedEvents ((Supervisor.new resized).run calls).2) ∧
    ∀ (subscribers : List Subscriber) (config : Option String) (inputs : List Input),
      Monitor.ShowSame inputs (Monitor.build settings subscribers config).1
        (Monitor.build resized subscribers config).1 := by
  intro resized
  constructor
  · intro calls
    have hrun := Supervisor.run_alike (Supervisor.alike_new settings configSize reportSize) calls
    refine ⟨hrun.state.agrees, ?_, ?_⟩
    · rw [Supervisor.storeAfter, Supervisor.storeAfter, apply_seen, hrun.seen, ← apply_seen]
    · rw [publishedEvents_seen, hrun.seen, ← publishedEvents_seen]
  · intro subscribers config inputs
    rcases Monitor.build_alike settings configSize reportSize subscribers config with
      ⟨p, hleft, hright⟩ | ⟨m, n, hleft, hright, halike⟩
    · rw [hleft, hright]
      rfl
    · have hall := Monitor.handleAll_alike halike inputs
      rw [hleft, hright]
      refine ⟨hall.state.agrees, ?_⟩
      rw [publishedEvents_seen, hall.seen, ← publishedEvents_seen]

end Overseer
