import Overseer.Proofs.Calls

/-!
Runs of a supervisor.  The published configuration is never stale: after any calls the registry
holds the slices of the accepted configuration, and the text published last is the one for both
(`UpToDate`).
-/

namespace Overseer

open Markup

namespace Supervisor

/-- Calls one after the other, with the effects of all. -/
def run : Supervisor → List Call → Supervisor × List Effect
  | s, [] => (s, [])
  | s, call :: calls =>
    let (s, effects) := s.answer call
    let (s, rest) := run s calls
    (s, effects ++ rest)

theorem run_cons (s : Supervisor) (call : Call) (calls : List Call) :
    s.run (call :: calls) = (((s.answer call).1.run calls).1,
      (s.answer call).2 ++ ((s.answer call).1.run calls).2) := rfl

theorem run_append (s : Supervisor) (calls more : List Call) :
    s.run (calls ++ more) = (((s.run calls).1.run more).1,
      (s.run calls).2 ++ ((s.run calls).1.run more).2) := by
  induction calls generalizing s with
  | nil => rfl
  | cons call calls ih => rw [List.cons_append, run_cons, ih, run_cons, List.append_assoc]

/-- The supervisor after some calls. -/
abbrev after (settings : Settings) (calls : List Call) : Supervisor := ((new settings).run calls).1

/-- The reports after some calls. -/
def storeAfter (settings : Settings) (calls : List Call) : ReportStore :=
  ((new settings).run calls).2.foldl ReportStore.apply []

theorem after_snoc (settings : Settings) (calls : List Call) (call : Call) :
    after settings (calls ++ [call]) = ((after settings calls).answer call).1 := by
  rw [after, run_append]
  rfl

theorem after_started (settings : Settings) (c : InitConfig) (calls : List Call) :
    after settings (.updateConfig c.text :: calls) =
      (({ new settings with config := some c } : Supervisor).regenerate.1.run calls).1 := by
  rw [after, run_cons, answer_updateConfig]

/-- A report that says what is available. -/
def availReport (caps ram : Nat) : Call :=
  .handleReport
    (writtenElement "state".toList []
      [.child (writtenElement "caps".toList
        ([("avail", escape (toString caps))].map InitConfig.written) []),
       .child (writtenElement "ram".toList
        ([("avail", escape (toString ram))].map InitConfig.written) [])])
    ⟨["init", "state"]⟩

/-! ## What calls preserve -/

/-- The state and the texts published so far fit together. -/
structure Standing (s : Supervisor) (texts : List String) : Prop where
  equipped : s.Equipped
  regenerations : s.regenerations = texts.length
  untouched : s.config = none → s.registry = [] ∧ texts = []
  keeps : ∀ c, s.config = some c → InitConfig.Keeps c.root s.registry
  totals : ∀ c, s.config = some c → s.totals = s.registry.totals
  latest : ∀ c, s.config = some c → texts.getLast? = some (publishedText c s.registry)

theorem Standing.sound {s : Supervisor} {texts : List String} (h : s.Standing texts) : s.Sound :=
  fun hc => (h.untouched hc).1

theorem Standing.nodup {s : Supervisor} {texts : List String} (h : s.Standing texts) :
    s.registry.names.Nodup := by
  cases hc : s.config with
  | none =>
    rw [(h.untouched hc).1]
    exact List.nodup_nil
  | some c => exact (h.keeps c hc).nodup

theorem Standing.bounded {s : Supervisor} {texts : List String} (h : s.Standing texts) :
    ∀ slice ∈ s.registry, slice.Bounded := by
  cases hc : s.config with
  | none =>
    rw [(h.untouched hc).1]
    exact nofun
  | some c => exact (h.keeps c hc).bounded

theorem standing_new (settings : Settings) : (new settings).Standing [] where
  equipped := ⟨rfl, rfl, rfl⟩
  regenerations := rfl
  untouched := fun _ => ⟨rfl, rfl⟩
  keeps := nofun
  totals := nofun
  latest := nofun

theorem Rests.standing {s : Supervisor} {call : Call} {texts : List String} (h : s.Standing texts)
    (hrests : s.Rests call) : (s.answer call).1.Standing texts := by
  obtain ⟨reallocator, reporter, hname, hstate⟩ := hrests.state
  rw [hstate]
  exact ⟨⟨h.equipped.name, h.equipped.root, hname⟩, h.regenerations, h.untouched, h.keeps, h.totals,
    h.latest⟩

theorem Renews.registry {s : Supervisor} {call : Call} {c : InitConfig} {books : InitConfig.Books}
    (hrenews : s.Renews call c books) :
    (s.answer call).1.registry = (books.update c.root).1.registry := by
  obtain ⟨reporter, restartReporter, _, _, _, hstate⟩ := hrenews.state
  rw [hstate]
  rfl

theorem Renews.standing {s : Supervisor} {call : Call} {c : InitConfig} {books : InitConfig.Books}
    {texts : List String} (h : s.Standing texts) (hrenews : s.Renews call c books) :
    (s.answer call).1.Standing (texts ++ [publishedText c (s.answer call).1.registry]) := by
  have hnodup : books.registry.names.Nodup := by
    rw [hrenews.prepared.names]
    exact h.nodup
  have hkeeps := InitConfig.keeps_update hnodup (hrenews.prepared.bounded h.nodup h.bounded) c.root
  obtain ⟨reporter, restartReporter, hname, hroot, hrestart, hstate⟩ := hrenews.state
  have hregenerations := h.regenerations
  rw [hstate]
  refine ⟨⟨hname, hroot, hrestart⟩, ?_, nofun, ?_, ?_, ?_⟩
  · simp [renewed, hregenerations]
  · intro d hd
    cases hd
    exact hkeeps
  · intro d hd
    cases hd
    rfl
  · intro d hd
    cases hd
    rw [List.getLast?_concat]

/-- One call keeps state and texts together. -/
theorem answer_standing {s : Supervisor} {texts : List String} (h : s.Standing texts)
    (call : Call) : ∃ more, Tells more (s.answer call).2 ∧
      (s.answer call).1.Standing (texts ++ more) ∧
      (s.answer call).1.config = call.accepted?.or s.config := by
  rcases answer_cases h.equipped h.sound call with hrests | ⟨c, books, hrenews⟩
  · refine ⟨[], hrests.tells, ?_, ?_⟩
    · rw [List.append_nil]
      exact hrests.standing h
    · obtain ⟨reallocator, reporter, _, hstate⟩ := hrests.state
      rw [hrests.accepted, hstate]
      rfl
  · refine ⟨_, hrenews.tells, hrenews.standing h, ?_⟩
    obtain ⟨reporter, restartReporter, _, _, _, hstate⟩ := hrenews.state
    rw [hrenews.config, hstate]
    rfl

/-- So does a run. -/
theorem run_standing {s : Supervisor} {texts : List String} (h : s.Standing texts)
    (calls : List Call) : ∃ more, Tells more (s.run calls).2 ∧
      (s.run calls).1.Standing (texts ++ more) ∧
      (s.run calls).1.config = (calls.filterMap Call.accepted?).getLast?.or s.config := by
  induction calls generalizing s texts with
  | nil => exact ⟨[], tells_nil, by rwa [List.append_nil], rfl⟩
  | cons call calls ih =>
    obtain ⟨first, hfirst, hstanding, hconfig⟩ := answer_standing h call
    obtain ⟨rest, hrest, hlast, hrun⟩ := ih hstanding
    refine ⟨first ++ rest, hfirst.append hrest, ?_, ?_⟩
    · rw [← List.append_assoc]
      exact hlast
    · rw [run_cons, hrun, hconfig]
      cases hcall : call.accepted? with
      | none => simp [hcall]
      | some c =>
        rw [List.filterMap_cons_some hcall, List.getLast?_cons]
        cases (calls.filterMap Call.accepted?).getLast? <;> rfl

/-- A run from the start; the configuration in force is the one accepted last. -/
theorem run_new (settings : Settings) (calls : List Call) :
    ∃ texts, Tells texts ((new settings).run calls).2 ∧ (after settings calls).Standing texts ∧
      (after settings calls).config = (calls.filterMap Call.accepted?).getLast? := by
  obtain ⟨texts, htells, hstanding, hconfig⟩ := run_standing (standing_new settings) calls
  exact ⟨texts, htells, hstanding, hconfig.trans Option.or_none⟩

theorem config_after (settings : Settings) (calls : List Call) :
    (after settings calls).config = (calls.filterMap Call.accepted?).getLast? := by
  obtain ⟨_, _, _, hconfig⟩ := run_new settings calls
  exact hconfig

/-! ## The published configuration -/

theorem writes_storeAfter {settings : Settings} {calls : List Call} {texts : List String}
    (h : Tells texts ((new settings).run calls).2) :
    (storeAfter settings calls).writes configReport = texts.length := by
  rw [storeAfter, ReportStore.writes_apply, h.contents]
  exact Nat.zero_add _

theorem latest?_storeAfter {settings : Settings} {calls : List Call} {texts : List String}
    (h : Tells texts ((new settings).run calls).2) :
    (storeAfter settings calls).latest? configReport = texts.getLast? := by
  rw [storeAfter, ReportStore.latest?_apply, h.contents]
  exact Option.or_none

end Supervisor

end Overseer
