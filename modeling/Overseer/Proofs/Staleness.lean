import Overseer.Proofs.Accounting
import Overseer.Proofs.Survival

/-!
What makes a resource stale.  An update compares what each start entry asks for with the quota that
the slice of its name has by then, so a resource becomes stale just if some entry asks for another
quota than its slice keeps (`Books.stale_update`).  Over a run, a resource is stale just if some call
has found such an entry and nothing was assigned of the resource since (`stale_run_iff`).
-/

namespace Overseer

open Markup

/-- A list splits at its first element or later. -/
theorem exists_split_cons {α : Type} {a : α} {as : List α} {P : List α → α → List α → Prop} :
    (∃ before b later, a :: as = before ++ b :: later ∧ P before b later) ↔
      P [] a as ∨ ∃ before b later, as = before ++ b :: later ∧ P (a :: before) b later := by
  constructor
  · rintro ⟨before, b, later, hsplit, h⟩
    cases before with
    | nil =>
      cases hsplit
      exact .inl h
    | cons first before =>
      cases hsplit
      exact .inr ⟨before, b, later, rfl, h⟩
  · rintro (h | ⟨before, b, later, rfl, h⟩)
    · exact ⟨[], a, as, rfl, h⟩
    · exact ⟨a :: before, b, later, rfl, h⟩

namespace Registry

/-- The configured quota that a slice still has when a configuration is entered.  A slice whose name
no entry states starts afresh. -/
def keptQuota (reg : Registry) (root : Element) (name : String) (r : Resource) : Nat :=
  if InitConfig.states root name then reg.quota name r else 0

/-- Some start entry asks for another quota than its slice keeps. -/
def disagrees (reg : Registry) (root : Element) (r : Resource) : Bool :=
  root.starts.any fun start => start.quotas.get r != reg.keptQuota root start.startName r

theorem quota_filter_isStarted (reg : Registry) (root : Element) (name : String) (r : Resource) :
    quota (reg.filter (isStarted root)) name r = reg.keptQuota root name r := by
  rw [quota, keptQuota, quota, find?_filter fun _ _ => InitConfig.isStarted_congr root]
  cases hfind : reg.find? name with
  | none => simp
  | some s =>
    have hstated : isStarted root s = InitConfig.states root name := by
      rw [← name_of_find? hfind]
      rfl
    rw [Option.filter_some, hstated]
    cases InitConfig.states root name <;> rfl

theorem disagrees_congr {reg other : Registry} {r : Resource}
    (h : ∀ name, other.quota name r = reg.quota name r) (root : Element) :
    other.disagrees root r = reg.disagrees root r := by
  simp only [disagrees, keptQuota, h]

end Registry

namespace InitConfig

/-! ## Updates -/

theorem Books.quota_enter_eq (b : Books) (start : Element) (name : String) (r : Resource) :
    (b.enter start).1.registry.quota name r =
      if start.startName = name then start.quotas.get r else b.registry.quota name r := by
  rw [Registry.quota, b.find?_enter]
  split
  · rfl
  · rfl

/-- Entries of one name are compared one after the other, so the resource becomes stale just if one
of them asks for another quota than the slice had before all. -/
theorem Books.stale_enterAll (b : Books) (starts : List Element) (r : Resource) :
    (enterAll b starts).1.reallocator.stale.get r = (b.reallocator.stale.get r ||
      starts.any fun start => start.quotas.get r != b.registry.quota start.startName r) := by
  induction starts generalizing b with
  | nil => exact (Bool.or_false _).symm
  | cons start starts ih =>
    have hrest : (enterAll b (start :: starts)).1 = (enterAll (b.enter start).1 starts).1 := rfl
    rw [hrest, ih, (b.reallocator_enter start).2, List.any_cons, Bool.or_assoc]
    by_cases hquota : b.registry.quota start.startName r = start.quotas.get r
    · -- the slice keeps its quota, so the rest is compared with what it had
      have hsame : ∀ name, (b.enter start).1.registry.quota name r = b.registry.quota name r := by
        intro name
        rw [quota_enter_eq]
        split
        · rename_i hname
          rw [← hname, hquota]
        · rfl
      simp only [hsame, hquota, bne_self_eq_false, Bool.false_or]
    · have hfirst : (b.registry.quota start.startName r != start.quotas.get r) = true := by
        simpa using hquota
      have hnext : (start.quotas.get r != b.registry.quota start.startName r) = true := by
        simpa using Ne.symm hquota
      rw [hfirst, hnext, Bool.true_or, Bool.true_or]

/-- A resource is stale after an update if it was before, or some entry asks for another quota than
its slice keeps. -/
theorem Books.stale_update (b : Books) (root : Element) (r : Resource) :
    (b.update root).1.reallocator.stale.get r =
      (b.reallocator.stale.get r || b.registry.disagrees root r) := by
  have hupdate : (b.update root).1 =
      (enterAll { b with registry := b.registry.filter (Registry.isStarted root) }
        root.starts).1 := rfl
  rw [hupdate, stale_enterAll]
  simp only [Registry.quota_filter_isStarted]
  rfl

/-! ## Configurations -/

/-- The quota that the slice of a name has under a configuration: what its last entry asks for. -/
def quotaUnder (c : Option InitConfig) (name : String) (r : Resource) : Nat :=
  ((c.bind fun c => lastStart? c.root.starts name).map fun start => start.quotas.get r).getD 0

/-- To enter the configuration `next` after `last` finds a quota changed: some start entry asks for
another one than the slice of its name has, and that slice has none if no entry states the name. -/
def Changes (last : Option InitConfig) (next : InitConfig) (r : Resource) : Prop :=
  ∃ start ∈ next.root.starts, start.quotas.get r ≠
    if states next.root start.startName then quotaUnder last start.startName r else 0

theorem Keeps.quota_eq_quotaUnder {c : InitConfig} {reg : Registry} (h : Keeps c.root reg)
    (name : String) (r : Resource) : reg.quota name r = quotaUnder (some c) name r := by
  by_cases hname : name ∈ reg.names
  · obtain ⟨start, hlast, hquota⟩ := h.quota_eq hname
    rw [hquota, quotaUnder, Option.bind_some, hlast]
    rfl
  · have hnone : lastStart? c.root.starts name = none := by
      rw [lastStart?_eq_none_iff, ← h.started]
      exact hname
    rw [Registry.quota, Registry.find?_eq_none_iff.mpr hname, quotaUnder, Option.bind_some, hnone]
    rfl

end InitConfig

namespace Supervisor

open InitConfig (Changes quotaUnder)

variable {s : Supervisor} {texts : List String} {call : Call}

theorem Standing.quota_eq (h : s.Standing texts) (name : String) (r : Resource) :
    s.registry.quota name r = quotaUnder s.config name r := by
  cases hc : s.config with
  | none =>
    rw [(h.untouched hc).1]
    rfl
  | some c => exact (h.keeps c hc).quota_eq_quotaUnder name r

theorem Standing.disagrees_iff (h : s.Standing texts) (c : InitConfig) (r : Resource) :
    s.registry.disagrees c.root r = true ↔ Changes s.config c r := by
  simp only [Registry.disagrees, Registry.keptQuota, h.quota_eq, List.any_eq_true, bne_iff_ne,
    Changes]

/-! ## Calls -/

theorem stale_regenerate {c : InitConfig} (hc : s.config = some c) (hs : s.Equipped)
    (r : Resource) : s.regenerate.1.reallocator.stale.get r =
      (s.reallocator.stale.get r || s.registry.disagrees c.root r) := by
  obtain ⟨_, _, _, hstate, _⟩ := regenerate_eq hc hs
  rw [hstate]
  exact InitConfig.Books.stale_update ⟨s.registry, s.reallocator⟩ c.root r

theorem config_regenerate (s : Supervisor) : s.regenerate.1.config = s.config := by
  cases hc : s.config with
  | none => rw [regenerate_unconfigured hc, hc]
  | some c =>
    rw [regenerate_of_config hc, publish]
    dsimp only
    split
    · exact hc
    · exact hc

theorem regenerations_regenerate {c : InitConfig} (hc : s.config = some c) (hs : s.Equipped) :
    s.regenerate.1.regenerations = s.regenerations + 1 := by
  obtain ⟨_, _, _, hstate, _⟩ := regenerate_eq hc hs
  rw [hstate]
  rfl

/-- An assignment ends the staleness of what it assigns and changes no configured quota. -/
theorem Assigns.settled {t : Supervisor} {state : Element} {events : List Event}
    (h : Assigns s state t events) (r : Resource) :
    t.reallocator.stale.get r =
      (s.reallocator.stale.get r && (granted? state events r).isNone) ∧
    (∀ name, t.registry.quota name r = s.registry.quota name r) ∧
    t.regenerations = s.regenerations := by
  cases h with
  | nothing => exact ⟨by simp [granted?], fun _ => rfl, rfl⟩
  | elastic _ hslice _ =>
    refine ⟨?_, fun name => quota_reassigned hslice (concerns_assign ..) name r, rfl⟩
    rw [granted?_assign]
    rcases s.reallocator.assign_cases state _ _ r with
      ⟨hnone, _, hstale⟩ | ⟨n, hsome, _, hstale, _⟩
    · rw [hnone]
      exact hstale.trans (Bool.and_true _).symm
    · rw [hsome]
      exact hstale.trans (Bool.and_false _).symm

/-- The call publishes the configuration anew and finds a quota of the resource changed. -/
def Finds (s : Supervisor) (call : Call) (r : Resource) : Prop :=
  (s.answer call).1.regenerations ≠ s.regenerations ∧
    ∃ c, (s.answer call).1.config = some c ∧ Changes s.config c r

/-- What a report makes of a resource before anything is published. -/
theorem stale_reported {state : Element} {label : Label} {t : Supervisor} {events : List Event}
    (hassigns : Assigns (s.charged state label) state t events)
    (hevents : eventsOf .dynamicResourcesAssigned (s.handleReport state label).2 = events)
    (r : Resource) :
    t.reallocator.stale.get r = (s.reallocator.stale.get r &&
      (s.grant? r (.handleReport state label)).isNone) ∧
    (∀ root, t.registry.disagrees root r = s.registry.disagrees root r) ∧
    t.regenerations = s.regenerations ∧ t.config = s.config := by
  obtain ⟨hstale, hquota, hregenerations⟩ := hassigns.settled r
  refine ⟨?_, fun root => ?_, hregenerations, hassigns.config⟩
  · rw [grant?, hevents]
    exact hstale
  · refine Registry.disagrees_congr (fun name => ?_) root
    rw [hquota]
    exact Registry.quota_chargeAll s.registry _ name r

/-- A resource is stale after a call if the call found a quota of it changed, or it was stale before
and the call has assigned nothing of it. -/
theorem stale_answer_iff (h : s.Standing texts) (call : Call) (r : Resource) :
    (s.answer call).1.reallocator.stale.get r = true ↔
      s.Finds call r ∨ (s.reallocator.stale.get r = true ∧ s.grant? r call = none) := by
  have hequipped := h.equipped
  have hsteps := s.answer_steps call
  rw [Finds]
  generalize (s.answer call).1 = after at hsteps ⊢
  cases hsteps with
  | refused _ => simp [grant?]
  | @accepted text c hparse =>
    let t : Supervisor := { s with config := some c }
    have ht : t.Equipped := ⟨hequipped.name, hequipped.root, hequipped.restart⟩
    have hmore : t.regenerate.1.regenerations ≠ s.regenerations := by
      rw [regenerations_regenerate (s := t) rfl ht]
      exact Nat.succ_ne_self _
    rw [stale_regenerate (s := t) rfl ht, config_regenerate, Bool.or_eq_true, h.disagrees_iff c r]
    simp [t, hmore, grant?, or_comm]
  | @ignored state label hfew => simp [grant?, handleReport, hfew, eventsOf, granted?]
  | @assigned state label t events restartReporter hlong hassigns hevents =>
    obtain ⟨hstale, _, hregenerations, _⟩ := stale_reported hassigns hevents r
    simp [hstale, hregenerations]
  | @regenerated state label t events restartReporter hlong hassigns hevents =>
    obtain ⟨hstale, hdisagrees, hregenerations, hconfig⟩ := stale_reported hassigns hevents r
    have ht : t.Equipped := hassigns.equipped (hequipped.charged state label)
    cases hc : s.config with
    | none =>
      rw [regenerate_unconfigured (hconfig.trans hc)]
      simp [hstale, hregenerations]
    | some c =>
      have htc : t.config = some c := hconfig.trans hc
      have hmore : t.regenerate.1.regenerations ≠ s.regenerations := by
        rw [regenerations_regenerate htc ht, hregenerations]
        exact Nat.succ_ne_self _
      have hchanges := h.disagrees_iff c r
      rw [hc] at hchanges
      simp only [config_regenerate, htc, stale_regenerate htc ht, hstale, hdisagrees]
      rw [Bool.or_eq_true, hchanges]
      simp [hmore, or_comm]

/-! ## Runs -/

/-- A resource is stale after a run if some call has found a quota of it changed and nothing was
assigned of it since, or it was stale before and nothing was assigned at all. -/
theorem stale_run_iff (h : s.Standing texts) (calls : List Call) (r : Resource) :
    (s.run calls).1.reallocator.stale.get r = true ↔
      (s.reallocator.stale.get r = true ∧ s.lastGrant? r calls = none) ∨
      ∃ before call later, calls = before ++ call :: later ∧ (s.run before).1.Finds call r ∧
        ((s.run before).1.answer call).1.lastGrant? r later = none := by
  induction calls generalizing s texts with
  | nil => simp [run, lastGrant?]
  | cons call calls ih =>
    obtain ⟨_, _, hafter, _⟩ := answer_standing h call
    rw [run_cons, ih hafter, stale_answer_iff h, exists_split_cons, lastGrant?, Option.or_eq_none_iff]
    -- the first call is the one in question, or it leaves what was stale before
    constructor
    · rintro (⟨hfound | ⟨hstale, hnone⟩, hlater⟩ | hrest)
      · exact .inr (.inl ⟨hfound, hlater⟩)
      · exact .inl ⟨hstale, hlater, hnone⟩
      · exact .inr (.inr hrest)
    · rintro (⟨hstale, hlater, hnone⟩ | ⟨hfound, hlater⟩ | hrest)
      · exact .inl ⟨.inr ⟨hstale, hnone⟩, hlater⟩
      · exact .inl ⟨.inl hfound, hlater⟩
      · exact .inr hrest

end Supervisor

end Overseer
