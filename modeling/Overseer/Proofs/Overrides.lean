import Overseer.Proofs.Assignment
import Overseer.Proofs.Committed
import Overseer.Proofs.Steps

/-!
Dynamic quotas.  Only the elastic slice has any, and while a resource is not stale its quota fits
into the report that it was assigned from, beside the margin and all that the other slices are
configured to receive (`Covered`): whatever raises a configured quota makes the resource stale.
-/

namespace Overseer

open Markup

/-! ## Quotas in a registry -/

namespace Registry

/-- The dynamic quota of the slice under a name, zero if there is none. -/
def dynamic (reg : Registry) (name : String) (r : Resource) : Nat :=
  ((reg.find? name).map fun s => s.dynamic.get r).getD 0

variable {reg : Registry} {name : String} {r : Resource}

theorem dynamic_of_find? {s : Slice} (h : reg.find? name = some s) :
    reg.dynamic name r = s.dynamic.get r := by
  rw [dynamic, h]
  rfl

theorem committed_congr {other : Registry} (hnames : other.names = reg.names)
    (hquota : ∀ name, other.quota name r = reg.quota name r) (except : String) :
    other.committed except r = reg.committed except r := by
  simp only [committed, hnames, hquota]

/-- Charging failures touches no quota. -/
theorem map_find?_chargeAll {α : Type} {f : Slice → α}
    (hf : ∀ s failures restartPending, f { s with failures, restartPending } = f s)
    (reg : Registry) (fs : List Finding) (name : String) :
    ((reg.chargeAll fs).1.find? name).map f = (reg.find? name).map f := by
  cases hfind : reg.find? name with
  | some s =>
    obtain ⟨failures, hcharged⟩ := find?_chargeAll hfind fs
    rw [hcharged, Option.map_some, Option.map_some, hf]
  | none =>
    have hnone : (reg.chargeAll fs).1.find? name = none := by
      rw [find?_eq_none_iff, names_chargeAll]
      exact find?_eq_none_iff.mp hfind
    rw [hnone]

theorem quota_chargeAll (reg : Registry) (fs : List Finding) (name : String) (r : Resource) :
    (reg.chargeAll fs).1.quota name r = reg.quota name r := by
  rw [quota, quota, map_find?_chargeAll fun _ _ _ => rfl]

theorem dynamic_chargeAll (reg : Registry) (fs : List Finding) (name : String) (r : Resource) :
    (reg.chargeAll fs).1.dynamic name r = reg.dynamic name r := by
  rw [dynamic, dynamic, map_find?_chargeAll fun _ _ _ => rfl]

theorem committed_chargeAll (reg : Registry) (fs : List Finding) (except : String) (r : Resource) :
    (reg.chargeAll fs).1.committed except r = reg.committed except r :=
  committed_congr (names_chargeAll reg fs) (quota_chargeAll reg fs · r) except

/-- An update leaves a slice its dynamic quotas, or drops them with the slice. -/
theorem dynamic_update (b : InitConfig.Books) (root : Element) (name : String) (r : Resource) :
    (b.update root).1.registry.dynamic name r = 0 ∨
      (b.update root).1.registry.dynamic name r = b.registry.dynamic name r := by
  rw [dynamic, b.find?_update]
  cases InitConfig.lastStart? root.starts name with
  | none => exact .inl rfl
  | some start =>
    cases hold : (b.registry.find? name).filter (isStarted root) with
    | none => exact .inl (by cases r <;> rfl)
    | some s =>
      have hs := (Option.filter_eq_some_iff.mp hold).1
      exact .inr (dynamic_of_find? hs).symm

end Registry

/-! ## Grants -/

/-- What an event says of a resource. -/
def Event.figure? (e : Event) : Resource → Option Nat
  | .caps => e.caps
  | .ram => e.ram

/-- A dynamic quota, and the state report that it was assigned from. -/
structure Grant where
  quota : Nat
  report : Element

/-- What the report says is available. -/
def Grant.avail (g : Grant) (r : Resource) : Nat :=
  ((Availability.ofState g.report).tallies.get r).avail

/-- What a report has been used to assign, by the events of assignments. -/
def granted? (report : Element) (assignments : List Event) (r : Resource) : Option Grant :=
  (assignments.findSome? (·.figure? r)).map fun quota => { quota, report }

namespace Supervisor

/-- What a call assigns of a resource; only state reports have something assigned. -/
def grant? (s : Supervisor) (r : Resource) : Call → Option Grant
  | .updateConfig _ => none
  | .handleReport state label =>
    granted? state (eventsOf .dynamicResourcesAssigned (s.handleReport state label).2) r

/-- What was assigned last of a resource in the course of some calls. -/
def lastGrant? : Supervisor → Resource → List Call → Option Grant
  | _, _, [] => none
  | s, r, call :: calls => (lastGrant? (s.answer call).1 r calls).or (s.grant? r call)

theorem granted?_assign (state : Element) (config : Element) (a : Reallocator) (s : Slice)
    (elastic : Elastic) (r : Resource) :
    granted? state (eventsOf .dynamicResourcesAssigned
      (reallocationEffects elastic (a.assign state config s))) r =
      ((a.assign state config s).assigned.get r).map fun quota => { quota, report := state } := by
  rw [assignments_reallocationEffects (concerns_assign a state config s)]
  cases hupdated : (a.assign state config s).updated with
  | true => cases r <;> simp [granted?, assignmentEvent, Event.figure?, Both.get]
  | false =>
    rw [Reallocation.assigned_of_not_updated hupdated]
    rfl

/-! ## What is kept -/

/-- The dynamic quotas are covered by what they were granted from.  `grants` remembers for each
resource what was assigned of it last. -/
structure Covered (settings : Settings) (s : Supervisor) (grants : Resource → Option Grant) :
    Prop where
  elastic : s.elastic = (new settings).elastic
  margin : s.reallocator.margin = settings.margin
  nodup : s.registry.names.Nodup
  plain : ∀ name, settings.elasticSlice ≠ some name → ∀ r, s.registry.dynamic name r = 0
  granted : ∀ name r, s.registry.dynamic name r ≠ 0 → ∃ g, grants r = some g ∧
    g.quota = s.registry.dynamic name r ∧ (s.reallocator.stale.get r = false →
      s.registry.dynamic name r + settings.margin.get r + s.registry.committed name r ≤ g.avail r)

variable {settings : Settings} {s : Supervisor} {grants : Resource → Option Grant}

theorem covered_new (settings : Settings) : (new settings).Covered settings fun _ => none where
  elastic := rfl
  margin := rfl
  nodup := List.nodup_nil
  plain := fun _ _ _ => rfl
  granted := fun _ _ h => absurd rfl h

theorem Covered.charged (h : s.Covered settings grants) (state : Element) (label : Label) :
    (s.charged state label).Covered settings grants := by
  have hdynamic := Registry.dynamic_chargeAll s.registry
    (findingsOf state s.threshold label.scope)
  have hcommitted := Registry.committed_chargeAll s.registry
    (findingsOf state s.threshold label.scope)
  refine ⟨h.elastic, h.margin, ?_, ?_, ?_⟩
  · rw [Supervisor.charged, Registry.names_chargeAll]
    exact h.nodup
  · intro name hname r
    rw [Supervisor.charged, hdynamic]
    exact h.plain name hname r
  · intro name r
    rw [Supervisor.charged, hdynamic, hcommitted]
    exact h.granted name r

/-- A regeneration makes a resource stale if it raises some quota of it. -/
theorem Covered.regenerate (h : s.Covered settings grants) (hs : s.Equipped) :
    s.regenerate.1.Covered settings grants := by
  cases hc : s.config with
  | none =>
    rw [regenerate_unconfigured hc]
    exact h
  | some c =>
    obtain ⟨reporter, _, _, hstate, _⟩ := regenerate_eq hc hs
    let b : InitConfig.Books := ⟨s.registry, s.reallocator⟩
    have hnodup := InitConfig.Books.nodup_update (b := b) h.nodup c.root
    rw [hstate]
    refine ⟨h.elastic, (b.margin_update c.root).trans h.margin, hnodup, ?_, ?_⟩
    · intro name hname r
      rcases Registry.dynamic_update b c.root name r with hzero | hsame
      · exact hzero
      · exact hsame.trans (h.plain name hname r)
    · intro name r hne
      rcases Registry.dynamic_update b c.root name r with hzero | hsame
      · exact absurd hzero hne
      have hold : s.registry.dynamic name r ≠ 0 := fun hzero => hne (hsame.trans hzero)
      obtain ⟨g, hgrant, hquota, hfits⟩ := h.granted name r hold
      refine ⟨g, hgrant, hquota.trans hsame.symm, fun hstale => ?_⟩
      obtain ⟨hbefore, hquotas⟩ := InitConfig.Books.quota_update (b := b) hstale
      have hcommitted := Registry.committed_le_of_quota hnodup hquotas name
      have hle := hfits hbefore
      show (b.update c.root).1.registry.dynamic name r + _ +
        (b.update c.root).1.registry.committed name r ≤ g.avail r
      rw [hsame]
      exact Nat.le_trans (Nat.add_le_add_left hcommitted _) hle

theorem Covered.elasticSlice (h : s.Covered settings grants) {elastic : Elastic}
    (helastic : s.elastic = some elastic) : settings.elasticSlice = some elastic.slice := by
  have hnew := h.elastic.symm.trans helastic
  rw [new, Option.map_eq_some_iff] at hnew
  obtain ⟨l, hl, rfl⟩ := hnew
  rw [Settings.elasticSlice, hl]
  rfl

/-- Something is assigned only if the sum of what is asked for was not cut down. -/
theorem avail_eq_of_assigned {state config : Element} {name : String} {r : Resource}
    {margin n : Nat} (hpos : 0 < n) (havail : ((Availability.ofState state).tallies.get r).avail =
      margin + (configuredTotals config name).get r + n) :
    ((Availability.ofState state).tallies.get r).avail =
      margin + InitConfig.asked config name r + n := by
  have hle := avail_le state r
  have hclamp := InitConfig.configuredTotals_get config name r
  rw [Amount.clamp] at hclamp
  omega

/-- Replacing a slice by one with the same configured quotas commits the same. -/
theorem quota_reassigned {elastic : Elastic} {slice : Slice} {a : Reallocation}
    (hslice : s.registry.find? elastic.slice = some slice) (ha : a.Concerns slice) (name : String)
    (r : Resource) : (s.reassigned elastic a).registry.quota name r = s.registry.quota name r := by
  obtain ⟨dynamic, hdynamic⟩ := ha.slice
  rw [Registry.quota, find?_reassigned hslice ha]
  by_cases h : elastic.slice = name
  · rw [if_pos h, ← h, Registry.quota_of_find? hslice, hdynamic]
    rfl
  · rw [if_neg h]
    rfl

theorem dynamic_reassigned {elastic : Elastic} {slice : Slice} {a : Reallocation}
    (hslice : s.registry.find? elastic.slice = some slice) (ha : a.Concerns slice) (name : String)
    (r : Resource) : (s.reassigned elastic a).registry.dynamic name r =
      if elastic.slice = name then a.slice.dynamic.get r else s.registry.dynamic name r := by
  rw [Registry.dynamic, find?_reassigned hslice ha]
  by_cases h : elastic.slice = name
  · rw [if_pos h, if_pos h]
    rfl
  · rw [if_neg h, if_neg h]
    rfl

/-- What a report has assigned fits into the report. -/
theorem Covered.assigns (h : s.Covered settings grants)
    (hasked : ∀ c, s.config = some c → ∀ except r,
      s.registry.committed except r ≤ InitConfig.asked c.root except r)
    {state : Element} {t : Supervisor} {events : List Event} (hassigns : Assigns s state t events) :
    t.Covered settings fun r => (granted? state events r).or (grants r) := by
  cases hassigns with
  | nothing => exact h
  | @elastic elastic slice c helastic hslice hc =>
    let a := s.reallocator.assign state c.root slice
    have ha : a.Concerns slice := concerns_assign s.reallocator state c.root slice
    have hnames : (s.reassigned elastic a).registry.names = s.registry.names :=
      Registry.names_replace (ha.name.trans (Registry.name_of_find? hslice))
    have hcommitted (name : String) (r : Resource) :
        (s.reassigned elastic a).registry.committed name r = s.registry.committed name r :=
      Registry.committed_congr hnames (quota_reassigned hslice ha · r) name
    have hname := h.elasticSlice helastic
    refine ⟨h.elastic, (Reallocator.margin_assign ..).trans h.margin, hnames ▸ h.nodup, ?_, ?_⟩
    · intro name hother r
      have hne : elastic.slice ≠ name := fun e => hother (e ▸ hname)
      rw [dynamic_reassigned hslice ha, if_neg hne]
      exact h.plain name hother r
    · intro name r hne
      have heq : elastic.slice = name := by
        by_contra hother
        rw [dynamic_reassigned hslice ha, if_neg hother] at hne
        exact hne (h.plain name (fun e => hother (Option.some.inj (hname.symm.trans e))) r)
      subst heq
      rw [granted?_assign, hcommitted]
      rw [dynamic_reassigned hslice ha, if_pos rfl] at hne ⊢
      rcases s.reallocator.assign_cases state c.root slice r with
        ⟨hnone, hdynamic, hstale⟩ | ⟨n, hsome, hdynamic, hstale, hpos, havail⟩
      · -- the grant that was there already still counts
        have hsame : a.slice.dynamic.get r = s.registry.dynamic elastic.slice r :=
          hdynamic.trans (Registry.dynamic_of_find? hslice).symm
        have hreallocator : (s.reassigned elastic a).reallocator.stale.get r =
            s.reallocator.stale.get r := hstale
        rw [hnone, Option.map_none, Option.none_or, hreallocator, hsame]
        exact h.granted elastic.slice r (hsame ▸ hne)
      · have hexact := avail_eq_of_assigned hpos havail
        have hfits := hasked c hc elastic.slice r
        rw [Registry.name_of_find? hslice] at hexact
        rw [hsome, hdynamic]
        refine ⟨⟨n, state⟩, rfl, rfl, fun _ => ?_⟩
        show n + settings.margin.get r + s.registry.committed elastic.slice r ≤
          ((Availability.ofState state).tallies.get r).avail
        rw [← h.margin]
        omega

/-! ## Runs -/

theorem Covered.reported {restartReporter : Reporter} (h : s.Covered settings grants) :
    ({ s with restartReporter } : Supervisor).Covered settings grants :=
  ⟨h.elastic, h.margin, h.nodup, h.plain, h.granted⟩

/-- One call keeps the dynamic quotas covered. -/
theorem Covered.answer (h : s.Covered settings grants) {texts : List String}
    (hstanding : s.Standing texts) (call : Call) :
    (s.answer call).1.Covered settings fun r => (s.grant? r call).or (grants r) := by
  have hequipped := hstanding.equipped
  -- charging commits the slices to no more than the configuration asks for
  have hasked (state : Element) (label : Label) : ∀ c, (s.charged state label).config = some c →
      ∀ except r, (s.charged state label).registry.committed except r ≤
        InitConfig.asked c.root except r := by
    intro c hc except r
    have hsame := Registry.committed_chargeAll s.registry
      (findingsOf state s.threshold label.scope) except r
    exact hsame.trans_le ((hstanding.keeps c hc).committed_le except r)
  have hsteps := s.answer_steps call
  generalize (s.answer call).1 = after at hsteps ⊢
  cases hsteps with
  | refused hparse => exact h
  | accepted hparse =>
    refine Covered.regenerate ?_ ⟨hequipped.name, hequipped.root, hequipped.restart⟩
    exact ⟨h.elastic, h.margin, h.nodup, h.plain, h.granted⟩
  | @ignored state label hfew =>
    have hnone (r : Resource) : s.grant? r (.handleReport state label) = none := by
      rw [grant?, handleReport, if_pos hfew]
      rfl
    simp only [hnone, Option.none_or]
    exact h
  | @assigned state label t events restartReporter hlong hassigns hevents =>
    simp only [grant?, hevents]
    exact ((h.charged state label).assigns (hasked state label) hassigns).reported
  | @regenerated state label t events restartReporter hlong hassigns hevents =>
    simp only [grant?, hevents]
    exact (((h.charged state label).assigns (hasked state label) hassigns).regenerate
      (hassigns.equipped (hequipped.charged state label))).reported

/-- So does a run. -/
theorem Covered.run (h : s.Covered settings grants) {texts : List String}
    (hstanding : s.Standing texts) (calls : List Call) :
    (s.run calls).1.Covered settings fun r => (s.lastGrant? r calls).or (grants r) := by
  induction calls generalizing s grants texts with
  | nil => exact h
  | cons call calls ih =>
    obtain ⟨more, _, hafter, _⟩ := answer_standing hstanding call
    have hrun := ih (h.answer hstanding call) hafter
    simp only [run_cons, lastGrant?, Option.or_assoc]
    exact hrun

theorem elastic_after (settings : Settings) (calls : List Call) :
    (after settings calls).elastic = (new settings).elastic :=
  ((covered_new settings).run (standing_new settings) calls).elastic

/-- Only the elastic slice has dynamic quotas, whatever calls were made.  With different names in
the configuration in force, a dynamic quota is what was assigned last of its resource; and unless
the resource is stale, it fits into the figure of the report that it was assigned from, together
with the margin and all that the other start entries ask for now. -/
theorem dynamic_quota_covered (settings : Settings) (calls : List Call) :
    let s := after settings calls
    (∀ slice ∈ s.registry, settings.elasticSlice ≠ some slice.name →
      ∀ r, slice.dynamic.get r = 0) ∧
    ∀ c, s.config = some c → InitConfig.Distinct c.root → ∀ slice ∈ s.registry, ∀ r,
      slice.dynamic.get r ≠ 0 → ∃ grant, (new settings).lastGrant? r calls = some grant ∧
        grant.quota = slice.dynamic.get r ∧ (s.reallocator.stale.get r = false →
          slice.dynamic.get r + settings.margin.get r + InitConfig.asked c.root slice.name r ≤
            grant.avail r) := by
  intro s
  obtain ⟨_, _, hstanding, _⟩ := run_new settings calls
  have hcovered := (covered_new settings).run (standing_new settings) calls
  have hdynamic : ∀ slice ∈ s.registry, ∀ r,
      s.registry.dynamic slice.name r = slice.dynamic.get r := fun slice hslice r =>
    Registry.dynamic_of_find? (Registry.find?_of_mem hstanding.nodup hslice)
  constructor
  · intro slice hslice hother r
    rw [← hdynamic slice hslice]
    exact hcovered.plain slice.name hother r
  · intro c hc hdistinct slice hslice r
    rw [← hdynamic slice hslice, ← (hstanding.keeps c hc).committed_eq hdistinct]
    intro hne
    obtain ⟨grant, hgrant, hgranted⟩ := hcovered.granted slice.name r hne
    rw [Option.or_none] at hgrant
    exact ⟨grant, hgrant, hgranted⟩

/-! ## A report that leaves something -/

/-- A start entry that asks for quotas; it may leave the memory quota out. -/
def quotaStart (name : String) (caps : Nat) (ram : Option Nat) : Element :=
  writtenElement "start".toList
    ([("name", escape name), ("caps", escape (toString caps))].map InitConfig.written)
    (ram.toList.map fun n => .child (InitConfig.ramResource n))

def quotaRoot (quotas : List (String × Nat × Option Nat)) : Element :=
  writtenElement "config".toList []
    (quotas.map fun (name, caps, ram) => .child (quotaStart name caps ram))

theorem obeys_quotaRoot (quotas : List (String × Nat × Option Nat)) :
    (Piece.child (quotaRoot quotas)).Obeys Tag.Settled := by
  refine InitConfig.obeys_piece (by decide) (by decide) (by simp) ?_
  refine piecesObey_iff.mpr fun p hp => ?_
  obtain ⟨q, _, rfl⟩ := List.mem_map.mp hp
  refine InitConfig.obeys_piece (by decide) (by decide) ?_ ?_
  · rw [List.forall_mem_map]
    refine List.forall_mem_cons.mpr ⟨InitConfig.written_escape (by decide) (by decide) _, ?_⟩
    exact List.forall_mem_singleton.mpr (InitConfig.written_escape (by decide) (by decide) _)
  · refine piecesObey_iff.mpr fun p hp => ?_
    obtain ⟨n, _, rfl⟩ := List.mem_map.mp hp
    exact InitConfig.obeys_ramResource n

/-- The configuration that asks for these quotas. -/
def quotaConfig (quotas : List (String × Nat × Option Nat)) : InitConfig where
  text := (quotaRoot quotas).source
  root := quotaRoot quotas
  parse_text := by
    have hobeys := obeys_quotaRoot quotas
    rw [Piece.Obeys] at hobeys
    exact parse_render hobeys.2 hobeys.1

/-- The slice `batch` receives what `web` leaves. -/
def batchSettings : Settings := { remaining := some ⟨["init", "batch"]⟩, margin := ⟨1, 16⟩ }

def batchConfig : InitConfig := quotaConfig [("batch", 3, some 32), ("web", 7, some 64)]

def batchStarted : List Call := [.updateConfig batchConfig.text]

def batchCalls : List Call := [.updateConfig batchConfig.text, availReport 20 128]

theorem config_batch : (after batchSettings batchCalls).config = some batchConfig := by
  rw [config_after, batchCalls, List.filterMap_cons_some (accepted?_own_text batchConfig)]
  rfl

theorem config_batchStarted : (after batchSettings batchStarted).config = some batchConfig := by
  rw [config_after, batchStarted, List.filterMap_cons_some (accepted?_own_text batchConfig)]
  rfl

theorem named_batch : InitConfig.Named batchConfig.root := by
  have hall : batchConfig.root.starts.all (·.hasAttribute "name") = true := by decide +kernel
  exact List.all_eq_true.mp hall

theorem distinct_batch : InitConfig.Distinct batchConfig.root := by
  have hnames : batchConfig.root.starts.map Element.startName = ["batch", "web"] := by
    decide +kernel
  rw [InitConfig.Distinct, hnames]
  decide

theorem batch_quota_covered :
    let s := after batchSettings batchCalls
    ∃ slice ∈ s.registry, slice.name = "batch" ∧ slice.dynamic = ⟨12, 48⟩ ∧
      s.reallocator.stale = ⟨false, false⟩ ∧
      ∀ r, ∃ grant, (new batchSettings).lastGrant? r batchCalls = some grant ∧
        grant.quota = slice.dynamic.get r ∧
        slice.dynamic.get r + batchSettings.margin.get r +
          InitConfig.asked batchConfig.root slice.name r ≤ grant.avail r := by
  intro s
  have hdynamic : (s.registry.find? "batch").map Slice.dynamic = some ⟨12, 48⟩ := by
    simp only [s, batchCalls, after_started]
    decide +kernel
  have hstale : s.reallocator.stale = ⟨false, false⟩ := by
    simp only [s, batchCalls, after_started]
    decide +kernel
  obtain ⟨slice, hslice, hquotas⟩ := Option.map_eq_some_iff.mp hdynamic
  refine ⟨slice, Registry.mem_of_find? hslice, Registry.name_of_find? hslice, hquotas, hstale, ?_⟩
  intro r
  have hne : slice.dynamic.get r ≠ 0 := by
    rw [hquotas]
    cases r <;> decide
  have hfresh : s.reallocator.stale.get r = false := by
    rw [hstale]
    cases r <;> rfl
  obtain ⟨grant, hgrant, hquota, hfits⟩ := (dynamic_quota_covered batchSettings batchCalls).2
    batchConfig config_batch distinct_batch slice (Registry.mem_of_find? hslice) r hne
  exact ⟨grant, hgrant, hquota, hfits hfresh⟩

end Supervisor

end Overseer
