import Mathlib.Data.List.Nodup
import Overseer.Proofs.Unchanged

/-!
Reports of different sessions commute.  What a report makes of the slices, of the reallocator and of
the count of regenerations is a function of these alone (`Ledger`, `ledger_handleReport`): either it
has failures, which are counted and restart their slices, or the report of the sibling has something
assigned.  Failures are charged by names and quotas are assigned by quotas, so the one does not see
what the other has changed (`reallot_absorb`), and counting in another order gives the same records
in another order (`perm_tallyAll`).
-/

namespace Overseer

open Markup

/-! ## Records in another order -/

theorem mem_labelsOf_tallyAll {ds : List Detection} {rs : List FailureRecord} {l : String} :
    l ∈ labelsOf (tallyAll ds rs) ↔ l ∈ labelsOf rs ∨ l ∈ ds.map Detection.label := by
  induction ds generalizing rs with
  | nil => simp [tallyAll]
  | cons d ds ih =>
    have hrest : tallyAll (d :: ds) rs = tallyAll ds (tally d.label d.failure rs) := rfl
    have hfirst : l ∈ labelsOf (tally d.label d.failure rs) ↔ l ∈ labelsOf rs ∨ l = d.label := by
      rw [labelsOf_tally]
      by_cases hlabel : d.label ∈ labelsOf rs
      · rw [if_pos hlabel]
        exact ⟨.inl, fun h => h.elim id fun e => e ▸ hlabel⟩
      · rw [if_neg hlabel, List.mem_append, List.mem_singleton]
    rw [hrest, ih, hfirst, List.map_cons, List.mem_cons, or_assoc]

theorem FailureRecord.eq_of_counts {r q : FailureRecord} (hlabel : r.label = q.label)
    (h : ∀ f, r.count f = q.count f) : r = q := by
  obtain ⟨label, caps, cpu, heartbeat, ram, segfault⟩ := r
  obtain ⟨_, _, _, _, _, _⟩ := q
  cases hlabel
  cases h .capsRequest
  cases h .cpuFault
  cases h .heartbeat
  cases h .ramRequest
  cases h .segFault
  rfl

theorem find?_label_of_mem {rs : List FailureRecord} (h : (labelsOf rs).Nodup) {r : FailureRecord}
    (hr : r ∈ rs) : rs.find? (·.label == r.label) = some r := by
  induction rs with
  | nil => cases hr
  | cons q rs ih =>
    obtain ⟨hnew, hrest⟩ := List.nodup_cons.mp h
    rcases List.mem_cons.mp hr with rfl | hr
    · exact List.find?_cons_of_pos (beq_self_eq_true _)
    · have hne : q.label ≠ r.label := fun e => hnew (List.mem_map.mpr ⟨r, hr, e.symm⟩)
      rw [List.find?_cons_of_neg (by simpa using hne)]
      exact ih hrest hr

/-- Records are known by their labels and counters. -/
theorem mem_of_counts {rs qs : List FailureRecord} (hrs : (labelsOf rs).Nodup)
    (hqs : (labelsOf qs).Nodup) (hlabels : ∀ l, l ∈ labelsOf rs → l ∈ labelsOf qs)
    (hcounts : ∀ l f, countOf rs l f = countOf qs l f) {r : FailureRecord} (hr : r ∈ rs) :
    r ∈ qs := by
  obtain ⟨q, hq, hlabel⟩ := List.mem_map.mp (hlabels r.label (List.mem_map_of_mem hr))
  have hsame : r = q := by
    refine FailureRecord.eq_of_counts hlabel.symm fun f => ?_
    have hcount := hcounts r.label f
    rw [countOf, find?_label_of_mem hrs hr, countOf, ← hlabel, find?_label_of_mem hqs hq] at hcount
    exact hcount
  exact hsame ▸ hq

/-- Failures counted in another order give the same records. -/
theorem perm_tallyAll {ds es : List Detection} (h : ds.Perm es) {rs : List FailureRecord}
    (hrs : (labelsOf rs).Nodup) : (tallyAll ds rs).Perm (tallyAll es rs) := by
  have hds := nodup_tallyAll ds hrs
  have hes := nodup_tallyAll es hrs
  have hlabels : ∀ l, l ∈ labelsOf (tallyAll ds rs) ↔ l ∈ labelsOf (tallyAll es rs) := by
    intro l
    rw [mem_labelsOf_tallyAll, mem_labelsOf_tallyAll, (h.map Detection.label).mem_iff]
  have hcounts : ∀ l f, countOf (tallyAll ds rs) l f = countOf (tallyAll es rs) l f := by
    intro l f
    rw [countOf_tallyAll, countOf_tallyAll, h.countP_eq]
  rw [List.perm_ext_iff_of_nodup (List.Nodup.of_map _ hds) (List.Nodup.of_map _ hes)]
  intro r
  exact ⟨mem_of_counts hds hes (fun l => (hlabels l).mp) hcounts,
    mem_of_counts hes hds (fun l => (hlabels l).mpr) fun l f => (hcounts l f).symm⟩

/-! ## Slices -/

/-- The slice after a restart for some failures; without any there is no restart. -/
def Slice.absorb (s : Slice) (ds : List Detection) : Slice :=
  { s with
    failures := tallyAll ds s.failures
    internalVersion := s.internalVersion + if ds.isEmpty then 0 else 1 }

/-- The slice charged with some failures, of which any asks for a restart. -/
def Slice.charge (s : Slice) (ds : List Detection) : Slice :=
  { s with
    failures := tallyAll ds s.failures
    restartPending := s.restartPending || !ds.isEmpty }

theorem Slice.updateInternalVersion_charge {s : Slice} (h : s.restartPending = false)
    (ds : List Detection) : (s.charge ds).updateInternalVersion = s.absorb ds := by
  cases ds with
  | nil => simp [updateInternalVersion, charge, absorb, h]
  | cons d ds => simp [updateInternalVersion, charge, absorb, h]

/-- The slices are the same, but their records may be in another order. -/
structure Slice.Matches (s t : Slice) : Prop where
  same : { s with failures := t.failures } = t
  failures : s.failures.Perm t.failures

theorem Slice.Matches.refl (s : Slice) : s.Matches s := ⟨rfl, .refl _⟩

theorem Slice.matches_absorb {s : Slice} (h : (labelsOf s.failures).Nodup)
    (ds es : List Detection) : ((s.absorb ds).absorb es).Matches ((s.absorb es).absorb ds) where
  same := by simp [absorb, Nat.add_right_comm]
  failures := by
    have hswap : (ds ++ es).Perm (es ++ ds) := List.perm_append_comm
    have happend := perm_tallyAll hswap h
    rwa [tallyAll_append, tallyAll_append] at happend

def Slice.withoutFailures (s : Slice) : Slice := { s with failures := [] }

theorem Slice.name_withoutFailures (s : Slice) : s.withoutFailures.name = s.name := rfl

theorem Slice.map_withoutFailures {reg reg' : Registry} (h : List.Forall₂ Slice.Matches reg reg') :
    reg.map Slice.withoutFailures = reg'.map Slice.withoutFailures := by
  induction h with
  | nil => rfl
  | @cons s t reg reg' hmatches _ ih =>
    have hsame : s.withoutFailures = t.withoutFailures := by
      rw [← hmatches.same]
      rfl
    rw [List.map_cons, List.map_cons, hsame, ih]

namespace Registry

theorem contains_marks (reg : Registry) (fs : List Finding) (name : String) :
    (reg.marks fs).contains name =
      !(reg.attributedTo name (fs.filterMap Finding.detection?)).isEmpty := by
  rw [marks_eq, Bool.eq_iff_iff]
  simp only [List.contains_iff_mem, List.mem_filterMap, attributedTo, Bool.not_eq_true',
    List.isEmpty_eq_false_iff_exists_mem, List.mem_filter, decide_eq_true_eq]

/-- Charging a report is charging each slice with what is attributed to it. -/
theorem chargeAll_eq_map {reg : Registry} (hnodup : reg.names.Nodup) (fs : List Finding) :
    (reg.chargeAll fs).1 =
      reg.map fun s => s.charge (reg.attributedTo s.name (fs.filterMap Finding.detection?)) := by
  let ds := fs.filterMap Finding.detection?
  let charged (s : Slice) := s.charge (reg.attributedTo s.name ds)
  have hname : ∀ s, (charged s).name = s.name := fun _ => rfl
  have hmap : names (reg.map charged) = reg.names := names_map hname
  refine ext_find? (hmap ▸ hnodup) ((names_chargeAll reg fs).trans hmap.symm) fun name => ?_
  rw [find?_map hname]
  cases hfind : reg.find? name with
  | none =>
    rw [find?_eq_none_iff, ← names_chargeAll reg fs, ← find?_eq_none_iff] at hfind
    rw [hfind]
    rfl
  | some s =>
    obtain ⟨failures, hcharged⟩ := find?_chargeAll hfind fs
    have hfailures := reg.failures_chargeAll fs name
    rw [hcharged, hfind] at hfailures
    cases hfailures
    rw [hcharged, contains_marks, ← name_of_find? hfind]
    rfl

/-- Charging failures to slices of which none is to restart, and restarting those marked. -/
theorem restarted_chargeAll {reg : Registry} (hnodup : reg.names.Nodup)
    (hidle : ∀ s ∈ reg, s.restartPending = false) (fs : List Finding) :
    (reg.chargeAll fs).1.map Slice.updateInternalVersion =
      reg.map fun s => s.absorb (reg.attributedTo s.name (fs.filterMap Finding.detection?)) := by
  rw [chargeAll_eq_map hnodup, List.map_map]
  exact List.map_congr_left fun s hs => Slice.updateInternalVersion_charge (hidle s hs) _

theorem update?_map {reg : Registry} {g : Slice → Slice} (hg : ∀ s, (g s).name = s.name)
    (name : String) (t : Slice) :
    update? (reg.map g) name (fun _ => g t) = (reg.update? name fun _ => t).map (List.map g) := by
  simp only [update?]
  induction reg with
  | nil => rfl
  | cons s reg ih =>
    rw [List.map_cons, modifyFirst, modifyFirst, hg]
    by_cases hs : (s.name == name) = true
    · rw [if_pos hs, if_pos hs]
      rfl
    · rw [if_neg hs, if_neg hs, ih, Option.map_map, Option.map_map]
      rfl

end Registry

/-! ## Assignments -/

/-- The same assignment to another slice. -/
def Reallocation.mapSlice (g : Slice → Slice) (a : Reallocation) : Reallocation :=
  { a with slice := g a.slice }

/-- What is changed of a slice is nothing that an assignment looks at. -/
structure Slice.Overlooked (g : Slice → Slice) : Prop where
  name : ∀ s, (g s).name = s.name
  dynamic : ∀ s, (g s).dynamic = s.dynamic
  assigned : ∀ s dynamic, g { s with dynamic } = { g s with dynamic }

theorem Slice.overlooked_absorb (ds : List Detection) : Overlooked (·.absorb ds) :=
  ⟨fun _ => rfl, fun _ => rfl, fun _ _ => rfl⟩

namespace Reallocator

section
variable {g : Slice → Slice} (hg : Slice.Overlooked g)
include hg

theorem assignResource_overlooked (availability : Availability) (configured : Both Nat)
    (o : Reallocation) (r : Resource) :
    assignResource availability configured (o.mapSlice g) r =
      (assignResource availability configured o r).mapSlice g := by
  have hdynamic : (o.mapSlice g).slice.dynamic = o.slice.dynamic := hg.dynamic _
  have hreallocator : (o.mapSlice g).reallocator = o.reallocator := rfl
  unfold assignResource
  dsimp only
  rw [hdynamic, hreallocator]
  by_cases hdue : o.slice.dynamic.get r = 0 ∨ o.reallocator.stale.get r = true
  · rw [if_pos hdue, if_pos hdue]
    cases softLimit (availability.tallies.get r).avail (o.reallocator.margin.get r)
      (configured.get r) with
    | none => simp only [Reallocation.mapSlice, hg.name]
    | some n =>
      simp only [Reallocation.mapSlice]
      rw [hg.assigned o.slice (o.slice.dynamic.set r n)]
  · rw [if_neg hdue, if_neg hdue]

/-- An assignment looks at no failure and no version. -/
theorem assign_overlooked (a : Reallocator) (state config : Element) (s : Slice) :
    a.assign state config (g s) = (a.assign state config s).mapSlice g := by
  cases hstale : a.stale.caps || a.stale.ram with
  | false =>
    rw [assign_of_fresh hstale, assign_of_fresh hstale]
    rfl
  | true =>
    let o : Reallocation :=
      { reallocator := a, slice := s, availability := some (.ofState state) }
    have hstart : a.assign state config (g s) = [Resource.caps, .ram].foldl
        (assignResource (.ofState state) (configuredTotals config s.name)) (o.mapSlice g) := by
      rw [assign, if_pos hstale, hg.name]
      rfl
    rw [hstart, assign, if_pos hstale]
    simp only [List.foldl_cons, List.foldl_nil, assignResource_overlooked hg, o]

end

theorem reallocator_of_not_updated {a : Reallocator} {state config : Element} {s : Slice}
    (h : (a.assign state config s).updated = false) :
    (a.assign state config s).reallocator = a := by
  refine eq_of_get (margin_assign ..) fun r => ?_
  rcases a.assign_cases state config s r with ⟨_, _, hstale⟩ | ⟨n, hsome, _⟩
  · exact hstale
  · rw [Reallocation.assigned_of_not_updated h] at hsome
    cases hsome

end Reallocator

/-! ## Ledgers -/

/-- What reports work on, besides what is written from it. -/
structure Ledger where
  registry : Registry
  reallocator : Reallocator
  regenerations : Nat

namespace Ledger

/-- Count failures and restart the slices that have any. -/
def absorb (l : Ledger) (faults : String → List Detection) : Ledger :=
  ⟨l.registry.map fun s => s.absorb (faults s.name), l.reallocator, l.regenerations + 1⟩

/-- Assign what a report of the sibling leaves; the configuration is written anew if there is
something to assign, or nobody to receive it. -/
def reallot (l : Ledger) (elastic : Elastic) (state root : Element) : Ledger :=
  match l.registry.find? elastic.slice with
  | none => if l.registry = [] then l else { l with regenerations := l.regenerations + 1 }
  | some slice =>
    let a := l.reallocator.assign state root slice
    if a.updated then
      ⟨(l.registry.update? elastic.slice fun _ => a.slice).getD l.registry, a.reallocator,
        l.regenerations + 1⟩
    else l

theorem reallot_missing {l : Ledger} {elastic : Elastic}
    (h : l.registry.find? elastic.slice = none) (state root : Element) :
    l.reallot elastic state root =
      if l.registry = [] then l else { l with regenerations := l.regenerations + 1 } := by
  simp only [reallot, h]

theorem reallot_eq {l : Ledger} {elastic : Elastic} {slice : Slice}
    (h : l.registry.find? elastic.slice = some slice) (state root : Element) :
    let a := l.reallocator.assign state root slice
    l.reallot elastic state root =
      if a.updated then
        ⟨(l.registry.update? elastic.slice fun _ => a.slice).getD l.registry, a.reallocator,
          l.regenerations + 1⟩
      else l := by
  simp only [reallot, h]

/-- The ledgers are the same, but records may be in another order. -/
structure Matches (l m : Ledger) : Prop where
  slices : List.Forall₂ Slice.Matches l.registry m.registry
  reallocator : l.reallocator = m.reallocator
  regenerations : l.regenerations = m.regenerations

theorem Matches.of_eq {l m : Ledger} (h : l = m) : l.Matches m := by
  subst h
  exact ⟨List.forall₂_same.mpr fun s _ => .refl s, rfl, rfl⟩

theorem matches_absorb {l : Ledger} (h : ∀ s ∈ l.registry, (labelsOf s.failures).Nodup)
    (f g : String → List Detection) : ((l.absorb f).absorb g).Matches ((l.absorb g).absorb f) := by
  refine ⟨?_, rfl, rfl⟩
  simp only [absorb, List.map_map]
  rw [List.forall₂_map_left_iff, List.forall₂_map_right_iff, List.forall₂_same]
  exact fun s hs => Slice.matches_absorb (h s hs) (f s.name) (g s.name)

/-- Failures and assignments do not see each other. -/
theorem reallot_absorb (l : Ledger) (f : String → List Detection) (elastic : Elastic)
    (state root : Element) :
    (l.absorb f).reallot elastic state root = (l.reallot elastic state root).absorb f := by
  let g (s : Slice) := s.absorb (f s.name)
  have hg : ∀ s, (g s).name = s.name := fun _ => rfl
  have habsorb : ∀ m : Ledger,
      m.absorb f = ⟨m.registry.map g, m.reallocator, m.regenerations + 1⟩ := fun _ => rfl
  simp only [reallot, habsorb, Registry.find?_map hg]
  cases hfind : l.registry.find? elastic.slice with
  | none =>
    by_cases hnil : l.registry = []
    · simp [hnil]
    · simp [hnil]
  | some slice =>
    let a := l.reallocator.assign state root slice
    let absorbed (s : Slice) := s.absorb (f slice.name)
    have hassign : l.reallocator.assign state root (g slice) = a.mapSlice absorbed :=
      l.reallocator.assign_overlooked (Slice.overlooked_absorb _) state root slice
    have hslice : (a.mapSlice absorbed).slice = g a.slice := by
      have hname : a.slice.name = slice.name :=
        (concerns_assign l.reallocator state root slice).name
      simp only [g, hname]
      rfl
    have hupdated : (a.mapSlice absorbed).updated = a.updated := rfl
    simp only [Option.map_some, hassign, hupdated, hslice, Registry.update?_map hg,
      Option.getD_map]
    cases a.updated <;> rfl

end Ledger

namespace Supervisor

def ledger (s : Supervisor) : Ledger := ⟨s.registry, s.reallocator, s.regenerations⟩

/-! ## Turns -/

/-- The failures that a report charges to the slice under a name. -/
def faults (s : Supervisor) (state : Element) (label : Label) (name : String) : List Detection :=
  s.registry.attributedTo name (detections state s.threshold label.scope)

/-- What a report makes of a ledger. -/
def turn (s : Supervisor) (root : Element) (state : Element) (label : Label) (l : Ledger) :
    Ledger :=
  if s.marks (.handleReport state label) = [] then
    match s.elastic with
    | none => l
    | some elastic =>
      if label = elastic.sibling ∧ ¬ state.children.length ≤ 1 then l.reallot elastic state root
      else l
  else l.absorb (s.faults state label)

/-- A turn depends on nothing that a report changes. -/
theorem turn_congr {s t : Supervisor} (hnames : s.registry.names = t.registry.names)
    (hthreshold : s.threshold = t.threshold) (helastic : s.elastic = t.elastic) :
    s.turn = t.turn := by
  have hattributed := Registry.attributed?_congr hnames
  have hmarks : ∀ call, s.marks call = t.marks call := by
    intro call
    cases call with
    | updateConfig text => rfl
    | handleReport state label =>
      simp only [marks, Registry.marks_eq, hattributed, hthreshold]
  have hfaults : s.faults = t.faults := by
    funext state label name
    rw [faults, faults, Registry.attributedTo, hattributed, hthreshold, ← Registry.attributedTo]
  funext root state label l
  rw [turn, turn, hmarks, hfaults, helastic]

variable {s : Supervisor} {texts : List String} {c : InitConfig}

theorem ledger_regenerate (hs : s.Equipped) (hc : s.config = some c)
    (hmirrors : InitConfig.Mirrors c.root s.registry) (hnamed : InitConfig.Named c.root) :
    s.regenerate.1.ledger =
      ⟨s.registry.map Slice.updateInternalVersion, s.reallocator, s.regenerations + 1⟩ := by
  obtain ⟨reporter, _, _, hstate, _⟩ := regenerate_eq hc hs
  have hupdate := InitConfig.update_of_mirrors hmirrors hnamed s.reallocator
  rw [hstate, ledger, renewed]
  simp only [hupdate]

section
variable (h : s.Standing texts) (hc : s.config = some c) (hnamed : InitConfig.Named c.root)
  (hdistinct : InitConfig.Distinct c.root)
include h hc hnamed hdistinct

theorem ledger_reallocate (hne : s.registry ≠ []) (elastic : Elastic) (state : Element) :
    (s.reallocate state elastic).1.ledger = s.ledger.reallot elastic state c.root := by
  have hkeeps := h.keeps c hc
  have hmirrors := hkeeps.mirrors hdistinct
  cases hslice : s.registry.find? elastic.slice with
  | none =>
    rw [reallocate_missing hslice, Ledger.reallot_missing (l := s.ledger) hslice,
      ledger_regenerate h.equipped hc hmirrors hnamed,
      Registry.map_updateInternalVersion_of_idle hkeeps.idle]
    exact (if_neg hne).symm
  | some slice =>
    let a := s.reallocator.assign state c.root slice
    have hconcerns : a.Concerns slice := concerns_assign s.reallocator state c.root slice
    have hprepared := Registry.prepared_replace hslice hconcerns
    have hledger : s.ledger.reallocator.assign state c.root slice = a := rfl
    rw [reallocate_eq hc hslice, Ledger.reallot_eq (l := s.ledger) hslice, hledger]
    cases hupdated : a.updated with
    | true =>
      let t := s.reassigned elastic a
      have ht : t.Equipped := h.equipped.reassigned elastic a
      have hidle : ∀ u ∈ t.registry, u.restartPending = false := by
        intro u hu
        obtain ⟨old, hold, _, _, hsame, _⟩ := hprepared.exists_of_mem hkeeps.nodup hu
        rw [hsame, hkeeps.idle old hold]
        rfl
      have hregenerated := ledger_regenerate (s := t) ht hc (hmirrors.prepared hprepared) hnamed
      rwa [Registry.map_updateInternalVersion_of_idle hidle] at hregenerated
    | false =>
      have hunchanged : a.reallocator = s.reallocator :=
        Reallocator.reallocator_of_not_updated hupdated
      have hsame : s.reassigned elastic a = s := by
        rw [reassigned, hunchanged, hconcerns.unassigned hupdated, Registry.replace_self hslice]
      exact congrArg ledger hsame

/-- Without failures to charge, the report of the sibling may have something assigned. -/
theorem ledger_react {state : Element} (hlong : ¬ state.children.length ≤ 1) {label : Label}
    (hmarks : s.marks (.handleReport state label) = []) :
    (s.react state label).1.ledger = s.turn c.root state label s.ledger := by
  have hidle : s.registry.restartRequired = false := by
    rw [Registry.restartRequired, List.any_eq_false]
    exact fun u hu => by simp [(h.keeps c hc).idle u hu]
  rw [react, if_neg (by simp [hidle]), turn, if_pos hmarks]
  cases s.elastic with
  | none => rfl
  | some elastic =>
    by_cases hlabel : label = elastic.sibling
    · by_cases hnil : s.registry = []
      · have hreallot : s.ledger.reallot elastic state c.root = s.ledger := by
          have hregistry : s.ledger.registry = [] := hnil
          rw [Ledger.reallot, hregistry]
          rfl
        simp [hlabel, hnil, hlong, hreallot]
      · simp only [hlabel, hnil, hlong, not_false_eq_true, ne_eq, and_self, if_true]
        exact ledger_reallocate h hc hnamed hdistinct hnil elastic state
    · simp [hlabel]

/-- Failures that are charged restart their slices. -/
theorem ledger_react_charged {state : Element} {label : Label}
    (hmarks : s.registry.marks (findingsOf state s.threshold label.scope) ≠ []) :
    ((s.charged state label).react state label).1.ledger =
      s.ledger.absorb (s.faults state label) := by
  let fs := findingsOf state s.threshold label.scope
  let charged := s.charged state label
  have hkeeps := h.keeps c hc
  have hrequired : charged.registry.restartRequired = true := by
    rw [← Bool.not_eq_false]
    exact fun hidle => hmarks (Registry.marks_of_not_restartRequired hidle)
  have hmirrors := (hkeeps.mirrors hdistinct).prepared (Registry.prepared_chargeAll s.registry fs)
  have hrestarted := Registry.restarted_chargeAll hkeeps.nodup hkeeps.idle fs
  have hledger := ledger_regenerate (s := charged) (h.equipped.charged state label) hc hmirrors
    hnamed
  rw [react, if_pos hrequired, hledger]
  simp only [charged, Supervisor.charged, fs] at hrestarted ⊢
  rw [hrestarted, detections_findingsOf]
  rfl

/-- A report makes of the ledger what its turn says. -/
theorem ledger_handleReport (state : Element) (label : Label) :
    (s.handleReport state label).1.ledger = s.turn c.root state label s.ledger := by
  by_cases hfew : state.children.length ≤ 1
  · have hmarks : s.marks (.handleReport state label) = [] := by rw [marks, if_pos hfew]
    rw [handleReport, if_pos hfew, turn, if_pos hmarks]
    cases s.elastic with
    | none => rfl
    | some elastic => simp [hfew]
  have hmarks : s.marks (.handleReport state label) =
      s.registry.marks (findingsOf state s.threshold label.scope) := by
    rw [marks, if_neg hfew]
  have hreported : (s.handleReport state label).1.ledger =
      ((s.charged state label).react state label).1.ledger := by
    rw [handleReport_eq hfew]
    rfl
  rw [hreported]
  by_cases hnone : s.marks (.handleReport state label) = []
  · rw [charged_of_marks_nil (hmarks.symm.trans hnone)]
    exact ledger_react h hc hnamed hdistinct hfew hnone
  · rw [turn, if_neg hnone]
    exact ledger_react_charged h hc hnamed hdistinct (hmarks ▸ hnone)

end

/-! ## Two reports -/

theorem turn_cases (s : Supervisor) (root state : Element) (label : Label) :
    s.turn root state label = id ∨
      (∃ faults, s.turn root state label = fun l => l.absorb faults) ∨
      ∃ elastic, s.elastic = some elastic ∧ label = elastic.sibling ∧
        s.turn root state label = fun l => l.reallot elastic state root := by
  by_cases hmarks : s.marks (.handleReport state label) = []
  · cases helastic : s.elastic with
    | none =>
      refine .inl (funext fun l => ?_)
      simp only [turn, if_pos hmarks, helastic, id]
    | some elastic =>
      by_cases hlabel : label = elastic.sibling ∧ ¬ state.children.length ≤ 1
      · refine .inr (.inr ⟨elastic, rfl, hlabel.1, funext fun l => ?_⟩)
        simp only [turn, if_pos hmarks, helastic, if_pos hlabel]
      · refine .inl (funext fun l => ?_)
        simp only [turn, if_pos hmarks, helastic, if_neg hlabel, id]
  · exact .inr (.inl ⟨_, funext fun l => if_neg hmarks⟩)

/-- Turns commute unless both are of the sibling. -/
theorem turn_comm {l : Ledger} (hlabels : ∀ slice ∈ l.registry, (labelsOf slice.failures).Nodup)
    {first second : Element} {label label' : Label}
    (hsibling : ∀ elastic, s.elastic = some elastic → label = elastic.sibling →
      label' ≠ elastic.sibling) (root : Element) :
    (s.turn root second label' (s.turn root first label l)).Matches
      (s.turn root first label (s.turn root second label' l)) := by
  rcases s.turn_cases root first label with
    hturn | ⟨f, hturn⟩ | ⟨elastic, helastic, hlabel, hturn⟩
  · rw [hturn]
    exact .of_eq rfl
  · rcases s.turn_cases root second label' with
      hturn' | ⟨g, hturn'⟩ | ⟨elastic, _, _, hturn'⟩
    · rw [hturn']
      exact .of_eq rfl
    · rw [hturn, hturn']
      exact Ledger.matches_absorb hlabels f g
    · rw [hturn, hturn']
      exact .of_eq (Ledger.reallot_absorb l f elastic second root)
  · rcases s.turn_cases root second label' with
      hturn' | ⟨g, hturn'⟩ | ⟨other, hother, hlabel', _⟩
    · rw [hturn']
      exact .of_eq rfl
    · rw [hturn, hturn']
      exact .of_eq (Ledger.reallot_absorb l g elastic first root).symm
    · rw [helastic, Option.some.injEq] at hother
      exact absurd (hother ▸ hlabel') (hsibling elastic helastic hlabel)

theorem names_turn (s : Supervisor) (root state : Element) (label : Label) (l : Ledger) :
    (s.turn root state label l).registry.names = l.registry.names := by
  rcases s.turn_cases root state label with hturn | ⟨f, hturn⟩ | ⟨elastic, _, _, hturn⟩
  · rw [hturn, id]
  · rw [hturn]
    exact Registry.names_map fun _ => rfl
  · rw [hturn]
    cases hslice : l.registry.find? elastic.slice with
    | none =>
      simp only [Ledger.reallot_missing hslice]
      split <;> rfl
    | some slice =>
      have hname := (concerns_assign l.reallocator state root slice).name
      simp only [Ledger.reallot_eq hslice]
      split
      · exact Registry.names_replace (hname.trans (Registry.name_of_find? hslice))
      · rfl

theorem draft_withoutFailures (root : Element) (reg : Registry) :
    InitConfig.draft root (reg.map Slice.withoutFailures) = InitConfig.draft root reg := by
  have hentry : InitConfig.entry (reg.map Slice.withoutFailures) = InitConfig.entry reg := by
    funext e
    rw [InitConfig.entry, InitConfig.entry, Registry.find?_map Slice.name_withoutFailures]
    cases reg.find? e.startName <;> rfl
  rw [InitConfig.draft, InitConfig.draft, hentry]

theorem totals_withoutFailures (reg : Registry) :
    Registry.totals (reg.map Slice.withoutFailures) = reg.totals := by
  have hassigned : ∀ r, (reg.map Slice.withoutFailures).map (fun s => s.assigned r) =
      reg.map fun s => s.assigned r := by
    intro r
    rw [List.map_map]
    rfl
  simp only [Registry.totals, hassigned]

section
variable {reg reg' : Registry} (h : List.Forall₂ Slice.Matches reg reg')
include h

theorem totals_of_matches : reg.totals = reg'.totals := by
  rw [← totals_withoutFailures, Slice.map_withoutFailures h, totals_withoutFailures]

theorem draft_of_matches (root : Element) :
    InitConfig.draft root reg = InitConfig.draft root reg' := by
  rw [← draft_withoutFailures, Slice.map_withoutFailures h, draft_withoutFailures]

theorem publishedText_of_matches (c : InitConfig) : publishedText c reg = publishedText c reg' := by
  have hleft := InitConfig.rendering_draft c.root reg
  rw [draft_of_matches h] at hleft
  exact Except.ok.inj (hleft.symm.trans (InitConfig.rendering_draft c.root reg'))

end

theorem Standing.latest_congr {s t : Supervisor} {texts texts' : List String}
    (hs : s.Standing texts) (ht : t.Standing texts') (hconfig : s.config = t.config)
    (h : List.Forall₂ Slice.Matches s.registry t.registry) :
    texts.getLast? = texts'.getLast? := by
  cases hc : s.config with
  | none => rw [(hs.untouched hc).2, (ht.untouched (hconfig.symm.trans hc)).2]
  | some c =>
    rw [hs.latest c hc, ht.latest c (hconfig.symm.trans hc), publishedText_of_matches h]

/-- The supervisors have the same slices in the same order and what is summed up and counted of
them, but the records of a slice may be in another order. -/
structure SameBooks (s t : Supervisor) : Prop where
  slices : List.Forall₂ Slice.Matches s.registry t.registry
  reallocator : s.reallocator = t.reallocator
  totals : s.totals = t.totals
  regenerations : s.regenerations = t.regenerations

theorem labelsUnique_after (settings : Settings) (calls : List Call) :
    (after settings calls).LabelsUnique :=
  run_invariant LabelsUnique.answer (standing_new settings) (fun _ _ h => nomatch h) calls

theorem labels_nodup_after (settings : Settings) (calls : List Call) :
    ∀ slice ∈ (after settings calls).registry, (labelsOf slice.failures).Nodup := by
  intro slice hslice
  obtain ⟨_, _, hstanding, _⟩ := run_new settings calls
  refine labelsUnique_after settings calls slice.name _ ?_
  rw [Registry.find?_of_mem hstanding.nodup hslice]
  rfl

/-- Two reports one after the other are two turns of the first supervisor. -/
theorem ledger_two_reports (settings : Settings) (calls : List Call) {c : InitConfig}
    (hc : (after settings calls).config = some c) (hnamed : InitConfig.Named c.root)
    (hdistinct : InitConfig.Distinct c.root) (first second : Element) (label label' : Label) :
    let s := after settings calls
    let t := after settings (calls ++ [.handleReport first label, .handleReport second label'])
    t.config = some c ∧
      t.ledger = s.turn c.root second label' (s.turn c.root first label s.ledger) := by
  intro s t
  let mid := after settings (calls ++ [.handleReport first label])
  have hmid : mid = (s.handleReport first label).1 := after_snoc settings calls _
  have ht : t = (mid.handleReport second label').1 := by
    have hsplit : calls ++ [Call.handleReport first label, .handleReport second label'] =
        (calls ++ [.handleReport first label]) ++ [.handleReport second label'] := by simp
    simp only [t, hsplit, after_snoc, mid]
    rfl
  obtain ⟨_, _, hstanding, _⟩ := run_new settings calls
  obtain ⟨_, _, hstanding', _⟩ := run_new settings (calls ++ [.handleReport first label])
  obtain ⟨_, _, _, hconfig⟩ := answer_standing hstanding (.handleReport first label)
  obtain ⟨_, _, _, hconfig'⟩ := answer_standing hstanding' (.handleReport second label')
  have hcmid : mid.config = some c := by
    rw [hmid]
    exact hconfig.trans hc
  have hledger := ledger_handleReport hstanding hc hnamed hdistinct first label
  have hturn : mid.turn = s.turn := by
    refine turn_congr ?_ ?_ ?_
    · have hregistry := congrArg Ledger.registry hledger
      rw [hmid]
      exact (congrArg Registry.names hregistry).trans (names_turn ..)
    · rw [hmid]
      exact answer_threshold hstanding (.handleReport first label)
    · exact (elastic_after ..).trans (elastic_after ..).symm
  refine ⟨?_, ?_⟩
  · rw [ht]
    exact hconfig'.trans hcmid
  · rw [ht, ledger_handleReport hstanding' hcmid hnamed hdistinct, ← hledger, ← hmid]
    exact congrFun (congrFun (congrFun (congrFun hturn c.root) second) label') mid.ledger

/-- Two reports have the same outcome in either order, unless both are the sibling's. -/
theorem reports_commute (settings : Settings) (calls : List Call) (c : InitConfig)
    (hc : (after settings calls).config = some c) (hnamed : InitConfig.Named c.root)
    (hdistinct : InitConfig.Distinct c.root) (first second : Element) (label label' : Label)
    (hsibling : settings.siblingLabel = some label → settings.siblingLabel ≠ some label') :
    let there := calls ++ [.handleReport first label, .handleReport second label']
    let back := calls ++ [.handleReport second label', .handleReport first label]
    (after settings there).SameBooks (after settings back) ∧
      (storeAfter settings there).latest? configReport =
        (storeAfter settings back).latest? configReport := by
  intro there back
  obtain ⟨texts, htells, hstanding, _⟩ := run_new settings there
  obtain ⟨texts', htells', hstanding', _⟩ := run_new settings back
  obtain ⟨hthere, hledger⟩ :=
    ledger_two_reports settings calls hc hnamed hdistinct first second label label'
  obtain ⟨hback, hledger'⟩ :=
    ledger_two_reports settings calls hc hnamed hdistinct second first label' label
  have hother : ∀ elastic, (after settings calls).elastic = some elastic →
      label = elastic.sibling → label' ≠ elastic.sibling := by
    intro elastic helastic hlabel hlabel'
    have hsettings : settings.siblingLabel = some elastic.sibling := by
      rw [elastic_after, new, Option.map_eq_some_iff] at helastic
      obtain ⟨l, hl, rfl⟩ := helastic
      rw [Settings.siblingLabel, hl]
      rfl
    exact hsibling (hlabel ▸ hsettings) (hlabel' ▸ hsettings)
  have hmatches : (after settings there).ledger.Matches (after settings back).ledger := by
    rw [hledger, hledger']
    exact turn_comm (labels_nodup_after settings calls) hother c.root
  refine ⟨⟨hmatches.slices, hmatches.reallocator, ?_, hmatches.regenerations⟩, ?_⟩
  · rw [hstanding.totals c hthere, hstanding'.totals c hback]
    exact totals_of_matches hmatches.slices
  · rw [latest?_storeAfter htells, latest?_storeAfter htells']
    exact hstanding.latest_congr hstanding' (hthere.trans hback.symm) hmatches.slices

/-- Failures inside `web`, and the report that has something assigned to `batch`. -/
theorem batch_reports_commute :
    let fault : Call := .handleReport troubledState ⟨["init", "web", "state"]⟩
    (after batchSettings batchStarted).config = some batchConfig ∧
      InitConfig.Named batchConfig.root ∧ InitConfig.Distinct batchConfig.root ∧
      batchSettings.siblingLabel = some ⟨["init", "state"]⟩ ∧
      (after batchSettings (batchStarted ++ [fault, availReport 20 128])).registry.map
        (fun s => (s.name, s.internalVersion, s.dynamic)) =
          [("batch", 0, ⟨12, 48⟩), ("web", 1, ⟨0, 0⟩)] ∧
      (after batchSettings (batchStarted ++ [fault, availReport 20 128])).SameBooks
        (after batchSettings (batchStarted ++ [availReport 20 128, fault])) := by
  intro fault
  have hslices : (after batchSettings (batchStarted ++ [fault, availReport 20 128])).registry.map
      (fun s => (s.name, s.internalVersion, s.dynamic)) =
        [("batch", 0, ⟨12, 48⟩), ("web", 1, ⟨0, 0⟩)] := by
    simp only [batchStarted, List.singleton_append, after_started]
    decide +kernel
  have hother : batchSettings.siblingLabel = some ⟨["init", "web", "state"]⟩ →
      batchSettings.siblingLabel ≠ some ⟨["init", "state"]⟩ := by
    decide
  exact ⟨config_batchStarted, named_batch, distinct_batch, rfl, hslices,
    (reports_commute batchSettings batchStarted batchConfig config_batchStarted named_batch
      distinct_batch troubledState _ _ _ hother).1⟩

end Supervisor

end Overseer
