import Overseer.Proofs.Books
import Overseer.Proofs.Sums

/-!
What the other slices are committed to.  A resource that is not stale after an update has no quota
that grew (`quota_update`), so less or the same is committed; what a registry commits is what the
start entries of its configuration ask for (`Keeps.committed_eq`).
-/

namespace Overseer

open Markup

namespace Registry

/-- The configured quota of the slice under a name, zero if there is none. -/
def quota (reg : Registry) (name : String) (r : Resource) : Nat :=
  ((reg.find? name).map fun s => s.configured.get r).getD 0

/-- What all slices but one are configured to receive, exactly. -/
def committed (reg : Registry) (except : String) (r : Resource) : Nat :=
  ((reg.names.filter (· != except)).map fun name => reg.quota name r).sum

variable {reg other : Registry} {name : String} {r : Resource}

theorem quota_of_find? {s : Slice} (h : reg.find? name = some s) :
    reg.quota name r = s.configured.get r := by
  rw [quota, h]
  rfl

theorem quota_eq_getD (reg : Registry) (name : String) (r : Resource) :
    reg.quota name r = ((reg.find? name).getD { name }).configured.get r := by
  rw [quota]
  cases reg.find? name with
  | none => cases r <;> rfl
  | some s => rfl

theorem mem_names_of_quota (h : reg.quota name r ≠ 0) : name ∈ reg.names := by
  refine Decidable.not_not.mp fun hnot => h ?_
  rw [quota, find?_eq_none_iff.mpr hnot]
  rfl

theorem committed_le_of_quota (hnodup : other.names.Nodup)
    (h : ∀ name, other.quota name r ≤ reg.quota name r) (except : String) :
    other.committed except r ≤ reg.committed except r := by
  refine sum_map_le_of_key id (hnodup.filter _) fun name hname hpos => ?_
  have hle := h name
  have hgrown : reg.quota name r ≠ 0 := fun hzero => hpos (Nat.le_zero.mp (hzero ▸ hle))
  refine ⟨name, List.mem_filter.mpr ⟨mem_names_of_quota hgrown, ?_⟩, rfl, hle⟩
  exact (List.mem_filter.mp hname).2

end Registry

namespace InitConfig

/-! ## Quotas that an update leaves alone -/

theorem Books.reallocator_enter (b : Books) (start : Element) :
    (b.enter start).1.reallocator.margin = b.reallocator.margin ∧
      ∀ r, (b.enter start).1.reallocator.stale.get r =
        (b.reallocator.stale.get r ||
          b.registry.quota start.startName r != start.quotas.get r) := by
  obtain ⟨s, hs, hold, _⟩ := b.registry_enter start
  rw [Books.enter]
  simp only [hs, Reallocator.observe, true_and]
  intro r
  rw [Both.get_of, Registry.quota_eq_getD, ← hold]

theorem Books.quota_enter {b : Books} {start : Element} {r : Resource}
    (h : (b.enter start).1.reallocator.stale.get r = false) :
    b.reallocator.stale.get r = false ∧
      ∀ name, (b.enter start).1.registry.quota name r = b.registry.quota name r := by
  rw [(b.reallocator_enter start).2 r, Bool.or_eq_false_iff] at h
  obtain ⟨hstale, hquota⟩ := h
  have hsame : b.registry.quota start.startName r = start.quotas.get r := by simpa using hquota
  refine ⟨hstale, fun name => ?_⟩
  by_cases hname : start.startName = name
  · subst hname
    rw [Registry.quota, b.find?_enter, if_pos rfl, hsame]
    rfl
  · rw [Registry.quota, b.find?_enter, if_neg hname, Registry.quota]

theorem Books.quota_enterAll {b : Books} {starts : List Element} {r : Resource}
    (h : (enterAll b starts).1.reallocator.stale.get r = false) :
    b.reallocator.stale.get r = false ∧
      ∀ name, (enterAll b starts).1.registry.quota name r = b.registry.quota name r := by
  induction starts generalizing b with
  | nil => exact ⟨h, fun _ => rfl⟩
  | cons start starts ih =>
    obtain ⟨hstale, hrest⟩ := ih (b := (b.enter start).1) h
    obtain ⟨hfirst, hquota⟩ := quota_enter hstale
    exact ⟨hfirst, fun name => (hrest name).trans (hquota name)⟩

/-- If a resource is not stale after an update, it was not before, and no quota of it has grown. -/
theorem Books.quota_update {b : Books} {root : Element} {r : Resource}
    (h : (b.update root).1.reallocator.stale.get r = false) :
    b.reallocator.stale.get r = false ∧
      ∀ name, (b.update root).1.registry.quota name r ≤ b.registry.quota name r := by
  obtain ⟨hstale, hquota⟩ := quota_enterAll
    (b := { b with registry := b.registry.filter (Registry.isStarted root) }) h
  refine ⟨hstale, fun name => ?_⟩
  have hupdate := hquota name
  rw [Registry.quota, Registry.quota, Registry.find?_filter fun _ _ => isStarted_congr root]
    at hupdate
  rw [Registry.quota, Registry.quota]
  refine Nat.le_trans (Nat.le_of_eq hupdate) ?_
  cases b.registry.find? name with
  | none => exact Nat.le_refl _
  | some s => by_cases hs : Registry.isStarted root s = true <;> simp [Option.filter, hs]

theorem Books.margin_enterAll (b : Books) (starts : List Element) :
    (enterAll b starts).1.reallocator.margin = b.reallocator.margin := by
  induction starts generalizing b with
  | nil => rfl
  | cons start starts ih => exact (ih _).trans (b.reallocator_enter start).1

theorem Books.margin_update (b : Books) (root : Element) :
    (b.update root).1.reallocator.margin = b.reallocator.margin := margin_enterAll _ _

/-! ## What a configuration asks for -/

/-- What all start entries but those of one name ask for, exactly. -/
def asked (root : Element) (except : String) (r : Resource) : Nat :=
  ((root.starts.filter (·.startName != except)).map fun start => start.quotas.get r).sum

theorem configuredTotals_get (root : Element) (except : String) (r : Resource) :
    (configuredTotals root except).get r = Amount.clamp (asked root except r) := by
  rw [configuredTotals, Both.get_of, Amount.sum_eq_clamp, asked]

theorem mem_of_lastStart? {starts : List Element} {name : String} {start : Element}
    (h : lastStart? starts name = some start) : start ∈ starts ∧ start.startName = name := by
  have hmem := List.mem_of_getLast? h
  simpa using List.mem_filter.mp hmem

theorem Keeps.quota_eq {root : Element} {reg : Registry} (h : Keeps root reg) {name : String}
    (hname : name ∈ reg.names) : ∃ start, lastStart? root.starts name = some start ∧
      ∀ r, reg.quota name r = start.quotas.get r := by
  obtain ⟨s, hs⟩ := Registry.exists_find? hname
  obtain ⟨start, hlast, hconfigured, _⟩ := h.entered s (Registry.mem_of_find? hs)
  rw [Registry.name_of_find? hs] at hlast
  exact ⟨start, hlast, fun r => by rw [Registry.quota_of_find? hs, hconfigured]⟩

/-- A registry commits no more than the configuration asks for, which may have several entries of
a name. -/
theorem Keeps.committed_le {root : Element} {reg : Registry} (h : Keeps root reg)
    (except : String) (r : Resource) : reg.committed except r ≤ asked root except r := by
  refine sum_map_le_of_key Element.startName (h.nodup.filter _) fun name hname _ => ?_
  obtain ⟨hmem, hother⟩ := List.mem_filter.mp hname
  obtain ⟨start, hlast, hquota⟩ := h.quota_eq hmem
  obtain ⟨hstart, hstartName⟩ := mem_of_lastStart? hlast
  refine ⟨start, List.mem_filter.mpr ⟨hstart, ?_⟩, hstartName, Nat.le_of_eq (hquota r)⟩
  rw [hstartName]
  exact hother

/-- The start entries have different names; a missing name counts as the empty one. -/
def Distinct (root : Element) : Prop := (root.starts.map Element.startName).Nodup

theorem filter_startName_of_distinct {starts : List Element}
    (h : (starts.map Element.startName).Nodup) {start : Element} (hstart : start ∈ starts) :
    starts.filter (·.startName == start.startName) = [start] := by
  induction starts with
  | nil => cases hstart
  | cons e starts ih =>
    obtain ⟨hnew, hrest⟩ := List.nodup_cons.mp h
    rcases List.mem_cons.mp hstart with rfl | hmem
    · have hothers : starts.filter (·.startName == start.startName) = [] := by
        rw [List.filter_eq_nil_iff]
        intro other hother hname
        exact hnew (beq_iff_eq.mp hname ▸ List.mem_map_of_mem hother)
      rw [List.filter_cons_of_pos (by simp), hothers]
    · have hne : e.startName ≠ start.startName := fun heq =>
        hnew (heq ▸ List.mem_map_of_mem hmem)
      rw [List.filter_cons_of_neg (by simpa using hne)]
      exact ih hrest hmem

theorem lastStart?_of_distinct {root : Element} (hdistinct : Distinct root) {start : Element}
    (h : start ∈ root.starts) : lastStart? root.starts start.startName = some start := by
  rw [lastStart?, filter_startName_of_distinct hdistinct h]
  rfl

/-- With different names, a registry commits exactly what the configuration asks for. -/
theorem Keeps.committed_eq {root : Element} {reg : Registry} (h : Keeps root reg)
    (hdistinct : Distinct root) (except : String) (r : Resource) :
    reg.committed except r = asked root except r := by
  have hquota : ∀ start ∈ root.starts, start.quotas.get r = reg.quota start.startName r := by
    intro start hstart
    have hmem := (h.started start.startName).mpr (List.mem_map_of_mem hstart)
    obtain ⟨last, hlast, hlastQuota⟩ := h.quota_eq hmem
    rw [lastStart?_of_distinct hdistinct hstart, Option.some.injEq] at hlast
    rw [hlastQuota, hlast]
  have hnames : (root.starts.filter (·.startName != except)).map (fun start => start.quotas.get r) =
      ((root.starts.map Element.startName).filter (· != except)).map fun name =>
        reg.quota name r := by
    rw [List.filter_map, List.map_map]
    refine List.map_congr_left fun start hstart => ?_
    exact hquota start (List.mem_filter.mp hstart).1
  rw [asked, hnames, Registry.committed]
  refine sum_map_eq_of_nodup _ (h.nodup.filter _) (hdistinct.filter _) fun name => ?_
  rw [List.mem_filter, List.mem_filter, h.started]

end InitConfig

end Overseer
