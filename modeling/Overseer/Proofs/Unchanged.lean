import Overseer.Proofs.Survival

/-!
Regenerating under an unchanged configuration.  When a registry mirrors the start entries and every
entry has a name, an update carries out the restarts that are pending and does nothing else
(`update_of_mirrors`): no slice comes or goes or moves, and no resource becomes stale.
-/

namespace Overseer

open Markup

namespace Registry

/-! ## Registries as maps -/

variable {reg other : Registry}

theorem find?_map {f : Slice → Slice} (hf : ∀ s, (f s).name = s.name) (name : String) :
    find? (reg.map f) name = (reg.find? name).map f := by
  induction reg with
  | nil => rfl
  | cons s reg ih =>
    rw [List.map_cons, find?_cons, find?_cons, hf, ih]
    split <;> rfl

theorem names_map {f : Slice → Slice} (hf : ∀ s, (f s).name = s.name) :
    names (reg.map f) = reg.names := by
  rw [names, List.map_map]
  exact List.map_congr_left fun s _ => hf s

theorem map_find?_names (h : reg.names.Nodup) : reg.names.map reg.find? = reg.map some := by
  rw [names, List.map_map]
  exact List.map_congr_left fun s hs => find?_of_mem h hs

/-- Two registries with the same names in the same order and the same slices under them are the
same. -/
theorem ext_find? (hnodup : reg.names.Nodup) (hnames : other.names = reg.names)
    (h : ∀ name, other.find? name = reg.find? name) : other = reg := by
  have hsome : other.map some = reg.map some := by
    rw [← map_find?_names hnodup, ← map_find?_names (hnames ▸ hnodup), hnames]
    exact List.map_congr_left fun name _ => h name
  exact (List.map_inj_right fun _ _ => Option.some.inj).mp hsome

end Registry

theorem Reallocator.eq_of_get {a a' : Reallocator} (hmargin : a.margin = a'.margin)
    (hstale : ∀ r, a.stale.get r = a'.stale.get r) : a = a' :=
  congrArg₂ Reallocator.mk hmargin (Both.eq_of_get hstale)

/-! ## Restarts -/

theorem Slice.name_updateInternalVersion (s : Slice) : s.updateInternalVersion.name = s.name := by
  unfold updateInternalVersion
  split <;> rfl

theorem Slice.updateInternalVersion_of_idle {s : Slice} (h : s.restartPending = false) :
    s.updateInternalVersion = s := by
  rw [updateInternalVersion, if_neg (by simp [h])]

/-- Entering the entry that a slice comes from carries out its restart. -/
theorem Slice.enter_of_mirrored {s : Slice} {start : Element}
    (hquotas : s.configured = start.quotas)
    (hversion : s.deployVersion = start.amount "version" 0) :
    s.enter start = s.updateInternalVersion := by
  rw [enter, ← hquotas, ← hversion]
  cases hpending : s.restartPending with
  | true => simp [updateInternalVersion, hpending]
  | false =>
    rw [updateInternalVersion_of_idle hpending, if_neg Bool.false_ne_true, Nat.add_zero, ← hpending]

theorem Registry.map_updateInternalVersion_of_idle {reg : Registry}
    (h : ∀ s ∈ reg, s.restartPending = false) : reg.map Slice.updateInternalVersion = reg := by
  have hsame : reg.map Slice.updateInternalVersion = reg.map id :=
    List.map_congr_left fun s hs => Slice.updateInternalVersion_of_idle (h s hs)
  rw [hsame, List.map_id]

namespace InitConfig

/-! ## Mirrors -/

/-- The registry holds the slices of a configuration, and each as every entry of its name has it. -/
structure Mirrors (root : Element) (reg : Registry) : Prop where
  nodup : reg.names.Nodup
  started : ∀ name, name ∈ reg.names ↔ name ∈ root.starts.map Element.startName
  entries : ∀ start ∈ root.starts, ∃ s, reg.find? start.startName = some s ∧
    s.configured = start.quotas ∧ s.deployVersion = start.amount "version" 0

theorem Keeps.mirrors {root : Element} {reg : Registry} (h : Keeps root reg)
    (hdistinct : Distinct root) : Mirrors root reg where
  nodup := h.nodup
  started := h.started
  entries := by
    intro start hstart
    obtain ⟨s, hs⟩ := Registry.exists_find? ((h.started _).mpr (List.mem_map_of_mem hstart))
    obtain ⟨last, hlast, hquotas, hversion⟩ := h.entered s (Registry.mem_of_find? hs)
    rw [Registry.name_of_find? hs, lastStart?_of_distinct hdistinct hstart] at hlast
    cases hlast
    exact ⟨s, hs, hquotas, hversion⟩

theorem Mirrors.prepared {root : Element} {marks : List String} {reg prepared : Registry}
    (h : Mirrors root reg) (hprepared : Registry.Prepared marks reg prepared) :
    Mirrors root prepared where
  nodup := hprepared.names ▸ h.nodup
  started := hprepared.names ▸ h.started
  entries := by
    intro start hstart
    obtain ⟨s, hs, hquotas, hversion⟩ := h.entries start hstart
    obtain ⟨failures, dynamic, hfind, _⟩ := hprepared.slices hs
    exact ⟨_, hfind, hquotas, hversion⟩

/-! ## Updates -/

theorem Books.reallocator_enter_same {b : Books} {start : Element}
    (h : ∀ r, b.registry.quota start.startName r = start.quotas.get r) :
    (b.enter start).1.reallocator = b.reallocator ∧
      ∀ name r, (b.enter start).1.registry.quota name r = b.registry.quota name r := by
  obtain ⟨hmargin, hstale⟩ := b.reallocator_enter start
  have hsame : ∀ r, (b.enter start).1.reallocator.stale.get r = b.reallocator.stale.get r := by
    intro r
    rw [hstale, h, bne_self_eq_false, Bool.or_false]
  refine ⟨Reallocator.eq_of_get hmargin hsame, fun name r => ?_⟩
  rw [Registry.quota, b.find?_enter]
  by_cases hname : start.startName = name
  · rw [if_pos hname, ← hname, h]
    rfl
  · rw [if_neg hname, Registry.quota]

theorem Books.reallocator_enterAll {b : Books} {starts : List Element}
    (h : ∀ start ∈ starts, ∀ r, b.registry.quota start.startName r = start.quotas.get r) :
    (enterAll b starts).1.reallocator = b.reallocator := by
  induction starts generalizing b with
  | nil => rfl
  | cons start starts ih =>
    obtain ⟨hfirst, hrest⟩ := List.forall_mem_cons.mp h
    obtain ⟨hsame, hquota⟩ := reallocator_enter_same hfirst
    have hothers : ∀ next ∈ starts, ∀ r,
        (b.enter start).1.registry.quota next.startName r = next.quotas.get r :=
      fun next hnext r => (hquota next.startName r).trans (hrest next hnext r)
    exact (ih hothers).trans hsame

theorem filter_isStarted_of_mirrors {root : Element} {reg : Registry} (h : Mirrors root reg)
    (hnamed : Named root) : reg.filter (Registry.isStarted root) = reg := by
  rw [List.filter_eq_self]
  intro s hs
  exact (isStarted_iff_of_named hnamed).mpr ((h.started s.name).mp (List.mem_map_of_mem hs))

theorem names_update_of_mirrors {root : Element} {reg : Registry} (h : Mirrors root reg)
    (hnamed : Named root) (a : Reallocator) :
    (Books.update ⟨reg, a⟩ root).1.registry.names = reg.names := by
  have hkept : reg.names.filter (states root) = reg.names := by
    have hsame := congrArg (List.map Slice.name) (filter_isStarted_of_mirrors h hnamed)
    rwa [Registry.names, List.filter_map]
  have hnew : newNames root reg.names = [] := by
    have hnone : (root.starts.map Element.startName).filter (!reg.names.contains ·) = [] := by
      rw [List.filter_eq_nil_iff]
      intro name hname
      simpa using (h.started name).mpr hname
    rw [newNames, hnone, List.eraseDups_nil]
  rw [Books.names_update, hkept, hnew, List.append_nil]

theorem update_of_mirrors {root : Element} {reg : Registry} (h : Mirrors root reg)
    (hnamed : Named root) (a : Reallocator) :
    (Books.update ⟨reg, a⟩ root).1 = ⟨reg.map Slice.updateInternalVersion, a⟩ := by
  have hregistry : (Books.update ⟨reg, a⟩ root).1.registry =
      reg.map Slice.updateInternalVersion := by
    have hnames := names_update_of_mirrors h hnamed a
    have hmap : Registry.names (reg.map Slice.updateInternalVersion) = reg.names :=
      Registry.names_map Slice.name_updateInternalVersion
    refine Registry.ext_find? (hmap ▸ h.nodup) (hnames.trans hmap.symm) fun name => ?_
    rw [Registry.find?_map Slice.name_updateInternalVersion]
    cases hfind : reg.find? name with
    | none =>
      rw [Registry.find?_eq_none_iff, ← hnames, ← Registry.find?_eq_none_iff] at hfind
      rw [hfind]
      rfl
    | some s =>
      have hstart := (h.started name).mp (Registry.mem_names_of_find? hfind)
      obtain ⟨start, hlast, hupdated⟩ := find?_update_of_named (b := ⟨reg, a⟩) hnamed hfind hstart
      obtain ⟨hmem, hname⟩ := mem_of_lastStart? hlast
      obtain ⟨t, ht, hquotas, hversion⟩ := h.entries start hmem
      rw [hname, hfind] at ht
      cases ht
      rw [hupdated, Slice.enter_of_mirrored hquotas hversion]
      rfl
  have hreallocator : (Books.update ⟨reg, a⟩ root).1.reallocator = a := by
    have hquota : ∀ start ∈ root.starts, ∀ r, reg.quota start.startName r = start.quotas.get r := by
      intro start hstart r
      obtain ⟨s, hs, hquotas, _⟩ := h.entries start hstart
      rw [Registry.quota_of_find? hs, hquotas]
    have henter := Books.reallocator_enterAll (b := ⟨reg, a⟩) hquota
    have hupdate : (Books.update ⟨reg, a⟩ root).1 =
        (Books.enterAll ⟨reg.filter (Registry.isStarted root), a⟩ root.starts).1 := rfl
    rw [hupdate, filter_isStarted_of_mirrors h hnamed, henter]
  exact congrArg₂ Books.mk hregistry hreallocator

end InitConfig

end Overseer
