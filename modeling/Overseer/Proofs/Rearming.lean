import Overseer.Proofs.Serving

/-!
What an accepted configuration makes of the totals.  While a resource does not become stale, every
slice that stays keeps its quota of it and every other one starts with none (`quota_update_of_fresh`),
so the totals change only by what is freed: the quotas of the slices whose name no entry states any
more (`committed_of_fresh`).  Freed quotas alone make nothing stale (`freed_quota_unnoticed`).
-/

namespace Overseer

open Markup

/-- What the slices besides one had of a resource whose names no entry of a configuration states. -/
def Registry.freed (reg : Registry) (root : Element) (except : String) (r : Resource) : Nat :=
  (((reg.names.filter (· != except)).filter fun name =>
    !InitConfig.states root name).map fun name => reg.quota name r).sum

/-- If each slice has the quota that it is left with, what is committed falls by what is freed. -/
theorem Registry.committed_of_kept {reg other : Registry} {root : Element} {r : Resource}
    (hnodup : reg.names.Nodup) (hother : other.names.Nodup)
    (h : ∀ name, other.quota name r = reg.keptQuota root name r) (except : String) :
    reg.committed except r = other.committed except r + reg.freed root except r := by
  let stay := (reg.names.filter (· != except)).filter (InitConfig.states root)
  have hstay : other.committed except r = (stay.map fun name => reg.quota name r).sum := by
    refine Nat.le_antisymm ?_ ?_
    · refine sum_map_le_of_key id (hother.filter _) fun name hname hpos => ?_
      rw [h, keptQuota] at hpos
      split at hpos
      · rename_i hstates
        have hmem : name ∈ stay := by
          refine List.mem_filter.mpr ⟨List.mem_filter.mpr ⟨mem_names_of_quota hpos, ?_⟩, hstates⟩
          exact (List.mem_filter.mp hname).2
        refine ⟨name, hmem, rfl, ?_⟩
        rw [h, keptQuota, if_pos hstates]
      · exact absurd rfl hpos
    · refine sum_map_le_of_key id ((hnodup.filter _).filter _) fun name hname hpos => ?_
      obtain ⟨hmem, hstates⟩ := List.mem_filter.mp hname
      have hquota : other.quota name r = reg.quota name r := by
        rw [h, keptQuota, if_pos hstates]
      refine ⟨name, List.mem_filter.mpr ⟨?_, (List.mem_filter.mp hmem).2⟩, rfl, ?_⟩
      · exact mem_names_of_quota (hquota ▸ hpos)
      · exact Nat.le_of_eq hquota.symm
  have hsplit := List.sum_map_filter_add_sum_map_filter_not (InitConfig.states root · = true)
    (reg.quota · r) (reg.names.filter (· != except))
  simp only [Bool.decide_eq_true, Bool.not_eq_true, Bool.decide_eq_false] at hsplit
  rw [hstay, freed, committed]
  exact hsplit.symm

namespace InitConfig

/-- If a resource is not stale after an update, every slice has what was left to it. -/
theorem Books.quota_update_of_fresh {b : Books} {root : Element} {r : Resource}
    (h : (b.update root).1.reallocator.stale.get r = false) (name : String) :
    (b.update root).1.registry.quota name r = b.registry.keptQuota root name r := by
  obtain ⟨_, hquota⟩ := quota_enterAll
    (b := { b with registry := b.registry.filter (Registry.isStarted root) }) h
  exact (hquota name).trans (Registry.quota_filter_isStarted b.registry root name r)

end InitConfig

namespace Supervisor

open InitConfig (Changes)

variable {s : Supervisor} {texts : List String} {text : String} {d : InitConfig} {r : Resource}

theorem answer_accepted (hd : InitConfig.parse text = .ok d) :
    (s.answer (.updateConfig text)).1 = ({ s with config := some d } : Supervisor).regenerate.1 := by
  simp only [answer, updateConfig, hd]

/-- An accepted configuration makes a resource stale just if it changes some quota of it. -/
theorem stale_accepted_iff (h : s.Standing texts) (hd : InitConfig.parse text = .ok d)
    (r : Resource) : (s.answer (.updateConfig text)).1.reallocator.stale.get r = true ↔
      s.reallocator.stale.get r = true ∨ Changes s.config d r := by
  let t : Supervisor := { s with config := some d }
  have ht : t.Equipped := ⟨h.equipped.name, h.equipped.root, h.equipped.restart⟩
  rw [answer_accepted hd, stale_regenerate (s := t) rfl ht, Bool.or_eq_true, h.disagrees_iff d r]

/-- Unless it makes the resource stale, an accepted configuration commits the slices to less by what
it frees. -/
theorem committed_of_fresh (h : s.Standing texts) (hd : InitConfig.parse text = .ok d)
    (hfresh : (s.answer (.updateConfig text)).1.reallocator.stale.get r = false)
    (except : String) : s.registry.committed except r =
      (s.answer (.updateConfig text)).1.registry.committed except r +
        s.registry.freed d.root except r := by
  obtain ⟨_, _, hafter, _⟩ := answer_standing h (.updateConfig text)
  have hnodup := hafter.nodup
  let t : Supervisor := { s with config := some d }
  have ht : t.Equipped := ⟨h.equipped.name, h.equipped.root, h.equipped.restart⟩
  obtain ⟨_, _, _, hstate, _⟩ := regenerate_eq (s := t) rfl ht
  rw [answer_accepted hd, hstate] at hfresh hnodup ⊢
  exact Registry.committed_of_kept h.nodup hnodup
    (InitConfig.Books.quota_update_of_fresh (b := ⟨s.registry, s.reallocator⟩) hfresh) except

/-- With different names, the same holds of what the start entries ask for. -/
theorem asked_of_fresh (h : s.Standing texts) {c : InitConfig} (hc : s.config = some c)
    (hd : InitConfig.parse text = .ok d) (hdistinct : InitConfig.Distinct c.root)
    (hdistinct' : InitConfig.Distinct d.root)
    (hfresh : (s.answer (.updateConfig text)).1.reallocator.stale.get r = false)
    (except : String) : InitConfig.asked c.root except r =
      InitConfig.asked d.root except r + s.registry.freed d.root except r := by
  obtain ⟨_, _, hafter, hconfig⟩ := answer_standing h (.updateConfig text)
  have haccepted : (s.answer (.updateConfig text)).1.config = some d := by
    rw [hconfig, Call.accepted?, hd]
    rfl
  have hcommitted := committed_of_fresh h hd hfresh except
  rwa [(h.keeps c hc).committed_eq hdistinct, (hafter.keeps d haccepted).committed_eq hdistinct']
    at hcommitted

/-- An accepted configuration makes a resource stale just if some entry asks for another quota than
its slice keeps.  With different names, that is so whenever the total besides the elastic slice is
another one, unless it is less by just what was freed.  While the resource is stale, the next report
of the sibling that calls for no restart assigns or refuses it. -/
theorem changed_totals_recalculated (settings : Settings) (calls : List Call) (c : InitConfig)
    (hc : (after settings calls).config = some c) (elastic : Elastic) (text : String)
    (d : InitConfig) (hd : InitConfig.parse text = .ok d) (r : Resource) :
    let s := after settings calls
    let t := after settings (calls ++ [.updateConfig text])
    (t.reallocator.stale.get r = true ↔ s.reallocator.stale.get r = true ∨ Changes (some c) d r) ∧
    (InitConfig.Distinct c.root → InitConfig.Distinct d.root →
      (configuredTotals d.root elastic.slice).get r ≠
        (configuredTotals c.root elastic.slice).get r →
      t.reallocator.stale.get r = true ∨ (s.registry.freed d.root elastic.slice r ≠ 0 ∧
        InitConfig.asked c.root elastic.slice r =
          InitConfig.asked d.root elastic.slice r + s.registry.freed d.root elastic.slice r)) ∧
    (t.reallocator.stale.get r = true → InitConfig.states d.root elastic.slice = true →
      ∀ state, t.Calm state elastic →
        Serves (t.handleReport state elastic.sibling) elastic.slice r) := by
  intro s t
  obtain ⟨_, _, hstanding, _⟩ := run_new settings calls
  obtain ⟨_, _, hafter, _⟩ := run_new settings (calls ++ [.updateConfig text])
  have ht : t = (s.answer (.updateConfig text)).1 := after_snoc settings calls _
  have haccepted : t.config = some d := by
    rw [ht, answer_accepted hd, config_regenerate]
  refine ⟨?_, ?_, ?_⟩
  · rw [ht, stale_accepted_iff hstanding hd, hc]
  · intro hdistinct hdistinct' hne
    cases hstale : t.reallocator.stale.get r with
    | true => exact .inl rfl
    | false =>
      rw [ht] at hstale
      have hasked := asked_of_fresh hstanding hc hd hdistinct hdistinct' hstale elastic.slice
      refine .inr ⟨fun hzero => hne ?_, hasked⟩
      rw [InitConfig.configuredTotals_get, InitConfig.configuredTotals_get, hasked, hzero,
        Nat.add_zero]
  · intro hstale hstates state hcalm
    have hname := ((hafter.keeps d haccepted).started elastic.slice).mpr
      (InitConfig.starts_iff.mp (InitConfig.starts_of_states hstates))
    obtain ⟨slice, hslice⟩ := Registry.exists_find? hname
    exact serves_handleReport hafter hcalm hslice haccepted hstates hstale (.inr hstale)

/-- The configuration in which `web` asks for one capability more. -/
def grownConfig : InitConfig := quotaConfig [("batch", 3, some 32), ("web", 8, some 64)]

theorem batch_recalculated :
    (after batchSettings batchCalls).config = some batchConfig ∧
      (∀ q, (after batchSettings batchCalls).reallocator.stale.get q = false) ∧
      configuredTotals batchConfig.root "batch" = ⟨7, 64⟩ ∧
      configuredTotals grownConfig.root "batch" = ⟨8, 64⟩ ∧
      Serves ((after batchSettings (batchCalls ++ [.updateConfig grownConfig.text])).handleReport
        leftState ⟨["init", "state"]⟩) "batch" .caps := by
  have hbefore : configuredTotals batchConfig.root "batch" = ⟨7, 64⟩ := by decide +kernel
  have hlater : configuredTotals grownConfig.root "batch" = ⟨8, 64⟩ := by decide +kernel
  have hnames : grownConfig.root.starts.map Element.startName = ["batch", "web"] := by
    decide +kernel
  have hdistinct : InitConfig.Distinct grownConfig.root := by
    rw [InitConfig.Distinct, hnames]
    decide
  have hfreed : (after batchSettings batchCalls).registry.freed grownConfig.root "batch" .caps =
      0 := by
    simp only [batchCalls, after_started]
    decide +kernel
  obtain ⟨_, hchanged, hserved⟩ := changed_totals_recalculated batchSettings batchCalls batchConfig
    config_batch batchElastic grownConfig.text grownConfig grownConfig.parse_own_text .caps
  refine ⟨config_batch, stale_batch, hbefore, hlater,
    hserved ?_ (by decide +kernel) leftState (calm_leftState _)⟩
  refine (hchanged distinct_batch hdistinct ?_).resolve_right fun h => h.1 hfreed
  simp only [batchElastic, hbefore, hlater]
  decide

/-- The configuration without `web`. -/
def loneConfig : InitConfig := quotaConfig [("batch", 3, some 32)]

theorem stale_lone (q : Resource) : (after batchSettings
    (batchCalls ++ [.updateConfig loneConfig.text])).reallocator.stale.get q = false := by
  obtain ⟨_, _, hstanding, _⟩ := run_new batchSettings batchCalls
  have hstale := stale_accepted_iff hstanding loneConfig.parse_own_text q
  have hsame : ¬ Changes (some batchConfig) loneConfig q := by
    unfold Changes
    cases q with
    | caps => decide +kernel
    | ram => decide +kernel
  rw [config_batch, stale_batch, ← after_snoc] at hstale
  rw [← Bool.not_eq_true, hstale]
  rintro (h | h)
  · cases h
  · exact hsame h

/-- All that `web` had is freed, but nothing becomes stale, so `batch` does not receive it. -/
theorem freed_quota_unnoticed :
    (after batchSettings batchCalls).config = some batchConfig ∧
      (after batchSettings (batchCalls ++ [.updateConfig loneConfig.text])).config =
        some loneConfig ∧
      InitConfig.Distinct loneConfig.root ∧
      configuredTotals batchConfig.root "batch" = ⟨7, 64⟩ ∧
      configuredTotals loneConfig.root "batch" = ⟨0, 0⟩ ∧
      (∀ q, (after batchSettings
        (batchCalls ++ [.updateConfig loneConfig.text])).reallocator.stale.get q = false) ∧
      ∀ r, ¬ Serves ((after batchSettings
        (batchCalls ++ [.updateConfig loneConfig.text])).handleReport leftState
          ⟨["init", "state"]⟩) "batch" r := by
  have hc : (after batchSettings (batchCalls ++ [.updateConfig loneConfig.text])).config =
      some loneConfig := by
    rw [after_snoc, answer_accepted loneConfig.parse_own_text, config_regenerate]
  have hnames : loneConfig.root.starts.map Element.startName = ["batch"] := by decide +kernel
  have hdistinct : InitConfig.Distinct loneConfig.root := by
    rw [InitConfig.Distinct, hnames]
    decide
  obtain ⟨_, _, hafter, _⟩ :=
    run_new batchSettings (batchCalls ++ [.updateConfig loneConfig.text])
  have hstarted : "batch" ∈ loneConfig.root.starts.map Element.startName := by
    rw [hnames]
    exact List.mem_singleton_self _
  obtain ⟨slice, hslice⟩ :=
    Registry.exists_find? (((hafter.keeps loneConfig hc).started "batch").mpr hstarted)
  have hignored := not_serves_of_fresh hafter (calm_leftState _) hslice stale_lone
  exact ⟨config_batch, hc, hdistinct, by decide +kernel, by decide +kernel, stale_lone, hignored⟩

end Supervisor

end Overseer
