import Overseer.Proofs.HandedOut

/-!
The published configuration is a normal form.  A supervisor that starts with the text that another
one wrote last writes that text again (`written_again`).  The slices that it makes of the published
entries restate those they were published for: the entries of one name all come from one slice, so
it does not matter that the last of them counts.
-/

namespace Overseer

open Markup

/-- The second slice has in a start entry what the first one has, and no memory quota of its own to
put in there. -/
structure Slice.Restates (s t : Slice) : Prop where
  name : t.name = s.name
  version : t.combinedVersion = s.combinedVersion
  caps : t.assigned .caps = s.assigned .caps
  ram : t.dynamic.ram = 0

namespace InitConfig

/-! ## Publishing twice -/

theorem content_publishedStart {start : Element} (he : start.Obeys Tag.Settled) (s : Slice) :
    (publishedStart start s).content = startContent start s.dynamic.ram := by
  rw [publishedStart, content_writtenElement (obeys_startContent he _)]

theorem publishedStart_again {start : Element} (he : start.Obeys Tag.Settled) {s t : Slice}
    (h : s.Restates t) : publishedStart (publishedStart start s) t = publishedStart start s := by
  have hattributes : startAttributes (publishedStart start s) t = startAttributes start s := by
    rw [startAttributes, h.name, h.version, h.caps, otherAttributes_publishedStart, startAttributes]
  have hcontent : startContent (publishedStart start s) t.dynamic.ram =
      startContent start s.dynamic.ram := by
    rw [h.ram, startContent, if_pos rfl, content_publishedStart he]
  rw [publishedStart, hattributes, hcontent, ← publishedStart]

/-- Every slice is restated by the one of its name. -/
def Restated (reg reg' : Registry) : Prop :=
  ∀ name s, reg.find? name = some s → ∃ t, reg'.find? name = some t ∧ s.Restates t

theorem publishedEntry_again {c : InitConfig} {reg reg' : Registry} (h : Restated reg reg')
    (hkeeps : Keeps c.root reg) {e : Element} (he : e ∈ c.root.children) :
    publishedEntry reg' (publishedEntry reg e) = publishedEntry reg e := by
  by_cases htype : e.name = "start"
  · have hstart := mem_starts.mpr ⟨he, htype⟩
    obtain ⟨s, hs⟩ := Registry.exists_find? ((hkeeps.started _).mpr (List.mem_map_of_mem hstart))
    obtain ⟨t, ht, hrestates⟩ := h _ s hs
    have hname : (publishedStart e s).startName = e.startName :=
      (startName_publishedStart e s).trans (Registry.name_of_find? hs)
    have hpublished : (publishedStart e s).name = "start" := by
      rw [publishedStart, name_writtenElement, String.ofList_toList]
    rw [publishedEntry_of_start htype hs, publishedEntry_of_start hpublished (hname ▸ ht),
      publishedStart_again (c.obeys_start hstart) hrestates]
  · rw [publishedEntry_of_other htype, publishedEntry_of_other htype]

/-- The published configuration as one that is accepted. -/
def republished (c : InitConfig) (reg : Registry) : InitConfig where
  text := (published c.root reg).source
  root := published c.root reg
  parse_text := c.parse_published reg

theorem published_again {c : InitConfig} {reg reg' : Registry} (h : Restated reg reg')
    (hkeeps : Keeps c.root reg) :
    published (c.republished reg).root reg' = (c.republished reg).root := by
  have hattributes : (published c.root reg).attributes = c.root.attributes := by
    rw [published, attributes_writtenElement]
  have hchildren : (published c.root reg).children.map
      (fun e => Piece.child (publishedEntry reg' e)) =
      c.root.children.map fun e => .child (publishedEntry reg e) := by
    rw [children_published, List.map_map]
    refine List.map_congr_left fun e he => ?_
    rw [Function.comp_apply, publishedEntry_again h hkeeps he]
  rw [republished, published, hattributes, hchildren, ← published]

/-! ## Slices made of published entries -/

/-- All published entries of a name come from its slice. -/
theorem lastStart?_published {c : InitConfig} {reg : Registry} (hkeeps : Keeps c.root reg)
    {name : String} {s : Slice} (hs : reg.find? name = some s) :
    ∃ start ∈ c.root.starts, start.startName = name ∧
      lastStart? (published c.root reg).starts name = some (publishedStart start s) := by
  have hnames : (fun e : Element => e.startName == name) ∘ publishedEntry reg =
      fun e => e.startName == name := by
    funext e
    rw [Function.comp_apply, startName_publishedEntry]
  obtain ⟨start, hlast⟩ : ∃ start, lastStart? c.root.starts name = some start := by
    rw [← Option.ne_none_iff_exists', Ne, lastStart?_eq_none_iff, ← hkeeps.started]
    exact fun habsent => habsent (Registry.mem_names_of_find? hs)
  obtain ⟨hstart, hname⟩ := mem_of_lastStart? hlast
  refine ⟨start, hstart, hname, ?_⟩
  rw [lastStart?, starts_published, List.filter_map, hnames, List.getLast?_map, ← lastStart?, hlast,
    Option.map_some, publishedEntry_of_start (mem_starts.mp hstart).2 (hname ▸ hs)]

theorem restates_fresh {start : Element} (he : start.Obeys Tag.Settled) {s : Slice}
    (hname : s.name = start.startName) (hs : s.Bounded) :
    s.Restates (Slice.enter { name := s.name } (publishedStart start s)) := by
  have hkept := startKept_publishedStart he hname hs
  refine ⟨rfl, ?_, ?_, rfl⟩
  · rw [← hkept.versionReads]
    exact Amount.wrap_of_le (amount_le _ "version")
  · rw [← hkept.capsReads]
    rfl

/-- A supervisor without slices makes slices of the published entries that restate the old ones. -/
theorem restated_update {c : InitConfig} {reg : Registry} (hkeeps : Keeps c.root reg)
    (a : Reallocator) :
    Restated reg (Books.update ⟨[], a⟩ (published c.root reg)).1.registry := by
  intro name s hs
  obtain ⟨start, hstart, hname, hlast⟩ := lastStart?_published hkeeps hs
  have hmem := Registry.mem_of_find? hs
  have hsname := Registry.name_of_find? hs
  refine ⟨_, ?_, restates_fresh (c.obeys_start hstart) (hsname.trans hname.symm)
    (hkeeps.bounded s hmem)⟩
  rw [Books.find?_update, hlast, hsname]
  rfl

end InitConfig

namespace Supervisor

/-- The text that was written last is written once again by any supervisor that starts with it. -/
theorem written_again (settings : Settings) (calls : List Call) (content : String)
    (hlatest : (storeAfter settings calls).latest? configReport = some content)
    (other : Settings) :
    ((new other).updateConfig content).1 = .ok () ∧
      (storeAfter other [.updateConfig content]).writes configReport = 1 ∧
      (storeAfter other [.updateConfig content]).latest? configReport = some content := by
  obtain ⟨texts, htells, hstanding, _⟩ := run_new settings calls
  rw [latest?_storeAfter htells] at hlatest
  cases hc : (after settings calls).config with
  | none =>
    rw [(hstanding.untouched hc).2] at hlatest
    cases hlatest
  | some c =>
    let reg := (after settings calls).registry
    let d := c.republished reg
    have hcontent : content = d.text :=
      Option.some.inj (hlatest.symm.trans (hstanding.latest c hc))
    let t : Supervisor := { new other with config := some d }
    obtain ⟨reporter, _, _, hstate, hwritten⟩ :=
      regenerate_eq (s := t) (c := d) rfl ⟨rfl, rfl, rfl⟩
    have hagain : publishedText d t.regenerate.1.registry = content := by
      have hrestated := InitConfig.restated_update (hstanding.keeps c hc) t.reallocator
      rw [hstate, hcontent]
      exact congrArg Element.source (InitConfig.published_again hrestated (hstanding.keeps c hc))
    have hrun : ((new other).run [.updateConfig content]).2 = t.regenerate.2 := by
      rw [hcontent, run_cons, answer_updateConfig]
      exact List.append_nil _
    rw [hagain, ← hrun] at hwritten
    refine ⟨?_, writes_storeAfter hwritten, latest?_storeAfter hwritten⟩
    rw [hcontent, updateConfig, d.parse_own_text]

theorem mixed_written_again :
    (storeAfter mixedSettings mixedCalls).latest? configReport = some mixedContent ∧
      (after mixedSettings mixedCalls).registry.map Slice.dynamic = [⟨18, 128⟩, ⟨0, 0⟩] ∧
      (storeAfter {} [.updateConfig mixedContent]).latest? configReport = some mixedContent := by
  obtain ⟨hlatest, hdynamic⟩ :
      (storeAfter mixedSettings mixedCalls).latest? configReport = some mixedContent ∧
        (after mixedSettings mixedCalls).registry.map Slice.dynamic = [⟨18, 128⟩, ⟨0, 0⟩] := by
    decide +kernel
  exact ⟨hlatest, hdynamic,
    (written_again mixedSettings mixedCalls mixedContent hlatest {}).2.2⟩

end Supervisor

end Overseer
