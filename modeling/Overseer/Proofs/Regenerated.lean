import Mathlib.Data.List.Forall2
import Overseer.Proofs.Runs

/-!
Publishing keeps the meaning of a configuration.  `Regenerated` compares what was written, as it is
read back, with the accepted configuration, and holds for every text that is ever written.
-/

namespace Overseer

open Markup

namespace InitConfig

/-! ## Reading figures back -/

theorem attributeD_of_attribute? {e : Element} {name : String} {n : Nat} {text : String}
    {parse : List Char → Except NumeralError Nat} (h : e.attribute? name = some text)
    (htrim : Text.trimChars text.toList = text.toList) (hparse : parse text.toList = .ok n) :
    e.attributeD name parse 0 = n := by
  simp only [Element.attributeD, h, htrim, hparse]
  rfl

theorem amount_of_attribute? {e : Element} {name : String} {n : Nat}
    (h : e.attribute? name = some (toString n)) (hn : n ≤ Amount.limit) : e.amount name 0 = n :=
  attributeD_of_attribute? h (Amount.trimChars_toString n) (Amount.parse_toString hn)

/-! ## Children of start entries -/

/-- The resource that takes the place of the configured memory quota. -/
structure StatesRam (ram : Nat) (out : Element) : Prop where
  isRamResource : out.isRamResource = true
  keys : out.attributes.map Prod.fst = ["name", "quantum"]
  quantum : out.attributeD "quantum" ByteSize.parse 0 = ram
  children : out.children = []

/-- A dynamic memory quota replaces the configured one; any other child keeps its source. -/
def ChildKept (ram : Nat) (e out : Element) : Prop :=
  if ram ≠ 0 ∧ e.isRamResource = true then StatesRam ram out else out.source = e.source

theorem statesRam_ramResource {ram : Nat} (h : ram ≤ Amount.limit) :
    StatesRam ram (ramResource ram) := by
  have hname : (ramResource ram).attribute? "name" = some "RAM" := by
    rw [ramResource, attribute?_writtenElement, List.lookup_cons_self, Option.map_some,
      decode_escape]
  have hquantum : (ramResource ram).attribute? "quantum" = some (ByteSize.render ram) := by
    have hlookup : [("name", escape "RAM"), ("quantum", escape (ByteSize.render ram))].lookup
        "quantum" = some (escape (ByteSize.render ram)) := rfl
    rw [ramResource, attribute?_writtenElement, hlookup, Option.map_some, decode_escape]
  refine ⟨?_, ?_, ?_, ?_⟩
  · rw [Element.isRamResource, hname, ramResource, name_writtenElement]
    rfl
  · rw [ramResource, attributes_writtenElement]
    rfl
  · exact attributeD_of_attribute? hquantum (ByteSize.trimChars_render ram)
      (ByteSize.parse_render h)
  · rw [ramResource, children_writtenElement (by simp [PiecesObey])]
    rfl

theorem childKept_same {ram : Nat} (h : ram = 0) (e : Element) : ChildKept ram e e := by
  simp [ChildKept, h]

theorem childKept_publishedChild {ram : Nat} (h : ram ≤ Amount.limit) (hne : ram ≠ 0)
    (e : Element) : ChildKept ram e (publishedChild ram e) := by
  unfold ChildKept publishedChild
  by_cases hram : e.isRamResource = true
  · rw [if_pos ⟨hne, hram⟩, if_pos hram]
    exact statesRam_ramResource h
  · rw [if_neg (fun hboth => hram hboth.2), if_neg hram]

/-! ## Start entries -/

/-- A start entry after a regeneration: the slice says its version and quotas, the rest is as it
was. -/
structure StartKept (s : Slice) (start out : Element) : Prop where
  type : out.name = "start"
  name : out.attribute? "name" = some start.startName
  version : out.attribute? "version" = some (toString s.combinedVersion)
  versionReads : out.amount "version" 0 = s.combinedVersion
  capsReads : out.amount "caps" 0 = s.assigned .caps
  noCaps : out.hasAttribute "caps" = false ↔ s.assigned .caps = 0
  others : otherAttributes out = otherAttributes start
  children : List.Forall₂ (ChildKept s.dynamic.ram) start.children out.children

theorem startKept_publishedStart {start : Element} {s : Slice} (he : start.Obeys Tag.Settled)
    (hname : s.name = start.startName) (hs : s.Bounded) :
    StartKept s start (publishedStart start s) := by
  have hversion := attribute?_publishedStart_version start s
  have hcaps := attribute?_publishedStart_caps start s
  refine ⟨?_, ?_, hversion, amount_of_attribute? hversion s.combinedVersion_le, ?_, ?_,
    otherAttributes_publishedStart start s, ?_⟩
  · rw [publishedStart, name_writtenElement, String.ofList_toList]
  · rw [attribute?_publishedStart_name, hname]
  · by_cases hzero : s.assigned .caps = 0
    · rw [if_pos hzero] at hcaps
      simp only [Element.amount, Element.attributeD, hcaps, hzero]
    · rw [if_neg hzero] at hcaps
      exact amount_of_attribute? hcaps (hs.assigned_le .caps)
  · rw [Element.hasAttribute, hcaps]
    by_cases hzero : s.assigned .caps = 0 <;> simp [hzero]
  · rw [children_publishedStart he]
    split
    · rename_i hram
      exact List.forall₂_same.mpr fun e _ => childKept_same hram e
    · rename_i hram
      rw [List.forall₂_map_right_iff, List.forall₂_same]
      exact fun e _ => childKept_publishedChild (hs .ram).2 hram e

/-! ## Configurations -/

/-- A child of the root after a regeneration. -/
def EntryKept (reg : Registry) (e out : Element) : Prop :=
  if e.name = "start" then ∃ s, reg.find? e.startName = some s ∧ StartKept s e out
  else out.source = e.source

/-- A configuration and what was published of it with a registry. -/
structure Regenerated (reg : Registry) (root out : Element) : Prop where
  type : out.name = "config"
  attributes : out.attributes = root.attributes
  children : List.Forall₂ (EntryKept reg) root.children out.children

theorem entryKept_publishedEntry {reg : Registry} {e : Element}
    (he : (Piece.child e).Obeys Tag.Settled) (hreg : ∀ s ∈ reg, s.Bounded)
    (hstart : e.name = "start" → e.startName ∈ reg.names) :
    EntryKept reg e (publishedEntry reg e) := by
  by_cases htype : e.name = "start"
  · obtain ⟨s, hs⟩ := Registry.exists_find? (hstart htype)
    rw [Piece.Obeys] at he
    rw [EntryKept, if_pos htype, publishedEntry_of_start htype hs]
    exact ⟨s, hs, startKept_publishedStart he.2 (Registry.name_of_find? hs)
      (hreg s (Registry.mem_of_find? hs))⟩
  · rw [EntryKept, if_neg htype, publishedEntry_of_other htype]

theorem regenerated_published {c : InitConfig} {reg : Registry} (h : Keeps c.root reg) :
    Regenerated reg c.root (published c.root reg) := by
  refine ⟨?_, ?_, ?_⟩
  · rw [published, name_writtenElement, String.ofList_toList]
  · rw [published, attributes_writtenElement]
  · rw [children_published, List.forall₂_map_right_iff, List.forall₂_same]
    intro e he
    refine entryKept_publishedEntry (obeys_child c.obeys_root he) h.bounded fun htype => ?_
    rw [h.started]
    exact List.mem_map_of_mem (mem_starts.mpr ⟨he, htype⟩)

end InitConfig

namespace Supervisor

theorem Tells.mem_of_write {texts : List String} {es : List Effect} (h : Tells texts es)
    {content : String} (hwrite : .write configReport content ∈ es) : content ∈ texts := by
  rw [← h.contents]
  exact Effect.write_mem_iff.mp hwrite

/-- Whenever the configuration is written, by any call after any others, what is written reads as
the configuration accepted last, regenerated with the slices as they are then. -/
theorem written_regenerated (settings : Settings) (calls : List Call) (call : Call)
    (content : String)
    (h : .write configReport content ∈ ((after settings calls).answer call).2) :
    ∃ c out, ((calls ++ [call]).filterMap Call.accepted?).getLast? = some c ∧
      Element.parse content = .ok out ∧
      InitConfig.Regenerated (after settings (calls ++ [call])).registry c.root out := by
  obtain ⟨texts, _, hstanding, _⟩ := run_new settings calls
  obtain ⟨_, _, hafter, hconfig⟩ := run_new settings (calls ++ [call])
  rcases answer_cases hstanding.equipped hstanding.sound call with hrests | ⟨c, books, hrenews⟩
  · cases hrests.tells.mem_of_write h
  · have hcontent := List.mem_singleton.mp (hrenews.tells.mem_of_write h)
    have hc : (after settings (calls ++ [call])).config = some c := by
      obtain ⟨_, _, _, _, _, hstate⟩ := hrenews.state
      rw [after_snoc, hstate]
      rfl
    rw [hcontent, ← after_snoc]
    exact ⟨c, _, hconfig.symm.trans hc, c.parse_published _,
      InitConfig.regenerated_published (hafter.keeps c hc)⟩

/-- The slice `a`, which is started twice, receives what the entry without a name leaves. -/
def mixedSettings : Settings := { remaining := some ⟨["init", "a"]⟩, margin := ⟨0, 0⟩ }

def mixedText : String :=
  "<config x='\"'><start name='a' caps='1'/><note name='a'>&amp;</note><start caps=\"2\"/>" ++
    "<start caps=\"3\" name=\"a\" priority='2'> <resource quantum='4' name='RAM'/>" ++
    "<!-- - --></start></config>"

def mixedCalls : List Call := [.updateConfig mixedText, availReport 20 128]

def mixedContent : String :=
  "<config x='\"'><start name=\"a\" version=\"0\" caps=\"18\"/><note name='a'>&amp;</note>" ++
    "<start name=\"\" version=\"0\" caps=\"2\"/>" ++
    "<start name=\"a\" version=\"0\" caps=\"18\" priority=\"2\">" ++
    "<resource name=\"RAM\" quantum=\"128\"/></start></config>"

theorem mixed_written_regenerated :
    .write configReport mixedContent ∈
        ((after mixedSettings [.updateConfig mixedText]).answer (availReport 20 128)).2 ∧
      (after mixedSettings mixedCalls).registry.map Slice.dynamic = [⟨18, 128⟩, ⟨0, 0⟩] ∧
      ∃ c out, (mixedCalls.filterMap Call.accepted?).getLast? = some c ∧
        Element.parse mixedContent = .ok out ∧
        InitConfig.Regenerated (after mixedSettings mixedCalls).registry c.root out := by
  have hcomputed : ((after mixedSettings [.updateConfig mixedText]).answer
        (availReport 20 128)).2.filterMap (Effect.content? configReport) = [mixedContent] ∧
      ((after mixedSettings [.updateConfig mixedText]).answer
        (availReport 20 128)).1.registry.map Slice.dynamic = [⟨18, 128⟩, ⟨0, 0⟩] := by
    decide +kernel
  obtain ⟨hcontents, hdynamic⟩ := hcomputed
  have hwritten : .write configReport mixedContent ∈
      ((after mixedSettings [.updateConfig mixedText]).answer (availReport 20 128)).2 := by
    rw [Effect.write_mem_iff, hcontents]
    exact List.mem_singleton_self _
  have hafter : after mixedSettings mixedCalls =
      ((after mixedSettings [.updateConfig mixedText]).answer (availReport 20 128)).1 :=
    after_snoc mixedSettings [.updateConfig mixedText] _
  exact ⟨hwritten, hafter ▸ hdynamic,
    written_regenerated mixedSettings [.updateConfig mixedText] _ _ hwritten⟩

end Supervisor

end Overseer
