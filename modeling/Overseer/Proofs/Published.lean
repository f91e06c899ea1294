import Overseer.InitConfig
import Overseer.Proofs.Markup.Writing
import Overseer.Proofs.Numeral

/-!
The published configuration as a tree.  `published` is what the draft of a configuration writes
(`rendering_draft`) and what its text is read back as (`parse_published`).
-/

namespace Overseer.InitConfig

open Markup

/-! ## The tree -/

/-- An attribute as it is written, from its name and its source. -/
def written (a : String × String) : Attribute := writtenAttribute a.1.toList a.2.toList

/-- The attributes of an element that the registry has no say in. -/
def otherAttributes (e : Element) : List (String × String) :=
  let own := ["name", "version", "caps"]
  e.attributes.filter fun a => !own.contains a.1

def capsAttribute (caps : Nat) : List (String × String) :=
  if 0 < caps then [("caps", escape (toString caps))] else []

def startAttributes (start : Element) (s : Slice) : List (String × String) :=
  ("name", escape s.name) :: ("version", escape (toString s.combinedVersion)) ::
    (capsAttribute (s.assigned .caps) ++ otherAttributes start)

def ramResource (ram : Nat) : Element :=
  writtenElement "resource".toList
    ([("name", escape "RAM"), ("quantum", escape (ByteSize.render ram))].map written) []

def publishedChild (ram : Nat) (e : Element) : Element :=
  if e.isRamResource then ramResource ram else e

def startContent (start : Element) (ram : Nat) : List Piece :=
  if ram = 0 then start.content else start.children.map fun e => .child (publishedChild ram e)

def publishedStart (start : Element) (s : Slice) : Element :=
  writtenElement "start".toList ((startAttributes start s).map written)
    (startContent start s.dynamic.ram)

def publishedEntry (reg : Registry) (e : Element) : Element :=
  match reg.find? e.startName with
  | some s => if e.name == "start" then publishedStart e s else e
  | none => e

def published (root : Element) (reg : Registry) : Element :=
  writtenElement "config".toList (root.attributes.map written)
    (root.children.map fun e => .child (publishedEntry reg e))

theorem publishedEntry_of_start {reg : Registry} {e : Element} {s : Slice} (he : e.name = "start")
    (hs : reg.find? e.startName = some s) : publishedEntry reg e = publishedStart e s := by
  simp only [publishedEntry, hs, he, beq_self_eq_true, if_true]

theorem publishedEntry_of_other {reg : Registry} {e : Element} (he : e.name ≠ "start") :
    publishedEntry reg e = e := by
  unfold publishedEntry
  split
  · rw [if_neg (by simpa using he)]
  · rfl

/-! ## What the draft writes -/

theorem denotes_attribute (name value : String) {draft : Draft} {as : List Attribute}
    {ps : List Piece} (h : Denotes draft as ps) :
    Denotes (.attribute name value :: draft) (written (name, escape value) :: as) ps := by
  have hwritten : written (name, escape value) =
      writtenAttribute name.toList (Reference.encode value.toList) := by simp [written, escape]
  rw [hwritten]
  exact .attribute name value h

theorem denotes_caps (caps : Nat) {draft : Draft} {as : List Attribute} {ps : List Piece}
    (h : Denotes draft as ps) :
    Denotes ((if 0 < caps then [.attribute "caps" (toString caps)] else []) ++ draft)
      ((capsAttribute caps).map written ++ as) ps := by
  unfold capsAttribute
  split
  · exact denotes_attribute "caps" (toString caps) h
  · exact h

theorem denotes_startChild (ram : Nat) (e : Element) {rest : Draft} {ps : List Piece}
    (h : Denotes rest [] ps) :
    Denotes (startChild ram e :: rest) [] (.child (publishedChild ram e) :: ps) := by
  unfold startChild publishedChild
  split
  · exact .node "resource"
      (denotes_attribute _ _ (denotes_attribute _ _ .nil)) h
  · exact denotes_source h

theorem denotes_startContent (start : Element) (ram : Nat) :
    Denotes (if ram = 0 then [.append start.contentSource] else start.children.map (startChild ram))
      [] (startContent start ram) := by
  unfold startContent
  split
  · have happend : Denotes [.append start.contentSource] [] (start.content ++ []) :=
      .append (by simp [Element.contentSource]) .nil
    rwa [List.append_nil] at happend
  · exact denotes_children fun e _ _ _ h => denotes_startChild ram e h

theorem denotes_startEntry (start : Element) (s : Slice) {rest : Draft} {ps : List Piece}
    (h : Denotes rest [] ps) :
    Denotes (startEntry start s :: rest) [] (.child (publishedStart start s) :: ps) := by
  have hcontent := denotes_startContent start s.dynamic.ram
  have hothers := denotes_rawAttributes (otherAttributes start) hcontent
  have hown := denotes_attribute "name" s.name (denotes_attribute "version"
    (toString s.combinedVersion) (denotes_caps (s.assigned .caps) hothers))
  have hnode := Denotes.node "start" hown h
  have hattributes : (startAttributes start s).map written =
      written ("name", escape s.name) :: written ("version", escape (toString s.combinedVersion)) ::
        ((capsAttribute (s.assigned .caps)).map written ++
          ((otherAttributes start).map written ++ [])) := by
    simp [startAttributes]
  rw [publishedStart, hattributes]
  simp only [startEntry, List.append_assoc]
  exact hnode

theorem denotes_entry (reg : Registry) (e : Element) {rest : Draft} {ps : List Piece}
    (h : Denotes rest [] ps) :
    Denotes (entry reg e :: rest) [] (.child (publishedEntry reg e) :: ps) := by
  rw [entry, publishedEntry]
  cases reg.find? e.startName with
  | none => exact denotes_source h
  | some s =>
    dsimp only
    split
    · exact denotes_startEntry e s h
    · exact denotes_source h

theorem denotes_draft (root : Element) (reg : Registry) :
    Denotes (draft root reg) (root.attributes.map written)
      (root.children.map fun e => .child (publishedEntry reg e)) := by
  have hchildren : Denotes (root.children.map (entry reg)) [] _ :=
    denotes_children fun e _ _ _ h => denotes_entry reg e h
  have hdraft := denotes_rawAttributes root.attributes hchildren
  rwa [List.append_nil] at hdraft

theorem rendering_draft (root : Element) (reg : Registry) :
    (Instr.node "config" (draft root reg)).rendering = .ok (published root reg).source :=
  rendering_of_denotes (denotes_draft root reg) "config"

/-! ## Reading it back -/

theorem written_of_settled {e : Element} (he : e.Obeys Tag.Settled) {a : String × String}
    (ha : a ∈ e.attributes) : Written (written a) := by
  obtain ⟨b, hb, rfl⟩ := List.mem_map.mp ha
  have hformed := he.tag.attributes b hb
  have hsettled := he.tag.settled b hb
  simp only [written, String.toList_ofList]
  exact written_attribute hformed.name hsettled hformed.quotable

theorem written_escape {name : String} (hname : IsName name.toList)
    (hblank : name.toList.any isBlank = false) (value : String) :
    Written (written (name, escape value)) := by
  have hhead : ∀ c, name.toList.head? = some c → isBlank c = false := by
    intro c hc
    simpa using List.any_eq_false.mp hblank c (List.mem_of_mem_head? hc)
  simp only [written, escape, String.toList_ofList]
  exact written_attribute hname hhead (.inl (encode_no_quote _))

theorem written_caps (caps : Nat) : ∀ a ∈ capsAttribute caps, Written (written a) := by
  intro a ha
  unfold capsAttribute at ha
  split at ha
  · rw [List.mem_singleton.mp ha]
    exact written_escape (by decide) (by decide) _
  · cases ha

theorem written_startAttributes {start : Element} (he : start.Obeys Tag.Settled) (s : Slice) :
    ∀ a ∈ startAttributes start s, Written (written a) := by
  intro a ha
  rcases List.mem_cons.mp ha with rfl | ha
  · exact written_escape (by decide) (by decide) _
  rcases List.mem_cons.mp ha with rfl | ha
  · exact written_escape (by decide) (by decide) _
  rcases List.mem_append.mp ha with ha | ha
  · exact written_caps _ a ha
  · exact written_of_settled he (List.mem_filter.mp ha).1

theorem obeys_child {rule : Tag → Prop} {e c : Element} (he : e.Obeys rule)
    (hc : c ∈ e.children) : (Piece.child c).Obeys rule := by
  obtain ⟨p, hp, helement⟩ := List.mem_filterMap.mp hc
  have hobeys := piecesObey_iff.mp he.content p hp
  cases p with
  | char c => cases helement
  | markup text => cases helement
  | child e =>
    cases helement
    exact hobeys

/-- An element that is written under a plain name is one more piece of content. -/
theorem obeys_piece {name : List Char} {as : List Attribute} {ps : List Piece}
    (hname : IsName name) (hplain : name.head? ≠ some '!' ∧ name.head? ≠ some '?')
    (has : ∀ a ∈ as, Written a) (hps : PiecesObey Tag.Settled ps) :
    (Piece.child (writtenElement name as ps)).Obeys Tag.Settled := by
  rw [Piece.Obeys]
  refine ⟨?_, obeys_writtenElement hname has hps⟩
  rw [tag_writtenElement]
  rintro (h | h)
  · exact hplain.1 h
  · exact hplain.2 h

theorem obeys_ramResource (ram : Nat) : (Piece.child (ramResource ram)).Obeys Tag.Settled := by
  refine obeys_piece (by decide) (by decide) ?_ (by simp [PiecesObey])
  intro a ha
  simp only [List.map_cons, List.map_nil, List.mem_cons, List.not_mem_nil, or_false] at ha
  rcases ha with rfl | rfl
  · exact written_escape (by decide) (by decide) _
  · exact written_escape (by decide) (by decide) _

theorem obeys_startContent {start : Element} (he : start.Obeys Tag.Settled) (ram : Nat) :
    PiecesObey Tag.Settled (startContent start ram) := by
  unfold startContent
  split
  · exact he.content
  · refine piecesObey_iff.mpr fun p hp => ?_
    obtain ⟨c, hc, rfl⟩ := List.mem_map.mp hp
    unfold publishedChild
    split
    · exact obeys_ramResource ram
    · exact obeys_child he hc

theorem obeys_publishedStart {start : Element} (he : start.Obeys Tag.Settled) (s : Slice) :
    (Piece.child (publishedStart start s)).Obeys Tag.Settled := by
  refine obeys_piece (by decide) (by decide) ?_ (obeys_startContent he _)
  intro a ha
  obtain ⟨b, hb, rfl⟩ := List.mem_map.mp ha
  exact written_startAttributes he s b hb

theorem obeys_publishedEntry {e : Element} (he : (Piece.child e).Obeys Tag.Settled)
    (reg : Registry) : (Piece.child (publishedEntry reg e)).Obeys Tag.Settled := by
  unfold publishedEntry
  split
  · split
    · rw [Piece.Obeys] at he
      exact obeys_publishedStart he.2 _
    · exact he
  · exact he

theorem obeys_entries {root : Element} (he : root.Obeys Tag.Settled) (reg : Registry) :
    PiecesObey Tag.Settled (root.children.map fun e => .child (publishedEntry reg e)) := by
  refine piecesObey_iff.mpr fun p hp => ?_
  obtain ⟨e, hmem, rfl⟩ := List.mem_map.mp hp
  exact obeys_publishedEntry (obeys_child he hmem) reg

theorem obeys_published {root : Element} (he : root.Obeys Tag.Settled) (reg : Registry) :
    (Piece.child (published root reg)).Obeys Tag.Settled := by
  refine obeys_piece (by decide) (by decide) ?_ (obeys_entries he reg)
  intro a ha
  obtain ⟨b, hb, rfl⟩ := List.mem_map.mp ha
  exact written_of_settled he hb

theorem obeys_root (c : InitConfig) : c.root.Obeys Tag.Settled := by
  obtain ⟨d, hd, hroot⟩ := elementParse_eq_ok_iff.mp c.parse_text
  exact hroot ▸ hd.obeys.root

/-- What is published is read back as the published tree. -/
theorem parse_published (c : InitConfig) (reg : Registry) :
    Element.parse (published c.root reg).source = .ok (published c.root reg) := by
  have hobeys := obeys_published c.obeys_root reg
  rw [Piece.Obeys] at hobeys
  exact parse_render hobeys.2 hobeys.1

/-! ## Asking it -/

theorem name_writtenElement (name : List Char) (as : List Attribute) (ps : List Piece) :
    (writtenElement name as ps).name = .ofList name := by
  rw [Element.name, tag_writtenElement]

theorem attributes_writtenElement (name : List Char) (as : List (String × String))
    (ps : List Piece) : (writtenElement name (as.map written) ps).attributes = as := by
  simp [Element.attributes, tag_writtenElement, written, writtenAttribute, Function.comp_def]

theorem children_writtenElement {name : List Char} {as : List Attribute} {ps : List Piece}
    (h : PiecesObey Tag.Settled ps) :
    (writtenElement name as ps).children = ps.filterMap Piece.element? := by
  rw [Element.children, content_writtenElement h]

theorem filterMap_element?_child {α : Type} (f : α → Element) (es : List α) :
    (es.map fun e => Piece.child (f e)).filterMap Piece.element? = es.map f := by
  induction es with
  | nil => rfl
  | cons e es ih => simp [Piece.element?, ih]

theorem mem_starts {root start : Element} :
    start ∈ root.starts ↔ start ∈ root.children ∧ start.name = "start" := by
  simp [Element.starts, Element.childrenNamed]

theorem children_published (c : InitConfig) (reg : Registry) :
    (published c.root reg).children = c.root.children.map (publishedEntry reg) := by
  rw [published, children_writtenElement (obeys_entries c.obeys_root reg),
    filterMap_element?_child]

theorem children_publishedStart {start : Element} (he : start.Obeys Tag.Settled) (s : Slice) :
    (publishedStart start s).children =
      if s.dynamic.ram = 0 then start.children
      else start.children.map (publishedChild s.dynamic.ram) := by
  rw [publishedStart, children_writtenElement (obeys_startContent he _), startContent]
  split
  · rfl
  · exact filterMap_element?_child _ _

theorem attribute?_writtenElement (name : List Char) (as : List (String × String))
    (ps : List Piece) (key : String) :
    (writtenElement name (as.map written) ps).attribute? key =
      (as.lookup key).map fun source => .ofList (Reference.decode source.toList) := by
  rw [Element.attribute?, attributes_writtenElement]

theorem decode_escape (value : String) :
    String.ofList (Reference.decode (escape value).toList) = value := by
  rw [escape, String.toList_ofList, Reference.decode_encode, String.ofList_toList]

theorem attribute?_publishedStart_name (start : Element) (s : Slice) :
    (publishedStart start s).attribute? "name" = some s.name := by
  rw [publishedStart, attribute?_writtenElement, startAttributes, List.lookup_cons_self,
    Option.map_some, decode_escape]

theorem startName_publishedStart (start : Element) (s : Slice) :
    (publishedStart start s).startName = s.name := by
  rw [Element.startName, attribute?_publishedStart_name, Option.getD_some]

theorem attribute?_publishedStart_version (start : Element) (s : Slice) :
    (publishedStart start s).attribute? "version" = some (toString s.combinedVersion) := by
  have hlookup : (startAttributes start s).lookup "version" =
      some (escape (toString s.combinedVersion)) := rfl
  rw [publishedStart, attribute?_writtenElement, hlookup, Option.map_some, decode_escape]

theorem lookup_otherAttributes_caps (start : Element) :
    (otherAttributes start).lookup "caps" = none := by
  rw [List.lookup_eq_none_iff]
  intro a ha
  have hother := (List.mem_filter.mp ha).2
  simp at hother
  simpa using Ne.symm hother.2.2

theorem attribute?_publishedStart_caps (start : Element) (s : Slice) :
    (publishedStart start s).attribute? "caps" =
      if s.assigned .caps = 0 then none else some (toString (s.assigned .caps)) := by
  have hlookup : (startAttributes start s).lookup "caps" =
      (capsAttribute (s.assigned .caps) ++ otherAttributes start).lookup "caps" := rfl
  rw [publishedStart, attribute?_writtenElement, hlookup, capsAttribute]
  by_cases hcaps : s.assigned .caps = 0
  · rw [if_neg (by omega), if_pos hcaps, List.nil_append, lookup_otherAttributes_caps]
    rfl
  · rw [if_pos (by omega), if_neg hcaps, List.singleton_append, List.lookup_cons_self,
      Option.map_some, decode_escape]

theorem otherAttributes_publishedStart (start : Element) (s : Slice) :
    otherAttributes (publishedStart start s) = otherAttributes start := by
  have hcaps : (capsAttribute (s.assigned .caps)).filter
      (fun a => !List.contains ["name", "version", "caps"] a.1) = [] := by
    unfold capsAttribute
    split <;> rfl
  rw [otherAttributes, publishedStart, attributes_writtenElement, startAttributes,
    List.filter_cons_of_neg (by simp), List.filter_cons_of_neg (by simp), List.filter_append, hcaps,
    List.nil_append, otherAttributes, List.filter_filter]
  simp only [Bool.and_self]

/-! ## A small configuration -/

theorem parse_own_text (c : InitConfig) : parse c.text = .ok c := by
  obtain ⟨text, root, hparse⟩ := c
  unfold parse
  split
  · rename_i found hfound
    cases hparse.symm.trans hfound
    rfl
  · rename_i e he
    cases hparse.symm.trans he

def webStart (version : Nat) : Element :=
  writtenElement "start".toList
    ([("name", escape "web"), ("version", escape (toString version)), ("caps", escape "7"),
      ("priority", escape "2")].map written) []

def webRoot (version : Nat) : Element :=
  writtenElement "config".toList ([("verbose", escape "yes")].map written)
    [.child (webStart version)]

theorem obeys_webRoot (version : Nat) : (Piece.child (webRoot version)).Obeys Tag.Settled := by
  have hstart : (Piece.child (webStart version)).Obeys Tag.Settled := by
    refine obeys_piece (by decide) (by decide) ?_ (by simp [PiecesObey])
    rw [List.forall_mem_map]
    refine List.forall_mem_cons.mpr ⟨written_escape (by decide) (by decide) _, ?_⟩
    refine List.forall_mem_cons.mpr ⟨written_escape (by decide) (by decide) _, ?_⟩
    refine List.forall_mem_cons.mpr ⟨written_escape (by decide) (by decide) _, ?_⟩
    exact List.forall_mem_singleton.mpr (written_escape (by decide) (by decide) _)
  refine obeys_piece (by decide) (by decide) ?_ (by simpa [PiecesObey] using hstart)
  rw [List.forall_mem_map]
  exact List.forall_mem_singleton.mpr (written_escape (by decide) (by decide) _)

/-- The configuration that starts a slice with a version. -/
def webConfig (version : Nat) : InitConfig where
  text := (webRoot version).source
  root := webRoot version
  parse_text := by
    have hobeys := obeys_webRoot version
    rw [Piece.Obeys] at hobeys
    exact parse_render hobeys.2 hobeys.1

end Overseer.InitConfig
