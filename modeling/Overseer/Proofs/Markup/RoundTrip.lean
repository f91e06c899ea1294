import Overseer.Markup.Query
import Overseer.Proofs.Markup.Writing

/-!
Trees of elements, written and read back.  `Tree.instr` writes a tree and `Element.tree` is the tree
that an element shows.  The parser undoes the writer on every tree whose names can be written
(`parse_written_tree`), whatever the attributes say.
-/

namespace Overseer.Markup

/-- What a program sees of an element: its name, its attributes with their decoded values, and its
children. -/
inductive Tree where
  | node (name : String) (attributes : List (String × String)) (children : List Tree)

/-! ## Writing and showing -/

mutual
def Tree.instr : Tree → Instr
  | .node name attributes children =>
    .node name (attributes.map (fun a => .attribute a.1 a.2) ++ treeDraft children)

def treeDraft : List Tree → Draft
  | [] => []
  | t :: ts => t.instr :: treeDraft ts
end

/-- The attributes of a tag in order, with their values decoded. -/
def Tag.decoded (t : Tag) : List (String × String) :=
  t.attributes.map fun a => (.ofList a.name, .ofList (Reference.decode a.value))

mutual
def Element.tree : Element → Tree
  | .empty tag => .node (.ofList tag.name) tag.decoded []
  | .closed tag content _ => .node (.ofList tag.name) tag.decoded (treesOf content)

def Piece.tree? : Piece → Option Tree
  | .char _ => none
  | .markup _ => none
  | .child e => some e.tree

def treesOf : List Piece → List Tree
  | [] => []
  | p :: ps => p.tree?.toList ++ treesOf ps
end

theorem tree_eq_of_parts (e : Element) :
    e.tree = .node (.ofList e.tag.name) e.tag.decoded (treesOf e.content) := by
  cases e with
  | empty tag =>
    rw [Element.tree, Element.content, treesOf]
    rfl
  | closed tag content gap =>
    rw [Element.tree]
    rfl

theorem treesOf_eq_children (ps : List Piece) :
    treesOf ps = (ps.filterMap Piece.element?).map Element.tree := by
  induction ps with
  | nil => rw [treesOf, List.filterMap_nil, List.map_nil]
  | cons p ps ih => cases p <;> simp [treesOf, Piece.tree?, Piece.element?, List.filterMap_cons, ih]

/-- The tree of an element is what the queries answer. -/
theorem tree_eq_of_queries (e : Element) : e.tree = .node e.name
    (e.attributes.map fun a => (a.1, .ofList (Reference.decode a.2.toList)))
    (e.children.map Element.tree) := by
  have hdecoded : e.tag.decoded =
      e.attributes.map fun a => (a.1, .ofList (Reference.decode a.2.toList)) := by
    simp [Tag.decoded, Element.attributes, Function.comp_def]
  rw [tree_eq_of_parts, hdecoded, treesOf_eq_children]
  rfl

/-! ## Trees that can be written -/

mutual
/-- Names are made of the characters of names; an element is not to look like a declaration or an
instruction, nor the name of an attribute like a blank. -/
def Tree.Writable : Tree → Prop
  | .node name attributes children =>
    (IsName name.toList ∧ name.toList.head? ≠ some '!' ∧ name.toList.head? ≠ some '?') ∧
    (∀ a ∈ attributes, IsName a.1.toList ∧ a.1.toList.head? ≠ some '\x00') ∧ AllWritable children

def AllWritable : List Tree → Prop
  | [] => True
  | t :: ts => t.Writable ∧ AllWritable ts
end

/-- The attributes of a tree as they are written. -/
def encoded (attributes : List (String × String)) : List Attribute :=
  attributes.map fun a => writtenAttribute a.1.toList (Reference.encode a.2.toList)

mutual
/-- The element that is written for a tree. -/
def Tree.element : Tree → Element
  | .node name attributes children =>
    writtenElement name.toList (encoded attributes) (treePieces children)

def treePieces : List Tree → List Piece
  | [] => []
  | t :: ts => .child t.element :: treePieces ts
end

theorem tag_element (name : String) (attributes : List (String × String)) (children : List Tree) :
    (Tree.node name attributes children).element.tag = ⟨name.toList, encoded attributes, []⟩ := by
  rw [Tree.element, tag_writtenElement]

theorem denotes_encoded (attributes : List (String × String)) {rest : Draft} {ps : List Piece}
    (h : Denotes rest [] ps) :
    Denotes (attributes.map (fun a => .attribute a.1 a.2) ++ rest) (encoded attributes) ps := by
  induction attributes with
  | nil => exact h
  | cons a attributes ih => exact .attribute a.1 a.2 ih

mutual
theorem denotes_tree (t : Tree) {rest : Draft} {ps : List Piece} (h : Denotes rest [] ps) :
    Denotes (t.instr :: rest) [] (.child t.element :: ps) := by
  cases t with
  | node name attributes children =>
    rw [Tree.instr, Tree.element]
    exact .node name (denotes_encoded attributes (denotes_treeDraft children)) h

theorem denotes_treeDraft (ts : List Tree) : Denotes (treeDraft ts) [] (treePieces ts) := by
  cases ts with
  | nil =>
    rw [treeDraft, treePieces]
    exact .nil
  | cons t ts =>
    rw [treeDraft, treePieces]
    exact denotes_tree t (denotes_treeDraft ts)
end

theorem head_not_blank {name : List Char} (hname : IsName name) (hnul : name.head? ≠ some '\x00') :
    ∀ c, name.head? = some c → isBlank c = false := by
  intro c hc
  have hchar := hname.2 c (List.mem_of_head? hc)
  have hne : c ≠ '\x00' := fun h => hnul (h ▸ hc)
  simp only [isNameChar, Bool.not_eq_true', Bool.or_eq_false_iff] at hchar
  simp [isBlank, hchar, hne]

theorem written_encoded {attributes : List (String × String)}
    (h : ∀ a ∈ attributes, IsName a.1.toList ∧ a.1.toList.head? ≠ some '\x00') :
    ∀ a ∈ encoded attributes, Written a := by
  intro a ha
  obtain ⟨b, hb, rfl⟩ := List.mem_map.mp ha
  obtain ⟨hname, hnul⟩ := h b hb
  exact written_attribute hname (head_not_blank hname hnul) (.inl (encode_no_quote _))

mutual
theorem obeys_tree (t : Tree) (h : t.Writable) :
    t.element.Obeys Tag.Settled ∧ ¬ t.element.tag.OpensMarkup := by
  cases t with
  | node name attributes children =>
    rw [Tree.Writable] at h
    obtain ⟨⟨hname, hbang, hquery⟩, hattributes, hchildren⟩ := h
    constructor
    · rw [Tree.element]
      exact obeys_writtenElement hname (written_encoded hattributes)
        (obeys_treePieces children hchildren)
    · rw [tag_element]
      exact not_or_intro hbang hquery

theorem obeys_treePieces (ts : List Tree) (h : AllWritable ts) :
    PiecesObey Tag.Settled (treePieces ts) := by
  cases ts with
  | nil =>
    rw [treePieces, PiecesObey]
    trivial
  | cons t ts =>
    rw [AllWritable] at h
    obtain ⟨hobeys, hplain⟩ := obeys_tree t h.1
    rw [treePieces, PiecesObey, Piece.Obeys]
    exact ⟨⟨hplain, hobeys⟩, obeys_treePieces ts h.2⟩
end

theorem decoded_encoded (name : List Char) (attributes : List (String × String))
    (gap : List Char) : (⟨name, encoded attributes, gap⟩ : Tag).decoded = attributes := by
  simp [Tag.decoded, encoded, writtenAttribute, Reference.decode_encode, Function.comp_def]

mutual
/-- The element that is written shows the tree it is written for. -/
theorem tree_element (t : Tree) (h : t.Writable) : t.element.tree = t := by
  cases t with
  | node name attributes children =>
    rw [Tree.Writable] at h
    have hcontent : (writtenElement name.toList (encoded attributes) (treePieces children)).content =
        treePieces children := content_writtenElement (obeys_treePieces children h.2.2)
    rw [tree_eq_of_parts, tag_element, decoded_encoded, Tree.element, hcontent,
      treesOf_treePieces children h.2.2, String.ofList_toList]

theorem treesOf_treePieces (ts : List Tree) (h : AllWritable ts) : treesOf (treePieces ts) = ts := by
  cases ts with
  | nil => rw [treePieces, treesOf]
  | cons t ts =>
    rw [AllWritable] at h
    rw [treePieces, treesOf, Piece.tree?, tree_element t h.1, treesOf_treePieces ts h.2]
    rfl
end

/-! ## Reading what was written -/

/-- The parser undoes the writer.  Every tree that can be written is written whole where its text
fits, and nowhere else; and what the text is read as shows the same tree. -/
theorem parse_written_tree (t : Tree) (h : t.Writable) : ∃ text e,
    (∀ limit, text.utf8ByteSize ≤ limit →
      runText (t.instr.run (.new (some limit))) = .ok text) ∧
    (∀ limit, limit < text.utf8ByteSize →
      runText (t.instr.run (.new (some limit))) = .error (.bufferExceeded limit)) ∧
    Element.parse text = .ok e ∧ e.tree = t := by
  have hdenotes : Denotes [t.instr] [] [.child t.element] := denotes_tree t .nil
  have hplain : t.instr.Plain := by
    have hall := plainDraft_of_denotes hdenotes
    rw [PlainDraft] at hall
    exact hall.1
  have hrendering : t.instr.rendering = .ok (.ofList t.element.render) := by
    cases t with
    | node name attributes children =>
      rw [Tree.instr, Tree.element]
      exact rendering_of_denotes (denotes_encoded attributes (denotes_treeDraft children)) name
  obtain ⟨hobeys, hopens⟩ := obeys_tree t h
  refine ⟨_, t.element, ?_, ?_, parse_render hobeys hopens, tree_element t h⟩
  · intro limit hle
    rw [runText_within hplain hrendering, if_pos hle]
  · intro limit hlt
    rw [runText_within hplain hrendering, if_neg (Nat.not_le.mpr hlt)]

/-- A tree whose attributes repeat a name and say what looks like markup and references. -/
def noisyTree : Tree :=
  .node "a!" [("q\x00", "&#65;&lt;\"'<>\x00\n"), ("q\x00", "")]
    [.node "\x00" [] [], .node "b?" [("-", "&")] [.node "a!" [] []]]

theorem noisyTree_parse_written : noisyTree.Writable ∧ ∃ text e,
    runText (noisyTree.instr.run (.new (some text.utf8ByteSize))) = .ok text ∧
    Element.parse text = .ok e ∧ e.tree = noisyTree := by
  have hwritable : noisyTree.Writable := by
    simp only [noisyTree, Tree.Writable, AllWritable]
    decide
  obtain ⟨text, e, hfits, _, hread⟩ := parse_written_tree noisyTree hwritable
  exact ⟨hwritable, text, e, hfits _ (Nat.le_refl _), hread⟩

end Overseer.Markup
