import Overseer.Proofs.Markup.Reading

/-!
Parsing is deriving: a text is accepted exactly when it has a derivation, which is then the only
one and is returned.  Every element and its content stand in the text where the lengths before them
say, in bytes (`Place.Fits`).
-/

namespace Overseer.Markup

/-- A range of bytes, the last of them left out. -/
structure Span where
  first : Nat
  past : Nat
  deriving DecidableEq, Repr

/-- An element with the bytes that it takes and those that its content takes. -/
structure Place where
  element : Element
  span : Span
  content : Span

mutual
/-- The elements of a tree in document order.  An element that closes itself has its empty content
after its bracket. -/
def Element.places (start : Nat) : Element → List Place
  | .empty tag =>
    let past := start + byteLength (Element.empty tag).render
    [⟨.empty tag, ⟨start, past⟩, ⟨past, past⟩⟩]
  | .closed tag content gap =>
    let inner := start + byteLength (tag.render ++ ['>'])
    ⟨.closed tag content gap, ⟨start, start + byteLength (Element.closed tag content gap).render⟩,
      ⟨inner, inner + byteLength (renderPieces content)⟩⟩ :: placesOf inner content

def Piece.places (start : Nat) : Piece → List Place
  | .char _ => []
  | .markup _ => []
  | .child e => e.places start

def placesOf (start : Nat) : List Piece → List Place
  | [] => []
  | p :: ps => p.places start ++ placesOf (start + byteLength p.render) ps
end

def Document.places (d : Document) : List Place :=
  d.root.places (byteLength (d.prolog.flatMap Misc.render))

/-- The bytes of a span of the text are those of `part`. -/
def StandsAt (text : List Char) (span : Span) (part : List Char) : Prop :=
  ∃ before after, text = before ++ part ++ after ∧ byteLength before = span.first ∧
    byteLength (before ++ part) = span.past

/-- The source of an element and that of its content stand where its place says. -/
def Place.Fits (text : List Char) (p : Place) : Prop :=
  StandsAt text p.span p.element.render ∧ StandsAt text p.content (renderPieces p.element.content)

theorem byteLength_append (s t : List Char) :
    byteLength (s ++ t) = byteLength s + byteLength t := by
  rw [byteLength, String.ofList_append, String.utf8ByteSize_append, ← byteLength, ← byteLength]

theorem StandsAt.intro {text before part after : List Char} {span : Span}
    (htext : text = before ++ part ++ after) (hfirst : byteLength before = span.first)
    (hpast : span.past = span.first + byteLength part) : StandsAt text span part := by
  refine ⟨before, after, htext, hfirst, ?_⟩
  rw [byteLength_append, hfirst, hpast]

mutual
theorem fits_element (e : Element) {text before after : List Char} {start : Nat}
    (htext : text = before ++ e.render ++ after) (hstart : byteLength before = start) :
    ∀ p ∈ e.places start, p.Fits text := by
  cases e with
  | empty tag =>
    intro p hp
    rw [Element.places, List.mem_singleton] at hp
    subst hp
    have hcontent : text = before ++ (Element.empty tag).render ++ [] ++ after := by
      rw [htext]
      simp
    refine ⟨.intro htext hstart rfl, .intro hcontent ?_ rfl⟩
    rw [byteLength_append, hstart]
  | closed tag content gap =>
    have htext' : text = before ++ (tag.render ++ ['>']) ++ renderPieces content ++
        ('<' :: '/' :: tag.name ++ gap ++ ['>'] ++ after) := by
      rw [htext]
      simp [Element.render]
    have hinner : byteLength (before ++ (tag.render ++ ['>'])) =
        start + byteLength (tag.render ++ ['>']) := by
      rw [byteLength_append, hstart]
    intro p hp
    rw [Element.places] at hp
    rcases List.mem_cons.mp hp with rfl | hp
    · exact ⟨.intro htext hstart rfl, .intro htext' hinner rfl⟩
    · exact fits_pieces content htext' hinner p hp

theorem fits_piece (q : Piece) {text before after : List Char} {start : Nat}
    (htext : text = before ++ q.render ++ after) (hstart : byteLength before = start) :
    ∀ p ∈ q.places start, p.Fits text := by
  cases q with
  | char c => simp [Piece.places]
  | markup s => simp [Piece.places]
  | child e => exact fits_element e htext hstart

theorem fits_pieces (qs : List Piece) {text before after : List Char} {start : Nat}
    (htext : text = before ++ renderPieces qs ++ after) (hstart : byteLength before = start) :
    ∀ p ∈ placesOf start qs, p.Fits text := by
  cases qs with
  | nil => simp [placesOf]
  | cons q qs =>
    have hfirst : text = before ++ q.render ++ (renderPieces qs ++ after) := by
      rw [htext]
      simp [renderPieces]
    have hrest : text = before ++ q.render ++ renderPieces qs ++ after := by
      rw [hfirst]
      simp
    have hpast : byteLength (before ++ q.render) = start + byteLength q.render := by
      rw [byteLength_append, hstart]
    intro p hp
    rw [placesOf] at hp
    rcases List.mem_append.mp hp with hp | hp
    · exact fits_piece q hfirst hstart p hp
    · exact fits_pieces qs hrest hpast p hp
end

theorem Document.fits (d : Document) : ∀ p ∈ d.places, p.Fits d.render :=
  fits_element d.root rfl rfl

/-! ## Derivations -/

theorem documentParse_eq_ok_iff {text : String} {d : Document} :
    Document.parse text = .ok d ↔ d.Derives text := by
  have hread : Document.parse text = .ok d ↔ readDocument text.toList = .ok d := by
    rw [Document.parse]
    cases readDocument text.toList <;> simp [Except.mapError]
  rw [hread, readDocument_eq_ok_iff]
  exact ⟨fun ⟨hobeys, hplain, htext⟩ => ⟨hobeys, hplain, htext⟩,
    fun h => ⟨h.obeys, h.plain, h.render⟩⟩

theorem elementParse_eq_ok_iff {text : String} {e : Element} :
    Element.parse text = .ok e ↔ ∃ d : Document, d.Derives text ∧ d.root = e := by
  simp only [← documentParse_eq_ok_iff]
  rw [Element.parse]
  cases Document.parse text <;> simp [Except.map]

theorem exists_of_parse {α : Type} (text : String) (f : Document → α) {a : α}
    (h : (Document.parse text).toOption.map f = some a) :
    ∃ d, Document.parse text = .ok d ∧ f d = a := by
  cases hparse : Document.parse text with
  | error e => simp [hparse, Except.toOption] at h
  | ok d => exact ⟨d, rfl, by simpa [hparse, Except.toOption] using h⟩

/-- A text is accepted exactly when it has a derivation.  That is the only one and is returned, and
its elements and their contents take the bytes that their places say. -/
theorem parse_eq_ok_iff_derives (text : String) :
    (∀ e, Element.parse text = .ok e ↔ ∃ d : Document, d.Derives text ∧ d.root = e) ∧
    (∀ d, Document.parse text = .ok d ↔ d.Derives text) ∧
    (∀ d d' : Document, d.Derives text → d'.Derives text → d = d') ∧
    (∀ d : Document, d.Derives text → ∀ p ∈ d.places, p.Fits text.toList) := by
  refine ⟨fun e => elementParse_eq_ok_iff, fun d => documentParse_eq_ok_iff, ?_, ?_⟩
  · intro d d' h h'
    rw [← documentParse_eq_ok_iff] at h h'
    exact Except.ok.inj (h.symm.trans h')
  · intro d h
    rw [← h.render]
    exact d.fits

/-! With the rules for the parts alone there are documents that are refused. -/

/-- A tag with an attribute whose name is NUL. -/
def nulTag : Tag := ⟨['a'], [⟨[' '], ['\x00'], [], [], .double, ['x']⟩], []⟩

/-- A tag that looks like a declaration. -/
def bangTag : Tag := ⟨['!', 'a'], [], []⟩

theorem nulTag_formed : nulTag.Formed := by
  have hattribute : ∀ a ∈ nulTag.attributes, a.Formed := by
    intro a ha
    obtain rfl := List.mem_singleton.mp ha
    refine ⟨?_, ⟨?_, ?_⟩, ?_, ?_, ?_, ?_⟩
    · simp [AllBlank, isBlank, isSpace]
    · simp
    · simp [isNameChar, isSpace]
    · intro c hc
      cases hc
      decide
    · simp [AllBlank]
    · simp [AllBlank]
    · decide
  refine ⟨by decide, ?_, hattribute, by simp [nulTag, AllBlank]⟩
  intro c hc
  cases hc
  decide

theorem bangTag_formed : bangTag.Formed := by
  refine ⟨by decide, ?_, by simp [bangTag], by simp [bangTag, AllBlank]⟩
  intro c hc
  cases hc

theorem not_ok_of_isNone {r : Except Error Element} (h : r.toOption.isNone = true) (e : Element) :
    r ≠ .ok e := by
  rintro rfl
  simp [Except.toOption] at h

theorem formed_documents_refused :
    (∃ d : Document, d.Obeys Tag.Formed ∧ d.render = "<a \x00=\"x\"/>".toList) ∧
    (∀ e, Element.parse "<a \x00=\"x\"/>" ≠ .ok e) ∧
    (∃ d : Document, d.Obeys Tag.Formed ∧ d.render = "<!a/>".toList) ∧
    ∀ e, Element.parse "<!a/>" ≠ .ok e := by
  have hnul : (Element.parse "<a \x00=\"x\"/>").toOption.isNone = true := by
    decide +kernel
  have hbang : (Element.parse "<!a/>").toOption.isNone = true := by
    decide +kernel
  refine ⟨⟨⟨[], .empty nulTag, []⟩, ⟨by simp, ?_, by simp⟩, by decide⟩, not_ok_of_isNone hnul,
    ⟨⟨[], .empty bangTag, []⟩, ⟨by simp, ?_, by simp⟩, by decide⟩, not_ok_of_isNone hbang⟩
  · rw [Element.Obeys]
    exact nulTag_formed
  · rw [Element.Obeys]
    exact bangTag_formed

end Overseer.Markup
