import Overseer.Markup.Query
import Overseer.Proofs.Markup.Truncation
import Overseer.Proofs.Markup.Writing

/-!
Elements in their places.  In a document every element stands around its content and its content
around its children, which follow one another, and all of them start and end between characters
(`Place.Nested`, `Place.OnBorders`).  What an element is does not depend on what stands around it:
its source alone is read as the same element, and its content between other tags is read as the same
content (`parse_relocated`).
-/

namespace Overseer.Markup

/-! ## Places of children -/

/-- The bytes of the content of an element that starts at a byte. -/
def Element.contentSpan (start : Nat) : Element → Span
  | .empty tag =>
    let past := start + byteLength (Element.empty tag).render
    ⟨past, past⟩
  | .closed tag content _ =>
    let inner := start + byteLength (tag.render ++ ['>'])
    ⟨inner, inner + byteLength (renderPieces content)⟩

/-- The place of an element that starts at a byte. -/
def Element.place (start : Nat) (e : Element) : Place :=
  ⟨e, ⟨start, start + byteLength e.render⟩, e.contentSpan start⟩

/-- The places of the children among pieces of which the first starts at a byte. -/
def childPlaces (start : Nat) : List Piece → List Place
  | [] => []
  | p :: ps =>
    (p.element?.map (Element.place start)).toList ++ childPlaces (start + byteLength p.render) ps

def Place.children (p : Place) : List Place := childPlaces p.content.first p.element.content

theorem places_eq (e : Element) (start : Nat) :
    e.places start = e.place start :: placesOf (e.contentSpan start).first e.content := by
  cases e with
  | empty tag => rw [Element.places]; rfl
  | closed tag content gap => rw [Element.places]; rfl

theorem element_childPlaces (start : Nat) (ps : List Piece) :
    (childPlaces start ps).map Place.element = ps.filterMap Piece.element? := by
  induction ps generalizing start with
  | nil => rfl
  | cons p ps ih =>
    rw [childPlaces, List.map_append, ih]
    cases p <;> rfl

theorem mem_placesOf_of_child {start : Nat} {ps : List Piece} {q : Place}
    (hq : q ∈ childPlaces start ps) : q ∈ placesOf start ps := by
  induction ps generalizing start with
  | nil => cases hq
  | cons p ps ih =>
    rw [childPlaces] at hq
    rw [placesOf]
    rcases List.mem_append.mp hq with hq | hq
    · cases p with
      | char c => cases hq
      | markup text => cases hq
      | child e =>
        obtain rfl := List.mem_singleton.mp hq
        rw [Piece.places, places_eq]
        exact List.mem_append_left _ (List.mem_cons_self ..)
    · exact List.mem_append_right _ (ih hq)

/-! ## Nesting -/

/-- The spans of an element, of its content and of its children lie in each other and follow one
another as they are to. -/
structure Place.Nested (p : Place) : Prop where
  first : p.span.first ≤ p.content.first
  content : p.content.first ≤ p.content.past
  past : p.content.past ≤ p.span.past
  inside : ∀ q ∈ p.children, p.content.first ≤ q.span.first ∧ q.span.past ≤ p.content.past
  nonempty : ∀ q ∈ p.children, q.span.first < q.span.past
  ordered : p.children.Pairwise fun q r => q.span.past ≤ r.span.first

theorem renderPieces_cons (p : Piece) (ps : List Piece) :
    byteLength (renderPieces (p :: ps)) = byteLength p.render + byteLength (renderPieces ps) := by
  rw [renderPieces, byteLength_append]

theorem byteLength_render_pos (e : Element) : 0 < byteLength e.render := by
  obtain ⟨s, hs⟩ := e.exists_render_eq
  have hbracket : 0 < Char.utf8Size '<' := by decide
  rw [hs, Tag.render, List.cons_append, List.cons_append, List.cons_append, byteLength,
    String.ofList_cons, String.utf8ByteSize_append, String.utf8ByteSize_singleton]
  omega

theorem within_childPlaces {start : Nat} {ps : List Piece} {q : Place}
    (hq : q ∈ childPlaces start ps) :
    start ≤ q.span.first ∧ q.span.first < q.span.past ∧
      q.span.past ≤ start + byteLength (renderPieces ps) := by
  induction ps generalizing start with
  | nil => cases hq
  | cons p ps ih =>
    rw [childPlaces] at hq
    rw [renderPieces_cons]
    rcases List.mem_append.mp hq with hq | hq
    · cases p with
      | char c => cases hq
      | markup text => cases hq
      | child e =>
        obtain rfl := List.mem_singleton.mp hq
        have hpos := byteLength_render_pos e
        simp only [Element.place, Piece.render]
        omega
    · have hrest := ih hq
      omega

theorem ordered_childPlaces (start : Nat) (ps : List Piece) :
    (childPlaces start ps).Pairwise fun q r => q.span.past ≤ r.span.first := by
  induction ps generalizing start with
  | nil => exact .nil
  | cons p ps ih =>
    rw [childPlaces, List.pairwise_append]
    refine ⟨?_, ih _, fun q hq r hr => ?_⟩
    · cases p <;> simp [Piece.element?]
    · have hlater := (within_childPlaces hr).1
      cases p with
      | char c => cases hq
      | markup text => cases hq
      | child e =>
        obtain rfl := List.mem_singleton.mp hq
        exact hlater

theorem contentSpan_past (e : Element) (start : Nat) : (e.contentSpan start).past =
    (e.contentSpan start).first + byteLength (renderPieces e.content) := by
  cases e <;> rfl

theorem nested_place (e : Element) (start : Nat) : (e.place start).Nested := by
  have hspan : start ≤ (e.contentSpan start).first ∧
      (e.contentSpan start).past ≤ start + byteLength e.render := by
    cases e with
    | empty tag => simp [Element.contentSpan]
    | closed tag content gap =>
      have hrender : (Element.closed tag content gap).render =
          (tag.render ++ ['>']) ++ renderPieces content ++ ('<' :: '/' :: tag.name ++ gap ++ ['>'])
          := by simp [Element.render]
      rw [hrender, byteLength_append, byteLength_append]
      simp only [Element.contentSpan]
      omega
  have hpast := contentSpan_past e start
  refine ⟨hspan.1, by simp only [Element.place]; omega, hspan.2, fun q hq => ?_, fun q hq => ?_,
    ordered_childPlaces ..⟩
  · obtain ⟨hfirst, _, hlast⟩ := within_childPlaces hq
    exact ⟨hfirst, hpast ▸ hlast⟩
  · exact (within_childPlaces hq).2.1

/-! ## Borders of characters -/

/-- The spans start and end where characters do. -/
structure Place.OnBorders (text : String) (p : Place) : Prop where
  first : String.Pos.Raw.IsValid text ⟨p.span.first⟩
  past : String.Pos.Raw.IsValid text ⟨p.span.past⟩
  contentFirst : String.Pos.Raw.IsValid text ⟨p.content.first⟩
  contentPast : String.Pos.Raw.IsValid text ⟨p.content.past⟩

theorem isValid_of_append {text : String} {before after : List Char}
    (h : text.toList = before ++ after) : String.Pos.Raw.IsValid text ⟨byteLength before⟩ := by
  refine String.Pos.Raw.isValid_iff_exists_append.mpr ⟨.ofList before, .ofList after, ?_, ?_⟩
  · rw [← String.ofList_append, ← h, String.ofList_toList]
  · rfl

theorem StandsAt.borders {text : String} {span : Span} {part : List Char}
    (h : StandsAt text.toList span part) :
    String.Pos.Raw.IsValid text ⟨span.first⟩ ∧ String.Pos.Raw.IsValid text ⟨span.past⟩ := by
  obtain ⟨before, after, htext, hfirst, hpast⟩ := h
  rw [← hfirst, ← hpast]
  exact ⟨isValid_of_append (htext.trans (List.append_assoc ..)), isValid_of_append htext⟩

theorem Place.Fits.onBorders {text : String} {p : Place} (h : p.Fits text.toList) :
    p.OnBorders text :=
  ⟨h.1.borders.1, h.1.borders.2, h.2.borders.1, h.2.borders.2⟩

/-! ## The places of a document -/

/-- The element obeys the grammar, and its content stands where its start tag ends. -/
structure Place.Proper (p : Place) : Prop where
  obeys : p.element.Obeys Tag.Settled
  plain : ¬ p.element.tag.OpensMarkup
  place : p = p.element.place p.span.first

mutual
theorem proper_element {e : Element} (he : e.Obeys Tag.Settled) (hplain : ¬ e.tag.OpensMarkup)
    {start : Nat} {p : Place} (hp : p ∈ e.places start) :
    p.Proper ∧ ∀ q ∈ p.children, q ∈ e.places start := by
  cases e with
  | empty tag =>
    rw [places_eq] at hp ⊢
    simp only [Element.content, placesOf, List.mem_singleton] at hp ⊢
    subst hp
    exact ⟨⟨he, hplain, rfl⟩, fun q hq => nomatch hq⟩
  | closed tag content gap =>
    have hcontent := he.content
    rw [places_eq] at hp ⊢
    rcases List.mem_cons.mp hp with rfl | hp
    · exact ⟨⟨he, hplain, rfl⟩, fun q hq => List.mem_cons_of_mem _ (mem_placesOf_of_child hq)⟩
    · obtain ⟨hproper, hchildren⟩ := proper_pieces hcontent hp
      exact ⟨hproper, fun q hq => List.mem_cons_of_mem _ (hchildren q hq)⟩

theorem proper_piece {q : Piece} (hq : q.Obeys Tag.Settled) {start : Nat} {p : Place}
    (hp : p ∈ q.places start) : p.Proper ∧ ∀ r ∈ p.children, r ∈ q.places start := by
  cases q with
  | char c => simp [Piece.places] at hp
  | markup text => simp [Piece.places] at hp
  | child e =>
    rw [Piece.Obeys] at hq
    rw [Piece.places] at hp ⊢
    exact proper_element hq.2 hq.1 hp

theorem proper_pieces {ps : List Piece} (hps : PiecesObey Tag.Settled ps) {start : Nat} {p : Place}
    (hp : p ∈ placesOf start ps) : p.Proper ∧ ∀ q ∈ p.children, q ∈ placesOf start ps := by
  cases ps with
  | nil => simp [placesOf] at hp
  | cons r ps =>
    rw [PiecesObey] at hps
    rw [placesOf] at hp ⊢
    rcases List.mem_append.mp hp with hp | hp
    · obtain ⟨hproper, hchildren⟩ := proper_piece hps.1 hp
      exact ⟨hproper, fun q hq => List.mem_append_left _ (hchildren q hq)⟩
    · obtain ⟨hproper, hchildren⟩ := proper_pieces hps.2 hp
      exact ⟨hproper, fun q hq => List.mem_append_right _ (hchildren q hq)⟩
end

/-! ## Relocation -/

/-- Content between a start tag and a closing tag that matches it. -/
def Tag.enclose (t : Tag) (gap : List Char) (content : String) : String :=
  .ofList (t.render ++ '>' :: (content.toList ++ '<' :: '/' :: t.name ++ gap ++ ['>']))

theorem source_closed (tag : Tag) (content : List Piece) (gap : List Char) :
    (Element.closed tag content gap).source =
      tag.enclose gap (Element.closed tag content gap).contentSource := by
  rw [Tag.enclose, Element.contentSource, String.toList_ofList]
  rfl

/-- Content that obeys the grammar is read between any tags. -/
theorem parse_enclose {e : Element} (he : e.Obeys Tag.Settled) {tag : Tag} {gap : List Char}
    (htag : tag.Settled) (hplain : ¬ tag.OpensMarkup) (hgap : AllBlank gap)
    (hended : EndsName gap) : Element.parse (tag.enclose gap e.contentSource) =
      .ok (.closed tag e.content gap) := by
  have hclosed : (Element.closed tag e.content gap).Obeys Tag.Settled := by
    rw [Element.Obeys]
    exact ⟨htag, he.content, hgap, hended⟩
  have hsource : tag.enclose gap e.contentSource = (Element.closed tag e.content gap).source :=
    (source_closed tag e.content gap).symm
  rw [hsource]
  exact parse_render hclosed hplain

/-- In an accepted text every element, from the root down, stands at its place: around its content
and its children, and between characters.  Its source alone is read as the same element, and its
content between any other tags is read as the same content, with the same children. -/
theorem parse_relocated {text : String} {d : Document} (h : Document.parse text = .ok d) :
    d.root.place (byteLength (d.prolog.flatMap Misc.render)) ∈ d.places ∧
    ∀ p ∈ d.places,
      (p.children.map Place.element = p.element.children ∧ ∀ q ∈ p.children, q ∈ d.places) ∧
      p.Fits text.toList ∧ p.OnBorders text ∧ p.Nested ∧
      Element.parse p.element.source = .ok p.element ∧
      ∀ (tag : Tag) (gap : List Char), tag.Settled → ¬ tag.OpensMarkup → AllBlank gap →
        EndsName gap → ∃ e, Element.parse (tag.enclose gap p.element.contentSource) = .ok e ∧
          e.tag = tag ∧ e.children = p.element.children ∧
          e.contentSource = p.element.contentSource := by
  have hderives := documentParse_eq_ok_iff.mp h
  refine ⟨?_, fun p hp => ?_⟩
  · rw [Document.places, places_eq]
    exact List.mem_cons_self ..
  obtain ⟨hproper, hchildren⟩ := proper_element hderives.obeys.root hderives.plain hp
  have hfits : p.Fits text.toList := hderives.render ▸ d.fits p hp
  have hnested : p.Nested := by
    rw [hproper.place]
    exact nested_place ..
  refine ⟨⟨element_childPlaces .., hchildren⟩, hfits, hfits.onBorders, hnested,
    parse_render hproper.obeys hproper.plain, fun tag gap htag hplain hgap hended => ?_⟩
  exact ⟨_, parse_enclose hproper.obeys htag hplain hgap hended, rfl, rfl, rfl⟩

/-- A child behind a letter of two bytes, with another one and a comment in its content. -/
theorem child_parse_relocated : ∃ d p,
    Document.parse "<?x?><a n='<'>ü<b><!--<d>-->ü<c/></b></a>" = .ok d ∧ p ∈ d.places ∧
      p.span = ⟨16, 39⟩ ∧ p.content = ⟨19, 35⟩ ∧ p.children.map Place.span = [⟨31, 35⟩] ∧
      Element.parse "<b><!--<d>-->ü<c/></b>" = .ok p.element ∧
      ∃ e, Element.parse "<e f='1'><!--<d>-->ü<c/></e >" = .ok e ∧
        e.children = p.element.children := by
  let shown (p : Place) := (p.span, p.content, p.children.map Place.span, p.element.source,
    p.element.contentSource)
  obtain ⟨d, hparse, hshown⟩ := exists_of_parse "<?x?><a n='<'>ü<b><!--<d>-->ü<c/></b></a>"
    (fun d => d.places[1]?.map shown)
    (a := some (⟨16, 39⟩, ⟨19, 35⟩, [⟨31, 35⟩], "<b><!--<d>-->ü<c/></b>", "<!--<d>-->ü<c/>"))
    (by decide +kernel)
  obtain ⟨p, hp, hshown⟩ := Option.map_eq_some_iff.mp hshown
  simp only [shown, Prod.mk.injEq] at hshown
  obtain ⟨hspan, hcontent, hchildren, hsource, hcontentSource⟩ := hshown
  have hmem : p ∈ d.places := List.mem_of_getElem? hp
  obtain ⟨-, hplaces⟩ := parse_relocated hparse
  obtain ⟨-, -, -, -, hreparsed, henclosed⟩ := hplaces p hmem
  let tag : Tag := ⟨['e'], [⟨[' '], ['f'], [], [], .single, ['1']⟩], []⟩
  have htag : tag.Settled := by
    have hread : readTag "e f='1'>".toList = .ok ((tag, false), []) := by decide +kernel
    exact (readTag_sound hread).2
  obtain ⟨e, hread, -, hsame, -⟩ := henclosed _ [' '] htag (by simp [Tag.OpensMarkup, tag])
    (by simp [AllBlank, isBlank, isSpace]) (by simp [EndsName, isNameChar, isSpace])
  rw [hcontentSource] at hread
  rw [hsource] at hreparsed
  exact ⟨d, p, hparse, hmem, hspan, hcontent, hchildren, hreparsed, e, hread, hsame⟩

end Overseer.Markup
