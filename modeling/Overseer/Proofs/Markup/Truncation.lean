import Overseer.Proofs.Markup.Span

/-!
Documents that were cut off.  A document up to the end of its root element tells its prolog and its
root whatever stands behind (`head_inj`), so no text that stops earlier is a document
(`parse_cut_off`), wherever in the root element or before it the cut falls.
-/

namespace Overseer.Markup

/-! ## Lengths in bytes -/

theorem byteLength_toList (text : String) : byteLength text.toList = text.utf8ByteSize := by
  rw [byteLength, String.ofList_toList]

theorem byteLength_le_of_isPrefix {s t : List Char} (h : s <+: t) : byteLength s ≤ byteLength t := by
  obtain ⟨r, rfl⟩ := h
  rw [byteLength_append]
  exact Nat.le_add_right ..

/-! ## Heads -/

/-- A document up to the end of its root element. -/
def Document.head (d : Document) : List Char := d.prolog.flatMap Misc.render ++ d.root.render

theorem Document.prefix_head (d : Document) : d.head <+: d.render :=
  List.prefix_append ..

/-- What stands in front of the root element of a document, and that element, can be read whatever
comes behind. -/
theorem readMisc_head {d : Document} (hd : d.Obeys Tag.Settled) (hplain : ¬ d.root.tag.OpensMarkup)
    (r : List Char) : readMisc (d.head ++ r) = .ok (d.prolog, d.root.render ++ r) := by
  rw [Document.head, List.append_assoc]
  exact readMisc_complete hd.prolog (miscEnds_element hd.root hplain r)

/-- No two documents start the same text, unless their prologs and roots are the same. -/
theorem head_inj {d d' : Document} (hd : d.Obeys Tag.Settled) (hplain : ¬ d.root.tag.OpensMarkup)
    (hd' : d'.Obeys Tag.Settled) (hplain' : ¬ d'.root.tag.OpensMarkup) {r r' : List Char}
    (h : d.head ++ r = d'.head ++ r') : d.prolog = d'.prolog ∧ d.root = d'.root := by
  have hmisc := readMisc_head hd hplain r
  rw [h, readMisc_head hd' hplain' r', Except.ok.injEq, Prod.mk.injEq] at hmisc
  obtain ⟨hprolog, hrest⟩ := hmisc
  have hroot := readRoot_complete hd.root hplain r
  rw [← hrest, readRoot_complete hd'.root hplain' r', Except.ok.injEq, Prod.mk.injEq] at hroot
  exact ⟨hprolog.symm, hroot.1.symm⟩

/-! ## Cuts -/

/-- Nothing that stops before the root element of a document ends is a document. -/
theorem not_derives_of_cut_off {d : Document} (hd : d.Obeys Tag.Settled)
    (hplain : ¬ d.root.tag.OpensMarkup) {s : List Char} {cut : String} (hhead : d.head <+: s)
    (hcut : cut.toList <+: s) (hshort : byteLength cut.toList < byteLength d.head)
    (d' : Document) : ¬ d'.Derives cut := by
  intro hderives
  obtain ⟨r, hr⟩ := hhead
  obtain ⟨r', hr'⟩ := (hderives.render ▸ d'.prefix_head : d'.head <+: cut.toList).trans hcut
  obtain ⟨hprolog, hroot⟩ :=
    head_inj hd hplain hderives.obeys hderives.plain (hr.trans hr'.symm)
  have hsame : d.head = d'.head := by
    rw [Document.head, Document.head, hprolog, hroot]
  have hle := byteLength_le_of_isPrefix d'.prefix_head
  rw [hderives.render, ← hsame] at hle
  omega

theorem parse_cut_off {d : Document} (hd : d.Obeys Tag.Settled)
    (hplain : ¬ d.root.tag.OpensMarkup) {s : List Char} {cut : String} (hhead : d.head <+: s)
    (hcut : cut.toList <+: s) (hshort : byteLength cut.toList < byteLength d.head) :
    ∃ e, Element.parse cut = .error e := by
  cases hparse : Element.parse cut with
  | error e => exact ⟨e, rfl⟩
  | ok e =>
    obtain ⟨d', hderives, _⟩ := elementParse_eq_ok_iff.mp hparse
    exact absurd hderives (not_derives_of_cut_off hd hplain hhead hcut hshort d')

end Overseer.Markup
