import Overseer.Proofs.Markup.CutReading
import Overseer.Proofs.Markup.Tokens
import Overseer.Proofs.Markup.Truncation

/-!
Incomplete documents, and what is reported of them.  Up to the token that was cut a document is read
as if nothing was cut off (`build_cut`), and no token is read off its beginning (`nextToken_cut`).
So the document ends too early, and nothing else is wrong with it (`parse_incomplete`); only
directly behind the bracket of a tag or an item, where a name has to follow, a name is missed.
-/

namespace Overseer.Markup

/-! ## Tokens that were cut -/

/-- What is wrong with a text that ends within a token, of which it has these characters.  Behind a
mere bracket the name of an element is missed, whatever the bracket was to begin. -/
def cutFault (q : List Char) : Fault :=
  if q = ['<'] then .malformed [] "expected element name" else .unexpectedEnd

theorem cutFault_cons (c d : Char) (q : List Char) : cutFault (c :: d :: q) = .unexpectedEnd :=
  if_neg (by simp)

/-- Every token but a character begins with a bracket and goes on. -/
theorem Token.render_bracket {t : Token} (ht : t.Obeys) (hchar : ∀ c, t ≠ .char c) :
    ∃ s, s ≠ [] ∧ t.render = '<' :: s := by
  cases t with
  | char c => exact absurd rfl (hchar c)
  | markup text =>
    obtain ⟨c, s, rfl, _⟩ := IsMarkup.exists_cons ht
    exact ⟨c :: s, List.cons_ne_nil c s, rfl⟩
  | empty tag => exact ⟨tag.render.tail ++ ['/', '>'], by simp, rfl⟩
  | opening tag => exact ⟨tag.render.tail ++ ['>'], by simp, rfl⟩
  | closing name gap => exact ⟨'/' :: name ++ gap ++ ['>'], by simp, rfl⟩

section
variable {q w : List Char} (hw : w ≠ [])
include hw

/-- An item that was cut may look like another one, but that one has no end either. -/
theorem markup_cut {text : List Char} (htext : IsMarkup text) {c d : Char}
    (hq : c :: d :: q ++ w = text) : c = '<' ∧ d ≠ '/' ∧
      ∃ stop, markupEnd? (c :: d :: q) = some stop ∧
        readMarkup stop (c :: d :: q) = .error .unexpectedEnd := by
  obtain ⟨e, s, hs, hslash⟩ := htext.exists_cons
  rw [hs] at hq
  simp only [List.cons_append, List.cons.injEq] at hq
  obtain ⟨rfl, rfl, rfl⟩ := hq
  obtain ⟨stop, hstop, -⟩ := readMarkup_eq_ok_iff.mpr ⟨htext, List.append_nil text⟩
  have hopens : ¬ (d ≠ '!' ∧ d ≠ '?') := by
    rw [← markupEnd?_eq_none_iff (s := q ++ w), ← hs, hstop]
    simp
  obtain ⟨stop', hstop'⟩ := Option.ne_none_iff_exists'.mp (mt markupEnd?_eq_none_iff.mp hopens)
  refine ⟨rfl, hslash, stop', hstop', ?_⟩
  cases hread : readMarkup stop' ('<' :: d :: q) with
  | error f =>
    unfold readMarkup at hread
    split at hread <;> cases hread
    rfl
  | ok p =>
    -- the item found in the cut text would be the whole item
    obtain ⟨before, after⟩ := p
    obtain ⟨hbefore, happend⟩ := readMarkup_eq_ok_iff.mp ⟨stop', hstop', hread⟩
    have hfound := nextToken_markup hbefore (after ++ w)
    have hwhole := nextToken_markup htext []
    rw [← List.append_assoc, happend] at hfound
    rw [List.append_nil, hs] at hwhole
    have hsame := hfound.symm.trans hwhole
    simp only [Except.ok.injEq, Prod.mk.injEq, List.append_eq_nil_iff] at hsame
    exact absurd hsame.2.2 hw

theorem tag_cut {tag : Tag} (h : tag.Settled) (hplain : ¬ tag.OpensMarkup) (closesItself : Bool)
    {c d : Char} (hq : c :: d :: q ++ w = tag.render ++ bracket closesItself) :
    c = '<' ∧ d ≠ '/' ∧ markupEnd? (c :: d :: q) = none ∧
      readTag (d :: q) = .error .unexpectedEnd := by
  obtain ⟨e, name, hname⟩ := List.exists_cons_of_ne_nil h.name.1
  have hread := readTag_complete h closesItself []
  have hnone := (opensMarkup_iff h.toFormed (bracket closesItself)).not.mp hplain
  rw [not_not] at hnone
  have htail : tag.render = '<' :: tag.render.tail := rfl
  rw [htail, List.cons_append, List.cons_append, List.cons_append, List.cons.injEq] at hq
  obtain ⟨rfl, hq⟩ := hq
  rw [htail, List.cons_append, ← hq, markupEnd?_eq_none_iff] at hnone
  rw [List.append_nil, ← hq] at hread
  have hslash : d ≠ '/' := by
    have hd : d = e := by
      simpa [Tag.render, hname] using congrArg List.head? hq
    rintro rfl
    exact absurd (h.name.2 '/' (by rw [hname, ← hd]; exact List.mem_cons_self ..)) (by decide)
  refine ⟨rfl, hslash, markupEnd?_eq_none_iff.mpr hnone, ?_⟩
  exact (readTag_cut (List.cons_ne_nil d q) hread).ends hw

theorem closing_cut {name gap : List Char} (hname : ∀ c ∈ name, isNameChar c = true)
    (hgap : AllBlank gap) (hended : EndsName gap) {c d : Char}
    (hq : c :: d :: q ++ w = '<' :: '/' :: name ++ gap ++ ['>']) :
    c = '<' ∧ d = '/' ∧ readClosing q = .error .unexpectedEnd := by
  have hread := readClosing_complete hname hgap hended []
  simp only [List.cons_append, List.cons.injEq] at hq
  obtain ⟨rfl, rfl, hq⟩ := hq
  rw [← hq] at hread
  exact ⟨rfl, rfl, (readClosing_cut hread).ends hw⟩

/-- No token is read off its beginning. -/
theorem nextToken_cut {t : Token} (ht : t.Obeys) (hq : q ++ w = t.render) :
    nextToken q = .error (cutFault q) := by
  match q with
  | [] => rfl
  | [c] =>
    have hchar : ∀ e, t ≠ .char e := by
      rintro e rfl
      simp only [Token.render, List.cons_append, List.nil_append, List.cons.injEq] at hq
      exact hw hq.2
    obtain ⟨s, _, hs⟩ := Token.render_bracket ht hchar
    rw [hs, List.cons_append, List.cons.injEq] at hq
    rw [hq.1]
    decide
  | c :: d :: q =>
    rw [cutFault_cons]
    cases t with
    | char e => simp [Token.render] at hq
    | markup text =>
      obtain ⟨rfl, hslash, stop, hstop, hread⟩ := markup_cut hw ht hq
      simp [nextToken, hslash, hstop, hread, bind, Except.bind]
    | empty tag =>
      obtain ⟨rfl, hslash, hnone, hread⟩ := tag_cut hw ht.1 ht.2 true hq
      simp [nextToken, hslash, hnone, hread, bind, Except.bind]
    | opening tag =>
      obtain ⟨rfl, hslash, hnone, hread⟩ := tag_cut hw ht.1 ht.2 false hq
      simp [nextToken, hslash, hnone, hread, bind, Except.bind]
    | closing name gap =>
      obtain ⟨rfl, rfl, hread⟩ := closing_cut hw ht.1 ht.2.1 ht.2.2 hq
      simp [nextToken, hread]

end

/-! ## Elements that were cut -/

theorem build_of_fault {s : List Char} {f : Fault} (h : nextToken s = .error f) (frame : Frame)
    (outer : List Frame) : build frame outer s = .error f := by
  rw [build]
  split <;> rename_i heq <;> rw [h] at heq <;> cases heq
  rfl

section
variable {us vs : List Token} {t : Token} {q w : List Char} (hw : w ≠ []) (hq : q ++ w = t.render)
include hw hq

/-- The run on the cut text does what the run on the whole one does, token for token, until it comes
to the one that was cut.  The outermost element does not end before, since the whole run needs that
token. -/
theorem build_cut (hts : ∀ u ∈ us ++ t :: vs, u.Obeys) {frame : Frame} {outer : List Frame}
    {e : Element} (h : build frame outer (renderTokens (us ++ t :: vs)) = .ok (e, [])) :
    build frame outer (renderTokens us ++ q) = .error (cutFault q) := by
  induction us generalizing frame outer with
  | nil => exact build_of_fault (nextToken_cut hw (hts t (List.mem_cons_self ..)) hq) frame outer
  | cons u us ih =>
    obtain ⟨hu, hrest⟩ := List.forall_mem_cons.mp hts
    rw [List.cons_append, renderTokens_cons, build_eq_resume (nextToken_render hu _)] at h
    rw [renderTokens_cons, List.append_assoc, build_eq_resume (nextToken_render hu _)]
    cases u with
    | char c | markup text | empty tag | opening tag => exact ih hrest h
    | closing name gap =>
      simp only [resume] at h ⊢
      by_cases hname : name = frame.tag.name
      · simp only [hname, ne_eq, not_true_eq_false, if_false] at h ⊢
        cases outer with
        | nil =>
          -- nothing would be left for the token that was cut
          simp only [Except.ok.injEq, Prod.mk.injEq] at h
          have hnil := h.2
          rw [renderTokens_append, renderTokens_cons, ← hq] at hnil
          simp only [List.append_eq_nil_iff] at hnil
          exact absurd hnil.2.1.2 hw
        | cons parent outer => exact ih hrest h
      · simp [hname] at h

end

/-! ## Documents that were cut -/

theorem readDocument_of_fault {s : List Char} {f : Fault} (hs : MiscEnds s)
    (h : readRoot s = .error f) : readDocument s = .error f := by
  simp only [readDocument, readMisc_ends hs, h, bind, Except.bind]

theorem readDocument_nil : readDocument [] = .error (cutFault []) :=
  readDocument_of_fault ⟨nofun, by decide⟩ rfl

theorem readDocument_bracket : readDocument ['<'] = .error (cutFault ['<']) := by
  refine readDocument_of_fault ⟨?_, by decide⟩ rfl
  rintro c ⟨⟩
  decide

theorem readMisc_items {ms : List Misc} (hms : ∀ m ∈ ms, m.Obeys) (s : List Char) :
    readMisc (ms.flatMap Misc.render ++ s) = (readMisc s).map fun p => (ms ++ p.1, p.2) := by
  induction ms with
  | nil =>
    rw [List.flatMap_nil, List.nil_append]
    cases readMisc s <;> rfl
  | cons m ms ih =>
    obtain ⟨hm, hrest⟩ := List.forall_mem_cons.mp hms
    rw [List.flatMap_cons, List.append_assoc]
    have hfirst : readMisc (m.render ++ (ms.flatMap Misc.render ++ s)) =
        (readMisc (ms.flatMap Misc.render ++ s)).map fun p => (m :: p.1, p.2) := by
      cases m with
      | blank c => exact readMisc_blank hm _
      | markup text => exact readMisc_item hm _
    rw [hfirst, ih hrest]
    cases readMisc s <;> rfl

/-- What stands in front of a document adds nothing to what is wrong with it. -/
theorem readDocument_prolog {ms : List Misc} (hms : ∀ m ∈ ms, m.Obeys) {s : List Char} {f : Fault}
    (h : readDocument s = .error f) : readDocument (ms.flatMap Misc.render ++ s) = .error f := by
  simp only [readDocument, bind, Except.bind, readMisc_items hms] at h ⊢
  cases hmisc : readMisc s with
  | error g => simpa [hmisc, Except.map] using h
  | ok p =>
    simp only [hmisc, Except.map] at h ⊢
    cases hroot : readRoot p.2 with
    | error g => simpa [hroot] using h
    | ok root =>
      simp only [hroot] at h ⊢
      cases hepilog : readMisc root.2 with
      | error g => simpa [hepilog] using h
      | ok epilog =>
        simp only [hepilog] at h ⊢
        split at h
        · cases h
        · rename_i hrest
          rw [if_neg hrest]
          exact h

section
variable {q w : List Char} (hw : w ≠ [])
include hw

theorem misc_cut {m : Misc} (hm : m.Obeys) (hq : q ++ w = m.render) :
    readDocument q = .error (cutFault q) := by
  match q with
  | [] => exact readDocument_nil
  | [c] =>
    cases m with
    | blank e => simp [Misc.render, hw] at hq
    | markup text =>
      obtain ⟨d, s, hs, _⟩ := IsMarkup.exists_cons hm
      rw [Misc.render, hs, List.cons_append, List.cons.injEq] at hq
      rw [hq.1]
      exact readDocument_bracket
  | c :: d :: q =>
    rw [cutFault_cons]
    cases m with
    | blank e => simp [Misc.render] at hq
    | markup text =>
      obtain ⟨rfl, _, stop, hstop, hread⟩ := markup_cut hw hm hq
      have hmisc : readMisc ('<' :: d :: q) = .error .unexpectedEnd := by
        rw [readMisc, if_neg (by decide)]
        split <;> rename_i heq <;> cases hstop.symm.trans heq
        split <;> rename_i heq <;> cases hread.symm.trans heq
        rfl
      simp only [readDocument, hmisc, bind, Except.bind]

theorem rootTag_cut {tag : Tag} (htag : tag.Settled) (hplain : ¬ tag.OpensMarkup)
    (closesItself : Bool) (hq : q ++ w = tag.render ++ bracket closesItself) :
    readDocument q = .error (cutFault q) := by
  match q with
  | [] => exact readDocument_nil
  | [c] =>
    rw [show tag.render = '<' :: tag.render.tail from rfl, List.cons_append, List.cons_append,
      List.cons.injEq] at hq
    rw [hq.1]
    exact readDocument_bracket
  | c :: d :: q =>
    rw [cutFault_cons]
    obtain ⟨rfl, _, hnone, hread⟩ := tag_cut hw htag hplain closesItself hq
    refine readDocument_of_fault ⟨?_, hnone⟩ ?_
    · rintro c ⟨⟩
      decide
    · simp only [readRoot, expect_eq_ok_iff.mpr rfl, hread, bind, Except.bind]

variable {us vs : List Token} {t : Token} (hq : q ++ w = t.render)
include hq

theorem root_cut {e : Element} (he : e.Obeys Tag.Settled) (hplain : ¬ e.tag.OpensMarkup)
    (hsplit : e.tokens = us ++ t :: vs) :
    readDocument (renderTokens us ++ q) = .error (cutFault q) := by
  have hts := obey_element he hplain
  have hread := readRoot_complete he hplain []
  rw [List.append_nil, ← renderTokens_element, hsplit] at hread
  rw [hsplit] at hts
  cases us with
  | nil =>
    cases e with
    | empty tag =>
      rw [Element.Obeys] at he
      simp only [Element.tokens, List.nil_append, List.cons.injEq] at hsplit
      rw [← hsplit.1] at hq
      exact rootTag_cut hw he hplain true hq
    | closed tag content gap =>
      simp only [Element.tokens, List.nil_append, List.cons.injEq] at hsplit
      rw [← hsplit.1] at hq
      exact rootTag_cut hw he.tag hplain false hq
  | cons u us =>
    cases e with
    | empty tag => simp [Element.tokens] at hsplit
    | closed tag content gap =>
      simp only [Element.tokens, List.cons_append, List.cons.injEq] at hsplit
      obtain ⟨rfl, hsplit⟩ := hsplit
      have htag : tag.Settled := he.tag
      rw [List.cons_append, renderTokens_cons, readRoot_opening htag] at hread
      rw [renderTokens_cons, List.append_assoc]
      refine readDocument_of_fault ?_ ?_
      · rw [Token.render, List.append_assoc]
        exact miscEnds_tag htag hplain _
      · rw [readRoot_opening htag]
        exact build_cut hw hq (List.forall_mem_cons.mp hts).2 hread

end

/-! ## The cut among the tokens -/

/-- What stops within a sequence of tokens stops within one of them. -/
theorem exists_split_tokens {ts : List Token} {cut : List Char} (hcut : cut <+: renderTokens ts)
    (hshort : cut ≠ renderTokens ts) : ∃ us t vs q w, ts = us ++ t :: vs ∧
      cut = renderTokens us ++ q ∧ q ++ w = t.render ∧ w ≠ [] := by
  induction ts generalizing cut with
  | nil => exact absurd (List.prefix_nil.mp hcut) hshort
  | cons t ts ih =>
    rw [renderTokens_cons] at hcut hshort
    by_cases htoken : t.render <+: cut
    · obtain ⟨cut, rfl⟩ := htoken
      rw [List.prefix_append_right_inj] at hcut
      rw [ne_eq, List.append_cancel_left_eq] at hshort
      obtain ⟨us, t', vs, q, w, rfl, rfl, hq, hw⟩ := ih hcut hshort
      exact ⟨t :: us, t', vs, q, w, rfl, by rw [renderTokens_cons, List.append_assoc], hq, hw⟩
    · obtain ⟨w, hw⟩ : cut <+: t.render :=
        (List.prefix_or_prefix_of_prefix hcut (List.prefix_append ..)).resolve_right htoken
      refine ⟨[], t, ts, cut, w, rfl, rfl, hw, ?_⟩
      rintro rfl
      exact htoken ⟨[], by simpa using hw.symm⟩

/-- The text ends with the bracket that begins a tag or an item of the document. -/
def Document.CutAtBracket (d : Document) (cut : List Char) : Prop :=
  ∃ us t vs s, d.tokens = us ++ t :: vs ∧ t.render = '<' :: s ∧ cut = renderTokens us ++ ['<']

theorem Token.render_ne_bracket {t : Token} (ht : t.Obeys) : t.render ≠ ['<'] := by
  by_cases hchar : ∃ c, t = .char c
  · obtain ⟨c, rfl⟩ := hchar
    have hc : c ≠ '<' := ht
    simpa [Token.render] using hc
  · obtain ⟨s, hs, hrender⟩ := Token.render_bracket ht fun c hc => hchar ⟨c, hc⟩
    simpa [hrender] using hs

/-- Whether a cut is at a bracket depends on the token that it falls into: none ends with one. -/
theorem cutAtBracket_iff {d : Document} (hts : ∀ t ∈ d.tokens, t.Obeys) {us vs : List Token}
    {t : Token} (hsplit : d.tokens = us ++ t :: vs) {q w : List Char} (hq : q ++ w = t.render) :
    d.CutAtBracket (renderTokens us ++ q) ↔ q = ['<'] := by
  constructor
  · rintro ⟨us', t', vs', s, hsplit', hs, hcut⟩
    have hsame := hsplit.symm.trans hsplit'
    rcases List.append_eq_append_iff.mp hsame with ⟨xs, rfl, hxs⟩ | ⟨xs, rfl, hxs⟩
    · rw [renderTokens_append, List.append_assoc, List.append_cancel_left_eq] at hcut
      cases xs with
      | nil => exact hcut
      | cons x xs =>
        -- the whole token would be part of its beginning
        obtain ⟨rfl, -⟩ := List.cons.inj hxs
        have hlength := congrArg List.length (hcut ▸ hq)
        rw [renderTokens_cons] at hlength
        simp only [List.length_append, List.length_singleton] at hlength
        omega
    · rw [renderTokens_append, List.append_assoc, List.append_cancel_left_eq] at hcut
      cases xs with
      | nil => exact hcut
      | cons x xs =>
        obtain ⟨rfl, -⟩ := List.cons.inj hxs
        rw [renderTokens_cons, hs, List.cons_append, List.cons_append, List.cons.injEq] at hcut
        have hnil : s = [] := (List.append_eq_nil_iff.mp (List.append_eq_nil_iff.mp hcut.2).1).1
        refine absurd (hs.trans (by rw [hnil])) (Token.render_ne_bracket (hts t' ?_))
        rw [hsplit']
        simp
  · rintro rfl
    exact ⟨us, t, vs, w, hsplit, hq.symm, rfl⟩

/-- The tokens up to the end of the root element. -/
def Document.headTokens (d : Document) : List Token := d.prolog.map Misc.token ++ d.root.tokens

theorem Document.renderTokens_head (d : Document) : renderTokens d.headTokens = d.head := by
  rw [Document.headTokens, renderTokens_append, renderTokens_misc, renderTokens_element,
    Document.head]

theorem document_cut {d : Document} (hd : d.Obeys Tag.Settled) (hplain : ¬ d.root.tag.OpensMarkup)
    {us vs : List Token} {t : Token} (hsplit : d.headTokens = us ++ t :: vs) {q w : List Char}
    (hq : q ++ w = t.render) (hw : w ≠ []) :
    readDocument (renderTokens us ++ q) = .error (cutFault q) := by
  have hroot : ∀ xs, d.root.tokens = xs ++ t :: vs →
      readDocument (renderTokens (d.prolog.map Misc.token ++ xs) ++ q) = .error (cutFault q) := by
    intro xs hxs
    rw [renderTokens_append, renderTokens_misc, List.append_assoc]
    exact readDocument_prolog hd.prolog (root_cut hw hq hd.root hplain hxs)
  rcases List.append_eq_append_iff.mp hsplit with ⟨xs, rfl, hxs⟩ | ⟨xs, hprolog, hxs⟩
  · exact hroot xs hxs
  cases xs with
  | nil =>
    rw [List.append_nil] at hprolog
    rw [← hprolog, ← List.append_nil (d.prolog.map Misc.token)]
    exact hroot [] hxs.symm
  | cons x xs =>
    obtain ⟨rfl, -⟩ := List.cons.inj hxs
    obtain ⟨ms, ms', hms, rfl, hms'⟩ := List.map_eq_append_iff.mp hprolog
    obtain ⟨m, ms'', rfl, rfl, -⟩ := List.map_eq_cons_iff.mp hms'
    have hall := hd.prolog
    rw [hms, List.forall_mem_append, List.forall_mem_cons] at hall
    rw [Misc.render_token] at hq
    rw [renderTokens_misc]
    exact readDocument_prolog hall.1 (misc_cut hw hall.2.1 hq)

theorem parse_of_fault {text : String} {f : Fault} (h : readDocument text.toList = .error f) :
    Element.parse text = .error (f.toError text.utf8ByteSize) := by
  simp only [Element.parse, Document.parse, h]
  rfl

/-- A document that was cut off before its root element ends, ends too early, and nothing else is
found wrong with it; but where the cut is behind the bracket that begins a tag or an item, a name is
missed at its end. -/
theorem parse_incomplete {text : String} {d : Document} (hparse : Document.parse text = .ok d)
    {cut : String} (hcut : cut.toList <+: text.toList)
    (hshort : cut.utf8ByteSize < byteLength d.head) :
    (d.CutAtBracket cut.toList →
      Element.parse cut = .error (.malformed cut.utf8ByteSize "expected element name")) ∧
    (¬ d.CutAtBracket cut.toList → Element.parse cut = .error .unexpectedEnd) := by
  have hderives := documentParse_eq_ok_iff.mp hparse
  have hhead : cut.toList <+: d.head := by
    rw [← hderives.render] at hcut
    refine (List.prefix_or_prefix_of_prefix hcut d.prefix_head).resolve_right fun hlonger => ?_
    have hle := byteLength_le_of_isPrefix hlonger
    rw [byteLength_toList] at hle
    omega
  have hne : cut.toList ≠ d.head := by
    intro hsame
    rw [← hsame, byteLength_toList] at hshort
    exact absurd hshort (lt_irrefl _)
  rw [← d.renderTokens_head] at hhead hne
  obtain ⟨us, t, vs, q, w, hsplit, htext, hq, hw⟩ := exists_split_tokens hhead hne
  have hread := document_cut hderives.obeys hderives.plain hsplit hq hw
  have htokens : d.tokens = us ++ t :: (vs ++ d.epilog.map Misc.token) := by
    rw [Document.tokens, ← Document.headTokens, hsplit, List.append_assoc, List.cons_append]
  have hbracket :=
    cutAtBracket_iff (Document.obey_tokens hderives.obeys hderives.plain) htokens hq
  rw [← htext] at hread hbracket
  rw [hbracket, parse_of_fault hread]
  constructor
  · rintro rfl
    rfl
  · intro hq
    rw [cutFault, if_neg hq]
    rfl

/-- A cut behind the bracket of a child, and one behind a bracket that a value holds. -/
theorem child_parse_incomplete : ∃ d, Document.parse "<a b='<'><c/></a>" = .ok d ∧
    byteLength d.head = 17 ∧
    ("<a b='<'><".toList <+: "<a b='<'><c/></a>".toList ∧ d.CutAtBracket "<a b='<'><".toList ∧
      Element.parse "<a b='<'><" = .error (.malformed 10 "expected element name")) ∧
    ("<a b='<".toList <+: "<a b='<'><c/></a>".toList ∧ ¬ d.CutAtBracket "<a b='<".toList ∧
      Element.parse "<a b='<" = .error .unexpectedEnd) := by
  let tag : Tag := ⟨['a'], [⟨[' '], ['b'], [], [], .single, ['<']⟩], []⟩
  let child : Token := .empty ⟨['c'], [], []⟩
  obtain ⟨d, hparse, hd⟩ := exists_of_parse "<a b='<'><c/></a>"
    (fun d => (d.tokens, byteLength d.head))
    (a := ([.opening tag, child, .closing ['a'] []], 17)) (by decide +kernel)
  obtain ⟨htokens, hhead⟩ := Prod.mk.inj hd
  have hderives := documentParse_eq_ok_iff.mp hparse
  have hbracket : d.CutAtBracket "<a b='<'><".toList :=
    ⟨[.opening tag], child, _, _, htokens, rfl, by decide +kernel⟩
  have hvalue : ¬ d.CutAtBracket "<a b='<".toList := by
    have hiff : d.CutAtBracket (renderTokens [] ++ "<a b='<".toList) ↔ _ :=
      cutAtBracket_iff (Document.obey_tokens hderives.obeys hderives.plain) htokens
        (w := ['\'', '>']) (by decide +kernel)
    exact hiff.not.mpr (by decide +kernel)
  have hfirst : "<a b='<'><".toList <+: "<a b='<'><c/></a>".toList := by decide +kernel
  have hsecond : "<a b='<".toList <+: "<a b='<'><c/></a>".toList := by decide +kernel
  refine ⟨d, hparse, hhead, ⟨hfirst, hbracket, ?_⟩, hsecond, hvalue, ?_⟩
  · exact (parse_incomplete hparse hfirst (by rw [hhead]; decide +kernel)).1 hbracket
  · exact (parse_incomplete hparse hsecond (by rw [hhead]; decide +kernel)).2 hvalue

end Overseer.Markup
