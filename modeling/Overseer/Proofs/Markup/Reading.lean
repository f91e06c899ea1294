import Overseer.Proofs.Markup.ItemReading
import Overseer.Proofs.Markup.TagReading

/-!
Reading and the grammar agree, from tokens to documents.  `readDocument_eq_ok_iff`: reading a text
gives exactly its derivation.
-/

namespace Overseer.Markup

/-! ## Tokens -/

/-- What is known of a token that was read. -/
def Token.Obeys : Token → Prop
  | .char c => c ≠ '<'
  | .markup text => IsMarkup text
  | .empty tag | .opening tag => tag.Settled ∧ ¬ tag.OpensMarkup
  | .closing name gap => (∀ c ∈ name, isNameChar c = true) ∧ AllBlank gap ∧ EndsName gap

theorem readClosing_sound {s r : List Char} {t : Token} (h : readClosing s = .ok (t, r)) :
    t.render ++ r = '<' :: '/' :: s ∧ t.Obeys := by
  simp only [readClosing, bind, Except.bind] at h
  split at h
  · simp at h
  rename_i r₁ hr₁
  simp only [Except.ok.injEq, Prod.mk.injEq] at h
  obtain ⟨rfl, rfl⟩ := h
  rw [expect_eq_ok_iff] at hr₁
  have e₁ := List.takeWhile_append_dropWhile (p := isNameChar) (l := s)
  have e₂ := List.takeWhile_append_dropWhile (p := isBlank) (l := s.dropWhile isNameChar)
  refine ⟨?_, fun c hc => List.mem_takeWhile_imp hc, allBlank_takeWhile _, ?_⟩
  · rw [hr₁] at e₂
    conv => rhs; rw [← e₁, ← e₂]
    simp [Token.render]
  · exact endsName_of_append_eq e₂

theorem readClosing_complete {name gap : List Char} (hname : ∀ c ∈ name, isNameChar c = true)
    (hgap : AllBlank gap) (hended : EndsName gap) (r : List Char) :
    readClosing (name ++ gap ++ '>' :: r) = .ok (.closing name gap, r) := by
  have hended' : ∀ c, (gap ++ '>' :: r).head? = some c → isNameChar c = false := by
    intro c hc
    cases gap with
    | nil => exact endsName_of_head? (.inr rfl) c hc
    | cons d gap => exact hended c hc
  have hblank : ∀ c, ('>' :: r).head? = some c → isBlank c = false := by
    intro c hc
    cases hc
    decide
  simp only [readClosing, List.append_assoc, takeWhile_run hname hended',
    dropWhile_run hname hended', takeWhile_run hgap hblank, dropWhile_run hgap hblank,
    expect_eq_ok_iff.mpr rfl, bind, Except.bind]

theorem opensMarkup_iff {t : Tag} (h : t.Formed) (s : List Char) :
    t.OpensMarkup ↔ markupEnd? (t.render ++ s) ≠ none := by
  obtain ⟨c, name, hname⟩ := List.exists_cons_of_ne_nil h.name.1
  have htext : ∃ r, t.render ++ s = '<' :: c :: r := ⟨_, by
    simp only [Tag.render, hname, List.cons_append]
    rfl⟩
  obtain ⟨r, hr⟩ := htext
  rw [hr, Ne, markupEnd?_eq_none_iff, Tag.OpensMarkup, hname]
  simp only [List.head?_cons, Option.some.injEq]
  by_cases h₁ : c = '!' <;> by_cases h₂ : c = '?' <;> simp [h₁, h₂]

theorem nextToken_sound {s r : List Char} {t : Token} (h : nextToken s = .ok (t, r)) :
    t.render ++ r = s ∧ t.Obeys := by
  cases s with
  | nil => simp [nextToken] at h
  | cons c s =>
    simp only [nextToken, bind, Except.bind] at h
    split at h
    · rename_i hc
      simp only [Except.ok.injEq, Prod.mk.injEq] at h
      obtain ⟨rfl, rfl⟩ := h
      exact ⟨rfl, hc⟩
    rename_i hc
    obtain rfl : c = '<' := by simpa using hc
    split at h
    · rename_i hslash
      obtain ⟨htext, ht⟩ := readClosing_sound h
      cases s with
      | nil => simp at hslash
      | cons d s =>
        simp at hslash
        exact ⟨by rw [htext, hslash]; rfl, ht⟩
    split at h
    · rename_i stop hstop
      split at h
      · simp at h
      rename_i p hp
      simp only [Except.ok.injEq, Prod.mk.injEq] at h
      obtain ⟨rfl, rfl⟩ := h
      obtain ⟨hmarkup, htext⟩ := readMarkup_eq_ok_iff.mp ⟨stop, hstop, hp⟩
      exact ⟨htext, hmarkup⟩
    · rename_i hnone
      split at h
      · simp at h
      rename_i p hp
      obtain ⟨⟨tag, closesItself⟩, rest⟩ := p
      simp only [Except.ok.injEq, Prod.mk.injEq] at h
      obtain ⟨rfl, rfl⟩ := h
      obtain ⟨htext, htag⟩ := readTag_sound hp
      have hplain : ¬ tag.OpensMarkup := by
        rw [opensMarkup_iff htag.toFormed (bracket closesItself ++ rest), ← List.append_assoc,
          htext, hnone]
        simp
      cases closesItself
      · exact ⟨htext, htag, hplain⟩
      · exact ⟨htext, htag, hplain⟩

theorem nextToken_char {c : Char} (h : c ≠ '<') (r : List Char) :
    nextToken (c :: r) = .ok (.char c, r) := by
  simp [nextToken, h]

theorem nextToken_markup {text : List Char} (h : IsMarkup text) (r : List Char) :
    nextToken (text ++ r) = .ok (.markup text, r) := by
  obtain ⟨stop, hstop, hread⟩ := readMarkup_eq_ok_iff.mpr (And.intro h (Eq.refl (text ++ r)))
  obtain ⟨c, s, rfl, hc⟩ := h.exists_cons
  simp only [List.cons_append] at hstop hread ⊢
  simp [nextToken, hc, hstop, hread, bind, Except.bind]

theorem nextToken_tag {tag : Tag} (h : tag.Settled) (hplain : ¬ tag.OpensMarkup)
    (closesItself : Bool) (r : List Char) :
    nextToken (tag.render ++ bracket closesItself ++ r) =
      .ok (if closesItself then .empty tag else .opening tag, r) := by
  have hread := readTag_complete h closesItself r
  have hnone : markupEnd? (tag.render ++ bracket closesItself ++ r) = none := by
    rw [List.append_assoc]
    simpa using mt (opensMarkup_iff h.toFormed _).mpr hplain
  obtain ⟨c, name, hname⟩ := List.exists_cons_of_ne_nil h.name.1
  have hslash : c ≠ '/' := by
    rintro rfl
    exact absurd (h.name.2 '/' (by rw [hname]; exact List.mem_cons_self ..)) (by decide)
  have htext : tag.render = '<' :: c :: tag.render.tail.tail := by
    simp only [Tag.render, hname]
    rfl
  generalize tag.render.tail.tail = s at htext
  rw [htext] at hread hnone ⊢
  simp only [List.cons_append, List.tail_cons, List.append_assoc] at hread hnone ⊢
  simp [nextToken, hslash, hnone, hread, bind, Except.bind]

theorem nextToken_closing {name gap : List Char} (hname : ∀ c ∈ name, isNameChar c = true)
    (hgap : AllBlank gap) (hended : EndsName gap) (r : List Char) :
    nextToken ('<' :: '/' :: name ++ gap ++ ['>'] ++ r) = .ok (.closing name gap, r) := by
  have hread := readClosing_complete hname hgap hended r
  simp only [List.append_assoc] at hread
  simp [nextToken, hread]

theorem nextToken_render {t : Token} (ht : t.Obeys) (r : List Char) :
    nextToken (t.render ++ r) = .ok (t, r) := by
  cases t with
  | char c => exact nextToken_char ht r
  | markup text => exact nextToken_markup ht r
  | empty tag => exact nextToken_tag ht.1 ht.2 true r
  | opening tag => exact nextToken_tag ht.1 ht.2 false r
  | closing name gap => exact nextToken_closing ht.1 ht.2.1 ht.2.2 r

/-! ## Elements -/

/-- What is read already of an element that is still open. -/
def Frame.render (f : Frame) : List Char := f.tag.render ++ '>' :: renderPieces f.content.reverse

structure Frame.Obeys (f : Frame) : Prop where
  tag : f.tag.Settled
  plain : ¬ f.tag.OpensMarkup
  content : PiecesObey Tag.Settled f.content.reverse

/-- What is read already of all open elements, the innermost of which comes first. -/
def openText : List Frame → List Char
  | [] => []
  | f :: outer => openText outer ++ f.render

theorem Frame.render_push (f : Frame) (p : Piece) : (f.push p).render = f.render ++ p.render := by
  simp [Frame.render, Frame.push, renderPieces_append, renderPieces]

theorem Frame.Obeys.push {f : Frame} {p : Piece} (hf : f.Obeys) (hp : p.Obeys Tag.Settled) :
    (f.push p).Obeys := by
  refine ⟨hf.tag, hf.plain, ?_⟩
  have hcontent := piecesObey_iff.mp hf.content
  rw [piecesObey_iff]
  intro q hq
  simp only [Frame.push, List.reverse_cons, List.mem_append, List.mem_singleton] at hq
  rcases hq with hq | rfl
  · exact hcontent q hq
  · exact hp

theorem Frame.Obeys.close {f : Frame} (hf : f.Obeys) {gap : List Char} (hgap : AllBlank gap)
    (hended : EndsName gap) : (f.close gap).Obeys Tag.Settled := by
  rw [Frame.close, Element.Obeys]
  exact ⟨hf.tag, hf.content, hgap, hended⟩

theorem Frame.render_close (f : Frame) (gap : List Char) :
    (f.close gap).render = f.render ++ (Token.closing f.tag.name gap).render := by
  simp [Frame.close, Element.render, Frame.render, Token.render]

/-- The element that closes the outermost frame holds what was read before and what is read now. -/
theorem build_sound {frame : Frame} {outer : List Frame} {s r : List Char} {e : Element}
    (h : build frame outer s = .ok (e, r)) (hframe : frame.Obeys) (houter : ∀ f ∈ outer, f.Obeys) :
    e.render ++ r = openText (frame :: outer) ++ s ∧ e.Obeys Tag.Settled ∧ ¬ e.tag.OpensMarkup := by
  fun_induction build frame outer s with
  | case1 => simp at h
  | case2 frame outer s c rest hs ih =>
    obtain ⟨rfl, hc⟩ := nextToken_sound hs
    obtain ⟨htext, he⟩ := ih h (hframe.push hc) houter
    refine ⟨?_, he⟩
    rw [htext]
    simp [openText, Frame.render_push, Piece.render, Token.render]
  | case3 frame outer s text rest hs ih =>
    obtain ⟨rfl, hmarkup⟩ := nextToken_sound hs
    obtain ⟨htext, he⟩ := ih h (hframe.push hmarkup) houter
    refine ⟨?_, he⟩
    rw [htext]
    simp [openText, Frame.render_push, Piece.render, Token.render]
  | case4 frame outer s tag rest hs ih =>
    obtain ⟨rfl, htag, hplain⟩ := nextToken_sound hs
    have hchild : (Piece.child (.empty tag)).Obeys Tag.Settled := by
      simp only [Piece.Obeys, Element.Obeys, Element.tag]
      exact ⟨hplain, htag⟩
    obtain ⟨htext, he⟩ := ih h (hframe.push hchild) houter
    refine ⟨?_, he⟩
    rw [htext]
    simp [openText, Frame.render_push, Piece.render, Element.render, Token.render]
  | case5 frame outer s tag rest hs ih =>
    obtain ⟨rfl, htag, hplain⟩ := nextToken_sound hs
    have hnew : (⟨tag, []⟩ : Frame).Obeys := ⟨htag, hplain, by simp [PiecesObey]⟩
    obtain ⟨htext, he⟩ := ih h hnew (by simpa using ⟨hframe, houter⟩)
    refine ⟨?_, he⟩
    rw [htext]
    simp [openText, Frame.render, renderPieces, Token.render]
  | case6 => simp at h
  | case7 frame s name gap rest hs hname =>
    obtain ⟨rfl, _, hgap, hended⟩ := nextToken_sound hs
    obtain rfl : name = frame.tag.name := by simpa using hname
    simp only [Except.ok.injEq, Prod.mk.injEq] at h
    obtain ⟨rfl, rfl⟩ := h
    refine ⟨?_, hframe.close hgap hended, hframe.plain⟩
    rw [Frame.render_close]
    simp [openText]
  | case8 frame s name gap rest hs hname parent outer ih =>
    obtain ⟨rfl, _, hgap, hended⟩ := nextToken_sound hs
    obtain rfl : name = frame.tag.name := by simpa using hname
    have hchild : (Piece.child (frame.close gap)).Obeys Tag.Settled := by
      rw [Piece.Obeys]
      exact ⟨hframe.plain, hframe.close hgap hended⟩
    obtain ⟨hparent, houter⟩ := List.forall_mem_cons.mp houter
    obtain ⟨htext, he⟩ := ih h (hparent.push hchild) houter
    refine ⟨?_, he⟩
    rw [htext]
    simp [openText, Frame.render_push, Piece.render, Frame.render_close]

/-- How reading goes on after a token in front of `rest`. -/
def resume (frame : Frame) (outer : List Frame) (s rest : List Char) :
    Token → Except Fault (Element × List Char)
  | .char c => build (frame.push (.char c)) outer rest
  | .markup text => build (frame.push (.markup text)) outer rest
  | .empty tag => build (frame.push (.child (.empty tag))) outer rest
  | .opening tag => build ⟨tag, []⟩ (frame :: outer) rest
  | .closing name gap =>
    if name ≠ frame.tag.name then .error (.mismatchedTag s frame.tag.name name)
    else match outer with
      | [] => .ok (frame.close gap, rest)
      | parent :: outer => build (parent.push (.child (frame.close gap))) outer rest

theorem build_eq_resume {frame : Frame} {outer : List Frame} {s rest : List Char} {t : Token}
    (h : nextToken s = .ok (t, rest)) :
    build frame outer s = resume frame outer s rest t := by
  rw [build]
  split <;> rename_i heq <;> rw [h] at heq <;> cases heq <;> rfl

mutual
theorem build_element {e : Element} (he : e.Obeys Tag.Settled) (hplain : ¬ e.tag.OpensMarkup)
    (frame : Frame) (outer : List Frame) (r : List Char) :
    build frame outer (e.render ++ r) = build (frame.push (.child e)) outer r := by
  cases e with
  | empty tag =>
    rw [Element.Obeys] at he
    exact build_eq_resume (nextToken_tag he hplain true r)
  | closed tag content gap =>
    rw [Element.Obeys] at he
    obtain ⟨htag, hcontent, hgap, hended⟩ := he
    let rest := '<' :: '/' :: tag.name ++ gap ++ ['>'] ++ r
    have htext : (Element.closed tag content gap).render ++ r =
        tag.render ++ bracket false ++ (renderPieces content ++ rest) := by
      simp [Element.render, bracket, rest]
    have hopening := nextToken_tag htag hplain false (renderPieces content ++ rest)
    have hclosing := nextToken_closing htag.name.2 hgap hended r
    rw [htext, build_eq_resume hopening, if_neg Bool.false_ne_true, resume, build_pieces hcontent,
      build_eq_resume hclosing]
    simp [resume, Frame.close]

theorem build_piece {p : Piece} (hp : p.Obeys Tag.Settled) (frame : Frame) (outer : List Frame)
    (r : List Char) : build frame outer (p.render ++ r) = build (frame.push p) outer r := by
  cases p with
  | char c =>
    rw [Piece.Obeys] at hp
    exact build_eq_resume (nextToken_char hp r)
  | markup text =>
    rw [Piece.Obeys] at hp
    exact build_eq_resume (nextToken_markup hp r)
  | child e =>
    rw [Piece.Obeys] at hp
    exact build_element hp.2 hp.1 frame outer r

theorem build_pieces {ps : List Piece} (hps : PiecesObey Tag.Settled ps) (frame : Frame)
    (outer : List Frame) (r : List Char) :
    build frame outer (renderPieces ps ++ r) =
      build ⟨frame.tag, ps.reverse ++ frame.content⟩ outer r := by
  cases ps with
  | nil => rfl
  | cons p ps =>
    rw [PiecesObey] at hps
    rw [renderPieces, List.append_assoc, build_piece hps.1, build_pieces hps.2]
    simp [Frame.push]
end

/-! ## Documents -/

/-- Nothing that may stand around the root element starts here. -/
def MiscEnds (s : List Char) : Prop :=
  (∀ c, s.head? = some c → isBlank c = false) ∧ markupEnd? s = none

theorem readMisc_sound {s r : List Char} {ms : List Misc} (h : readMisc s = .ok (ms, r)) :
    ms.flatMap Misc.render ++ r = s ∧ (∀ m ∈ ms, m.Obeys) ∧ MiscEnds r := by
  fun_induction readMisc s generalizing ms r with
  | case1 =>
    simp only [Except.ok.injEq, Prod.mk.injEq] at h
    obtain ⟨rfl, rfl⟩ := h
    exact ⟨rfl, by simp, by simp, by decide⟩
  | case2 c s hc ih =>
    simp only [bind, Except.bind] at h
    split at h
    · simp at h
    rename_i p hp
    obtain ⟨ms', r'⟩ := p
    simp only [Except.ok.injEq, Prod.mk.injEq] at h
    obtain ⟨rfl, rfl⟩ := h
    obtain ⟨htext, hobeys, hends⟩ := ih hp
    refine ⟨?_, List.forall_mem_cons.mpr ⟨hc, hobeys⟩, hends⟩
    rw [← htext]
    simp [Misc.render]
  | case3 c s hc hnone =>
    simp only [Except.ok.injEq, Prod.mk.injEq] at h
    obtain ⟨rfl, rfl⟩ := h
    exact ⟨rfl, by simp, by simpa using hc, hnone⟩
  | case4 => simp at h
  | case5 c s hc stop hstop text rest hread ih =>
    simp only [bind, Except.bind] at h
    split at h
    · simp at h
    rename_i p hp
    obtain ⟨ms', r'⟩ := p
    simp only [Except.ok.injEq, Prod.mk.injEq] at h
    obtain ⟨rfl, rfl⟩ := h
    obtain ⟨htext, hobeys, hends⟩ := ih hp
    obtain ⟨hmarkup, htext'⟩ := readMarkup_eq_ok_iff.mp ⟨stop, hstop, hread⟩
    refine ⟨?_, List.forall_mem_cons.mpr ⟨hmarkup, hobeys⟩, hends⟩
    rw [← htext', ← htext]
    simp [Misc.render]

theorem readMisc_ends {r : List Char} (hr : MiscEnds r) : readMisc r = .ok ([], r) := by
  cases r with
  | nil => rw [readMisc]
  | cons c r =>
    rw [readMisc, if_neg (by simpa using hr.1 c rfl)]
    split
    · rfl
    · rename_i heq
      rw [hr.2] at heq
      cases heq

theorem readMisc_blank {c : Char} (hc : isBlank c = true) (r : List Char) :
    readMisc (c :: r) = (readMisc r).map fun p => (.blank c :: p.1, p.2) := by
  rw [readMisc, if_pos hc]
  cases readMisc r <;> rfl

theorem readMisc_item {text : List Char} (h : IsMarkup text) (r : List Char) :
    readMisc (text ++ r) = (readMisc r).map fun p => (.markup text :: p.1, p.2) := by
  obtain ⟨stop, hstop, hread⟩ := readMarkup_eq_ok_iff.mpr (And.intro h (Eq.refl (text ++ r)))
  obtain ⟨c, s, rfl, hc⟩ := h.exists_cons
  rw [List.cons_append] at hstop hread ⊢
  rw [readMisc, if_neg (by decide)]
  split
  · rename_i heq
    cases hstop.symm.trans heq
  · rename_i heq
    cases hstop.symm.trans heq
    split
    · rename_i heq
      cases hread.symm.trans heq
    · rename_i heq
      cases hread.symm.trans heq
      cases readMisc r <;> rfl

theorem readMisc_markup {text r rest : List Char} {ms : List Misc} (h : IsMarkup text)
    (hrest : readMisc r = .ok (ms, rest)) :
    readMisc (text ++ r) = .ok (.markup text :: ms, rest) := by
  rw [readMisc_item h, hrest]
  rfl

theorem readMisc_complete {ms : List Misc} (hms : ∀ m ∈ ms, m.Obeys) {r : List Char}
    (hr : MiscEnds r) : readMisc (ms.flatMap Misc.render ++ r) = .ok (ms, r) := by
  induction ms with
  | nil => exact readMisc_ends hr
  | cons m ms ih =>
    obtain ⟨hm, hrest⟩ := List.forall_mem_cons.mp hms
    have ih := ih hrest
    rw [List.flatMap_cons, List.append_assoc]
    cases m with
    | blank c =>
      rw [Misc.Obeys] at hm
      rw [Misc.render, List.singleton_append, readMisc, if_pos hm, ih]
      rfl
    | markup text =>
      rw [Misc.Obeys] at hm
      exact readMisc_markup hm ih

theorem Element.exists_render_eq (e : Element) : ∃ s, e.render = e.tag.render ++ s := by
  cases e with
  | empty tag => exact ⟨_, rfl⟩
  | closed tag content gap => exact ⟨_, rfl⟩

theorem Element.Obeys.tag {rule : Tag → Prop} {e : Element} (h : e.Obeys rule) : rule e.tag := by
  cases e with
  | empty tag => rwa [Element.Obeys] at h
  | closed tag content gap =>
    rw [Element.Obeys] at h
    exact h.1

theorem Element.Obeys.content {rule : Tag → Prop} {e : Element} (h : e.Obeys rule) :
    PiecesObey rule e.content := by
  cases e with
  | empty tag => simp [Element.content, PiecesObey]
  | closed tag content gap =>
    rw [Element.Obeys] at h
    exact h.2.1

theorem miscEnds_tag {tag : Tag} (h : tag.Settled) (hplain : ¬ tag.OpensMarkup) (s : List Char) :
    MiscEnds (tag.render ++ s) := by
  constructor
  · intro c hc
    simp only [Tag.render, List.cons_append, List.head?_cons, Option.some.injEq] at hc
    exact hc ▸ by decide
  · simpa using mt (opensMarkup_iff h.toFormed s).mpr hplain

theorem miscEnds_element {e : Element} (he : e.Obeys Tag.Settled) (hplain : ¬ e.tag.OpensMarkup)
    (r : List Char) : MiscEnds (e.render ++ r) := by
  obtain ⟨s, hs⟩ := e.exists_render_eq
  rw [hs, List.append_assoc]
  exact miscEnds_tag he.tag hplain (s ++ r)

theorem readRoot_sound {s r : List Char} {e : Element} (hs : MiscEnds s)
    (h : readRoot s = .ok (e, r)) :
    e.render ++ r = s ∧ e.Obeys Tag.Settled ∧ ¬ e.tag.OpensMarkup := by
  simp only [readRoot, bind, Except.bind] at h
  split at h
  · simp at h
  rename_i s₁ hs₁
  rw [expect_eq_ok_iff] at hs₁
  split at h
  · simp at h
  rename_i p hp
  obtain ⟨⟨tag, closesItself⟩, rest⟩ := p
  obtain ⟨htext, htag⟩ := readTag_sound hp
  have hplain : ¬ tag.OpensMarkup := by
    rw [opensMarkup_iff htag.toFormed (bracket closesItself ++ rest), ← List.append_assoc, htext,
      ← hs₁, hs.2]
    simp
  rw [hs₁, ← htext]
  cases closesItself
  · have hframe : (⟨tag, []⟩ : Frame).Obeys := ⟨htag, hplain, by simp [PiecesObey]⟩
    obtain ⟨htext', he⟩ := build_sound h hframe (by simp)
    refine ⟨?_, he⟩
    rw [htext']
    simp [openText, Frame.render, renderPieces, bracket]
  · simp only [if_pos, Except.ok.injEq, Prod.mk.injEq] at h
    obtain ⟨rfl, rfl⟩ := h
    refine ⟨?_, ?_, hplain⟩
    · simp [Element.render, bracket]
    · rw [Element.Obeys]
      exact htag

theorem readRoot_opening {tag : Tag} (h : tag.Settled) (r : List Char) :
    readRoot ((Token.opening tag).render ++ r) = build ⟨tag, []⟩ [] r := by
  have htext : (Token.opening tag).render ++ r =
      '<' :: (tag.render.tail ++ bracket false ++ r) := by
    simp [Token.render, Tag.render, bracket]
  have hread := readTag_complete h false r
  simp only [htext, readRoot, expect_eq_ok_iff.mpr rfl, bind, Except.bind, hread,
    Bool.false_eq_true, ↓reduceIte]

theorem readRoot_complete {e : Element} (he : e.Obeys Tag.Settled) (hplain : ¬ e.tag.OpensMarkup)
    (r : List Char) : readRoot (e.render ++ r) = .ok (e, r) := by
  cases e with
  | empty tag =>
    rw [Element.Obeys] at he
    have hread := readTag_complete he true r
    have htext : (Element.empty tag).render ++ r =
        '<' :: (tag.render.tail ++ bracket true ++ r) := by
      simp [Element.render, Tag.render, bracket]
    simp only [htext, readRoot, expect_eq_ok_iff.mpr rfl, bind, Except.bind, hread, ↓reduceIte]
  | closed tag content gap =>
    rw [Element.Obeys] at he
    obtain ⟨htag, hcontent, hgap, hended⟩ := he
    let rest := '<' :: '/' :: tag.name ++ gap ++ ['>'] ++ r
    have htext : (Element.closed tag content gap).render ++ r =
        (Token.opening tag).render ++ (renderPieces content ++ rest) := by
      simp [Element.render, Token.render, rest]
    have hclosing := nextToken_closing htag.name.2 hgap hended r
    rw [htext, readRoot_opening htag, build_pieces hcontent, build_eq_resume hclosing]
    simp [resume, Frame.close]

theorem readDocument_sound {s : List Char} {d : Document} (h : readDocument s = .ok d) :
    d.Obeys Tag.Settled ∧ ¬ d.root.tag.OpensMarkup ∧ d.render = s := by
  simp only [readDocument, bind, Except.bind] at h
  split at h
  · simp at h
  rename_i p hprolog
  obtain ⟨prolog, s₁⟩ := p
  split at h
  · simp at h
  rename_i p hroot
  obtain ⟨root, s₂⟩ := p
  split at h
  · simp at h
  rename_i p hepilog
  obtain ⟨epilog, s₃⟩ := p
  dsimp only at h hroot hepilog
  split at h
  · rename_i hnil
    cases h
    obtain ⟨htext₁, hobeys₁, hends₁⟩ := readMisc_sound hprolog
    obtain ⟨htext₂, hobeys₂, hplain⟩ := readRoot_sound hends₁ hroot
    obtain ⟨htext₃, hobeys₃, _⟩ := readMisc_sound hepilog
    refine ⟨⟨hobeys₁, hobeys₂, hobeys₃⟩, hplain, ?_⟩
    rw [← htext₁, ← htext₂, ← htext₃, hnil]
    simp [Document.render]
  · simp at h

theorem readDocument_complete {d : Document} (hd : d.Obeys Tag.Settled)
    (hplain : ¬ d.root.tag.OpensMarkup) : readDocument d.render = .ok d := by
  have htext : d.render = d.prolog.flatMap Misc.render ++
      (d.root.render ++ (d.epilog.flatMap Misc.render ++ [])) := by
    simp [Document.render]
  have hprolog := readMisc_complete hd.prolog
    (miscEnds_element hd.root hplain (d.epilog.flatMap Misc.render ++ []))
  have hroot := readRoot_complete hd.root hplain (d.epilog.flatMap Misc.render ++ [])
  have hepilog := readMisc_complete hd.epilog (r := []) ⟨by simp, by decide⟩
  simp only [htext, readDocument, bind, Except.bind, hprolog, hroot, hepilog, if_pos]

/-- Reading a text gives its derivation and nothing else. -/
theorem readDocument_eq_ok_iff {s : List Char} {d : Document} :
    readDocument s = .ok d ↔
      d.Obeys Tag.Settled ∧ ¬ d.root.tag.OpensMarkup ∧ d.render = s := by
  constructor
  · exact readDocument_sound
  · rintro ⟨hd, hplain, rfl⟩
    exact readDocument_complete hd hplain

end Overseer.Markup
