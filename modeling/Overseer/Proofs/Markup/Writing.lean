import Overseer.Proofs.Markup.Limit
import Overseer.Proofs.Markup.Span

/-!
What a draft writes, as a tree.  `Denotes` gives the attributes and the content that a draft adds to
an open tag.  With enough room it writes just them (`rendering_of_denotes`), and what is written is
read back as the same element (`parse_render`).
-/

namespace Overseer.Markup

/-! ## Trees as they are written -/

/-- A value that holds a double quote is put in single quotes. -/
def writtenAttribute (name value : List Char) : Attribute :=
  ⟨[' '], name, [], [], if '"' ∈ value then .single else .double, value⟩

/-- An element without content closes itself. -/
def writtenElement (name : List Char) (attributes : List Attribute) (content : List Piece) :
    Element :=
  if renderPieces content = [] then .empty ⟨name, attributes, []⟩
  else .closed ⟨name, attributes, []⟩ content []

/-- What a draft adds to an open tag: attributes first, content after them. -/
inductive Denotes : Draft → List Attribute → List Piece → Prop where
  | nil : Denotes [] [] []
  | attribute {draft : Draft} {as : List Attribute} {ps : List Piece} (name value : String) :
      Denotes draft as ps → Denotes (.attribute name value :: draft)
        (writtenAttribute name.toList (Reference.encode value.toList) :: as) ps
  | rawAttribute {draft : Draft} {as : List Attribute} {ps : List Piece} (name source : String) :
      Denotes draft as ps → Denotes (.rawAttribute name source :: draft)
        (writtenAttribute name.toList source.toList :: as) ps
  | node {draft content : Draft} {as : List Attribute} {qs ps : List Piece} (name : String) :
      Denotes content as qs → Denotes draft [] ps →
      Denotes (.node name content :: draft) []
        (.child (writtenElement name.toList as qs) :: ps)
  | append {draft : Draft} {qs ps : List Piece} {source : String} :
      source.toList = renderPieces qs → Denotes draft [] ps →
      Denotes (.append source :: draft) [] (qs ++ ps)

/-! ## Writing without a limit -/

def Writer.addText (w : Writer) (s : List Char) : Writer :=
  { w with text := w.text ++ String.ofList s }

/-- Content closes an open start tag first; nothing is no content. -/
def Writer.addContent (w : Writer) (s : List Char) : Writer :=
  if s = [] then w
  else { w.addText ((if w.tagOpen then ['>'] else []) ++ s) with tagOpen := false }

@[simp] theorem Writer.addContent_nil (w : Writer) : w.addContent [] = w := rfl

theorem Writer.addContent_append (w : Writer) (s t : List Char) :
    (w.addContent s).addContent t = w.addContent (s ++ t) := by
  by_cases hs : s = [] <;> by_cases ht : t = []
  · simp [hs, ht]
  · simp [hs]
  · simp [ht]
  · simp [addContent, addText, hs, ht, String.append_assoc, String.ofList_append]

@[simp] theorem Writer.limit_addContent (w : Writer) (s : List Char) :
    (w.addContent s).limit = w.limit := by
  unfold addContent
  split <;> rfl

@[simp] theorem Writer.limit_addText (w : Writer) (s : List Char) :
    (w.addText s).limit = w.limit := rfl

@[simp] theorem Writer.addText_nil (w : Writer) : w.addText [] = w := by
  simp [addText]

theorem Writer.addText_append (w : Writer) (s t : List Char) :
    (w.addText s).addText t = w.addText (s ++ t) := by
  simp [addText, String.append_assoc, String.ofList_append]

theorem push_of_unlimited {w : Writer} (hw : w.limit = none) (s : String) :
    push s w = .ok () (w.addText s.toList) := by
  simp [push, hw, Writer.addText]

theorem setTagOpen_eq (tagOpen : Bool) (w : Writer) :
    setTagOpen tagOpen w = .ok () { w with tagOpen } := rfl

theorem closeTag_of_open {w : Writer} (hw : w.limit = none) (htag : w.tagOpen = true)
    (bracket : String) (otherwise : WriteM Unit) :
    closeTag bracket otherwise w = .ok () { w.addText bracket.toList with tagOpen := false } := by
  have h : closeTag bracket otherwise w = (do setTagOpen false; push bracket) w := by
    rw [closeTag, get_bind, if_pos htag]
  have hpush := push_of_unlimited (w := { w with tagOpen := false }) hw bracket
  rw [h, bind_ok (setTagOpen_eq false w), hpush]
  rfl

theorem closeTag_of_closed {w : Writer} (htag : w.tagOpen = false) (bracket : String)
    (otherwise : WriteM Unit) : closeTag bracket otherwise w = otherwise w := by
  rw [closeTag, get_bind, if_neg (by simp [htag])]

/-- The writer once no start tag is open. -/
def Writer.closed (w : Writer) : Writer :=
  { w.addText (if w.tagOpen then ['>'] else []) with tagOpen := false }

theorem closeTag_eq_closed {w : Writer} (hw : w.limit = none) :
    closeTag ">" (pure ()) w = .ok () w.closed := by
  cases htag : w.tagOpen
  · have hclosed : w.closed = w := by
      cases w
      simp_all [Writer.closed, Writer.addText]
    rw [closeTag_of_closed htag, hclosed]
    rfl
  · rw [closeTag_of_open hw htag]
    simp [Writer.closed, htag]

theorem Writer.addText_closed (w : Writer) {s : List Char} (hs : s ≠ []) :
    w.closed.addText s = w.addContent s := by
  simp [closed, addContent, addText, hs, String.append_assoc, String.ofList_append]

theorem openNode_of_unlimited {w : Writer} (hw : w.limit = none) (name : String) :
    openNode name w = .ok () { w.addContent ('<' :: name.toList) with tagOpen := true } := by
  have hclosed : w.closed.limit = none := hw
  rw [openNode, bind_ok (closeTag_eq_closed hw), bind_ok (push_of_unlimited hclosed "<"),
    bind_ok (push_of_unlimited (by exact hclosed) name), setTagOpen_eq, Writer.addText_append,
    Writer.addText_closed w (by simp)]
  rfl

theorem writeSource_of_unlimited {w : Writer} (hw : w.limit = none) (source : String) :
    writeSource source w = .ok () (w.addContent source.toList) := by
  unfold writeSource
  by_cases hs : source = ""
  · subst hs
    rfl
  · have hne : source.toList ≠ [] := by simpa using hs
    have hclosed : w.closed.limit = none := hw
    rw [if_neg (by simpa using hs), bind_ok (closeTag_eq_closed hw),
      push_of_unlimited hclosed, Writer.addText_closed w hne]

theorem closeNode_of_open {w : Writer} (hw : w.limit = none) (htag : w.tagOpen = true)
    (name : String) :
    closeNode name w = .ok () { w.addText ['/', '>'] with tagOpen := false } :=
  closeTag_of_open hw htag "/>" _

theorem closeNode_of_closed {w : Writer} (hw : w.limit = none) (htag : w.tagOpen = false)
    (name : String) :
    closeNode name w = .ok () (w.addText ('<' :: '/' :: name.toList ++ ['>'])) := by
  rw [closeNode, closeTag_of_closed htag, bind_ok (push_of_unlimited hw "</"),
    bind_ok (push_of_unlimited (by exact hw) name), push_of_unlimited (by exact hw),
    Writer.addText_append, Writer.addText_append]
  rfl

theorem writeAttribute_of_open {w : Writer} (hw : w.limit = none) (htag : w.tagOpen = true)
    (name source : String) : writeAttribute name source w =
      .ok () (w.addText (writtenAttribute name.toList source.toList).render) := by
  let quote := if source.toList.contains '"' then "'" else "\""
  have h : writeAttribute name source w =
      (do push " "; push name; push "="; push quote; push source; push quote) w := by
    rw [writeAttribute, get_bind, if_pos htag]
  have hquote : quote.toList = [(writtenAttribute name.toList source.toList).quote.char] := by
    by_cases hs : '"' ∈ source.toList <;> simp [quote, writtenAttribute, Quote.char, hs]
  rw [h, bind_ok (push_of_unlimited hw _), bind_ok (push_of_unlimited (by exact hw) _),
    bind_ok (push_of_unlimited (by exact hw) _), bind_ok (push_of_unlimited (by exact hw) _),
    bind_ok (push_of_unlimited (by exact hw) _), push_of_unlimited (by exact hw)]
  simp only [Writer.addText_append, hquote]
  simp [Attribute.render, writtenAttribute]

/-! ## Drafts -/

theorem writtenElement_render (name : List Char) (as : List Attribute) (ps : List Piece) :
    (writtenElement name as ps).render =
      '<' :: name ++ as.flatMap Attribute.render ++
        if renderPieces ps = [] then ['/', '>']
        else '>' :: renderPieces ps ++ '<' :: '/' :: name ++ ['>'] := by
  unfold writtenElement
  split
  · simp [Element.render, Tag.render]
  · simp [Element.render, Tag.render]

/-- A node is content of the element around it. -/
theorem run_node {content : Draft} {as : List Attribute} {ps : List Piece} (name : String)
    (hcontent : ∀ v : Writer, v.limit = none → v.tagOpen = true → runDraft content v = .ok ()
      ((v.addText (as.flatMap Attribute.render)).addContent (renderPieces ps)))
    {w : Writer} (hw : w.limit = none) : (Instr.node name content).run w =
      .ok () (w.addContent (writtenElement name.toList as ps).render) := by
  let v : Writer := { w.addContent ('<' :: name.toList) with tagOpen := true }
  have hv : v.limit = none := by simpa [v] using hw
  rw [Instr.run, bind_ok (openNode_of_unlimited hw name), bind_ok (hcontent v hv rfl)]
  by_cases hps : renderPieces ps = []
  · rw [hps, Writer.addContent_nil, closeNode_of_open (by exact hv) rfl, writtenElement_render,
      if_pos hps]
    simp [v, Writer.addContent, Writer.addText, ← String.toList_inj]
  · rw [closeNode_of_closed (by simpa using hv) (by simp [Writer.addContent, hps]),
      writtenElement_render, if_neg hps]
    simp [v, Writer.addContent, Writer.addText, hps, ← String.toList_inj]

theorem runDraft_of_denotes {draft : Draft} {as : List Attribute} {ps : List Piece}
    (h : Denotes draft as ps) : ∀ w : Writer, w.limit = none → (as = [] ∨ w.tagOpen = true) →
      runDraft draft w = .ok ()
        ((w.addText (as.flatMap Attribute.render)).addContent (renderPieces ps)) := by
  induction h with
  | nil =>
    intro w hw htag
    show EStateM.Result.ok () w = .ok () (w.addText [])
    rw [Writer.addText_nil]
  | «attribute» name value _ ih =>
    intro w hw htag
    have htag : w.tagOpen = true := by simpa using htag
    have hescape : (escape value).toList = Reference.encode value.toList := by simp [escape]
    have hwrite := writeAttribute_of_open hw htag name (escape value)
    rw [hescape] at hwrite
    rw [runDraft, Instr.run, bind_ok hwrite, ih (w.addText _) hw (.inr htag), Writer.addText_append]
    rfl
  | rawAttribute name source _ ih =>
    intro w hw htag
    have htag : w.tagOpen = true := by simpa using htag
    rw [runDraft, Instr.run, bind_ok (writeAttribute_of_open hw htag name source),
      ih (w.addText _) hw (.inr htag), Writer.addText_append]
    rfl
  | node name _ _ ihcontent ih =>
    intro w hw htag
    have hnode := run_node name (fun v hv hopen => ihcontent v hv (.inr hopen)) hw
    rw [runDraft, bind_ok hnode, ih _ (by simpa using hw) (.inl rfl)]
    simp [Writer.addContent_append, renderPieces, Piece.render]
  | append hsource _ ih =>
    intro w hw htag
    rw [runDraft, Instr.run, bind_ok (writeSource_of_unlimited hw _), hsource,
      ih _ (by simpa using hw) (.inl rfl)]
    simp [Writer.addContent_append, renderPieces_append]

theorem plainDraft_of_denotes {draft : Draft} {as : List Attribute} {ps : List Piece}
    (h : Denotes draft as ps) : PlainDraft draft := by
  induction h with
  | nil => simp [PlainDraft]
  | «attribute» name value _ ih => simp [PlainDraft, Instr.Plain, ih]
  | rawAttribute name source _ ih => simp [PlainDraft, Instr.Plain, ih]
  | node name _ _ ihcontent ih => simp [PlainDraft, Instr.Plain, ihcontent, ih]
  | append _ _ ih => simp [PlainDraft, Instr.Plain, ih]

theorem denotes_rawAttributes (as : List (String × String)) {rest : Draft} {bs : List Attribute}
    {ps : List Piece} (h : Denotes rest bs ps) :
    Denotes (as.map (fun a => .rawAttribute a.1 a.2) ++ rest)
      (as.map (fun a => writtenAttribute a.1.toList a.2.toList) ++ bs) ps := by
  induction as with
  | nil => exact h
  | cons a as ih => exact .rawAttribute a.1 a.2 ih

theorem denotes_children {α : Type} {instr : α → Instr} {element : α → Element} {es : List α}
    (h : ∀ e ∈ es, ∀ (rest : Draft) (ps : List Piece), Denotes rest [] ps →
      Denotes (instr e :: rest) [] (.child (element e) :: ps)) :
    Denotes (es.map instr) [] (es.map fun e => .child (element e)) := by
  induction es with
  | nil => exact .nil
  | cons e es ih =>
    obtain ⟨he, hes⟩ := List.forall_mem_cons.mp h
    exact he _ _ (ih hes)

theorem denotes_source {e : Element} {rest : Draft} {ps : List Piece} (h : Denotes rest [] ps) :
    Denotes (.append (.ofList e.render) :: rest) [] (.child e :: ps) := by
  have hsource : (String.ofList e.render).toList = renderPieces [.child e] := by
    simp [renderPieces, Piece.render]
  exact .append hsource h

theorem rendering_of_denotes {content : Draft} {as : List Attribute} {ps : List Piece}
    (h : Denotes content as ps) (name : String) :
    (Instr.node name content).rendering =
      .ok (.ofList (writtenElement name.toList as ps).render) := by
  have hrun := run_node name (fun v hv hopen => runDraft_of_denotes h v hv (.inr hopen))
    (w := .new none) rfl
  have hne : (writtenElement name.toList as ps).render ≠ [] := by
    rw [writtenElement_render]
    simp
  rw [Instr.rendering, hrun]
  simp [runText, Writer.addContent, Writer.addText, Writer.new, hne]

/-! ## Reading what was written -/

theorem encode_no_quote (s : List Char) : '"' ∉ Reference.encode s := by
  intro h
  obtain ⟨c, _, hc⟩ := List.mem_flatMap.mp h
  unfold Reference.encodeChar at hc
  split at hc
  · simp at hc
  split at hc
  · simp at hc
  split at hc
  · simp at hc
  split at hc
  · simp at hc
  · rename_i hne
    exact hne (List.mem_singleton.mp hc).symm

/-- The value can be written between quotes of one of the kinds. -/
def Quotable (value : List Char) : Prop := '"' ∉ value ∨ '\'' ∉ value

theorem Attribute.Formed.quotable {a : Attribute} (h : a.Formed) : Quotable a.value := by
  have hvalue := h.value
  cases hq : a.quote <;> rw [hq] at hvalue
  · exact .inl hvalue
  · exact .inr hvalue

structure Written (a : Attribute) : Prop where
  formed : a.Formed
  settled : a.Settled
  lead : a.lead = [' ']

theorem written_attribute {name value : List Char} (hname : IsName name)
    (hhead : ∀ c, name.head? = some c → isBlank c = false) (hvalue : Quotable value) :
    Written (writtenAttribute name value) := by
  refine ⟨⟨?_, hname, ?_, ?_, ?_, ?_⟩, hhead, rfl⟩
  · simp [AllBlank, writtenAttribute, isBlank, isSpace]
  · intro c hc
    cases hc
    decide
  · simp [AllBlank, writtenAttribute]
  · simp [AllBlank, writtenAttribute]
  · by_cases hq : '"' ∈ value
    · simpa [writtenAttribute, Quote.char, hq] using hvalue.resolve_left (not_not_intro hq)
    · simp [writtenAttribute, Quote.char, hq]

theorem Piece.Obeys.render_ne_nil {rule : Tag → Prop} {p : Piece} (h : p.Obeys rule) :
    p.render ≠ [] := by
  cases p with
  | char c => simp [Piece.render]
  | markup text =>
    rw [Piece.Obeys] at h
    obtain ⟨c, s, rfl, _⟩ := h.exists_cons
    simp [Piece.render]
  | child e =>
    obtain ⟨s, hs⟩ := e.exists_render_eq
    rw [Piece.render, hs]
    simp [Tag.render]

theorem renderPieces_eq_nil_iff {rule : Tag → Prop} {ps : List Piece} (h : PiecesObey rule ps) :
    renderPieces ps = [] ↔ ps = [] := by
  cases ps with
  | nil => simp [renderPieces]
  | cons p ps =>
    rw [PiecesObey] at h
    simp [renderPieces, h.1.render_ne_nil]

theorem content_writtenElement {rule : Tag → Prop} {name : List Char} {as : List Attribute}
    {ps : List Piece} (h : PiecesObey rule ps) : (writtenElement name as ps).content = ps := by
  unfold writtenElement
  split
  · rename_i hnil
    exact ((renderPieces_eq_nil_iff h).mp hnil).symm
  · rfl

theorem tag_writtenElement (name : List Char) (as : List Attribute) (ps : List Piece) :
    (writtenElement name as ps).tag = ⟨name, as, []⟩ := by
  unfold writtenElement
  split <;> rfl

theorem obeys_writtenElement {name : List Char} {as : List Attribute} {ps : List Piece}
    (hname : IsName name) (has : ∀ a ∈ as, Written a) (hps : PiecesObey Tag.Settled ps) :
    (writtenElement name as ps).Obeys Tag.Settled := by
  have htag : (⟨name, as, []⟩ : Tag).Settled := by
    refine ⟨⟨hname, ?_, fun a ha => (has a ha).formed, by simp [AllBlank]⟩,
      fun a ha => (has a ha).settled⟩
    intro c hc
    cases as with
    | nil => simp at hc
    | cons a as =>
      have hlead := (has a (List.mem_cons_self ..)).lead
      simp [Attribute.render, hlead] at hc
      exact hc ▸ by decide
  unfold writtenElement
  split
  · rwa [Element.Obeys]
  · rw [Element.Obeys]
    exact ⟨htag, hps, by simp [AllBlank], by simp [EndsName]⟩

/-- An element that obeys the grammar is read back from its source. -/
theorem parse_render {e : Element} (he : e.Obeys Tag.Settled) (hplain : ¬ e.tag.OpensMarkup) :
    Element.parse (.ofList e.render) = .ok e := by
  rw [elementParse_eq_ok_iff]
  exact ⟨⟨[], e, []⟩, ⟨⟨by simp, he, by simp⟩, hplain, by simp [Document.render]⟩, rfl⟩

end Overseer.Markup
