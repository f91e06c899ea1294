import Overseer.Proofs.Markup.RoundTrip
import Overseer.Proofs.Markup.Tokens

/-!
Markup items put into a text.  Between two tokens an item changes nothing of what a document says:
`outline?_insert` needs neither that the text is a document nor that the item is well placed in it.
So the question is only whether a comment, an instruction or a section ends where its writer ended
it.  It does unless the closing mark can be completed by the beginning of the body
(`Enclosure.EndsEarly`), since the end of an item may overlap its start (`parse_insert`).
-/

namespace Overseer.Markup

/-! ## Outlines -/

mutual
/-- The element with nothing but its children for content.  Its tags are kept as written. -/
def Element.bare : Element → Element
  | .empty tag => .empty tag
  | .closed tag content gap => .closed tag (barePieces content) gap

def Piece.bare : Piece → List Piece
  | .char _ => []
  | .markup _ => []
  | .child e => [.child e.bare]

def barePieces : List Piece → List Piece
  | [] => []
  | p :: ps => p.bare ++ barePieces ps
end

mutual
theorem tree_bare (e : Element) : e.bare.tree = e.tree := by
  cases e with
  | empty tag => rw [Element.bare]
  | closed tag content gap => rw [Element.bare, Element.tree, Element.tree, treesOf_bare content]

theorem treesOf_bare (ps : List Piece) : treesOf (barePieces ps) = treesOf ps := by
  cases ps with
  | nil => rw [barePieces]
  | cons p ps =>
    have hrest := treesOf_bare ps
    cases p with
    | char c => simpa [barePieces, Piece.bare, treesOf, Piece.tree?] using hrest
    | markup text => simpa [barePieces, Piece.bare, treesOf, Piece.tree?] using hrest
    | child e => simp [barePieces, Piece.bare, treesOf, Piece.tree?, tree_bare e, hrest]
end

theorem barePieces_append (ps qs : List Piece) :
    barePieces (ps ++ qs) = barePieces ps ++ barePieces qs := by
  induction ps with
  | nil => rfl
  | cons p ps ih => simp [barePieces, ih]

theorem barePieces_reverse (ps : List Piece) : barePieces ps.reverse = (barePieces ps).reverse := by
  induction ps with
  | nil => rfl
  | cons p ps ih =>
    have hp : p.bare.reverse = p.bare := by cases p <;> simp [Piece.bare]
    simp [barePieces, barePieces_append, ih, hp]

/-- The bare root of the document that a text is. -/
def outline? (s : List Char) : Option Element := (readDocument s).toOption.map (·.root.bare)

theorem outline?_eq_some_iff {s : List Char} {e : Element} :
    outline? s = some e ↔ ∃ e', Element.parse (.ofList s) = .ok e' ∧ e'.bare = e := by
  rw [outline?, Element.parse, Document.parse, String.toList_ofList]
  cases readDocument s <;> simp [Except.toOption, Except.map, Except.mapError]

/-! ## Reading on after a token -/

/-- The text may stand behind a root element. -/
def isEpilog (s : List Char) : Bool := (readMisc s).toOption.any (·.2.isEmpty)

/-- The outline of a document whose root element was read, with what it left. -/
def finish (r : Except Fault (Element × List Char)) : Option Element :=
  r.toOption.bind fun (e, rest) => if isEpilog rest then some e.bare else none

theorem outline?_eq (s : List Char) :
    outline? s = (readMisc s).toOption.bind fun p => finish (readRoot p.2) := by
  simp only [outline?, readDocument, bind, Except.bind]
  cases readMisc s with
  | error f => rfl
  | ok p =>
    cases hroot : readRoot p.2 with
    | error f => simp [Except.toOption, finish, hroot]
    | ok q =>
      cases hepilog : readMisc q.2 with
      | error f => simp [Except.toOption, finish, isEpilog, hroot, hepilog]
      | ok m =>
        by_cases hm : m.2 = [] <;>
          simp [Except.toOption, finish, isEpilog, hroot, hepilog, hm]

/-- What a token may be around the root element. -/
def Token.misc? : Token → Option Misc
  | .char c => if isBlank c then some (.blank c) else none
  | .markup text => some (.markup text)
  | _ => none

theorem readMisc_token {t : Token} (ht : t.Obeys) {m : Misc} (hm : t.misc? = some m)
    (r : List Char) : readMisc (t.render ++ r) = (readMisc r).map fun p => (m :: p.1, p.2) := by
  cases t with
  | char c =>
    simp only [Token.misc?, Option.ite_none_right_eq_some, Option.some.injEq] at hm
    obtain ⟨hc, rfl⟩ := hm
    exact readMisc_blank hc r
  | markup text =>
    simp only [Token.misc?, Option.some.injEq] at hm
    subst hm
    exact readMisc_item ht r
  | empty tag | opening tag | closing name gap => simp [Token.misc?] at hm

theorem miscEnds_token {t : Token} (ht : t.Obeys) (hm : t.misc? = none) (r : List Char) :
    MiscEnds (t.render ++ r) := by
  cases t with
  | char c =>
    simp only [Token.misc?, ite_eq_right_iff, reduceCtorEq, imp_false, Bool.not_eq_true] at hm
    refine ⟨?_, ?_⟩
    · rintro d hd
      simp only [Token.render, List.singleton_append, List.head?_cons, Option.some.injEq] at hd
      exact hd ▸ hm
    · rw [Option.eq_none_iff_forall_ne_some]
      intro stop hstop
      have hc : c ≠ '<' := ht
      rcases markupEnd?_eq_some_iff.mp hstop with ⟨h, _⟩ | ⟨h, _⟩ | ⟨h, _⟩ | ⟨h, _⟩ <;>
        simp [Token.render, Ne.symm hc] at h
  | markup text => simp [Token.misc?] at hm
  | empty tag | opening tag =>
    simp only [Token.render, List.append_assoc]
    exact miscEnds_tag ht.1 ht.2 _
  | closing name gap =>
    refine ⟨?_, ?_⟩
    · rintro d hd
      simp only [Token.render, List.cons_append, List.head?_cons, Option.some.injEq] at hd
      exact hd ▸ by decide
    · simp [Token.render, markupEnd?_eq_none_iff]

theorem Token.render_ne_nil {t : Token} (ht : t.Obeys) : t.render ≠ [] := by
  cases t with
  | markup text =>
    obtain ⟨c, s, rfl, _⟩ := IsMarkup.exists_cons ht
    simp [Token.render]
  | char c | empty tag | opening tag | closing name gap => simp [Token.render]

theorem isEpilog_token {t : Token} (ht : t.Obeys) (r : List Char) :
    isEpilog (t.render ++ r) = (t.misc?.isSome && isEpilog r) := by
  cases hm : t.misc? with
  | none => simp [isEpilog, readMisc_ends (miscEnds_token ht hm r), Except.toOption,
      Token.render_ne_nil ht]
  | some m =>
    rw [isEpilog, readMisc_token ht hm, isEpilog]
    cases readMisc r <;> rfl

/-- The outline of a document whose first token that is neither a blank nor an item is this one. -/
def start (t : Token) (r : List Char) : Option Element :=
  match t with
  | .empty tag => finish (.ok (.empty tag, r))
  | .opening tag => finish (build ⟨tag, []⟩ [] r)
  | _ => none

theorem outline?_token {t : Token} (ht : t.Obeys) (r : List Char) :
    outline? (t.render ++ r) = if t.misc?.isSome then outline? r else start t r := by
  cases hm : t.misc? with
  | some m =>
    rw [outline?_eq, readMisc_token ht hm, outline?_eq]
    cases readMisc r <;> rfl
  | none =>
    rw [outline?_eq, readMisc_ends (miscEnds_token ht hm r)]
    change finish (readRoot (t.render ++ r)) = start t r
    cases t with
    | char c =>
      have hc : c ≠ '<' := ht
      simp [Token.render, readRoot, expect, hc, finish, start, bind, Except.bind, Except.toOption]
    | markup text => simp [Token.misc?] at hm
    | empty tag =>
      have hobeys : (Element.empty tag).Obeys Tag.Settled := by
        rw [Element.Obeys]
        exact ht.1
      exact congrArg finish (readRoot_complete hobeys ht.2 r)
    | opening tag => exact congrArg finish (readRoot_opening ht.1 r)
    | closing name gap =>
      have hslash : isNameChar '/' = false := by decide
      simp [Token.render, readRoot, expect, readTag, hslash, finish, start, bind, Except.bind,
        Except.toOption]

/-! ## Content that says nothing -/

def Frame.bare (f : Frame) : Frame := ⟨f.tag, barePieces f.content⟩

theorem tag_eq_of_bare {f f' : Frame} (h : f.bare = f'.bare) : f.tag = f'.tag :=
  (Frame.mk.inj h).1

theorem bare_close {f f' : Frame} (h : f.bare = f'.bare) (gap : List Char) :
    (f.close gap).bare = (f'.close gap).bare := by
  simp only [Frame.bare, Frame.mk.injEq] at h
  simp [Frame.close, Element.bare, barePieces_reverse, h]

theorem bare_push {f f' : Frame} {p p' : Piece} (h : f.bare = f'.bare) (hp : p.bare = p'.bare) :
    (f.push p).bare = (f'.push p').bare := by
  simp only [Frame.bare, Frame.mk.injEq] at h
  simp [Frame.bare, Frame.push, barePieces, h, hp]

theorem finish_eq_of_bare {e e' : Element} (h : e.bare = e'.bare) (r : List Char) :
    finish (.ok (e, r)) = finish (.ok (e', r)) := by
  simp [finish, Except.toOption, h]

/-- What is read of a text depends on the open elements only by their tags and children. -/
theorem finish_build {frame frame' : Frame} {outer outer' : List Frame} {s : List Char}
    (hframe : frame.bare = frame'.bare) (houter : outer.map Frame.bare = outer'.map Frame.bare) :
    finish (build frame outer s) = finish (build frame' outer' s) := by
  fun_induction build frame outer s generalizing frame' outer' with
  | case1 frame outer s f hs =>
    rw [build]
    split <;> rename_i heq <;> rw [hs] at heq <;> cases heq
    rfl
  | case2 frame outer s c rest hs ih | case3 frame outer s c rest hs ih
  | case4 frame outer s tag rest hs ih =>
    rw [build_eq_resume hs]
    exact ih (bare_push hframe rfl) houter
  | case5 frame outer s tag rest hs ih =>
    rw [build_eq_resume hs]
    exact ih rfl (by simp [hframe, houter])
  | case6 frame outer s name gap rest hs hname =>
    have hname' : name ≠ frame'.tag.name := tag_eq_of_bare hframe ▸ hname
    simp [build_eq_resume hs, resume, hname', finish, Except.toOption]
  | case7 frame s name gap rest hs hname =>
    obtain rfl : outer' = [] := by simpa using houter.symm
    rw [build_eq_resume hs, resume, if_neg (tag_eq_of_bare hframe ▸ hname)]
    exact finish_eq_of_bare (bare_close hframe gap) rest
  | case8 frame s name gap rest hs hname parent outer ih =>
    obtain ⟨parent', outer', rfl⟩ : ∃ p o, outer' = p :: o := by
      cases outer' with
      | nil => simp at houter
      | cons p o => exact ⟨p, o, rfl⟩
    simp only [List.map_cons, List.cons.injEq] at houter
    rw [build_eq_resume hs, resume, if_neg (tag_eq_of_bare hframe ▸ hname)]
    exact ih (bare_push houter.1 (by simp [Piece.bare, bare_close hframe gap])) houter.2

/-! ## Items between tokens -/

section
variable {item : List Char} (hitem : IsMarkup item) (s : List Char)
include hitem

theorem isEpilog_insert {ts : List Token} (hts : ∀ t ∈ ts, t.Obeys) :
    isEpilog (renderTokens ts ++ (item ++ s)) = isEpilog (renderTokens ts ++ s) := by
  induction ts with
  | nil => exact isEpilog_token (t := .markup item) hitem s
  | cons t ts ih =>
    obtain ⟨ht, hts⟩ := List.forall_mem_cons.mp hts
    simp only [renderTokens, List.flatMap_cons, List.append_assoc] at ih ⊢
    rw [isEpilog_token ht, isEpilog_token ht, ih hts]

theorem build_insert {ts : List Token} (hts : ∀ t ∈ ts, t.Obeys) (frame : Frame)
    (outer : List Frame) : finish (build frame outer (renderTokens ts ++ (item ++ s))) =
      finish (build frame outer (renderTokens ts ++ s)) := by
  induction ts generalizing frame outer with
  | nil =>
    have hread : build frame outer (item ++ s) = build (frame.push (.markup item)) outer s :=
      build_eq_resume (nextToken_markup hitem s)
    simp only [renderTokens, List.flatMap_nil, List.nil_append, hread]
    exact finish_build rfl rfl
  | cons t ts ih =>
    obtain ⟨ht, hrest⟩ := List.forall_mem_cons.mp hts
    have hepilog := isEpilog_insert hitem s hrest
    simp only [renderTokens, List.flatMap_cons, List.append_assoc] at ih hepilog ⊢
    rw [build_eq_resume (nextToken_render ht _), build_eq_resume (nextToken_render ht _)]
    cases t with
    | char c | markup text | empty tag | opening tag => exact ih hrest _ _
    | closing name gap =>
      by_cases hname : name = frame.tag.name
      · cases outer with
        | nil => simp [resume, hname, finish, Except.toOption, hepilog]
        | cons parent outer => simpa [resume, hname] using ih hrest _ _
      · simp [resume, hname, finish, Except.toOption]

/-- An item between two tokens does not change what a text says, whatever comes behind it. -/
theorem outline?_insert {ts : List Token} (hts : ∀ t ∈ ts, t.Obeys) :
    outline? (renderTokens ts ++ (item ++ s)) = outline? (renderTokens ts ++ s) := by
  induction ts with
  | nil => exact outline?_token (t := .markup item) hitem s
  | cons t ts ih =>
    obtain ⟨ht, hts⟩ := List.forall_mem_cons.mp hts
    have hbuild := build_insert hitem s hts
    have hrest := isEpilog_insert hitem s hts
    simp only [renderTokens, List.flatMap_cons, List.append_assoc] at ih hbuild hrest ⊢
    rw [outline?_token ht, outline?_token ht, ih hts]
    cases t with
    | empty tag => simp [start, finish, Except.toOption, hrest]
    | opening tag => simp [start, hbuild]
    | char c | markup text | closing name gap => rfl

end

/-! ## Bodies between marks -/

/-- The items that hold a body. -/
inductive Enclosure where
  | comment
  | instruction
  | cdata
  deriving DecidableEq, Repr

namespace Enclosure

def opening : Enclosure → List Char
  | .comment => ['<', '!', '-', '-']
  | .instruction => ['<', '?']
  | .cdata => ['<', '!', '[', 'C', 'D', 'A', 'T', 'A', '[']

def closing : Enclosure → List Char
  | .comment => ['-', '-', '>']
  | .instruction => ['?', '>']
  | .cdata => [']', ']', '>']

def wrap (k : Enclosure) (body : List Char) : List Char := k.opening ++ body ++ k.closing

/-- What completes the end of an opening mark to a closing one. -/
def seams : Enclosure → List (List Char)
  | .comment => [['>'], ['-', '>']]
  | .instruction => [['>']]
  | .cdata => []

def EndsEarly (k : Enclosure) (body : List Char) : Prop := ∃ seam ∈ k.seams, seam <+: body

instance (k : Enclosure) (body : List Char) : Decidable (k.EndsEarly body) :=
  inferInstanceAs (Decidable (∃ seam ∈ k.seams, seam <+: body))

/-- The seams are all the ways in which the marks overlap. -/
theorem mem_seams {k : Enclosure} {first last : List Char} (hfirst : first ≠ []) (hlast : last ≠ [])
    (hmark : first ++ last = k.closing) (hend : first <:+ k.opening) : last ∈ k.seams := by
  have hdrop : last = k.closing.drop first.length := by rw [← hmark, List.drop_left]
  have htake : first = k.closing.take first.length := by rw [← hmark, List.take_left]
  have hlen : 0 < first.length ∧ first.length < k.closing.length := by
    rw [← hmark, List.length_append]
    have := List.length_pos_iff.mpr hfirst
    have := List.length_pos_iff.mpr hlast
    omega
  have hall : ∀ n < k.closing.length, 0 < n → k.closing.take n <:+ k.opening →
      k.closing.drop n ∈ k.seams := by
    cases k <;> decide
  rw [hdrop]
  exact hall first.length hlen.2 hlen.1 (htake ▸ hend)

theorem isMarkup_of_upTo {k : Enclosure} {s : List Char} (hstart : k.opening <+: s)
    (hend : UpTo k.closing s) : IsMarkup s := by
  cases k with
  | comment => exact .comment hstart hend
  | instruction => exact .instruction hstart hend
  | cdata => exact .cdata hstart hend

/-- A closing mark overlaps another one nowhere. -/
theorem closing_unbordered (k : Enclosure) {s : List Char} (hstart : s <+: k.closing)
    (hend : s <:+ k.closing) : s = [] ∨ s = k.closing := by
  have hall : ∀ n ≤ k.closing.length, k.closing.take n <:+ k.closing →
      k.closing.take n = [] ∨ k.closing.take n = k.closing := by
    cases k <;> decide
  have htake := List.prefix_iff_eq_take.mp hstart
  rw [htake] at hend ⊢
  exact hall s.length hstart.length_le hend

theorem closing_not_in_opening (k : Enclosure) : ¬ k.closing <:+: k.opening := by
  cases k <;> decide

/-- An item ends with its closing mark, unless it ends early. -/
theorem isMarkup_wrap {k : Enclosure} {body : List Char} (hbody : ¬ k.closing <:+: body)
    (hlate : ¬ k.EndsEarly body) : IsMarkup (k.wrap body) := by
  have hopening : ∀ v z : List Char, k.opening ++ body ≠ v ++ k.closing ++ z := by
    intro v z h
    rw [List.append_assoc, List.append_eq_append_iff] at h
    rcases h with ⟨x, _, hx⟩ | ⟨first, hopen, h⟩
    · -- the mark would stand in the body
      exact hbody ⟨x, z, by simp [hx]⟩
    rcases List.append_eq_append_iff.mp h with ⟨x, hx, _⟩ | ⟨last, hmark, hlast⟩
    · -- in the opening mark
      exact closing_not_in_opening k ⟨v, x, by rw [hopen, hx, List.append_assoc]⟩
    by_cases hfirst : first = []
    · subst hfirst
      exact hbody ⟨[], z, by simp [hlast, hmark]⟩
    by_cases hnil : last = []
    · subst hnil
      exact closing_not_in_opening k ⟨v, [], by simp [hopen, hmark]⟩
    · -- or in both
      exact hlate ⟨last, mem_seams hfirst hnil hmark.symm ⟨v, hopen.symm⟩, ⟨z, hlast.symm⟩⟩
  refine isMarkup_of_upTo ⟨body ++ k.closing, by simp [wrap]⟩ ⟨⟨k.opening ++ body, rfl⟩, ?_⟩
  intro v w h
  rw [wrap, List.append_assoc v, List.append_eq_append_iff] at h
  rcases h with ⟨x, _, hx⟩ | ⟨x, hv, hx⟩
  · -- no room is left for anything behind the mark
    have hlen := congrArg List.length hx
    simp only [List.length_append] at hlen
    exact List.length_eq_zero_iff.mp (by omega)
  rcases List.append_eq_append_iff.mp hx with ⟨y, hy, _⟩ | ⟨y, hmark, hy⟩
  · exact absurd (by rw [hv, hy, List.append_assoc]) (hopening v y)
  rcases closing_unbordered k ⟨w, hy.symm⟩ ⟨x, hmark.symm⟩ with rfl | rfl
  · exact absurd (by rw [hv, hmark]; simp) (hopening v [])
  · simpa using hy

theorem isMarkup_seam {k : Enclosure} {seam : List Char} (h : seam ∈ k.seams) :
    IsMarkup (k.opening ++ seam) := by
  have hall : ∀ seam ∈ k.seams,
      splitPast k.closing (k.opening ++ seam) = some (k.opening ++ seam, []) := by
    cases k <;> decide
  exact isMarkup_of_upTo (List.prefix_append ..) (upTo_of_splitPast (hall seam h))

end Enclosure

/-- A comment, an instruction or a section between two tokens of a document leaves its root as it
is, tags and nesting, unless its body starts with what completes the closing mark.  Then the item
ends there, and the rest of the body and the closing mark are read as if they stood in its place. -/
theorem parse_insert {text : String} {d : Document} (hparse : Document.parse text = .ok d)
    {ts us : List Token} (hsplit : d.tokens = ts ++ us) (k : Enclosure) {body : List Char}
    (hbody : ¬ k.closing <:+: body) :
    text.toList = renderTokens ts ++ renderTokens us ∧
    (¬ k.EndsEarly body → ∃ e,
      Element.parse (.ofList (renderTokens ts ++ (k.wrap body ++ renderTokens us))) = .ok e ∧
      e.bare = d.root.bare ∧ e.tree = d.root.tree) ∧
    ∀ seam ∈ k.seams, ∀ rest, body = seam ++ rest →
      outline? (renderTokens ts ++ (k.wrap body ++ renderTokens us)) =
        outline? (renderTokens ts ++ (rest ++ k.closing ++ renderTokens us)) := by
  have hderives := documentParse_eq_ok_iff.mp hparse
  have htext : text.toList = renderTokens ts ++ renderTokens us := by
    rw [← hderives.render, ← d.renderTokens_eq, hsplit, renderTokens_append]
  have hts : ∀ t ∈ ts, t.Obeys := by
    intro t ht
    refine Document.obey_tokens hderives.obeys hderives.plain t ?_
    rw [hsplit]
    exact List.mem_append_left us ht
  refine ⟨htext, fun hlate => ?_, ?_⟩
  · have hroot : outline? (renderTokens ts ++ renderTokens us) = some d.root.bare := by
      rw [← htext, ← hderives.render, outline?, readDocument_complete hderives.obeys hderives.plain]
      rfl
    rw [← outline?_insert (Enclosure.isMarkup_wrap hbody hlate) _ hts] at hroot
    obtain ⟨e, hread, hbare⟩ := outline?_eq_some_iff.mp hroot
    exact ⟨e, hread, hbare, by rw [← tree_bare e, hbare, tree_bare]⟩
  · rintro seam hseam rest rfl
    have hitem := outline?_insert (Enclosure.isMarkup_seam hseam)
      (rest ++ k.closing ++ renderTokens us) hts
    rw [← hitem]
    simp [Enclosure.wrap]

theorem children_length_of_tree {e e' : Element} (h : e.tree = e'.tree) :
    e.children.length = e'.children.length := by
  rw [tree_eq_of_queries, tree_eq_of_queries, Tree.node.injEq] at h
  simpa using congrArg List.length h.2.2

/-- A commented-out child between a blank and a child stays out of the tree. -/
theorem commented_child_parse_insert : ∃ d,
    Document.parse "<a> <b/></a>" = .ok d ∧
    d.tokens = [.opening ⟨['a'], [], []⟩, .char ' '] ++
      [.empty ⟨['b'], [], []⟩, .closing ['a'] []] ∧
    ¬ Enclosure.comment.closing <:+: "<c/>--".toList ∧
    ∃ e, Element.parse "<a> <!--<c/>----><b/></a>" = .ok e ∧ e.tree = d.root.tree := by
  obtain ⟨d, hparse, htokens⟩ := exists_of_parse "<a> <b/></a>" Document.tokens
    (a := [.opening ⟨['a'], [], []⟩, .char ' '] ++ [.empty ⟨['b'], [], []⟩, .closing ['a'] []])
    (by decide +kernel)
  have hbody : ¬ Enclosure.comment.closing <:+: "<c/>--".toList := by decide +kernel
  obtain ⟨_, hlate, _⟩ := parse_insert hparse htokens .comment hbody
  obtain ⟨e, hread, _, htree⟩ := hlate (by decide +kernel)
  exact ⟨d, hparse, htokens, hbody, e, hread, htree⟩

/-- The comment whose body is `><b/>` ends after its fifth character, so what it was to hide is a
child. -/
theorem commented_child_read : ∃ d,
    Document.parse "<a></a>" = .ok d ∧
    d.tokens = [.opening ⟨['a'], [], []⟩] ++ [.closing ['a'] []] ∧
    ¬ Enclosure.comment.closing <:+: "><b/>".toList ∧
    ∃ e, Element.parse (.ofList (renderTokens [.opening ⟨['a'], [], []⟩] ++
        (Enclosure.comment.wrap "><b/>".toList ++ renderTokens [.closing ['a'] []]))) = .ok e ∧
      e.children.map Element.name = ["b"] ∧ e.tree ≠ d.root.tree := by
  obtain ⟨d, hparse, hd⟩ := exists_of_parse "<a></a>"
    (fun d => (d.tokens, d.root.children.length))
    (a := ([.opening ⟨['a'], [], []⟩] ++ [.closing ['a'] []], 0)) (by decide +kernel)
  obtain ⟨htokens, hnone⟩ := Prod.mk.inj hd
  obtain ⟨d', hparse', hnames⟩ := exists_of_parse "<a><!--><b/>--></a>"
    (fun d => d.root.children.map Element.name) (a := ["b"]) (by decide +kernel)
  refine ⟨d, hparse, htokens, by decide +kernel, d'.root, ?_, hnames, fun htree => ?_⟩
  · change (Document.parse "<a><!--><b/>--></a>").map Document.root = .ok d'.root
    rw [hparse']
    rfl
  · have hlength := congrArg List.length hnames
    rw [List.length_map, children_length_of_tree htree, hnone] at hlength
    simp at hlength

end Overseer.Markup
