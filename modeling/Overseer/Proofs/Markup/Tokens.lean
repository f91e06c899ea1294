import Overseer.Proofs.Markup.Reading

/-!
The tokens of a document, in order.  Written one after the other they are its text
(`Document.renderTokens_eq`), and each of them is read whatever comes behind it
(`Document.obey_tokens`).
-/

namespace Overseer.Markup

def Misc.token : Misc → Token
  | .blank c => .char c
  | .markup text => .markup text

mutual
def Element.tokens : Element → List Token
  | .empty tag => [.empty tag]
  | .closed tag content gap => .opening tag :: (tokensOf content ++ [.closing tag.name gap])

def Piece.tokens : Piece → List Token
  | .char c => [.char c]
  | .markup text => [.markup text]
  | .child e => e.tokens

def tokensOf : List Piece → List Token
  | [] => []
  | p :: ps => p.tokens ++ tokensOf ps
end

def Document.tokens (d : Document) : List Token :=
  d.prolog.map Misc.token ++ d.root.tokens ++ d.epilog.map Misc.token

def renderTokens (ts : List Token) : List Char := ts.flatMap Token.render

theorem renderTokens_cons (t : Token) (ts : List Token) :
    renderTokens (t :: ts) = t.render ++ renderTokens ts := List.flatMap_cons

theorem renderTokens_append (ts us : List Token) :
    renderTokens (ts ++ us) = renderTokens ts ++ renderTokens us :=
  List.flatMap_append

mutual
theorem renderTokens_element (e : Element) : renderTokens e.tokens = e.render := by
  cases e with
  | empty tag => simp [Element.tokens, renderTokens, Token.render, Element.render]
  | closed tag content gap =>
    have hcontent := renderTokens_pieces content
    simp only [renderTokens] at hcontent
    simp [Element.tokens, renderTokens, hcontent, Token.render, Element.render]

theorem renderTokens_piece (p : Piece) : renderTokens p.tokens = p.render := by
  cases p with
  | char c => rfl
  | markup text => simp [Piece.tokens, renderTokens, Token.render, Piece.render]
  | child e =>
    rw [Piece.tokens, Piece.render]
    exact renderTokens_element e

theorem renderTokens_pieces (ps : List Piece) : renderTokens (tokensOf ps) = renderPieces ps := by
  cases ps with
  | nil => rfl
  | cons p ps =>
    rw [tokensOf, renderTokens_append, renderTokens_piece p, renderTokens_pieces ps, renderPieces]
end

theorem Misc.render_token (m : Misc) : m.token.render = m.render := by
  cases m <;> rfl

theorem renderTokens_misc (ms : List Misc) :
    renderTokens (ms.map Misc.token) = ms.flatMap Misc.render := by
  rw [renderTokens, List.flatMap_map]
  exact congrArg (List.flatMap · ms) (funext Misc.render_token)

theorem Document.renderTokens_eq (d : Document) : renderTokens d.tokens = d.render := by
  rw [Document.tokens, renderTokens_append, renderTokens_append, renderTokens_misc,
    renderTokens_misc, renderTokens_element, Document.render]

mutual
theorem obey_element {e : Element} (he : e.Obeys Tag.Settled) (hplain : ¬ e.tag.OpensMarkup) :
    ∀ t ∈ e.tokens, t.Obeys := by
  cases e with
  | empty tag =>
    rw [Element.Obeys] at he
    rw [Element.tokens, List.forall_mem_singleton]
    exact ⟨he, hplain⟩
  | closed tag content gap =>
    rw [Element.Obeys] at he
    obtain ⟨htag, hcontent, hgap, hended⟩ := he
    intro t ht
    simp only [Element.tokens, List.mem_cons, List.mem_append, List.not_mem_nil, or_false] at ht
    rcases ht with rfl | ht | rfl
    · exact ⟨htag, hplain⟩
    · exact obey_pieces hcontent t ht
    · exact ⟨htag.name.2, hgap, hended⟩

theorem obey_piece {p : Piece} (hp : p.Obeys Tag.Settled) : ∀ t ∈ p.tokens, t.Obeys := by
  cases p with
  | char c =>
    rw [Piece.Obeys] at hp
    simpa [Piece.tokens, Token.Obeys] using hp
  | markup text =>
    rw [Piece.Obeys] at hp
    simpa [Piece.tokens, Token.Obeys] using hp
  | child e =>
    rw [Piece.Obeys] at hp
    rw [Piece.tokens]
    exact obey_element hp.2 hp.1

theorem obey_pieces {ps : List Piece} (hps : PiecesObey Tag.Settled ps) :
    ∀ t ∈ tokensOf ps, t.Obeys := by
  cases ps with
  | nil => simp [tokensOf]
  | cons p ps =>
    rw [PiecesObey] at hps
    rw [tokensOf, List.forall_mem_append]
    exact ⟨obey_piece hps.1, obey_pieces hps.2⟩
end

theorem obey_misc {m : Misc} (hm : m.Obeys) : m.token.Obeys := by
  cases m with
  | blank c =>
    rintro rfl
    have hbracket : isBlank '<' = true := hm
    exact absurd hbracket (by decide)
  | markup text => exact hm

theorem Document.obey_tokens {d : Document} (hd : d.Obeys Tag.Settled)
    (hplain : ¬ d.root.tag.OpensMarkup) : ∀ t ∈ d.tokens, t.Obeys := by
  simp only [Document.tokens, List.forall_mem_append, List.forall_mem_map]
  exact ⟨⟨fun m hm => obey_misc (hd.prolog m hm), obey_element hd.root hplain⟩,
    fun m hm => obey_misc (hd.epilog m hm)⟩

end Overseer.Markup
