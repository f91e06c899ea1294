import Overseer.Proofs.Markup.Writing

/-!
What a limit cuts off.  Where there is room for everything, the one way for a draft to fail is an
attribute after content (`runDraft_unlimited`).  Within a limit the draft ends as it does there, or,
if what it writes there is too long, with a proper prefix of it (`runDraft_cut`).
-/

namespace Overseer.Markup

/-- How a run ended. -/
def runOutcome : Run → Except Error Unit
  | .ok _ _ => .ok ()
  | .error e _ => .error e

/-- An attribute came after content, and nothing was written since. -/
def Writer.lateAttribute (w : Writer) : Error :=
  .malformed w.text.utf8ByteSize "attribute written after element content"

/-- The run is done, or an attribute came too late. -/
def EndsWell (r : Run) : Prop :=
  runOutcome r = .ok () ∨ runOutcome r = .error (runState r).lateAttribute

/-! ## Drafts that have room -/

theorem endsWell_ok (w : Writer) : EndsWell (.ok () w) := .inl rfl

theorem endsWell_bind {a b : WriteM Unit} {w : Writer} (ha : EndsWell (a w))
    (hb : ∀ v, a w = .ok () v → EndsWell (b v)) : EndsWell ((do a; b) w) := by
  cases h : a w with
  | ok _ v =>
    rw [bind_ok h]
    exact hb v h
  | error e v =>
    rw [h] at ha
    rw [bind_error h]
    exact ha

theorem closeNode_unlimited {w : Writer} (hw : w.limit = none) (name : String) :
    ∃ v, closeNode name w = .ok () v := by
  cases htag : w.tagOpen
  · exact ⟨_, closeNode_of_closed hw htag name⟩
  · exact ⟨_, closeNode_of_open hw htag name⟩

theorem endsWell_writeAttribute {w : Writer} (hw : w.limit = none) (name source : String) :
    EndsWell (writeAttribute name source w) := by
  cases htag : w.tagOpen
  · have hlate : writeAttribute name source w = .error w.lateAttribute w := by
      rw [writeAttribute, get_bind, if_neg (by simp [htag])]
      rfl
    rw [hlate]
    exact .inr rfl
  · rw [writeAttribute_of_open hw htag]
    exact endsWell_ok _

mutual
theorem endsWell_run : (instr : Instr) → instr.Plain → ∀ w : Writer, w.limit = none →
    EndsWell (instr.run w)
  | .node name content, h, w, hw => by
    rw [Instr.Plain] at h
    let opened : Writer := { w.addContent ('<' :: name.toList) with tagOpen := true }
    have hopened : opened.limit = none := by simpa [opened] using hw
    have hopen : openNode name w = .ok () opened := openNode_of_unlimited hw name
    rw [Instr.run, bind_ok hopen]
    refine endsWell_bind (endsWell_runDraft content h opened hopened) fun v hrun => ?_
    have hlimit := (limitable_runDraft content h).limit opened hopened
    rw [hrun] at hlimit
    obtain ⟨_, hclose⟩ := closeNode_unlimited (w := v) hlimit name
    rw [hclose]
    exact endsWell_ok _
  | .attribute name value, _, w, hw => by
    rw [Instr.run]
    exact endsWell_writeAttribute hw name (escape value)
  | .rawAttribute name source, _, w, hw => by
    rw [Instr.run]
    exact endsWell_writeAttribute hw name source
  | .append source, _, w, hw => by
    rw [Instr.run, writeSource_of_unlimited hw]
    exact endsWell_ok _
  | .measure, _, w, _ => by
    rw [Instr.run]
    exact endsWell_ok _
  | .attempt _, h, _, _ => by
    rw [Instr.Plain] at h
    exact h.elim

theorem endsWell_runDraft : (draft : List Instr) → PlainDraft draft → ∀ w : Writer,
    w.limit = none → EndsWell (runDraft draft w)
  | [], _, w, _ => by
    rw [runDraft]
    exact endsWell_ok w
  | instr :: draft, h, w, hw => by
    rw [PlainDraft] at h
    rw [runDraft]
    refine endsWell_bind (endsWell_run instr h.1 w hw) fun v hrun => ?_
    have hlimit := (limitable_run instr h.1).limit w hw
    rw [hrun] at hlimit
    exact endsWell_runDraft draft h.2 v hlimit
end

/-! ## Drafts within a limit -/

theorem runOutcome_runWithin (limit : Nat) (r : Run) :
    runOutcome (runWithin limit r) = runOutcome r := by
  cases r <;> rfl

theorem text_runWithin (limit : Nat) (r : Run) :
    (runState (runWithin limit r)).text = (runState r).text := by
  cases r <;> rfl

/-- A run that stops at the limit has written a proper prefix of what is longer than the limit. -/
theorem StopsWithin.proper {limit : Nat} {whole : String} {r : Run}
    (h : StopsWithin limit whole r) (hlong : limit < whole.utf8ByteSize) :
    runOutcome r = .error (.bufferExceeded limit) ∧
      (runState r).text.utf8ByteSize ≤ limit ∧
      ∃ rest, rest ≠ "" ∧ whole = (runState r).text ++ rest := by
  obtain ⟨w, rest, rfl, hwhole, hle⟩ := h
  refine ⟨rfl, hle, rest, ?_, hwhole⟩
  rintro rfl
  rw [String.append_empty] at hwhole
  rw [hwhole] at hlong
  exact absurd hlong (Nat.not_lt.mpr hle)

/-- A limit does not change what a draft writes, only how far it gets.  With room for everything the
draft is done, or an attribute comes after content.  A limit that holds the text changes neither the
end nor the text; any other stops the draft, with a proper prefix of the text that is within the
limit. -/
theorem runDraft_cut {draft : Draft} (hplain : PlainDraft draft) (limit : Nat) :
    let whole := runDraft draft (.new none)
    let cut := runDraft draft (.new (some limit))
    (runOutcome whole = .ok () ∨ runOutcome whole = .error (runState whole).lateAttribute) ∧
    if (runState whole).text.utf8ByteSize ≤ limit then
      runOutcome cut = runOutcome whole ∧ (runState cut).text = (runState whole).text
    else
      runOutcome cut = .error (.bufferExceeded limit) ∧
        (runState cut).text.utf8ByteSize ≤ limit ∧
        ∃ rest, rest ≠ "" ∧ (runState whole).text = (runState cut).text ++ rest := by
  intro whole cut
  have hlimit := limitable_runDraft draft hplain
  refine ⟨endsWell_runDraft draft hplain (.new none) rfl, ?_⟩
  split
  · rename_i hle
    have hcut : cut = runWithin limit whole := hlimit.fits (.new none) limit rfl hle
    rw [hcut, runOutcome_runWithin, text_runWithin]
    exact ⟨rfl, rfl⟩
  · rename_i hlong
    have hlong := Nat.not_le.mp hlong
    have hstops := hlimit.stops (.new none) limit rfl (Nat.zero_le _) hlong
    exact hstops.proper hlong

/-- Two nodes, one in the other, and an attribute too late. -/
def lateDraft : Draft :=
  [.node "a" [.attribute "name" "x>y", .node "b" [], .rawAttribute "late" "1"]]

/-- Eight bytes hold the first tag up to the value of its attribute. -/
theorem lateDraft_cut :
    runOutcome (runDraft lateDraft (.new none)) =
        .error (.malformed 21 "attribute written after element content") ∧
      runOutcome (runDraft lateDraft (.new (some 8))) = .error (.bufferExceeded 8) ∧
      ∃ rest, rest ≠ "" ∧ (runState (runDraft lateDraft (.new none))).text =
        (runState (runDraft lateDraft (.new (some 8)))).text ++ rest := by
  have hplain : PlainDraft lateDraft := by simp [lateDraft, PlainDraft, Instr.Plain]
  have hlong : ¬ (runState (runDraft lateDraft (.new none))).text.utf8ByteSize ≤ 8 := by
    decide +kernel
  have hcut := runDraft_cut hplain 8
  simp only [if_neg hlong] at hcut
  refine ⟨?_, hcut.2.1, hcut.2.2.2⟩
  decide +kernel

end Overseer.Markup
