import Overseer.Markup.Draft

/-!
A limit does not change what a draft writes, only how far it gets.  `Limitable` says so of one
action and is kept by sequences, so it holds of every draft that lets its errors pass.
-/

namespace Overseer.Markup

abbrev Run := EStateM.Result Error Writer Unit

def runState : Run → Writer
  | .ok _ w => w
  | .error _ w => w

/-- The text that was written, or why writing stopped. -/
def runText : Run → Except Error String
  | .ok _ w => .ok w.text
  | .error e _ => .error e

/-- What an instruction writes where there is room for everything. -/
def Instr.rendering (instr : Instr) : Except Error String := runText (instr.run (.new none))

def Writer.within (w : Writer) (limit : Nat) : Writer := { w with limit := some limit }

/-- The same outcome with a limit on the writer. -/
def runWithin (limit : Nat) : Run → Run
  | .ok _ w => .ok () (w.within limit)
  | .error e w => .error e (w.within limit)

/-- A run that stopped at the limit with a part of the text `whole`. -/
def StopsWithin (limit : Nat) (whole : String) (r : Run) : Prop :=
  ∃ w s, r = .error (.bufferExceeded limit) w ∧ whole = w.text ++ s ∧ w.text.utf8ByteSize ≤ limit

/-- Without a limit the action adds a text.  Within a limit that holds the result it does the same,
and within any other it stops on the way. -/
structure Limitable (a : WriteM Unit) : Prop where
  limit : ∀ w : Writer, w.limit = none → (runState (a w)).limit = none
  text : ∀ w : Writer, w.limit = none → ∃ s, (runState (a w)).text = w.text ++ s
  fits : ∀ (w : Writer) (n : Nat), w.limit = none → (runState (a w)).text.utf8ByteSize ≤ n →
    a (w.within n) = runWithin n (a w)
  stops : ∀ (w : Writer) (n : Nat), w.limit = none → w.text.utf8ByteSize ≤ n →
    n < (runState (a w)).text.utf8ByteSize → StopsWithin n (runState (a w)).text (a (w.within n))

/-! ## Sequences -/

theorem bind_ok {a b : WriteM Unit} {w w' : Writer} (h : a w = .ok () w') :
    (do a; b) w = b w' := by
  simp [bind, EStateM.bind, h]

theorem bind_error {a b : WriteM Unit} {w w' : Writer} {e : Error} (h : a w = .error e w') :
    (do a; b) w = .error e w' := by
  simp [bind, EStateM.bind, h]

theorem get_bind {f : Writer → WriteM Unit} (w : Writer) :
    (do let w ← get; f w : WriteM Unit) w = f w w := rfl

/-- An action that writes nothing has nothing to stop at. -/
theorem Limitable.of_text_eq {a : WriteM Unit} (hlimit : ∀ w, (runState (a w)).limit = w.limit)
    (htext : ∀ w, (runState (a w)).text = w.text)
    (hwithin : ∀ w n, a (w.within n) = runWithin n (a w)) : Limitable a where
  limit w hw := (hlimit w).trans hw
  text w _ := ⟨"", by rw [htext, String.append_empty]⟩
  fits w n _ _ := hwithin w n
  stops w n _ hle hlt := by
    rw [htext] at hlt
    omega

theorem Limitable.pure : Limitable (pure ()) :=
  .of_text_eq (fun _ => rfl) (fun _ => rfl) fun _ _ => rfl

theorem Limitable.bind_text {a b : WriteM Unit} (ha : Limitable a) (hb : Limitable b) (w : Writer)
    (hw : w.limit = none) : ∃ s, (runState ((do a; b) w)).text = w.text ++ s := by
  have hlimit := ha.limit w hw
  obtain ⟨s, hs⟩ := ha.text w hw
  cases h : a w with
  | ok _ w' =>
    rw [h] at hlimit hs
    obtain ⟨t, ht⟩ := hb.text w' hlimit
    rw [bind_ok h, ht]
    exact ⟨s ++ t, by rw [← String.append_assoc, ← hs]; rfl⟩
  | error e w' =>
    rw [h] at hs
    rw [bind_error h]
    exact ⟨s, hs⟩

/-- Writing more needs no less room. -/
theorem Limitable.le_of_le {b : WriteM Unit} (hb : Limitable b) {w : Writer} {n : Nat}
    (hw : w.limit = none) (hn : (runState (b w)).text.utf8ByteSize ≤ n) :
    w.text.utf8ByteSize ≤ n := by
  obtain ⟨t, ht⟩ := hb.text w hw
  rw [ht, String.utf8ByteSize_append] at hn
  omega

theorem Limitable.bind_fits {a b : WriteM Unit} (ha : Limitable a) (hb : Limitable b) (w : Writer)
    (n : Nat) (hw : w.limit = none) (hn : (runState ((do a; b) w)).text.utf8ByteSize ≤ n) :
    (do a; b) (w.within n) = runWithin n ((do a; b) w) := by
  have hlimit := ha.limit w hw
  have hfits := ha.fits w n hw
  cases h : a w with
  | ok _ w' =>
    rw [h] at hlimit hfits
    rw [bind_ok h] at hn ⊢
    rw [bind_ok (hfits (hb.le_of_le hlimit hn)), hb.fits w' n hlimit hn]
  | error e w' =>
    rw [h] at hfits
    rw [bind_error h] at hn ⊢
    rw [bind_error (hfits hn)]
    rfl

theorem Limitable.bind_stops {a b : WriteM Unit} (ha : Limitable a) (hb : Limitable b) (w : Writer)
    (n : Nat) (hw : w.limit = none) (hn : w.text.utf8ByteSize ≤ n)
    (hlt : n < (runState ((do a; b) w)).text.utf8ByteSize) :
    StopsWithin n (runState ((do a; b) w)).text ((do a; b) (w.within n)) := by
  have hlimit := ha.limit w hw
  have hfits := ha.fits w n hw
  have hstops := ha.stops w n hw hn
  cases h : a w with
  | ok _ w' =>
    rw [h] at hlimit hfits hstops
    rw [bind_ok h] at hlt ⊢
    by_cases hle : w'.text.utf8ByteSize ≤ n
    · rw [bind_ok (hfits hle)]
      exact hb.stops w' n hlimit hle hlt
    · obtain ⟨v, s, hv, hs, hvn⟩ := hstops (Nat.not_le.mp hle)
      obtain ⟨t, ht⟩ := hb.text w' hlimit
      rw [bind_error hv]
      refine ⟨v, s ++ t, rfl, ?_, hvn⟩
      rw [ht, ← String.append_assoc, ← hs]
      rfl
  | error e w' =>
    rw [h] at hstops
    rw [bind_error h] at hlt ⊢
    obtain ⟨v, s, hv, hs, hvn⟩ := hstops hlt
    rw [bind_error hv]
    exact ⟨v, s, rfl, hs, hvn⟩

theorem Limitable.bind {a b : WriteM Unit} (ha : Limitable a) (hb : Limitable b) :
    Limitable (do a; b) where
  limit w hw := by
    have hlimit := ha.limit w hw
    cases h : a w with
    | ok _ w' =>
      rw [h] at hlimit
      rw [bind_ok h]
      exact hb.limit w' hlimit
    | error e w' =>
      rw [h] at hlimit
      rw [bind_error h]
      exact hlimit
  text := ha.bind_text hb
  fits := ha.bind_fits hb
  stops := ha.bind_stops hb

/-- An action that looks at the writer first may look at everything but its limit. -/
theorem Limitable.inspect {f : Writer → WriteM Unit} (hf : ∀ w, Limitable (f w))
    (hlimit : ∀ w n, f (w.within n) = f w) : Limitable (do let w ← get; f w) := by
  refine ⟨?_, ?_, ?_, ?_⟩
  · intro w hw
    rw [get_bind]
    exact (hf w).limit w hw
  · intro w hw
    rw [get_bind]
    exact (hf w).text w hw
  · intro w n hw hn
    rw [get_bind] at hn ⊢
    rw [get_bind, hlimit]
    exact (hf w).fits w n hw hn
  · intro w n hw hn hlt
    rw [get_bind] at hlt ⊢
    rw [get_bind, hlimit]
    exact (hf w).stops w n hw hn hlt

/-- Within a limit that holds what is written without one, an action ends as it does there; any other
limit stops it. -/
theorem Limitable.runText_eq {a : WriteM Unit} (ha : Limitable a) (limit : Nat) :
    runText (a (.new (some limit))) =
      if (runState (a (.new none))).text.utf8ByteSize ≤ limit then runText (a (.new none))
      else .error (.bufferExceeded limit) := by
  have hnew : Writer.new (some limit) = (Writer.new none).within limit := rfl
  rw [hnew]
  split
  · rename_i hle
    rw [ha.fits (.new none) limit rfl hle]
    cases a (.new none) <;> rfl
  · rename_i hgt
    obtain ⟨v, s, hv, _, _⟩ := ha.stops (.new none) limit rfl (Nat.zero_le _) (Nat.not_le.mp hgt)
    rw [hv]
    rfl

/-! ## Writing -/

theorem limitable_push (s : String) : Limitable (push s) where
  limit w hw := by simp [push, hw, runState]
  text w hw := ⟨s, by simp [push, hw, runState]⟩
  fits w n hw hn := by
    simp only [push, hw, runState, String.utf8ByteSize_append] at hn
    simp [push, hw, Writer.within, hn, runWithin]
  stops w n hw hn hlt := by
    simp only [push, hw, runState, String.utf8ByteSize_append] at hlt
    refine ⟨w.within n, s, ?_, by simp [push, hw, runState, Writer.within], hn⟩
    simp [push, Writer.within, Nat.not_le.mpr hlt]

theorem limitable_setTagOpen (tagOpen : Bool) : Limitable (setTagOpen tagOpen) :=
  .of_text_eq (fun _ => rfl) (fun _ => rfl) fun _ _ => rfl

theorem limitable_throw (e : Error) : Limitable (throw e) :=
  .of_text_eq (fun _ => rfl) (fun _ => rfl) fun _ _ => rfl

theorem limitable_note (n : Note) : Limitable (note n) :=
  .of_text_eq (fun _ => rfl) (fun _ => rfl) fun _ _ => rfl

theorem limitable_closeTag (bracket : String) {otherwise : WriteM Unit}
    (h : Limitable otherwise) : Limitable (closeTag bracket otherwise) := by
  refine .inspect (fun w => ?_) fun w n => rfl
  cases w.tagOpen
  · exact h
  · exact (limitable_setTagOpen false).bind (limitable_push bracket)

theorem limitable_openNode (name : String) : Limitable (openNode name) :=
  (limitable_closeTag ">" .pure).bind ((limitable_push "<").bind
    ((limitable_push name).bind (limitable_setTagOpen true)))

theorem limitable_closeNode (name : String) : Limitable (closeNode name) :=
  limitable_closeTag "/>" ((limitable_push "</").bind ((limitable_push name).bind
    (limitable_push ">")))

theorem limitable_writeAttribute (name source : String) :
    Limitable (writeAttribute name source) := by
  refine .inspect (fun w => ?_) fun w n => rfl
  cases w.tagOpen
  · exact limitable_throw _
  · exact (limitable_push " ").bind ((limitable_push name).bind ((limitable_push "=").bind
      ((limitable_push _).bind ((limitable_push source).bind (limitable_push _)))))

theorem limitable_writeSource (source : String) : Limitable (writeSource source) := by
  unfold writeSource
  cases source.isEmpty
  · exact (limitable_closeTag ">" .pure).bind (limitable_push source)
  · exact .pure

/-! ## Drafts -/

mutual
/-- No failure is caught. -/
def Instr.Plain : Instr → Prop
  | .node _ content => PlainDraft content
  | .attribute _ _ => True
  | .rawAttribute _ _ => True
  | .append _ => True
  | .measure => True
  | .attempt _ => False

def PlainDraft : List Instr → Prop
  | [] => True
  | instr :: draft => instr.Plain ∧ PlainDraft draft
end

mutual
theorem limitable_run : (instr : Instr) → instr.Plain → Limitable instr.run
  | .node name content, h => by
    rw [Instr.Plain] at h
    rw [Instr.run]
    exact (limitable_openNode name).bind
      ((limitable_runDraft content h).bind (limitable_closeNode name))
  | .attribute name value, _ => by
    rw [Instr.run]
    exact limitable_writeAttribute name (escape value)
  | .rawAttribute name source, _ => by
    rw [Instr.run]
    exact limitable_writeAttribute name source
  | .append source, _ => by
    rw [Instr.run]
    exact limitable_writeSource source
  | .measure, _ => by
    rw [Instr.run]
    exact .inspect (fun w => limitable_note _) fun w n => rfl
  | .attempt _, h => by
    rw [Instr.Plain] at h
    exact h.elim

theorem limitable_runDraft : (draft : List Instr) → PlainDraft draft → Limitable (runDraft draft)
  | [], _ => by
    rw [runDraft]
    exact .pure
  | instr :: draft, h => by
    rw [PlainDraft] at h
    rw [runDraft]
    exact (limitable_run instr h.1).bind (limitable_runDraft draft h.2)
end

/-- What can be written at all is written whole within any limit that holds it, and stops at any
other. -/
theorem runText_within {instr : Instr} (hplain : instr.Plain) {text : String}
    (h : instr.rendering = .ok text) (limit : Nat) :
    runText (instr.run (.new (some limit))) =
      if text.utf8ByteSize ≤ limit then .ok text else .error (.bufferExceeded limit) := by
  rw [Instr.rendering] at h
  rw [(limitable_run instr hplain).runText_eq, h]
  cases hrun : instr.run (.new none) with
  | error e w =>
    rw [hrun] at h
    cases h
  | ok _ w =>
    rw [hrun] at h
    cases h
    rfl

end Overseer.Markup
