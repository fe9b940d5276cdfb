import NumericScript.Proofs.Composition.Outline

/-!
# Outlines and their lines

The outline of lines whose braces are matched keeps the order of the lines: it is known of every
part of the outline which of the lines it is the outline of. Lines without tokens may stand
anywhere.
-/

namespace NumericScript

/-- Lines without tokens. -/
def Gap (lines : List TokenLine) : Prop := ∀ line ∈ lines, line.tokens = []

namespace Outline

/-- An outline whose braces are matched is the outline of some lines. -/
inductive Of : Outline → List TokenLine → Prop
  | done {gap : List TokenLine} (hgap : Gap gap) : Of .done gap
  | line {gap later : List TokenLine} {first : Token} {more : List Token} {stop : Span}
    {next : Outline} (hgap : Gap gap) (hopen : first.kind ≠ .leftBrace)
    (hclose : first.kind ≠ .rightBrace) (hnext : Of next later) :
    Of (.line first more stop next) (gap ++ ⟨first :: more, stop⟩ :: later)
  | block {gap inner later : List TokenLine} {brace close : Token} {stop stop' : Span}
    {body next : Outline} (hgap : Gap gap) (hbrace : brace.kind = .leftBrace)
    (hclose : close.kind = .rightBrace) (hbody : Of body inner) (hnext : Of next later) :
    Of (.block brace stop body (some close) next)
      (gap ++ ⟨[brace], stop⟩ :: (inner ++ ⟨[close], stop'⟩ :: later))

end Outline

namespace Draft

/-- The outlines of a draft and the lines that it is the draft of. -/
def Of (current : Outline) : List (Token × Outline) → List TokenLine → Prop
  | [], lines => current.Of lines
  | (close, after) :: waiting, lines => ∃ inner stop later,
    lines = inner ++ ⟨[close], stop⟩ :: later ∧ close.kind = .rightBrace ∧ current.Of inner ∧
      Of after waiting later

/-- Lines that go before the current outline go before the draft. -/
theorem Of.before {current current' : Outline} {waiting : List (Token × Outline)}
    {lines : List TokenLine} (h : Of current waiting lines) (more : List TokenLine)
    (hcurrent : ∀ lines, current.Of lines → current'.Of (more ++ lines)) :
    Of current' waiting (more ++ lines) := by
  cases waiting with
  | nil => exact hcurrent lines h
  | cons entry waiting =>
    obtain ⟨inner, stop, later, rfl, hclose, hinner, hlater⟩ := h
    exact ⟨more ++ inner, stop, later, (List.append_assoc ..).symm, hclose, hcurrent inner hinner,
      hlater⟩

private theorem add_gap {line : TokenLine} (h : line.tokens = []) (draft : Draft) :
    add line draft = draft := by
  simp only [add, h]

private theorem foldr_add_gap {gap : List TokenLine} (h : Gap gap) (draft : Draft) :
    gap.foldr add draft = draft := by
  induction gap with
  | nil => rfl
  | cons line gap ih =>
    obtain ⟨hline, hgap⟩ := List.forall_mem_cons.mp h
    rw [List.foldr_cons, ih hgap, add_gap hline]

end Draft

namespace Outline

/-- Lines without tokens in front of an outline's lines change nothing. -/
theorem Of.gap {o : Outline} {gap lines : List TokenLine} (hgap : Gap gap) (h : o.Of lines) :
    o.Of (gap ++ lines) := by
  have hboth : ∀ {later : List TokenLine}, Gap later → Gap (gap ++ later) :=
    fun hlater => List.forall_mem_append.mpr ⟨hgap, hlater⟩
  cases h with
  | done hlater => exact .done (hboth hlater)
  | line hlater hopen hclose hnext =>
    rw [← List.append_assoc]
    exact .line (hboth hlater) hopen hclose hnext
  | block hlater hbrace hclose hbody hnext =>
    rw [← List.append_assoc]
    exact .block (hboth hlater) hbrace hclose hbody hnext

/-- One outline after another is the outline of their lines one after another. -/
theorem Of.append {o later : Outline} {lines linesLater : List TokenLine} (h : o.Of lines)
    (hlater : later.Of linesLater) : (o.append later).Of (lines ++ linesLater) := by
  induction h with
  | done hgap => exact hlater.gap hgap
  | line hgap hopen hclose _ ih =>
    rw [List.append_assoc, List.cons_append]
    exact .line hgap hopen hclose ih
  | block hgap hbrace hclose hbody _ _ ih =>
    rw [List.append_assoc, List.cons_append, List.append_assoc, List.cons_append]
    exact .block hgap hbrace hclose hbody ih

/-- The lines of an outline go before others with that outline. -/
theorem Of.foldr_add {o : Outline} {lines : List TokenLine} (h : o.Of lines) (draft : Draft) :
    lines.foldr Draft.add draft = ⟨o.append draft.current, draft.waiting⟩ := by
  induction h generalizing draft with
  | done hgap => exact Draft.foldr_add_gap hgap draft
  | @line gap later first more stop next hgap hopen hclose _ ih =>
    rw [List.foldr_append, List.foldr_cons, ih, Draft.foldr_add_gap hgap, Draft.add]
    dsimp only
    split
    · rename_i hkind
      exact absurd hkind hopen
    · rename_i hkind
      exact absurd hkind hclose
    · rfl
  | @block gap inner later brace close stop stop' body next hgap hbrace hclose _ _ ihbody ihnext =>
    have hopened : ∀ (after : Outline) (waiting : List (Token × Outline)),
        Draft.add ⟨[brace], stop⟩ ⟨body, (close, after) :: waiting⟩ =
          ⟨.block brace stop body (some close) after, waiting⟩ := by
      intro after waiting
      simp only [Draft.add, hbrace]
    have hclosed : ∀ draft, Draft.add ⟨[close], stop'⟩ draft =
        ⟨.done, (close, draft.current) :: draft.waiting⟩ := by
      intro draft
      simp only [Draft.add, hclose]
    rw [List.foldr_append, List.foldr_cons, List.foldr_append, List.foldr_cons, ihnext, hclosed,
      ihbody, append_done, hopened, Draft.foldr_add_gap hgap]
    rfl

/-- An outline of lines is the one that is made of them. -/
theorem Of.ofLines_eq {o : Outline} {lines : List TokenLine} (h : o.Of lines) :
    ofLines lines = o := by
  rw [ofLines, h.foldr_add, append_done]
  rfl

end Outline

namespace Draft

/-- One more line goes before the lines of a draft. -/
theorem Of.add {line : TokenLine} {draft : Draft} {lines : List TokenLine}
    (halone : BracesAlone line) (hmatched : (draft.add line).Matched)
    (h : Of draft.current draft.waiting lines) :
    Of (draft.add line).current (draft.add line).waiting (line :: lines) := by
  obtain ⟨current, waiting⟩ := draft
  obtain ⟨tokens, stop⟩ := line
  rcases tokens with _ | ⟨t, more⟩
  · have hgap : Gap [⟨[], stop⟩] := by simp [Gap]
    exact h.before _ fun _ hcurrent => hcurrent.gap hgap
  · by_cases hopen : t.kind = .leftBrace
    · obtain rfl := halone t more rfl (.inl hopen)
      rcases waiting with _ | ⟨⟨close, after⟩, waiting⟩
      · simp only [Draft.add, hopen] at hmatched
        cases hmatched.1
      · obtain ⟨inner, stop', later, rfl, hclose, hinner, hlater⟩ := h
        simp only [Draft.add, hopen]
        have hbefore : ⟨[t], stop⟩ :: (inner ++ ⟨[close], stop'⟩ :: later) =
            ⟨[t], stop⟩ :: (inner ++ [⟨[close], stop'⟩]) ++ later := by simp
        rw [hbefore]
        refine hlater.before _ fun next hnext => ?_
        have hblock : (Outline.block t stop current (some close) after).Of
            ([] ++ ⟨[t], stop⟩ :: (inner ++ ⟨[close], stop'⟩ :: next)) :=
          .block (List.forall_mem_nil _) hopen hclose hinner hnext
        simpa using hblock
    · by_cases hclose : t.kind = .rightBrace
      · obtain rfl := halone t more rfl (.inr hclose)
        simp only [Draft.add, hclose]
        exact ⟨[], stop, lines, rfl, hclose, .done (List.forall_mem_nil _), h⟩
      · have hadd : Draft.add ⟨t :: more, stop⟩ ⟨current, waiting⟩ =
            ⟨.line t more stop current, waiting⟩ := by
          simp only [Draft.add]
        rw [hadd]
        have hgap : Gap [] := List.forall_mem_nil _
        exact h.before [⟨t :: more, stop⟩] fun _ hcurrent => .line hgap hopen hclose hcurrent

/-- Whatever a draft of lines has matched is the outline of these lines. -/
theorem of_foldr_add {lines : List TokenLine} (halone : ∀ line ∈ lines, BracesAlone line)
    (h : (lines.foldr add ⟨.done, []⟩).Matched) :
    Of (lines.foldr add ⟨.done, []⟩).current (lines.foldr add ⟨.done, []⟩).waiting lines := by
  induction lines with
  | nil => exact .done (List.forall_mem_nil _)
  | cons line lines ih =>
    obtain ⟨hline, hlines⟩ := List.forall_mem_cons.mp halone
    exact Of.add hline h (ih hlines (add_before h).1)

end Draft

/-- Lines whose braces are matched are the lines of their outline. -/
theorem Outline.of_ofLines {lines : List TokenLine} (halone : ∀ line ∈ lines, BracesAlone line)
    (h : (ofLines lines).Matched) : (ofLines lines).Of lines := by
  have hfold := foldr_add_of_matched h ⟨.done, []⟩
  rw [append_done] at hfold
  have hdraft := Draft.of_foldr_add halone (by rw [hfold]; exact ⟨h, List.forall_mem_nil _⟩)
  rw [hfold] at hdraft
  exact hdraft

end NumericScript
