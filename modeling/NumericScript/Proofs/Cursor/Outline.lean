import NumericScript.Proofs.Cursor.Line
import NumericScript.Proofs.ReadBack.Program

/-!
# Outlines in a stream

Where an outline stands in the stream of a text. The machine never sees an outline; it comes to the
same blocks one brace after the other.
-/

namespace NumericScript

namespace Walk

open Course

/--
The marks from one cursor up to another one are the lines of an outline, with any number of empty
lines between them. Only on the outermost level may a closing brace close nothing.
-/
inductive Spells (marks : List Mark) : Bool → Nat → Outline → Nat → Prop
  | done {top : Bool} (current : Nat) : Spells marks top current .done current
  | newline {top : Bool} {current last : Nat} {o : Outline} {stop : Span}
    (hmark : marks[current]? = some (.newline stop))
    (hlater : Spells marks top (current + 1) o last) :
    Spells marks top current o last
  | line {top : Bool} {current after last : Nat} {first : Token} {more : List Token} {stop : Span}
    {next : Outline} (hline : LineTo marks stop after current (first :: more))
    (hleft : first.kind ≠ .leftBrace) (hright : first.kind ≠ .rightBrace)
    (hnext : Spells marks top after next last) :
    Spells marks top current (.line first more stop next) last
  | block {top : Bool} {current middle last : Nat} {brace close : Token} {stop : Span}
    {body next : Outline} (hbrace : marks[current]? = some (.token brace))
    (hkind : brace.kind = .leftBrace) (hstop : marks[current + 1]? = some (.newline stop))
    (hbody : Spells marks false (current + 1) body middle)
    (hclose : marks[middle]? = some (.token close)) (hright : close.kind = .rightBrace)
    (hnext : Spells marks top (middle + 1) next last) :
    Spells marks top current (.block brace stop body (some close) next) last
  | unclosed {top : Bool} {current last : Nat} {brace : Token} {stop : Span} {body next : Outline}
    {span : Span} (hbrace : marks[current]? = some (.token brace))
    (hkind : brace.kind = .leftBrace) (hstop : marks[current + 1]? = some (.newline stop))
    (hbody : Spells marks false (current + 1) body last)
    (hend : marks[last]? = some (.endOfText span)) :
    Spells marks top current (.block brace stop body none next) last
  | stray {current last : Nat} {brace : Token} {next : Outline}
    (hbrace : marks[current]? = some (.token brace)) (hkind : brace.kind = .rightBrace) :
    Spells marks true current (.stray brace next) last

section

variable {marks : List Mark} {current last : Nat} {o : Outline}

/-- Without closing braces of their own, lines may stand on the outermost level. -/
theorem Spells.top {top : Bool} (h : Spells marks top current o last) :
    Spells marks true current o last := by
  induction h with
  | done current => exact .done current
  | newline hmark _ ih => exact .newline hmark ih
  | line hline hleft hright _ ih => exact .line hline hleft hright ih
  | block hbrace hkind hstop hbody hclose hright _ _ ih =>
    exact .block hbrace hkind hstop hbody hclose hright ih
  | unclosed hbrace hkind hstop hbody hend _ =>
    exact .unclosed hbrace hkind hstop hbody hend
  | stray hbrace hkind => exact .stray hbrace hkind

/-- Inside a block the cursor only goes on. -/
theorem Spells.le {top : Bool} (h : Spells marks top current o last) (htop : top = false) :
    current ≤ last := by
  induction h with
  | done => exact Nat.le_refl _
  | newline _ _ ih => exact Nat.le_of_succ_le (ih htop)
  | line hline _ _ _ ih => exact Nat.le_trans (Nat.le_of_lt hline.lt) (ih htop)
  | block _ _ _ _ _ _ _ ihbody ihnext =>
    have := ihbody rfl
    have := ihnext htop
    omega
  | unclosed _ _ _ _ _ ih => exact Nat.le_of_succ_le (ih rfl)
  | stray => cases htop

/-- A closing brace after some lines that opened nothing it could close. -/
theorem Spells.append_stray {top : Bool} (h : Spells marks top current o last) {brace : Token}
    (hbrace : marks[last]? = some (.token brace)) (hkind : brace.kind = .rightBrace)
    (next : Outline) (final : Nat) :
    Spells marks true current (o.append (.stray brace next)) final := by
  induction h with
  | done current => exact .stray hbrace hkind
  | newline hmark _ ih => exact .newline hmark (ih hbrace)
  | line hline hleft hright _ ih => exact .line hline hleft hright (ih hbrace)
  | block hopen hleft hstop hbody hclose hright _ _ ih =>
    exact .block hopen hleft hstop hbody hclose hright (ih hbrace)
  | unclosed _ _ _ _ hend _ => cases hend.symm.trans hbrace
  | stray hfirst hright => exact .stray hfirst hright

/-- The cursor is before some lines, after which the text ends. -/
def LinesAt (marks : List Mark) (span : Span) : Nat → List TokenLine → Prop
  | current, [] => marks[current]? = some (.endOfText span)
  | current, line :: lines =>
    LineTo marks line.stop (current + line.tokens.length + 1) current line.tokens ∧
      LinesAt marks span (current + line.tokens.length + 1) lines

/-- The lines of a stream are followed by its end of text. -/
theorem LinesAt.exists_end {span : Span} {lines : List TokenLine}
    (h : LinesAt marks span current lines) :
    ∃ last : Nat, marks[last]? = some (.endOfText span) := by
  induction lines generalizing current with
  | nil => exact ⟨current, h⟩
  | cons line lines ih => exact ih h.2

/-- The cursor is before the braces that wait in a draft, each with the lines after it. -/
def WaitingAt (marks : List Mark) (span : Span) : Nat → List (Token × Outline) → Prop
  | current, [] => marks[current]? = some (.endOfText span)
  | current, (brace, after) :: waiting =>
    marks[current]? = some (.token brace) ∧ brace.kind = .rightBrace ∧
      ∃ next, Spells marks false (current + 1) after next ∧ WaitingAt marks span next waiting

/-- The lines of a text stand in its stream as their draft says. -/
theorem spells_draft {span : Span} {lines : List TokenLine} (h : LinesAt marks span current lines)
    (hbraces : ∀ line ∈ lines, BracesAlone line) :
    ∃ next, Spells marks false current (lines.foldr Draft.add ⟨.done, []⟩).current next ∧
      WaitingAt marks span next (lines.foldr Draft.add ⟨.done, []⟩).waiting := by
  induction lines generalizing current with
  | nil => exact ⟨current, .done current, h⟩
  | cons line lines ih =>
    obtain ⟨hbrace, hbraces⟩ := List.forall_mem_cons.mp hbraces
    obtain ⟨hline, hlines⟩ := h
    obtain ⟨next, hcurrent, hwaiting⟩ := ih hlines hbraces
    rw [List.foldr_cons]
    obtain ⟨tokens, stop⟩ := line
    generalize lines.foldr Draft.add ⟨.done, []⟩ = draft at hcurrent hwaiting ⊢
    obtain ⟨outline, waiting⟩ := draft
    cases tokens with
    | nil => exact ⟨next, .newline hline.newline hcurrent, hwaiting⟩
    | cons t more =>
      have halone : t.kind = .leftBrace ∨ t.kind = .rightBrace → more = [] := hbrace t more rfl
      by_cases hleft : t.kind = .leftBrace
      · obtain rfl := halone (.inl hleft)
        have hbody := Spells.newline hline.newline hcurrent
        simp only [Draft.add, hleft]
        cases waiting with
        | nil => exact ⟨next, .unclosed hline.line.1 hleft hline.newline hbody hwaiting, hwaiting⟩
        | cons entry waiting =>
          obtain ⟨hclose, hkind, final, hafter, hrest⟩ := hwaiting
          exact ⟨final, .block hline.line.1 hleft hline.newline hbody hclose hkind hafter, hrest⟩
      by_cases hright : t.kind = .rightBrace
      · obtain rfl := halone (.inr hright)
        simp only [Draft.add, hright]
        exact ⟨current, .done current, hline.line.1, hright, next,
          .newline hline.newline hcurrent, hwaiting⟩
      · have hadd : Draft.add ⟨t :: more, stop⟩ ⟨outline, waiting⟩ =
            ⟨.line t more stop outline, waiting⟩ := by
          obtain ⟨kind, lexeme, place⟩ := t
          cases kind with
          | leftBrace => exact absurd rfl hleft
          | rightBrace => exact absurd rfl hright
          | _ => rfl
        rw [hadd]
        exact ⟨next, .line hline hleft hright hcurrent, hwaiting⟩

/-- The lines of a text stand in its stream as their outline says. -/
theorem spells_ofLines {span : Span} {lines : List TokenLine}
    (hlast : marks[last]? = some (.endOfText span)) (h : LinesAt marks span current lines)
    (hbraces : ∀ line ∈ lines, BracesAlone line) :
    ∃ final, Spells marks true current (.ofLines lines) final ∧
      marks[final]? = some (.endOfText span) := by
  obtain ⟨next, hcurrent, hwaiting⟩ := spells_draft h hbraces
  unfold Outline.ofLines
  generalize lines.foldr Draft.add ⟨.done, []⟩ = draft at hcurrent hwaiting ⊢
  obtain ⟨outline, _ | ⟨⟨brace, after⟩, waiting⟩⟩ := draft
  · exact ⟨next, hcurrent.top, hwaiting⟩
  · exact ⟨last, hcurrent.append_stray hwaiting.1 hwaiting.2.1 _ last, hlast⟩

end

end Walk

end NumericScript
