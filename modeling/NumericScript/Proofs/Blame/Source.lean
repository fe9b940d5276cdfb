import NumericScript.Proofs.Blame.Program
import NumericScript.Proofs.Layout.Lossless

/-!
# Places in a text

The places of the tokens of a logical line and of its end are in the line, up to the break that ends
it, and what joins places of a line is in it as well. So whatever is wrong with a text when it is
read is found in one of its lines.
-/

namespace NumericScript

/-- A place is in a logical line, which goes up to the character that ends it. -/
structure Span.Within (span : Span) (line : Line) : Prop where
  line_eq : span.line = line.index
  first_le : line.offset 0 ≤ span.start
  nonempty : span.start < span.stop
  stop_le : span.stop ≤ line.stop + 1

/-- A place is in the logical line of a text that it names. -/
def Span.PointsInto (span : Span) (source : String) : Prop :=
  ∃ line, (logicalLines source)[span.line]? = some line ∧ span.Within line ∧
    span.stop ≤ source.length + 1

section Lines

variable {source : String} {line : Line} {span : Span}

private theorem Span.joins_within (line : Line) : Joins (·.Within line) := by
  rintro a b ⟨hline, hfirst, hnonempty, hstop⟩ ⟨hline', hfirst', hnonempty', hstop'⟩
  constructor <;> simp only [join] <;> omega

/-- A place within a line of a text points into the text. -/
theorem Span.Within.pointsInto (h : span.Within line) (hline : line ∈ logicalLines source) :
    span.PointsInto source := by
  obtain ⟨i, hi, rfl⟩ := List.getElem_of_mem hline
  have hsome := List.getElem?_eq_getElem hi
  have hstop := stop_le_length hline
  refine ⟨_, ?_, h, h.stop_le.trans (Nat.succ_le_succ hstop)⟩
  rw [h.line_eq, index_of_getElem? hsome, hsome]

/-- A line begins no later than at its characters and its end. -/
theorem offset_zero_le (hline : line ∈ logicalLines source) :
    (∀ p ∈ line.chars, line.offset 0 ≤ p.offset) ∧ line.offset 0 ≤ line.stop := by
  have hstop : ∀ p ∈ line.chars, p.offset < line.stop := fun _ => offset_lt_stop hline
  have hascending := ascending_chars hline
  rw [Line.offset]
  generalize line.chars = chars at hstop hascending ⊢
  cases chars with
  | nil => exact ⟨List.forall_mem_nil _, Nat.le_refl _⟩
  | cons first rest =>
    refine ⟨List.forall_mem_cons.mpr ⟨Nat.le_refl _, fun p hp => ?_⟩, ?_⟩
    · exact Nat.le_of_lt ((List.pairwise_cons.mp hascending).1 p hp)
    · exact Nat.le_of_lt (hstop first List.mem_cons_self)

private theorem within_stopSpan (hline : line ∈ logicalLines source) : line.stopSpan.Within line :=
  ⟨rfl, (offset_zero_le hline).2, Nat.lt_succ_self _, Nat.le_refl _⟩

/-- The place of a stray character is in its line. -/
theorem within_point (hline : line ∈ logicalLines source) {position : Nat}
    (hlt : position < line.text.length) :
    (Span.point (line.offset position) line.index).Within line := by
  obtain ⟨hlt, hoffset, _⟩ := Line.offset_of_lt hlt
  have hmem := List.getElem_mem hlt
  have hfirst := (offset_zero_le hline).1 _ hmem
  have hstop := offset_lt_stop hline hmem
  rw [hoffset]
  exact ⟨rfl, hfirst, Nat.lt_succ_self _, Nat.succ_le_succ (Nat.le_of_lt hstop)⟩

/-- The tokens of a line are within it. -/
theorem within_token (hline : line ∈ logicalLines source) {scanned : TokenLine}
    (h : line.tokenLine = .ok scanned) : AllAt (·.Within line) scanned.tokens := by
  intro t ht
  obtain ⟨group, hwithin, hmade⟩ := Line.exists_group h ht
  obtain ⟨hnonempty, hstop⟩ := bounds_of_madeOf hline hwithin hmade
  have hfirst := le_start_of_tokenLine h (offset_zero_le hline).1 t ht
  exact ⟨by rw [hmade.span]; rfl, hfirst, hnonempty, Nat.le_succ_of_le hstop⟩

/-- What is in one line of a text is together in the text. -/
theorem together_of_within (hline : line ∈ logicalLines source) {stop : Span} {tokens : List Token}
    (hstop : stop.Within line) (htokens : AllAt (·.Within line) tokens) :
    Together (·.PointsInto source) stop tokens :=
  ⟨(·.Within line), Span.joins_within line, fun _ h => h.pointsInto hline, hstop, htokens⟩

/-- Scanned lines have their places in the text, and a text is not scanned at a place in a line. -/
theorem blames_scan (source : String) : Blames (·.PointsInto source)
    (fun lines => (∀ line ∈ lines, Together (·.PointsInto source) line.stop line.tokens) ∧
      Together (·.PointsInto source) (endSpan lines) []) (scan source) := by
  cases hscan : scan source with
  | error error =>
    obtain ⟨before, line, after, hlines, _, herror⟩ := mapM_eq_error.mp hscan
    have hline : line ∈ logicalLines source := by simp [hlines]
    obtain ⟨stray, hstray, _, rfl⟩ := tokenLine_eq_error herror
    obtain ⟨hlt, _⟩ := hstray.exists_placed
    exact .error ((within_point hline (by simpa [Line.text] using hlt)).pointsInto hline)
  | ok lines =>
    refine .ok ⟨fun scanned hm => ?_, ?_⟩
    · obtain ⟨line, hline, h⟩ := scan_mem hscan hm
      have htokens := within_token hline h
      obtain ⟨_, _, rfl⟩ := Line.exists_tiles h
      exact together_of_within hline (within_stopSpan hline) htokens
    · obtain ⟨line, _, hlast, _, _, hend⟩ := exists_last_of_scan hscan
      have hline := List.mem_of_getLast? hlast
      rw [hend]
      exact together_of_within hline (within_stopSpan hline) (List.forall_mem_nil _)

end Lines

section Texts

variable {good : Span → Prop}

private theorem blames_readProgram (limit : Nat) {lines : List TokenLine}
    (hlines : ∀ line ∈ lines, Together good line.stop line.tokens) (hend : good (endSpan lines)) :
    Blames good (fun _ => True) (readProgram limit lines) := by
  have hall := blamesLines false limit (endSpan lines) _ (Outline.placed_ofLines hlines)
  exact (hall limit (endSpan lines) hend).bind fun _ _ => .ok trivial

/-- A reader of one line blames good places. -/
theorem Together.blames {α : Type} {reader : Reader α} {stop : Span} {tokens : List Token}
    (h : Together good stop tokens) (hreader : ∀ own, Joins own → BlamesIn own reader) :
    Blames good (fun result => AllAt good result.2) (reader stop tokens) := by
  obtain ⟨own, hjoins, hown, hstop, htokens⟩ := h
  exact (hreader own hjoins stop tokens hstop htokens).mono hown fun _ h t ht => hown _ (h t ht)

private theorem blames_readAlone {α : Type} (subject : Subject) {reader : Reader α}
    {lines : List TokenLine} (hreader : ∀ own, Joins own → BlamesIn own reader)
    (hlines : ∀ line ∈ lines, Together good line.stop line.tokens)
    (hend : Together good (endSpan lines) []) :
    Blames good (fun _ => True) (readAlone subject reader lines) := by
  have hkept : ∀ line ∈ lines.filter (!·.tokens.isEmpty), Together good line.stop line.tokens :=
    fun line hm => hlines line (List.mem_filter.mp hm).1
  rw [readAlone]
  generalize lines.filter (!·.tokens.isEmpty) = kept at hkept
  cases kept with
  | nil => exact (hend.blames hreader).bind fun _ _ => .ok trivial
  | cons line later =>
    obtain ⟨hline, hlater⟩ := List.forall_mem_cons.mp hkept
    refine (hline.blames hreader).bindRest fun a rest hrest => ?_
    have hall : AllAt good (rest ++ later.flatMap TokenLine.tokens) := by
      refine List.forall_mem_append.mpr ⟨hrest, fun t ht => ?_⟩
      obtain ⟨line, hm, ht⟩ := List.mem_flatMap.mp ht
      exact (hlater line hm).allAt t ht
    dsimp only
    split
    · exact .ok trivial
    · rename_i t more heq
      rw [heq] at hall
      exact .fail (allAt_cons.mp hall).1

/-- Errors of reading a script point into its lines. -/
theorem blames_parseProgram (source : String) :
    Blames (·.PointsInto source) (fun _ => True) (parseProgram source) :=
  (blames_scan source).bind fun _ h => blames_readProgram maxNesting h.1 h.2.good_stop

/-- Errors of reading an expression point into the lines. -/
theorem blames_parseExpression (source : String) :
    Blames (·.PointsInto source) (fun _ => True) (parseExpression source) :=
  (blames_scan source).bind fun _ h =>
    blames_readAlone .expression (fun _ hjoins => blamesIn_expression hjoins maxNesting) h.1 h.2

/-- Errors of reading a condition point into the lines. -/
theorem blames_parseCondition (source : String) :
    Blames (·.PointsInto source) (fun _ => True) (parseCondition source) :=
  (blames_scan source).bind fun _ h =>
    blames_readAlone .condition (fun _ hjoins => blamesIn_condition hjoins maxNesting) h.1 h.2

end Texts

end NumericScript
