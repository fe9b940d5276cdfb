import NumericScript.Proofs.Faithful.Line
import NumericScript.Proofs.Faithful.Program
import NumericScript.Proofs.Scanning.Stream

/-!
# Spans around tokens

A span is put together from the spans of tokens, and it goes from the first of them to the last one.
This needs the tokens to be in the order of the text, as those of a scanned text are.
-/

namespace NumericScript

/-- Tokens as they stand in a text, each of them before the next one. -/
structure InOrder (tokens : List Token) : Prop where
  nonempty : ∀ t ∈ tokens, t.span.start < t.span.stop
  apart : tokens.Pairwise fun a b => a.span.stop ≤ b.span.start ∧ a.span.line ≤ b.span.line

namespace Span

/-- A span is inside another one. -/
structure Inside (inner outer : Span) : Prop where
  start_le : outer.start ≤ inner.start
  stop_le : inner.stop ≤ outer.stop
  line_le : outer.line ≤ inner.line

/-- A span goes from the first of some tokens to the last one, and is in the line of the first. -/
def Around (span : Span) (tokens : List Token) : Prop :=
  ∃ first last : Token, tokens.head? = some first ∧ tokens.getLast? = some last ∧
    span = ⟨first.span.start, last.span.stop, first.span.line⟩

end Span

namespace InOrder

variable {tokens part before after : List Token} {t : Token} {span span' : Span}

/-- Tokens in a row of tokens in order are in order. -/
theorem narrow (h : InOrder tokens) (hpart : part <:+: tokens) : InOrder part where
  nonempty t ht := h.nonempty t (hpart.subset ht)
  apart := h.apart.sublist hpart.sublist

/-- No token starts before the first one or stands on an earlier line. -/
theorem first_le (h : InOrder tokens) {first : Token} (hfirst : tokens.head? = some first)
    (ht : t ∈ tokens) : first.span.start ≤ t.span.start ∧ first.span.line ≤ t.span.line := by
  obtain ⟨rest, rfl⟩ := List.head?_eq_some_iff.mp hfirst
  rcases List.mem_cons.mp ht with rfl | ht
  · exact ⟨Nat.le_refl _, Nat.le_refl _⟩
  · obtain ⟨hle, hline⟩ := (List.pairwise_cons.mp h.apart).1 t ht
    exact ⟨(Nat.le_of_lt (h.nonempty first List.mem_cons_self)).trans hle, hline⟩

private theorem le_last (h : InOrder tokens) {last : Token} (hlast : tokens.getLast? = some last)
    (ht : t ∈ tokens) : t.span.stop ≤ last.span.stop := by
  obtain ⟨init, rfl⟩ := List.getLast?_eq_some_iff.mp hlast
  rcases List.mem_append.mp ht with ht | ht
  · have hle := ((List.pairwise_append.mp h.apart).2.2 t ht last List.mem_cons_self).1
    exact hle.trans (Nat.le_of_lt (h.nonempty last (List.mem_append_right _ List.mem_cons_self)))
  · rw [List.mem_singleton.mp ht]

/-- The join of a span at the beginning of some tokens and one at their end goes around them all. -/
theorem join (h : InOrder tokens) (hspan : span.Around before) (hbefore : before <+: tokens)
    (hspan' : span'.Around after) (hafter : after <:+ tokens) :
    (span.join span').Around tokens := by
  obtain ⟨first, last, hfirst, hlast, rfl⟩ := hspan
  obtain ⟨first', last', hfirst', hlast', rfl⟩ := hspan'
  have hhead : tokens.head? = some first := by
    obtain ⟨more, rfl⟩ := hbefore
    rw [List.head?_append, hfirst]
    rfl
  have hend : tokens.getLast? = some last' := by
    obtain ⟨more, rfl⟩ := hafter
    rw [List.getLast?_append, hlast']
    rfl
  obtain ⟨hstart, hline⟩ := h.first_le hhead (hafter.subset (List.mem_of_head? hfirst'))
  have hstop := h.le_last hend (hbefore.subset (List.mem_of_getLast? hlast))
  refine ⟨first, last', hhead, hend, ?_⟩
  simp only [Span.join, Nat.min_eq_left hstart, Nat.max_eq_right hstop, Nat.min_eq_left hline]

/-- Around two sides and the token between them is the join of what is around each side. -/
theorem join_sides (h : InOrder (before ++ t :: after))
    (hbefore : InOrder before → span.Around before)
    (hafter : InOrder after → span'.Around after) :
    (span.join span').Around (before ++ t :: after) := by
  have hprefix : before <+: before ++ t :: after := List.prefix_append _ _
  have hsuffix : after <:+ before ++ t :: after := ⟨before ++ [t], by simp⟩
  exact h.join (hbefore (h.narrow hprefix.isInfix)) hprefix
    (hafter (h.narrow hsuffix.isInfix)) hsuffix

/-- What goes around some of the tokens is inside of what goes around all of them. -/
theorem inside (h : InOrder tokens) (hspan : span.Around tokens) (hspan' : span'.Around part)
    (hpart : part <:+: tokens) : span'.Inside span := by
  obtain ⟨first, last, hfirst, hlast, rfl⟩ := hspan
  obtain ⟨first', last', hfirst', hlast', rfl⟩ := hspan'
  obtain ⟨hstart, hline⟩ := h.first_le hfirst (hpart.subset (List.mem_of_head? hfirst'))
  exact ⟨hstart, h.le_last hlast (hpart.subset (List.mem_of_getLast? hlast')), hline⟩

end InOrder

/-- The place of a token is around it alone. -/
theorem Span.around_token (t : Token) : t.span.Around [t] := ⟨t, t, rfl, rfl, rfl⟩

section Spelled

variable {tokens : List Token}

/-- The span of an expression goes around its tokens. -/
theorem Expr.Spelled.around {e : Expr} (h : e.Spelled tokens) (horder : InOrder tokens) :
    e.span.Around tokens := by
  induction h with
  | number | scalar => exact Span.around_token _
  | @element first bracket close name index inner =>
    exact horder.join (Span.around_token first) (List.prefix_append [first] _)
      (Span.around_token close) ⟨first :: bracket :: inner, rfl⟩
  | binary _ _ _ ihl ihr => exact horder.join_sides ihl ihr
  | @negate t operand tokens _ _ ih | @call t builtin argument tokens _ _ ih =>
    have hafter : tokens <:+ t :: tokens := List.suffix_cons t tokens
    exact horder.join (Span.around_token t) (List.prefix_append [t] _)
      (ih (horder.narrow hafter.isInfix)) hafter
  | @group paren close inner tokens =>
    exact horder.join (Span.around_token paren) (List.prefix_append [paren] _)
      (Span.around_token close) ⟨paren :: tokens, rfl⟩

/-- The span of a condition goes around its tokens. -/
theorem Cond.Spelled.around {c : Cond} (h : c.Spelled tokens) (horder : InOrder tokens) :
    c.span.Around tokens := by
  induction h with
  | compare hleft _ hright => exact horder.join_sides hleft.around hright.around
  | logical _ _ _ ihl ihr => exact horder.join_sides ihl ihr

/-- The span of a name goes around its words. -/
theorem around_nameSpan {part : Token} {parts : List Token} (horder : InOrder (part :: parts)) :
    (nameSpan part parts).Around (part :: parts) := by
  induction parts using List.reverseRecOn with
  | nil => exact Span.around_token part
  | append_singleton parts last ih =>
    have hbefore : part :: parts <+: part :: (parts ++ [last]) :=
      List.prefix_append (part :: parts) [last]
    rw [nameSpan, List.foldl_append]
    exact horder.join (ih (horder.narrow hbefore.isInfix)) hbefore (Span.around_token last)
      ⟨part :: parts, rfl⟩

/-- The span of a target goes around its tokens. -/
theorem Target.Spelled.around {t : Target} (h : t.Spelled tokens) (horder : InOrder tokens) :
    t.span.Around tokens := by
  cases h with
  | scalar name part parts => exact around_nameSpan horder
  | @element name part parts bracket close index inner =>
    have hbefore : part :: parts <+: part :: parts ++ bracket :: (inner ++ [close]) :=
      List.prefix_append _ _
    exact horder.join (around_nameSpan (horder.narrow hbefore.isInfix)) hbefore
      (Span.around_token close) ⟨part :: parts ++ bracket :: inner, by simp⟩

end Spelled

section Lines

/-- The tokens of lines. -/
abbrev tokensOf (lines : List TokenLine) : List Token := lines.flatMap TokenLine.tokens

/-- A span goes around the tokens of lines of which the first and the last have tokens. -/
structure Span.Covers (span : Span) (lines : List TokenLine) : Prop where
  around : span.Around (tokensOf lines)
  first : ∀ line ∈ lines.head?, line.tokens ≠ []
  last : ∀ line ∈ lines.getLast?, line.tokens ≠ []

variable {span : Span} {lines later : List TokenLine}

private theorem tokensOf_append (lines later : List TokenLine) :
    tokensOf (lines ++ later) = tokensOf lines ++ tokensOf later := List.flatMap_append

/-- Lines in a row of lines have their tokens in a row. -/
theorem tokensOf_mono (h : lines <:+: later) : tokensOf lines <:+: tokensOf later := by
  obtain ⟨before, after, rfl⟩ := h
  exact ⟨tokensOf before, tokensOf after, by simp only [tokensOf_append]⟩

private theorem tokensOf_suffix (h : lines <:+ later) : tokensOf lines <:+ tokensOf later := by
  obtain ⟨before, rfl⟩ := h
  exact ⟨tokensOf before, (tokensOf_append ..).symm⟩

/-- A place around the tokens of a line covers the line. -/
theorem Span.Around.covers {tokens : List Token} (h : span.Around tokens) (stop : Span) :
    span.Covers [⟨tokens, stop⟩] := by
  have hne : tokens ≠ [] := by
    rintro rfl
    obtain ⟨_, _, hnone, _⟩ := h
    cases hnone
  refine ⟨by simpa [tokensOf] using h, ?_, ?_⟩ <;> rintro _ ⟨⟩ <;> exact hne

namespace Span.Covers

private theorem ne_nil (h : span.Covers lines) : lines ≠ [] := by
  rintro rfl
  obtain ⟨_, _, hnone, _⟩ := h.around
  cases hnone

/-- Such a span goes from the first token of the first line to the last token of the last one. -/
theorem exists_ends (h : span.Covers lines) :
    ∃ (first last : TokenLine) (t t' : Token), lines.head? = some first ∧
      first.tokens.head? = some t ∧ lines.getLast? = some last ∧
      last.tokens.getLast? = some t' ∧ span = ⟨t.span.start, t'.span.stop, t.span.line⟩ := by
  obtain ⟨t, t', ht, ht', hspan⟩ := h.around
  obtain ⟨first, more, rfl⟩ := List.exists_cons_of_ne_nil h.ne_nil
  have hlast := List.getLast?_eq_some_getLast h.ne_nil
  obtain ⟨init, hinit⟩ := List.getLast?_eq_some_iff.mp hlast
  refine ⟨first, _, t, t', rfl, ?_, hlast, ?_, hspan⟩
  · have hfirst := List.head?_eq_some_head (h.first first rfl)
    rw [tokensOf, List.flatMap_cons, List.head?_append, hfirst] at ht
    rw [hfirst, ← ht]
    rfl
  · have hend := List.getLast?_eq_some_getLast (h.last _ hlast)
    rw [hinit, tokensOf_append, List.getLast?_append] at ht'
    rw [hend]
    simpa [tokensOf, hend] using ht'

/-- What begins with a token and ends with a span around some lines goes around all lines up to
these. -/
theorem join {first : Token} {more : List Token} {stop : Span} (h : span.Covers later)
    (hlater : later <:+ ⟨first :: more, stop⟩ :: lines)
    (horder : InOrder (tokensOf (⟨first :: more, stop⟩ :: lines))) :
    (first.span.join span).Covers (⟨first :: more, stop⟩ :: lines) where
  around := horder.join (Span.around_token first) (List.prefix_append [first] _) h.around
    (tokensOf_suffix hlater)
  first := by
    rintro _ ⟨⟩
    exact List.cons_ne_nil _ _
  last := by
    obtain ⟨before, heq⟩ := hlater
    obtain ⟨line, hline⟩ := Option.ne_none_iff_exists'.mp (mt List.getLast?_eq_none_iff.mp h.ne_nil)
    rw [← heq, List.getLast?_append, hline]
    rintro _ ⟨⟩
    exact h.last line hline

end Span.Covers

end Lines

section Scanned

variable {source : String} {lines : List TokenLine}

private theorem line_of_tokenLine {line : Line} {scanned : TokenLine}
    (h : line.tokenLine = .ok scanned) : ∀ t ∈ scanned.tokens, t.span.line = line.index := by
  intro t ht
  obtain ⟨group, _, hmade⟩ := Line.exists_group h ht
  rw [hmade.span]
  rfl

/-- The tokens of earlier lines are in earlier lines. -/
theorem ascending_scan (h : scan source = .ok lines) :
    lines.Pairwise fun a b => ∀ t ∈ a.tokens, ∀ t' ∈ b.tokens, t.span.line ≤ t'.span.line := by
  have hindex : (logicalLines source).Pairwise fun a b => a.index < b.index := by
    rw [← List.pairwise_map (f := Line.index), index_logicalLines]
    exact List.pairwise_lt_range'
  refine pairwise_of_forall₂ (mapM_eq_ok.mp h).flip hindex fun a b line line' ha hb hlt => ?_
  intro t ht t' ht'
  rw [line_of_tokenLine ha t ht, line_of_tokenLine hb t' ht']
  exact Nat.le_of_lt hlt

/-- The tokens of a scanned text are in order. -/
theorem inOrder_of_scan (h : scan source = .ok lines) : InOrder (tokensOf lines) where
  nonempty t ht := by
    obtain ⟨line, hline, ht⟩ := List.mem_flatMap.mp ht
    exact (inPlace_of_scan h line hline).nonempty t ht
  apart := by
    refine List.pairwise_flatMap.mpr ⟨fun line hline => ?_, ?_⟩
    · obtain ⟨_, _, hscanned⟩ := scan_mem h hline
      refine (inPlace_of_scan h line hline).apart.imp_of_mem fun ha hb hle => ⟨hle, ?_⟩
      rw [line_of_tokenLine hscanned _ ha, line_of_tokenLine hscanned _ hb]
    · refine ((ordered_scan h).and (ascending_scan h)).imp_of_mem ?_
      intro a b ha _ ⟨hordered, hline⟩ t ht t' ht'
      have hend := (inPlace_of_scan h a ha).ends t ht
      exact ⟨hend.trans (hordered.2 t' ht'), hline t ht t' ht'⟩

end Scanned

end NumericScript
