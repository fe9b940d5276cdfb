import NumericScript.Proofs.ReadBack.Source
import NumericScript.Proofs.Scanning.Munch
import NumericScript.Proofs.Scanning.Places

/-!
# The token stream of a text

The stream of an accepted text tiles its logical lines. The tokens of a line are the longest lexemes
at their places and are followed by the line's end. The spans are in the order of the text, those of
tokens do not overlap, and under the span of a token there are the token's characters and blanks.
-/

namespace NumericScript

namespace Mark

/-- Whether an element of the stream ends a line. -/
def isNewline : Mark → Bool
  | newline _ => true
  | _ => false

/--
How the spans of the stream lie: an element begins no later than those after it, and one that does
not end a line ends before they begin.
-/
def Before (a b : Mark) : Prop :=
  a.span.start ≤ b.span.start ∧ (a.isNewline = false → a.span.stop ≤ b.span.start)

end Mark

/-- The characters of a text under a span. -/
def Span.slice (span : Span) (source : String) : List Char :=
  (source.toList.drop span.start).take (span.stop - span.start)

/--
The stream of logical lines, the first of them with the given index: for each line the tokens that
tile it and one end of line, then one end of text.
-/
inductive Streamed : Nat → List Line → List Mark → Prop
  | done (index : Nat) (span : Span) : Streamed index [] [.endOfText span]
  | line {index : Nat} {line : Line} {later : List Line} {tokens : List Token} {marks : List Mark}
    (htiles : Tiles line.text (tokens.map Token.bare))
    (htext : tokens.flatMap (·.lexeme.toList) = line.text)
    (hline : ∀ t ∈ tokens, t.span.line = index)
    (hbrace : ∀ t ∈ tokens, t.kind = .leftBrace ∨ t.kind = .rightBrace → tokens = [t])
    (hlater : Streamed (index + 1) later marks) :
    Streamed index (line :: later)
      (tokens.map Mark.token ++ .newline (.point line.stop index) :: marks)

/-- A token of a line with the characters that it is made of. -/
structure Token.MadeOf (t : Token) (index : Nat) (chars : List Placed) : Prop where
  nonempty : chars ≠ []
  lexeme : chars.map (·.char) = t.lexeme.toList
  span : t.span = spanOf index chars

/-- The first lexeme of a text takes as many characters as it is long, and they say the same. -/
theorem text_take_drop {chars : List Placed} {lexeme : Lexeme} {later : List Lexeme}
    (h : (lexeme :: later).flatMap Lexeme.text = chars.map (·.char)) :
    (chars.take lexeme.text.length).map (·.char) = lexeme.text ∧
      later.flatMap Lexeme.text = (chars.drop lexeme.text.length).map (·.char) := by
  rw [List.flatMap_cons] at h
  constructor
  · rw [List.map_take, ← h, List.take_left]
  · rw [List.map_drop, ← h, List.drop_left]

/-- The tokens of a line are made of neighbouring groups of the line's characters. -/
theorem exists_groups (index : Nat) {chars : List Placed} {lexemes : List Lexeme}
    (htext : lexemes.flatMap Lexeme.text = chars.map (·.char))
    (hne : ∀ lexeme ∈ lexemes, lexeme.text ≠ []) :
    ∃ groups, groups.flatten = chars ∧
      List.Forall₂ (fun t group => t.MadeOf index group) (place index chars lexemes) groups := by
  induction lexemes generalizing chars with
  | nil =>
    obtain rfl := List.map_eq_nil_iff.mp htext.symm
    exact ⟨[], rfl, .nil⟩
  | cons lexeme later ih =>
    obtain ⟨htake, hdrop⟩ := text_take_drop htext
    obtain ⟨groups, hflatten, hgroups⟩ := ih hdrop fun l hl => hne l (List.mem_cons_of_mem _ hl)
    refine ⟨chars.take lexeme.text.length :: groups, ?_, .cons ⟨?_, ?_, rfl⟩ hgroups⟩
    · rw [List.flatten_cons, hflatten, List.take_append_drop]
    · intro hnil
      rw [hnil] at htake
      exact hne lexeme List.mem_cons_self htake.symm
    · rw [htake, String.toList_ofList]

/-- The span of a token goes from its first character to its last. -/
theorem Token.MadeOf.exists_ends {t : Token} {index : Nat} {chars : List Placed}
    (h : t.MadeOf index chars) : ∃ p q, chars.head? = some p ∧ chars.getLast? = some q ∧
      t.span = ⟨p.offset, q.offset + 1, index⟩ := by
  obtain ⟨p, hp⟩ := List.ne_nil_iff_exists_cons.mp h.nonempty
  obtain ⟨rest, rfl⟩ := hp
  have hlast := List.getLast?_eq_some_getLast (List.cons_ne_nil p rest)
  refine ⟨p, _, rfl, hlast, ?_⟩
  rw [h.span, spanOf, hlast]
  rfl

/-- The places of the tokens of a scanned line of a text. -/
structure TokenLine.InPlace (source : String) (scanned : TokenLine) : Prop where
  nonempty : ∀ t ∈ scanned.tokens, t.span.start < t.span.stop
  apart : scanned.tokens.Pairwise fun a b => a.span.stop ≤ b.span.start
  ends : ∀ t ∈ scanned.tokens, t.span.stop ≤ scanned.stop.start
  slice : ∀ t ∈ scanned.tokens, (t.span.slice source).filter (!isBlank ·) = t.lexeme.toList

/-- Scanning a line gives lexemes that tile it, in the places of the line's characters. -/
theorem Line.exists_tiles {line : Line} {scanned : TokenLine} (h : line.tokenLine = .ok scanned) :
    ∃ lexemes, Tiles line.text lexemes ∧
      scanned = ⟨place line.index line.chars lexemes, line.stopSpan⟩ := by
  unfold Line.tokenLine Line.tokens at h
  cases hcut : cut line.text with
  | ok lexemes =>
    rw [hcut] at h
    exact ⟨lexemes, tiles_of_cut hcut, (Except.ok.inj h).symm⟩
  | error stray =>
    rw [hcut] at h
    cases h

/-- The tokens of a scanned line are made of neighbouring groups of the line's characters. -/
theorem Line.exists_groups {line : Line} {scanned : TokenLine} (h : line.tokenLine = .ok scanned) :
    ∃ groups, groups.flatten = line.chars ∧
      List.Forall₂ (fun t group => t.MadeOf line.index group) scanned.tokens groups := by
  obtain ⟨lexemes, htiles, rfl⟩ := Line.exists_tiles h
  exact NumericScript.exists_groups line.index htiles.text_eq htiles.ne_nil

/-- Every token of a scanned line is made of some of the line's characters. -/
theorem Line.exists_group {line : Line} {scanned : TokenLine} (h : line.tokenLine = .ok scanned)
    {t : Token} (ht : t ∈ scanned.tokens) :
    ∃ group, group <:+: line.chars ∧ t.MadeOf line.index group := by
  obtain ⟨groups, hflatten, hgroups⟩ := Line.exists_groups h
  obtain ⟨i, hi, rfl⟩ := List.getElem_of_mem ht
  have hlength : i < groups.length := hgroups.length_eq ▸ hi
  refine ⟨groups[i], ?_, hgroups.get hi hlength⟩
  rw [← hflatten]
  exact List.infix_of_mem_flatten (List.getElem_mem hlength)

/-- Elements that correspond to elements in order are in order themselves. -/
theorem pairwise_of_forall₂ {α β : Type} {P : α → β → Prop} {R : β → β → Prop} {S : α → α → Prop}
    {xs : List α} {ys : List β} (h : List.Forall₂ P xs ys) (hordered : ys.Pairwise R)
    (hstep : ∀ x x' y y', P x y → P x' y' → R y y' → S x x') : xs.Pairwise S := by
  rw [List.pairwise_iff_getElem] at hordered ⊢
  intro i j hi hj hlt
  have hi' : i < ys.length := h.length_eq ▸ hi
  have hj' : j < ys.length := h.length_eq ▸ hj
  exact hstep _ _ _ _ (h.get hi hi') (h.get hj hj') (hordered i j hi' hj' hlt)

section Lines

variable {source : String} {line : Line} {scanned : TokenLine} {t : Token} {group : List Placed}

/-- A token of a line begins before it ends, and ends no later than the line. -/
theorem bounds_of_madeOf (hline : line ∈ logicalLines source) (hwithin : group <:+: line.chars)
    (ht : t.MadeOf line.index group) :
    t.span.start < t.span.stop ∧ t.span.stop ≤ line.stop := by
  obtain ⟨p, q, hfirst, hlast, hspan⟩ := ht.exists_ends
  obtain ⟨more, rfl⟩ := List.head?_eq_some_iff.mp hfirst
  have hle : p.offset ≤ q.offset := by
    rcases List.mem_cons.mp (List.mem_of_getLast? hlast) with rfl | hq
    · exact Nat.le_refl _
    · have hascending := (ascending_chars hline).sublist hwithin.sublist
      exact Nat.le_of_lt ((List.pairwise_cons.mp hascending).1 q hq)
  have hstop := offset_lt_stop hline (hwithin.subset (List.mem_of_getLast? hlast))
  rw [hspan]
  exact ⟨Nat.lt_succ_of_le hle, hstop⟩

/-- Under the span of a token of a line there are the token's characters and blanks. -/
theorem slice_of_madeOf (hline : line ∈ logicalLines source) (hwithin : group <:+: line.chars)
    (ht : t.MadeOf line.index group) :
    (t.span.slice source).filter (!isBlank ·) = t.lexeme.toList := by
  obtain ⟨p, q, hfirst, hlast, hspan⟩ := ht.exists_ends
  rw [hspan, Span.slice, ← ht.lexeme]
  exact filter_slice (hwithin.trans (within_keptFrom hline)) hfirst hlast

/-- The tokens of a scanned line are in their places. -/
theorem inPlace_of_tokenLine (hline : line ∈ logicalLines source)
    (h : line.tokenLine = .ok scanned) : scanned.InPlace source := by
  have hstop : scanned.stop.start = line.stop := by
    obtain ⟨lexemes, _, rfl⟩ := Line.exists_tiles h
    rfl
  constructor
  · intro t ht
    obtain ⟨group, hwithin, hmade⟩ := Line.exists_group h ht
    exact (bounds_of_madeOf hline hwithin hmade).1
  · obtain ⟨groups, hflatten, hgroups⟩ := Line.exists_groups h
    have hascending := ascending_chars hline
    rw [← hflatten, List.pairwise_flatten] at hascending
    refine pairwise_of_forall₂ hgroups hascending.2 fun a b _ _ ha hb hlt => ?_
    obtain ⟨_, q, _, hq, hspan⟩ := ha.exists_ends
    obtain ⟨p, _, hp, _, hspan'⟩ := hb.exists_ends
    rw [hspan, hspan']
    exact hlt q (List.mem_of_getLast? hq) p (List.mem_of_head? hp)
  · intro t ht
    obtain ⟨group, hwithin, hmade⟩ := Line.exists_group h ht
    rw [hstop]
    exact (bounds_of_madeOf hline hwithin hmade).2
  · intro t ht
    obtain ⟨group, hwithin, hmade⟩ := Line.exists_group h ht
    exact slice_of_madeOf hline hwithin hmade

/-- The tokens of a line come after what ends before the line. -/
theorem le_start_of_tokenLine (h : line.tokenLine = .ok scanned) {bound : Nat}
    (hbound : ∀ p ∈ line.chars, bound ≤ p.offset) : ∀ t ∈ scanned.tokens, bound ≤ t.span.start := by
  intro t ht
  obtain ⟨group, hwithin, hmade⟩ := Line.exists_group h ht
  obtain ⟨p, _, hp, _, hspan⟩ := hmade.exists_ends
  rw [hspan]
  exact hbound p (hwithin.subset (List.mem_of_head? hp))

end Lines

section Stream

variable {source : String} {lines : List TokenLine}

/-- Scanned lines are in the order of the text. -/
theorem ordered_scan (h : scan source = .ok lines) :
    lines.Pairwise fun a b => a.stop.start ≤ b.stop.start ∧
      ∀ t ∈ b.tokens, a.stop.start ≤ t.span.start := by
  have hscanned := (mapM_eq_ok.mp h).flip
  refine pairwise_of_forall₂ hscanned (ordered_logicalLines source) ?_
  intro a b line line' ha hb hordered
  obtain ⟨_, _, rfl⟩ := Line.exists_tiles ha
  have htokens := le_start_of_tokenLine hb hordered.2
  obtain ⟨_, _, rfl⟩ := Line.exists_tiles hb
  exact ⟨hordered.1, htokens⟩

/-- Every scanned line is in its place. -/
theorem inPlace_of_scan (h : scan source = .ok lines) : ∀ line ∈ lines, line.InPlace source := by
  intro scanned hm
  obtain ⟨line, hline, hscanned⟩ := scan_mem h hm
  exact inPlace_of_tokenLine hline hscanned

/-- In a scanned line a brace is the only token. -/
theorem eq_singleton_of_brace {line : Line} {scanned : TokenLine}
    (hline : line ∈ logicalLines source) (h : line.tokenLine = .ok scanned) {t : Token}
    (ht : t ∈ scanned.tokens) (hkind : t.kind = .leftBrace ∨ t.kind = .rightBrace) :
    scanned.tokens = [t] := by
  have hcut := Line.cut_of_tokenLine h
  have htiles := tiles_of_cut hcut
  obtain ⟨c, hspelling, hbrace⟩ : ∃ c, t.lexeme.toList = [c] ∧ isBrace c := by
    have hspelling := spelling_of_cut hcut (List.mem_map_of_mem ht)
    rcases hkind with hkind | hkind
    all_goals
      simp only [Token.bare, hkind] at hspelling
      exact ⟨_, hspelling (by decide) (by decide), rfl⟩
  have hc : c ∈ line.text := by
    rw [← htiles.text_eq]
    refine List.mem_flatMap.mpr ⟨t.bare, List.mem_map_of_mem ht, ?_⟩
    rw [Token.bare, hspelling]
    exact List.mem_cons_self
  obtain ⟨p, hp, rfl⟩ := List.mem_map.mp hc
  have hchars := logicalLines_braceAlone hline p hp hbrace
  rw [Line.text, hchars] at htiles
  obtain ⟨lexeme, hlexeme⟩ := htiles.exists_eq_singleton
  obtain ⟨t', htokens, _⟩ := List.map_eq_singleton_iff.mp hlexeme
  rw [htokens, List.mem_singleton] at ht
  rw [htokens, ht]

/-- Lines that are scanned in order give their stream. -/
theorem streamed_of_forall₂ {index : Nat} {text : List Line}
    (h : List.Forall₂ (fun line scanned => line.tokenLine = .ok scanned) text lines)
    (hindex : text.map Line.index = List.range' index text.length)
    (hmem : ∀ line ∈ text, line ∈ logicalLines source) (span : Span) :
    Streamed index text (lines.flatMap (fun line => line.tokens.map Mark.token ++
      [.newline line.stop]) ++ [.endOfText span]) := by
  induction h generalizing index with
  | nil => exact .done index span
  | @cons line scanned text lines hscanned _ ih =>
    obtain ⟨hfirst, hlater⟩ := List.forall_mem_cons.mp hmem
    rw [List.map_cons, List.length_cons, List.range'_succ] at hindex
    obtain ⟨hindex, hrest⟩ := List.cons.inj hindex
    have htiles := tiles_of_cut (Line.cut_of_tokenLine hscanned)
    have htext : scanned.tokens.flatMap (·.lexeme.toList) = line.text := by
      rw [← htiles.text_eq, List.flatMap_map]
      rfl
    have hspan : ∀ t ∈ scanned.tokens, t.span.line = index := by
      intro t ht
      obtain ⟨group, _, hmade⟩ := Line.exists_group hscanned ht
      rw [hmade.span, ← hindex]
      rfl
    have hstop : scanned.stop = .point line.stop index := by
      obtain ⟨lexemes, _, rfl⟩ := Line.exists_tiles hscanned
      rw [← hindex]
      rfl
    have hbrace := fun t ht => @eq_singleton_of_brace source line scanned hfirst hscanned t ht
    have hstream := Streamed.line htiles htext hspan hbrace (ih hrest hlater)
    rw [List.flatMap_cons, hstop]
    simpa only [List.append_assoc, List.cons_append, List.nil_append] using hstream

/-- The indices of the lines count them. -/
theorem index_logicalLines (source : String) :
    (logicalLines source).map Line.index = List.range' 0 (logicalLines source).length := by
  obtain ⟨pieces, _, hlines⟩ := exists_pieces source
  rw [hlines, List.length_mapIdx]
  refine List.ext_getElem (by simp) fun i hi _ => ?_
  simp [Line.ofPiece]

/-- An element of the stream comes from a line or is the end of the text. -/
theorem mem_stream {m : Mark} (h : m ∈ stream lines) :
    (∃ line ∈ lines, ∃ t ∈ line.tokens, m = .token t) ∨ (∃ line ∈ lines, m = .newline line.stop) ∨
      m = .endOfText (endSpan lines) := by
  rcases List.mem_append.mp h with h | h
  · obtain ⟨line, hline, h⟩ := List.mem_flatMap.mp h
    rcases List.mem_append.mp h with h | h
    · obtain ⟨t, ht, rfl⟩ := List.mem_map.mp h
      exact .inl ⟨line, hline, t, ht, rfl⟩
    · exact .inr (.inl ⟨line, hline, List.mem_singleton.mp h⟩)
  · exact .inr (.inr (List.mem_singleton.mp h))

/-- The end of the text is that of its last line. -/
theorem exists_last_of_scan (h : scan source = .ok lines) :
    ∃ line scanned, (logicalLines source).getLast? = some line ∧ lines.getLast? = some scanned ∧
      line.tokenLine = .ok scanned ∧ endSpan lines = line.stopSpan := by
  obtain ⟨init, line, hlines⟩ : ∃ init line, logicalLines source = init ++ [line] := by
    have hne : logicalLines source ≠ [] := List.mapIdx_ne_nil_iff.mpr (List.cons_ne_nil _ _)
    simpa using (List.eq_nil_or_concat _).resolve_left hne
  rw [scan, hlines, List.mapM_append] at h
  obtain ⟨first, _, h⟩ := bind_eq_ok.mp h
  obtain ⟨last, hlast, h⟩ := bind_eq_ok.mp h
  obtain rfl := Except.ok.inj h
  obtain ⟨scanned, hscanned, rfl⟩ : ∃ scanned, line.tokenLine = .ok scanned ∧ last = [scanned] := by
    obtain ⟨scanned, _, hscanned, hnil, rfl⟩ := List.forall₂_cons_left_iff.mp (mapM_eq_ok.mp hlast)
    exact ⟨scanned, hscanned, by rw [List.forall₂_nil_left_iff.mp hnil]⟩
  have hend : endSpan (first ++ [scanned]) = scanned.stop := by
    rw [endSpan, List.getLast?_concat]
    rfl
  have hlast : (logicalLines source).getLast? = some line := by rw [hlines, List.getLast?_concat]
  refine ⟨line, scanned, hlast, List.getLast?_concat .., hscanned, ?_⟩
  obtain ⟨_, _, rfl⟩ := Line.exists_tiles hscanned
  exact hend

/-- No line ends after the text does. -/
theorem stop_le_endSpan (h : scan source = .ok lines) {line : TokenLine} (hm : line ∈ lines) :
    line.stop.start ≤ (endSpan lines).start := by
  obtain ⟨_, last, _, hlast, hscanned, hend⟩ := exists_last_of_scan h
  obtain ⟨init, rfl⟩ := List.getLast?_eq_some_iff.mp hlast
  have hordered := (List.pairwise_append.mp (ordered_scan h)).2.2
  have hstop : last.stop = endSpan (init ++ [last]) := by
    rw [hend]
    obtain ⟨_, _, rfl⟩ := Line.exists_tiles hscanned
    rfl
  rw [← hstop]
  rcases List.mem_append.mp hm with hm | hm
  · exact (hordered line hm last List.mem_cons_self).1
  · rw [List.mem_singleton.mp hm]

/-- The stream is in the order of the text. -/
theorem ordered_stream (h : scan source = .ok lines) : (stream lines).Pairwise Mark.Before := by
  have hplace := inPlace_of_scan h
  have htoken : ∀ {t : Token} {m : Mark}, t.span.start < t.span.stop →
      t.span.stop ≤ m.span.start → (Mark.token t).Before m := fun hlt hle =>
    ⟨(Nat.le_of_lt hlt).trans hle, fun _ => hle⟩
  have hnewline : ∀ {span : Span} {m : Mark}, span.start ≤ m.span.start →
      (Mark.newline span).Before m := fun hle => ⟨hle, nofun⟩
  -- Everything of a line stands before what begins after the line's end.
  have hafter : ∀ line ∈ lines, ∀ m ∈ line.tokens.map Mark.token ++ [.newline line.stop],
      ∀ m' : Mark, line.stop.start ≤ m'.span.start → m.Before m' := by
    intro line hline m hm m' hle
    rcases List.mem_append.mp hm with hm | hm
    · obtain ⟨t, ht, rfl⟩ := List.mem_map.mp hm
      exact htoken ((hplace line hline).nonempty t ht) (((hplace line hline).ends t ht).trans hle)
    · rw [List.mem_singleton.mp hm]
      exact hnewline hle
  refine List.pairwise_append.mpr
    ⟨List.pairwise_flatMap.mpr ⟨?_, ?_⟩, List.pairwise_singleton _ _, ?_⟩
  · intro line hline
    refine List.pairwise_append.mpr ⟨?_, List.pairwise_singleton _ _, ?_⟩
    · rw [List.pairwise_map]
      refine (hplace line hline).apart.imp_of_mem fun ha _ hle => ?_
      exact htoken ((hplace line hline).nonempty _ ha) hle
    · intro m hm m' hm'
      rw [List.mem_singleton.mp hm']
      exact hafter line hline m (List.mem_append_left _ hm) _ (Nat.le_refl _)
  · refine (ordered_scan h).imp_of_mem fun ha _ hordered m hm m' hm' => ?_
    refine hafter _ ha m hm m' ?_
    rcases List.mem_append.mp hm' with hm' | hm'
    · obtain ⟨t, ht, rfl⟩ := List.mem_map.mp hm'
      exact hordered.2 t ht
    · rw [List.mem_singleton.mp hm']
      exact hordered.1
  · intro m hm m' hm'
    obtain ⟨line, hline, hm⟩ := List.mem_flatMap.mp hm
    rw [List.mem_singleton.mp hm']
    exact hafter line hline m hm _ (stop_le_endSpan h hline)

/-- No span of the stream is empty. -/
theorem start_lt_stop (h : scan source = .ok lines) {m : Mark} (hm : m ∈ stream lines) :
    m.span.start < m.span.stop := by
  rcases mem_stream hm with ⟨line, hline, t, ht, rfl⟩ | ⟨line, hline, rfl⟩ | rfl
  · exact (inPlace_of_scan h line hline).nonempty t ht
  · obtain ⟨_, _, hscanned⟩ := scan_mem h hline
    obtain ⟨_, _, rfl⟩ := Line.exists_tiles hscanned
    exact Nat.lt_succ_self _
  · obtain ⟨_, _, _, _, _, hend⟩ := exists_last_of_scan h
    rw [Mark.span, hend]
    exact Nat.lt_succ_self _

/-- Under the span of the end of the text there is only white space. -/
theorem isWhitespace_endSpan (h : scan source = .ok lines) :
    ∀ c ∈ (endSpan lines).slice source, isWhitespace c := by
  obtain ⟨line, _, hlast, _, _, hend⟩ := exists_last_of_scan h
  intro c hc
  rw [hend] at hc
  exact isWhitespace_after hlast c (List.mem_of_mem_take hc)

/--
The stream of an accepted text tiles its lines, its spans are not empty and in the order of the
text. Under the span of a token there are its characters and blanks, under that of the end of the
text there is only white space.
-/
theorem stream_tiles (h : scan source = .ok lines) :
    Streamed 0 (logicalLines source) (stream lines) ∧
      (∀ m ∈ stream lines, m.span.start < m.span.stop) ∧
      (stream lines).Pairwise Mark.Before ∧
      (∀ t, .token t ∈ stream lines →
        (t.span.slice source).filter (!isBlank ·) = t.lexeme.toList) ∧
      ∀ span, .endOfText span ∈ stream lines → ∀ c ∈ span.slice source, isWhitespace c := by
  refine ⟨?_, fun m hm => start_lt_stop h hm, ordered_stream h, ?_, ?_⟩
  · exact streamed_of_forall₂ (mapM_eq_ok.mp h) (index_logicalLines source) (fun _ hm => hm) _
  · intro t ht
    rcases mem_stream ht with ⟨line, hline, t, ht, heq⟩ | ⟨_, _, heq⟩ | heq
    · cases heq
      exact (inPlace_of_scan h line hline).slice t ht
    · cases heq
    · cases heq
  · intro span hm
    rcases mem_stream hm with ⟨_, _, _, _, heq⟩ | ⟨_, _, heq⟩ | heq
    · cases heq
    · cases heq
    · cases heq
      exact isWhitespace_endSpan h

/-- A script with a function's name in a longer word, a fraction, a brace and blanks. -/
def splitSource : String := "Sinx2 = .5 ;\x7b 12.5a"

/-- The tokens of a text tile it, the function's name in a longer word among them. -/
theorem stream_tiles_splitSource :
    ∃ lines, scan splitSource = .ok lines ∧
      lines.map (·.tokens.map (·.lexeme)) =
        [["Sin", "x2", "=", ".5"], [], ["\x7b"], ["12.5", "a"]] ∧
      Streamed 0 (logicalLines splitSource) (stream lines) := by
  have hread : (scan splitSource).toOption.map (·.map (·.tokens.map (·.lexeme))) =
      some [["Sin", "x2", "=", ".5"], [], ["\x7b"], ["12.5", "a"]] := by
    decide +kernel
  obtain ⟨lines, hlines, hlexemes⟩ := Option.map_eq_some_iff.mp hread
  have h := toOption_eq_some.mp hlines
  exact ⟨lines, h, hlexemes, (stream_tiles h).1⟩

/-- A name and a white space that is no blank. -/
def trailingSource : String := "x\u00a0"

/-- Under the span of the end of a text there may be white space that is no blank. -/
theorem not_blank_endOfText :
    ∃ lines span, scan trailingSource = .ok lines ∧ .endOfText span ∈ stream lines ∧
      (span.slice trailingSource).filter (!isBlank ·) ≠ [] := by
  have hread : (scan trailingSource).toOption.map endSpan = some (.point 1 0) := by decide +kernel
  obtain ⟨lines, hlines, hend⟩ := Option.map_eq_some_iff.mp hread
  refine ⟨lines, endSpan lines, toOption_eq_some.mp hlines, ?_, ?_⟩
  · exact List.mem_append_right _ (List.mem_singleton_self _)
  · rw [hend]
    decide

end Stream

end NumericScript
