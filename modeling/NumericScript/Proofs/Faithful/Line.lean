import NumericScript.Proofs.Faithful.Expr

/-!
# Lines and their trees

The tokens of an assignment and of a header, as they are read: which of them the target, the value
and the condition are spelled by.
-/

namespace NumericScript

variable {room : Nat} {stop : Span} {tokens rest : List Token}

/-- A token that closes brackets holds to nothing before it. -/
theorem stops_of_kind {kind : TokenKind} {t : Token} (ht : t.kind = kind) (hgrip : kind.grip = 0) :
    Stops 0 (t :: rest) :=
  stops_cons rest (by rw [ht, hgrip])

/-- What is read has levels that fit, if nothing holds to it. -/
theorem expression_fits {e : Expr} (h : expression room stop tokens = .ok (e, rest))
    (hrest : Stops 0 rest) : Within e.levels room := by
  obtain ⟨used, rfl, hspelled, hshaped, _⟩ := spellsExpr_expression room _ _ _ _ h
  exact (settles_expression hshaped room stop hspelled.glyphs_eq hrest).fits_of_ok h

/-- A target is spelled by what is read of the line. -/
theorem target_spelled {t : Target} (h : target room stop tokens = .ok (t, rest)) :
    ∃ used, tokens = used ++ rest ∧ t.Spelled used ∧ t.Shaped ∧ Within t.levels room := by
  have hsplit := List.takeWhile_append_dropWhile (p := (isNamePart ·.kind)) (l := tokens)
  rw [target] at h
  split at h
  · cases h
  · rename_i part parts hname
    rw [hname] at hsplit
    split at h
    · rename_i lexeme span inner hinner
      obtain ⟨⟨index, later⟩, hindex, hclose⟩ := bind_eq_ok.mp h
      obtain ⟨⟨close, last⟩, hexpect, hlast⟩ := bind_eq_ok.mp hclose
      obtain ⟨rfl, hkind⟩ := expect_eq_ok.mp hexpect
      obtain ⟨rfl, rfl⟩ := Prod.mk.inj (Except.ok.inj hlast)
      have hfits := expression_fits hindex (stops_of_kind hkind rfl)
      obtain ⟨used, rfl, hspelled, hshaped, _⟩ := spellsExpr_expression room _ _ _ _ hindex
      rw [hinner] at hsplit
      let bracket : Token := ⟨.leftBracket, lexeme, span⟩
      refine ⟨part :: parts ++ bracket :: (used ++ [close]), ?_, ?_, hshaped, hfits⟩
      · simp [← hsplit, bracket]
      · exact .element _ part parts hspelled
    · obtain ⟨rfl, rfl⟩ := Prod.mk.inj (Except.ok.inj h)
      exact ⟨part :: parts, hsplit.symm, .scalar _ part parts, trivial, within_nil room⟩

/-- An assignment is a target, an equality sign and a value up to the end of the line. -/
theorem assignment_spelled {stmt : Stmt} (h : assignment room stop tokens = .ok stmt) :
    ∃ t value before equal after, stmt = .assign t value (t.span.join value.span) ∧
      tokens = before ++ equal :: after ∧ t.Spelled before ∧ value.Spelled after ∧
      Within stmt.levels room := by
  obtain ⟨⟨t, later⟩, htarget, h⟩ := bind_eq_ok.mp h
  obtain ⟨⟨equal, inner⟩, hequal, h⟩ := bind_eq_ok.mp h
  obtain ⟨⟨value, last⟩, hvalue, h⟩ := bind_eq_ok.mp h
  obtain ⟨⟨⟩, hend, h⟩ := bind_eq_ok.mp h
  obtain rfl := Except.ok.inj h
  obtain rfl := endOfLine_eq_ok.mp hend
  obtain ⟨rfl, _⟩ := expect_eq_ok.mp hequal
  obtain ⟨before, rfl, htspelled, _, htfits⟩ := target_spelled htarget
  have hfits := expression_fits hvalue (stops_nil 0)
  obtain ⟨after, rfl, hspelled, _, _⟩ := spellsExpr_expression room _ _ _ _ hvalue
  refine ⟨t, value, before, equal, after, rfl, by rw [List.append_nil], htspelled, hspelled, ?_⟩
  exact within_append.mpr ⟨htfits, hfits⟩

/-- A header is its condition in parentheses, up to the end of the line. -/
theorem header_spelled {word : Keyword} {c : Cond} (h : header word room stop tokens = .ok c) :
    ∃ paren inner close, tokens = paren :: (inner ++ [close]) ∧ c.Spelled inner ∧
      Within c.levels room := by
  obtain ⟨⟨paren, later⟩, hopen, h⟩ := bind_eq_ok.mp h
  obtain ⟨⟨c', after⟩, hcond, h⟩ := bind_eq_ok.mp h
  obtain ⟨⟨close, last⟩, hclose, h⟩ := bind_eq_ok.mp h
  obtain ⟨⟨⟩, hend, h⟩ := bind_eq_ok.mp h
  obtain rfl := Except.ok.inj h
  obtain rfl := endOfLine_eq_ok.mp hend
  obtain ⟨rfl, _⟩ := expect_eq_ok.mp hopen
  obtain ⟨rfl, hkind⟩ := expect_eq_ok.mp hclose
  obtain ⟨inner, rfl, hspelled, hshaped, _⟩ := spellsCond_condition room _ _ _ _ hcond
  have hends : Ends 0 [close] := by
    refine ⟨stops_of_kind hkind rfl, ?_⟩
    rintro _ ⟨⟩
    simp [hkind, TokenKind.hold]
  refine ⟨paren, inner, close, rfl, hspelled, ?_⟩
  exact (settles_condition hshaped room stop hspelled.glyphs_eq hends).fits_of_ok hcond

end NumericScript
