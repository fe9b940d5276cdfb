import NumericScript.Token.Scan

/-!
# Cutting

One step of cutting takes the lexeme that a text begins with, and what is cut from the rest of the
text comes after it. Apart from names and numbers the kind of a lexeme fixes its characters.
-/

namespace NumericScript

/-- The characters of a kind of token; names and numbers have none of their own. -/
def TokenKind.spelling : TokenKind → List Char
  | leftParen => ['(']
  | rightParen => [')']
  | leftBrace => ['\x7b']
  | rightBrace => ['\x7d']
  | leftBracket => ['[']
  | rightBracket => [']']
  | minus => ['-']
  | plus => ['+']
  | slash => ['/']
  | star => ['*']
  | caret => ['^']
  | less => ['<']
  | greater => ['>']
  | equal => ['=']
  | equalEqual => ['=', '=']
  | bangEqual => ['!', '=']
  | andAnd => ['&', '&']
  | orOr => ['|', '|']
  | identifier | number => []
  | keyword word => word.text.toList
  | function builtin => builtin.name.toList

/-- Characters that still belong to the lexeme before are passed over. -/
theorem cutFrom_eq_ok {pending : Nat} {text : List Char} {lexemes : List Lexeme} :
    cutFrom pending text = .ok lexemes ↔ cut (text.drop pending) = .ok lexemes := by
  induction text generalizing pending with
  | nil => cases pending <;> simp [cut, cutFrom]
  | cons c rest ih =>
    cases pending with
    | zero => rfl
    | succ pending =>
      rw [cutFrom, List.drop_succ_cons, ← ih]
      split
      · rename_i later hlater
        rw [hlater]
      · rename_i stray hstray
        simp [hstray]

theorem cut_nil : cut [] = .ok [] := rfl

/-- A text is cut into the lexeme that it begins with and the lexemes of the rest. -/
theorem cut_cons_eq_ok {c : Char} {rest : List Char} {lexemes : List Lexeme} :
    cut (c :: rest) = .ok lexemes ↔ ∃ kind length later, munch? c rest = some (kind, length) ∧
      cut (rest.drop (length - 1)) = .ok later ∧
      lexemes = ⟨kind, (c :: rest).take length⟩ :: later := by
  rw [cut, cutFrom]
  cases munch? c rest with
  | none => simp
  | some found =>
    obtain ⟨kind, length⟩ := found
    dsimp only
    constructor
    · intro h
      split at h
      · rename_i later hlater
        exact ⟨kind, length, later, rfl, cutFrom_eq_ok.mp hlater, (Except.ok.inj h).symm⟩
      · cases h
    · rintro ⟨_, _, later, ⟨rfl, rfl⟩, hlater, rfl⟩
      rw [cutFrom_eq_ok.mpr hlater]

/-- A word is a keyword if it is the keyword's text. -/
theorem Keyword.ofWord?_eq_some {word : List Char} {k : Keyword} :
    Keyword.ofWord? word = some k ↔ word = k.text.toList := by
  constructor
  · intro h
    simpa [eq_comm] using List.find?_some h
  · rintro rfl
    cases k <;> decide

/-- A function's name is found at the front of a word only. -/
theorem Builtin.prefix_of_wordStart {word : List Char} {f : Builtin}
    (h : Builtin.ofWordStart? word = some f) : f.name.toList <+: word := by
  simpa using List.find?_some h

/-- A word that is neither a name nor a number is spelled as its kind. -/
theorem take_classifyWord {word after : List Char} {kind : TokenKind} {length : Nat}
    (h : classifyWord word after = (kind, length)) (hname : kind ≠ .identifier)
    (hnumber : kind ≠ .number) : (word ++ after).take length = kind.spelling := by
  unfold classifyWord at h
  split at h
  · split at h
    · rename_i k hk
      obtain ⟨rfl, rfl⟩ := Prod.mk.inj h
      rw [List.take_left, Keyword.ofWord?_eq_some.mp hk, TokenKind.spelling]
    · split at h
      · rename_i f hf
        obtain ⟨rfl, rfl⟩ := Prod.mk.inj h
        obtain ⟨more, rfl⟩ := Builtin.prefix_of_wordStart hf
        rw [List.append_assoc, ← String.length_toList, List.take_left, TokenKind.spelling]
      · exact absurd (Prod.mk.inj h).1.symm hname
  · split at h
    · exact absurd (Prod.mk.inj h).1.symm hname
    · exact absurd (Prod.mk.inj h).1.symm hnumber

/-- A lexeme that is neither a name nor a number is spelled as its kind. -/
theorem take_munch {c : Char} {rest : List Char} {kind : TokenKind} {length : Nat}
    (h : munch? c rest = some (kind, length)) (hname : kind ≠ .identifier)
    (hnumber : kind ≠ .number) : (c :: rest).take length = kind.spelling := by
  unfold munch? at h
  split at h
  · have := take_classifyWord (Option.some.inj h) hname hnumber
    rwa [List.cons_append, List.takeWhile_append_dropWhile] at this
  · split at h
    case h_14 =>
      split at h <;> cases h
      · rename_i hnext
        obtain ⟨more, rfl⟩ := List.head?_eq_some_iff.mp hnext
        rfl
      · rfl
    case h_15 | h_16 | h_17 =>
      split at h <;> cases h
      rename_i hnext
      obtain ⟨more, rfl⟩ := List.head?_eq_some_iff.mp hnext
      rfl
    case h_18 =>
      split at h <;> cases h
      exact absurd rfl hnumber
    all_goals
      cases h
      try rfl

end NumericScript
