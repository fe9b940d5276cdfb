import NumericScript.Proofs.ReadBack.Program
import NumericScript.Proofs.Relocation.Program

/-!
# Outlines of composed scripts

In an accepted script all braces are matched. Whatever comes after such a script leaves its outline
as it is, and the script is read as if nothing came after it.
-/

namespace NumericScript

section Matched

/-- Every brace of an outline is matched. -/
inductive Outline.Matched : Outline → Prop
  | done : Matched .done
  | line {first : Token} {more : List Token} {stop : Span} {next : Outline} (hnext : next.Matched) :
    Matched (.line first more stop next)
  | block {brace close : Token} {stop : Span} {body next : Outline} (hbody : body.Matched)
    (hnext : next.Matched) : Matched (.block brace stop body (some close) next)

/-- Nothing after an outline adds nothing to it. -/
theorem Outline.append_done (o : Outline) : o.append .done = o := by
  induction o with
  | done => rfl
  | line first more stop next ih => exact congrArg (line _ _ _) ih
  | block brace stop body close next _ ih => exact congrArg (block _ _ _ _) ih
  | stray brace next ih => exact congrArg (stray _) ih

private theorem Outline.not_matched_append_stray (o : Outline) (brace : Token) (next : Outline) :
    ¬ (o.append (.stray brace next)).Matched := by
  intro h
  induction o with
  | done => cases h
  | line first more stop later ih =>
    cases h with
    | line hnext => exact ih hnext
  | block brace stop body close later _ ih =>
    cases h with
    | block _ hnext => exact ih hnext
  | stray => cases h

namespace Draft

/-- A draft of lines that stand before those of another draft. -/
def before (later : Draft) : Outline → List (Token × Outline) → Draft
  | current, [] => ⟨current.append later.current, later.waiting⟩
  | current, (brace, after) :: waiting =>
    let rest := later.before after waiting
    ⟨current, (brace, rest.current) :: rest.waiting⟩

/-- Every brace of a draft is matched but those that wait. -/
def Matched (draft : Draft) : Prop :=
  draft.current.Matched ∧ ∀ entry ∈ draft.waiting, entry.2.Matched

/-- A line that leaves a draft matched goes before it whatever comes after. -/
theorem add_before {line : TokenLine} {draft : Draft} (h : (add line draft).Matched) :
    draft.Matched ∧ ∀ later : Draft,
      add line (later.before draft.current draft.waiting) =
        later.before (add line draft).current (add line draft).waiting := by
  obtain ⟨tokens, stop⟩ := line
  obtain ⟨current, waiting⟩ := draft
  obtain ⟨hcurrent, hwaiting⟩ := h
  rcases tokens with _ | ⟨⟨kind, lexeme, span⟩, more⟩
  · exact ⟨⟨hcurrent, hwaiting⟩, fun _ => rfl⟩
  · cases kind with
    | leftBrace =>
      rcases waiting with _ | ⟨⟨close, after⟩, waiting⟩
      · cases hcurrent
      · cases hcurrent with
        | block hbody hnext =>
          refine ⟨⟨hbody, List.forall_mem_cons.mpr ⟨hnext, hwaiting⟩⟩, fun later => ?_⟩
          cases waiting <;> rfl
    | rightBrace =>
      obtain ⟨hafter, hwaiting⟩ := List.forall_mem_cons.mp hwaiting
      exact ⟨⟨hafter, hwaiting⟩, fun _ => rfl⟩
    | _ =>
      cases hcurrent with
      | line hnext =>
        refine ⟨⟨hnext, hwaiting⟩, fun later => ?_⟩
        cases waiting <;> rfl

/-- Lines whose braces are matched, but for closing ones, go before others as they are. -/
theorem foldr_add_before {lines : List TokenLine} (h : (lines.foldr add ⟨.done, []⟩).Matched)
    (later : Draft) :
    lines.foldr add later = later.before (lines.foldr add ⟨.done, []⟩).current
      (lines.foldr add ⟨.done, []⟩).waiting := by
  induction lines with
  | nil => rfl
  | cons line lines ih =>
    obtain ⟨hmatched, hadd⟩ := add_before h
    rw [List.foldr_cons, ih hmatched, hadd, List.foldr_cons]

end Draft

/-- Matched lines go before others with their outline. -/
theorem Outline.foldr_add_of_matched {lines : List TokenLine} (h : (ofLines lines).Matched)
    (later : Draft) :
    lines.foldr Draft.add later = ⟨(ofLines lines).append later.current, later.waiting⟩ := by
  have hall : lines.foldr Draft.add ⟨.done, []⟩ = ⟨ofLines lines, []⟩ := by
    unfold ofLines at h ⊢
    cases hfold : lines.foldr Draft.add ⟨.done, []⟩ with
    | mk current waiting =>
      rw [hfold] at h
      cases waiting with
      | nil => rfl
      | cons entry waiting => exact absurd h (not_matched_append_stray current _ _)
  rw [Draft.foldr_add_before (by rw [hall]; exact ⟨h, nofun⟩), hall]
  rfl

end Matched

section Statements

/-- What is read from some lines, with more statements after it. -/
def Sequel.append (read : Sequel) (more : List Stmt) : Sequel :=
  { read with statements := read.statements ++ more }

/-- Lines, the same after a branch and elsewhere, that are read as statements. -/
def Outline.IsRead (o : Outline) (room : Nat) (after : Span) (stmts : List Stmt) : Prop :=
  ∀ afterBranch, sequel afterBranch room after o = .ok ⟨.done, none, stmts⟩

/-- What is so of lines that are read: their braces are matched, and reading goes on after them,
whatever is said to come after them. -/
structure Outline.GoesOn (o : Outline) (afterBranch : Bool) (room : Nat) (read : Sequel) :
    Prop where
  matched : o.Matched
  append : ∀ {after : Span} {later : Outline} {more : List Stmt}, later.IsRead room after more →
    sequel afterBranch room after (o.append later) = .ok (read.append more)

section Blocks

variable {afterBlock : Bool} {room : Nat} {after : Span} {brace : Token} {stop : Span}
  {body : Outline} {close : Option Token} {next : Outline} {read : Sequel}

private theorem blockBody_after {read : Nat → Span → Except ScriptError Sequel}
    {result : List Stmt × Span}
    (h : blockBody room after brace stop close read = .ok result) (after' : Span) :
    blockBody room after' brace stop close read = .ok result := by
  obtain ⟨inner, span⟩ := result
  obtain ⟨lower, last, _, rfl, rfl, _⟩ := blockBody_eq_ok h
  exact h

private theorem goesOn_blockThen {combine : List Stmt → Span → Sequel → Sequel}
    (hcombine : ∀ inner span later more,
      combine inner span (later.append more) = (combine inner span later).append more)
    (hbody : ∀ room after read, sequel false room after body = .ok read →
      body.GoesOn false room read)
    (hnext : ∀ read, sequel afterBlock room after next = .ok read →
      next.GoesOn afterBlock room read)
    (h : blockThen afterBlock room after brace stop body close next combine = .ok read) :
    (Outline.block brace stop body close next).Matched ∧
      ∀ {after : Span} {later : Outline} {more : List Stmt}, later.IsRead room after more →
        blockThen afterBlock room after brace stop body close (next.append later) combine =
          .ok (read.append more) := by
  obtain ⟨⟨inner, span⟩, hblock, h⟩ := bind_eq_ok.mp h
  obtain ⟨rest, hrest, h⟩ := bind_eq_ok.mp h
  obtain rfl := Except.ok.inj h
  have hgoes := hnext rest hrest
  obtain ⟨lower, last, read, _, rfl, hread, _⟩ := blockBody_eq_ok hblock
  refine ⟨.block (hbody lower last.span read hread).matched hgoes.matched, fun hlater => ?_⟩
  have hwhole := hgoes.append hlater
  refine bind_eq_ok.mpr ⟨(inner, span), blockBody_after hblock _, ?_⟩
  exact bind_eq_ok.mpr ⟨rest.append _, hwhole, congrArg Except.ok (hcombine inner span rest _)⟩

end Blocks

section Lines

variable {afterBranch : Bool} {room : Nat} {after : Span} {first : Token} {more : List Token}
  {stop : Span} {next : Outline} {read : Sequel}

/-- Reading goes on after a line with its block if it does after what follows the block. -/
theorem goesOn_headed {α : Type} {head : Except ScriptError α} {clause : Clause}
    {afterBlock : Bool} {combine : α → List Stmt → Span → Sequel → Sequel}
    (hsequel : ∀ after next, sequel afterBranch room after (.line first more stop next) =
      headed head clause afterBlock room after next combine)
    (hcombine : ∀ a inner span later more,
      combine a inner span (later.append more) = (combine a inner span later).append more)
    (hblock : ∀ brace stop body close later, next = .block brace stop body close later →
      (∀ room after read, sequel false room after body = .ok read →
        body.GoesOn false room read) ∧
      ∀ read, sequel afterBlock room after later = .ok read → later.GoesOn afterBlock room read)
    (h : sequel afterBranch room after (.line first more stop next) = .ok read) :
    (Outline.line first more stop next).GoesOn afterBranch room read := by
  rw [hsequel] at h
  obtain ⟨a, hhead, h⟩ := bind_eq_ok.mp h
  cases next with
  | block brace stop body close later =>
    obtain ⟨hbody, hnext⟩ := hblock brace stop body close later rfl
    obtain ⟨hmatched, happend⟩ := goesOn_blockThen (hcombine a) hbody hnext h
    refine ⟨.line hmatched, fun hlater => ?_⟩
    rw [Outline.append, hsequel]
    exact bind_eq_ok.mpr ⟨a, hhead, happend hlater⟩
  | done => cases h
  | line => cases h
  | stray => cases h

private theorem goesOn_plain (hplain : ∀ word, first.kind ≠ .keyword word)
    (hnext : ∀ read, sequel false room after next = .ok read → next.GoesOn false room read)
    (h : sequel afterBranch room after (.line first more stop next) = .ok read) :
    (Outline.line first more stop next).GoesOn afterBranch room read := by
  rw [sequel_plain hplain] at h
  split at h
  · rename_i hequal
    obtain ⟨stmt, hstmt, h⟩ := bind_eq_ok.mp h
    obtain ⟨later, hlater, h⟩ := bind_eq_ok.mp h
    obtain rfl := Except.ok.inj h
    have hgoes := hnext later hlater
    refine ⟨.line hgoes.matched, fun hmore => ?_⟩
    rw [Outline.append, sequel_plain hplain, if_pos hequal]
    exact bind_eq_ok.mpr ⟨stmt, hstmt, bind_eq_ok.mpr ⟨_, hgoes.append hmore, rfl⟩⟩
  · rename_i hequal
    obtain ⟨later, hlater, h⟩ := bind_eq_ok.mp h
    obtain rfl := Except.ok.inj h
    have hgoes := hnext later hlater
    refine ⟨.line hgoes.matched, fun hmore => ?_⟩
    rw [Outline.append, sequel_plain hplain, if_neg hequal]
    exact bind_eq_ok.mpr ⟨_, hgoes.append hmore, rfl⟩

end Lines

/-- Reading goes on after all lines that are read. -/
theorem goesOn_of_sequel {afterBranch : Bool} {room : Nat} {after : Span} {o : Outline}
    {read : Sequel} (h : sequel afterBranch room after o = .ok read) :
    o.GoesOn afterBranch room read := by
  induction afterBranch, room, after, o using sequel.induct generalizing read with
  | case1 afterBranch room after =>
    obtain rfl := Except.ok.inj h
    exact ⟨.done, fun hlater => hlater _⟩
  | case2 => cases h
  | case3 afterBranch room after brace stop body close next ihbody ihnext =>
    rw [sequel_block] at h
    obtain ⟨hmatched, happend⟩ := goesOn_blockThen (fun _ _ _ _ => rfl)
      (fun room after _ => ihbody room after) (fun _ => ihnext) h
    exact ⟨hmatched, happend⟩
  | case4 afterBranch room after first more stop next hword ih =>
    refine goesOn_headed (fun _ _ => sequel_if hword) (fun _ _ _ _ _ => rfl) ?_ h
    rintro brace stop body close later rfl
    exact ⟨fun room after _ => ih.1 room after, fun _ => ih.2⟩
  | case5 afterBranch room after first more stop next hword ih =>
    refine goesOn_headed (fun _ _ => sequel_while hword) (fun _ _ _ _ _ => rfl) ?_ h
    rintro brace stop body close later rfl
    exact ⟨fun room after _ => ih.1 room after, fun _ => ih.2⟩
  | case6 room after first more stop next hword ih =>
    refine goesOn_headed (fun _ _ => sequel_elif hword) (fun _ _ _ _ _ => rfl) ?_ h
    rintro brace stop body close later rfl
    exact ⟨fun room after _ => ih.1 room after, fun _ => ih.2⟩
  | case7 afterBranch room after first more stop next hword hbranch =>
    rw [Bool.eq_false_of_not_eq_true hbranch, sequel_dangling (.inl hword)] at h
    cases h
  | case8 room after first more stop next hword ih =>
    refine goesOn_headed (fun _ _ => sequel_else hword) (fun _ _ _ _ _ => rfl) ?_ h
    rintro brace stop body close later rfl
    exact ⟨fun room after _ => ih.1 room after, fun _ => ih.2⟩
  | case9 afterBranch room after first more stop next hword hbranch =>
    rw [Bool.eq_false_of_not_eq_true hbranch, sequel_dangling (.inr hword)] at h
    cases h
  | case10 afterBranch room after first more stop next hequal hif hwhile helif helse ih =>
    exact goesOn_plain (by rintro (_ | _ | _ | _) <;> assumption) (fun _ => ih) h
  | case11 afterBranch room after first more stop next hequal hif hwhile helif helse ih =>
    exact goesOn_plain (by rintro (_ | _ | _ | _) <;> assumption) (fun _ => ih) h

private theorem blockThen_eq_ok {afterBlock : Bool} {room : Nat} {after : Span} {brace : Token}
    {stop : Span} {body : Outline} {close : Option Token} {next : Outline} {read : Sequel}
    {combine : List Stmt → Span → Sequel → Sequel}
    (h : blockThen afterBlock room after brace stop body close next combine = .ok read) :
    ∃ inner span later, read = combine inner span later := by
  obtain ⟨⟨inner, span⟩, _, h⟩ := bind_eq_ok.mp h
  obtain ⟨later, _, h⟩ := bind_eq_ok.mp h
  exact ⟨inner, span, later, (Except.ok.inj h).symm⟩

private theorem headed_eq_ok {α : Type} {head : Except ScriptError α} {clause : Clause}
    {afterBlock : Bool} {room : Nat} {after : Span} {next : Outline} {read : Sequel}
    {combine : α → List Stmt → Span → Sequel → Sequel}
    (h : headed head clause afterBlock room after next combine = .ok read) :
    ∃ a inner span later, read = combine a inner span later := by
  obtain ⟨a, _, h⟩ := bind_eq_ok.mp h
  cases next with
  | block => exact ⟨a, blockThen_eq_ok h⟩
  | done => cases h
  | line => cases h
  | stray => cases h

private theorem sequel_plain_eq_ok {afterBranch : Bool} {room : Nat} {after : Span} {first : Token}
    {more : List Token} {stop : Span} {next : Outline} {read : Sequel}
    (hplain : ∀ word, first.kind ≠ .keyword word)
    (h : sequel afterBranch room after (.line first more stop next) = .ok read) :
    read = ⟨.done, none, read.statements⟩ := by
  rw [sequel_plain hplain] at h
  split at h
  · obtain ⟨stmt, _, h⟩ := bind_eq_ok.mp h
    obtain ⟨later, _, h⟩ := bind_eq_ok.mp h
    obtain rfl := Except.ok.inj h
    rfl
  · obtain ⟨later, _, h⟩ := bind_eq_ok.mp h
    obtain rfl := Except.ok.inj h
    rfl

/-- Lines that are read where no branch ends are read in the same way where one ends. -/
theorem isRead_of_sequel {room : Nat} {after : Span} {o : Outline} {read : Sequel}
    (h : sequel false room after o = .ok read) : o.IsRead room after read.statements := by
  intro afterBranch
  cases o with
  | done =>
    obtain rfl := Except.ok.inj h
    rfl
  | stray => cases h
  | block brace stop body close next =>
    rw [sequel_block] at h ⊢
    obtain ⟨_, _, _, rfl⟩ := blockThen_eq_ok h
    exact h
  | line first more stop next =>
    cases hkind : first.kind with
    | keyword word =>
      cases word with
      | ifWord =>
        rw [sequel_if hkind] at h ⊢
        obtain ⟨_, _, _, _, rfl⟩ := headed_eq_ok h
        exact h
      | whileWord =>
        rw [sequel_while hkind] at h ⊢
        obtain ⟨_, _, _, _, rfl⟩ := headed_eq_ok h
        exact h
      | elifWord =>
        rw [sequel_dangling (.inl hkind)] at h
        cases h
      | elseWord =>
        rw [sequel_dangling (.inr hkind)] at h
        cases h
    | _ =>
      have hplain : ∀ word, first.kind ≠ .keyword word := by simp [hkind]
      have hread : read = ⟨.done, none, read.statements⟩ := sequel_plain_eq_ok hplain h
      rw [sequel_plain hplain] at h ⊢
      exact h.trans (congrArg Except.ok hread)

/-- What comes after lines that are read makes no difference. -/
theorem sequel_after {afterBranch : Bool} {room : Nat} {after : Span} {o : Outline} {read : Sequel}
    (h : sequel afterBranch room after o = .ok read) (after' : Span) :
    sequel afterBranch room after' o = .ok read := by
  have hnothing : Outline.done.IsRead room after' [] := fun _ => rfl
  have happend := (goesOn_of_sequel h).append hnothing
  rwa [Outline.append_done, Sequel.append, List.append_nil] at happend

end Statements

end NumericScript
