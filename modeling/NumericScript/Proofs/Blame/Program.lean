import NumericScript.Proofs.Blame.Reader
import NumericScript.Proofs.Relocation.Sequel

/-!
# Where a script is found wrong

A statement is read from the tokens of one line, and what is said of a block is said of a brace or
of a line's end. So whatever joins places of one line is in that line, and the place of an error is
in a line of the script.
-/

namespace NumericScript

/--
The end of a line and its tokens are in places that have a property, and so is whatever joins some
of them.
-/
def Together (good : Span → Prop) (stop : Span) (tokens : List Token) : Prop :=
  ∃ own : Span → Prop, Joins own ∧ (∀ span, own span → good span) ∧ own stop ∧ AllAt own tokens

/-- The places in an outline have a property, line by line. -/
def Outline.Placed (good : Span → Prop) : Outline → Prop
  | done => True
  | line first more stop next => Together good stop (first :: more) ∧ next.Placed good
  | block brace stop body close next =>
    good brace.span ∧ good stop ∧ (∀ t ∈ close, good t.span) ∧ body.Placed good ∧ next.Placed good
  | stray brace next => good brace.span ∧ next.Placed good

section Lines

variable {good : Span → Prop} {stop : Span} {tokens : List Token}

namespace Together

/-- The end of the line is among the places. -/
theorem good_stop (h : Together good stop tokens) : good stop :=
  let ⟨_, _, hown, hstop, _⟩ := h
  hown _ hstop

/-- The tokens of the line are among the places. -/
theorem allAt (h : Together good stop tokens) : AllAt good tokens :=
  let ⟨_, _, hown, _, htokens⟩ := h
  fun t ht => hown _ (htokens t ht)

private theorem tail {t : Token} {rest : List Token} (h : Together good stop (t :: rest)) :
    Together good stop rest :=
  let ⟨own, hjoins, hown, hstop, htokens⟩ := h
  ⟨own, hjoins, hown, hstop, (allAt_cons.mp htokens).2⟩

end Together

private theorem blames_endOfLine (clause : Clause) (h : AllAt good tokens) :
    Blames good (fun _ => True) (endOfLine clause tokens) := by
  cases tokens with
  | nil => exact .ok trivial
  | cons t rest => exact .fail (allAt_cons.mp h).1

private theorem blames_header (word : Keyword) (room : Nat) (h : Together good stop tokens) :
    Blames good (fun _ => True) (header word room stop tokens) := by
  obtain ⟨own, hjoins, hown, hstop, htokens⟩ := h
  refine Blames.mono ?_ hown fun _ => id
  refine (blamesIn_expect _ _ stop tokens hstop htokens).bindRest fun _ rest hrest => ?_
  refine (blamesIn_condition hjoins room stop rest hstop hrest).bindRest fun cond rest hrest => ?_
  refine (blamesIn_expect _ _ stop rest hstop hrest).bindRest fun _ rest hrest => ?_
  exact (blames_endOfLine _ hrest).bind fun _ _ => .ok trivial

private theorem blamesIn_target (hjoins : Joins good) (room : Nat) :
    BlamesIn good (target room) := by
  intro stop tokens hstop htokens
  have hrest : AllAt good (tokens.dropWhile (isNamePart ·.kind)) :=
    fun t ht => htokens t ((List.dropWhile_sublist _).subset ht)
  rw [target]
  split
  · exact .fail (hrest.nextSpan hstop)
  · dsimp only
    split
    · rename_i lexeme span inner hinner
      rw [hinner] at hrest
      have hinner := (allAt_cons.mp hrest).2
      have hindex := blamesIn_expression hjoins room stop _ hstop hinner
      refine hindex.bindRest fun index rest hrest => ?_
      exact (blamesIn_expect _ _ stop rest hstop hrest).bindRest fun close rest hrest => .ok hrest
    · exact .ok hrest

private theorem blames_assignment (room : Nat) (h : Together good stop tokens) :
    Blames good (fun _ => True) (assignment room stop tokens) := by
  obtain ⟨own, hjoins, hown, hstop, htokens⟩ := h
  refine Blames.mono ?_ hown fun _ => id
  have htarget := blamesIn_target hjoins room stop tokens hstop htokens
  refine htarget.bindRest fun target rest hrest => ?_
  refine (blamesIn_expect _ _ stop rest hstop hrest).bindRest fun _ rest hrest => ?_
  refine (blamesIn_expression hjoins room stop rest hstop hrest).bindRest fun value rest hrest => ?_
  exact (blames_endOfLine _ hrest).bind fun _ _ => .ok trivial

end Lines

section Outlines

variable {good : Span → Prop}

private theorem Outline.Placed.append {o later : Outline} (h : o.Placed good)
    (hlater : later.Placed good) : (o.append later).Placed good := by
  induction o with
  | done => exact hlater
  | line first more stop next ih => exact ⟨h.1, ih h.2⟩
  | block brace stop body close next _ ih =>
    obtain ⟨hbrace, hstop, hclose, hbody, hnext⟩ := h
    exact ⟨hbrace, hstop, hclose, hbody, ih hnext⟩
  | stray brace next ih => exact ⟨h.1, ih h.2⟩

/-- The places of a draft have a property, those of the braces that wait as well. -/
structure Draft.Placed (good : Span → Prop) (draft : Draft) : Prop where
  current : draft.current.Placed good
  waiting : ∀ entry ∈ draft.waiting, good entry.1.span ∧ entry.2.Placed good

private theorem Draft.Placed.add {line : TokenLine} {draft : Draft} (h : draft.Placed good)
    (hline : Together good line.stop line.tokens) : (draft.add line).Placed good := by
  obtain ⟨current, waiting⟩ := draft
  obtain ⟨tokens, stop⟩ := line
  obtain ⟨hcurrent, hwaiting⟩ := h
  cases tokens with
  | nil => exact ⟨hcurrent, hwaiting⟩
  | cons t more =>
    have ht := (allAt_cons.mp hline.allAt).1
    unfold Draft.add
    dsimp only
    split
    · cases waiting with
      | nil => exact ⟨⟨ht, hline.good_stop, nofun, hcurrent, trivial⟩, List.forall_mem_nil _⟩
      | cons entry waiting =>
        obtain ⟨⟨hclose, hafter⟩, hwaiting⟩ := List.forall_mem_cons.mp hwaiting
        refine ⟨⟨ht, hline.good_stop, ?_, hcurrent, hafter⟩, hwaiting⟩
        rintro _ ⟨⟩
        exact hclose
    · exact ⟨trivial, List.forall_mem_cons.mpr ⟨⟨ht, hcurrent⟩, hwaiting⟩⟩
    · exact ⟨⟨hline, hcurrent⟩, hwaiting⟩

private theorem Draft.placed_release {current : Outline} {waiting : List (Token × Outline)}
    (hcurrent : current.Placed good)
    (hwaiting : ∀ entry ∈ waiting, good entry.1.span ∧ entry.2.Placed good) :
    (release current waiting).Placed good := by
  induction waiting generalizing current with
  | nil => exact hcurrent
  | cons entry waiting ih =>
    obtain ⟨⟨hbrace, hafter⟩, hwaiting⟩ := List.forall_mem_cons.mp hwaiting
    exact hcurrent.append ⟨hbrace, ih hafter hwaiting⟩

/-- An outline has its places among those of the lines it is made of. -/
theorem Outline.placed_ofLines {lines : List TokenLine}
    (h : ∀ line ∈ lines, Together good line.stop line.tokens) : (ofLines lines).Placed good := by
  have hdraft : (lines.foldr Draft.add ⟨.done, []⟩).Placed good := by
    induction lines with
    | nil => exact ⟨trivial, List.forall_mem_nil _⟩
    | cons line lines ih =>
      obtain ⟨hline, hlines⟩ := List.forall_mem_cons.mp h
      exact (ih hlines).add hline
  exact Draft.placed_release hdraft.current hdraft.waiting

private theorem Outline.Placed.firstSpan {o : Outline} {after : Span} (h : o.Placed good)
    (hafter : good after) : good (o.firstSpan after) := by
  cases o with
  | done => exact hafter
  | line => exact (allAt_cons.mp h.1.allAt).1
  | block => exact h.1
  | stray => exact h.1

end Outlines

section Statements

variable {good : Span → Prop} {after : Span}

/-- Whatever some lines are read after, the errors of reading them are in good places. -/
def BlamesLines (good : Span → Prop) (afterBranch : Bool) (o : Outline) : Prop :=
  ∀ room after, good after → Blames good (fun _ => True) (sequel afterBranch room after o)

private theorem blames_blockBody {room : Nat} {brace : Token} {stop : Span} {close : Option Token}
    {read : Nat → Span → Except ScriptError Sequel} (hafter : good after) (hbrace : good brace.span)
    (hstop : good stop) (hclose : ∀ t ∈ close, good t.span)
    (hread : ∀ room after, good after → Blames good (fun _ => True) (read room after)) :
    Blames good (fun _ => True) (blockBody room after brace stop close read) := by
  cases room with
  | zero => exact .fail hstop
  | succ room =>
    cases close with
    | some close => exact (hread room close.span (hclose close rfl)).bind fun _ _ => .ok trivial
    | none => exact (hread room after hafter).bind fun _ _ => .fail hbrace

private theorem blames_blockThen {afterBlock : Bool} {room : Nat} {brace : Token} {stop : Span}
    {body next : Outline} {close : Option Token} {combine : List Stmt → Span → Sequel → Sequel}
    (hafter : good after) (hplaced : (Outline.block brace stop body close next).Placed good)
    (hbody : body.Placed good → BlamesLines good false body)
    (hnext : next.Placed good → BlamesLines good afterBlock next) :
    Blames good (fun _ => True)
      (blockThen afterBlock room after brace stop body close next combine) := by
  obtain ⟨hbrace, hstop, hclose, hinside, hlater⟩ := hplaced
  refine (blames_blockBody hafter hbrace hstop hclose (hbody hinside)).bind fun _ _ => ?_
  exact (hnext hlater room after hafter).bind fun _ _ => .ok trivial

private theorem blames_headed {α : Type} {head : Except ScriptError α} {clause : Clause}
    {afterBlock : Bool}
    {room : Nat} {next : Outline} {combine : α → List Stmt → Span → Sequel → Sequel}
    (hhead : Blames good (fun _ => True) head) (hafter : good after) (hplaced : next.Placed good)
    (hblock : ∀ brace stop body close later, next = .block brace stop body close later →
      (body.Placed good → BlamesLines good false body) ∧
        (later.Placed good → BlamesLines good afterBlock later)) :
    Blames good (fun _ => True) (headed head clause afterBlock room after next combine) := by
  refine hhead.bind fun a _ => ?_
  have hfirst := hplaced.firstSpan hafter
  cases next with
  | block brace stop body close later =>
    obtain ⟨hbody, hlater⟩ := hblock brace stop body close later rfl
    exact blames_blockThen hafter hplaced hbody hlater
  | done => exact .fail hfirst
  | line => exact .fail hfirst
  | stray => exact .fail hfirst

private theorem blames_plain {afterBranch : Bool} {first : Token} {more : List Token} {stop : Span}
    {next : Outline} (h : ∀ word, first.kind ≠ .keyword word)
    (hplaced : Together good stop (first :: more)) (hnext : BlamesLines good false next) :
    BlamesLines good afterBranch (.line first more stop next) := by
  intro room after hafter
  have hlater := hnext room after hafter
  rw [sequel_plain h]
  split
  · refine (blames_assignment room hplaced).bind fun _ _ => ?_
    exact hlater.bind fun _ _ => .ok trivial
  · exact hlater.bind fun _ _ => .ok trivial

/-- The errors of reading an outline are in the places of the outline. -/
theorem blamesLines (afterBranch : Bool) (room : Nat) (after : Span) (o : Outline)
    (hplaced : o.Placed good) : BlamesLines good afterBranch o := by
  induction afterBranch, room, after, o using sequel.induct with
  | case1 => exact fun _ _ _ => .ok trivial
  | case2 afterBranch room after brace next => exact fun _ _ _ => .fail hplaced.1
  | case3 afterBranch room after brace stop body close next ihbody ihnext =>
    intro room after hafter
    rw [sequel_block]
    exact blames_blockThen hafter hplaced (ihbody room after) ihnext
  | case4 afterBranch room after first more stop next hword ih =>
    intro room after hafter
    rw [sequel_if hword]
    refine blames_headed (blames_header _ room hplaced.1.tail) hafter hplaced.2 ?_
    rintro brace stop body close later rfl
    exact ⟨ih.1 room after, ih.2⟩
  | case5 afterBranch room after first more stop next hword ih =>
    intro room after hafter
    rw [sequel_while hword]
    refine blames_headed (blames_header _ room hplaced.1.tail) hafter hplaced.2 ?_
    rintro brace stop body close later rfl
    exact ⟨ih.1 room after, ih.2⟩
  | case6 room after first more stop next hword ih =>
    intro room after hafter
    rw [sequel_elif hword]
    refine blames_headed (blames_header _ room hplaced.1.tail) hafter hplaced.2 ?_
    rintro brace stop body close later rfl
    exact ⟨ih.1 room after, ih.2⟩
  | case7 afterBranch room after first more stop next hword hbranch =>
    intro room after hafter
    rw [Bool.eq_false_of_not_eq_true hbranch, sequel_dangling (.inl hword)]
    exact .fail (allAt_cons.mp hplaced.1.allAt).1
  | case8 room after first more stop next hword ih =>
    intro room after hafter
    rw [sequel_else hword]
    refine blames_headed (blames_endOfLine _ hplaced.1.tail.allAt) hafter hplaced.2 ?_
    rintro brace stop body close later rfl
    exact ⟨ih.1 room after, ih.2⟩
  | case9 afterBranch room after first more stop next hword hbranch =>
    intro room after hafter
    rw [Bool.eq_false_of_not_eq_true hbranch, sequel_dangling (.inr hword)]
    exact .fail (allAt_cons.mp hplaced.1.allAt).1
  | case10 afterBranch room after first more stop next hequal hif hwhile helif helse ih =>
    exact blames_plain (by rintro (_ | _ | _ | _) <;> assumption) hplaced.1 (ih hplaced.2)
  | case11 afterBranch room after first more stop next hequal hif hwhile helif helse ih =>
    exact blames_plain (by rintro (_ | _ | _ | _) <;> assumption) hplaced.1 (ih hplaced.2)

end Statements

end NumericScript
