import Lox.Proofs.Grammar.Surroundings
import Lox.Proofs.Scoping.Counterparts

/-!
# Programs in parts

A program that is put together from two parts is parsed part by part where the first part ends as a
statement does: if it is parsed without a complaint, or if its last token is a semicolon, the only
one in it, and it has no blocks and no counting loops. What is found in the second part is then what
is found in it on its own, but for the numbers of its references.
-/

namespace Lox.Grammar

namespace Parsed

/-- What is found if more numbers were given out before. -/
def renumbered (k : Nat) (p : Parsed) : Parsed :=
  ⟨recastStmts (.moved id k) [] p.statements, p.complaints, k + p.nextId⟩

/-- What is found in two parts of a program one after the other. -/
def append (p q : Parsed) : Parsed :=
  ⟨p.statements ++ q.statements, p.complaints ++ q.complaints, q.nextId⟩

end Parsed

/-- What is found from a state on. -/
def State.parsed (s : State) : Parsed :=
  ⟨(statements s).1, (statements s).2.complaints, (statements s).2.nextId⟩

/-- A parse is what its first state leads to. -/
theorem parse_eq_parsed (ts : List Token) (n : Nat) : parse ts n = (State.start ts n).parsed := rfl

/-- The numbers that were given out before and the complaints that were made before change nothing
else. -/
theorem State.parsed_after (rest : List Token) (last : Token) (n k : Nat) (cs : List Complaint) :
    State.parsed ⟨rest, last, k + n, cs⟩ =
      { (State.parsed ⟨rest, last, n, []⟩).renumbered k with
        complaints := cs ++ (State.parsed ⟨rest, last, n, []⟩).complaints } := by
  let E : Surroundings := ⟨id, k, cs, none, last, by simp⟩
  have hstate : E.state ⟨rest, last, n, []⟩ = ⟨rest, last, k + n, cs⟩ := by
    simp [E, Surroundings.state, Surroundings.tokens, Token.moved_id]
  have hparsed := statements_whole E rfl (s := ⟨rest, last, n, []⟩) rfl
  unfold parsed
  rw [← hstate, hparsed]
  simp [E, Surroundings.state, Surroundings.recasting, Parsed.renumbered, Complaint.moved_id]

/-- A program is parsed alike from any number on. -/
theorem parse_renumbered (ts : List Token) (n k : Nat) :
    parse ts (k + n) = (parse ts n).renumbered k :=
  State.parsed_after _ _ n k []

/-- The state in which a program in two parts is parsed. -/
theorem State.start_parts {ts us : List Token} (hts : ∀ t ∈ ts, t.kind ≠ .eof)
    (hend : ∃ t ∈ us, t.kind = .eof) (n : Nat) :
    State.start (ts ++ us) n = ⟨ts ++ (State.start us 0).rest, (State.start us 0).last, n, []⟩ := by
  have hall : ∀ t ∈ ts, (!decide (t.kind = .eof)) = true := by
    intro t ht
    simpa using hts t ht
  have hnone : ts.find? (fun t => decide (t.kind = .eof)) = none :=
    List.find?_eq_none.mpr fun t ht => by simpa using hts t ht
  have hsome : (us.find? (fun t => decide (t.kind = .eof))).isSome := by
    simpa using hend
  obtain ⟨last, hlast⟩ := Option.isSome_iff_exists.mp hsome
  unfold State.start
  dsimp only
  rw [List.takeWhile_append_of_pos hall, List.find?_append, hnone, Option.none_or, hlast]
  rfl

/-- The state in which tokens without an end token are parsed. -/
theorem State.start_endless {ts : List Token} (hts : ∀ t ∈ ts, t.kind ≠ .eof) (n : Nat) :
    State.start ts n = ⟨ts, (State.start ts n).last, n, []⟩ := by
  have hall : ∀ t ∈ ts, (!decide (t.kind = .eof)) = true := by
    intro t ht
    simpa using hts t ht
  have hrest : (ts ++ []).takeWhile (fun t => !decide (t.kind = Token.Kind.eof)) = ts := by
    rw [List.takeWhile_append_of_pos hall, List.takeWhile_nil, List.append_nil]
  rw [List.append_nil] at hrest
  exact congrArg (fun rest => (⟨rest, (State.start ts n).last, n, []⟩ : State)) hrest

/-- What follows the first part of a program is at first the second part. -/
theorem State.head?_start {us : List Token} {kind : Token.Kind}
    (h : ∀ t ∈ us.head?, t.kind ≠ kind) (n : Nat) :
    ∀ t ∈ (State.start us n).rest.head?, t.kind ≠ kind := by
  cases us with
  | nil => simp [State.start]
  | cons u us =>
    intro t ht
    by_cases hu : u.kind = .eof
    · simp [State.start, hu] at ht
    · simp only [State.start, List.takeWhile_cons, hu] at ht
      obtain rfl : u = t := by simpa using ht
      exact h u rfl

/-- Where parsing the first part of a program leads to the second part, the whole is parsed part by
part. -/
theorem parse_parts {ts us : List Token} (hts : ∀ t ∈ ts, t.kind ≠ .eof)
    (hend : ∃ t ∈ us, t.kind = .eof) {n : Nat} {p : Parsed} {t : State}
    (ht : t = ⟨(State.start us 0).rest, (State.start us 0).last, p.nextId, p.complaints⟩)
    (h : statements ⟨ts ++ (State.start us 0).rest, (State.start us 0).last, n, []⟩ =
      (p.statements ++ (statements t).1, (statements t).2)) :
    parse (ts ++ us) n = p.append ((parse us 0).renumbered p.nextId) := by
  have hafter := State.parsed_after (State.start us 0).rest (State.start us 0).last 0 p.nextId
    p.complaints
  rw [Nat.add_zero, ← ht] at hafter
  calc parse (ts ++ us) n
      = ⟨p.statements ++ t.parsed.statements, t.parsed.complaints, t.parsed.nextId⟩ := by
        rw [parse_eq_parsed, State.start_parts hts hend, State.parsed, h]
        rfl
    _ = p.append ((parse us 0).renumbered p.nextId) := by
        rw [hafter]
        rfl

/-- Declarations are parsed first, and then what follows them. -/
theorem Derives.statements_append {ts : List Token} {n n' : Nat} {ss : List Stmt}
    (h : Derives .declarations ts n ss n') {rest : List Token}
    (hrest : ∀ t ∈ rest.head?, t.kind ≠ .kwElse) (last : Token) (cs : List Complaint) :
    statements ⟨ts ++ rest, last, n, cs⟩ =
      (ss ++ (statements ⟨rest, last, n', cs⟩).1, (statements ⟨rest, last, n', cs⟩).2) := by
  induction ss generalizing ts n with
  | nil =>
    cases h with
    | noDeclarations => rfl
  | cons s ss ih =>
    cases h with
    | @moreDeclarations ts us _ n₁ _ _ _ hs hss =>
      obtain ⟨t, ht, hkind⟩ := hs.started
      obtain ⟨vs, rfl⟩ := List.head?_eq_some_iff.mp ht
      have hfollows : ∀ u ∈ (us ++ rest).head?, u.kind ≠ .kwElse := by
        intro u hu
        cases us with
        | nil => exact hrest u hu
        | cons v us => exact (startsDeclaration_differs (hss.started u hu)).1
      have hdone := hs.parses (us ++ rest) last cs hfollows
      have hsize : 0 < (⟨t :: vs ++ (us ++ rest), last, n, cs⟩ : State).size := by
        simp [State.size]
      obtain ⟨hstmt, hstate⟩ := declaration_done hdone hsize
      have hend : ¬(⟨t :: vs ++ (us ++ rest), last, n, cs⟩ : State).atEnd = true :=
        Bool.false_ne_true
      rw [List.append_assoc, statements, dif_neg hend]
      dsimp only
      rw [hstate, ih hss, hstmt]
      rfl

/-- A first part that is parsed without a complaint is parsed as it is on its own, whatever follows,
unless that goes on with a branch. What follows is parsed as it is on its own, with all its
complaints, but for the numbers of its references. -/
theorem parse_append_of_clean (ts us : List Token) (n : Nat) (hts : ∀ t ∈ ts, t.kind ≠ .eof)
    (hclean : (parse ts n).complaints = []) (hend : ∃ t ∈ us, t.kind = .eof)
    (helse : ∀ t ∈ us.head?, t.kind ≠ .kwElse) :
    parse (ts ++ us) n = (parse ts n).append ((parse us 0).renumbered (parse ts n).nextId) := by
  obtain ⟨-, hderives⟩ := (statements_reads (State.start ts n)).2 hclean
  rw [congrArg State.rest (State.start_endless hts n)] at hderives
  refine parse_parts hts hend (by rw [hclean]) ?_
  exact hderives.statements_append (State.head?_start helse 0) _ _

/-- The tokens of `print x;`. -/
def printTokens : List Token :=
  [mark .kwPrint, word "x", mark .semicolon]

/-- Tokens that are no program: an operand is missing, and then the parameters of a function. -/
def failingTokens : List Token :=
  [mark .kwPrint, mark .plus, mark .kwFun, word "f", mark .semicolon]

/-- A statement is printed before tokens that are no program. -/
theorem parse_print_before_failing :
    (parse printTokens 0).complaints = [] ∧
      (parse (failingTokens ++ [mark .eof]) 0).complaints =
        [⟨mark .plus, .expression⟩, ⟨mark .semicolon, .parametersStart .function⟩] ∧
      parse (printTokens ++ (failingTokens ++ [mark .eof])) 0 =
        (parse printTokens 0).append
          ((parse (failingTokens ++ [mark .eof]) 0).renumbered (parse printTokens 0).nextId) := by
  have hclean : (parse printTokens 0).complaints = [] := by cbv
  refine ⟨hclean, by cbv, ?_⟩
  exact parse_append_of_clean printTokens (failingTokens ++ [mark .eof]) 0 (by decide) hclean
    ⟨mark .eof, by simp, rfl⟩ (by decide)

/-- Tokens before a semicolon are closed by it if none of them is another one or opens a block or a
counting loop. -/
theorem closed_append {ts : List Token} {stop : Token} (hstop : stop.kind = .semicolon)
    (hts : ∀ t ∈ ts, t.kind ≠ .semicolon ∧ t.kind ≠ .leftBrace ∧ t.kind ≠ .kwFor) :
    Closed (ts ++ [stop]) := by
  induction ts with
  | nil => exact .stop hstop
  | cons t ts ih =>
    obtain ⟨hsemicolon, hbrace, hfor⟩ := hts t List.mem_cons_self
    exact .more hsemicolon hbrace hfor (ih fun u hu => hts u (List.mem_cons_of_mem t hu))

/-- Closed tokens are parsed first, and then what follows them. -/
theorem Closed.statements_append {ts : List Token} (h : Closed ts) (n : Nat) {rest : List Token}
    (hrest : ∀ t ∈ rest.head?, t.kind ≠ .kwElse) (last last' : Token) :
    ∃ t : State, t = ⟨rest, last, (statements ⟨ts, last', n, []⟩).2.nextId,
        (statements ⟨ts, last', n, []⟩).2.complaints⟩ ∧
      statements ⟨ts ++ rest, last, n, []⟩ =
        ((statements ⟨ts, last', n, []⟩).1 ++ (statements t).1, (statements t).2) := by
  let E : Surroundings := ⟨id, 0, [], some rest, last, hrest⟩
  have hpast : E.Past ⟨ts, last', n, []⟩ := ⟨by simp [E], fun _ _ => h⟩
  have hstart : E.state ⟨ts, last', n, []⟩ = ⟨ts ++ rest, last, n, []⟩ := by
    simp [E, Surroundings.state, Surroundings.tokens, Token.moved_id]
  have hframed := statements_framed E hpast
  rw [hstart, show E.recasting = .same from rfl, recastStmts_same] at hframed
  refine ⟨_, ?_, hframed⟩
  simp [E, Surroundings.state, Surroundings.tokens, rest_statements, Complaint.moved_id]

/-- Whatever stands before a semicolon, well-formed or not, what follows the semicolon is parsed as
it is on its own: the statements and complaints are those of the tokens up to the semicolon, and
then those of what follows. Before the semicolon there may be no block and no counting loop, and
behind it no `else`. -/
theorem parse_append_of_semicolon (ts us : List Token) (stop : Token) (n : Nat)
    (hts : ∀ t ∈ ts, t.kind ≠ .semicolon ∧ t.kind ≠ .leftBrace ∧ t.kind ≠ .kwFor ∧ t.kind ≠ .eof)
    (hstop : stop.kind = .semicolon) (hend : ∃ t ∈ us, t.kind = .eof)
    (helse : ∀ t ∈ us.head?, t.kind ≠ .kwElse) :
    parse (ts ++ [stop] ++ us) n =
      (parse (ts ++ [stop]) n).append
        ((parse us 0).renumbered (parse (ts ++ [stop]) n).nextId) := by
  have hclosed := closed_append hstop fun t ht => ⟨(hts t ht).1, (hts t ht).2.1, (hts t ht).2.2.1⟩
  have hendless : ∀ t ∈ ts ++ [stop], t.kind ≠ .eof := by
    intro t ht
    rcases List.mem_append.mp ht with ht | ht
    · exact (hts t ht).2.2.2
    · obtain rfl := List.mem_singleton.mp ht
      rw [hstop]
      decide
  obtain ⟨t, ht, hstatements⟩ := hclosed.statements_append n (State.head?_start helse 0)
    (State.start us 0).last (State.start (ts ++ [stop]) n).last
  rw [← State.start_endless hendless] at ht hstatements
  exact parse_parts hendless hend ht hstatements

/-- The failures before a semicolon are reported, and the statement behind it is found. -/
theorem parse_failing_before_print :
    (parse failingTokens 0).complaints =
        [⟨mark .plus, .expression⟩, ⟨mark .semicolon, .parametersStart .function⟩] ∧
      (parse (printTokens ++ [mark .eof]) 0).complaints = [] ∧
      parse (failingTokens ++ (printTokens ++ [mark .eof])) 0 =
        (parse failingTokens 0).append
          ((parse (printTokens ++ [mark .eof]) 0).renumbered (parse failingTokens 0).nextId) := by
  refine ⟨by cbv, by cbv, ?_⟩
  exact parse_append_of_semicolon [mark .kwPrint, mark .plus, mark .kwFun, word "f"]
    (printTokens ++ [mark .eof]) (mark .semicolon) 0 (by decide) rfl ⟨mark .eof, by simp, rfl⟩
    (by decide)

end Lox.Grammar
