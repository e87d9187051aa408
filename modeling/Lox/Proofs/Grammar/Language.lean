import Lox.Proofs.Grammar.Completeness

/-!
# The language of the parser

The parser accepts exactly the phrases of the grammar, and finds the tree that the grammar gives
them, with its references numbered. For a whole program this takes one more induction, along the
declarations of the program: a declaration that was given up has left a complaint behind.
-/

namespace Lox.Grammar

/-- What is parsed as a program without a complaint is a list of declarations. -/
theorem statements_reads (s : State) :
    Passage s (statements s).2 ((statements s).2.rest = [] ∧
      Derives .declarations s.rest s.nextId (statements s).1 (statements s).2.nextId) := by
  rw [statements]
  split
  · next hend =>
    have hrest : s.rest = [] := List.isEmpty_iff.mp hend
    refine .of_later (.refl s) ⟨hrest, ?_⟩
    rw [hrest]
    exact .noDeclarations
  · next hend =>
    have hshorter := (declaration s (State.size_pos hend)).shorter
    refine ((declaration_reads s (State.size_pos hend)).trans (statements_reads _)).imp ?_
    rintro ⟨⟨stmt, ts, hstmt, hs, hd⟩, hrest, hd'⟩
    refine ⟨hrest, ?_⟩
    dsimp only
    rw [hstmt, hs]
    exact .moreDeclarations hd hd'
termination_by s.size

/-- The state in which tokens with an end token behind them are parsed. -/
theorem State.start_append {ts : List Token} {last : Token} (hts : ∀ t ∈ ts, t.kind ≠ .eof)
    (hlast : last.kind = .eof) (n : Nat) :
    State.start (ts ++ [last]) n = ⟨ts, last, n, []⟩ := by
  have hall : ∀ t ∈ ts, (!decide (t.kind = .eof)) = true := by
    intro t ht
    simpa using hts t ht
  have hnone : ts.find? (fun t => decide (t.kind = .eof)) = none :=
    List.find?_eq_none.mpr fun t ht => by simpa using hts t ht
  have hrest : (ts ++ [last]).takeWhile (fun t => !decide (t.kind = .eof)) = ts := by
    rw [List.takeWhile_append_of_pos hall]
    simp [hlast]
  have hfound : (ts ++ [last]).find? (fun t => decide (t.kind = .eof)) = some last := by
    rw [List.find?_append, hnone]
    simp [hlast]
  unfold State.start
  dsimp only
  rw [hrest, hfound]
  rfl

/-- Declarations of the grammar are parsed as a program, without a complaint. -/
theorem Derives.parse_eq {ts : List Token} {last : Token} (hts : ∀ t ∈ ts, t.kind ≠ .eof)
    (hlast : last.kind = .eof) {n n' : Nat} {ss : List Stmt}
    (h : Derives .declarations ts n ss n') : parse (ts ++ [last]) n = ⟨ss, [], n'⟩ := by
  unfold parse
  rw [State.start_append hts hlast, (h.parses last []).2]

/-- Tokens are parsed as one expression if the production for expressions takes all of them without
a complaint. -/
theorem parseExpression?_eq_some_iff (tokens : List Token) (n : Nat) (e : Expr) (n' : Nat) :
    parseExpression? tokens n = (some e, n') ↔
      ∃ t, (expression (.start tokens n)).Done e t ∧ t.rest = [] ∧ t.complaints = [] ∧
        t.nextId = n' := by
  unfold parseExpression?
  cases hx : expression (State.start tokens n) with
  | failed c t ht => simp [Step.Done]
  | done a t ht =>
    constructor
    · intro h
      simp only [Prod.mk.injEq] at h
      obtain ⟨hsome, hn⟩ := h
      split at hsome
      · next hend =>
        simp only [Bool.and_eq_true, State.atEnd, List.isEmpty_iff] at hend
        obtain rfl := Option.some.inj hsome
        exact ⟨t, .mk a t ht, hend.1, hend.2, hn⟩
      · contradiction
    · rintro ⟨u, ⟨hu, hdone⟩, hrest, hclean, rfl⟩
      obtain ⟨rfl, rfl⟩ := Step.done.inj hdone
      simp [State.atEnd, hrest, hclean]

/-- Tokens that are parsed as one expression are an expression of the grammar. -/
theorem derives_of_parseExpression? {ts : List Token} {last : Token}
    (hts : ∀ t ∈ ts, t.kind ≠ .eof) (hlast : last.kind = .eof) {n n' : Nat} {e : Expr}
    (h : parseExpression? (ts ++ [last]) n = (some e, n')) : Derives .expression ts n e n' := by
  rw [parseExpression?_eq_some_iff, State.start_append hts hlast] at h
  obtain ⟨t, hdone, hrest, hclean, rfl⟩ := h
  obtain ⟨us, hus, hd⟩ := ((expression_reads _).of_done hdone).2 hclean
  rw [hrest, List.append_nil] at hus
  obtain rfl : ts = us := hus
  exact hd

/-- Tokens that are parsed as a program without a complaint are declarations of the grammar. -/
theorem derives_of_parse {ts : List Token} {last : Token} (hts : ∀ t ∈ ts, t.kind ≠ .eof)
    (hlast : last.kind = .eof) {n n' : Nat} {ss : List Stmt}
    (h : parse (ts ++ [last]) n = ⟨ss, [], n'⟩) : Derives .declarations ts n ss n' := by
  unfold parse at h
  rw [State.start_append hts hlast, Parsed.mk.injEq] at h
  obtain ⟨rfl, hclean, rfl⟩ := h
  exact ((statements_reads ⟨ts, last, n, []⟩).2 hclean).2

/-- What is parsed without a complaint is a program of the grammar. -/
theorem derives_of_complaints_eq_nil {ts : List Token} {last : Token}
    (hts : ∀ t ∈ ts, t.kind ≠ .eof) (hlast : last.kind = .eof) {n : Nat}
    (h : (parse (ts ++ [last]) n).complaints = []) :
    Derives .declarations ts n (parse (ts ++ [last]) n).statements
      (parse (ts ++ [last]) n).nextId :=
  derives_of_parse hts hlast (by rw [← h])

/-- The parser accepts exactly the phrases of the grammar. Tokens are parsed as one expression if
and only if they are an expression of the grammar, and a program is parsed without a complaint if
and only if its tokens are declarations of the grammar. In both cases the tree and the numbers of
its references are those of the grammar. -/
theorem parse_iff_derives (ts : List Token) (last : Token) (hts : ∀ t ∈ ts, t.kind ≠ .eof)
    (hlast : last.kind = .eof) (n : Nat) :
    (∀ e n', parseExpression? (ts ++ [last]) n = (some e, n') ↔ Derives .expression ts n e n') ∧
      (∀ ss n', parse (ts ++ [last]) n = ⟨ss, [], n'⟩ ↔ Derives .declarations ts n ss n') := by
  have hstart := State.start_append hts hlast n
  refine ⟨fun e n' => ?_, fun ss n' => ?_⟩
  · rw [parseExpression?_eq_some_iff, hstart]
    constructor
    · rintro ⟨t, hdone, hrest, hclean, rfl⟩
      obtain ⟨us, hus, hd⟩ := ((expression_reads _).of_done hdone).2 hclean
      rw [hrest, List.append_nil] at hus
      obtain rfl : ts = us := hus
      exact hd
    · intro h
      have hdone := h.parses [] last [] .nil
      rw [List.append_nil] at hdone
      exact ⟨_, hdone, rfl, rfl, rfl⟩
  · refine ⟨fun h => ?_, fun h => h.parse_eq hts hlast⟩
    unfold parse at h
    rw [hstart, Parsed.mk.injEq] at h
    obtain ⟨rfl, hclean, rfl⟩ := h
    exact ((statements_reads ⟨ts, last, n, []⟩).2 hclean).2

/-- A token without a text. -/
def mark (kind : Token.Kind) : Token :=
  ⟨kind, "", {}⟩

/-- An identifier. -/
def word (name : String) : Token :=
  ⟨.identifier, name, {}⟩

/-- A phrase of a level is a phrase of the level before it. -/
theorem Derives.loosen {level next : Tier} {ts : List Token} {n n' : Nat} {e : Expr}
    (h : Derives (.tier next) ts n e n') (hnext : Looser level next) :
    Derives (.tier level) ts n e n' :=
  .single (.tighter hnext h)

/-- An operand with its suffixes is a phrase of the tightest level. -/
theorem Derives.factor_of_call {ts : List Token} {n n' : Nat} {e : Expr}
    (h : Derives .call ts n e n') : Derives (.tier .factor) ts n e n' :=
  .single (.tightest (.unsigned h))

/-- An operand with its suffixes is an expression. -/
theorem Derives.expression_of_call {ts : List Token} {n n' : Nat} {e : Expr}
    (h : Derives .call ts n e n') : Derives .expression ts n e n' := by
  have hcomparison := (h.factor_of_call.loosen .term).loosen .comparison
  exact .disjunction (((hcomparison.loosen .equality).loosen .conjunction).loosen .disjunction)

/-- A name is a phrase of the tightest level. -/
theorem Derives.factor_of_word (name : String) (n : Nat) :
    Derives (.tier .factor) [word name] n (.reference ⟨n, word name⟩) (n + 1) :=
  .factor_of_call (.bare (.reference rfl))

/-- A name is an expression. -/
theorem Derives.of_word (name : String) (n : Nat) :
    Derives .expression [word name] n (.reference ⟨n, word name⟩) (n + 1) :=
  .expression_of_call (.bare (.reference rfl))

/-- A name and a semicolon are a statement. -/
theorem Derives.expression_of_word (name : String) (n : Nat) :
    Derives (.statement false) [word name, mark .semicolon] n
      (.expression (.reference ⟨n, word name⟩)) (n + 1) := by
  refine .expression (.terminated (.of_word name n) rfl) ?_
  intro t ht
  obtain rfl : word name = t := Option.some.inj ht
  show Token.Kind.identifier ≠ .leftBrace
  decide

/-- The tokens of `i < b + c * d or e`. -/
def mixedOperators : List Token :=
  [word "i", mark .less, word "b", mark .plus, word "c", mark .star, word "d", mark .kwOr, word "e"]

/-- The tree of the operators: the product within the sum within the comparison. -/
def mixedTree (n : Nat) : Expr :=
  .logical (.binary (.reference ⟨n, word "i"⟩) (mark .less)
    (.binary (.reference ⟨n + 1, word "b"⟩) (mark .plus)
      (.binary (.reference ⟨n + 2, word "c"⟩) (mark .star) (.reference ⟨n + 3, word "d"⟩))))
    (mark .kwOr) (.reference ⟨n + 4, word "e"⟩)

/-- Operators of different levels nest by their levels. -/
theorem derives_mixedOperators (n : Nat) :
    Derives .expression mixedOperators n (mixedTree n) (n + 5) := by
  have hproduct : Derives (.tier .factor) ([word "c"] ++ mark .star :: [word "d"])
      (n + 2) _ (n + 4) :=
    .operator (.factor_of_word "c" _) .times (.tightest (.unsigned (.bare (.reference rfl))))
  have hsum : Derives (.tier .term) ([word "b"] ++ mark .plus :: _) (n + 1) _ (n + 4) :=
    .operator ((Derives.factor_of_word "b" _).loosen .term) .plus (.tighter .term hproduct)
  have hi := ((Derives.factor_of_word "i" n).loosen .term).loosen .comparison
  have hless : Derives (.tier .comparison) ([word "i"] ++ mark .less :: _) n _ (n + 4) :=
    .operator hi .less (.tighter .comparison hsum)
  have he := ((Derives.factor_of_word "e" (n + 4)).loosen .term).loosen .comparison
  have hor : Derives (.tier .disjunction) (_ ++ mark .kwOr :: [word "e"]) n _ (n + 5) :=
    .operator (((hless.loosen .equality).loosen .conjunction).loosen .disjunction) .or
      (.tighter .disjunction ((he.loosen .equality).loosen .conjunction))
  exact .disjunction hor

/-- The tokens of `if (a) if (b) c; else d;`. -/
def nestedBranches : List Token :=
  [mark .kwIf, mark .leftParen, word "a", mark .rightParen, mark .kwIf, mark .leftParen, word "b",
    mark .rightParen, word "c", mark .semicolon, mark .kwElse, word "d", mark .semicolon]

/-- The tree of the branches: the `else` within the inner one. -/
def nestedTree (n : Nat) : Stmt :=
  .branch (.reference ⟨n, word "a"⟩) (.branch (.reference ⟨n + 1, word "b"⟩)
    (.expression (.reference ⟨n + 2, word "c"⟩))
    (some (.expression (.reference ⟨n + 3, word "d"⟩)))) none

/-- An `else` belongs to the nearest `if`. -/
theorem derives_nestedBranches (n : Nat) :
    Derives (.statement true) nestedBranches n (nestedTree n) (n + 4) := by
  have hinner : Derives (.statement false) (mark .kwIf :: mark .leftParen :: [word "b"] ++
      mark .rightParen :: [word "c", mark .semicolon] ++ mark .kwElse ::
        [word "d", mark .semicolon]) (n + 1) _ (n + 4) :=
    .branchElse rfl rfl (.of_word "b" _) rfl (.expression_of_word "c" _) rfl
      (.expression_of_word "d" _)
  exact .branch rfl rfl (.of_word "a" n) rfl hinner

/-- The tokens of `for (var i = a; i < b + c * d or e; f) if (a) if (b) c; else d;`. -/
def countedBranches : List Token :=
  mark .kwFor :: mark .leftParen ::
    [mark .kwVar, word "i", mark .equal, word "a", mark .semicolon] ++ mixedOperators ++
    mark .semicolon :: [word "f"] ++ mark .rightParen :: nestedBranches

/-- The operators nest by their levels, the loop becomes two blocks and a loop, and the `else`
belongs to the nearest `if`. -/
theorem parse_countedBranches :
    (∀ t ∈ countedBranches, t.kind ≠ .eof) ∧ (mark .eof).kind = .eof ∧
      (∀ t ∈ mixedOperators, t.kind ≠ .eof) ∧
      parseExpression? (mixedOperators ++ [mark .eof]) 0 = (some (mixedTree 0), 5) ∧
      parse (countedBranches ++ [mark .eof]) 0 =
        ⟨[.block [.declare [⟨word "i", some (.reference ⟨0, word "a"⟩)⟩],
          .loop (mixedTree 1)
            (.block [nestedTree 7, .expression (.reference ⟨6, word "f"⟩)])]], [], 11⟩ := by
  have hkinds : ∀ t ∈ countedBranches, t.kind ≠ .eof := by decide
  have hkinds' : ∀ t ∈ mixedOperators, t.kind ≠ .eof := by decide
  have hstart : Derives .start
      (mark .kwVar :: word "i" :: mark .equal :: [word "a"] ++ [mark .semicolon]) 0 _ 1 :=
    .variableStart rfl (.lastDeclarator (.initialized rfl rfl (.of_word "a" 0))) rfl
  have hloop : Derives (.statement true) countedBranches 0 _ 11 :=
    .forLoop rfl rfl hstart (.present (derives_mixedOperators 1))
      rfl (.present (.of_word "f" 6)) rfl (derives_nestedBranches 7) (.started .stepped)
  have hprogram := Derives.moreDeclarations (.statement hloop) .noDeclarations
  rw [List.append_nil] at hprogram
  exact ⟨hkinds, rfl, hkinds',
    ((parse_iff_derives mixedOperators (mark .eof) hkinds' rfl 0).1 _ _).mpr
      (derives_mixedOperators 0),
    ((parse_iff_derives countedBranches (mark .eof) hkinds rfl 0).2 _ _).mpr hprogram⟩

end Lox.Grammar
