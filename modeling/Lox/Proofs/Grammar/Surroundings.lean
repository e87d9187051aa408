import Lox.Proofs.Grammar.Language
import Lox.Proofs.Grammar.Recasting

/-!
# Parsing in other surroundings

The parser looks at the kinds of the tokens that it takes and of the one that comes next, and at
nothing else. So what it makes of a phrase does not depend on where the tokens of the phrase stand,
how many numbers were given out before and which complaints were made before. What follows the
phrase does not matter either if the phrase is closed: if a semicolon ends it, and no token in it
opens a block or a counting loop, which may go on behind a semicolon.

`Surroundings.state` puts the state of a parse into other surroundings, and `Step.Framed` relates
what a production does from the two states. The theorems say of each production that it makes the
recast tree and the moved complaints, and that it does not leave a closed phrase other than by
taking its semicolon.
-/

namespace Lox

/-- A token that stands elsewhere has the same kind. -/
@[simp] theorem Token.kind_moved (move : Position → Position) (t : Token) :
    (t.moved move).kind = t.kind := rfl

/-- A token may stand where it stands. -/
theorem Token.moved_id : Token.moved id = id := rfl

/-! ## Recast trees

Where no scope is marked, a tree is recast alike in all scopes. -/

section Unmarked

variable (move : Position → Position) (k : Nat)

mutual

/-- Of an expression. -/
theorem Expr.recast_moved (ms : List Bool) (e : Expr) :
    e.recast (.moved move k) ms = e.recast (.moved move k) [] := by
  cases e with
  | literal | reference | this | super => rfl
  | grouping e => rw [Expr.recast, Expr.recast, e.recast_moved]
  | unary op r => rw [Expr.recast, Expr.recast, r.recast_moved]
  | binary l op r => rw [Expr.recast, Expr.recast, l.recast_moved, r.recast_moved]
  | logical l op r => rw [Expr.recast, Expr.recast, l.recast_moved, r.recast_moved]
  | assign x e => rw [Expr.recast, Expr.recast, e.recast_moved]; rfl
  | call f paren es => rw [Expr.recast, Expr.recast, f.recast_moved, recastExprs_moved]
  | get o name => rw [Expr.recast, Expr.recast, o.recast_moved]
  | set o name e => rw [Expr.recast, Expr.recast, o.recast_moved, e.recast_moved]
  | index o bracket key => rw [Expr.recast, Expr.recast, o.recast_moved, key.recast_moved]
  | setIndex o bracket key e =>
    rw [Expr.recast, Expr.recast, o.recast_moved, key.recast_moved, e.recast_moved]
  | function f => rw [Expr.recast, Expr.recast, f.recast_moved]
  | array bracket es => rw [Expr.recast, Expr.recast, recastExprs_moved]
  | object brace es => rw [Expr.recast, Expr.recast, recastEntries_moved]

/-- Of several expressions. -/
theorem recastExprs_moved (ms : List Bool) (es : List Expr) :
    recastExprs (.moved move k) ms es = recastExprs (.moved move k) [] es := by
  cases es with
  | nil => rfl
  | cons e es => rw [recastExprs, recastExprs, e.recast_moved, recastExprs_moved]

/-- Of the entries of an object. -/
theorem recastEntries_moved (ms : List Bool) (es : List Entry) :
    recastEntries (.moved move k) ms es = recastEntries (.moved move k) [] es := by
  obtain _ | ⟨⟨key, e⟩, es⟩ := es
  · rfl
  · rw [recastEntries, recastEntries, e.recast_moved, recastEntries_moved]

/-- Of a function. -/
theorem FunctionDecl.recast_moved (ms : List Bool) (f : FunctionDecl) :
    f.recast (.moved move k) ms = f.recast (.moved move k) [] := by
  obtain ⟨name, keyword, params, body⟩ := f
  rw [FunctionDecl.recast, FunctionDecl.recast, recastStmts_moved (_ :: ms), recastStmts_moved [_]]

/-- Of methods. -/
theorem recastMethods_moved (ms : List Bool) (fs : List FunctionDecl) :
    recastMethods (.moved move k) ms fs = recastMethods (.moved move k) [] fs := by
  cases fs with
  | nil => rfl
  | cons f fs => rw [recastMethods, recastMethods, f.recast_moved, recastMethods_moved]

/-- Of variables. -/
theorem recastDeclarators_moved (ms : List Bool) (ds : List Declarator) :
    recastDeclarators (.moved move k) ms ds = recastDeclarators (.moved move k) [] ds := by
  obtain _ | ⟨⟨name, _ | e⟩, ds⟩ := ds
  · rfl
  · rw [recastDeclarators, recastDeclarators, recastDeclarators_moved]; rfl
  · rw [recastDeclarators, recastDeclarators, e.recast_moved, recastDeclarators_moved]; rfl

/-- Of a class. -/
theorem ClassDecl.recast_moved (ms : List Bool) (c : ClassDecl) :
    c.recast (.moved move k) ms = c.recast (.moved move k) [] := by
  obtain ⟨name, superclasses, methods⟩ := c
  rw [ClassDecl.recast, ClassDecl.recast, recastMethods_moved (methodMarks ms superclasses),
    recastMethods_moved (methodMarks [] superclasses)]
  rfl

/-- Of a statement. -/
theorem Stmt.recast_moved (ms : List Bool) (s : Stmt) :
    s.recast (.moved move k) ms = s.recast (.moved move k) [] := by
  cases s with
  | expression e => rw [Stmt.recast, Stmt.recast, e.recast_moved]
  | print e => rw [Stmt.recast, Stmt.recast, e.recast_moved]
  | declare ds => rw [Stmt.recast, Stmt.recast, recastDeclarators_moved]
  | block ss =>
    rw [Stmt.recast, Stmt.recast, recastStmts_moved (_ :: ms), recastStmts_moved [_]]
  | branch c t e =>
    cases e with
    | none => rw [Stmt.recast, Stmt.recast, c.recast_moved, t.recast_moved]
    | some e => rw [Stmt.recast, Stmt.recast, c.recast_moved, t.recast_moved, e.recast_moved]
  | loop c s => rw [Stmt.recast, Stmt.recast, c.recast_moved, s.recast_moved]
  | function f => rw [Stmt.recast, Stmt.recast, f.recast_moved]
  | result keyword e =>
    cases e with
    | none => rfl
    | some e => rw [Stmt.recast, Stmt.recast, e.recast_moved]
  | «class» c => rw [Stmt.recast, Stmt.recast, c.recast_moved]

/-- Of several statements. -/
theorem recastStmts_moved (ms : List Bool) (ss : List Stmt) :
    recastStmts (.moved move k) ms ss = recastStmts (.moved move k) [] ss := by
  cases ss with
  | nil => rfl
  | cons s ss => rw [recastStmts, recastStmts, s.recast_moved, recastStmts_moved]

end

end Unmarked

namespace Grammar

/-! ## Surroundings -/

/-- A complaint about a token that stands elsewhere. -/
def Complaint.moved (move : Position → Position) (c : Complaint) : Complaint :=
  { c with token := c.token.moved move }

/-- A complaint may be about the same token. -/
theorem Complaint.moved_id : Complaint.moved id = id := rfl

/-- What surrounds a phrase when it is parsed. -/
structure Surroundings where
  /-- Where the tokens of the phrase stand. -/
  move : Position → Position
  /-- How many numbers were given out before. -/
  shift : Nat
  /-- The complaints that were made before. -/
  complaints : List Complaint
  /-- The tokens that follow the phrase, if it is closed. -/
  after : Option (List Token)
  /-- The end token. -/
  last : Token
  /-- What follows does not go on with a branch of the phrase. -/
  noElse : ∀ t ∈ (after.getD []).head?, t.kind ≠ .kwElse

/-- A semicolon ends the tokens, and none before it is another one or opens a block or a counting
loop. -/
inductive Closed : List Token → Prop
  | stop {t : Token} (h : t.kind = .semicolon) : Closed [t]
  | more {t : Token} {ts : List Token} (hsemicolon : t.kind ≠ .semicolon)
      (hbrace : t.kind ≠ .leftBrace) (hfor : t.kind ≠ .kwFor) (h : Closed ts) : Closed (t :: ts)

namespace Surroundings

/-- The tokens that follow the phrase. -/
def tokens (E : Surroundings) : List Token :=
  E.after.getD []

/-- How trees are recast. -/
def recasting (E : Surroundings) : Recasting :=
  .moved E.move E.shift

/-- The state of a parse in other surroundings. -/
def state (E : Surroundings) (s : State) : State where
  rest := s.rest.map (Token.moved E.move) ++ E.tokens
  last := E.last
  nextId := E.shift + s.nextId
  complaints := E.complaints ++ s.complaints.map (Complaint.moved E.move)

/-- The phrase goes up to the end token, or a semicolon is still to come that closes it. -/
structure Inside (E : Surroundings) (s : State) : Prop where
  /-- If the phrase goes up to the end token, that token is the one of the phrase. -/
  whole : E.after = none → E.last = s.last.moved E.move
  /-- Otherwise what is left of the phrase is closed. -/
  closed : E.after ≠ none → Closed s.rest

/-- As `Inside`, but the semicolon that closes the phrase may have been taken. -/
structure Past (E : Surroundings) (s : State) : Prop where
  /-- If the phrase goes up to the end token, that token is the one of the phrase. -/
  whole : E.after = none → E.last = s.last.moved E.move
  /-- Otherwise what is left of the phrase is closed. -/
  closed : E.after ≠ none → s.rest ≠ [] → Closed s.rest

variable {E : Surroundings} {s : State}

/-- Within a phrase, its semicolon may have been taken or not. -/
theorem Inside.past (h : E.Inside s) : E.Past s :=
  ⟨h.whole, fun hafter _ => h.closed hafter⟩

/-- If a token of the phrase is left, its semicolon is still to come. -/
theorem Past.inside (h : E.Past s) (hs : E.after = none ∨ s.rest ≠ []) : E.Inside s := by
  refine ⟨h.whole, fun hafter => ?_⟩
  rcases hs with hs | hs
  · contradiction
  · exact h.closed hafter hs

/-- A number that is given out does not matter. -/
theorem Inside.used (h : E.Inside s) : E.Inside s.used :=
  ⟨h.whole, h.closed⟩

/-- A complaint does not matter. -/
theorem Inside.record (h : E.Inside s) (c : Complaint) : E.Inside (s.record c) :=
  ⟨h.whole, h.closed⟩

/-- A list that is too long does not matter. -/
theorem Inside.limit (h : E.Inside s) (count : Nat) (reason : Reason) :
    E.Inside (s.limit count reason) := by
  unfold State.limit
  split
  · exact h.record _
  · exact h

/-- Some token of a closed phrase is left. -/
theorem rest_ne_nil (h : E.Inside s) (hafter : E.after ≠ none) : s.rest ≠ [] := by
  intro hrest
  have hclosed := h.closed hafter
  rw [hrest] at hclosed
  cases hclosed

/-- The next token is the same one. -/
theorem peek_state (h : E.Inside s) : (E.state s).peek = s.peek.moved E.move := by
  unfold State.peek state
  cases hrest : s.rest with
  | cons t ts => rfl
  | nil =>
    by_cases hafter : E.after = none
    · simpa [tokens, hafter] using h.whole hafter
    · exact absurd hrest (rest_ne_nil h hafter)

/-- The tokens end at the same point. -/
theorem atEnd_state (h : E.Inside s) : (E.state s).atEnd = s.atEnd := by
  unfold State.atEnd state
  cases hrest : s.rest with
  | cons t ts => rfl
  | nil =>
    by_cases hafter : E.after = none
    · rw [tokens, hafter]
      rfl
    · exact absurd hrest (rest_ne_nil h hafter)

/-- A complaint is made in both surroundings. -/
theorem record_state (c : Complaint) :
    (E.state s).record (c.moved E.move) = E.state (s.record c) := by
  simp [State.record, state]

/-- A list is too long in both surroundings. -/
theorem limit_state (h : E.Inside s) (count : Nat) (reason : Reason) :
    (E.state s).limit count reason = E.state (s.limit count reason) := by
  unfold State.limit
  split
  · rw [peek_state h]
    exact record_state ⟨s.peek, reason⟩
  · rfl

/-- What is known when a token was taken from a phrase. -/
structure Taken (E : Surroundings) (kind : Token.Kind) (u : State) : Prop where
  /-- The phrase may be over. -/
  past : E.Past u
  /-- It is not, unless the token was a semicolon. -/
  inside : kind ≠ .semicolon → E.Inside u
  /-- Blocks and counting loops occur only in a phrase that goes up to the end token. -/
  whole : kind = .leftBrace ∨ kind = .kwFor → E.after = none

/-- What a token says that is taken within a phrase. -/
theorem taken {token : Token} {rest : List Token} (h : E.Inside s)
    (hrest : s.rest = token :: rest) : E.Taken token.kind { s with rest := rest } := by
  by_cases hafter : E.after = none
  · have hinside : E.Inside { s with rest := rest } := ⟨h.whole, fun hne => absurd hafter hne⟩
    exact ⟨hinside.past, fun _ => hinside, fun _ => hafter⟩
  · have hclosed := h.closed hafter
    rw [hrest] at hclosed
    cases hclosed with
    | stop htoken =>
      refine ⟨⟨h.whole, fun _ hne => absurd rfl hne⟩, fun hne => absurd htoken hne, ?_⟩
      rw [htoken]
      rintro (hkind | hkind) <;> contradiction
    | more hsemicolon hbrace hfor hrest' =>
      have hinside : E.Inside { s with rest := rest } := ⟨h.whole, fun _ => hrest'⟩
      refine ⟨hinside.past, fun _ => hinside, ?_⟩
      rintro (hkind | hkind)
      · exact absurd hkind hbrace
      · exact absurd hkind hfor

/-- Looking for the next token finds the same in other surroundings. -/
theorem next_state (h : E.Inside s) (wanted : Token.Kind → Bool) :
    (∃ token u hu hu', s.next wanted = .took token u hu ∧
      (E.state s).next wanted = .took (token.moved E.move) (E.state u) hu' ∧
        wanted token.kind = true ∧ E.Taken token.kind u) ∨
    (s.next wanted = .other ∧ (E.state s).next wanted = .other) := by
  obtain ⟨token, rest, hu, hrest, hkind, hnext⟩ | ⟨hnext, hother⟩ := s.next_cases wanted
  · have hrest' : (E.state s).rest =
        token.moved E.move :: (rest.map (Token.moved E.move) ++ E.tokens) := by
      simp [state, hrest]
    obtain ⟨hu', hnext'⟩ := State.next_cons (s := E.state s) wanted hrest' hkind
    exact .inl ⟨token, _, hu, hu', hnext, hnext', hkind, taken h hrest⟩
  · refine .inr ⟨hnext, State.next_other fun t ht => ?_⟩
    cases hrest : s.rest with
    | cons token rest =>
      rw [state, hrest] at ht
      obtain rfl : token.moved E.move = t := Option.some.inj ht
      exact hother token (hrest ▸ rfl)
    | nil =>
      by_cases hafter : E.after = none
      · rw [state, hrest, tokens, hafter] at ht
        contradiction
      · exact absurd hrest (rest_ne_nil h hafter)

/-- As `next_state`, where no semicolon is looked for. -/
theorem next_inside (h : E.Inside s) (wanted : Token.Kind → Bool)
    (hwanted : wanted .semicolon = false) :
    (∃ token u hu hu', s.next wanted = .took token u hu ∧
      (E.state s).next wanted = .took (token.moved E.move) (E.state u) hu' ∧ E.Inside u) ∨
    (s.next wanted = .other ∧ (E.state s).next wanted = .other) := by
  obtain ⟨token, u, hu, hu', hnext, hnext', hkind, htaken⟩ | hother := next_state h wanted
  · refine .inl ⟨token, u, hu, hu', hnext, hnext', htaken.inside fun hsemicolon => ?_⟩
    rw [hsemicolon, hwanted] at hkind
    contradiction
  · exact .inr hother

/-- No `else` is found behind the phrase. -/
theorem next_else (h : E.Past s) :
    (∃ token u hu hu', s.next (· = .kwElse) = .took token u hu ∧
      (E.state s).next (· = .kwElse) = .took (token.moved E.move) (E.state u) hu' ∧ E.Inside u) ∨
    (s.next (· = .kwElse) = .other ∧ (E.state s).next (· = .kwElse) = .other) := by
  cases hrest : s.rest with
  | cons t ts => exact next_inside (h.inside (.inr (by simp [hrest]))) _ rfl
  | nil =>
    refine .inr ⟨State.next_other (by simp [hrest]), State.next_other fun t ht => ?_⟩
    rw [state, hrest] at ht
    exact decide_eq_false (E.noElse t ht)

/-! ## After a failure -/

/-- Where parsing resumes does not depend on where tokens stand. -/
theorem map_resumeAfter (last : Token) (ts : List Token) :
    (resumeAfter last ts).map (Token.moved E.move) =
      resumeAfter (last.moved E.move) (ts.map (Token.moved E.move)) := by
  induction ts generalizing last with
  | nil => rfl
  | cons t ts ih =>
    rw [List.map_cons, resumeAfter, resumeAfter, ← ih]
    exact apply_ite _ _ _ _

/-- Parsing resumes behind the semicolon that closes a phrase, or before it. -/
theorem resumeAfter_closed {last : Token} {ts : List Token} (h : Closed (last :: ts)) :
    (resumeAfter last ts = [] ∨ Closed (resumeAfter last ts)) ∧
      resumeAfter (last.moved E.move) (ts.map (Token.moved E.move) ++ E.tokens) =
        (resumeAfter last ts).map (Token.moved E.move) ++ E.tokens := by
  induction ts generalizing last with
  | nil =>
    cases h with
    | stop hlast =>
      refine ⟨.inl rfl, ?_⟩
      cases hafter : E.tokens with
      | nil => rfl
      | cons t ts => simp [resumeAfter, hlast]
    | more _ _ _ h => cases h
  | cons t ts ih =>
    cases h with
    | more hsemicolon _ _ h =>
      rw [List.map_cons, List.cons_append, resumeAfter, resumeAfter]
      simp only [Token.kind_moved, hsemicolon, decide_false, Bool.false_or]
      split
      · exact ⟨.inr h, rfl⟩
      · exact ih h

/-- After a failure parsing resumes at the same point. -/
theorem resume_state (h : E.Inside s) :
    (E.state s).resume = E.state s.resume ∧ E.Past s.resume := by
  obtain ⟨rest, last, n, cs⟩ := s
  by_cases hafter : E.after = none
  · refine ⟨?_, ?_⟩
    · cases rest with
      | nil => simp [State.resume, state, tokens, hafter]
      | cons t ts => simp [State.resume, state, tokens, hafter, map_resumeAfter]
    · have hlast : (State.resume ⟨rest, last, n, cs⟩).last = last := by cases rest <;> rfl
      exact ⟨fun _ => (h.whole hafter).trans (by rw [hlast]), fun hne => absurd hafter hne⟩
  · cases rest with
    | nil => exact absurd rfl (rest_ne_nil h hafter)
    | cons t ts =>
      obtain ⟨hcases, hresume⟩ := resumeAfter_closed (E := E) (h.closed hafter)
      refine ⟨?_, fun hnil => absurd hnil hafter, fun _ hne => hcases.resolve_left hne⟩
      simp [State.resume, state, hresume]

end Surroundings

/-! ## Productions -/

/-- What a production ends with from a state and from that state in other surroundings: it is done
with a value and with the recast value, or it has failed with a complaint and with the moved
complaint, and the states are still those of a parse in the one and in the other surroundings. -/
inductive Step.Framed {α β : Type} (E : Surroundings) (Q : State → Prop) (ρ : α → β)
    {s s' : State} : Step α s → Step β s' → Prop
  | done {a : α} {t : State} {ht : t.size < s.size} {ht' : (E.state t).size < s'.size} (h : Q t) :
    Framed E Q ρ (.done a t ht) (.done (ρ a) (E.state t) ht')
  | failed {c : Complaint} {t : State} {ht : t.size ≤ s.size} {ht' : (E.state t).size ≤ s'.size}
      (h : E.Inside t) :
    Framed E Q ρ (.failed c t ht) (.failed (c.moved E.move) (E.state t) ht')

namespace Step.Framed

variable {α β γ δ : Type} {E : Surroundings} {Q Q' : State → Prop} {ρ : α → β} {σ : γ → δ}
  {s s' t t' : State}

/-- A production is done with a value that is recast. -/
theorem done_of_eq {a : α} {b : β} {ht : t.size < s.size} {ht' : (E.state t).size < s'.size}
    (hb : b = ρ a) (h : Q t) : Framed E Q ρ (.done a t ht) (.done b (E.state t) ht') := by
  subst hb
  exact .done h

/-- A production is done with a complaint. -/
theorem done_record {a : α} {c : Complaint} {ht : (t.record c).size < s.size}
    {ht' : ((E.state t).record (c.moved E.move)).size < s'.size} (h : E.Inside t) :
    Framed E E.Inside ρ (.done a (t.record c) ht)
      (.done (ρ a) ((E.state t).record (c.moved E.move)) ht') := by
  revert ht'
  rw [Surroundings.record_state]
  intro ht'
  exact .done (h.record c)

/-- A production fails at the token that comes next. -/
theorem failed_peek {reason : Reason} {ht : t.size ≤ s.size} {ht' : (E.state t).size ≤ s'.size}
    (h : E.Inside t) : Framed E Q ρ (.failed ⟨t.peek, reason⟩ t ht)
      (.failed ⟨(E.state t).peek, reason⟩ (E.state t) ht') := by
  rw [Surroundings.peek_state h]
  exact .failed h

/-- One production after another. -/
theorem andThen {x : Step α t} {x' : Step β t'}
    {f : (a : α) → (u : State) → u.size < t.size → Step γ s}
    {f' : (b : β) → (u : State) → u.size < t'.size → Step δ s'} {hts : t.size ≤ s.size}
    {hts' : t'.size ≤ s'.size} (h : Framed E Q ρ x x')
    (hf : ∀ a u hu hu', Q u → Framed E Q' σ (f a u hu) (f' (ρ a) (E.state u) hu')) :
    Framed E Q' σ (x.andThen f hts) (x'.andThen f' hts') := by
  cases h with
  | done h => exact hf _ _ _ _ h
  | failed h => exact .failed h

/-- A production within another. -/
theorem within {x : Step α t} {x' : Step β t'} {hts : t.size ≤ s.size} {hts' : t'.size ≤ s'.size}
    (h : Framed E Q ρ x x') : Framed E Q ρ (x.within hts) (x'.within hts') := by
  cases h with
  | done h => exact .done h
  | failed h => exact .failed h

/-- A token is expected in both surroundings. -/
theorem expect_taken {kind : Token.Kind} {reason : Reason}
    {f : (token : Token) → (u : State) → u.size < t.size → Step γ s}
    {f' : (token : Token) → (u : State) → u.size < t'.size → Step δ s'}
    {hts : t.size ≤ s.size} {hts' : t'.size ≤ s'.size} (ht : t' = E.state t) (hin : E.Inside t)
    (hf : ∀ token u hu hu', E.Taken kind u →
      Framed E Q σ (f token u hu) (f' (token.moved E.move) (E.state u) hu')) :
    Framed E Q σ (t.expect kind reason f hts) (t'.expect kind reason f' hts') := by
  subst ht
  unfold State.expect
  obtain ⟨token, u, hu, hu', hnext, hnext', hkind, htaken⟩ | ⟨hnext, hnext'⟩ :=
    Surroundings.next_state hin (· = kind)
  · rw [hnext, hnext']
    exact hf token u hu hu' (of_decide_eq_true hkind ▸ htaken)
  · rw [hnext, hnext']
    exact failed_peek hin

/-- A token other than a semicolon leaves the phrase open. -/
theorem expect {kind : Token.Kind} {reason : Reason}
    {f : (token : Token) → (u : State) → u.size < t.size → Step γ s}
    {f' : (token : Token) → (u : State) → u.size < t'.size → Step δ s'}
    {hts : t.size ≤ s.size} {hts' : t'.size ≤ s'.size} (ht : t' = E.state t) (hin : E.Inside t)
    (hkind : kind ≠ .semicolon)
    (hf : ∀ token u hu hu', E.Inside u →
      Framed E Q σ (f token u hu) (f' (token.moved E.move) (E.state u) hu')) :
    Framed E Q σ (t.expect kind reason f hts) (t'.expect kind reason f' hts') :=
  expect_taken ht hin fun token u hu hu' htaken => hf token u hu hu' (htaken.inside hkind)

end Step.Framed

open Step (Framed)
open Surroundings (next_state next_inside next_else)

variable (E : Surroundings)

/-! ### Lists of names -/

/-- A parameter. -/
theorem parameter_framed (count : Nat) {s : State} (hs : E.Inside s) :
    Framed E E.Inside (Token.moved E.move) (parameter count s) (parameter count (E.state s)) := by
  unfold parameter
  exact .expect (Surroundings.limit_state hs count _) (hs.limit count _) (by decide)
    fun _ _ _ _ hu => .done hu

/-- Parameters from one on. -/
theorem moreParameters_framed (count : Nat) {s : State} (hs : E.Inside s) :
    Framed E E.Inside (List.map (Token.moved E.move)) (moreParameters count s)
      (moreParameters count (E.state s)) := by
  rw [moreParameters, moreParameters]
  refine (parameter_framed E count hs).andThen fun name t ht ht' hin => ?_
  obtain ⟨comma, u, hu, hu', hnext, hnext', hin'⟩ | ⟨hnext, hnext'⟩ :=
    next_inside hin (· = .comma) rfl
  · rw [hnext, hnext']
    have hsmaller : u.size < s.size := Nat.lt_trans hu ht
    exact (moreParameters_framed (count + 1) hin').andThen fun _ _ _ _ hv => .done hv
  · rw [hnext, hnext']
    exact .expect rfl hin (by decide) fun _ _ _ _ hu => .done hu
termination_by s.size

/-- All parameters. -/
theorem parameters_framed {s : State} (hs : E.Inside s) :
    Framed E E.Inside (List.map (Token.moved E.move)) (parameters s) (parameters (E.state s)) := by
  unfold parameters
  obtain ⟨paren, u, hu, hu', hnext, hnext', hin⟩ | ⟨hnext, hnext'⟩ :=
    next_inside hs (· = .rightParen) rfl
  · rw [hnext, hnext']
    exact .done hin
  · rw [hnext, hnext']
    exact moreParameters_framed E 0 hs

/-- Superclasses. -/
theorem superclasses_framed {s : State} (hs : E.Inside s) :
    Framed E E.Inside (List.map (E.recasting.reference [])) (superclasses s)
      (superclasses (E.state s)) := by
  rw [superclasses, superclasses]
  refine .expect rfl hs (by decide) fun name t ht ht' hin => ?_
  obtain ⟨comma, u, hu, hu', hnext, hnext', hin'⟩ | ⟨hnext, hnext'⟩ :=
    next_inside hin.used (· = .comma) rfl
  · have hnext' : (E.state t).used.next (· = .comma) = _ := hnext'
    rw [hnext, hnext']
    have hsmaller : u.size < s.size := Nat.lt_trans hu ht
    exact (superclasses_framed hin').andThen fun _ _ _ _ hv => .done hv
  · have hnext' : (E.state t).used.next (· = .comma) = _ := hnext'
    rw [hnext, hnext']
    exact .done hin.used
termination_by s.size

/-! ### Expressions and statements -/

/-- A function is recast part by part. -/
theorem recast_functionDecl (name : Option Token) (keyword : Token) (params : List Token)
    (body : List Stmt) :
    FunctionDecl.recast E.recasting [] ⟨name, keyword, params, body⟩ =
      ⟨name.map (Token.moved E.move), keyword.moved E.move, params.map (Token.moved E.move),
        recastStmts E.recasting [] body⟩ := by
  rw [FunctionDecl.recast, Surroundings.recasting, recastStmts_moved]
  rfl

/-- An operator is recast with its operands. -/
theorem recast_node (level : Tier) (l r : Expr) (op : Token) :
    (level.node l op r).recast E.recasting [] =
      level.node (l.recast E.recasting []) (op.moved E.move) (r.recast E.recasting []) := by
  cases level <;> rfl

/-- A class is recast part by part. -/
theorem recast_class (name : Token) (supers : List Reference) (ms : List FunctionDecl) :
    (Stmt.class ⟨name, supers, ms⟩).recast E.recasting [] =
      .class ⟨name.moved E.move, supers.map (E.recasting.reference []),
        recastMethods E.recasting [] ms⟩ := by
  rw [Stmt.recast, ClassDecl.recast, Surroundings.recasting, recastMethods_moved]
  rfl

/-- A block is recast statement by statement. -/
theorem recast_block (ss : List Stmt) :
    (Stmt.block ss).recast E.recasting [] = .block (recastStmts E.recasting [] ss) := by
  rw [Stmt.recast, Surroundings.recasting, recastStmts_moved]

/-- A counting loop is recast part by part. -/
theorem recast_counting (start : Option Stmt) (c step : Option Expr) (body : Stmt) :
    (forLoop start c step body).recast E.recasting [] =
      forLoop (start.map (Stmt.recast E.recasting [])) (c.map (Expr.recast E.recasting []))
        (step.map (Expr.recast E.recasting [])) (body.recast E.recasting []) := by
  obtain ⟨outer, inner, hrecast⟩ := recast_forLoop E.recasting [] start c step body
  have hstmt (ms : List Bool) : Stmt.recast E.recasting ms = Stmt.recast E.recasting [] :=
    funext (Stmt.recast_moved _ _ ms)
  have hexpr (ms : List Bool) : Expr.recast E.recasting ms = Expr.recast E.recasting [] :=
    funext (Expr.recast_moved _ _ ms)
  rw [hrecast, hstmt outer, hstmt inner, hexpr outer, hexpr inner]

/-- No operator is a semicolon. -/
theorem has_semicolon (level : Tier) : level.has .semicolon = false := by
  cases level <;> rfl

mutual

/-- An expression. -/
theorem expression_framed {s : State} (hs : E.Inside s) :
    Framed E E.Inside (Expr.recast E.recasting []) (expression s) (expression (E.state s)) := by
  rw [expression, expression]
  refine (tier_framed .disjunction hs).andThen fun target t ht ht' hin => ?_
  obtain ⟨equals, u, hu, hu', hnext, hnext', hin₁⟩ | ⟨hnext, hnext'⟩ :=
    next_inside hin (· = .equal) rfl
  · rw [hnext, hnext']
    refine (expression_framed hin₁).andThen fun value v hv hv' hin₂ => ?_
    -- What cannot be assigned to is complained about in both parses, and otherwise in neither.
    cases target with
    | reference x => exact .done hin₂.used
    | get o name => exact .done hin₂
    | index o bracket key => exact .done hin₂
    | _ => exact Framed.done_record (c := ⟨equals, .assignmentTarget⟩) hin₂
  · rw [hnext, hnext']
    exact .done hin
termination_by 32 * s.size + 14
decreasing_by
  · have := Tier.disjunction.rank_le
    omega
  · omega

/-- An operand of a tier. -/
theorem operand_framed (level : Tier) {s : State} (hs : E.Inside s) :
    Framed E E.Inside (Expr.recast E.recasting []) (operand level s)
      (operand level (E.state s)) := by
  cases h : level.tighter with
  | some next =>
    rw [operand_of_some h, operand_of_some h]
    exact tier_framed next hs
  | none =>
    rw [operand_of_none h, operand_of_none h]
    exact unary_framed hs
termination_by 32 * s.size + 2 * level.rank
decreasing_by
  · have := level.rank_pos
    omega
  · have := Tier.rank_tighter h
    omega

/-- A chain of a tier. -/
theorem tier_framed (level : Tier) {s : State} (hs : E.Inside s) :
    Framed E E.Inside (Expr.recast E.recasting []) (tier level s) (tier level (E.state s)) := by
  rw [tier, tier]
  refine (operand_framed level hs).andThen fun left t ht ht' hin => ?_
  exact chain_framed level s (E.state s) left t ht ht' hin
termination_by 32 * s.size + 2 * level.rank + 1
decreasing_by all_goals omega

/-- A chain from an operator on. -/
theorem chain_framed (level : Tier) (s s' : State) (left : Expr) (t : State)
    (h : t.size < s.size) (h' : (E.state t).size < s'.size) (hin : E.Inside t) :
    Framed E E.Inside (Expr.recast E.recasting []) (chain level s left t h)
      (chain level s' (left.recast E.recasting []) (E.state t) h') := by
  rw [chain, chain]
  obtain ⟨op, u, hu, hu', hnext, hnext', hin₁⟩ | ⟨hnext, hnext'⟩ :=
    next_inside hin level.has (has_semicolon level)
  · rw [hnext, hnext']
    refine (operand_framed level hin₁).andThen fun right v hv hv' hin₂ => ?_
    rw [← recast_node]
    exact chain_framed level s s' _ v _ _ hin₂
  · rw [hnext, hnext']
    exact .done hin
termination_by 32 * t.size
decreasing_by
  · have := level.rank_le
    omega
  · omega

/-- An operand with signs. -/
theorem unary_framed {s : State} (hs : E.Inside s) :
    Framed E E.Inside (Expr.recast E.recasting []) (unary s) (unary (E.state s)) := by
  rw [unary, unary]
  obtain ⟨op, t, ht, ht', hnext, hnext', hin⟩ | ⟨hnext, hnext'⟩ :=
    next_inside hs isSign rfl
  · rw [hnext, hnext']
    exact (unary_framed hin).andThen fun _ _ _ _ hu => .done hu
  · rw [hnext, hnext']
    refine (primary_framed hs).andThen fun e t ht ht' hin => ?_
    exact suffixes_framed s (E.state s) e t ht ht' hin
termination_by 32 * s.size + 1
decreasing_by all_goals omega

/-- The suffixes of an operand. -/
theorem suffixes_framed (s s' : State) (e : Expr) (t : State) (h : t.size < s.size)
    (h' : (E.state t).size < s'.size) (hin : E.Inside t) :
    Framed E E.Inside (Expr.recast E.recasting []) (suffixes s e t h)
      (suffixes s' (e.recast E.recasting []) (E.state t) h') := by
  rw [suffixes, suffixes]
  obtain ⟨mark, u, hu, hu', hnext, hnext', hin₁⟩ | ⟨hnext, hnext'⟩ :=
    next_inside hin isSuffix rfl
  · rw [hnext, hnext']
    dsimp only [Token.kind_moved]
    split
    · refine (arguments_framed hin₁).andThen fun found v hv hv' hin₂ => ?_
      exact suffixes_framed s s' (.call e found.2 found.1) v _ _ hin₂
    · refine .expect rfl hin₁ (by decide) fun name v hv hv' hin₂ => ?_
      exact suffixes_framed s s' (.get e name) v _ _ hin₂
    · refine (expression_framed hin₁).andThen fun key v hv hv' hin₂ => ?_
      refine .expect rfl hin₂ (by decide) fun right w hw hw' hin₃ => ?_
      exact suffixes_framed s s' (.index e mark key) w _ _ hin₃
  · rw [hnext, hnext']
    exact .done hin
termination_by 32 * t.size
decreasing_by all_goals omega

/-- All arguments. -/
theorem arguments_framed {s : State} (hs : E.Inside s) :
    Framed E E.Inside (fun found => (recastExprs E.recasting [] found.1, found.2.moved E.move))
      (arguments s) (arguments (E.state s)) := by
  rw [arguments, arguments]
  obtain ⟨paren, t, ht, ht', hnext, hnext', hin⟩ | ⟨hnext, hnext'⟩ :=
    next_inside hs (· = .rightParen) rfl
  · rw [hnext, hnext']
    exact .done hin
  · rw [hnext, hnext']
    exact moreArguments_framed 0 hs
termination_by 32 * s.size + 16
decreasing_by all_goals omega

/-- Arguments from one on. -/
theorem moreArguments_framed (count : Nat) {s : State} (hs : E.Inside s) :
    Framed E E.Inside (fun found => (recastExprs E.recasting [] found.1, found.2.moved E.move))
      (moreArguments count s) (moreArguments count (E.state s)) := by
  have hsize : (s.limit count .tooManyArguments).size = s.size := State.size_limit _ _ _
  have hfirst : Framed E E.Inside (Expr.recast E.recasting [])
      (expression (s.limit count .tooManyArguments))
      (expression ((E.state s).limit count .tooManyArguments)) := by
    rw [Surroundings.limit_state hs]
    exact expression_framed (hs.limit count _)
  rw [moreArguments, moreArguments]
  refine hfirst.andThen fun e u hu hu' hin => ?_
  obtain ⟨comma, v, hv, hv', hnext, hnext', hin₁⟩ | ⟨hnext, hnext'⟩ :=
    next_inside hin (· = .comma) rfl
  · rw [hnext, hnext']
    exact (moreArguments_framed (count + 1) hin₁).andThen fun _ _ _ _ hw => .done hw
  · rw [hnext, hnext']
    exact .expect rfl hin (by decide) fun _ _ _ _ hv => .done hv
termination_by 32 * s.size + 15
decreasing_by all_goals omega

/-- An operand without suffixes. -/
theorem primary_framed {s : State} (hs : E.Inside s) :
    Framed E E.Inside (Expr.recast E.recasting []) (primary s) (primary (E.state s)) := by
  rw [primary, primary]
  obtain ⟨token, t, ht, ht', hnext, hnext', -, htaken⟩ | ⟨hnext, hnext'⟩ :=
    next_state hs (fun _ => true)
  · rw [hnext, hnext']
    have hin (hkind : token.kind ≠ .semicolon) : E.Inside t := htaken.inside hkind
    dsimp only [Token.kind_moved]
    split
    case h_6 hkind => exact .done (hin (by simp [hkind])).used
    case h_7 hkind =>
      refine .expect rfl (hin (by simp [hkind])) (by decide) fun _ u hu hu' hin₁ => ?_
      exact .expect rfl hin₁ (by decide) fun _ _ _ _ hv => .done hv.used
    case h_8 hkind => exact .done (hin (by simp [hkind])).used
    case h_9 hkind =>
      refine .expect rfl (hin (by simp [hkind])) (by decide) fun _ u hu hu' hin₁ => ?_
      refine (parameters_framed E hin₁).andThen fun params v hv hv' hin₂ => ?_
      refine .expect_taken rfl hin₂ fun _ w hw hw' htaken' => ?_
      refine (block_framed (htaken'.whole (.inl rfl)) (htaken'.inside (by decide))).andThen
        fun body x hx hx' hin₃ => ?_
      refine .done_of_eq ?_ hin₃
      rw [Expr.recast, recast_functionDecl]
      rfl
    case h_10 hkind =>
      refine (expression_framed (hin (by simp [hkind]))).andThen fun _ u hu hu' hin₁ => ?_
      exact .expect rfl hin₁ (by decide) fun _ _ _ _ hv => .done hv
    case h_11 hkind =>
      exact (elements_framed (hin (by simp [hkind]))).andThen fun _ _ _ _ hu => .done hu
    case h_12 hkind =>
      exact (entries_framed (hin (by simp [hkind]))).andThen fun _ _ _ _ hu => .done hu
    case h_13 => exact .failed hs
    all_goals
      next hkind => exact .done (hin (by simp [hkind]))
  · rw [hnext, hnext']
    exact .failed_peek hs
termination_by 32 * s.size
decreasing_by all_goals omega

/-- Elements. -/
theorem elements_framed {s : State} (hs : E.Inside s) :
    Framed E E.Inside (recastExprs E.recasting []) (elements s) (elements (E.state s)) := by
  rw [elements, elements]
  obtain ⟨right, t, ht, ht', hnext, hnext', hin⟩ | ⟨hnext, hnext'⟩ :=
    next_inside hs (· = .rightBracket) rfl
  · rw [hnext, hnext']
    exact .done hin
  · rw [hnext, hnext']
    dsimp only
    rw [Surroundings.atEnd_state hs]
    split
    · exact .failed_peek hs
    · refine (expression_framed hs).andThen fun e t ht ht' hin => ?_
      obtain ⟨comma, u, hu, hu', hnext, hnext', hin₁⟩ | ⟨hnext, hnext'⟩ :=
        next_inside hin (· = .comma) rfl
      · rw [hnext, hnext']
        exact (elements_framed hin₁).andThen fun _ _ _ _ hv => .done hv
      · rw [hnext, hnext']
        exact .expect rfl hin (by decide) fun _ _ _ _ hu => .done hu
termination_by 32 * s.size + 15
decreasing_by all_goals omega

/-- Entries. -/
theorem entries_framed {s : State} (hs : E.Inside s) :
    Framed E E.Inside (recastEntries E.recasting []) (entries s) (entries (E.state s)) := by
  rw [entries, entries]
  obtain ⟨right, t, ht, ht', hnext, hnext', hin⟩ | ⟨hnext, hnext'⟩ :=
    next_inside hs (· = .rightBrace) rfl
  · rw [hnext, hnext']
    exact .done hin
  · rw [hnext, hnext']
    dsimp only
    rw [Surroundings.atEnd_state hs]
    split
    · exact .failed_peek hs
    · obtain ⟨key, t, ht, ht', hkey, hkey', hin⟩ | ⟨hkey, hkey'⟩ :=
        next_inside hs isKey rfl
      · rw [hkey, hkey']
        refine .expect rfl hin (by decide) fun _ u hu hu' hin₁ => ?_
        refine (expression_framed hin₁).andThen fun e v hv hv' hin₂ => ?_
        obtain ⟨comma, w, hw, hw', hnext, hnext', hin₃⟩ | ⟨hnext, hnext'⟩ :=
          next_inside hin₂ (· = .comma) rfl
        · rw [hnext, hnext']
          exact (entries_framed hin₃).andThen fun _ _ _ _ hx => .done hx
        · rw [hnext, hnext']
          exact .expect rfl hin₂ (by decide) fun _ _ _ _ hw => .done hw
      · rw [hkey, hkey']
        exact .failed_peek hs
termination_by 32 * s.size + 15
decreasing_by all_goals omega

/-- A block, behind its opening brace. -/
theorem block_framed (hwhole : E.after = none) {s : State} (hs : E.Inside s) :
    Framed E E.Inside (recastStmts E.recasting []) (block s) (block (E.state s)) := by
  rw [block, block]
  obtain ⟨right, t, ht, ht', hnext, hnext', hin⟩ | ⟨hnext, hnext'⟩ :=
    next_inside hs (· = .rightBrace) rfl
  · rw [hnext, hnext']
    exact .done hin
  · rw [hnext, hnext']
    have hatEnd := Surroundings.atEnd_state hs
    by_cases hend : s.atEnd
    · have hend' : (E.state s).atEnd := hatEnd.trans hend
      rw [dif_pos hend, dif_pos hend']
      exact .failed_peek hs
    · have hend' : ¬(E.state s).atEnd := hatEnd ▸ hend
      rw [dif_neg hend, dif_neg hend']
      obtain ⟨hstmt, hstate, hpast⟩ :=
        declaration_framed hs (State.size_pos hend) (State.size_pos hend')
      have hshorter := (declaration s (State.size_pos hend)).shorter
      have hrest : Framed E E.Inside (recastStmts E.recasting [])
          (block (declaration s (State.size_pos hend)).state)
          (block (declaration (E.state s) (State.size_pos hend')).state) := by
        rw [hstate]
        exact block_framed hwhole (hpast.inside (.inl hwhole))
      refine hrest.andThen fun body t ht ht' hin => .done_of_eq ?_ hin
      rw [hstmt]
      cases (declaration s (State.size_pos hend)).stmt <;> rfl
termination_by 32 * s.size + 20
decreasing_by all_goals omega

/-- A declaration, which is given up after a failure. -/
theorem declaration_framed {s : State} (hs : E.Inside s) (h : 0 < s.size)
    (h' : 0 < (E.state s).size) :
    (declaration (E.state s) h').stmt = (declaration s h).stmt.map (Stmt.recast E.recasting []) ∧
      (declaration (E.state s) h').state = E.state (declaration s h).state ∧
        E.Past (declaration s h).state := by
  rw [declaration, declaration]
  have hstep := declarationStep_framed hs
  revert hstep
  generalize declarationStep s = x
  generalize declarationStep (E.state s) = x'
  intro hstep
  cases hstep with
  | done hpast => exact ⟨rfl, rfl, hpast⟩
  | @failed c t _ _ hin =>
    obtain ⟨hresume, hpast⟩ := Surroundings.resume_state (hin.record c)
    refine ⟨rfl, ?_, hpast⟩
    rw [← Surroundings.record_state] at hresume
    exact hresume
termination_by 32 * s.size + 19
decreasing_by all_goals omega

/-- A declaration, up to its first failure. -/
theorem declarationStep_framed {s : State} (hs : E.Inside s) :
    Framed E E.Past (Stmt.recast E.recasting []) (declarationStep s)
      (declarationStep (E.state s)) := by
  rw [declarationStep, declarationStep]
  obtain ⟨first, t, ht, ht', hnext, hnext', -, htaken⟩ | ⟨hnext, hnext'⟩ :=
    next_state hs (fun _ => true)
  · rw [hnext, hnext']
    have hin (hkind : first.kind ≠ .semicolon) : E.Inside t := htaken.inside hkind
    dsimp only [Token.kind_moved]
    split
    · next hkind =>
      refine .expect rfl (hin (by simp [hkind])) (by decide) fun name u hu hu' hin₁ => ?_
      obtain ⟨less, v, hv, hv', hnext, hnext', hin₂⟩ | ⟨hnext, hnext'⟩ :=
        next_inside hin₁ (· = .less) rfl
      · rw [hnext, hnext']
        refine (superclasses_framed E hin₂).andThen fun supers w hw hw' hin₃ => ?_
        exact (classBody_framed name supers hin₃).within
      · rw [hnext, hnext']
        exact (classBody_framed name [] hin₁).within
    · next hkind =>
      exact (declarators_framed (hin (by simp [hkind]))).andThen fun _ _ _ _ hu => .done hu
    · next hkind =>
      have hin₁ := hin (by simp [hkind])
      obtain ⟨_, u, hu, hu', hnext, hnext', -⟩ | ⟨hnext, hnext'⟩ :=
        next_inside hin₁ (· = .identifier) rfl
      · rw [hnext, hnext']
        exact (callable_framed .function hin₁).andThen fun _ _ _ _ hu => .done hu.past
      · rw [hnext, hnext']
        exact statement_framed hs
    · exact statement_framed hs
  · rw [hnext, hnext']
    exact statement_framed hs
termination_by 32 * s.size + 18
decreasing_by all_goals omega

/-- The body of a class. -/
theorem classBody_framed (name : Token) (supers : List Reference) {s : State} (hs : E.Inside s) :
    Framed E E.Past (Stmt.recast E.recasting []) (classBody name supers s)
      (classBody (name.moved E.move) (supers.map (E.recasting.reference [])) (E.state s)) := by
  rw [classBody, classBody]
  refine .expect rfl hs (by decide) fun _ t ht ht' hin => ?_
  refine (methods_framed hin).andThen fun ms u hu hu' hin₁ => ?_
  exact .done_of_eq (recast_class E name supers ms).symm hin₁.past
termination_by 32 * s.size
decreasing_by all_goals omega

/-- Methods. -/
theorem methods_framed {s : State} (hs : E.Inside s) :
    Framed E E.Inside (recastMethods E.recasting []) (methods s) (methods (E.state s)) := by
  rw [methods, methods]
  obtain ⟨right, t, ht, ht', hnext, hnext', hin⟩ | ⟨hnext, hnext'⟩ :=
    next_inside hs (· = .rightBrace) rfl
  · rw [hnext, hnext']
    exact .done hin
  · rw [hnext, hnext']
    dsimp only
    rw [Surroundings.atEnd_state hs]
    split
    · exact .failed_peek hs
    · refine (callable_framed .method hs).andThen fun _ t ht ht' hin => ?_
      exact (methods_framed hin).andThen fun _ _ _ _ hu => .done hu
termination_by 32 * s.size + 1
decreasing_by all_goals omega

/-- A function with a name. -/
theorem callable_framed (sort : Callable) {s : State} (hs : E.Inside s) :
    Framed E E.Inside (FunctionDecl.recast E.recasting []) (callable sort s)
      (callable sort (E.state s)) := by
  rw [callable, callable]
  refine .expect rfl hs (by decide) fun name t ht ht' hin => ?_
  refine .expect rfl hin (by decide) fun _ u hu hu' hin₁ => ?_
  refine (parameters_framed E hin₁).andThen fun params v hv hv' hin₂ => ?_
  refine .expect_taken rfl hin₂ fun _ w hw hw' htaken => ?_
  refine (block_framed (htaken.whole (.inl rfl)) (htaken.inside (by decide))).andThen
    fun body x hx hx' hin₃ => ?_
  exact .done_of_eq (recast_functionDecl E (some name) name params body).symm hin₃
termination_by 32 * s.size
decreasing_by all_goals omega

/-- Variables. -/
theorem declarators_framed {s : State} (hs : E.Inside s) :
    Framed E E.Past (recastDeclarators E.recasting []) (declarators s)
      (declarators (E.state s)) := by
  rw [declarators, declarators]
  refine .expect rfl hs (by decide) fun name t ht ht' hin => ?_
  obtain ⟨equals, u, hu, hu', hnext, hnext', hin₁⟩ | ⟨hnext, hnext'⟩ :=
    next_inside hin (· = .equal) rfl
  · rw [hnext, hnext']
    refine (expression_framed hin₁).andThen fun e v hv hv' hin₂ => ?_
    exact (moreDeclarators_framed ⟨name, some e⟩ hin₂).within
  · rw [hnext, hnext']
    exact (moreDeclarators_framed ⟨name, none⟩ hin).within
termination_by 32 * s.size
decreasing_by all_goals omega

/-- Variables from the second on. -/
theorem moreDeclarators_framed (first : Declarator) {s : State} (hs : E.Inside s) :
    Framed E E.Past (recastDeclarators E.recasting []) (moreDeclarators first s)
      (moreDeclarators (Category.recast E.recasting [] .declarator first) (E.state s)) := by
  rw [moreDeclarators, moreDeclarators]
  obtain ⟨comma, t, ht, ht', hnext, hnext', hin⟩ | ⟨hnext, hnext'⟩ :=
    next_inside hs (· = .comma) rfl
  · rw [hnext, hnext']
    refine (declarators_framed hin).andThen fun ds u hu hu' hpast => ?_
    exact .done_of_eq (recastDeclarators_cons E.recasting [] first ds).symm hpast
  · rw [hnext, hnext']
    refine .expect_taken rfl hs fun _ t ht ht' htaken => ?_
    exact .done_of_eq (recastDeclarators_cons E.recasting [] first []).symm htaken.past
termination_by 32 * s.size
decreasing_by all_goals omega

/-- An expression and its semicolon. -/
theorem terminated_framed (reason : Reason) {s : State} (hs : E.Inside s) :
    Framed E E.Past (Expr.recast E.recasting []) (terminated reason s)
      (terminated reason (E.state s)) := by
  rw [terminated, terminated]
  refine (expression_framed hs).andThen fun _ t ht ht' hin => ?_
  exact .expect_taken rfl hin fun _ _ _ _ htaken => .done htaken.past
termination_by 32 * s.size + 15
decreasing_by all_goals omega

/-- A condition in parentheses. -/
theorem condition_framed (start stop : Reason) {s : State} (hs : E.Inside s) :
    Framed E E.Inside (Expr.recast E.recasting []) (condition start stop s)
      (condition start stop (E.state s)) := by
  rw [condition, condition]
  refine .expect rfl hs (by decide) fun _ t ht ht' hin => ?_
  refine (expression_framed hin).andThen fun _ u hu hu' hin₁ => ?_
  exact .expect rfl hin₁ (by decide) fun _ _ _ _ hv => .done hv
termination_by 32 * s.size
decreasing_by all_goals omega

/-- A statement. -/
theorem statement_framed {s : State} (hs : E.Inside s) :
    Framed E E.Past (Stmt.recast E.recasting []) (statement s) (statement (E.state s)) := by
  have hexpression : Framed E E.Past (Stmt.recast E.recasting [])
      ((terminated .expressionEnd s).andThen fun e t ht => .done (Stmt.expression e) t ht)
      ((terminated .expressionEnd (E.state s)).andThen
        fun e t ht => .done (Stmt.expression e) t ht) :=
    (terminated_framed .expressionEnd hs).andThen fun _ _ _ _ ht => .done ht
  rw [statement, statement]
  obtain ⟨first, t, ht, ht', hnext, hnext', -, htaken⟩ | ⟨hnext, hnext'⟩ :=
    next_state hs (fun _ => true)
  · rw [hnext, hnext']
    have hin (hkind : first.kind ≠ .semicolon) : E.Inside t := htaken.inside hkind
    dsimp only [Token.kind_moved]
    split
    · next hkind =>
      exact (forStatement_framed (htaken.whole (.inr hkind)) (hin (by simp [hkind]))).within
    · next hkind =>
      refine (condition_framed .ifStart .ifEnd (hin (by simp [hkind]))).andThen
        fun c u hu hu' hin₁ => ?_
      refine (statement_framed hin₁).andThen fun _ v hv hv' hpast => ?_
      obtain ⟨_, w, hw, hw', hnext, hnext', hin₂⟩ | ⟨hnext, hnext'⟩ := next_else hpast
      · rw [hnext, hnext']
        exact (statement_framed hin₂).andThen fun _ _ _ _ hx => .done hx
      · rw [hnext, hnext']
        exact .done hpast
    · next hkind =>
      refine (condition_framed .whileStart .whileEnd (hin (by simp [hkind]))).andThen
        fun c u hu hu' hin₁ => ?_
      exact (statement_framed hin₁).andThen fun _ _ _ _ hv => .done hv
    · next hkind =>
      have hin₁ := hin (by simp [hkind])
      obtain ⟨_, u, hu, hu', hnext, hnext', -, htaken'⟩ | ⟨hnext, hnext'⟩ :=
        next_state hin₁ (· = .semicolon)
      · rw [hnext, hnext']
        exact .done htaken'.past
      · rw [hnext, hnext']
        exact (terminated_framed .resultEnd hin₁).andThen fun _ _ _ _ hu => .done hu
    · next hkind =>
      refine (block_framed (htaken.whole (.inl hkind)) (hin (by simp [hkind]))).andThen
        fun body u hu hu' hin₁ => ?_
      exact .done_of_eq (recast_block E body).symm hin₁.past
    · next hkind =>
      exact (terminated_framed .printEnd (hin (by simp [hkind]))).andThen
        fun _ _ _ _ hu => .done hu
    · exact hexpression
  · rw [hnext, hnext']
    exact hexpression
termination_by 32 * s.size + 17
decreasing_by all_goals omega

/-- A counting loop. -/
theorem forStatement_framed (hwhole : E.after = none) {s : State} (hs : E.Inside s) :
    Framed E E.Past (Stmt.recast E.recasting []) (forStatement s) (forStatement (E.state s)) := by
  rw [forStatement, forStatement]
  refine .expect rfl hs (by decide) fun _ t ht ht' hin => ?_
  obtain ⟨_, u, hu, hu', hnext, hnext', -, htaken⟩ | ⟨hnext, hnext'⟩ :=
    next_state hin (· = .semicolon)
  · rw [hnext, hnext']
    exact (forCondition_framed hwhole none (htaken.past.inside (.inl hwhole))).within
  · rw [hnext, hnext']
    obtain ⟨_, u, hu, hu', hvar, hvar', hin₁⟩ | ⟨hvar, hvar'⟩ :=
      next_inside hin (· = .kwVar) rfl
    · rw [hvar, hvar']
      refine (declarators_framed hin₁).andThen fun ds v hv hv' hpast => ?_
      exact (forCondition_framed hwhole (some (.declare ds)) (hpast.inside (.inl hwhole))).within
    · rw [hvar, hvar']
      refine (terminated_framed .expressionEnd hin).andThen fun e u hu hu' hpast => ?_
      exact (forCondition_framed hwhole (some (.expression e)) (hpast.inside (.inl hwhole))).within
termination_by 32 * s.size
decreasing_by all_goals omega

/-- A counting loop, from its condition on. -/
theorem forCondition_framed (hwhole : E.after = none) (start : Option Stmt) {s : State}
    (hs : E.Inside s) :
    Framed E E.Past (Stmt.recast E.recasting []) (forCondition start s)
      (forCondition (start.map (Stmt.recast E.recasting [])) (E.state s)) := by
  rw [forCondition, forCondition]
  obtain ⟨_, t, ht, ht', hnext, hnext', -, htaken⟩ | ⟨hnext, hnext'⟩ :=
    next_state hs (· = .semicolon)
  · rw [hnext, hnext']
    exact (forStep_framed start none (htaken.past.inside (.inl hwhole))).within
  · rw [hnext, hnext']
    refine (terminated_framed .forConditionEnd hs).andThen fun c t ht ht' hpast => ?_
    exact (forStep_framed start (some c) (hpast.inside (.inl hwhole))).within
termination_by 32 * s.size + 16
decreasing_by all_goals omega

/-- A counting loop, from its step on. -/
theorem forStep_framed (start : Option Stmt) (c : Option Expr) {s : State} (hs : E.Inside s) :
    Framed E E.Past (Stmt.recast E.recasting []) (forStep start c s)
      (forStep (start.map (Stmt.recast E.recasting [])) (c.map (Expr.recast E.recasting []))
        (E.state s)) := by
  rw [forStep, forStep]
  obtain ⟨_, t, ht, ht', hnext, hnext', hin⟩ | ⟨hnext, hnext'⟩ :=
    next_inside hs (· = .rightParen) rfl
  · rw [hnext, hnext']
    refine (statement_framed hin).andThen fun body u hu hu' hpast => ?_
    exact .done_of_eq (recast_counting E start c none body).symm hpast
  · rw [hnext, hnext']
    refine (expression_framed hs).andThen fun e t ht ht' hin => ?_
    refine .expect rfl hin (by decide) fun _ u hu hu' hin₁ => ?_
    refine (statement_framed hin₁).andThen fun body v hv hv' hpast => ?_
    exact .done_of_eq (recast_counting E start c (some e) body).symm hpast
termination_by 32 * s.size + 16
decreasing_by all_goals omega

end

/-! ## Programs -/

/-- Statements are parsed until no token is left. -/
theorem rest_statements (s : State) : (statements s).2.rest = [] := by
  rw [statements]
  split
  · next hend => exact List.isEmpty_iff.mp hend
  · next hend =>
    have hshorter := (declaration s (State.size_pos hend)).shorter
    exact rest_statements _
termination_by s.size

/-- The statements of a phrase are parsed as they are in other surroundings, and then the statements
of what follows. -/
theorem statements_framed {s : State} (hs : E.Past s) :
    statements (E.state s) =
      (recastStmts E.recasting [] (statements s).1 ++ (statements (E.state (statements s).2)).1,
        (statements (E.state (statements s).2)).2) := by
  by_cases hend : s.atEnd
  · have hdone : statements s = ([], s) := by rw [statements, dif_pos hend]
    rw [hdone]
    rfl
  · have hin : E.Inside s := hs.inside (.inr fun hrest => hend (List.isEmpty_iff.mpr hrest))
    have hend' : ¬(E.state s).atEnd := Surroundings.atEnd_state hin ▸ hend
    obtain ⟨hstmt, hstate, hpast⟩ :=
      declaration_framed E hin (State.size_pos hend) (State.size_pos hend')
    have hshorter := (declaration s (State.size_pos hend)).shorter
    rw [statements, dif_neg hend', statements.eq_1 s, dif_neg hend]
    dsimp only
    rw [hstate, statements_framed hpast, hstmt]
    cases (declaration s (State.size_pos hend)).stmt <;> rfl
termination_by s.size

/-- Where the phrase goes up to the end token, so do its statements. -/
theorem statements_whole (hafter : E.after = none) {s : State}
    (hlast : E.last = s.last.moved E.move) : statements (E.state s) =
      (recastStmts E.recasting [] (statements s).1, E.state (statements s).2) := by
  have hpast : E.Past s := ⟨fun _ => hlast, fun hne => absurd hafter hne⟩
  have hend : (E.state (statements s).2).atEnd := by
    simp [State.atEnd, Surroundings.state, Surroundings.tokens, rest_statements, hafter]
  have hdone : statements (E.state (statements s).2) = ([], E.state (statements s).2) := by
    rw [statements, dif_pos hend]
  rw [statements_framed E hpast, hdone, List.append_nil]

end Grammar

end Lox
