import Lox.Proofs.Grammar.Calls
import Lox.Proofs.Grammar.Composition
import Mathlib.Data.List.Chain
import Mathlib.Logic.Relation

/-!
# Progress of a parse

Whatever the tokens are, a parse ends, and it goes through them from left to right. `Call.trace`
lists the states of a parse in order: each call's first state, the states of the calls that it
makes, and its last state. The `cursor` of a state is the number of the token that comes next. Along
the trace the cursor never goes back and always names a token; a declaration moves it on, parsed or
given up; and a production that is called again within itself, as every list and every loop is, has
moved it on in between.
-/

namespace Lox.Grammar

/-! ## The states of a parse -/

namespace Call

/-- The call `b` is made by the call `a`. -/
def Makes (a b : Call) : Prop :=
  b ∈ a.calls

/-- The call `b` is `a` itself, or it is made on behalf of `a`. -/
def Reaches : Call → Call → Prop :=
  Relation.ReflTransGen Makes

/-- A number that goes down from a call to those that it makes. -/
def measure (c : Call) : Nat :=
  32 * c.state.size + c.rank

/-- The ranks leave room for one token in the measure. -/
theorem rank_le (c : Call) : c.rank ≤ 20 := by
  cases c with
  | operand level s =>
    have hlevel := level.rank_le
    simp only [rank]
    omega
  | tier level s =>
    have hlevel := level.rank_le
    simp only [rank]
    omega
  | _ => simp [rank]

/-- What comes below has a smaller measure. -/
theorem Below.measure_lt {c c₀ : Call} (h : c.Below c₀) : c.measure < c₀.measure := by
  have hrank := c.rank_le
  unfold measure
  rcases h with h | ⟨h, hlower⟩ <;> omega

end Call

/-- All calls of a production come below it. -/
theorem Linked.below_of_mem {c₀ c : Call} {s t : State} {cs : List Call} (h : Linked c₀ s cs t)
    (hc : c ∈ cs) : c.Below c₀ := by
  induction h with
  | nil _ => contradiction
  | cons _ hbelow _ ih =>
    rcases List.mem_cons.mp hc with rfl | hc
    · exact hbelow
    · exact ih hc

namespace Call

variable {a b c : Call}

/-- A call that is made has a smaller measure. -/
theorem Makes.measure_lt (h : a.Makes b) : b.measure < a.measure :=
  (a.linked.below_of_mem h).measure_lt

/-- The states in which the productions start and end, from the call on until it has ended. -/
def trace (c : Call) : List State :=
  c.state :: (c.calls.attach.flatMap (fun c' => c'.val.trace) ++ [c.final])
termination_by c.measure
decreasing_by exact Makes.measure_lt c'.property

/-- The states of a call are where it starts, those of its calls, and where it ends. -/
theorem trace_eq (c : Call) : c.trace = c.state :: (c.calls.flatMap trace ++ [c.final]) := by
  rw [trace]
  simp [List.flatMap_subtype]

end Call

/-- Calls that hang together go through states in order, if each of them does. -/
theorem Linked.isChain_trace {c₀ : Call} {s t : State} {cs : List Call} (h : Linked c₀ s cs t)
    (hcs : ∀ c ∈ cs, c.trace.IsChain Onward) :
    (s :: (cs.flatMap Call.trace ++ [t])).IsChain Onward := by
  induction h with
  | nil h => exact .cons_cons h (.singleton _)
  | @cons s t c cs h _ _ ih =>
    obtain ⟨hc, hcs⟩ := List.forall_mem_cons.mp hcs
    -- The trace of the first call ends in the state from which the others go on.
    have hsplit : (c.state :: c.calls.flatMap Call.trace ++
        c.final :: (cs.flatMap Call.trace ++ [t])).IsChain Onward := by
      refine List.isChain_split.mpr ⟨?_, ih hcs⟩
      rw [Call.trace_eq] at hc
      exact hc
    rw [List.flatMap_cons, Call.trace_eq]
    simpa using ⟨h, hsplit⟩

/-- Orders of states compose in a calculation. -/
instance : Trans Onward Onward Onward :=
  ⟨Onward.trans⟩

namespace Call

variable {a b c : Call}

/-- A parse goes through its states in order. -/
theorem isChain_trace (c : Call) : c.trace.IsChain Onward := by
  rw [trace_eq]
  exact c.linked.isChain_trace fun c' h => isChain_trace c'
termination_by c.measure
decreasing_by exact Makes.measure_lt h

/-- The states of a call come one after the other. -/
theorem pairwise_trace (c : Call) : c.trace.Pairwise Onward :=
  List.isChain_iff_pairwise.mp c.isChain_trace

/-- Every state of a parse comes after the first one. -/
theorem onward_of_mem_trace {s : State} (h : s ∈ c.trace) : Onward c.state s := by
  have hpairwise := c.pairwise_trace
  rw [trace_eq] at h hpairwise
  rcases List.mem_cons.mp h with rfl | h
  · exact .refl _
  · exact (List.pairwise_cons.mp hpairwise).1 s h

/-- A call starts with its own state. -/
theorem state_mem_trace (c : Call) : c.state ∈ c.trace := by
  rw [trace_eq]
  exact List.mem_cons_self

/-- A call ends after it has started. -/
theorem onward (c : Call) : Onward c.state c.final := by
  refine onward_of_mem_trace ?_
  rw [trace_eq]
  exact List.mem_cons_of_mem _ (List.mem_append_right _ List.mem_cons_self)

/-- A call goes through the states of the calls that are made on its behalf. -/
theorem Reaches.trace_subset (h : a.Reaches b) : b.trace ⊆ a.trace := by
  induction h with
  | refl => exact List.Subset.refl _
  | @tail b c _ hmakes ih =>
    refine List.Subset.trans (fun s hs => ?_) ih
    rw [trace_eq b]
    refine List.mem_cons_of_mem _ (List.mem_append_left _ ?_)
    exact List.mem_flatMap.mpr ⟨c, hmakes, hs⟩

/-- A call that is made indirectly has a smaller measure. -/
theorem measure_lt_of_transGen (h : Relation.TransGen Makes a b) : b.measure < a.measure := by
  induction h with
  | single h => exact h.measure_lt
  | tail _ h ih => exact Nat.lt_trans h.measure_lt ih

/-- Calls that are made within each other are no more than the measure of the first one allows. -/
theorem length_le_of_isChain {cs : List Call} (h : (c :: cs).IsChain Makes) :
    (c :: cs).length ≤ c.measure + 1 := by
  induction cs generalizing c with
  | nil => simp
  | cons b cs ih =>
    obtain ⟨hmakes, hcs⟩ := List.isChain_cons_cons.mp h
    have hlength := ih hcs
    have hmeasure := hmakes.measure_lt
    rw [List.length_cons]
    omega

end Call

/-! ## The cursor -/

namespace State

variable {all : List Token} {s t : State}

/-- The tokens that are left, with the end token. -/
def tokens (s : State) : List Token :=
  s.rest ++ [s.last]

/-- The number of the token that comes next, among all tokens of a parse. -/
def cursor (all : List Token) (s : State) : Nat :=
  all.length - s.tokens.length

/-- The cursor of a state stays within the tokens of a parse. -/
structure InBounds (all : List Token) (s : State) : Prop where
  /-- It does not go beyond the end token. -/
  bound : s.cursor all < all.length
  /-- The tokens that are left are those from the cursor on. -/
  left : all.drop (s.cursor all) = s.tokens
  /-- The token that comes next stands at the cursor. -/
  next : all[s.cursor all]? = some s.peek
  /-- There is a token before it, or it is the first one. -/
  previous : (all[s.cursor all - 1]?).isSome

/-- The tokens that are left are those to be taken and the end token. -/
@[simp] theorem length_tokens (s : State) : s.tokens.length = s.size + 1 := by
  simp [tokens, size]

/-- The next token is the first that is left. -/
theorem head?_tokens (s : State) : s.tokens.head? = some s.peek := by
  unfold tokens peek
  cases s.rest <;> rfl

/-- A state whose tokens are the last ones of all is within them. -/
theorem inBounds_of_suffix (h : s.tokens <:+ all) : s.InBounds all := by
  obtain ⟨before, rfl⟩ := h
  have hcursor : s.cursor (before ++ s.tokens) = before.length := by simp [cursor]
  have hbound : before.length < (before ++ s.tokens).length := by simp
  refine ⟨?_, ?_, ?_, ?_⟩
  · rwa [hcursor]
  · rw [hcursor, List.drop_left]
  · rw [hcursor, ← List.head?_drop, List.drop_left, head?_tokens]
  · rw [hcursor, List.getElem?_eq_getElem (by omega)]
    rfl

/-- What is left ends the tokens. -/
theorem InBounds.suffix (h : s.InBounds all) : s.tokens <:+ all :=
  h.left ▸ List.drop_suffix _ all

/-- With fewer tokens left, the cursor is further on. -/
theorem cursor_le_cursor (h : t.size ≤ s.size) : s.cursor all ≤ t.cursor all := by
  simp only [cursor, length_tokens]
  omega

/-- With strictly fewer tokens left, it is strictly further on. -/
theorem cursor_lt_cursor (hs : s.tokens <:+ all) (h : t.size < s.size) :
    s.cursor all < t.cursor all := by
  have hlength := hs.length_le
  simp only [cursor, length_tokens] at hlength ⊢
  omega

end State

namespace Onward

variable {s t : State}

/-- Later on, what is left is an end of what was left. -/
theorem tokens (h : Onward s t) : t.tokens <:+ s.tokens := by
  obtain ⟨before, hrest⟩ := h.rest
  refine ⟨before, ?_⟩
  rw [State.tokens, State.tokens, ← List.append_assoc, hrest, h.last]

/-- Later on, the cursor has not gone back. -/
theorem cursor_le (h : Onward s t) (all : List Token) : s.cursor all ≤ t.cursor all :=
  State.cursor_le_cursor h.rest.length_le

end Onward

/-- What is asked of a parse of the tokens `all` that starts with the call `c`. -/
structure Call.Progresses (all : List Token) (c : Call) : Prop where
  /-- It starts at the first token. -/
  start : c.state.cursor all = 0
  /-- It never leaves the tokens. -/
  inBounds : ∀ s ∈ c.trace, s.InBounds all
  /-- It never goes back. -/
  monotone : (c.trace.map (State.cursor all)).Pairwise (· ≤ ·)
  /-- A production that is called on behalf of itself, or of one of no higher rank, is called
  further on. -/
  again : ∀ a b, c.Reaches a → Relation.TransGen Makes a b → a.rank ≤ b.rank →
    a.state.cursor all < b.state.cursor all
  /-- The calls that are made within each other are not many. -/
  depth : ∀ cs, (c :: cs).IsChain Makes → (c :: cs).length ≤ 32 * all.length

/-- Every call makes progress. -/
theorem Call.progresses (c : Call) : c.Progresses c.state.tokens := by
  have hsuffix {s : State} (h : s ∈ c.trace) : s.tokens <:+ c.state.tokens :=
    (onward_of_mem_trace h).tokens
  refine ⟨Nat.sub_self _, fun s hs => State.inBounds_of_suffix (hsuffix hs), ?_, ?_, ?_⟩
  · exact List.pairwise_map.mpr (c.pairwise_trace.imp fun h => h.cursor_le _)
  · intro a b hc hab hrank
    have hreached : a.state.tokens <:+ c.state.tokens :=
      hsuffix (hc.trace_subset a.state_mem_trace)
    refine State.cursor_lt_cursor hreached ?_
    -- The measure went down and the rank did not, so a token was taken.
    have hmeasure := measure_lt_of_transGen hab
    unfold measure at hmeasure
    omega
  · intro cs hcs
    have hlength := length_le_of_isChain hcs
    have hrank := c.rank_le
    unfold measure at hlength
    rw [State.length_tokens]
    omega

/-! ## Programs -/

/-- The tokens of a program, with an end token behind them if there is none. -/
def withEnd (tokens : List Token) : List Token :=
  if tokens.getLast?.map Token.kind = some .eof then tokens
  else tokens ++ [.endAt ⟨(tokens.getLast?.map Token.line).getD 1, 0⟩]

/-- Tokens of which at most the last one is an end token are such tokens with an end token behind
them, or without one. -/
theorem withEnd_cases {tokens : List Token} (hend : ∀ t ∈ tokens.dropLast, t.kind ≠ .eof) :
    (∃ ts last, tokens = ts ++ [last] ∧ last.kind = .eof ∧ (∀ t ∈ ts, t.kind ≠ .eof) ∧
        withEnd tokens = tokens) ∨
      ((∀ t ∈ tokens, t.kind ≠ .eof) ∧
        withEnd tokens = tokens ++ [.endAt ⟨(tokens.getLast?.map Token.line).getD 1, 0⟩]) := by
  rcases List.eq_nil_or_concat' tokens with rfl | ⟨ts, last, rfl⟩
  · exact .inr ⟨by simp, rfl⟩
  · rw [List.dropLast_concat] at hend
    by_cases hlast : last.kind = .eof
    · exact .inl ⟨ts, last, rfl, hlast, hend, by simp [withEnd, hlast]⟩
    · refine .inr ⟨?_, by simp [withEnd, hlast]⟩
      simpa [or_imp, forall_and] using ⟨hend, hlast⟩

/-- A parse starts with all tokens left. -/
theorem State.tokens_start {tokens : List Token} (hend : ∀ t ∈ tokens.dropLast, t.kind ≠ .eof)
    (n : Nat) : (State.start tokens n).tokens = withEnd tokens := by
  rcases withEnd_cases hend with ⟨ts, last, rfl, hlast, hts, hall⟩ | ⟨hnone, hall⟩
  · rw [State.start_append hts hlast, hall]
    rfl
  · have hfind : tokens.find? (fun t => decide (t.kind = .eof)) = none :=
      List.find?_eq_none.mpr fun t ht => by simpa using hnone t ht
    rw [State.start_endless hnone, hall]
    simp only [State.tokens, State.start, hfind, Option.getD_none]

/-- The end token is the last one and the only one. -/
theorem withEnd_eof {tokens : List Token} (hend : ∀ t ∈ tokens.dropLast, t.kind ≠ .eof) :
    ∃ ts last, withEnd tokens = ts ++ [last] ∧ last.kind = .eof ∧ ∀ t ∈ ts, t.kind ≠ .eof := by
  rcases withEnd_cases hend with ⟨ts, last, htokens, hlast, hts, hall⟩ | ⟨hnone, hall⟩
  · exact ⟨ts, last, hall.trans htokens, hlast, hts⟩
  · exact ⟨tokens, _, hall, rfl, hnone⟩

/-- Parsing makes progress, stays within the tokens and ends, whatever the tokens are, as long as at
most the last one is an end token. Wherever a production is called, it ends within the tokens and
not before the place where it started, and a declaration ends further on even if it is given up. So
a program is read from the first token up to the end token, and an expression from the first token
on, without going back, without calling a production again in the same place and without calls
nested deeper than the number of tokens allows. -/
theorem parse_progresses (tokens : List Token) (n : Nat)
    (hend : ∀ t ∈ tokens.dropLast, t.kind ≠ .eof) :
    (∃ ts last, withEnd tokens = ts ++ [last] ∧ last.kind = .eof ∧ ∀ t ∈ ts, t.kind ≠ .eof) ∧
      (∀ c : Call, c.state.InBounds (withEnd tokens) → c.final.InBounds (withEnd tokens) ∧
        c.state.cursor (withEnd tokens) ≤ c.final.cursor (withEnd tokens)) ∧
      (∀ s h, s.InBounds (withEnd tokens) →
        s.cursor (withEnd tokens) < (declaration s h).state.cursor (withEnd tokens)) ∧
      (Call.statements (.start tokens n)).Progresses (withEnd tokens) ∧
      (statements (.start tokens n)).2.cursor (withEnd tokens) + 1 = (withEnd tokens).length ∧
      (Call.expression (.start tokens n)).Progresses (withEnd tokens) := by
  refine ⟨withEnd_eof hend, fun c hc => ⟨?_, c.onward.cursor_le _⟩, fun s h hs => ?_, ?_⟩
  · exact State.inBounds_of_suffix (c.onward.tokens.trans hc.suffix)
  · exact State.cursor_lt_cursor hs.suffix (declaration s h).shorter
  · rw [← State.tokens_start hend n]
    refine ⟨(Call.statements _).progresses, ?_, (Call.expression _).progresses⟩
    simp [State.cursor, State.size, rest_statements]

/-- Tokens that are no program: a function in a function, each with a statement that is given up,
and neither of them closed. -/
def unclosedFunctions : List Token :=
  [word "a", mark .equal, mark .kwFun, mark .leftParen, word "b", mark .rightParen, mark .leftBrace,
    mark .kwVar, mark .equal, mark .leftBracket, mark .semicolon, mark .kwReturn, mark .leftBrace,
    word "c", mark .colon, mark .kwFun, mark .leftParen, mark .rightParen, mark .leftBrace,
    mark .rightParen, mark .rightBrace, mark .rightBrace, mark .semicolon, mark .kwClass]

/-- Statements are given up at every depth, and parsing still makes progress. -/
theorem parse_unclosed_progresses :
    (∀ t ∈ unclosedFunctions.dropLast, t.kind ≠ .eof) ∧
      (parse unclosedFunctions 0).complaints.map Complaint.reason =
        [.variableName, .expression, .className, .blockEnd, .blockEnd] ∧
      (Call.statements (.start unclosedFunctions 0)).Progresses (withEnd unclosedFunctions) := by
  have hend : ∀ t ∈ unclosedFunctions.dropLast, t.kind ≠ .eof := by decide
  exact ⟨hend, by decide +kernel, (parse_progresses unclosedFunctions 0 hend).2.2.2.1⟩

end Lox.Grammar
