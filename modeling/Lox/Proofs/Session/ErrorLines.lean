import Lox.Proofs.Grammar.Provenance
import Lox.Proofs.Session.BareExpressions
import Lox.Proofs.Session.FrameChain
import Lox.Proofs.Session.Footprints
import Lox.Proofs.Session.StaticErrors
import Lox.Proofs.Token.Lines

/-!
# The lines of errors

A report about a text stands where a token or a fault of the text stands, and so on one of its
lines. An error of a run has the line of a token of the task that failed. Such a task runs a piece
that scoping has visited, and the tokens in it are tokens of what was given in this turn or an
earlier one.
-/

namespace Lox

open Scoping Eval Grammar

/-- The text that a session is given in a turn, if it is given one. -/
def Turn.text? : Turn → Option String
  | .source _ text | .line _ text => some text
  | .tokens .. | .drain => none

/-- A report has a line of a text. -/
def Diagnostic.OnLineOf (text : String) (d : Diagnostic) : Prop :=
  ∃ line, d.line? = some line ∧ 1 ≤ line ∧ line ≤ Text.lineCount text

/-- A line without the blanks at its end has no tokens but those of the line. -/
theorem mem_tokenize_of_trimmed {line : String} (hclean : (tokenize (Text.trimmed line)).2 = [])
    {t : Token} (ht : t ∈ (tokenize (Text.trimmed line)).1) (hkind : t.kind ≠ .eof) :
    t ∈ (tokenize line).1 := by
  obtain ⟨blanks, hblanks, htext⟩ := Text.trimRight_append_blanks line.toList
  obtain ⟨i, hi, hit⟩ := List.mem_filterMap.mp ht
  cases i with
  | token t' =>
    obtain rfl := Option.some.inj hit
    have hmem := Token.mem_scanFrom_append_blanks hblanks (fault?_eq_none hclean) hi hkind
    rw [Text.trimmed, String.toList_ofList, htext] at hmem
    exact List.mem_filterMap.mpr ⟨_, hmem, rfl⟩
  | fault p f => contradiction

/-- A text has an end token. -/
theorem exists_eof_tokenize (text : String) : ∃ t ∈ (tokenize text).1, t.kind = .eof := by
  obtain ⟨ts, last, htokens, -, hlast, -⟩ := tokenize_ends text
  exact ⟨last, by simp [htokens], hlast⟩

namespace Session

variable {s : Session} {t : Turn} {turns : List Turn} {r : Reading} {j : Job} {v : Visit}
  {text line : String} {e : Expr} {n : Nat}

/-! ## Tokens of what is run -/

/-- The tokens of a bare expression are those of the line. -/
theorem tokens_bareExpression? (h : s.bareExpression? line = (some e, n)) :
    ∀ u ∈ e.tokens, u ∈ (tokenize line).1 := by
  obtain ⟨ts, last, htokens, _, hts, hd⟩ := derives_of_bareExpression? h
  intro u hu
  have hmem : u ∈ ts := hd.tokens_subset u hu
  exact mem_tokenize_of_trimmed (by rw [htokens]) (by simp [htokens, hmem]) (hts u hmem)

/-- The tokens in a job are tokens of what is given in the turn. -/
theorem tokens_of_accepted (hj : s.accepted? t = some j) : ∀ u ∈ j.piece.tokens, u ∈ t.scanned := by
  obtain ⟨r, hread, hjob, _⟩ := accepted?_eq_some_iff.mp hj
  obtain ⟨_, line, e, n, rfl, hbare, rfl⟩ | ⟨n, hclean, rfl⟩ := job_of_read? hread hjob
  · exact tokens_bareExpression? hbare
  · exact parse_tokens hclean

/-- The tokens in a visited piece are tokens of what is given in some turn. -/
theorem scanned_of_visited (h : s.Visited turns v) :
    ∀ u ∈ v.piece.tokens, ∃ t ∈ turns, u ∈ t.scanned := by
  refine h.of_jobs (P := fun v => ∀ u ∈ v.piece.tokens, ∃ t ∈ turns, u ∈ t.scanned) ?_
  intro s t j ht hj v hv u hu
  exact ⟨t, ht, tokens_of_accepted hj u (Visit.tokens_within hv u hu)⟩

/-- A value is called where a call is evaluated. -/
theorem Reaches.of_call {b : Nat} {callee : Value} {vs : List Value} {paren : Token} {m : Machine}
    (h : s.Reaches turns ⟨.call b callee vs paren, m⟩) :
    ∃ b' f es m', s.Reaches turns ⟨.evaluate b' (.call f paren es), m'⟩ := by
  obtain ⟨_, _, htask⟩ | ⟨_, _, htask⟩ | ⟨μ, hμ, hcall⟩ := h.cases_last
  · contradiction
  · contradiction
  · cases hcall with
    | call _ _ => exact ⟨_, _, _, _, hμ⟩

variable {sink : Sink} {clock : Clock} {μ : Moment}

/-- What is evaluated was visited. -/
theorem visited_of_evaluate {b : Nat} {m : Machine}
    (h : (start sink clock).Reaches turns ⟨.evaluate b e, m⟩) :
    ∃ v, (start sink clock).Visited turns v ∧ v.piece = .expr e := by
  obtain ⟨S, _, _, hseen, hgood⟩ := h.good
  obtain ⟨v, hpiece, hat⟩ := hgood.ready
  exact ⟨v, hseen v hat.live, hpiece⟩

/-- The tokens of a task stand in a piece that was visited. -/
theorem visited_of_reaches (hμ : (start sink clock).Reaches turns μ) :
    ∀ u ∈ μ.task.tokens, ∃ v, (start sink clock).Visited turns v ∧ u ∈ v.piece.tokens := by
  obtain ⟨S, _, _, hseen, hgood⟩ := hμ.good
  obtain ⟨task, m⟩ := μ
  intro u hu
  cases task with
  | evaluate b e =>
    obtain ⟨v, hv, hpiece⟩ := visited_of_evaluate hμ
    exact ⟨v, hv, hpiece ▸ hu⟩
  | call b callee vs paren =>
    -- The parenthesis of a call stands in the expression whose evaluation led to it.
    obtain ⟨b', f, es, m', hreach⟩ := hμ.of_call
    obtain ⟨v, hv, hpiece⟩ := visited_of_evaluate hreach
    obtain rfl := List.mem_singleton.mp hu
    exact ⟨v, hv, by simp [hpiece, Piece.tokens, Expr.tokens]⟩
  | callFunction b f vs =>
    obtain ⟨_, ⟨_, v, hlive, hpiece, _⟩, _⟩ := hgood.ready
    exact ⟨v, hseen v hlive, hpiece ▸ hu⟩
  | declareClass c =>
    obtain ⟨v, hpiece, hat⟩ := hgood.ready
    exact ⟨v, hseen v hat.live, hpiece ▸ hu⟩
  | lookUpClasses xs =>
    obtain ⟨v, name, hpiece, hlive, _⟩ := hgood.ready
    exact ⟨v, hseen v hlive, hpiece ▸ hu⟩
  | _ => exact absurd hu List.not_mem_nil

/-- An error of a run has the line of a token that was given in this turn or an earlier one. -/
theorem scanned_of_runtime (turns : List Turn) (t : Turn) {line : Nat} {message : String}
    (h : .runtime line message ∈ (((start sink clock).after turns).turn t).2.diagnostics) :
    ∃ t' ∈ turns ++ [t], ∃ u ∈ t'.scanned, u.line = line := by
  obtain ⟨μ, hμ, u, hu, hline⟩ := (footprint_turn _ t).blames line message h
  have hreach : (start sink clock).Reaches (turns ++ [t]) μ := Reaches.append (.inl hμ)
  obtain ⟨v, hv, huv⟩ := visited_of_reaches hreach u hu
  obtain ⟨t', ht', hut'⟩ := scanned_of_visited hv u huv
  exact ⟨t', ht', u, hut', hline⟩

/-! ## Reports about a text -/

/-- What is reported about a text before it is run stands on one of its lines. -/
theorem onLineOf_ofSource {d : Diagnostic} (h : d ∈ (Program.ofSource text n).diagnostics) :
    d.OnLineOf text := by
  obtain h | h := List.mem_append.mp h
  · exact line_of_mem_faults h
  · obtain ⟨c, hc, rfl⟩ := List.mem_map.mp h
    obtain ⟨u, hu, hposition⟩ := position_of_mem_complaints (exists_eof_tokenize text) hc
    have hline : u.line = c.token.line := congrArg Position.line hposition
    exact ⟨c.token.line, rfl, hline ▸ line_of_mem_tokenize hu⟩

/-- What is reported about a text that cannot be read stands on one of its lines. -/
theorem onLineOf_readSource {ds : Diagnostics} (h : (s.readSource text).job = .error ds) :
    ∀ d ∈ ds, d.OnLineOf text := by
  unfold readSource at h
  dsimp only at h
  split at h
  · obtain rfl := Except.error.inj h
    exact fun d hd => onLineOf_ofSource hd
  · contradiction

/-- A violation in a bare expression is at a token of the line. -/
theorem position_of_bareExpression? (h : s.bareExpression? line = (some e, n)) {d : Distances}
    {violation : Violation} (hv : violation ∈ ((Job.expression e).visit d).after.violations) :
    ∃ u ∈ (tokenize line).1, u.position = violation.token.position := by
  obtain ⟨ts, last, htokens, _, hts, hd⟩ := derives_of_bareExpression? h
  rw [Job.violations_eq _ d {}] at hv
  obtain ⟨u, hu, hposition⟩ := position_of_mem_resolveExpr hd hv
  exact ⟨u, mem_tokenize_of_trimmed (by rw [htokens]) (by simp [htokens, hu]) (hts u hu), hposition⟩

/-- The tokens of a text that a session is given. -/
theorem scanned_of_text? (htext : t.text? = some text) : t.scanned = (tokenize text).1 := by
  cases t with
  | source budget text' | line budget text' =>
    obtain rfl := Option.some.inj htext
    rfl
  | tokens budget ts => contradiction
  | drain => contradiction

/-- What is reported about an input that cannot be read stands on a line of its text. -/
theorem onLineOf_read? (hread : s.read? t = some r) (htext : t.text? = some text)
    {ds : Diagnostics} (hds : r.job = .error ds) : ∀ d ∈ ds, d.OnLineOf text := by
  cases t with
  | source budget text' =>
    obtain rfl := Option.some.inj htext
    obtain rfl := Option.some.inj hread
    exact onLineOf_readSource hds
  | line budget text' =>
    obtain rfl := Option.some.inj htext
    obtain rfl := Option.some.inj hread
    unfold readLine at hds
    split at hds
    · contradiction
    · exact onLineOf_readSource hds
  | tokens budget ts => contradiction
  | drain => contradiction

/-- What violates the scoping rules in a text stands at one of its tokens. -/
theorem position_of_read? (hread : s.read? t = some r) (htext : t.text? = some text)
    (hjob : r.job = .ok j) {d : Distances} {violation : Violation}
    (hv : violation ∈ (j.visit d).after.violations) :
    ∃ u ∈ (tokenize text).1, u.position = violation.token.position := by
  obtain ⟨_, line, e, n, rfl, hbare, rfl⟩ | ⟨n, _, rfl⟩ := job_of_read? hread hjob
  · obtain rfl := Option.some.inj htext
    exact position_of_bareExpression? hbare hv
  · rw [scanned_of_text? htext, Job.violations_eq _ d {}] at hv
    exact position_of_mem_violations (exists_eof_tokenize text) hv

/-- What keeps a text from running stands on one of its lines. -/
theorem onLineOf_turn (htext : t.text? = some text) {d : Diagnostic}
    (hd : d ∈ (s.turn t).2.diagnostics) (hstatic : d.isStatic) : d.OnLineOf text := by
  cases hread : s.read? t with
  | none => cases t <;> contradiction
  | some r =>
    cases hjob : r.job with
    | error ds =>
      rw [turn_eq_give hread, give_error hjob] at hd
      exact onLineOf_read? hread htext hjob d hd
    | ok j =>
      cases hclean : (j.visit s.machine.distances).after.violations.isEmpty with
      | false =>
        rw [turn_eq_give hread, give_rejected hjob hclean] at hd
        obtain ⟨violation, hv, rfl⟩ := List.mem_map.mp hd
        obtain ⟨u, hu, hposition⟩ := position_of_read? hread htext hjob hv
        have hline : u.line = violation.token.line := congrArg Position.line hposition
        exact ⟨violation.token.line, rfl, hline ▸ line_of_mem_tokenize hu⟩
      | true =>
        -- The text is run, and what is reported about a run does not keep it from running.
        have hdynamic := isDynamic_turn (accepted?_eq_some_iff.mpr ⟨r, hread, hjob, hclean⟩) d hd
        exact absurd hstatic (by simp [Diagnostic.not_isStatic hdynamic])

/-- A token of a text that a session is given stands on a line of that text. -/
theorem line_of_mem_scanned (htext : t.text? = some text) {u : Token} (hu : u ∈ t.scanned) :
    1 ≤ u.line ∧ u.line ≤ Text.lineCount text := by
  rw [scanned_of_text? htext] at hu
  exact line_of_mem_tokenize hu

/-- Errors have lines of what the session was given. Whatever a fresh session was given before, what
keeps a text from running is reported on a line of that text, from the first line to one for each
line end more. An error of a run, one of the clock like any other, has the line of a token of this
turn or an earlier one, and the tokens of a text stand on its lines. So in the first turn every
error with a line has a line of the text that is run. -/
theorem error_lines_real (sink : Sink) (clock : Clock) (turns : List Turn) (t : Turn) :
    let ds := (((start sink clock).after turns).turn t).2.diagnostics
    (∀ text, t.text? = some text → ∀ d ∈ ds, d.isStatic → d.OnLineOf text) ∧
      (∀ line message, .runtime line message ∈ ds →
        ∃ t' ∈ turns ++ [t], ∃ u ∈ t'.scanned, u.line = line) ∧
      (∀ (t' : Turn) text, t'.text? = some text → ∀ u ∈ t'.scanned,
        1 ≤ u.line ∧ u.line ≤ Text.lineCount text) ∧
      (turns = [] → ∀ text, t.text? = some text → ∀ d ∈ ds, ∀ line, d.line? = some line →
        1 ≤ line ∧ line ≤ Text.lineCount text) := by
  have hstatic : ∀ text, t.text? = some text →
      ∀ d ∈ (((start sink clock).after turns).turn t).2.diagnostics, d.isStatic → d.OnLineOf text :=
    fun text htext d => onLineOf_turn htext
  have hruntime : ∀ line message,
      .runtime line message ∈ (((start sink clock).after turns).turn t).2.diagnostics →
        ∃ t' ∈ turns ++ [t], ∃ u ∈ t'.scanned, u.line = line :=
    fun line message => scanned_of_runtime turns t
  refine ⟨hstatic, hruntime, fun t' text htext u => line_of_mem_scanned htext, ?_⟩
  intro hfirst text htext d hd line hline
  cases d with
  | lexical _ _ | syntactic _ _ | scoping _ _ =>
    obtain ⟨line', hline', hbounds⟩ := hstatic text htext _ hd rfl
    obtain rfl := Option.some.inj (hline.symm.trans hline')
    exact hbounds
  | runtime line' message =>
    obtain rfl := Option.some.inj hline
    obtain ⟨t', ht', u, hu, rfl⟩ := hruntime line' message hd
    -- There is no earlier turn, so the token is one of this text.
    obtain rfl : t' = t := by simpa [hfirst] using ht'
    exact line_of_mem_scanned htext hu
  | output _ | encoding _ | exhausted => contradiction

/-- A function that fails on its third line: `fun f(){`, an empty line, and `  x;}`. -/
def failingFunction : String :=
  "fun f()\x7b\n\n  x;\x7d"

-- An error in a function of an earlier text can have a line that the text being run does not have.
example :
    (((start {} {}).after [.source 9 failingFunction]).turn
      (.source 9 "f();")).2.diagnostics.map Diagnostic.line? = [some 3] ∧
      Text.lineCount "f();" = 1 := by
  decide +kernel

end Session

end Lox
