import Lox.Proofs.Session.Companions
import Lox.Proofs.Session.Context
import Lox.Proofs.Session.StaticErrors
import Lox.Proofs.Token.Joining

/-!
# Lines that are one expression

At the prompt a line that is one expression is evaluated without a semicolon. With one it would be a
program of one statement. The two are read in different ways and run by different functions, but the
tree, the violations, the machine and the reports are the same: only the value is not given.
-/

namespace Lox

open Eval Scoping Grammar

/-- What is tried as an expression when a line is given: the line without the blanks at its end. -/
def Text.trimmed (line : String) : String :=
  String.ofList (trimRight line.toList)

/-! ## Reading -/

/-- The tokens of a text of one character that is a token. -/
theorem tokenize_single {source : String} {c : Char} {kind : Token.Kind}
    (hsource : source.toList = [c]) (hc : Token.lexemeAt c [] = (.token kind, 0)) :
    tokenize source =
      ([⟨kind, String.ofList [c], {}⟩, .endAt (Position.advance {} [c])], []) := by
  have hscan : Token.scan source =
      [.token ⟨kind, String.ofList [c], {}⟩, .token (.endAt (Position.advance {} [c]))] := by
    unfold Token.scan
    rw [hsource, Token.scanFrom, hc]
    show Token.Item.token _ :: Token.scanFrom _ [] = _
    rw [Token.scanFrom]
    rfl
  unfold tokenize
  rw [hscan]
  rfl

/-- The tokens of a semicolon. -/
theorem tokenize_semicolon :
    tokenize ";" = ([⟨.semicolon, ";", {}⟩, .endAt (Position.advance {} [';'])], []) :=
  tokenize_single rfl rfl

/-- An expression of the grammar with a semicolon behind it is a program of one statement, unless it
starts with a brace. -/
theorem Grammar.Derives.program_of_expression {ts : List Token} {n n' : Nat} {e : Expr}
    (h : Derives .expression ts n e n') (hbrace : ∀ t ∈ ts.head?, t.kind ≠ .leftBrace)
    {stop : Token} (hstop : stop.kind = .semicolon) :
    Derives .declarations (ts ++ [stop]) n [.expression e] n' := by
  have hhead : ∀ t ∈ (ts ++ [stop]).head?, t.kind ≠ .leftBrace := by
    cases ts with
    | nil =>
      intro t ht
      obtain rfl := Option.some.inj ht
      simp [hstop]
    | cons t ts => exact hbrace
  have hstatement := Derives.expression (.terminated h hstop) hhead
  have hprogram := Derives.moreDeclarations (.statement hstatement) .noDeclarations
  rwa [List.append_nil] at hprogram

namespace Session

variable {s : Session} {line : String} {e : Expr} {n' : Nat}

/-- A line that is an expression has the tokens of one, and nothing in it is no token. -/
theorem derives_of_bareExpression? (h : s.bareExpression? line = (some e, n')) :
    ∃ ts last, tokenize (Text.trimmed line) = (ts ++ [last], []) ∧ last.kind = .eof ∧
      (∀ t ∈ ts, t.kind ≠ .eof) ∧ Derives .expression ts s.nextId e n' := by
  obtain ⟨ts, last, htokens, -, hlast, hts⟩ := tokenize_ends (Text.trimmed line)
  obtain ⟨tokens, hscan, hparse⟩ := parse_of_bareExpression? h
  replace hscan : tokenize (Text.trimmed line) = (tokens, []) := hscan
  rw [hscan] at htokens
  obtain rfl : tokens = ts ++ [last] := htokens
  exact ⟨ts, last, hscan, hlast, hts, derives_of_parseExpression? hts hlast hparse⟩

/-- With a semicolon on the next line, the expression is the only statement of a program. -/
theorem ofSource_of_bareExpression? (h : s.bareExpression? line = (some e, n'))
    (hbrace : ∀ t ∈ (tokenize (Text.trimmed line)).1.head?, t.kind ≠ .leftBrace) :
    Program.ofSource (Text.trimmed line ++ "\n;") s.nextId = ⟨[.expression e], [], n'⟩ := by
  obtain ⟨ts, last, htokens, hlast, hts, hd⟩ := derives_of_bareExpression? h
  obtain ⟨k, hjoined⟩ := tokenize_append htokens (congrArg Prod.snd tokenize_semicolon)
  have htext : Text.trimmed line ++ "\n" ++ ";" = Text.trimmed line ++ "\n;" :=
    String.append_assoc ..
  rw [htext, tokenize_semicolon] at hjoined
  have hhead : ∀ t ∈ ts.head?, t.kind ≠ .leftBrace := by
    rw [htokens] at hbrace
    cases ts with
    | nil => simp
    | cons t ts => exact hbrace
  let stop : Token := .down k ⟨.semicolon, ";", {}⟩
  have hkinds : ∀ t ∈ ts ++ [stop], t.kind ≠ .eof := by
    intro t ht
    obtain ht | ht := List.mem_append.mp ht
    · exact hts t ht
    · obtain rfl := List.mem_singleton.mp ht
      exact Token.Kind.noConfusion
  have hprogram : Derives .declarations (ts ++ [stop]) s.nextId [.expression e] n' :=
    hd.program_of_expression hhead rfl
  have hparse := hprogram.parse_eq hkinds
    (show (Token.down k (.endAt (Position.advance {} [';']))).kind = .eof from rfl)
  rw [List.append_assoc] at hparse
  unfold Program.ofSource
  rw [hjoined]
  dsimp only
  have hlist : List.map (Token.down k) [⟨.semicolon, ";", {}⟩, .endAt (Position.advance {} [';'])] =
      [stop] ++ [Token.down k (.endAt (Position.advance {} [';']))] := rfl
  rw [hlist, hparse]
  rfl

end Session

/-! ## Running -/

namespace Machine

variable {m : Machine}

/-- A statement of one expression does what evaluating the expression does, and reports the same. -/
theorem runTop_expression (htop : m.AtTop) (budget : Nat) (e : Expr) :
    m.runTop (budget + 1) (.expression e) =
      ((m.perform budget (.expression e)).1, (m.perform budget (.expression e)).2.diagnostics) := by
  have hrestores := (Moment.avoids_none ⟨.evaluate budget e, m⟩).restores
  have htop' : (final (Eval.evaluate budget e m)).AtTop := hrestores.atTop htop
  have hstep : execute (budget + 1) (.expression e) m =
      EStateM.bind (Eval.evaluate budget e) (fun _ => EStateM.pure Flow.normal) m := rfl
  unfold runTop perform evaluate
  dsimp only
  rw [hstep]
  unfold EStateM.bind
  cases hx : Eval.evaluate budget e m with
  | ok v m' => rfl
  | error failure m' =>
    -- Evaluation ends in the frame it started in, so going back to the global one does nothing.
    rw [hx] at htop'
    exact congrArg (fun k => (({ m' with current := k } : Machine), _)) (Eq.symm htop')

/-- A program of one expression does what evaluating the expression does, and reports the same, if
the output can be flushed then. -/
theorem perform_expression (htop : m.AtTop) {budget : Nat} {e : Expr}
    (hflush : (m.perform budget (.expression e)).1.sink.Flushable) :
    m.perform (budget + 1) (.program [.expression e]) =
      ((m.perform budget (.expression e)).1.later 1,
        ⟨none, (m.perform budget (.expression e)).2.diagnostics⟩) := by
  have hrun : m.runAll (budget + 1) [.expression e] =
      ((m.perform budget (.expression e)).1, (m.perform budget (.expression e)).2.diagnostics) := by
    unfold runAll runAll
    rw [runTop_expression htop]
    exact congrArg (Prod.mk _) (List.append_nil _)
  have hinterpret : m.interpret (budget + 1) [.expression e] =
      ((m.perform budget (.expression e)).1.later 1,
        (m.perform budget (.expression e)).2.diagnostics) := by
    rw [interpret_of_flushable (by rwa [hrun]), hrun]
  exact congrArg (fun r => (r.1, (⟨none, r.2⟩ : LineOutcome))) hinterpret

/-- An expression has a value if and only if nothing is reported. -/
theorem isSome_perform (m : Machine) (budget : Nat) (e : Expr) :
    (m.perform budget (.expression e)).2.value.isSome ↔
      (m.perform budget (.expression e)).2.diagnostics = [] := by
  unfold perform
  dsimp only
  cases (m.evaluate budget e).2 <;> simp

end Machine

namespace Session

variable {s : Session} {e : Expr} {budget first next : Nat}

/-- The same session, with its output flushed some more times. -/
def later (s : Session) (flushes : Nat) : Session :=
  { s with machine := s.machine.later flushes }

/-- To go on with a program of one expression is to go on with the expression, but for the flush at
the end of a program that is run. -/
theorem give_expression (htop : s.machine.AtTop) (forget : Forgetting)
    (hflush : ((Job.expression e).visit s.machine.distances).after.violations = [] →
      ((s.machine.prepare (.expression e)).perform budget (.expression e)).1.sink.Flushable) :
    ∃ flushes ≤ 1, s.give forget (budget + 1) ⟨first, next, .ok (.program [.expression e])⟩ =
      ((s.give forget budget ⟨first, next, .ok (.expression e)⟩).1.later flushes,
        ⟨none, (s.give forget budget ⟨first, next, .ok (.expression e)⟩).2.diagnostics⟩) := by
  have hprepare : s.machine.prepare (.program [.expression e]) =
      s.machine.prepare (.expression e) := rfl
  have htop' : (s.machine.prepare (.expression e)).AtTop := htop
  have hviolations : ((Job.program [.expression e]).visit s.machine.distances).after.violations =
      ((Job.expression e).visit s.machine.distances).after.violations := rfl
  have hcloses : (Job.program [.expression e]).createsClosure = (Job.expression e).createsClosure :=
    Bool.or_false _
  cases hclean : ((Job.expression e).visit s.machine.distances).after.violations.isEmpty with
  | false =>
    refine ⟨0, Nat.zero_le 1, ?_⟩
    rw [give_rejected rfl (hviolations ▸ hclean), give_rejected rfl hclean]
    rfl
  | true =>
    refine ⟨1, Nat.le_refl 1, ?_⟩
    have hperform := Machine.perform_expression htop' (hflush (List.isEmpty_iff.mp hclean))
    rw [give_accepted rfl (hviolations ▸ hclean), give_accepted rfl hclean, hprepare, hcloses,
      hperform]
    dsimp only
    split <;> rfl

/-- The value of an expression is given if and only if nothing is reported. -/
theorem isSome_give (s : Session) (forget : Forgetting) (budget first next : Nat) (e : Expr) :
    (s.give forget budget ⟨first, next, .ok (.expression e)⟩).2.value.isSome ↔
      (s.give forget budget ⟨first, next, .ok (.expression e)⟩).2.diagnostics = [] := by
  cases hclean : ((Job.expression e).visit s.machine.distances).after.violations.isEmpty with
  | false =>
    rw [give_rejected rfl hclean]
    rw [List.isEmpty_eq_false_iff] at hclean
    simp [hclean]
  | true =>
    rw [give_accepted rfl hclean]
    exact Machine.isSome_perform _ budget e

/-- A line that is one expression is run as the program that it becomes with a semicolon on the next
line, unless it starts with a brace, whatever the clock shows and whichever texts the output takes,
if it can be flushed. The program is one statement, the session that is left and what is reported
are the same, but for the flush at the end of a program, and there is a value if and only if nothing
is reported. -/
theorem line_runs_as_statement (s : Session) (hs : s.Reachable) (budget : Nat) (line : String)
    (e : Expr) (n' : Nat) (h : s.bareExpression? line = (some e, n'))
    (hbrace : ∀ t ∈ (tokenize (Text.trimmed line)).1.head?, t.kind ≠ .leftBrace)
    (hflush : s.machine.sink.Flushable) :
    let text := Text.trimmed line ++ "\n;"
    Program.ofSource text s.nextId = ⟨[.expression e], [], n'⟩ ∧
      (∃ flushes ≤ 1, s.run (budget + 1) text =
        ((s.runLine budget line).1.later flushes, (s.runLine budget line).2.diagnostics)) ∧
      ((s.runLine budget line).2.value.isSome ↔ (s.run (budget + 1) text).2 = []) := by
  intro text
  have hprogram : Program.ofSource text s.nextId = ⟨[.expression e], [], n'⟩ :=
    ofSource_of_bareExpression? h hbrace
  have hread : s.readSource text = ⟨s.nextId, n', .ok (.program [.expression e])⟩ := by
    unfold readSource
    rw [hprogram]
    rfl
  have hreadLine : s.readLine line = ⟨s.nextId, n', .ok (.expression e)⟩ := by
    unfold readLine
    rw [h]
  have htop : s.machine.AtTop := hs.atTop
  have hkept (hclean : ((Job.expression e).visit s.machine.distances).after.violations = []) :
      ((s.machine.prepare (.expression e)).perform budget (.expression e)).1.sink.Flushable := by
    obtain ⟨d', hfit⟩ := hs.fit
    have hproper := hreadLine ▸ s.readLine_proper line
    have hrecord : s.OnRecord .all budget (.expression e) := onRecord_all
    obtain ⟨S, _, _, _, _, hm, _⟩ := hfit.start_job hproper rfl hclean hrecord
    intro texts flushes
    rw [hm.onFlush_perform htop budget]
    exact hflush texts flushes
  have hline := runLineWith_eq_give Distances.forgetFrom budget s line
  rw [runLineWith_forgetFrom, hreadLine] at hline
  have hrun := runWith_eq_give Distances.forgetFrom (budget + 1) s text
  obtain ⟨flushes, hle, hgive⟩ := give_expression htop Distances.forgetFrom hkept
  rw [runWith_forgetFrom, hread, hgive, ← hline] at hrun
  obtain ⟨hsession, houtcome⟩ := Prod.mk.inj hrun
  have hdiagnostics : (s.run (budget + 1) text).2 = (s.runLine budget line).2.diagnostics :=
    congrArg LineOutcome.diagnostics houtcome
  refine ⟨hprogram, ⟨flushes, hle, Prod.ext hsession hdiagnostics⟩, ?_⟩
  rw [hdiagnostics, hline]
  exact isSome_give s _ budget _ _ e

/-- The tokens of a name. -/
theorem tokenize_name :
    tokenize (Text.trimmed "x ") =
      ([⟨.identifier, "x", {}⟩, .endAt (Position.advance {} ['x'])], []) :=
  tokenize_single rfl rfl

/-- A line that is a name is an expression. -/
theorem bareExpression?_name :
    (start {} {}).bareExpression? "x " = (some (.reference ⟨0, ⟨.identifier, "x", {}⟩⟩), 1) := by
  have hd : Derives .expression [⟨.identifier, "x", {}⟩] 0
      (.reference ⟨0, ⟨.identifier, "x", {}⟩⟩) 1 := .expression_of_call (.bare (.reference rfl))
  have hdone := hd.parses [] (.endAt (Position.advance {} ['x'])) [] .nil
  rw [bareExpression?_of_tokenize (start {} {}) "x " rfl (by decide) tokenize_name]
  exact (parseExpression?_eq_some_iff _ _ _ _).mpr ⟨_, hdone, rfl, rfl, rfl⟩

/-- A name at the prompt is run as a statement, with the same report if nothing has that name. -/
theorem name_runs_as_statement :
    (start {} {}).bareExpression? "x " = (some (.reference ⟨0, ⟨.identifier, "x", {}⟩⟩), 1) ∧
      ∃ flushes ≤ 1, (start {} {}).run 3 (Text.trimmed "x " ++ "\n;") =
        (((start {} {}).runLine 2 "x ").1.later flushes,
          ((start {} {}).runLine 2 "x ").2.diagnostics) := by
  refine ⟨bareExpression?_name, ?_⟩
  have hbrace : ∀ t ∈ (tokenize (Text.trimmed "x ")).1.head?, t.kind ≠ .leftBrace := by
    rw [tokenize_name]
    decide
  exact (line_runs_as_statement (start {} {}) ⟨{}, {}, [], rfl⟩ 2 "x " _ _ bareExpression?_name
    hbrace fun _ _ => rfl).2.1

end Session

end Lox
