import Lox.Proofs.Grammar.Language
import Lox.Proofs.Grammar.Numbering
import Lox.Proofs.Session.Turns

/-!
# What is read in a turn

Whatever a session is given, reading it gives out numbers from the first free one on. It leads to a
job whose references have these numbers, each of them once, or to a report with errors that keep a
program from running, and with no others (`Session.read?_proper`). The job is an expression that is
a line at the prompt, or a program that is parsed from the tokens of what is given
(`Session.job_of_read?`). A job that makes no closure has no function in it (`Job.not_function`).
-/

namespace Lox

open Scoping

namespace Grammar

/-- Parsing a program only gives out numbers. -/
theorem le_nextId_parse (ts : List Token) (n : Nat) : n ≤ (parse ts n).nextId :=
  (statements_reads (.start ts n)).1.nextId

/-- A program that is parsed without a complaint is tidy. -/
theorem parse_tidy {ts : List Token} {n : Nat} (h : (parse ts n).complaints = []) :
    (Piece.stmts (parse ts n).statements).Tidy n (parse ts n).nextId :=
  ((statements_reads (.start ts n)).2 h).2.tidy

/-- Parsing an expression only gives out numbers. -/
theorem le_nextId_parseExpression? (ts : List Token) (n : Nat) :
    n ≤ (parseExpression? ts n).2 := by
  have h := expression_reads (.start ts n)
  unfold parseExpression?
  cases hx : expression (.start ts n) with
  | done e t ht =>
    rw [hx] at h
    exact h.1.nextId
  | failed c t ht =>
    rw [hx] at h
    exact h.nextId

/-- An expression that is parsed is tidy. -/
theorem parseExpression?_tidy {ts : List Token} {n n' : Nat} {e : Expr}
    (h : parseExpression? ts n = (some e, n')) : (Piece.expr e).Tidy n n' := by
  obtain ⟨t, hdone, _, hclean, rfl⟩ := (parseExpression?_eq_some_iff ts n e n').mp h
  obtain ⟨us, _, hd⟩ := ((expression_reads _).of_done hdone).2 hclean
  exact hd.tidy

end Grammar

/-- The tokens of what a session is given in a turn. -/
def Turn.scanned : Turn → List Token
  | .source _ text | .line _ text => (tokenize text).1
  | .tokens _ ts => ts
  | .drain => []

/-- A job that is tidy, whatever distances are known, or a report with errors that keep a program
from running, and with no others. -/
structure Reading.Proper (n : Nat) (r : Reading) : Prop where
  /-- The numbers of the references were free. -/
  le_first : n ≤ r.first
  /-- Numbers are only given out. -/
  first_le : r.first ≤ r.next
  /-- The references of a job have these numbers. -/
  tidy : ∀ j, r.job = .ok j → ∀ known, (j.visit known).Tidy r.first r.next
  /-- A report keeps a program from running. -/
  hasStatic : ∀ ds, r.job = .error ds → Diagnostics.hasStatic ds
  /-- A report is about the text only. -/
  isStatic : ∀ ds, r.job = .error ds → ∀ d ∈ ds, d.isStatic

namespace Reading.Proper

variable {n : Nat} {r : Reading}

/-- A proper reading takes no number back. -/
theorem le_next (h : r.Proper n) : n ≤ r.next :=
  Nat.le_trans h.le_first h.first_le

/-- A reading of a tidy job is proper. -/
theorem of_ok {j : Job} (hfirst : n ≤ r.first) (hnext : r.first ≤ r.next) (hj : r.job = .ok j)
    (htidy : j.piece.Tidy r.first r.next) : r.Proper n where
  le_first := hfirst
  first_le := hnext
  tidy j' hj' known := by
    obtain rfl : j = j' := Except.ok.inj (hj.symm.trans hj')
    exact htidy _ _ _
  hasStatic ds hds := by simp [hj] at hds
  isStatic ds hds := by simp [hj] at hds

/-- A reading with static errors only is proper. -/
theorem of_error {ds : Diagnostics} (hfirst : n ≤ r.first) (hnext : r.first ≤ r.next)
    (hds : r.job = .error ds) (hstatic : Diagnostics.hasStatic ds)
    (hall : ∀ d ∈ ds, d.isStatic) : r.Proper n where
  le_first := hfirst
  first_le := hnext
  tidy j hj := by simp [hds] at hj
  hasStatic ds' hds' := Except.error.inj (hds.symm.trans hds') ▸ hstatic
  isStatic ds' hds' := Except.error.inj (hds.symm.trans hds') ▸ hall

end Reading.Proper

namespace Session

/-- What is reported about a text keeps a program from running. -/
theorem isStatic_ofSource (text : String) (n : Nat) :
    ∀ d ∈ (Program.ofSource text n).diagnostics, d.isStatic := by
  intro d hd
  obtain hd | hd := List.mem_append.mp hd
  · obtain ⟨⟨p, f⟩, _, rfl⟩ := List.mem_map.mp hd
    rfl
  · obtain ⟨c, _, rfl⟩ := List.mem_map.mp hd
    rfl

/-- A text about which nothing is reported is parsed without a complaint. -/
theorem complaints_ofSource {text : String} {n : Nat}
    (h : ¬Diagnostics.hasStatic (Program.ofSource text n).diagnostics) :
    (Grammar.parse (tokenize text).1 n).complaints = [] := by
  rw [Diagnostics.hasStatic, List.any_eq_true] at h
  push Not at h
  refine List.eq_nil_iff_forall_not_mem.mpr fun c hc => ?_
  exact h _ (List.mem_append_right _ (List.mem_map_of_mem hc)) rfl

/-- The reading of a source is proper. -/
theorem readSource_proper (s : Session) (text : String) :
    (s.readSource text).Proper s.nextId := by
  have hle : s.nextId ≤ (s.readSource text).next := Grammar.le_nextId_parse _ _
  by_cases h : Diagnostics.hasStatic (Program.ofSource text s.nextId).diagnostics
  · exact .of_error (Nat.le_refl _) hle (if_pos h) h (isStatic_ofSource text s.nextId)
  · exact .of_ok (Nat.le_refl _) hle (if_neg h) (Grammar.parse_tidy (complaints_ofSource h))

/-- The reading of tokens is proper. -/
theorem readTokens_proper (s : Session) (ts : List Token) :
    (s.readTokens ts).Proper s.nextId := by
  have hle : s.nextId ≤ (s.readTokens ts).next := Grammar.le_nextId_parse _ _
  cases h : (Grammar.parse ts s.nextId).complaints with
  | nil =>
    have hempty : (Grammar.parse ts s.nextId).complaints.isEmpty := by rw [h]; rfl
    exact .of_ok (Nat.le_refl _) hle (if_pos hempty) (Grammar.parse_tidy h)
  | cons c cs =>
    have hempty : ¬(Grammar.parse ts s.nextId).complaints.isEmpty := by rw [h]; simp
    refine .of_error (Nat.le_refl _) hle (if_neg hempty) (by rw [h]; rfl) fun d hd => ?_
    obtain ⟨c', _, rfl⟩ := List.mem_map.mp hd
    rfl

/-- Trying a line as an expression only gives out numbers. -/
theorem le_nextId_bareExpression? (s : Session) (line : String) :
    s.nextId ≤ (s.bareExpression? line).2 := by
  unfold bareExpression?
  dsimp only
  split
  · exact Nat.le_refl _
  · exact Nat.le_refl _
  · split
    · exact Grammar.le_nextId_parseExpression? _ _
    · exact Nat.le_refl _

/-- A line of tokens that does not end in a semicolon is tried as an expression. -/
theorem bareExpression?_of_tokenize (s : Session) (line : String) {last : Char}
    {tokens : List Token}
    (hlast : (Text.trimRight line.toList).getLast? = some last) (hstop : last ≠ ';')
    (htokens : tokenize (String.ofList (Text.trimRight line.toList)) = (tokens, [])) :
    s.bareExpression? line = Grammar.parseExpression? tokens s.nextId := by
  unfold bareExpression?
  dsimp only
  rw [hlast, htokens]
  split
  · contradiction
  · next heq => exact absurd (Option.some.inj heq) hstop
  · rfl

/-- A line that is an expression is scanned without a fault, and its tokens are parsed as the
expression. -/
theorem parse_of_bareExpression? {s : Session} {line : String} {e : Expr} {n' : Nat}
    (h : s.bareExpression? line = (some e, n')) :
    ∃ tokens, tokenize (String.ofList (Text.trimRight line.toList)) = (tokens, []) ∧
      Grammar.parseExpression? tokens s.nextId = (some e, n') := by
  unfold bareExpression? at h
  dsimp only at h
  split at h
  · simp at h
  · simp at h
  · split at h
    · next tokens hscan => exact ⟨tokens, hscan, h⟩
    · simp at h

/-- A line that is an expression is tidy. -/
theorem bareExpression?_tidy {s : Session} {line : String} {e : Expr} {n' : Nat}
    (h : s.bareExpression? line = (some e, n')) : (Piece.expr e).Tidy s.nextId n' := by
  obtain ⟨tokens, _, hparse⟩ := parse_of_bareExpression? h
  exact Grammar.parseExpression?_tidy hparse

/-- The reading of a line is proper. -/
theorem readLine_proper (s : Session) (text : String) : (s.readLine text).Proper s.nextId := by
  have hle := s.le_nextId_bareExpression? text
  unfold readLine
  split
  · next e n' h =>
    rw [h] at hle
    refine ⟨Nat.le_refl _, hle, fun j hj known => ?_, by simp, by simp⟩
    obtain rfl := Except.ok.inj hj
    exact bareExpression?_tidy h _ _ _
  · next n' h =>
    rw [h] at hle
    have hproper := readSource_proper { s with nextId := n' } text
    exact { hproper with le_first := Nat.le_trans hle hproper.le_first }

/-- Whatever is read in a turn is proper. -/
theorem read?_proper {s : Session} {t : Turn} {r : Reading} (h : s.read? t = some r) :
    r.Proper s.nextId := by
  cases t with
  | source budget text => exact Option.some.inj h ▸ readSource_proper s text
  | line budget text => exact Option.some.inj h ▸ readLine_proper s text
  | tokens budget ts => exact Option.some.inj h ▸ readTokens_proper s ts
  | drain => contradiction

/-- The job of a source is its program, which is parsed without a complaint. -/
theorem job_of_readSource {s : Session} {text : String} {j : Job}
    (h : (s.readSource text).job = .ok j) :
    ∃ n, (Grammar.parse (tokenize text).1 n).complaints = [] ∧
      j = .program (Grammar.parse (tokenize text).1 n).statements := by
  unfold readSource at h
  dsimp only at h
  split at h
  · contradiction
  · next hclean => exact ⟨_, complaints_ofSource hclean, (Except.ok.inj h).symm⟩

/-- A job is an expression that is a line at the prompt, or a program that is parsed without a
complaint from the tokens of what is given. -/
theorem job_of_read? {s : Session} {t : Turn} {r : Reading} {j : Job} (hread : s.read? t = some r)
    (hjob : r.job = .ok j) :
    (∃ budget line e n, t = .line budget line ∧ s.bareExpression? line = (some e, n) ∧
      j = .expression e) ∨
    ∃ n, (Grammar.parse t.scanned n).complaints = [] ∧
      j = .program (Grammar.parse t.scanned n).statements := by
  cases t with
  | source budget text =>
    obtain rfl := Option.some.inj hread
    exact .inr (job_of_readSource hjob)
  | line budget text =>
    obtain rfl := Option.some.inj hread
    unfold readLine at hjob
    split at hjob
    · next e n hbare => exact .inl ⟨budget, text, e, n, rfl, hbare, (Except.ok.inj hjob).symm⟩
    · exact .inr (job_of_readSource hjob)
  | tokens budget ts =>
    obtain rfl := Option.some.inj hread
    unfold readTokens at hjob
    dsimp only at hjob
    split at hjob
    · next hclean =>
      exact .inr ⟨_, List.isEmpty_iff.mp hclean, (Except.ok.inj hjob).symm⟩
    · contradiction
  | drain => contradiction

section Parsed

variable {s : Session} {ts : List Token} {ss : List Stmt} {n' : Nat}

/-- Tokens that are parsed without a complaint are run as their tree. -/
theorem runTokens_of_parse (h : Grammar.parse ts s.nextId = ⟨ss, [], n'⟩) (budget : Nat) :
    s.runTokens budget ts =
      ((s.give .none budget ⟨s.nextId, n', .ok (.program ss)⟩).1,
        (s.give .none budget ⟨s.nextId, n', .ok (.program ss)⟩).2.diagnostics) := by
  have hread : s.readTokens ts = ⟨s.nextId, n', .ok (.program ss)⟩ := by
    unfold readTokens
    rw [h]
    rfl
  have hgive := runTokens_eq_give budget s ts
  rw [hread] at hgive
  rw [← hgive]

/-- A source whose tokens are parsed without a complaint is run as their tree. -/
theorem run_of_parse {text : String} (htext : tokenize text = (ts, []))
    (h : Grammar.parse ts s.nextId = ⟨ss, [], n'⟩) (budget : Nat) :
    s.run budget text =
      ((s.give Distances.forgetFrom budget ⟨s.nextId, n', .ok (.program ss)⟩).1,
        (s.give Distances.forgetFrom budget ⟨s.nextId, n', .ok (.program ss)⟩).2.diagnostics) := by
  have hread : s.readSource text = ⟨s.nextId, n', .ok (.program ss)⟩ := by
    unfold readSource Program.ofSource
    rw [htext]
    dsimp only
    rw [h]
    rfl
  have hgive := runWith_eq_give Distances.forgetFrom budget s text
  rw [hread] at hgive
  rw [← hgive]
  rfl

end Parsed

end Session

/-! ## Closures -/

/-- Whether a piece makes a closure when it runs. -/
def Scoping.Piece.createsClosure : Piece → Bool
  | .expr e => e.createsClosure
  | .exprs es => exprsCreateClosure es
  | .entries es => entriesCreateClosure es
  | .declarators ds => ds.any Declarator.createsClosure
  | .stmt s => s.createsClosure
  | .stmts ss => stmtsCreateClosure ss
  | .superclasses .. | .superclass _ => false
  | .function _ | .methods _ | .class _ => true

/-- A piece that makes no closure has only parts that make none. -/
theorem Scoping.Visit.createsClosure_parts {v : Visit} (h : v.piece.createsClosure = false) :
    ∀ p ∈ v.parts, p.piece.createsClosure = false := by
  obtain ⟨ctx, piece, w, around⟩ := v
  cases piece with
  | expr e =>
    cases e <;> simp_all [Piece.createsClosure, Expr.createsClosure, Visit.parts, Visit.exprParts]
  | exprs es => cases es <;> simp_all [Piece.createsClosure, exprsCreateClosure, Visit.parts]
  | entries es =>
    obtain _ | ⟨⟨key, e⟩, es⟩ := es <;>
      simp_all [Piece.createsClosure, entriesCreateClosure, Visit.parts]
  | declarators ds =>
    obtain _ | ⟨⟨name, _ | e⟩, ds⟩ := ds <;>
      simp_all [Piece.createsClosure, Declarator.createsClosure, Visit.parts]
  | superclasses name xs => cases xs <;> simp [Piece.createsClosure, Visit.parts]
  | superclass x => simp [Visit.parts]
  | stmt s =>
    cases s with
    | branch c t e =>
      cases e <;> simp_all [Piece.createsClosure, Stmt.createsClosure, Visit.parts, Visit.stmtParts]
    | result keyword e =>
      cases e <;> simp_all [Piece.createsClosure, Stmt.createsClosure, Visit.parts, Visit.stmtParts]
    | _ => simp_all [Piece.createsClosure, Stmt.createsClosure, Visit.parts, Visit.stmtParts]
  | stmts ss => cases ss <;> simp_all [Piece.createsClosure, stmtsCreateClosure, Visit.parts]
  | function f => contradiction
  | methods fs => contradiction
  | «class» c => contradiction

/-- No function is visited for a job that makes no closure. -/
theorem Job.not_function {j : Job} (h : j.createsClosure = false) {known : Distances} {v : Visit}
    (hv : v.Within (j.visit known)) (f : FunctionDecl) : v.piece ≠ .function f := by
  have hroot : (j.visit known).piece.createsClosure = false := by
    cases j <;> exact h
  have hall := Visit.All.of_closed hroot fun _ => Visit.createsClosure_parts
  intro hpiece
  have hnone : v.piece.createsClosure = false := hall v hv
  rw [hpiece] at hnone
  contradiction

end Lox
