import Lox.Proofs.Scoping.Moving
import Lox.Proofs.Session.Companions
import Lox.Proofs.Session.StaticErrors
import Lox.Proofs.Token.Joining

/-!
# Sources in pieces

Whether a script is run in one go or in two pieces cannot be seen. The tokens of the joined text are
those of the two pieces, its tree is the two trees in a row, and scoping is back where it started
between them. The statements of the first piece run with a table that has the distances of the
second piece already, which none of their references has; those of the second run with a table from
which distances of the first may have been dropped in between. In both cases the machine does the
same. What is left is that the second piece stands further down in the joined text.
-/

namespace Lox

open Scoping Eval Grammar

/-! ## Reading -/

/-- Declarations behind declarations are declarations. -/
theorem Grammar.Derives.append {ts us : List Token} {n n₁ n₂ : Nat} {ss ss' : List Stmt}
    (h : Derives .declarations ts n ss n₁) (h' : Derives .declarations us n₁ ss' n₂) :
    Derives .declarations (ts ++ us) n (ss ++ ss') n₂ := by
  induction ss generalizing ts n with
  | nil =>
    cases h with
    | noDeclarations => exact h'
  | cons s ss ih =>
    cases h with
    | moreDeclarations hs hss =>
      rw [List.append_assoc]
      exact .moreDeclarations hs (ih hss)

/-- A source that is scanned, parsed and scoped without errors. It does not matter which number its
first reference has, and which distances are known. -/
structure Accepted (source : String) : Prop where
  /-- It is scanned and parsed without errors. -/
  read : (Program.ofSource source 0).diagnostics = []
  /-- It is scoped without errors. -/
  resolved : (Scoping.resolve {} (Program.ofSource source 0).statements).2 = []

/-- The tokens of an accepted source are a program, whatever number comes first. -/
theorem Accepted.derives {source : String} (h : Accepted source) :
    ∃ ts last, tokenize source = (ts ++ [last], []) ∧ (∀ t ∈ ts, t.kind ≠ .eof) ∧
      last.kind = .eof ∧ ∀ n, ∃ ss n', Derives .declarations ts n ss n' ∧
        (Scoping.resolve {} ss).2 = [] := by
  obtain ⟨ts, last, htokens, -, hlast, hts⟩ := tokenize_ends source
  have hread : (tokenize source).2 ++
      (parse (tokenize source).1 0).complaints.map .ofComplaint = [] := h.read
  obtain ⟨hfaults, hcomplaints⟩ := List.append_eq_nil_iff.mp hread
  rw [List.map_eq_nil_iff, htokens] at hcomplaints
  refine ⟨ts, last, Prod.ext htokens hfaults, hts, hlast, fun n => ?_⟩
  have hmoved := (derives_of_complaints_eq_nil hts hlast hcomplaints).moved id n
  rw [show Token.moved id = id from rfl, List.map_id] at hmoved
  refine ⟨_, _, hmoved, ?_⟩
  have hresolved : (Scoping.resolve {} (parse (tokenize source).1 0).statements).2 = [] :=
    h.resolved
  rw [htokens] at hresolved
  show (Scoping.resolve {} (recastStmts (.moved id n) [] _)).2 = []
  rw [resolve_moved, hresolved]
  rfl

/-- A source whose tokens are a program of the grammar without violations is accepted. -/
theorem Accepted.of_derives {source : String} {ts : List Token} {last : Token} {ss : List Stmt}
    {n' : Nat}
    (htokens : tokenize source = (ts ++ [last], [])) (hts : ∀ t ∈ ts, t.kind ≠ .eof)
    (hlast : last.kind = .eof) (h : Derives .declarations ts 0 ss n')
    (hclean : (Scoping.resolve {} ss).2 = []) : Accepted source := by
  have hprogram : Program.ofSource source 0 = ⟨ss, [], n'⟩ := by
    unfold Program.ofSource
    rw [htokens]
    dsimp only
    rw [h.parse_eq hts hlast]
    rfl
  exact ⟨by rw [hprogram], by rw [hprogram, hclean]⟩

/-! ## Scoping -/

/-- The walk over more statements is one walk after the other. -/
theorem Scoping.walkStmts_append (ctx : Context) (ss ss' : List Stmt) (w : Walk) :
    walkStmts ctx (ss ++ ss') w = walkStmts ctx ss' (walkStmts ctx ss w) := by
  induction ss generalizing w with
  | nil => rfl
  | cons s ss ih => exact ih _

namespace Job

variable {ss ss' : List Stmt} {known : Distances}

/-- Between two statements at the top level scoping is back where it started, but for the distances
that it found. -/
theorem after_append (hclean : ((Job.program ss).visit known).after.violations = [])
    (ss' : List Stmt) :
    ((Job.program (ss ++ ss')).visit known).after =
      ((Job.program ss').visit ((Job.program ss).visit known).after.distances).after := by
  have hscopes : ((Job.program ss).visit known).after.scopes = [] :=
    List.eq_nil_of_length_eq_zero ((Visit.scopes_after _).1.2.trans rfl)
  have hbetween : walkStmts {} ss { distances := known } =
      { distances := ((Job.program ss).visit known).after.distances } := by
    show ((Job.program ss).visit known).after = _
    generalize ((Job.program ss).visit known).after = w at hscopes hclean ⊢
    obtain ⟨scopes, distances, violations⟩ := w
    obtain rfl : scopes = [] := hscopes
    obtain rfl : violations = [] := hclean
    rfl
  show walkStmts {} (ss ++ ss') { distances := known } = _
  rw [walkStmts_append, hbetween]
  rfl

/-- Scoping finds the same where tokens stand elsewhere. -/
theorem after_moved (move : Position → Position) (ss : List Stmt) (known : Distances) :
    ((Job.program (recastStmts (.moved move 0) [] ss)).visit known).after =
      ((Job.program ss).visit known).after.moved move 0 := by
  have hstart : Walk.moved move 0 { distances := known } = { distances := known } := by
    simp [Walk.moved, Distances.renumber]
  have hwalk := walkStmts_moved move 0 {} [] ss { distances := known }
  rwa [hstart] at hwalk

/-- The table that scoping finds for two programs in a row. -/
def pairTable (known : Distances) (ss ss' : List Stmt) : Distances :=
  ((Job.program ss').visit ((Job.program ss).visit known).after.distances).after.distances

/-- Scoping finds for two programs in a row, of which the second has moved, what it finds for one
and then for the other. -/
theorem after_append_moved (hclean : (Scoping.resolve {} ss).2 = [])
    (hclean' : (Scoping.resolve {} ss').2 = []) (move : Position → Position) (known : Distances) :
    let joined := Job.program (ss ++ recastStmts (.moved move 0) [] ss')
    (joined.visit known).after.distances = pairTable known ss ss' ∧
      (joined.visit known).after.violations = [] := by
  intro joined
  have hfirst : ((Job.program ss).visit known).after.violations = [] :=
    (violations_eq _ known {}).trans hclean
  have hsecond (d : Distances) : ((Job.program ss').visit d).after.violations = [] :=
    (violations_eq _ d {}).trans hclean'
  have hjoined : (joined.visit known).after = Walk.moved move 0 _ :=
    (after_append hfirst _).trans (after_moved move ss' _)
  rw [hjoined]
  simp [Walk.moved, Distances.renumber, pairTable, hsecond]

end Job

/-! ## Running -/

namespace Machine

/-- The run of more statements is one run after the other. -/
theorem runAll_append (budget : Nat) (m : Machine) (ss ss' : List Stmt) :
    m.runAll budget (ss ++ ss') =
      (((m.runAll budget ss).1.runAll budget ss').1,
        (m.runAll budget ss).2 ++ ((m.runAll budget ss).1.runAll budget ss').2) := by
  induction ss generalizing m with
  | nil => rfl
  | cons s ss ih => simp only [List.cons_append, runAll, ih, List.append_assoc]

/-- To run statements behind others is to run one part, without a flush, and then the other. -/
theorem interpret_append (budget : Nat) (m : Machine) (ss ss' : List Stmt) :
    m.interpret budget (ss ++ ss') =
      (((m.runAll budget ss).1.interpret budget ss').1,
        (m.runAll budget ss).2 ++ ((m.runAll budget ss).1.interpret budget ss').2) := by
  simp only [interpret, runAll_append, List.append_assoc]

end Machine

/-- A position is the same, or it is some lines further down. -/
def Position.Further (k : Nat) (p p' : Position) : Prop :=
  p' = p ∨ p' = p.down k

/-- A position may stay where it is. -/
theorem Position.Further.refl (k : Nat) (p : Position) : p.Further k p :=
  .inl rfl

/-- Two reports of a run have the same message, and the second points at the same line or some lines
further down. -/
inductive Diagnostic.Further (k : Nat) : Diagnostic → Diagnostic → Prop
  | same (d : Diagnostic) (h : d.isDynamic) : Further k d d
  | down (line : Nat) (message : String) :
    Further k (.runtime line message) (.runtime (line + k) message)

/-- How two programs differ of which the second stands further down, and is run without the flush
before it. -/
abbrev Scoping.Likeness.further (k : Nat) (table : Distances) : Likeness :=
  .plain (Position.Further k) id table (.refl k) Function.injective_id 1

/-- Diagnostics of a shifted text are further on. -/
theorem Eval.Reports.further {k : Nat} {table : Distances} {d d' : Diagnostic}
    (h : Reports (.further k table) d d') : d.Further k d' := by
  obtain ⟨failure, rfl, rfl⟩ | ⟨p, _, message, rfl | rfl, rfl, rfl⟩ := h.cases_plain
  · exact .same _ (Diagnostic.isDynamic_ofFailure failure)
  · exact .same _ rfl
  · exact .down _ _

/-- A program that stands further down is like the program. -/
theorem alike_further (k : Nat) (table : Distances) (ss : List Stmt) :
    Alike (.further k table) [] (.stmts ss)
      (.stmts (recastStmts (.moved (Position.down k) 0) [] ss)) := by
  have htokens (t : Token) : (Likeness.further k table).Tokens t (t.moved (Position.down k)) :=
    ⟨rfl, rfl, .inr rfl⟩
  have hsuits : Visit.All (Recasting.Suits (.moved (Position.down k) 0) (.further k table))
      ((Job.program ss).visit {}) :=
    fun v _ => Recasting.suits_of_unmarked (fun _ => rfl) htokens htokens
      (fun _ x => htokens x.name) fun id _ => (Nat.zero_add id).symm
  exact Visit.alike_recast htokens hsuits

namespace Session

variable {s : Session} {d' : Distances} {ts us : List Token} {ss ss' : List Stmt} {n₁ n₂ : Nat}

/-- A session may be its own twin. -/
theorem Fit.self (h : s.Fit .all d') : s.Fit .all s.machine.distances :=
  .of_inv h.inv h.current rfl rfl h.below h.below fun _ _ hv _ => hv.imp fun _ hv =>
    ⟨hv.seen, hv.shapely, hv.recorded, hv.recorded, hv.ids⟩

/-- What was read of a program of the grammar is proper. -/
theorem proper_of_derives {n : Nat} (h : Derives .declarations ts n ss n₁) :
    Reading.Proper n ⟨n, n₁, .ok (.program ss)⟩ :=
  .of_ok (Nat.le_refl _) (h.tidy {} {} []).spans.le rfl fun _ _ _ => h.tidy _ _ _

/-- A program without violations is run, and nothing is forgotten. -/
theorem give_keeping (hclean : ((Job.program ss).visit s.machine.distances).after.violations = [])
    (budget first next : Nat) :
    s.give .none budget ⟨first, next, .ok (.program ss)⟩ =
      (⟨((s.machine.prepare (.program ss)).interpret budget ss).1, next⟩,
        ⟨none, ((s.machine.prepare (.program ss)).interpret budget ss).2⟩) := by
  rw [give_accepted rfl (List.isEmpty_iff.mpr hclean)]
  simp only [Machine.forgetBy_none, ite_self]
  rfl

/-- A session that was given a script in pieces and one that was given it in one go are the same,
but for the lines of the second piece and the flush between the pieces. -/
structure SameButLines (k : Nat) (done one : Session × Diagnostics) : Prop where
  /-- The first free number. -/
  nextId : one.1.nextId = done.1.nextId
  /-- The machines. -/
  machines : Similar (Position.Further k) id 1 done.1.machine one.1.machine
  /-- What was reported. -/
  diagnostics : List.Forall₂ (Diagnostic.Further k) done.2 one.2

/-- The first program does with the table of both programs what it does with its own. -/
theorem Fit.interpret_pairTable (h : s.Fit .all s.machine.distances)
    (hfirst : Derives .declarations ts s.nextId ss n₁)
    (hsecond : Derives .declarations us n₁ ss' n₂)
    (hclean : ((Job.program ss).visit s.machine.distances).after.violations = []) (budget : Nat) :
    let done := (s.machine.prepare (.program ss)).interpret budget ss
    (∃ S : Setting, S.Inv done.1) ∧
      done.1.current = done.1.globals ∧
      done.1.distances = ((Job.program ss).visit s.machine.distances).after.distances ∧
      done.1.sink.onFlush = s.machine.sink.onFlush ∧
      (s.machine.withTable (Job.pairTable s.machine.distances ss ss')).interpret budget ss =
        (done.1.withTable (Job.pairTable s.machine.distances ss ss'), done.2) := by
  intro done
  have htidy : ((Job.program ss).visit s.machine.distances).Tidy s.nextId n₁ := hfirst.tidy _ _ _
  have hagree : ((Job.program ss).visit s.machine.distances).after.distances.AgreeBelow n₁
      (Job.pairTable s.machine.distances ss ss') := Job.agreeBelow_after (hsecond.tidy _ _ _)
  have hrecorded : Visit.All (Visit.Recorded (Job.pairTable s.machine.distances ss ss'))
      ((Job.program ss).visit s.machine.distances) := fun v hv =>
    (Job.recorded_after htidy h.below hclean v hv).congr fun id hid =>
      hagree id (htidy.spans.bounds id (Visit.ids_within hv hid)).2
  have hrecord : s.OnRecord .all budget (.program ss) := onRecord_all
  obtain ⟨S, _, _, htable, _, hm, hdoes, _⟩ :=
    h.start_with (proper_of_derives hfirst) rfl hclean hrecord
    ((Job.agreeBelow_after htidy).trans (hagree.mono htidy.spans.le)) hrecorded
  have hlock := hdoes.lockstep _ htable
  refine ⟨⟨S, hdoes.inv⟩, ?_, hdoes.grown.distances,
    hm.onFlush_perform h.current budget (.program ss), ?_⟩
  · exact hdoes.grown.current.trans (h.current.trans hdoes.grown.globals.symm)
  · obtain ⟨hmachine, houtcome⟩ := Prod.mk.inj hlock
    exact Prod.ext hmachine (congrArg LineOutcome.diagnostics houtcome)

/-- When the second program starts, the machine is the same in one go and in pieces, but for the
flush between the pieces. -/
theorem Fit.resembles_between (h : s.Fit .all s.machine.distances)
    (hfirst : Derives .declarations ts s.nextId ss n₁)
    (hsecond : Derives .declarations us n₁ ss' n₂)
    (hclean : ((Job.program ss).visit s.machine.distances).after.violations = [])
    (hflush : s.machine.sink.Flushable) (budget k : Nat) :
    let table := Job.pairTable s.machine.distances ss ss'
    let done := (s.machine.prepare (.program ss)).interpret budget ss
    let between := (s.machine.withTable table).runAll budget ss
    done.1.sink.Flushable ∧ between.2 = done.2 ∧
      Resembles (.further k table) (fun _ => false) (done.1.withTable table) between.1 := by
  intro table done between
  obtain ⟨⟨S, hinv⟩, _, _, hanswers, hlock⟩ := h.interpret_pairTable hfirst hsecond hclean budget
  have hflush' : done.1.sink.Flushable := fun texts flushes =>
    (congrFun (congrFun hanswers texts) flushes).trans (hflush texts flushes)
  have hends : ((s.machine.withTable table).interpret budget ss).1.sink.Flushable := by
    rw [hlock]
    exact hflush'
  rw [Machine.interpret_of_flushable hends] at hlock
  obtain ⟨(hmachine : between.1.later 1 = done.1.withTable table), hds⟩ := Prod.mk.inj hlock
  refine ⟨hflush', hds, ?_⟩
  have htable' : (Likeness.further k table).table' = table := Distances.renumber_id _
  have hself : Resembles (.further k table) (fun _ => false)
      ((done.1.withTable table).withSink (between.1.sink.later 1))
      ((done.1.withTable (Likeness.further k table).table').withSink between.1.sink) :=
    .refl hinv (fun _ _ _ _ _ _ => rfl) between.1.sink
  rw [htable', ← hmachine] at hself
  rw [← hmachine]
  exact hself

/-- Where nothing is forgotten, two programs in a row run as they do one after the other. -/
theorem Fit.give_append (h : s.Fit .all s.machine.distances)
    (hfirst : Derives .declarations ts s.nextId ss n₁)
    (hsecond : Derives .declarations us n₁ ss' n₂)
    (hclean : (Scoping.resolve {} ss).2 = []) (hclean' : (Scoping.resolve {} ss').2 = [])
    (hflush : s.machine.sink.Flushable) (budget k : Nat) :
    let joined := ss ++ recastStmts (.moved (Position.down k) 0) [] ss'
    let one := s.give .none budget ⟨s.nextId, n₂, .ok (.program joined)⟩
    let before := s.give .none budget ⟨s.nextId, n₁, .ok (.program ss)⟩
    let after := before.1.give .none budget ⟨n₁, n₂, .ok (.program ss')⟩
    SameButLines k (after.1, before.2.diagnostics ++ after.2.diagnostics)
      (one.1, one.2.diagnostics) := by
  intro joined one before after
  have hfound : ((Job.program ss).visit s.machine.distances).after.violations = [] :=
    (Job.violations_eq _ _ {}).trans hclean
  obtain ⟨htable, hfoundJoined⟩ :=
    Job.after_append_moved hclean hclean' (Position.down k) s.machine.distances
  have hprepare : s.machine.prepare (.program joined) =
      s.machine.withTable (Job.pairTable s.machine.distances ss ss') :=
    congrArg s.machine.withTable htable
  obtain ⟨-, hcurrent, hdistances, -⟩ := h.interpret_pairTable hfirst hsecond hfound budget
  obtain ⟨hflush', hds, hself⟩ := h.resembles_between hfirst hsecond hfound hflush budget k
  have hdynamic : ∀ d ∈ ((s.machine.prepare (.program ss)).interpret budget ss).2, d.isDynamic :=
    (s.machine.prepare (.program ss)).isDynamic_perform budget (.program ss)
  have hbefore : before = _ := give_keeping hfound budget _ _
  have hone : one = _ := give_keeping hfoundJoined budget _ _
  unfold after
  rw [hone, hprepare, hbefore]
  generalize (s.machine.prepare (.program ss)).interpret budget ss = done at *
  obtain ⟨m, ds⟩ := done
  have hprepare' : m.prepare (.program ss') =
      m.withTable (Job.pairTable s.machine.distances ss ss') :=
    congrArg (fun d => m.withTable ((Job.program ss').visit d).after.distances) hdistances
  rw [give_keeping ((Job.violations_eq _ _ {}).trans hclean'), hprepare', Machine.interpret_append,
    hds]
  have hanswers (texts : List String) (flushes : Nat) :
      m.sink.onFlush texts (flushes + 1) = m.sink.onFlush texts flushes :=
    (hflush' ..).trans (hflush' ..).symm
  obtain ⟨⟨F, hmachines⟩, _, _, hreports⟩ :=
    hself.interpret budget hcurrent hanswers (alike_further k _ ss')
  have hfirst' : List.Forall₂ (Diagnostic.Further k) ds ds :=
    List.forall₂_same.mpr fun d hd => .same d (hdynamic d hd)
  exact ⟨rfl, hmachines.similar, List.rel_append hfirst' (hreports.imp fun _ _ hd => hd.further)⟩

/-- What is forgotten of a program changes nothing but tables. -/
theorem Fit.give_paired (h : s.Fit .all d') {r : Reading} (hr : r.Proper s.nextId) (budget : Nat) :
    Paired .all (s.give Distances.forgetFrom budget r) ((s.withTable d').give .none budget r) :=
  h.give hr Forgetting.fair_forgetFrom Forgetting.fair_none fun _ _ _ => onRecord_all

/-- Two programs in a row run as they do one after the other, whatever is forgotten in between. -/
theorem Fit.give_forgetting_append (h : s.Fit .all s.machine.distances)
    (hfirst : Derives .declarations ts s.nextId ss n₁)
    (hsecond : Derives .declarations us n₁ ss' n₂)
    (hclean : (Scoping.resolve {} ss).2 = []) (hclean' : (Scoping.resolve {} ss').2 = [])
    (hflush : s.machine.sink.Flushable) (budget k : Nat)
    (hjoined : Derives .declarations (ts ++ us.map (Token.moved (Position.down k))) s.nextId
      (ss ++ recastStmts (.moved (Position.down k) 0) [] ss') n₂) :
    let joined := ss ++ recastStmts (.moved (Position.down k) 0) [] ss'
    let one := s.give Distances.forgetFrom budget ⟨s.nextId, n₂, .ok (.program joined)⟩
    let before := s.give Distances.forgetFrom budget ⟨s.nextId, n₁, .ok (.program ss)⟩
    let after := before.1.give Distances.forgetFrom budget ⟨n₁, n₂, .ok (.program ss')⟩
    SameButLines k (after.1, before.2.diagnostics ++ after.2.diagnostics)
      (one.1, one.2.diagnostics) := by
  intro joined one before after
  have hnext : before.1.nextId = n₁ := nextId_give _ _ _ _
  have hproper : Reading.Proper before.1.nextId ⟨n₁, n₂, .ok (.program ss')⟩ := by
    rw [hnext]
    exact proper_of_derives hsecond
  -- Each run that forgets has a twin that does not.
  obtain ⟨e₁, hfit, hbefore⟩ := h.give_paired (proper_of_derives hfirst) budget
  obtain ⟨e₂, -, hafter⟩ := hfit.give_paired hproper budget
  obtain ⟨e₃, -, hone⟩ := h.give_paired (proper_of_derives hjoined) budget
  have hsame := h.give_append hfirst hsecond hclean hclean' hflush budget k
  rw [show s.give .none budget ⟨s.nextId, n₁, .ok (.program ss)⟩ = _ from hbefore] at hsame
  dsimp only at hsame
  rw [show (before.1.withTable e₁).give .none budget ⟨n₁, n₂, .ok (.program ss')⟩ = _ from hafter,
    show s.give .none budget ⟨s.nextId, n₂, .ok (.program joined)⟩ = _ from hone] at hsame
  exact ⟨hsame.nextId, hsame.machines, hsame.diagnostics⟩

/-- A script does the same in one go and in two pieces, whatever the clock shows at each reading.
Let two sources be scanned, parsed and scoped without errors, and let flushing succeed, though not
every text has to be taken. To run them joined by a line end, and to run one and then the other,
gives the same output, reports the same messages in the same order, and leaves the same globals and
heap, with the same numbers of references, but for the lines of what comes from the second source;
between the pieces the output is flushed once more. Statements of the first source may fail, and
functions that it made may be called by the second, whether or not its distances were forgotten in
between. -/
theorem script_runs_in_pieces (s : Session) (hs : s.Reachable) (budget : Nat)
    (first second : String) (hfirst : Accepted first) (hsecond : Accepted second)
    (hflush : s.machine.sink.Flushable) :
    let one := s.run budget (first ++ "\n" ++ second)
    let before := s.run budget first
    let after := before.1.run budget second
    after.1.machine.sink = one.1.machine.sink.later 1 ∧
      ∃ k, SameButLines k (after.1, before.2 ++ after.2) one := by
  intro one before after
  obtain ⟨ts, last, htokens, hts, hlast, hprogram⟩ := hfirst.derives
  obtain ⟨us, last', htokens', hus, hlast', hprogram'⟩ := hsecond.derives
  obtain ⟨ss, n₁, hss, hclean⟩ := hprogram s.nextId
  obtain ⟨ss', n₂, hss', hclean'⟩ := hprogram' n₁
  obtain ⟨k, hjoin⟩ := tokenize_append htokens (congrArg Prod.snd htokens')
  have hmoved := hss'.moved (Position.down k) 0
  rw [Nat.zero_add, Nat.zero_add] at hmoved
  have hjoined := hss.append hmoved
  -- The tokens of the joined text are parsed as the two programs in a row.
  rw [htokens', List.map_append, ← List.append_assoc] at hjoin
  have hkinds : ∀ t ∈ ts ++ us.map (Token.moved (Position.down k)), t.kind ≠ .eof := by
    rw [List.forall_mem_append, List.forall_mem_map]
    exact ⟨hts, hus⟩
  have hlastMoved : (last'.moved (Position.down k)).kind = .eof := hlast'
  have hone : one = _ := run_of_parse hjoin (hjoined.parse_eq hkinds hlastMoved) budget
  have hbefore : before = _ := run_of_parse htokens (hss.parse_eq hts hlast) budget
  have hnext : before.1.nextId = n₁ := by
    rw [hbefore]
    exact nextId_give _ _ _ _
  have hparse : parse (us ++ [last']) before.1.nextId = ⟨ss', [], n₂⟩ := by
    rw [hnext]
    exact hss'.parse_eq hus hlast'
  have hafter : after = _ := run_of_parse htokens' hparse budget
  rw [hnext, hbefore] at hafter
  obtain ⟨d', hfit⟩ := hs.fit
  have hsame := hfit.self.give_forgetting_append hss hss' hclean hclean' hflush budget k hjoined
  rw [hone, hafter, hbefore]
  exact ⟨hsame.machines.sink, k, hsame⟩

/-- The tokens of a function whose body is a name, without the end token. -/
def functionTokens : List Token :=
  [⟨.kwFun, "fun", ⟨1, 1⟩⟩, ⟨.identifier, "f", ⟨1, 5⟩⟩, ⟨.leftParen, "(", ⟨1, 6⟩⟩,
    ⟨.rightParen, ")", ⟨1, 7⟩⟩, ⟨.leftBrace, "\x7b", ⟨1, 8⟩⟩, ⟨.identifier, "x", ⟨1, 9⟩⟩,
    ⟨.semicolon, ";", ⟨1, 10⟩⟩, ⟨.rightBrace, "\x7d", ⟨1, 11⟩⟩]

/-- The tokens of a call, without the end token. -/
def callTokens : List Token :=
  [⟨.identifier, "f", ⟨1, 1⟩⟩, ⟨.leftParen, "(", ⟨1, 2⟩⟩, ⟨.rightParen, ")", ⟨1, 3⟩⟩,
    ⟨.semicolon, ";", ⟨1, 4⟩⟩]

/-- The source `fun f(){x;}`. -/
def functionSource : String := "fun f()\x7bx;\x7d"

/-- The function is accepted. -/
theorem accepted_function : Accepted functionSource := by
  have htokens : tokenize functionSource = (functionTokens ++ [.endAt ⟨1, 12⟩], []) := by cbv
  have hstatement : Derives (.statement false)
      [⟨.identifier, "x", ⟨1, 9⟩⟩, ⟨.semicolon, ";", ⟨1, 10⟩⟩] 0 _ 1 :=
    .expression (.terminated (.expression_of_call (.bare (.reference rfl))) rfl) (by simp)
  have hbody : Derives .block (⟨.leftBrace, "\x7b", ⟨1, 8⟩⟩ :: [⟨.identifier, "x", ⟨1, 9⟩⟩,
      ⟨.semicolon, ";", ⟨1, 10⟩⟩] ++ [⟨.rightBrace, "\x7d", ⟨1, 11⟩⟩]) 0 _ 1 :=
    .block rfl (.moreDeclarations (.statement hstatement) .noDeclarations) rfl
  have hfunction : Derives .declarations functionTokens 0 _ 1 :=
    .moreDeclarations (.functionDeclaration rfl (.function rfl rfl .noParameters rfl hbody))
      .noDeclarations
  exact .of_derives htokens (by decide) rfl hfunction rfl

/-- The call is accepted. -/
theorem accepted_call : Accepted "f();" := by
  have htokens : tokenize "f();" = (callTokens ++ [.endAt ⟨1, 5⟩], []) := by cbv
  have hcall : Derives .declarations callTokens 0 _ 1 :=
    .moreDeclarations (.statement (.expression (.terminated (.expression_of_call
      (.call (.bare (.reference rfl)) rfl .noArguments rfl)) rfl) (by simp))) .noDeclarations
  exact .of_derives htokens (by decide) rfl hcall rfl

/-- A function and a call that fails in it, together and one after the other. -/
theorem call_in_pieces :
    Accepted functionSource ∧ Accepted "f();" ∧
      (((start {} {}).run 9 functionSource).1.run 9 "f();").1.machine.sink =
        ((start {} {}).run 9 (functionSource ++ "\n" ++ "f();")).1.machine.sink.later 1 ∧
      ∃ k, List.Forall₂ (Diagnostic.Further k)
        (((start {} {}).run 9 functionSource).2 ++
          (((start {} {}).run 9 functionSource).1.run 9 "f();").2)
        ((start {} {}).run 9 (functionSource ++ "\n" ++ "f();")).2 := by
  obtain ⟨hsink, k, hsame⟩ :=
    script_runs_in_pieces (start {} {}) ⟨{}, {}, [], rfl⟩ 9 functionSource "f();"
      accepted_function accepted_call fun _ _ => rfl
  exact ⟨accepted_function, accepted_call, hsink, k, hsame.diagnostics⟩

end Session

end Lox
