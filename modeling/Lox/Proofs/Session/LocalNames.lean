import Lox.Proofs.Scoping.Concord
import Lox.Proofs.Scoping.Renaming
import Lox.Proofs.Session.Companions
import Lox.Proofs.Session.FrameChain
import Lox.Proofs.Session.StaticErrors

/-!
# Renaming local variables

What a program does not depend on the name of a local variable. When the variable is renamed, with
the references that are bound to it, the program is parsed and scoped as before, and it runs as
before: the two runs go in step, on machines that resemble each other. The name can only be seen in
a report that the variable has no value yet.
-/

namespace Lox

open Scoping Eval Grammar

/-- Whether a reference of a program is bound to the variable that the token `t` declares, and so
renamed with it. -/
def BoundTo (root : Visit) (A : Recasting) (table : Distances) (t : Token) (x : Reference) : Prop :=
  ∃ v : Visit, v.Within root ∧ x ∈ v.piece.mention? ∧ table.binds t.lexeme (A.marksOf v.around) x

/-- Two reports are the same, or they say of a reference that its variable is undefined, each by its
own name. -/
inductive Reworded (bound : Reference → Prop) (old new : String) : Diagnostic → Diagnostic → Prop
  | same (d : Diagnostic) : Reworded bound old new d d
  | undefined (x : Reference) (hx : bound x) (hname : x.name.lexeme = old) :
    Reworded bound old new (.runtime x.name.line (Cause.undefinedVariable old).message)
      (.runtime x.name.line (Cause.undefinedVariable new).message)

/-- Two runs have written the same and reported the same, up to the name of a variable. -/
structure SameRun (bound : Reference → Prop) (old new : String)
    (done done' : Session × Diagnostics) : Prop where
  /-- What was written. -/
  sink : done'.1.machine.sink = done.1.machine.sink
  /-- What was reported. -/
  diagnostics : List.Forall₂ (Reworded bound old new) done.2 done'.2

/-- Tokens of a program that is accepted in a session, in which a variable has a name that may be
replaced by another one. -/
structure Renamable (s : Session) (ts : List Token) (ss : List Stmt) (n' : Nat) (t : Token)
    (new : String) : Prop where
  /-- The tokens are a program. -/
  derives : Derives .declarations ts s.nextId ss n'
  /-- Words are of the kinds that their texts say. -/
  spelled : ∀ u ∈ ts, u.Spelled
  /-- Scoping finds no violation. -/
  clean : (Scoping.resolve s.machine.distances ss).2 = []
  /-- The variable is named by an identifier of the program. -/
  mem : t ∈ ts
  /-- That is its kind. -/
  kind : t.kind = .identifier
  /-- The other name is an identifier. -/
  word : Token.Kind.ofWord new = .identifier
  /-- No token of the program is spelled like it. -/
  fresh : ∀ u ∈ ts, u.lexeme ≠ new

namespace Renamable

variable {s : Session} {ts : List Token} {ss : List Stmt} {n' : Nat} {t : Token} {new : String}
  {move : Position → Position}

/-- The visit with which scoping starts. -/
abbrev root (s : Session) (ss : List Stmt) : Visit :=
  (Job.program ss).visit s.machine.distances

/-- The distances that scoping finds. -/
abbrev table (s : Session) (ss : List Stmt) : Distances :=
  (Scoping.resolve s.machine.distances ss).1

/-- The renaming of the variable. -/
abbrev recasting (s : Session) (ss : List Stmt) (t : Token) (new : String)
    (move : Position → Position) : Recasting :=
  .rename (table s ss) t new move

/-- How the two programs may differ: in the name of the variable, and in the columns of tokens. -/
def likeness (h : Renamable s ts ss n' t new) (move : Position → Position) : Likeness where
  old := t.lexeme
  new := new
  places p p' := p'.line = p.line
  renamed := BoundTo (root s ss) (recasting s ss t new move) (table s ss) t
  number := id
  table := table s ss
  flushes := 0
  reserved name hname := by
    refine ⟨?_, ?_⟩
    · rintro rfl
      exact (h.spelled t h.mem).not_reserved h.kind hname
    · rintro rfl
      have hword := h.word
      obtain rfl | rfl := hname <;> contradiction
  places_refl _ := rfl
  injective _ _ := id

/-- The program is numbered and shaped as the parser does it. -/
theorem tidy (h : Renamable s ts ss n' t new) : (root s ss).Tidy s.nextId n' :=
  h.derives.tidy _ _ _

/-- The names in a program to be renamed are spelled, and none is the new one. -/
theorem names (h : Renamable s ts ss n' t new) :
    (root s ss).All (Visit.Names fun u => u.Spelled ∧ u.lexeme ≠ new) :=
  h.derives.names (fun u hu => ⟨h.spelled u hu, h.fresh u hu⟩) _ _ _

/-- The renamed program is like the program. -/
theorem alike (h : Renamable s ts ss n' t new) (hmove : ∀ p, (move p).line = p.line) :
    Alike (h.likeness move) [] (.stmts ss)
      (.stmts (recastStmts (recasting s ss t new move) [] ss)) := by
  have hnone : (root s ss).Distinct := ⟨by simp [Job.visit], by simp [Job.visit]⟩
  have hdistinct : (root s ss).All Visit.Distinct :=
    Visit.all_distinct h.tidy.shapely h.clean hnone
  -- A reference is renamed where scoping has bound it to the variable, which is where its name is
  -- found in the scopes that are marked.
  have hsuits : (root s ss).All ((recasting s ss t new move).Suits (h.likeness move)) := by
    intro v hv
    have hwithin : v.All Visit.Distinct := fun v' hv' => hdistinct v' (hv.trans hv')
    exact Visit.suits_rename (L := h.likeness move) rfl hmove (fun id => (Nat.zero_add id).symm)
      (h.tidy.shapely v hv) hwithin (h.names v hv) fun x hx hbinds => ⟨v, hv, hx, hbinds⟩
  exact Visit.alike_recast (fun _ => ⟨rfl, rfl, hmove _⟩) hsuits

/-- Scoping finds the same distances in the renamed program, and no violation. -/
theorem resolve_eq (h : Renamable s ts ss n' t new) {d' : Distances} (hfit : s.Fit .all d')
    (hmove : ∀ p, (move p).line = p.line) :
    Scoping.resolve s.machine.distances (recastStmts (recasting s ss t new move) [] ss) =
      (table s ss, []) := by
  have horderly : Orderly (h.likeness move) (root s ss) := by
    refine ⟨h.clean, Job.recorded_after h.tidy hfit.below h.clean, ?_,
      by simp [Job.visit, Job.piece]⟩
    exact h.names.imp fun v hv word hword => ⟨(hv word hword).1, (hv word hword).2.2⟩
  have hstart : Walks (h.likeness move) [] (root s ss).walk (root s ss).walk :=
    ⟨.nil, by simp [Job.visit], (Distances.renumber_id _).symm, rfl⟩
  -- The two walks go in step, with the new name where the old one was.
  have hwalks := walks_after horderly (h.alike hmove) hstart
  refine Prod.ext ?_ hwalks.clean
  exact hwalks.distances.trans (Distances.renumber_id _)

/-- Reports that correspond are the same but for the name of the variable. -/
theorem reworded (h : Renamable s ts ss n' t new) {d d' : Diagnostic}
    (hreports : Reports (h.likeness move) d d') :
    Reworded (BoundTo (root s ss) (recasting s ss t new move) (table s ss) t) t.lexeme new d
      d' := by
  have hline {line line' : Nat} (hlines : (h.likeness move).lines line line') : line' = line := by
    obtain ⟨p, p', hplaces, rfl, rfl⟩ := hlines
    exact hplaces
  obtain ⟨e, e', hfails, rfl, rfl⟩ := hreports
  cases hfails with
  | program cause hlines =>
    rw [hline hlines]
    exact .same _
  | renamed hx hname hlines =>
    rw [hline hlines]
    exact .undefined _ hx hname
  | output fault => exact .same _
  | exhausted => exact .same _

/-- The two programs are run alike, however distances are forgotten. -/
theorem give (h : Renamable s ts ss n' t new) {d' : Distances} (hfit : s.Fit .all d')
    (hmove : ∀ p, (move p).line = p.line) (forget : Forgetting) (budget : Nat) :
    let ss' := recastStmts (recasting s ss t new move) [] ss
    let given := s.give forget budget ⟨s.nextId, n', .ok (.program ss)⟩
    let given' := s.give forget budget ⟨s.nextId, n', .ok (.program ss')⟩
    SameRun (BoundTo (root s ss) (recasting s ss t new move) (table s ss) t) t.lexeme new
      (given.1, given.2.diagnostics) (given'.1, given'.2.diagnostics) := by
  intro ss' given given'
  have hproper : Reading.Proper s.nextId ⟨s.nextId, n', .ok (.program ss)⟩ :=
    .of_ok (Nat.le_refl _) h.tidy.spans.le rfl fun _ _ _ => h.derives.tidy _ _ _
  have hclean : ((Job.program ss).visit s.machine.distances).after.violations.isEmpty :=
    List.isEmpty_iff.mpr h.clean
  have hresolve := h.resolve_eq hfit hmove
  have hclean' : ((Job.program ss').visit s.machine.distances).after.violations.isEmpty :=
    List.isEmpty_iff.mpr (congrArg Prod.snd hresolve)
  have hsame : s.machine.prepare (.program ss') = s.machine.prepare (.program ss) :=
    congrArg s.machine.withTable (congrArg Prod.fst hresolve)
  have hrecord : s.OnRecord .all budget (.program ss) := Session.onRecord_all
  -- Both programs start on the same machine, which resembles itself: nothing on it was made for the
  -- variable.
  obtain ⟨S, _, _, _, _, hm, _⟩ := hfit.start_job hproper rfl h.clean hrecord
  have hself : Resembles (h.likeness move) (fun _ => false) (s.machine.prepare (.program ss))
      (s.machine.prepare (.program ss')) := by
    have hrefl :=
      Resembles.refl (L := h.likeness move) hm (fun _ _ _ _ _ _ => rfl) s.machine.sink
    have htable : (h.likeness move).table' = table s ss := Distances.renumber_id _
    rw [htable] at hrefl
    rw [hsame]
    exact hrefl
  obtain ⟨⟨F, hmachines⟩, _, _, hreports⟩ :=
    hself.interpret budget hfit.current (fun _ _ => rfl) (h.alike hmove)
  have hgiven : given = _ := Session.give_accepted rfl hclean
  have hgiven' : given' = _ := Session.give_accepted rfl hclean'
  rw [hgiven, hgiven']
  refine ⟨?_, hreports.imp fun _ _ => h.reworded⟩
  have hsink (j : Job) (m : Machine) :
      (if j.createsClosure then m else m.forgetBy forget s.nextId).sink = m.sink := by
    split <;> rfl
  exact (hsink _ _).trans (hmachines.sink.symm.trans (hsink _ _).symm)

end Renamable

/-- Renamed tokens are spelled as their kinds say, and none of them is an end token. -/
theorem spelled_of_casts {table : Distances} {t : Token} {new : String} {move : Position → Position}
    (hnew : Token.Kind.ofWord new = .identifier) {ts ts' : List Token}
    (h : List.Forall₂ (Recasting.rename table t new move).Casts ts ts')
    (hts : ∀ u ∈ ts, u.kind ≠ .eof ∧ u.Spelled) : ∀ u ∈ ts', u.kind ≠ .eof ∧ u.Spelled := by
  induction h with
  | nil => exact hts
  | cons hcast _ ih =>
    obtain ⟨hu, hts⟩ := List.forall_mem_cons.mp hts
    have hkind := hcast.kind (Recasting.keepsKinds_rename _ _ _ _)
    exact List.forall_mem_cons.mpr ⟨⟨hkind ▸ hu.1, hcast.spelled_rename hnew hu.2⟩, ih hts⟩

namespace Session

/-- A local variable may be renamed. Let a program be accepted in a session, and let `new` be an
identifier that is not in it. The variable that the token `t` declares in a block or function is
renamed to it, with the references that are bound to the variable, and tokens may move to other
columns. Then the tokens are parsed as the renamed tree, scoping finds the same distances and no
violation, and a run writes the same and reports the same, whatever the clock shows and the output
takes, except that a report that the variable is undefined names it. -/
theorem local_name_unobservable (s : Session) (hs : s.Reachable) (budget : Nat) (ts : List Token)
    (last last' : Token) (ss : List Stmt) (n' : Nat) (t : Token) (new : String)
    (move : Position → Position)
    (hts : ∀ u ∈ ts, u.kind ≠ .eof ∧ u.Spelled) (hlast : last.kind = .eof ∧ last'.kind = .eof)
    (hparse : parse (ts ++ [last]) s.nextId = ⟨ss, [], n'⟩)
    (hclean : (Scoping.resolve s.machine.distances ss).2 = [])
    (ht : t ∈ ts ∧ t.kind = .identifier) (hnew : Token.Kind.ofWord new = .identifier)
    (hfresh : ∀ u ∈ ts, u.lexeme ≠ new) (hmove : ∀ p, (move p).line = p.line) :
    let distances := (Scoping.resolve s.machine.distances ss).1
    let A := Recasting.rename distances t new move
    let bound := BoundTo ((Job.program ss).visit s.machine.distances) A distances t
    ∃ ts', List.Forall₂ A.Casts ts ts' ∧ (∀ u ∈ ts', u.Spelled) ∧
      parse (ts' ++ [last']) s.nextId = ⟨recastStmts A [] ss, [], n'⟩ ∧
      Scoping.resolve s.machine.distances (recastStmts A [] ss) = (distances, []) ∧
      SameRun bound t.lexeme new (s.runTokens budget (ts ++ [last]))
        (s.runTokens budget (ts' ++ [last'])) ∧
      ∀ text text', tokenize text = (ts ++ [last], []) → tokenize text' = (ts' ++ [last'], []) →
        SameRun bound t.lexeme new (s.run budget text) (s.run budget text') := by
  intro distances A bound
  have hkinds : ∀ u ∈ ts, u.kind ≠ .eof := fun u hu => (hts u hu).1
  have h : Renamable s ts ss n' t new :=
    ⟨derives_of_parse hkinds hlast.1 hparse, fun u hu => (hts u hu).2, hclean, ht.1, ht.2,
      hnew, hfresh⟩
  have hkeeps : A.KeepsKinds := Recasting.keepsKinds_rename _ _ _ _
  obtain ⟨ts', hcasts, hderives⟩ := h.derives.recast hkeeps []
  rw [show A.shift = 0 from rfl, Nat.zero_add, Nat.zero_add] at hderives
  obtain ⟨d', hfit⟩ := hs.fit
  have hts' : ∀ u ∈ ts', u.kind ≠ .eof ∧ u.Spelled := spelled_of_casts hnew hcasts hts
  have hparse' : parse (ts' ++ [last']) s.nextId = ⟨recastStmts A [] ss, [], n'⟩ :=
    hderives.parse_eq (fun u hu => (hts' u hu).1) hlast.2
  refine ⟨ts', hcasts, fun u hu => (hts' u hu).2, hparse', h.resolve_eq hfit hmove, ?_, ?_⟩
  · rw [runTokens_of_parse hparse, runTokens_of_parse hparse']
    exact h.give hfit hmove .none budget
  · intro text text' htext htext'
    rw [run_of_parse htext hparse, run_of_parse htext' hparse']
    exact h.give hfit hmove Distances.forgetFrom budget

/-- The block of a closure whose variable has another name. -/
def renamedBlock : Stmt :=
  .block [.declare [⟨word "b", none⟩],
    .function ⟨some (word "f"), word "f", [], [.expression (.reference ⟨0, word "b"⟩)]⟩,
    .expression (.call (.reference ⟨1, word "f"⟩) (mark .rightParen) [])]

/-- The variable of a block is renamed together with its use in a closure. -/
theorem closure_variable_renamed :
    parse (closureTokens ++ [mark .eof]) 0 = ⟨[closureBlock], [], 2⟩ ∧
      ∃ ts', parse (ts' ++ [mark .eof]) 0 = ⟨[renamedBlock], [], 2⟩ ∧
        ((start {} {}).runTokens 9 (ts' ++ [mark .eof])).1.machine.sink =
          ((start {} {}).runTokens 9 (closureTokens ++ [mark .eof])).1.machine.sink := by
  have hparse : parse (closureTokens ++ [mark .eof]) 0 = ⟨[closureBlock], [], 2⟩ :=
    derives_closureTokens.parse_eq (by decide) rfl
  obtain ⟨ts', _, _, hparse', _, hrun, _⟩ :=
    local_name_unobservable (start {} {}) ⟨{}, {}, [], rfl⟩ 9
    closureTokens (mark .eof) (mark .eof) [closureBlock] 2 (word "a") "b" id (by decide) ⟨rfl, rfl⟩
    hparse (by decide) (by decide) (by decide) (by decide) fun _ => rfl
  exact ⟨hparse, ts', hparse', hrun.sink⟩

end Session

end Lox
