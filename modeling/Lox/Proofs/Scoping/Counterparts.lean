import Lox.Proofs.Scoping.Declarations
import Lox.Proofs.Scoping.Likeness
import Lox.Proofs.Scoping.Occurrences

/-!
# A recast program is like the program

When a program is recast, the marks of the scopes around a piece are those of the constructs around
its visit. If at each visit the tokens that stand for variables are replaced in a way that a
`Likeness` allows, the recast piece is like the piece: `Visit.alike_recast`.
-/

namespace Lox

open Scoping

namespace Recasting

variable (A : Recasting)

/-- The mark of the scope that a construct opens. -/
def mark : Construct → Bool
  | .block body => A.blockMark body
  | .call f => A.functionMark f.params f.body
  | .receiver _ | .inheritance _ => false

/-- The marks of the scopes that constructs open. -/
def marksOf (around : List Construct) : List Bool :=
  around.map A.mark

end Recasting

namespace Scoping

/-- A piece, recast. -/
def Piece.recast (A : Recasting) (marks : List Bool) : Piece → Piece
  | .expr e => .expr (e.recast A marks)
  | .exprs es => .exprs (recastExprs A marks es)
  | .entries es => .entries (recastEntries A marks es)
  | .function f => .function (f.recast A marks)
  | .methods fs => .methods (recastMethods A marks fs)
  | .declarators ds => .declarators (recastDeclarators A marks ds)
  | .superclasses name xs => .superclasses (A.plain name) (xs.map (A.reference marks))
  | .superclass x => .superclass (A.reference marks x)
  | .class c => .class (c.recast A marks)
  | .stmt s => .stmt (s.recast A marks)
  | .stmts ss => .stmts (recastStmts A marks ss)

/-- The reference to a variable that a piece is or assigns to. -/
def Piece.mention? : Piece → Option Reference
  | .expr (.reference x) | .expr (.assign x _) | .superclass x => some x
  | _ => none

/-- The word `this` or `super` that a piece starts with. -/
def Piece.keyword? : Piece → Option Reference
  | .expr (.this x) | .expr (.super x _) => some x
  | _ => none

end Scoping

/-- What a recasting does with the variables of a visited piece is what a likeness allows. -/
structure Recasting.Suits (A : Recasting) (L : Likeness) (v : Visit) : Prop where
  /-- A reference is replaced by one that may stand for it. -/
  reference : ∀ x ∈ v.piece.mention?,
    L.Refers (A.marksOf v.around) x (A.reference (A.marksOf v.around) x)
  /-- So is the word `this` or `super`. -/
  keyword : ∀ x ∈ v.piece.keyword?, L.Refers (A.marksOf v.around) x (A.keyword x)
  /-- A variable that is declared gets a name that it may have. -/
  declared : ∀ d ds, v.piece = .declarators (d :: ds) →
    L.Declares ((A.marksOf v.around).headD false) d.name
      (A.declared ((A.marksOf v.around).headD false) d.name)
  /-- A function that is declared may keep its name. -/
  functionName : ∀ f, v.piece = .stmt (.function f) →
    L.Name ((A.marksOf v.around).headD false) f.displayName f.displayName
  /-- So may a class. -/
  className : ∀ c, v.piece = .class c →
    L.Name ((A.marksOf v.around).headD false) c.name.lexeme c.name.lexeme
  /-- A parameter gets a name that it may have. -/
  parameter : ∀ f, v.piece = .function f → ∀ t ∈ f.params,
    L.Declares (A.functionMark f.params f.body) t (A.declared (A.functionMark f.params f.body) t)

namespace Scoping.Visit

variable {A : Recasting} {L : Likeness} {v : Visit}

/-- The marks around the methods of a class. -/
theorem marksOf_toMethods (v : Visit) (c : ClassDecl) :
    A.marksOf (v.toMethods c).around = methodMarks (A.marksOf v.around) c.superclasses := by
  unfold toMethods methodMarks
  split <;> rfl

/-- Related options of tokens that are replaced. -/
theorem tokens_map (hplain : ∀ t, L.Tokens t (A.plain t)) (name : Option Token) :
    Option.Rel L.Tokens name (name.map A.plain) := by
  cases name with
  | none => exact .none
  | some name => exact .some (hplain name)

/-- A recast piece is like the piece. -/
theorem alike_recast (hplain : ∀ t, L.Tokens t (A.plain t)) (hsuits : All (A.Suits L) v) :
    Alike L (A.marksOf v.around) v.piece (v.piece.recast A (A.marksOf v.around)) := by
  induction v using Visit.induction with
  | step v ih =>
  have hself := hsuits.self
  replace ih := fun p hp => ih p hp (hsuits.part hp)
  obtain ⟨ctx, piece, w, around⟩ := v
  -- The parts are alike by induction, and what stands in the piece itself is replaced as it may be.
  cases piece with
  | expr e =>
    simp only [Visit.parts] at ih
    cases e with
    | literal => exact .literal
    | reference x => exact .reference (hself.reference x rfl)
    | this x => exact .this (hself.keyword x rfl)
    | super x name => exact .super (hself.keyword x rfl) (hplain name)
    | grouping e =>
      have he := ih _ List.mem_cons_self
      exact .grouping he
    | unary op r =>
      have hr := ih _ List.mem_cons_self
      exact .unary (hplain op) hr
    | assign x e =>
      have he := ih _ List.mem_cons_self
      exact .assign (hself.reference x rfl) he
    | get o name =>
      have ho := ih _ List.mem_cons_self
      exact .get ho (hplain name)
    | function f =>
      have hf := ih _ List.mem_cons_self
      exact .lambda hf
    | array bracket es =>
      have hes := ih _ List.mem_cons_self
      exact .array (hplain bracket) hes
    | object brace es =>
      have hes := ih _ List.mem_cons_self
      exact .object (hplain brace) hes
    | binary l op r =>
      have hl := ih _ List.mem_cons_self
      have hr := ih _ (List.mem_cons_of_mem _ List.mem_cons_self)
      exact .binary hl (hplain op) hr
    | logical l op r =>
      have hl := ih _ List.mem_cons_self
      have hr := ih _ (List.mem_cons_of_mem _ List.mem_cons_self)
      exact .logical hl (hplain op) hr
    | index o bracket k =>
      have ho := ih _ List.mem_cons_self
      have hk := ih _ (List.mem_cons_of_mem _ List.mem_cons_self)
      exact .index ho (hplain bracket) hk
    | call f paren es =>
      have hf := ih _ List.mem_cons_self
      have hes := ih _ (List.mem_cons_of_mem _ List.mem_cons_self)
      exact .call hf (hplain paren) hes
    | set o name e =>
      have he := ih _ List.mem_cons_self
      have ho := ih _ (List.mem_cons_of_mem _ List.mem_cons_self)
      exact .set ho (hplain name) he
    | setIndex o bracket k e =>
      simp only [Visit.exprParts, List.forall_mem_cons] at ih
      exact .setIndex ih.1 (hplain bracket) ih.2.1 ih.2.2.1
  | exprs es =>
    cases es with
    | nil => exact .noExprs
    | cons e es =>
      simp only [Visit.parts, List.forall_mem_cons] at ih
      exact .moreExprs ih.1 ih.2.1
  | entries es =>
    obtain _ | ⟨⟨key, e⟩, es⟩ := es
    · exact .noEntries
    · simp only [Visit.parts, List.forall_mem_cons] at ih
      exact .moreEntries (hplain key) ih.1 ih.2.1
  | function f =>
    have hbody := ih _ List.mem_cons_self
    have hparams := hself.parameter f rfl
    obtain ⟨name, keyword, params, body⟩ := f
    have hdeclares : List.Forall₂ (L.Declares (A.functionMark params body)) params
        (params.map (A.declared (A.functionMark params body))) :=
      List.forall₂_map_right_iff.mpr (List.forall₂_same.mpr hparams)
    exact .function (tokens_map hplain name) (hplain keyword) hdeclares hbody
  | methods fs =>
    cases fs with
    | nil => exact .noMethods
    | cons f fs =>
      simp only [Visit.parts, List.forall_mem_cons] at ih
      exact .moreMethods ih.1 ih.2.1
  | superclasses name xs =>
    cases xs with
    | nil => exact .superclasses (hplain name) .nil
    | cons x xs =>
      simp only [Visit.parts, List.forall_mem_cons] at ih
      obtain ⟨hx, hxs, _⟩ := ih
      cases hx with
      | superclass hx =>
        cases hxs with
        | superclasses _ hxs => exact .superclasses (hplain name) (.cons hx hxs)
  | superclass x => exact .superclass (hself.reference x rfl)
  | «class» c =>
    simp only [Visit.parts, List.forall_mem_cons] at ih
    obtain ⟨hxs, hfs, _⟩ := ih
    rw [toMethods_piece, marksOf_toMethods] at hfs
    have hdeclares := hself.className c rfl
    obtain ⟨name, xs, fs⟩ := c
    cases hxs with
    | superclasses _ hxs => exact .class (hplain name) hdeclares hxs hfs
  | declarators ds =>
    obtain _ | ⟨⟨name, _ | e⟩, ds⟩ := ds
    · exact .noDeclarators
    · have hds := ih _ List.mem_cons_self
      exact .uninitialized (hself.declared _ _ rfl) hds
    · simp only [Visit.parts, List.forall_mem_cons] at ih
      exact .initialized (hself.declared _ _ rfl) ih.1 ih.2.1
  | stmt s =>
    simp only [Visit.parts] at ih
    cases s with
    | expression e =>
      have he := ih _ List.mem_cons_self
      exact .expression he
    | print e =>
      have he := ih _ List.mem_cons_self
      exact .print he
    | declare ds =>
      have hds := ih _ List.mem_cons_self
      exact .declare hds
    | block ss =>
      have hss := ih _ List.mem_cons_self
      exact .block hss
    | branch c t e =>
      cases e with
      | none =>
        simp only [Visit.stmtParts, List.forall_mem_cons] at ih
        exact .branch ih.1 ih.2.1
      | some e =>
        simp only [Visit.stmtParts, List.forall_mem_cons] at ih
        exact .branchElse ih.1 ih.2.1 ih.2.2.1
    | loop c s =>
      simp only [Visit.stmtParts, List.forall_mem_cons] at ih
      exact .loop ih.1 ih.2.1
    | function f =>
      have hf := ih _ List.mem_cons_self
      exact .declareFunction hf (hself.functionName f rfl)
    | result keyword e =>
      cases e with
      | none => exact .result (hplain keyword)
      | some e =>
        have he := ih _ List.mem_cons_self
        exact .resultOf (hplain keyword) he
    | «class» c =>
      have hc := ih _ List.mem_cons_self
      exact .declareClass hc
  | stmts ss =>
    cases ss with
    | nil => exact .noStmts
    | cons s ss =>
      simp only [Visit.parts, List.forall_mem_cons] at ih
      exact .moreStmts ih.1 ih.2.1

end Scoping.Visit

/-! ## Recastings without marks -/

/-- Where no scope is marked, no reference finds its variable in a marked one. -/
theorem Scoping.Likeness.markOf_unmarked (L : Likeness) {ms : List Bool}
    (hms : ∀ mark ∈ ms, mark = false) (x : Reference) : L.markOf ms x = false := by
  unfold markOf
  split
  · next distance _ =>
    rw [List.getD_eq_getElem?_getD]
    cases hd : ms[distance]? with
    | none => rfl
    | some mark => exact hms mark (List.mem_of_getElem? hd)
  · rfl

namespace Recasting

variable {A : Recasting} {L : Likeness}

/-- If no names are marked, no construct is. -/
theorem mem_marksOf_unmarked (hmarks : ∀ ts, A.marks ts = false) (around : List Construct) :
    ∀ mark ∈ A.marksOf around, mark = false := by
  intro mark hmark
  obtain ⟨c, _, rfl⟩ := List.mem_map.mp hmark
  cases c with
  | block body => exact hmarks _
  | call f => exact hmarks _
  | receiver c => rfl
  | inheritance c => rfl

/-- The variable that a piece refers to is the reference that its visit resolves. -/
theorem own?_of_mention? {v : Visit} {x : Reference} (hx : x ∈ v.piece.mention?) :
    v.own? = some x := by
  obtain ⟨ctx, piece, w, around⟩ := v
  unfold Piece.mention? at hx
  dsimp only at hx
  split at hx
  · exact hx
  · exact hx
  · exact hx
  · contradiction

/-- The keyword that a piece refers to is the reference that its visit resolves. -/
theorem own?_of_keyword? {v : Visit} {x : Reference} (hx : x ∈ v.piece.keyword?) :
    v.own? = some x := by
  obtain ⟨ctx, piece, w, around⟩ := v
  unfold Piece.keyword? at hx
  dsimp only at hx
  split at hx
  · exact hx
  · exact hx
  · contradiction

/-- A recasting that marks no scope only has to replace tokens by ones that may stand for them. -/
theorem suits_of_unmarked (hmarks : ∀ ts, A.marks ts = false)
    (hplain : ∀ t, L.Tokens t (A.plain t)) (hdeclared : ∀ t, L.Tokens t (A.declared false t))
    (hused : ∀ ms x, L.Tokens x.name (A.used ms x)) {v : Visit}
    (hids : ∀ id ∈ v.ids, L.number id = A.shift + id) : A.Suits L v := by
  have hms := mem_marksOf_unmarked hmarks v.around
  have hhead : (A.marksOf v.around).headD false = false := by
    cases hcase : A.marksOf v.around with
    | nil => rfl
    | cons mark ms => exact hms mark (hcase ▸ List.mem_cons_self)
  have hdeclares (t : Token) : L.Declares false t (A.declared false t) :=
    ⟨(hdeclared t).kind, (hdeclared t).lexeme, (hdeclared t).place⟩
  have hrefers {x x' : Reference} (hx : v.own? = some x) (hid : x'.id = A.shift + x.id)
      (h : L.Tokens x.name x'.name) : L.Refers (A.marksOf v.around) x x' :=
    .of_token (hid.trans (hids _ (Visit.own_mem_ids hx)).symm) h
      (by rw [L.markOf_unmarked hms]; rfl)
  constructor
  · exact fun x hx => hrefers (own?_of_mention? hx) rfl (hused _ x)
  · exact fun x hx => hrefers (own?_of_keyword? hx) rfl (hplain x.name)
  · rw [hhead]
    exact fun d ds _ => hdeclares d.name
  · rw [hhead]
    exact fun f _ => rfl
  · rw [hhead]
    exact fun c _ => rfl
  · intro f _ t _
    rw [functionMark, hmarks]
    exact hdeclares t

end Recasting

/-! ## A piece is like itself -/

/-- The recasting that leaves all tokens as they are. -/
def Recasting.same : Recasting :=
  .moved id 0

/-- The identity keeps references. -/
theorem Recasting.reference_same (ms : List Bool) (x : Reference) : same.reference ms x = x := by
  simp [reference, same, moved, Token.moved]

/-- The identity keeps keywords. -/
theorem Recasting.keyword_same (x : Reference) : same.keyword x = x := by
  simp [keyword, same, moved, Token.moved]

mutual

/-- The identity keeps expressions. -/
theorem Expr.recast_same (ms : List Bool) (e : Expr) : e.recast .same ms = e := by
  cases e with
  | literal v => rfl
  | grouping e => rw [Expr.recast, e.recast_same]
  | unary op r => rw [Expr.recast, r.recast_same]; rfl
  | binary l op r => rw [Expr.recast, l.recast_same, r.recast_same]; rfl
  | logical l op r => rw [Expr.recast, l.recast_same, r.recast_same]; rfl
  | reference x => rw [Expr.recast, Recasting.reference_same]
  | assign x e => rw [Expr.recast, e.recast_same, Recasting.reference_same]
  | call f paren es => rw [Expr.recast, f.recast_same, recastExprs_same]; rfl
  | get o name => rw [Expr.recast, o.recast_same]; rfl
  | set o name e => rw [Expr.recast, o.recast_same, e.recast_same]; rfl
  | index o bracket k => rw [Expr.recast, o.recast_same, k.recast_same]; rfl
  | setIndex o bracket k e => rw [Expr.recast, o.recast_same, k.recast_same, e.recast_same]; rfl
  | this x => rw [Expr.recast, Recasting.keyword_same]
  | super x name => rw [Expr.recast, Recasting.keyword_same]; rfl
  | function f => rw [Expr.recast, f.recast_same]
  | array bracket es => rw [Expr.recast, recastExprs_same]; rfl
  | object brace es => rw [Expr.recast, recastEntries_same]; rfl

/-- The identity keeps lists of expressions. -/
theorem recastExprs_same (ms : List Bool) (es : List Expr) : recastExprs .same ms es = es := by
  cases es with
  | nil => rfl
  | cons e es => rw [recastExprs, e.recast_same, recastExprs_same]

/-- The identity keeps entries. -/
theorem recastEntries_same (ms : List Bool) (es : List Entry) :
    recastEntries .same ms es = es := by
  obtain _ | ⟨⟨key, e⟩, es⟩ := es
  · rfl
  · rw [recastEntries, e.recast_same, recastEntries_same]; rfl

/-- The identity keeps functions. -/
theorem FunctionDecl.recast_same (ms : List Bool) (f : FunctionDecl) :
    f.recast .same ms = f := by
  obtain ⟨name, keyword, params, body⟩ := f
  have hplain : Recasting.same.plain = id := rfl
  have hdeclared (mark : Bool) : Recasting.same.declared mark = id := rfl
  rw [FunctionDecl.recast, recastStmts_same, hplain, hdeclared, Option.map_id, List.map_id]
  rfl

/-- The identity keeps methods. -/
theorem recastMethods_same (ms : List Bool) (fs : List FunctionDecl) :
    recastMethods .same ms fs = fs := by
  cases fs with
  | nil => rfl
  | cons f fs => rw [recastMethods, f.recast_same, recastMethods_same]

/-- The identity keeps declarators. -/
theorem recastDeclarators_same (ms : List Bool) (ds : List Declarator) :
    recastDeclarators .same ms ds = ds := by
  obtain _ | ⟨⟨name, _ | e⟩, ds⟩ := ds
  · rfl
  · rw [recastDeclarators, recastDeclarators_same]; rfl
  · rw [recastDeclarators, e.recast_same, recastDeclarators_same]; rfl

/-- The identity keeps classes. -/
theorem ClassDecl.recast_same (ms : List Bool) (c : ClassDecl) : c.recast .same ms = c := by
  obtain ⟨name, superclasses, methods⟩ := c
  have hreference : Recasting.same.reference ms = id := funext (Recasting.reference_same ms)
  rw [ClassDecl.recast, recastMethods_same, hreference, List.map_id]
  rfl

/-- The identity keeps statements. -/
theorem Stmt.recast_same (ms : List Bool) (s : Stmt) : s.recast .same ms = s := by
  cases s with
  | expression e => rw [Stmt.recast, e.recast_same]
  | print e => rw [Stmt.recast, e.recast_same]
  | declare ds => rw [Stmt.recast, recastDeclarators_same]
  | block ss => rw [Stmt.recast, recastStmts_same]
  | branch c t e =>
    cases e with
    | none => rw [Stmt.recast, c.recast_same, t.recast_same]
    | some e => rw [Stmt.recast, c.recast_same, t.recast_same, e.recast_same]
  | loop c s => rw [Stmt.recast, c.recast_same, s.recast_same]
  | function f => rw [Stmt.recast, f.recast_same]
  | result keyword e =>
    cases e with
    | none => rfl
    | some e => rw [Stmt.recast, e.recast_same]; rfl
  | «class» c => rw [Stmt.recast, c.recast_same]

/-- The identity keeps lists of statements. -/
theorem recastStmts_same (ms : List Bool) (ss : List Stmt) : recastStmts .same ms ss = ss := by
  cases ss with
  | nil => rfl
  | cons s ss => rw [recastStmts, s.recast_same, recastStmts_same]

end

namespace Scoping

variable {L : Likeness} {ms : List Bool}

/-- The identity keeps pieces. -/
theorem Piece.recast_same (ms : List Bool) (p : Piece) : p.recast .same ms = p := by
  cases p with
  | expr e => rw [Piece.recast, e.recast_same]
  | exprs es => rw [Piece.recast, recastExprs_same]
  | entries es => rw [Piece.recast, recastEntries_same]
  | function f => rw [Piece.recast, f.recast_same]
  | methods fs => rw [Piece.recast, recastMethods_same]
  | declarators ds => rw [Piece.recast, recastDeclarators_same]
  | superclasses name xs =>
    have hreference : Recasting.same.reference ms = id := funext (Recasting.reference_same ms)
    rw [Piece.recast, hreference, List.map_id]
    rfl
  | superclass x => rw [Piece.recast, Recasting.reference_same]
  | «class» c => rw [Piece.recast, c.recast_same]
  | stmt s => rw [Piece.recast, s.recast_same]
  | stmts ss => rw [Piece.recast, recastStmts_same]

/-- Where no scope is marked, a piece is like itself if its references keep their numbers. -/
theorem Alike.refl (v : Visit) (hids : ∀ id ∈ v.ids, L.number id = id)
    (hms : ∀ mark ∈ ms, mark = false) : Alike L ms v.piece v.piece := by
  -- The piece is visited within as many blocks as there are marks.
  let root : Visit := ⟨{}, v.piece, {}, List.replicate ms.length (.block [])⟩
  have hmarks : Recasting.same.marksOf root.around = ms := by
    rw [Recasting.marksOf, List.map_replicate]
    exact (List.eq_replicate_of_mem hms).symm
  have hsuits : Visit.All (Recasting.same.Suits L) root := by
    intro v' hv'
    refine Recasting.suits_of_unmarked (fun _ => rfl) .refl (fun _ => .refl _)
      (fun _ _ => .refl _) ?_
    intro id hid
    have hmem := Visit.ids_within hv' hid
    have hsame : v.ids = root.ids := Visit.ids_congr rfl
    rw [hids id (hsame ▸ hmem)]
    exact (Nat.zero_add id).symm
  have halike := Visit.alike_recast .refl hsuits
  rwa [hmarks, Piece.recast_same] at halike

end Scoping

end Lox
