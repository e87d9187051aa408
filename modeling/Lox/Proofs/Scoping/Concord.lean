import Lox.Proofs.Grammar.Naming
import Lox.Proofs.Scoping.Declarations
import Lox.Proofs.Scoping.Likeness

/-!
# Programs that are alike are scoped alike

If scoping finds no violation in a program, it finds none in a program that is like it, and the same
distances, under the numbers that the references have there. The scopes of the two walks have
corresponding names throughout. What a reference has to find is in corresponding scopes, and a scope
further in holds neither the name in the one program nor the name in the other. This needs that no
name of the first program is the new one.
-/

namespace Lox.Scoping

variable {L : Likeness} {ms : List Bool}

/-! ## Scopes -/

/-- Two scopes have corresponding names, which are defined in both or in neither. -/
abbrev ScopesAlike (L : Likeness) (mark : Bool) : Scope → Scope → Prop :=
  Entries L mark fun defined defined' => defined' = defined

/-- The scopes of two walks correspond, given their marks. -/
inductive AllScopesAlike (L : Likeness) : List Bool → List Scope → List Scope → Prop
  | nil : AllScopesAlike L [] [] []
  | cons {mark : Bool} {ms : List Bool} {scope scope' : Scope} {outer outer' : List Scope}
      (h : ScopesAlike L mark scope scope') (houter : AllScopesAlike L ms outer outer') :
    AllScopesAlike L (mark :: ms) (scope :: outer) (scope' :: outer')

namespace ScopesAlike

variable {mark : Bool} {scope scope' : Scope} {a a' : String}

/-- Corresponding names are found in both scopes or in neither. -/
theorem lookup (h : ScopesAlike L mark scope scope') (hname : L.Name mark a a') :
    scope'.lookup a' = scope.lookup a := by
  have hrel := Entries.lookup h hname
  revert hrel
  generalize scope.lookup a = defined
  generalize scope'.lookup a' = defined'
  intro hrel
  cases hrel with
  | none => rfl
  | some heq => rw [heq]

/-- In a marked scope nothing has the old name any more. -/
theorem lookup_old (h : ScopesAlike L true scope scope') (hne : L.old ≠ L.new) :
    scope'.lookup L.old = none := by
  induction h with
  | nil => rfl
  | @cons p p' scope scope' hp _ ih =>
    have hdiffers : L.old ≠ p'.1 := by
      obtain ⟨_, hnew⟩ | ⟨hold, _, hsame⟩ := hp.1
      · rwa [hnew]
      · rw [hsame]
        exact hold.symm
    rw [List.lookup_cons, beq_false_of_ne hdiffers]
    exact ih

/-- If a scope does not hold a name, the other one does not hold the name that it corresponds to in
whatever scope it is found. -/
theorem lookup_none (h : ScopesAlike L mark scope scope') (hfresh : scope.lookup L.new = none)
    (hnew : a ≠ L.new) (hnone : scope.lookup a = none) {found : Bool}
    (hname : L.Name found a a') : scope'.lookup a' = none := by
  obtain rfl | ⟨rfl, rfl⟩ := hname.cases
  · cases mark with
    | false => exact (h.lookup rfl).trans hnone
    | true =>
      by_cases hold : a' = L.old
      · rw [hold] at hnew ⊢
        exact h.lookup_old hnew
      · exact (h.lookup (.of_ne hold hnew)).trans hnone
  · cases mark with
    | false => exact (h.lookup rfl).trans hfresh
    | true => exact (h.lookup (.inl ⟨rfl, rfl⟩)).trans hnone

end ScopesAlike

/-! ## Walks -/

/-- Two walks have come equally far through programs that are alike. -/
structure Walks (L : Likeness) (ms : List Bool) (w w' : Walk) : Prop where
  /-- The scopes correspond. -/
  scopes : AllScopesAlike L ms w.scopes w'.scopes
  /-- No scope of the first program holds the new name. -/
  fresh : ∀ scope ∈ w.scopes, scope.lookup L.new = none
  /-- The distances are the same, under other numbers. -/
  distances : w'.distances = w.distances.renumber L.number
  /-- The second walk has found no violation. -/
  clean : w'.violations = []

namespace Walks

variable {w w' : Walk} {t t' : Token} {x x' : Reference}

/-- Walks stay in concord when they enter scopes that are alike. -/
theorem enter {mark : Bool} {scope scope' : Scope} (h : Walks L ms w w')
    (hscope : ScopesAlike L mark scope scope') (hfresh : scope.lookup L.new = none) :
    Walks L (mark :: ms) (w.enter scope) (w'.enter scope') where
  scopes := .cons hscope h.scopes
  fresh := List.forall_mem_cons.mpr ⟨hfresh, h.fresh⟩
  distances := h.distances
  clean := h.clean

/-- A scope that is opened with a reserved word. -/
theorem enter_reserved {name : String} (hname : Reserved name) (h : Walks L ms w w') :
    Walks L (false :: ms) (w.enter [(name, true)]) (w'.enter [(name, true)]) := by
  have hscope : ScopesAlike L false [(name, true)] [(name, true)] := .cons ⟨rfl, rfl⟩ .nil
  refine h.enter hscope ?_
  rw [List.lookup_cons, beq_false_of_ne (L.reserved name hname).2.symm]
  rfl

/-- Walks stay in concord when they leave a scope. -/
theorem leave {mark : Bool} (h : Walks L (mark :: ms) w w') : Walks L ms w.leave w'.leave := by
  obtain ⟨hscopes, hfresh, hdistances, hclean⟩ := h
  refine ⟨?_, fun scope hscope => hfresh scope (List.mem_of_mem_tail hscope), hdistances, hclean⟩
  unfold Walk.leave
  cases hcase : w.scopes with
  | nil =>
    rw [hcase] at hscopes
    cases hscopes
  | cons scope outer =>
    rw [hcase] at hscopes
    generalize w'.scopes = scopes' at hscopes ⊢
    cases hscopes with
    | cons _ houter => exact houter

/-- A scope without the new name has none after another name. -/
theorem lookup_cons_ne {scope : Scope} {defined : Bool} (hfresh : scope.lookup L.new = none)
    (hnew : t.lexeme ≠ L.new) : List.lookup L.new ((t.lexeme, defined) :: scope) = none := by
  rw [List.lookup_cons, beq_false_of_ne hnew.symm]
  exact hfresh

/-- Walks stay in concord when they declare a name. -/
theorem declare (h : Walks L ms w w') (ht : L.Declares (ms.headD false) t t')
    (hnew : t.lexeme ≠ L.new) (hclean : (w.declare t).violations = []) :
    Walks L ms (w.declare t) (w'.declare t') := by
  obtain ⟨hscopes, hfresh, hdistances, hclean'⟩ := h
  obtain ⟨scopes, distances, violations⟩ := w
  obtain ⟨scopes', distances', violations'⟩ := w'
  dsimp only at hscopes
  cases hscopes with
  | nil => exact ⟨.nil, hfresh, hdistances, hclean'⟩
  | @cons mark ms scope scope' outer outer' hscope houter =>
    have hlookup := hscope.lookup ht.name
    unfold Walk.declare at hclean ⊢
    dsimp only at hclean ⊢
    rw [hlookup]
    cases hold : scope.lookup t.lexeme with
    | some defined => simp [hold, Walk.violate] at hclean
    | none =>
      obtain ⟨hfresh, hfreshOuter⟩ := List.forall_mem_cons.mp hfresh
      have hscope' :
          ScopesAlike L mark ((t.lexeme, false) :: scope) ((t'.lexeme, false) :: scope') :=
        .cons ⟨ht.name, rfl⟩ hscope
      exact ⟨.cons hscope' houter,
        List.forall_mem_cons.mpr ⟨lookup_cons_ne hfresh hnew, hfreshOuter⟩, hdistances, hclean'⟩

/-- Walks stay in concord when they define a name. -/
theorem define (h : Walks L ms w w') (ht : L.Declares (ms.headD false) t t')
    (hnew : t.lexeme ≠ L.new) : Walks L ms (w.define t) (w'.define t') := by
  obtain ⟨hscopes, hfresh, hdistances, hclean'⟩ := h
  obtain ⟨scopes, distances, violations⟩ := w
  obtain ⟨scopes', distances', violations'⟩ := w'
  dsimp only at hscopes
  cases hscopes with
  | nil => exact ⟨.nil, hfresh, hdistances, hclean'⟩
  | @cons mark ms scope scope' outer outer' hscope houter =>
    obtain ⟨hfresh, hfreshOuter⟩ := List.forall_mem_cons.mp hfresh
    have hscope' : ScopesAlike L mark ((t.lexeme, true) :: scope) ((t'.lexeme, true) :: scope') :=
      .cons ⟨ht.name, rfl⟩ hscope
    exact ⟨.cons hscope' houter,
      List.forall_mem_cons.mpr ⟨lookup_cons_ne hfresh hnew, hfreshOuter⟩, hdistances, hclean'⟩

/-- A name without an initial value is declared and defined at once. -/
theorem named (h : Walks L ms w w') (ht : L.Declares (ms.headD false) t t')
    (hnew : t.lexeme ≠ L.new) (hclean : ((w.declare t).define t).violations = []) :
    Walks L ms ((w.declare t).define t) ((w'.declare t').define t') := by
  have hdeclare := (Walk.Leads.define (w.declare t) t).clean hclean
  exact (h.declare ht hnew hdeclare).define ht hnew

/-- Walks stay in concord when they declare parameters. -/
theorem parameters {params params' : List Token} (h : Walks L ms w w')
    (hparams : List.Forall₂ (L.Declares (ms.headD false)) params params')
    (hnew : ∀ t ∈ params, t.lexeme ≠ L.new) (hclean : (w.parameters params).violations = []) :
    Walks L ms (w.parameters params) (w'.parameters params') := by
  induction hparams generalizing w w' with
  | nil => exact h
  | @cons t t' params params' ht _ ih =>
    obtain ⟨hnew, hnewRest⟩ := List.forall_mem_cons.mp hnew
    have hcleanNamed := (Walk.Leads.parameters ((w.declare t).define t) params).clean hclean
    exact ih (h.named ht hnew hcleanNamed) hnewRest hclean

/-- A reference and its counterpart find their variables equally far out, and up to there the scopes
hold them alike. -/
theorem findIdx? {scopes scopes' : List Scope} (h : AllScopesAlike L ms scopes scopes')
    (hfresh : ∀ scope ∈ scopes, scope.lookup L.new = none) {a a' : String} (hnew : a ≠ L.new)
    (hname : L.Name ((scopes.findIdx? fun scope => (scope.lookup a).isSome).elim false
      fun distance => ms.getD distance false) a a') :
    (scopes'.findIdx? fun scope => (scope.lookup a').isSome) =
        (scopes.findIdx? fun scope => (scope.lookup a).isSome) ∧
      ∀ scope ∈ scopes.head?, ∀ scope' ∈ scopes'.head?, scope'.lookup a' = scope.lookup a := by
  induction h with
  | nil => exact ⟨rfl, fun _ hscope => absurd hscope (Option.not_mem_none _)⟩
  | @cons mark ms scope scope' outer outer' hscope _ ih =>
    obtain ⟨hfresh, hfreshOuter⟩ := List.forall_mem_cons.mp hfresh
    rw [List.findIdx?_cons] at hname ⊢
    rw [List.findIdx?_cons]
    cases hfound : scope.lookup a with
    | some defined =>
      -- The variable is in the innermost scope.
      rw [hfound] at hname
      have hlookup := (hscope.lookup hname).trans hfound
      refine ⟨by rw [hlookup]; rfl, ?_⟩
      rintro _ ⟨⟩ _ ⟨⟩
      rw [hlookup, hfound]
    | none =>
      rw [hfound] at hname
      have hlookup := hscope.lookup_none hfresh hnew hfound hname
      rw [hlookup]
      have houter := ih hfreshOuter ?_
      · refine ⟨by rw [houter.1], ?_⟩
        rintro _ ⟨⟩ _ ⟨⟩
        rw [hlookup, hfound]
      · revert hname
        cases outer.findIdx? fun scope => (scope.lookup a).isSome <;> exact id

/-- Walks in concord find a reference at the same distance and in the same state. -/
theorem find (h : Walks L ms w w') (hx : L.Refers ms x x') (hnew : x.name.lexeme ≠ L.new)
    (hrecorded : L.table.find? x.id = w.distance? x) :
    w'.distance? x' = w.distance? x ∧ ∀ scope ∈ w.scopes.head?, ∀ scope' ∈ w'.scopes.head?,
      scope'.lookup x'.name.lexeme = scope.lookup x.name.lexeme := by
  refine findIdx? h.scopes h.fresh hnew ?_
  have hname := hx.name
  unfold Likeness.markOf at hname
  rw [hrecorded] at hname
  unfold Walk.distance? at hname
  revert hname
  cases w.scopes.findIdx? fun scope => (scope.lookup x.name.lexeme).isSome <;> exact id

/-- Walks stay in concord when they resolve a reference. -/
theorem resolve (h : Walks L ms w w') (hx : L.Refers ms x x') (hnew : x.name.lexeme ≠ L.new)
    (hrecorded : L.table.find? x.id = w.distance? x) :
    Walks L ms (w.resolve x) (w'.resolve x') := by
  have hdistance := (h.find hx hnew hrecorded).1
  unfold Walk.distance? at hdistance
  unfold Walk.resolve
  rw [hdistance]
  cases w.scopes.findIdx? fun scope => (scope.lookup x.name.lexeme).isSome with
  | none => exact h
  | some distance =>
    refine { h with distances := ?_ }
    dsimp only
    rw [h.distances, hx.id]
    rfl

/-- Walks stay in concord when they read a variable. -/
theorem read (h : Walks L ms w w') (hx : L.Refers ms x x') (hnew : x.name.lexeme ≠ L.new)
    (hrecorded : L.table.find? x.id = w.distance? x) (hclean : (w.read x).violations = []) :
    Walks L ms (w.read x) (w'.read x') := by
  have hhead := (h.find hx hnew hrecorded).2
  have hunready : (w'.scopes.head?.any fun scope => scope.lookup x'.name.lexeme == some false) =
      w.scopes.head?.any fun scope => scope.lookup x.name.lexeme == some false := by
    have hscopes := h.scopes
    revert hhead hscopes
    generalize w.scopes = scopes
    generalize w'.scopes = scopes'
    intro hhead hscopes
    cases hscopes with
    | nil => rfl
    | @cons _ _ scope scope' =>
      have hlookup := hhead scope rfl scope' rfl
      simp only [List.head?_cons, Option.any_some, hlookup]
  unfold Walk.read at hclean ⊢
  dsimp only at hclean ⊢
  rw [hunready]
  cases hcase : w.scopes.head?.any fun scope => scope.lookup x.name.lexeme == some false with
  | true =>
    rw [hcase, if_pos rfl, Walk.resolve_violations] at hclean
    simp [Walk.violate] at hclean
  | false => exact h.resolve hx hnew hrecorded

end Walks

/-! ## Visits -/

section Visits

open Visit

/-- Only a class and a list of superclasses have a list of superclasses as a part. -/
theorem superclasses_part {v p : Visit} (hp : p ∈ v.parts) {name : Token} {xs : List Reference}
    (hpiece : p.piece = .superclasses name xs) :
    (∃ c, v.piece = .class c ∧ c.name = name) ∨ ∃ ys, v.piece = .superclasses name ys := by
  have hmem : Piece.superclasses name xs ∈ v.parts.map Visit.piece :=
    hpiece ▸ List.mem_map_of_mem hp
  clear hp hpiece
  obtain ⟨ctx, piece, w, around⟩ := v
  cases piece with
  | expr e => cases e <;> simp [parts, exprParts] at hmem
  | exprs es => cases es <;> simp [parts] at hmem
  | entries es => obtain _ | ⟨⟨key, e⟩, es⟩ := es <;> simp [parts] at hmem
  | function f => simp [parts] at hmem
  | methods fs => cases fs <;> simp [parts] at hmem
  | declarators ds => obtain _ | ⟨⟨name, _ | e⟩, ds⟩ := ds <;> simp [parts] at hmem
  | superclasses other ys =>
    cases ys <;> simp [parts] at hmem
    exact .inr ⟨_, by rw [hmem.1]⟩
  | superclass x => simp [parts] at hmem
  | «class» c =>
    simp [parts] at hmem
    exact .inl ⟨c, rfl, hmem.1.symm⟩
  | stmt s =>
    cases s with
    | branch c t e => cases e <;> simp [parts, stmtParts] at hmem
    | result keyword e => cases e <;> simp [parts, stmtParts] at hmem
    | _ => simp [parts, stmtParts] at hmem
  | stmts ss => cases ss <;> simp [parts] at hmem

/-- What is asked of a program so that its counterpart is scoped like it. -/
structure Orderly (L : Likeness) (v : Visit) : Prop where
  /-- There is no violation. -/
  clean : v.after.violations = []
  /-- The table has the distances of all references. -/
  recorded : All (Recorded L.table) v
  /-- No name is the new one. -/
  names : All (Names fun t => t.lexeme ≠ L.new) v
  /-- Nor is that of a class whose superclasses are visited. -/
  inherits : ∀ name xs, v.piece = .superclasses name xs → name.lexeme ≠ L.new

/-- The parts of an orderly visit are orderly. -/
theorem Orderly.part {v p : Visit} (h : Orderly L v) (hp : p ∈ v.parts) : Orderly L p := by
  refine ⟨clean_parts h.clean p hp, h.recorded.part hp, h.names.part hp, fun name xs hpiece => ?_⟩
  obtain ⟨c, hc, rfl⟩ | ⟨ys, hys⟩ := superclasses_part hp hpiece
  · exact (h.names.self (.identifier, c.name) (by simp [hc, Piece.words])).2
  · exact h.inherits name ys hys

/-- No word of an orderly visit is the new name. -/
theorem Orderly.ne {v : Visit} (h : Orderly L v) (kind : Token.Kind) (t : Token)
    (ht : (kind, t) ∈ v.piece.words) : t.lexeme ≠ L.new :=
  (h.names.self _ ht).2

/-- The display name decides whether a method is an initializer. -/
theorem Body.ofMethod_congr {f f' : FunctionDecl} (h : f'.displayName = f.displayName) :
    Body.ofMethod f' = Body.ofMethod f := by
  unfold Body.ofMethod
  rw [h]

/-- The walks through two pieces that are alike go equally far. -/
theorem walks_after {v : Visit} (h : Orderly L v) {p : Piece} (hp : Alike L ms v.piece p) {w : Walk}
    (hw : Walks L ms v.walk w) : Walks L ms v.after (Visit.after ⟨v.ctx, p, w, []⟩) := by
  induction v using Visit.induction generalizing ms p w with
  | step v ih =>
  have hclean := h.clean
  have hrecorded := h.recorded.self
  have hne := h.ne
  have hpart := fun q hq => h.part (p := q) hq
  replace ih : ∀ q ∈ v.parts, ∀ {ms : List Bool} {p : Piece} {w : Walk}, Alike L ms q.piece p →
      Walks L ms q.walk w → Walks L ms q.after (Visit.after ⟨q.ctx, p, w, []⟩) :=
    fun q hq _ _ _ halike hw => ih q hq (h.part hq) halike hw
  obtain ⟨ctx, piece, w₀, around⟩ := v
  cases hp with
  -- Expressions.
  | literal => exact hw
  | grouping he =>
    exact (ih _ List.mem_cons_self he hw :)
  | unary _ hr =>
    exact (ih _ List.mem_cons_self hr hw :)
  | binary hl _ hr =>
    have hl := ih _ List.mem_cons_self hl hw
    exact (ih _ (List.mem_cons_of_mem _ List.mem_cons_self) hr hl :)
  | logical hl _ hr =>
    have hl := ih _ List.mem_cons_self hl hw
    exact (ih _ (List.mem_cons_of_mem _ List.mem_cons_self) hr hl :)
  | reference hx => exact hw.read hx (hne _ _ List.mem_cons_self) (hrecorded _ rfl) hclean
  | @assign _ x x' e e' hx he =>
    have he := ih _ List.mem_cons_self he hw
    refine he.resolve hx (hne _ _ List.mem_cons_self) ((hrecorded x rfl).trans ?_)
    unfold Walk.distance?
    exact congrArg _ (walkExpr_scopes ctx w₀ e).symm
  | call hf _ hes =>
    have hf := ih _ List.mem_cons_self hf hw
    exact (ih _ (List.mem_cons_of_mem _ List.mem_cons_self) hes hf :)
  | get ho =>
    exact (ih _ List.mem_cons_self ho hw :)
  | set ho _ he =>
    have he := ih _ List.mem_cons_self he hw
    exact (ih _ (List.mem_cons_of_mem _ List.mem_cons_self) ho he :)
  | index ho _ hk =>
    have ho := ih _ List.mem_cons_self ho hw
    exact (ih _ (List.mem_cons_of_mem _ List.mem_cons_self) hk ho :)
  | setIndex ho _ hk he =>
    simp only [parts, exprParts, List.forall_mem_cons] at ih
    exact (ih.2.2.1 he (ih.2.1 hk (ih.1 ho hw)) :)
  | this hx =>
    have hresolve := hw.resolve hx (hne _ _ List.mem_cons_self) (hrecorded _ rfl)
    obtain ⟨body, home⟩ := ctx
    cases home with
    | none => exact absurd hclean (by simp [Visit.after, walkExpr, Walk.violate])
    | base => exact hresolve
    | derived => exact hresolve
  | super hx =>
    have hresolve := hw.resolve hx (hne _ _ List.mem_cons_self) (hrecorded _ rfl)
    obtain ⟨body, home⟩ := ctx
    cases home with
    | none => exact absurd hclean (by simp [Visit.after, walkExpr, Walk.violate])
    | base => exact absurd hclean (by simp [Visit.after, walkExpr, Walk.violate])
    | derived => exact hresolve
  | lambda hf =>
    exact (ih _ List.mem_cons_self hf hw :)
  | array _ hes =>
    exact (ih _ List.mem_cons_self hes hw :)
  | object _ hes =>
    exact (ih _ List.mem_cons_self hes hw :)
  -- Lists of expressions and entries.
  | noExprs => exact hw
  | moreExprs he hes =>
    have he := ih _ List.mem_cons_self he hw
    exact (ih _ (List.mem_cons_of_mem _ List.mem_cons_self) hes he :)
  | noEntries => exact hw
  | moreEntries _ he hes =>
    have he := ih _ List.mem_cons_self he hw
    exact (ih _ (List.mem_cons_of_mem _ List.mem_cons_self) hes he :)
  -- Functions and classes.
  | @function _ mark _ _ _ _ params params' body body' _ _ hparams hbody =>
    have henter : Walks L (mark :: ms) (w₀.enter []) (w.enter []) := hw.enter .nil rfl
    have hcleanBody := (hpart _ List.mem_cons_self).clean
    have hdeclared := henter.parameters hparams
      (fun t ht => hne _ _ (List.mem_map_of_mem ht)) (clean_walk hcleanBody)
    exact (ih _ List.mem_cons_self hbody hdeclared).leave
  | noMethods => exact hw
  | @moreMethods _ f f' fs fs' hf hfs =>
    have hfunction := ih _ List.mem_cons_self hf hw
    have hmethods := ih _ (List.mem_cons_of_mem _ List.mem_cons_self) hfs hfunction
    have hbody := Body.ofMethod_congr hf.displayName
    unfold Visit.after at hmethods ⊢
    dsimp only at hmethods ⊢
    rw [walkMethods, walkMethods, hbody]
    exact hmethods
  | superclass hx => exact hw.read hx (hne _ _ List.mem_cons_self) (hrecorded _ rfl) hclean
  | @superclasses _ name name' xs xs' hname hxs =>
    have hnew := h.inherits name xs rfl
    cases hxs with
    | nil => exact hw
    | @cons x x' xs xs' hx hxs =>
      have hcleanOwn := clean_walk (hpart _ List.mem_cons_self).clean
      -- The class does not inherit from itself, and so it is after a renaming.
      have hown : x.name.lexeme ≠ name.lexeme := by
        intro heq
        simp [notOwn, heq, Walk.violate] at hcleanOwn
      have hown' : x'.name.lexeme ≠ name'.lexeme := by
        rw [hname.lexeme]
        obtain heq | ⟨_, heq⟩ := hx.name.cases
        · rwa [heq]
        · rw [heq]
          exact hnew.symm
      have hstart : notOwn ⟨ctx, .superclasses name (x :: xs), w₀, around⟩ name x = w₀ :=
        if_neg hown
      simp only [parts, List.forall_mem_cons, hstart] at ih
      have hread := ih.1 (.superclass hx) hw
      have hrest := ih.2.1 (.superclasses hname hxs) hread
      unfold Visit.after Walk.superclasses at hrest ⊢
      dsimp only at hrest ⊢
      rw [List.foldl_cons, List.foldl_cons, if_neg hown, if_neg hown']
      exact hrest
  | @«class» _ name name' xs xs' fs fs' hname hdeclares hxs hfs =>
    have hnew := hne _ _ List.mem_cons_self
    have hnameDeclares : L.Declares (ms.headD false) name name' :=
      ⟨hname.kind, by rwa [hname.lexeme], hname.place⟩
    have hcleanNamed := clean_walk (hpart _ List.mem_cons_self).clean
    have hnamed := hw.named hnameDeclares hnew hcleanNamed
    have hsupers := ih _ List.mem_cons_self (.superclasses hname hxs) hnamed
    -- A class that inherits has two scopes around its methods.
    cases hxs with
    | nil =>
      have hinner := hsupers.enter_reserved (.inl rfl)
      have hmethods := ih _ (List.mem_cons_of_mem _ List.mem_cons_self) hfs hinner
      exact hmethods.leave
    | cons =>
      have hinner := (hsupers.enter_reserved (.inr rfl)).enter_reserved (.inl rfl)
      have hmethods := ih _ (List.mem_cons_of_mem _ List.mem_cons_self) hfs hinner
      exact hmethods.leave.leave
  -- Statements.
  | noDeclarators => exact hw
  | @uninitialized _ name name' ds ds' hname hds =>
    have hnew := hne _ _ List.mem_cons_self
    have hcleanNamed := clean_walk (hpart _ List.mem_cons_self).clean
    have hnamed := hw.named hname hnew hcleanNamed
    exact (ih _ List.mem_cons_self hds hnamed :)
  | @initialized _ name name' e e' ds ds' hname he hds =>
    have hnew := hne _ _ List.mem_cons_self
    have hcleanDeclare := clean_walk (hpart _ List.mem_cons_self).clean
    have hvalue := ih _ List.mem_cons_self he (hw.declare hname hnew hcleanDeclare)
    exact (ih _ (List.mem_cons_of_mem _ List.mem_cons_self) hds (hvalue.define hname hnew) :)
  | expression he =>
    exact (ih _ List.mem_cons_self he hw :)
  | print he =>
    exact (ih _ List.mem_cons_self he hw :)
  | declare hds =>
    exact (ih _ List.mem_cons_self hds hw :)
  | @block _ mark _ _ hss =>
    have henter : Walks L (mark :: ms) (w₀.enter []) (w.enter []) := hw.enter .nil rfl
    exact (ih _ List.mem_cons_self hss henter).leave
  | branch hc ht =>
    have hc := ih _ List.mem_cons_self hc hw
    exact (ih _ (List.mem_cons_of_mem _ List.mem_cons_self) ht hc :)
  | branchElse hc ht he =>
    simp only [parts, stmtParts, List.forall_mem_cons] at ih
    exact (ih.2.2.1 he (ih.2.1 ht (ih.1 hc hw)) :)
  | loop hc hs =>
    have hc := ih _ List.mem_cons_self hc hw
    exact (ih _ (List.mem_cons_of_mem _ List.mem_cons_self) hs hc :)
  | @declareFunction _ f f' hf hdeclares =>
    obtain ⟨name, keyword, params, body⟩ := f
    obtain ⟨name', keyword', params', body'⟩ := f'
    have hnames : Option.Rel L.Tokens name name' := by
      cases hf
      assumption
    cases hnames with
    | none =>
      exact (ih _ List.mem_cons_self hf hw :)
    | @some name name' hname =>
      have hnew := hne _ _ List.mem_cons_self
      have hnameDeclares : L.Declares (ms.headD false) name name' :=
        ⟨hname.kind, by rwa [hname.lexeme], hname.place⟩
      have hcleanNamed := clean_walk (hpart _ List.mem_cons_self).clean
      have hnamed := hw.named hnameDeclares hnew hcleanNamed
      exact (ih _ List.mem_cons_self hf hnamed :)
  | result =>
    obtain ⟨body, home⟩ := ctx
    cases body with
    | none => exact absurd hclean (by simp [Visit.after, walkStmt, Walk.violate])
    | function => exact hw
    | initializer => exact hw
  | resultOf _ he =>
    have hcleanStart := clean_walk (hpart _ List.mem_cons_self).clean
    obtain ⟨body, home⟩ := ctx
    cases body with
    | none => exact absurd hcleanStart (by simp [Walk.violate])
    | function =>
      exact (ih _ List.mem_cons_self he hw :)
    | initializer => exact absurd hcleanStart (by simp [Walk.violate])
  | declareClass hc =>
    exact (ih _ List.mem_cons_self hc hw :)
  | noStmts => exact hw
  | moreStmts hs hss =>
    have hs := ih _ List.mem_cons_self hs hw
    exact (ih _ (List.mem_cons_of_mem _ List.mem_cons_self) hss hs :)

end Visits

end Lox.Scoping
