import Lox.Proofs.Grammar.Recasting
import Lox.Proofs.Scoping.Visits
import Lox.Proofs.Token.Spelling
import Mathlib.Data.Option.Basic

/-!
# Programs that are alike

Two programs are alike if they have the same shape and differ only as a `Likeness` allows: in scopes
that are marked, a variable of one name has another name in the second program, references may have
other numbers, and the positions of corresponding tokens are related somehow. A reference follows
the variable it refers to: the table of distances says in which scope that is, and its mark decides
how the reference may be spelled. `Alike` says so of two pieces, given the marks of the scopes
around them.
-/

namespace Lox.Scoping

/-- The distances of references that get other numbers. -/
def Distances.renumber (number : Nat → Nat) (d : Distances) : Distances :=
  ⟨d.entries.map fun entry => (number entry.1, entry.2)⟩

/-- The numbers stay as they are. -/
theorem Distances.renumber_id (d : Distances) : d.renumber id = d := by
  unfold renumber
  rw [show (fun entry : Nat × Nat => (id entry.1, entry.2)) = id from rfl, List.map_id]

/-- How two programs may differ. -/
structure Likeness where
  /-- The name that a variable has in the first program. -/
  old : String
  /-- The name that it has in the second one. -/
  new : String
  /-- Which positions of corresponding tokens are related. -/
  places : Position → Position → Prop
  /-- The references that may be spelled in another way. -/
  renamed : Reference → Prop
  /-- The number in the second program of a reference, given the one in the first. -/
  number : Nat → Nat
  /-- The distances of references of the first program. -/
  table : Distances
  /-- How many more times the output of the first program was flushed when both are run. -/
  flushes : Nat
  /-- Neither name is reserved. -/
  reserved : ∀ name, Reserved name → name ≠ old ∧ name ≠ new
  /-- A position is related to itself. -/
  places_refl : ∀ p, places p p
  /-- Different references have different numbers. -/
  injective : ∀ id id', number id = number id' → id = id'

namespace Likeness

variable (L : Likeness)

/-- The distances of references of the second program. -/
def table' : Distances :=
  L.table.renumber L.number

/-- Which lines of corresponding tokens are related. -/
def lines (line line' : Nat) : Prop :=
  ∃ p p', L.places p p' ∧ p.line = line ∧ p'.line = line'

/-- What a name in a scope is in the second program, given the mark of the scope. -/
def Name (mark : Bool) (a a' : String) : Prop :=
  if mark then a = L.old ∧ a' = L.new ∨ a ≠ L.old ∧ a ≠ L.new ∧ a' = a else a' = a

/-- Two tokens that may stand for each other. -/
structure Tokens (t t' : Token) : Prop where
  /-- They are of one kind. -/
  kind : t'.kind = t.kind
  /-- They have the same text. -/
  lexeme : t'.lexeme = t.lexeme
  /-- Their positions are related. -/
  place : L.places t.position t'.position

/-- Two tokens that may declare a variable in corresponding scopes. -/
structure Declares (mark : Bool) (t t' : Token) : Prop where
  /-- They are of one kind. -/
  kind : t'.kind = t.kind
  /-- Their texts are names for each other. -/
  name : L.Name mark t.lexeme t'.lexeme
  /-- Their positions are related. -/
  place : L.places t.position t'.position

/-- The mark of the scope in which a reference finds its variable. Globals have none. -/
def markOf (marks : List Bool) (x : Reference) : Bool :=
  match L.table.find? x.id with
  | some distance => marks.getD distance false
  | none => false

/-- Two references that may stand for each other. -/
structure Refers (marks : List Bool) (x x' : Reference) : Prop where
  /-- Their numbers correspond. -/
  id : x'.id = L.number x.id
  /-- They are of one kind. -/
  kind : x'.name.kind = x.name.kind
  /-- Their texts are names for each other in the scope that has the variable. -/
  name : L.Name (L.markOf marks x) x.name.lexeme x'.name.lexeme
  /-- Their texts differ only if they may. -/
  renamed : x'.name.lexeme ≠ x.name.lexeme → L.renamed x
  /-- Their positions are related. -/
  place : L.places x.name.position x'.name.position

section Names

variable {L} {mark : Bool} {a a' b b' : String}

/-- Names in a scope that is not marked are the same. -/
theorem Name.of_unmarked (h : L.Name false a a') : a' = a := h

/-- A name that is neither the old nor the new one is the same in all scopes. -/
theorem Name.of_ne (hold : a ≠ L.old) (hnew : a ≠ L.new) : L.Name mark a a := by
  cases mark with
  | false => rfl
  | true => exact .inr ⟨hold, hnew, rfl⟩

/-- A reserved name corresponds to itself. -/
theorem Name.of_reserved (h : Reserved a) : L.Name mark a a :=
  .of_ne (L.reserved a h).1 (L.reserved a h).2

/-- A name differs only if it is the old one and the scope is marked. -/
theorem Name.cases (h : L.Name mark a a') : a' = a ∨ a = L.old ∧ a' = L.new := by
  cases mark with
  | false => exact .inl h
  | true => exact h.symm.imp (·.2.2) id

/-- Different names stay different. -/
theorem Name.eq_iff (h : L.Name mark a a') (h' : L.Name mark b b') : a' = b' ↔ a = b := by
  cases mark with
  | false => rw [Name.of_unmarked h, Name.of_unmarked h']
  | true =>
    obtain ⟨rfl, rfl⟩ | ⟨hold, hnew, rfl⟩ := h <;> obtain ⟨rfl, rfl⟩ | ⟨hold', hnew', rfl⟩ := h'
    · simp
    · simp [Ne.symm hold', Ne.symm hnew']
    · simp [hold, hnew]
    · rfl

/-- A token corresponds to itself. -/
theorem Tokens.refl (t : Token) : L.Tokens t t :=
  ⟨rfl, rfl, L.places_refl _⟩

/-- Corresponding tokens are on related lines. -/
theorem Tokens.line {t t' : Token} (h : L.Tokens t t') : L.lines t.line t'.line :=
  ⟨_, _, h.place, rfl, rfl⟩

/-- Corresponding references are on related lines. -/
theorem Refers.line {marks : List Bool} {x x' : Reference} (h : L.Refers marks x x') :
    L.lines x.name.line x'.name.line :=
  ⟨_, _, h.place, rfl, rfl⟩

/-- References by corresponding tokens correspond if their numbers do. -/
theorem Refers.of_token {marks : List Bool} {x x' : Reference} (hid : x'.id = L.number x.id)
    (h : L.Tokens x.name x'.name) (hname : L.Name (L.markOf marks x) x.name.lexeme x.name.lexeme) :
    L.Refers marks x x' :=
  ⟨hid, h.kind, by rwa [h.lexeme], fun hne => absurd h.lexeme hne, h.place⟩

/-- A reference has the distance that its counterpart has. -/
theorem Refers.distance {marks : List Bool} {x x' : Reference} (h : L.Refers marks x x') :
    L.table'.find? x'.id = L.table.find? x.id := by
  rw [h.id]
  unfold table' Distances.renumber Distances.find?
  induction L.table.entries with
  | nil => rfl
  | cons entry entries ih =>
    rw [List.map_cons, List.lookup_cons, List.lookup_cons, ih]
    by_cases hid : x.id = entry.1
    · rw [hid, beq_self_eq_true, beq_self_eq_true]
    · have hne : L.number x.id ≠ L.number entry.1 := fun heq => hid (L.injective _ _ heq)
      rw [beq_false_of_ne hid, beq_false_of_ne hne]

end Names

/-- Programs that have the same names, and differ only in the positions of their tokens and in the
numbers of their references. -/
def plain (places : Position → Position → Prop) (number : Nat → Nat) (table : Distances)
    (places_refl : ∀ p, places p p) (injective : ∀ id id', number id = number id' → id = id')
    (flushes : Nat := 0) : Likeness where
  old := ""
  new := ""
  places := places
  renamed _ := False
  number := number
  table := table
  flushes := flushes
  reserved name hname := by
    obtain rfl | rfl := hname <;> decide
  places_refl := places_refl
  injective := injective

end Likeness

/-- Two association lists have corresponding names with related values. -/
def Entries {α β : Type} (L : Likeness) (mark : Bool) (V : α → β → Prop) (b : List (String × α))
    (b' : List (String × β)) : Prop :=
  List.Forall₂ (fun p p' => L.Name mark p.1 p'.1 ∧ V p.2 p'.2) b b'

namespace Entries

variable {α β : Type} {L : Likeness} {mark : Bool} {V W : α → β → Prop} {b : List (String × α)}
  {b' : List (String × β)} {name name' : String}

/-- What the values satisfy may be weakened. -/
theorem imp (h : Entries L mark V b b') (hVW : ∀ v v', V v v' → W v v') : Entries L mark W b b' :=
  List.Forall₂.imp (fun _ _ hp => ⟨hp.1, hVW _ _ hp.2⟩) h

/-- Corresponding names have related values, or none. -/
theorem lookup (h : Entries L mark V b b') (hname : L.Name mark name name') :
    Option.Rel V (b.lookup name) (b'.lookup name') := by
  induction h with
  | nil => exact .none
  | @cons p p' b b' hp _ ih =>
    have hiff := hname.eq_iff hp.1
    by_cases heq : name = p.1
    · have heq' := hiff.mpr heq
      rw [List.lookup_cons, List.lookup_cons, heq, heq', beq_self_eq_true, beq_self_eq_true]
      exact .some hp.2
    · have hne := mt hiff.mp heq
      rw [List.lookup_cons, List.lookup_cons, beq_false_of_ne heq, beq_false_of_ne hne]
      exact ih

end Entries

open Likeness in
/-- Two pieces have one shape, and their tokens correspond, given the marks of the scopes around
them. -/
inductive Alike (L : Likeness) : List Bool → Piece → Piece → Prop
  -- Expressions.
  | literal {ms : List Bool} {v : Literal} :
      Alike L ms (.expr (.literal v)) (.expr (.literal v))
  | grouping {ms : List Bool} {e e' : Expr} (h : Alike L ms (.expr e) (.expr e')) :
      Alike L ms (.expr (.grouping e)) (.expr (.grouping e'))
  | unary {ms : List Bool} {op op' : Token} {r r' : Expr} (hop : L.Tokens op op')
      (h : Alike L ms (.expr r) (.expr r')) :
      Alike L ms (.expr (.unary op r)) (.expr (.unary op' r'))
  | binary {ms : List Bool} {l l' r r' : Expr} {op op' : Token}
      (hl : Alike L ms (.expr l) (.expr l')) (hop : L.Tokens op op')
      (hr : Alike L ms (.expr r) (.expr r')) :
      Alike L ms (.expr (.binary l op r)) (.expr (.binary l' op' r'))
  | logical {ms : List Bool} {l l' r r' : Expr} {op op' : Token}
      (hl : Alike L ms (.expr l) (.expr l')) (hop : L.Tokens op op')
      (hr : Alike L ms (.expr r) (.expr r')) :
      Alike L ms (.expr (.logical l op r)) (.expr (.logical l' op' r'))
  | reference {ms : List Bool} {x x' : Reference} (hx : L.Refers ms x x') :
      Alike L ms (.expr (.reference x)) (.expr (.reference x'))
  | assign {ms : List Bool} {x x' : Reference} {e e' : Expr} (hx : L.Refers ms x x')
      (h : Alike L ms (.expr e) (.expr e')) :
      Alike L ms (.expr (.assign x e)) (.expr (.assign x' e'))
  | call {ms : List Bool} {f f' : Expr} {paren paren' : Token} {es es' : List Expr}
      (hf : Alike L ms (.expr f) (.expr f')) (hparen : L.Tokens paren paren')
      (hes : Alike L ms (.exprs es) (.exprs es')) :
      Alike L ms (.expr (.call f paren es)) (.expr (.call f' paren' es'))
  | get {ms : List Bool} {o o' : Expr} {name name' : Token}
      (ho : Alike L ms (.expr o) (.expr o')) (hname : L.Tokens name name') :
      Alike L ms (.expr (.get o name)) (.expr (.get o' name'))
  | set {ms : List Bool} {o o' e e' : Expr} {name name' : Token}
      (ho : Alike L ms (.expr o) (.expr o')) (hname : L.Tokens name name')
      (h : Alike L ms (.expr e) (.expr e')) :
      Alike L ms (.expr (.set o name e)) (.expr (.set o' name' e'))
  | index {ms : List Bool} {o o' k k' : Expr} {bracket bracket' : Token}
      (ho : Alike L ms (.expr o) (.expr o')) (hbracket : L.Tokens bracket bracket')
      (hk : Alike L ms (.expr k) (.expr k')) :
      Alike L ms (.expr (.index o bracket k)) (.expr (.index o' bracket' k'))
  | setIndex {ms : List Bool} {o o' k k' e e' : Expr} {bracket bracket' : Token}
      (ho : Alike L ms (.expr o) (.expr o')) (hbracket : L.Tokens bracket bracket')
      (hk : Alike L ms (.expr k) (.expr k')) (h : Alike L ms (.expr e) (.expr e')) :
      Alike L ms (.expr (.setIndex o bracket k e)) (.expr (.setIndex o' bracket' k' e'))
  | this {ms : List Bool} {x x' : Reference} (hx : L.Refers ms x x') :
      Alike L ms (.expr (.this x)) (.expr (.this x'))
  | super {ms : List Bool} {x x' : Reference} {name name' : Token} (hx : L.Refers ms x x')
      (hname : L.Tokens name name') :
      Alike L ms (.expr (.super x name)) (.expr (.super x' name'))
  | lambda {ms : List Bool} {f f' : FunctionDecl} (h : Alike L ms (.function f) (.function f')) :
      Alike L ms (.expr (.function f)) (.expr (.function f'))
  | array {ms : List Bool} {bracket bracket' : Token} {es es' : List Expr}
      (hbracket : L.Tokens bracket bracket') (h : Alike L ms (.exprs es) (.exprs es')) :
      Alike L ms (.expr (.array bracket es)) (.expr (.array bracket' es'))
  | object {ms : List Bool} {brace brace' : Token} {es es' : List Entry}
      (hbrace : L.Tokens brace brace') (h : Alike L ms (.entries es) (.entries es')) :
      Alike L ms (.expr (.object brace es)) (.expr (.object brace' es'))
  -- Lists of expressions and entries.
  | noExprs {ms : List Bool} :
      Alike L ms (.exprs []) (.exprs [])
  | moreExprs {ms : List Bool} {e e' : Expr} {es es' : List Expr}
      (h : Alike L ms (.expr e) (.expr e')) (hes : Alike L ms (.exprs es) (.exprs es')) :
      Alike L ms (.exprs (e :: es)) (.exprs (e' :: es'))
  | noEntries {ms : List Bool} :
      Alike L ms (.entries []) (.entries [])
  | moreEntries {ms : List Bool} {key key' : Token} {e e' : Expr} {es es' : List Entry}
      (hkey : L.Tokens key key') (h : Alike L ms (.expr e) (.expr e'))
      (hes : Alike L ms (.entries es) (.entries es')) :
      Alike L ms (.entries (⟨key, e⟩ :: es)) (.entries (⟨key', e'⟩ :: es'))
  -- Functions and classes. The scope of a function may have any mark.
  | function {ms : List Bool} {mark : Bool} {name name' : Option Token} {keyword keyword' : Token}
      {params params' : List Token} {body body' : List Stmt}
      (hname : Option.Rel L.Tokens name name') (hkeyword : L.Tokens keyword keyword')
      (hparams : List.Forall₂ (L.Declares mark) params params')
      (hbody : Alike L (mark :: ms) (.stmts body) (.stmts body')) :
      Alike L ms (.function ⟨name, keyword, params, body⟩)
        (.function ⟨name', keyword', params', body'⟩)
  | noMethods {ms : List Bool} :
      Alike L ms (.methods []) (.methods [])
  | moreMethods {ms : List Bool} {f f' : FunctionDecl} {fs fs' : List FunctionDecl}
      (h : Alike L ms (.function f) (.function f'))
    (hfs : Alike L ms (.methods fs) (.methods fs')) :
      Alike L ms (.methods (f :: fs)) (.methods (f' :: fs'))
  | superclass {ms : List Bool} {x x' : Reference} (hx : L.Refers ms x x') :
      Alike L ms (.superclass x) (.superclass x')
  | superclasses {ms : List Bool} {name name' : Token} {xs xs' : List Reference}
      (hname : L.Tokens name name') (hxs : List.Forall₂ (L.Refers ms) xs xs') :
      Alike L ms (.superclasses name xs) (.superclasses name' xs')
  | class {ms : List Bool} {name name' : Token} {xs xs' : List Reference}
      {fs fs' : List FunctionDecl} (hname : L.Tokens name name')
      (hdeclares : L.Name (ms.headD false) name.lexeme name.lexeme)
      (hxs : List.Forall₂ (L.Refers ms) xs xs')
      (hfs : Alike L (methodMarks ms xs) (.methods fs) (.methods fs')) :
      Alike L ms (.class ⟨name, xs, fs⟩) (.class ⟨name', xs', fs'⟩)
  -- Statements. The scope of a block may have any mark.
  | noDeclarators {ms : List Bool} :
      Alike L ms (.declarators []) (.declarators [])
  | uninitialized {ms : List Bool} {name name' : Token} {ds ds' : List Declarator}
      (hname : L.Declares (ms.headD false) name name')
      (hds : Alike L ms (.declarators ds) (.declarators ds')) :
      Alike L ms (.declarators (⟨name, none⟩ :: ds)) (.declarators (⟨name', none⟩ :: ds'))
  | initialized {ms : List Bool} {name name' : Token} {e e' : Expr} {ds ds' : List Declarator}
      (hname : L.Declares (ms.headD false) name name') (h : Alike L ms (.expr e) (.expr e'))
      (hds : Alike L ms (.declarators ds) (.declarators ds')) :
      Alike L ms (.declarators (⟨name, some e⟩ :: ds)) (.declarators (⟨name', some e'⟩ :: ds'))
  | expression {ms : List Bool} {e e' : Expr} (h : Alike L ms (.expr e) (.expr e')) :
      Alike L ms (.stmt (.expression e)) (.stmt (.expression e'))
  | print {ms : List Bool} {e e' : Expr} (h : Alike L ms (.expr e) (.expr e')) :
      Alike L ms (.stmt (.print e)) (.stmt (.print e'))
  | declare {ms : List Bool} {ds ds' : List Declarator}
      (h : Alike L ms (.declarators ds) (.declarators ds')) :
      Alike L ms (.stmt (.declare ds)) (.stmt (.declare ds'))
  | block {ms : List Bool} {mark : Bool} {ss ss' : List Stmt}
      (h : Alike L (mark :: ms) (.stmts ss) (.stmts ss')) :
      Alike L ms (.stmt (.block ss)) (.stmt (.block ss'))
  | branch {ms : List Bool} {c c' : Expr} {t t' : Stmt} (hc : Alike L ms (.expr c) (.expr c'))
      (ht : Alike L ms (.stmt t) (.stmt t')) :
      Alike L ms (.stmt (.branch c t none)) (.stmt (.branch c' t' none))
  | branchElse {ms : List Bool} {c c' : Expr} {t t' e e' : Stmt}
      (hc : Alike L ms (.expr c) (.expr c')) (ht : Alike L ms (.stmt t) (.stmt t'))
      (he : Alike L ms (.stmt e) (.stmt e')) :
      Alike L ms (.stmt (.branch c t (some e))) (.stmt (.branch c' t' (some e')))
  | loop {ms : List Bool} {c c' : Expr} {s s' : Stmt} (hc : Alike L ms (.expr c) (.expr c'))
      (hs : Alike L ms (.stmt s) (.stmt s')) :
      Alike L ms (.stmt (.loop c s)) (.stmt (.loop c' s'))
  | declareFunction {ms : List Bool} {f f' : FunctionDecl}
      (h : Alike L ms (.function f) (.function f'))
      (hname : L.Name (ms.headD false) f.displayName f.displayName) :
      Alike L ms (.stmt (.function f)) (.stmt (.function f'))
  | result {ms : List Bool} {keyword keyword' : Token} (hkeyword : L.Tokens keyword keyword') :
      Alike L ms (.stmt (.result keyword none)) (.stmt (.result keyword' none))
  | resultOf {ms : List Bool} {keyword keyword' : Token} {e e' : Expr}
      (hkeyword : L.Tokens keyword keyword') (h : Alike L ms (.expr e) (.expr e')) :
      Alike L ms (.stmt (.result keyword (some e))) (.stmt (.result keyword' (some e')))
  | declareClass {ms : List Bool} {c c' : ClassDecl} (h : Alike L ms (.class c) (.class c')) :
      Alike L ms (.stmt (.class c)) (.stmt (.class c'))
  | noStmts {ms : List Bool} :
      Alike L ms (.stmts []) (.stmts [])
  | moreStmts {ms : List Bool} {s s' : Stmt} {ss ss' : List Stmt}
      (h : Alike L ms (.stmt s) (.stmt s')) (hss : Alike L ms (.stmts ss) (.stmts ss')) :
      Alike L ms (.stmts (s :: ss)) (.stmts (s' :: ss'))

namespace Alike

variable {L : Likeness} {ms : List Bool}

/-- Functions that are alike are shown by the same name. -/
theorem displayName {f f' : FunctionDecl} (h : Alike L ms (.function f) (.function f')) :
    f'.displayName = f.displayName := by
  cases h with
  | function hname =>
    cases hname with
    | some hname => exact hname.lexeme
    | none => rfl

/-- Functions that are alike take as many arguments. -/
theorem arity {f f' : FunctionDecl} (h : Alike L ms (.function f) (.function f')) :
    f'.arity = f.arity := by
  cases h with
  | function _ _ hparams => exact hparams.length_eq.symm

end Alike

end Lox.Scoping
