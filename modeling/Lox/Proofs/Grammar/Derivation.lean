import Lox.Grammar

/-!
# The grammar

`Derives c ts n a n'` says that the tokens `ts` are a phrase of the category `c`, that its tree is
`a`, and that its references take the numbers from `n` up to `n'`. The rules are those of the
grammar, one for each alternative; they do not mention how a parser finds them. The operators with
their levels and their trees, the order of the levels, the signs, the keys of entries and the tree
of a counting loop are given by rules of their own. The last section shows that the tables of the
parser agree with them.

Three places are ambiguous if only the tokens are looked at. A statement that starts with a brace is
a block: an expression that is used as a statement must not start with one. A function that has a
name is a declaration: no expression starts with `fun` and a name. And an `else` belongs to the
nearest `if`: a statement is marked as dangling if it ends with an `if` that could still take an
`else`, and such a statement cannot stand before an `else`.
-/

namespace Lox.Grammar

/-- A category of phrases. -/
inductive Category where
  /-- Any expression. -/
  | expression
  /-- Operands of a tier, with operators of that tier between them. -/
  | tier (level : Tier)
  /-- An operand of a tier. -/
  | operand (level : Tier)
  /-- An operand with signs before it. -/
  | unary
  /-- An operand with calls, properties and elements behind it. -/
  | call
  /-- An operand without signs or suffixes. -/
  | primary
  /-- An expression or nothing. -/
  | optional
  /-- An expression and a semicolon. -/
  | terminated
  /-- One or more expressions with commas between them. -/
  | expressions
  /-- What stands between the parentheses of a call. -/
  | arguments
  /-- What stands between the brackets of an array. -/
  | elements
  /-- One or more keys with their values, with commas between them. -/
  | pairs
  /-- What stands between the braces of an object. -/
  | entries
  /-- One or more names with commas between them. -/
  | names
  /-- What stands between the parentheses of a function. -/
  | parameters
  /-- One or more references with commas between them. -/
  | references
  /-- What may stand between the name of a class and its body. -/
  | superclasses
  /-- A variable with its initial value, if it has one. -/
  | declarator
  /-- One or more declarators with commas between them. -/
  | declarators
  /-- Any number of declarations. -/
  | declarations
  /-- A declaration or statement. -/
  | declaration
  /-- A function from its name on. -/
  | function
  /-- Any number of functions. -/
  | methods
  /-- Declarations in braces. -/
  | block
  /-- The first part of a counting loop, with its semicolon. -/
  | start
  /-- A statement, which may end with an `if` that could still take an `else`. -/
  | statement (dangling : Bool)
deriving DecidableEq, Repr

/-- The trees of a category. -/
@[reducible] def Category.Tree : Category → Type
  | .expression | .tier _ | .operand _ | .unary | .call | .primary | .terminated => Expr
  | .optional => Option Expr
  | .expressions | .arguments | .elements => List Expr
  | .pairs | .entries => List Entry
  | .names | .parameters => List Token
  | .references | .superclasses => List Reference
  | .declarator => Declarator
  | .declarators => List Declarator
  | .declarations | .block => List Stmt
  | .function => FunctionDecl
  | .methods => List FunctionDecl
  | .start => Option Stmt
  | .declaration | .statement _ => Stmt

/-- The most arguments or parameters that a list may have. -/
def maxItems : Nat := 255

/-- The constant that a single token denotes. -/
def constant? : Token.Kind → Option Literal
  | .kwFalse => some (.boolean false)
  | .kwTrue => some (.boolean true)
  | .kwNil => some .nil
  | .number x => some (.number x)
  | .string x => some (.string x)
  | _ => none

/-- The operators between two expressions: the level of each, from the loosest to the tightest, and
the tree that it makes of its operands. -/
inductive Operator : Tier → Token.Kind → (Expr → Token → Expr → Expr) → Prop
  | or : Operator .disjunction .kwOr .logical
  | and : Operator .conjunction .kwAnd .logical
  | unequal : Operator .equality .bangEqual .binary
  | equal : Operator .equality .equalEqual .binary
  | greater : Operator .comparison .greater .binary
  | greaterEqual : Operator .comparison .greaterEqual .binary
  | less : Operator .comparison .less .binary
  | lessEqual : Operator .comparison .lessEqual .binary
  | minus : Operator .term .minus .binary
  | plus : Operator .term .plus .binary
  | times : Operator .factor .star .binary
  | over : Operator .factor .slash .binary

/-- The operands of one level are expressions of the other. -/
inductive Looser : Tier → Tier → Prop
  | disjunction : Looser .disjunction .conjunction
  | conjunction : Looser .conjunction .equality
  | equality : Looser .equality .comparison
  | comparison : Looser .comparison .term
  | term : Looser .term .factor

/-- The signs that stand before an operand. -/
inductive Sign : Token.Kind → Prop
  | not : Sign .bang
  | minus : Sign .minus

/-- The tokens that can be the key of an entry. -/
inductive Key : Token.Kind → Prop
  | name : Key .identifier
  | string (text : String) : Key (.string text)
  | number (x : Float) : Key (.number x)

/-- The tree of a counting loop with the given start, condition, step and body: its start runs
before the loop, in a block around it, its step after each round, in a block around the round, and
without a condition it goes on for ever. -/
inductive Counting : Option Stmt → Option Expr → Option Expr → Stmt → Stmt → Prop
  | started {start body tree : Stmt} {condition step : Option Expr}
      (h : Counting none condition step body tree) :
      Counting (some start) condition step body (.block [start, tree])
  | endless {step : Option Expr} {body tree : Stmt}
      (h : Counting none (some (.literal (.boolean true))) step body tree) :
      Counting none none step body tree
  | stepped {condition step : Expr} {body : Stmt} :
      Counting none (some condition) (some step) body
        (.loop condition (.block [body, .expression step]))
  | plain {condition : Expr} {body : Stmt} :
      Counting none (some condition) none body (.loop condition body)

/-- The tokens `ts` are a phrase of a category with the tree `a`, whose references take the numbers
from `n` up to `n'`. -/
inductive Derives :
    (c : Category) → (ts : List Token) → (n : Nat) → (a : c.Tree) → (n' : Nat) → Prop
  -- Assignment binds to the right. The name that is assigned to has been read as a variable first,
  -- so one number goes unused.
  | disjunction {ts : List Token} {n n₁ : Nat} {e : Expr}
      (h : Derives (.tier .disjunction) ts n e n₁) :
      Derives .expression ts n e n₁
  | assign {us : List Token} {n n₁ : Nat} {name equals : Token} {e : Expr}
      (hname : name.kind = .identifier) (hequals : equals.kind = .equal)
      (h : Derives .expression us (n + 1) e n₁) :
      Derives .expression (name :: equals :: us) n (.assign ⟨n₁, name⟩ e) (n₁ + 1)
  | set {ts us : List Token} {n n₁ n₂ : Nat} {dot name equals : Token} {o e : Expr}
      (ho : Derives .call ts n o n₁) (hdot : dot.kind = .dot) (hname : name.kind = .identifier)
      (hequals : equals.kind = .equal) (h : Derives .expression us n₁ e n₂) :
      Derives .expression (ts ++ dot :: name :: equals :: us) n (.set o name e) n₂
  | setIndex {ts us vs : List Token} {n n₁ n₂ n₃ : Nat} {left right equals : Token} {o k e : Expr}
      (ho : Derives .call ts n o n₁) (hleft : left.kind = .leftBracket)
      (hk : Derives .expression us n₁ k n₂) (hright : right.kind = .rightBracket)
      (hequals : equals.kind = .equal) (h : Derives .expression vs n₂ e n₃) :
      Derives .expression (ts ++ left :: us ++ right :: equals :: vs) n (.setIndex o left k e) n₃
  -- The tiers bind to the left.
  | single {ts : List Token} {n n₁ : Nat} {level : Tier} {e : Expr}
      (h : Derives (.operand level) ts n e n₁) :
      Derives (.tier level) ts n e n₁
  | operator {ts us : List Token} {n n₁ n₂ : Nat} {level : Tier} {op : Token} {a b : Expr}
      {node : Expr → Token → Expr → Expr} (ha : Derives (.tier level) ts n a n₁)
      (hop : Operator level op.kind node) (hb : Derives (.operand level) us n₁ b n₂) :
      Derives (.tier level) (ts ++ op :: us) n (node a op b) n₂
  | tighter {ts : List Token} {n n₁ : Nat} {level next : Tier} {e : Expr}
      (hnext : Looser level next) (h : Derives (.tier next) ts n e n₁) :
      Derives (.operand level) ts n e n₁
  | tightest {ts : List Token} {n n₁ : Nat} {e : Expr} (h : Derives .unary ts n e n₁) :
      Derives (.operand .factor) ts n e n₁
  | sign {ts : List Token} {n n₁ : Nat} {op : Token} {e : Expr} (hop : Sign op.kind)
      (h : Derives .unary ts n e n₁) :
      Derives .unary (op :: ts) n (.unary op e) n₁
  | unsigned {ts : List Token} {n n₁ : Nat} {e : Expr} (h : Derives .call ts n e n₁) :
      Derives .unary ts n e n₁
  -- Calls, properties and elements.
  | bare {ts : List Token} {n n₁ : Nat} {e : Expr} (h : Derives .primary ts n e n₁) :
      Derives .call ts n e n₁
  | call {ts us : List Token} {n n₁ n₂ : Nat} {left right : Token} {f : Expr} {es : List Expr}
      (hf : Derives .call ts n f n₁) (hleft : left.kind = .leftParen)
      (hes : Derives .arguments us n₁ es n₂) (hright : right.kind = .rightParen) :
      Derives .call (ts ++ left :: us ++ [right]) n (.call f right es) n₂
  | get {ts : List Token} {n n₁ : Nat} {dot name : Token} {o : Expr}
      (ho : Derives .call ts n o n₁) (hdot : dot.kind = .dot) (hname : name.kind = .identifier) :
      Derives .call (ts ++ [dot, name]) n (.get o name) n₁
  | index {ts us : List Token} {n n₁ n₂ : Nat} {left right : Token} {o k : Expr}
      (ho : Derives .call ts n o n₁) (hleft : left.kind = .leftBracket)
      (hk : Derives .expression us n₁ k n₂) (hright : right.kind = .rightBracket) :
      Derives .call (ts ++ left :: us ++ [right]) n (.index o left k) n₂
  -- Operands.
  | constant {n : Nat} {t : Token} {v : Literal} (ht : constant? t.kind = some v) :
      Derives .primary [t] n (.literal v) n
  | reference {n : Nat} {t : Token} (ht : t.kind = .identifier) :
      Derives .primary [t] n (.reference ⟨n, t⟩) (n + 1)
  | this {n : Nat} {t : Token} (ht : t.kind = .kwThis) :
      Derives .primary [t] n (.this ⟨n, t⟩) (n + 1)
  | super {n : Nat} {t dot name : Token} (ht : t.kind = .kwSuper) (hdot : dot.kind = .dot)
      (hname : name.kind = .identifier) :
      Derives .primary [t, dot, name] n (.super ⟨n, t⟩ name) (n + 1)
  | grouping {ts : List Token} {n n₁ : Nat} {left right : Token} {e : Expr}
      (hleft : left.kind = .leftParen) (h : Derives .expression ts n e n₁)
      (hright : right.kind = .rightParen) :
      Derives .primary (left :: ts ++ [right]) n (.grouping e) n₁
  | lambda {ts us : List Token} {n n₁ n₂ : Nat} {word left right : Token} {params : List Token}
      {body : List Stmt} (hword : word.kind = .kwFun) (hleft : left.kind = .leftParen)
      (hparams : Derives .parameters ts n params n₁) (hright : right.kind = .rightParen)
      (hbody : Derives .block us n₁ body n₂) :
      Derives .primary (word :: left :: ts ++ right :: us) n
        (.function ⟨none, word, params, body⟩) n₂
  | array {ts : List Token} {n n₁ : Nat} {left right : Token} {es : List Expr}
      (hleft : left.kind = .leftBracket) (h : Derives .elements ts n es n₁)
      (hright : right.kind = .rightBracket) :
      Derives .primary (left :: ts ++ [right]) n (.array left es) n₁
  | object {ts : List Token} {n n₁ : Nat} {left right : Token} {es : List Entry}
      (hleft : left.kind = .leftBrace) (h : Derives .entries ts n es n₁)
      (hright : right.kind = .rightBrace) :
      Derives .primary (left :: ts ++ [right]) n (.object left es) n₁
  -- Optional expressions and lists. A comma may stand after the last element or entry, but not
  -- after the last argument or parameter.
  | absent {n : Nat} :
      Derives .optional [] n none n
  | present {ts : List Token} {n n₁ : Nat} {e : Expr} (h : Derives .expression ts n e n₁) :
      Derives .optional ts n (some e) n₁
  | terminated {ts : List Token} {n n₁ : Nat} {stop : Token} {e : Expr}
      (h : Derives .expression ts n e n₁) (hstop : stop.kind = .semicolon) :
      Derives .terminated (ts ++ [stop]) n e n₁
  | lastExpression {ts : List Token} {n n₁ : Nat} {e : Expr} (h : Derives .expression ts n e n₁) :
      Derives .expressions ts n [e] n₁
  | moreExpressions {ts us : List Token} {n n₁ n₂ : Nat} {comma : Token} {e : Expr}
      {es : List Expr} (h : Derives .expression ts n e n₁) (hcomma : comma.kind = .comma)
      (hes : Derives .expressions us n₁ es n₂) :
      Derives .expressions (ts ++ comma :: us) n (e :: es) n₂
  | noArguments {n : Nat} :
      Derives .arguments [] n [] n
  | someArguments {ts : List Token} {n n₁ : Nat} {es : List Expr}
      (h : Derives .expressions ts n es n₁) (hlength : es.length ≤ maxItems) :
      Derives .arguments ts n es n₁
  | noElements {n : Nat} :
      Derives .elements [] n [] n
  | someElements {ts : List Token} {n n₁ : Nat} {es : List Expr}
      (h : Derives .expressions ts n es n₁) :
      Derives .elements ts n es n₁
  | commaElements {ts : List Token} {n n₁ : Nat} {comma : Token} {es : List Expr}
      (h : Derives .expressions ts n es n₁) (hcomma : comma.kind = .comma) :
      Derives .elements (ts ++ [comma]) n es n₁
  | lastPair {ts : List Token} {n n₁ : Nat} {key colon : Token} {e : Expr} (hkey : Key key.kind)
      (hcolon : colon.kind = .colon) (h : Derives .expression ts n e n₁) :
      Derives .pairs (key :: colon :: ts) n [⟨key, e⟩] n₁
  | morePairs {ts us : List Token} {n n₁ n₂ : Nat} {key colon comma : Token} {e : Expr}
      {es : List Entry} (hkey : Key key.kind) (hcolon : colon.kind = .colon)
      (h : Derives .expression ts n e n₁) (hcomma : comma.kind = .comma)
      (hes : Derives .pairs us n₁ es n₂) :
      Derives .pairs (key :: colon :: ts ++ comma :: us) n (⟨key, e⟩ :: es) n₂
  | noEntries {n : Nat} :
      Derives .entries [] n [] n
  | someEntries {ts : List Token} {n n₁ : Nat} {es : List Entry} (h : Derives .pairs ts n es n₁) :
      Derives .entries ts n es n₁
  | commaEntries {ts : List Token} {n n₁ : Nat} {comma : Token} {es : List Entry}
      (h : Derives .pairs ts n es n₁) (hcomma : comma.kind = .comma) :
      Derives .entries (ts ++ [comma]) n es n₁
  | lastName {n : Nat} {t : Token} (ht : t.kind = .identifier) :
      Derives .names [t] n [t] n
  | moreNames {ts : List Token} {n : Nat} {t comma : Token} {names : List Token}
      (ht : t.kind = .identifier) (hcomma : comma.kind = .comma) (h : Derives .names ts n names n) :
      Derives .names (t :: comma :: ts) n (t :: names) n
  | noParameters {n : Nat} :
      Derives .parameters [] n [] n
  | someParameters {ts : List Token} {n : Nat} {names : List Token}
      (h : Derives .names ts n names n) (hlength : names.length ≤ maxItems) :
      Derives .parameters ts n names n
  -- Declarations.
  | lastReference {n : Nat} {t : Token} (ht : t.kind = .identifier) :
      Derives .references [t] n [⟨n, t⟩] (n + 1)
  | moreReferences {ts : List Token} {n n₁ : Nat} {t comma : Token} {xs : List Reference}
      (ht : t.kind = .identifier) (hcomma : comma.kind = .comma)
      (h : Derives .references ts (n + 1) xs n₁) :
      Derives .references (t :: comma :: ts) n (⟨n, t⟩ :: xs) n₁
  | noSuperclasses {n : Nat} :
      Derives .superclasses [] n [] n
  | someSuperclasses {ts : List Token} {n n₁ : Nat} {less : Token} {xs : List Reference}
      (hless : less.kind = .less) (h : Derives .references ts n xs n₁) :
      Derives .superclasses (less :: ts) n xs n₁
  | function {ts us : List Token} {n n₁ n₂ : Nat} {name left right : Token} {params : List Token}
      {body : List Stmt} (hname : name.kind = .identifier) (hleft : left.kind = .leftParen)
      (hparams : Derives .parameters ts n params n₁) (hright : right.kind = .rightParen)
      (hbody : Derives .block us n₁ body n₂) :
      Derives .function (name :: left :: ts ++ right :: us) n ⟨some name, name, params, body⟩ n₂
  | noMethods {n : Nat} :
      Derives .methods [] n [] n
  | moreMethods {ts us : List Token} {n n₁ n₂ : Nat} {f : FunctionDecl} {fs : List FunctionDecl}
      (h : Derives .function ts n f n₁) (hfs : Derives .methods us n₁ fs n₂) :
      Derives .methods (ts ++ us) n (f :: fs) n₂
  | uninitialized {n : Nat} {name : Token} (hname : name.kind = .identifier) :
      Derives .declarator [name] n ⟨name, none⟩ n
  | initialized {ts : List Token} {n n₁ : Nat} {name equals : Token} {e : Expr}
      (hname : name.kind = .identifier) (hequals : equals.kind = .equal)
      (h : Derives .expression ts n e n₁) :
      Derives .declarator (name :: equals :: ts) n ⟨name, some e⟩ n₁
  | lastDeclarator {ts : List Token} {n n₁ : Nat} {d : Declarator}
      (h : Derives .declarator ts n d n₁) :
      Derives .declarators ts n [d] n₁
  | moreDeclarators {ts us : List Token} {n n₁ n₂ : Nat} {comma : Token} {d : Declarator}
      {ds : List Declarator} (h : Derives .declarator ts n d n₁) (hcomma : comma.kind = .comma)
      (hds : Derives .declarators us n₁ ds n₂) :
      Derives .declarators (ts ++ comma :: us) n (d :: ds) n₂
  | noDeclarations {n : Nat} :
      Derives .declarations [] n [] n
  | moreDeclarations {ts us : List Token} {n n₁ n₂ : Nat} {s : Stmt} {ss : List Stmt}
      (h : Derives .declaration ts n s n₁) (hss : Derives .declarations us n₁ ss n₂) :
      Derives .declarations (ts ++ us) n (s :: ss) n₂
  | block {ts : List Token} {n n₁ : Nat} {left right : Token} {ss : List Stmt}
      (hleft : left.kind = .leftBrace) (h : Derives .declarations ts n ss n₁)
      (hright : right.kind = .rightBrace) :
      Derives .block (left :: ts ++ [right]) n ss n₁
  | classDeclaration {ts us : List Token} {n n₁ n₂ : Nat} {word name left right : Token}
      {xs : List Reference} {fs : List FunctionDecl} (hword : word.kind = .kwClass)
      (hname : name.kind = .identifier) (hxs : Derives .superclasses ts n xs n₁)
      (hleft : left.kind = .leftBrace) (hfs : Derives .methods us n₁ fs n₂)
      (hright : right.kind = .rightBrace) :
      Derives .declaration (word :: name :: ts ++ left :: us ++ [right]) n
        (.class ⟨name, xs, fs⟩) n₂
  | functionDeclaration {ts : List Token} {n n₁ : Nat} {word : Token} {f : FunctionDecl}
      (hword : word.kind = .kwFun) (h : Derives .function ts n f n₁) :
      Derives .declaration (word :: ts) n (.function f) n₁
  | variableDeclaration {ts : List Token} {n n₁ : Nat} {word stop : Token} {ds : List Declarator}
      (hword : word.kind = .kwVar) (h : Derives .declarators ts n ds n₁)
      (hstop : stop.kind = .semicolon) :
      Derives .declaration (word :: ts ++ [stop]) n (.declare ds) n₁
  | statement {ts : List Token} {n n₁ : Nat} {dangling : Bool} {s : Stmt}
      (h : Derives (.statement dangling) ts n s n₁) :
      Derives .declaration ts n s n₁
  -- Statements.
  | expression {ts : List Token} {n n₁ : Nat} {e : Expr} (h : Derives .terminated ts n e n₁)
      (hbrace : ∀ t ∈ ts.head?, t.kind ≠ .leftBrace) :
      Derives (.statement false) ts n (.expression e) n₁
  | print {ts : List Token} {n n₁ : Nat} {word : Token} {e : Expr} (hword : word.kind = .kwPrint)
      (h : Derives .terminated ts n e n₁) :
      Derives (.statement false) (word :: ts) n (.print e) n₁
  | result {ts : List Token} {n n₁ : Nat} {word stop : Token} {e : Option Expr}
      (hword : word.kind = .kwReturn) (h : Derives .optional ts n e n₁)
      (hstop : stop.kind = .semicolon) :
      Derives (.statement false) (word :: ts ++ [stop]) n (.result word e) n₁
  | blockStatement {ts : List Token} {n n₁ : Nat} {ss : List Stmt} (h : Derives .block ts n ss n₁) :
      Derives (.statement false) ts n (.block ss) n₁
  | loop {ts us : List Token} {n n₁ n₂ : Nat} {dangling : Bool} {word left right : Token}
      {e : Expr} {s : Stmt} (hword : word.kind = .kwWhile) (hleft : left.kind = .leftParen)
      (he : Derives .expression ts n e n₁) (hright : right.kind = .rightParen)
      (hs : Derives (.statement dangling) us n₁ s n₂) :
      Derives (.statement dangling) (word :: left :: ts ++ right :: us) n (.loop e s) n₂
  | branch {ts us : List Token} {n n₁ n₂ : Nat} {dangling : Bool} {word left right : Token}
      {e : Expr} {s : Stmt} (hword : word.kind = .kwIf) (hleft : left.kind = .leftParen)
      (he : Derives .expression ts n e n₁) (hright : right.kind = .rightParen)
      (hs : Derives (.statement dangling) us n₁ s n₂) :
      Derives (.statement true) (word :: left :: ts ++ right :: us) n (.branch e s none) n₂
  | branchElse {ts us vs : List Token} {n n₁ n₂ n₃ : Nat} {dangling : Bool}
      {word left right other : Token} {e : Expr} {s s' : Stmt} (hword : word.kind = .kwIf)
      (hleft : left.kind = .leftParen) (he : Derives .expression ts n e n₁)
      (hright : right.kind = .rightParen) (hs : Derives (.statement false) us n₁ s n₂)
      (hother : other.kind = .kwElse) (hs' : Derives (.statement dangling) vs n₂ s' n₃) :
      Derives (.statement dangling) (word :: left :: ts ++ right :: us ++ other :: vs) n
        (.branch e s (some s')) n₃
  | noStart {n : Nat} {stop : Token} (hstop : stop.kind = .semicolon) :
      Derives .start [stop] n none n
  | variableStart {ts : List Token} {n n₁ : Nat} {word stop : Token} {ds : List Declarator}
      (hword : word.kind = .kwVar) (h : Derives .declarators ts n ds n₁)
      (hstop : stop.kind = .semicolon) :
      Derives .start (word :: ts ++ [stop]) n (some (.declare ds)) n₁
  | expressionStart {ts : List Token} {n n₁ : Nat} {e : Expr} (h : Derives .terminated ts n e n₁) :
      Derives .start ts n (some (.expression e)) n₁
  | forLoop {ts us vs ws : List Token} {n n₁ n₂ n₃ n₄ : Nat} {dangling : Bool}
      {word left stop right : Token} {start : Option Stmt} {condition step : Option Expr}
      {s tree : Stmt} (hword : word.kind = .kwFor) (hleft : left.kind = .leftParen)
      (hstart : Derives .start ts n start n₁) (hcondition : Derives .optional us n₁ condition n₂)
      (hstop : stop.kind = .semicolon) (hstep : Derives .optional vs n₂ step n₃)
      (hright : right.kind = .rightParen) (hs : Derives (.statement dangling) ws n₃ s n₄)
      (htree : Counting start condition step s tree) :
      Derives (.statement dangling) (word :: left :: ts ++ us ++ stop :: vs ++ right :: ws) n
        tree n₄

/-! ## The tables of the parser -/

/-- The parser's operators have the levels and trees of the grammar. -/
theorem operator_iff {level : Tier} {kind : Token.Kind} {node : Expr → Token → Expr → Expr} :
    Operator level kind node ↔ level.has kind = true ∧ node = level.node := by
  constructor
  · rintro (_ | _) <;> exact ⟨rfl, rfl⟩
  · rintro ⟨hkind, rfl⟩
    unfold Tier.has at hkind
    split at hkind
    · exact .or
    · exact .and
    · exact .unequal
    · exact .equal
    · exact .greater
    · exact .greaterEqual
    · exact .less
    · exact .lessEqual
    · exact .minus
    · exact .plus
    · exact .times
    · exact .over
    · contradiction

/-- The parser's tiers follow each other as the levels do. -/
theorem looser_iff {level next : Tier} : Looser level next ↔ level.tighter = some next := by
  constructor
  · rintro (_ | _) <;> rfl
  · intro h
    cases level <;> cases h <;> constructor

/-- The parser's tightest tier is the tightest level. -/
theorem tighter_eq_none_iff {level : Tier} : level.tighter = none ↔ level = .factor := by
  cases level <;> simp [Tier.tighter]

/-- The parser's signs are those of the grammar. -/
theorem sign_iff {kind : Token.Kind} : Sign kind ↔ isSign kind = true := by
  constructor
  · rintro (_ | _) <;> rfl
  · intro h
    unfold isSign at h
    split at h
    · exact .not
    · exact .minus
    · contradiction

/-- The parser's keys are those of the grammar. -/
theorem key_iff {kind : Token.Kind} : Key kind ↔ isKey kind = true := by
  constructor
  · rintro (_ | _) <;> rfl
  · intro h
    unfold isKey at h
    split at h
    · exact .name
    · exact .string _
    · exact .number _
    · contradiction

/-- The parser builds the tree of a counting loop that the grammar gives it. -/
theorem counting_iff {start : Option Stmt} {condition step : Option Expr} {body tree : Stmt} :
    Counting start condition step body tree ↔ tree = forLoop start condition step body := by
  constructor
  · intro h
    induction h with
    | started _ ih => rw [ih]; rfl
    | endless _ ih => rw [ih]; rfl
    | stepped => rfl
    | plain => rfl
  · rintro rfl
    have hloop (condition : Expr) :
        Counting none (some condition) step body (forLoop none (some condition) step body) := by
      cases step with
      | none => exact .plain
      | some step => exact .stepped
    have hunstarted : Counting none condition step body (forLoop none condition step body) := by
      cases condition with
      | none => exact .endless (hloop _)
      | some condition => exact hloop condition
    cases start with
    | none => exact hunstarted
    | some start => exact .started hunstarted

end Lox.Grammar
