import Lox.Proofs.Grammar.Steps

/-!
# What is parsed without a complaint is a phrase

For each production, `Reads` says what it has read once it is done: if no complaint was made, the
tokens between its two states are a phrase of its category, with the value as its tree. The proofs
follow the productions, and the induction is theirs. Two productions go on from an operand that was
read before them; for these the phrase that is found extends the one of that operand.
-/

namespace Lox.Grammar

/-- Between two states a phrase of a category was read, if no complaint was made. -/
def Reads (c : Category) (s : State) (a : c.Tree) (t : State) : Prop :=
  Passage s t (∃ ts, s.rest = ts ++ t.rest ∧ Derives c ts s.nextId a t.nextId)

/-- Between two states a phrase of a category was read together with a token that closes it, if no
complaint was made. -/
def ReadsTo (c : Category) (close : Token.Kind) (s : State) (a : c.Tree) (t : State) : Prop :=
  Passage s t (∃ ts token, s.rest = ts ++ token :: t.rest ∧ token.kind = close ∧
    Derives c ts s.nextId a t.nextId)

/-- The next token does not have a kind. -/
def State.Lacks (s : State) (kind : Token.Kind) : Prop :=
  ∀ t ∈ s.rest.head?, t.kind ≠ kind

/-- Between two states a statement was read, if no complaint was made. If it could still take an
`else`, none follows. -/
def ReadsStatement (s : State) (a : Stmt) (t : State) : Prop :=
  Passage s t (∃ ts dangling, s.rest = ts ++ t.rest ∧
    Derives (.statement dangling) ts s.nextId a t.nextId ∧ (dangling = true → t.Lacks .kwElse))

/-- A token that was not taken because of its kind does not have that kind. -/
theorem State.lacks_of_next {s : State} {kind : Token.Kind}
    (h : ∀ t ∈ s.rest.head?, decide (t.kind = kind) = false) : s.Lacks kind :=
  fun t ht => of_decide_eq_false (h t ht)

/-! ## Lists of names -/

/-- A parameter is an identifier, and one too many is complained about. -/
theorem parameter_reads (count : Nat) (s : State) :
    (parameter count s).All (fun name t => Passage s t
      (s.rest = name :: t.rest ∧ name.kind = .identifier ∧ t.nextId = s.nextId ∧
        count < maxItems)) (Later s) := by
  have hlimit := Passage.limit s count .tooManyParameters
  unfold parameter
  refine .expect (fun name rest hu hrest hname => ?_) hlimit.1
  refine (hlimit.trans (.take hrest)).imp ?_
  rintro ⟨⟨heq, hcount⟩, hs⟩
  rw [heq] at hs ⊢
  exact ⟨hs, hname, rfl, hcount⟩

/-- Parameters after the first ones are names up to a parenthesis, no more of them than fit. -/
theorem moreParameters_reads (count : Nat) (s : State) :
    (moreParameters count s).All (fun names t => Passage s t (∃ ts token,
      s.rest = ts ++ token :: t.rest ∧ token.kind = .rightParen ∧ t.nextId = s.nextId ∧
      Derives .names ts s.nextId names s.nextId ∧ count + names.length ≤ maxItems)) (Later s) := by
  rw [moreParameters]
  refine (parameter_reads count s).andThen (fun name t ht hname => ?_) (fun _ h => h)
  rcases t.next_cases (· = .comma) with ⟨comma, rest, hu, hrest, hcomma, hnext⟩ | ⟨hnext, -⟩
  · rw [hnext]
    have hsmaller : ({ t with rest := rest } : State).size < s.size := Nat.lt_trans hu ht
    refine (moreParameters_reads (count + 1) _).andThen (fun names v hv hnames => ?_)
      (fun v hv => hname.1.trans ((Later.take hrest).trans hv))
    refine (hname.trans ((Passage.take hrest).trans hnames)).imp ?_
    rintro ⟨⟨hs, hid, hn, -⟩, ht, us, token, hus, htoken, hn', hd, hlength⟩
    refine ⟨name :: comma :: us, token, ?_, htoken, by rw [hn', hn], ?_, ?_⟩
    · rw [hs, ht, hus]; rfl
    · rw [← hn]; exact .moreNames hid (of_decide_eq_true hcomma) hd
    · rw [List.length_cons]; omega
  · rw [hnext]
    refine .expect (fun token rest hu hrest htoken => ?_) hname.1
    refine (hname.trans (Passage.take hrest)).imp ?_
    rintro ⟨⟨hs, hid, hn, hcount⟩, ht⟩
    exact ⟨[name], token, by rw [hs, ht]; rfl, htoken, hn, .lastName hid, hcount⟩
termination_by s.size

/-- The parameters of a function are read up to the parenthesis. -/
theorem parameters_reads (s : State) :
    (parameters s).All (ReadsTo .parameters .rightParen s) (Later s) := by
  unfold parameters
  rcases s.next_cases (· = .rightParen) with ⟨token, rest, hu, hrest, htoken, hnext⟩ | ⟨hnext, -⟩
  · rw [hnext]
    exact .of_later (.take hrest) ⟨[], token, hrest, of_decide_eq_true htoken, .noParameters⟩
  · rw [hnext]
    refine (moreParameters_reads 0 s).imp (fun names t h => h.imp ?_) (fun _ h => h)
    rintro ⟨ts, token, hs, htoken, hn, hd, hlength⟩
    refine ⟨ts, token, hs, htoken, ?_⟩
    rw [hn]
    exact .someParameters hd (by omega)

/-- The names of superclasses are references. -/
theorem superclasses_reads (s : State) :
    (superclasses s).All (Reads .references s) (Later s) := by
  rw [superclasses]
  refine .expect (fun name rest hu hrest hname => ?_) (.refl s)
  have htook : Passage s ({ s with rest := rest } : State).used True :=
    .of_later ((Later.take hrest).trans (.used _)) trivial
  rcases ({ s with rest := rest } : State).used.next_cases (· = .comma) with
    ⟨comma, rest', hu', hrest', hcomma, hnext⟩ | ⟨hnext, -⟩
  · rw [hnext]
    have hsmaller : ({ ({ s with rest := rest } : State).used with rest := rest' } : State).size <
      s.size := Nat.lt_trans hu' hu
    refine (superclasses_reads _).andThen (fun xs v hv hxs => ?_)
      (fun v hv => htook.1.trans ((Later.take hrest').trans hv))
    refine (htook.trans ((Passage.take hrest').trans hxs)).imp ?_
    rintro ⟨-, ht, us, hus, hd⟩
    refine ⟨name :: comma :: us, ?_, .moreReferences hname (of_decide_eq_true hcomma) hd⟩
    rw [hrest]
    exact congrArg (name :: ·) (ht.trans (congrArg (comma :: ·) hus))
  · rw [hnext]
    exact htook.imp fun _ => ⟨[name], hrest, .lastReference hname⟩
termination_by s.size

/-! ## Targets of assignments

An assignment is read as a disjunction first. If that is a variable, a property or an element, its
phrase is one of the tightest category, so that it fits the rules for assignments. -/

/-- Whether an expression can be assigned to. -/
def isTarget : Expr → Bool
  | .reference _ | .get _ _ | .index _ _ _ => true
  | _ => false

/-- What a phrase of a category is if its tree can be assigned to. -/
def Category.Target : (c : Category) → List Token → Nat → c.Tree → Nat → Prop
  | .tier _, ts, n, e, n' | .operand _, ts, n, e, n' | .unary, ts, n, e, n' =>
    isTarget e → Derives .call ts n e n'
  | _, _, _, _, _ => True

/-- What an operator makes cannot be assigned to. -/
theorem isTarget_node (level : Tier) (a : Expr) (op : Token) (b : Expr) :
    isTarget (level.node a op b) = false := by
  cases level <;> rfl

/-- Signs and operators make nothing that can be assigned to. -/
theorem Derives.target {c : Category} {ts : List Token} {n n' : Nat} {a : c.Tree}
    (h : Derives c ts n a n') : c.Target ts n a n' := by
  induction h with
  | single h ih => exact ih
  | operator ha hop hb =>
    intro htarget
    obtain ⟨-, rfl⟩ := operator_iff.mp hop
    rw [isTarget_node] at htarget
    contradiction
  | tighter hnext h ih => exact ih
  | tightest h ih => exact ih
  | sign hop h => exact fun htarget => absurd htarget Bool.false_ne_true
  | unsigned h => exact fun _ => h
  | _ => trivial

/-- A variable is a single identifier. -/
theorem Derives.of_reference {ts : List Token} {n n' : Nat} {x : Reference}
    (h : Derives (.tier .disjunction) ts n (.reference x) n') :
    ts = [x.name] ∧ x.name.kind = .identifier ∧ n' = n + 1 := by
  cases h.target rfl with
  | bare h =>
    cases h with
    | reference ht => exact ⟨rfl, ht, rfl⟩

/-- A property is an operand, a dot and an identifier. -/
theorem Derives.of_get {ts : List Token} {n n' : Nat} {o : Expr} {name : Token}
    (h : Derives (.tier .disjunction) ts n (.get o name) n') :
    ∃ us dot, ts = us ++ [dot, name] ∧ Derives .call us n o n' ∧ dot.kind = .dot ∧
      name.kind = .identifier := by
  cases h.target rfl with
  | bare h => cases h
  | get ho hdot hname => exact ⟨_, _, rfl, ho, hdot, hname⟩

/-- An element is an operand and an expression in brackets. -/
theorem Derives.of_index {ts : List Token} {n n' : Nat} {o k : Expr} {left : Token}
    (h : Derives (.tier .disjunction) ts n (.index o left k) n') :
    ∃ us vs right m, ts = us ++ left :: vs ++ [right] ∧ Derives .call us n o m ∧
      left.kind = .leftBracket ∧ Derives .expression vs m k n' ∧ right.kind = .rightBracket := by
  cases h.target rfl with
  | bare h => cases h
  | index ho hleft hk hright => exact ⟨_, _, _, _, rfl, ho, hleft, hk, hright⟩

/-! ## Lists and terminated expressions -/

/-- An expression and a comma before the elements of an array make a longer list of them. -/
theorem Derives.consElement {ts us : List Token} {n n₁ n₂ : Nat} {comma : Token} {e : Expr}
    {es : List Expr} (hes : Derives .elements us n₁ es n₂) (h : Derives .expression ts n e n₁)
    (hcomma : comma.kind = .comma) : Derives .elements (ts ++ comma :: us) n (e :: es) n₂ := by
  cases hes with
  | noElements => exact .commaElements (.lastExpression h) hcomma
  | someElements hes => exact .someElements (.moreExpressions h hcomma hes)
  | commaElements hes hcomma' =>
    rw [← List.cons_append, ← List.append_assoc]
    exact .commaElements (.moreExpressions h hcomma hes) hcomma'

/-- A key, its value and a comma before the entries of an object make a longer list of them. -/
theorem Derives.consEntry {ts us : List Token} {n n₁ n₂ : Nat} {key colon comma : Token} {e : Expr}
    {es : List Entry} (hes : Derives .entries us n₁ es n₂) (hkey : Key key.kind)
    (hcolon : colon.kind = .colon) (h : Derives .expression ts n e n₁)
    (hcomma : comma.kind = .comma) :
    Derives .entries (key :: colon :: ts ++ comma :: us) n (⟨key, e⟩ :: es) n₂ := by
  cases hes with
  | noEntries => exact .commaEntries (.lastPair hkey hcolon h) hcomma
  | someEntries hes => exact .someEntries (.morePairs hkey hcolon h hcomma hes)
  | commaEntries hes hcomma' =>
    rw [← List.cons_append, ← List.append_assoc]
    exact .commaEntries (.morePairs hkey hcolon h hcomma hes) hcomma'

/-- A terminated expression is an expression and a semicolon. -/
theorem Derives.of_terminated {ts : List Token} {n n' : Nat} {e : Expr}
    (h : Derives .terminated ts n e n') :
    ∃ us stop, ts = us ++ [stop] ∧ Derives .expression us n e n' ∧ stop.kind = .semicolon := by
  cases h with
  | terminated h hstop => exact ⟨_, _, rfl, h, hstop⟩

/-- A suffix that is neither a call nor a property is an element. -/
theorem leftBracket_of_isSuffix {kind : Token.Kind} (h : isSuffix kind) (hparen : kind ≠ .leftParen)
    (hdot : kind ≠ .dot) : kind = .leftBracket := by
  unfold isSuffix at h
  split at h <;> simp_all

/-! ## Expressions and statements -/

mutual

/-- An expression is read, with an assignment if its target is one. -/
theorem expression_reads (s : State) : (expression s).All (Reads .expression s) (Later s) := by
  rw [expression]
  refine (tier_reads .disjunction s).andThen (fun target t ht htarget => ?_) (fun _ h => h)
  rcases t.next_cases (· = .equal) with ⟨equals, rest, hu, hrest, hequals, hnext⟩ | ⟨hnext, -⟩
  · rw [hnext]
    have hkind : equals.kind = .equal := of_decide_eq_true hequals
    refine (expression_reads _).andThen (fun value v hv hvalue => ?_)
      (fun v hv => htarget.1.trans ((Later.take hrest).trans hv))
    have hall := htarget.trans ((Passage.take hrest).trans hvalue)
    -- A variable, a property or an element can be assigned to. Any other target is complained
    -- about, and then nothing is asked for.
    split
    · next x =>
      refine ((hall.trans (.of_later (.used v) trivial)).imp ?_)
      rintro ⟨⟨⟨ts, hs, hd⟩, ht, us, hus, hd'⟩, -⟩
      obtain ⟨rfl, hname, hn⟩ := hd.of_reference
      refine ⟨x.name :: equals :: us, ?_, .assign hname hkind (hn ▸ hd')⟩
      rw [hs, ht]
      exact congrArg (x.name :: equals :: ·) hus
    · next o name =>
      refine hall.imp ?_
      rintro ⟨⟨ts, hs, hd⟩, ht, us, hus, hd'⟩
      obtain ⟨ts', dot, rfl, ho, hdot, hname⟩ := hd.of_get
      refine ⟨ts' ++ dot :: name :: equals :: us, ?_, .set ho hdot hname hkind hd'⟩
      rw [hs, ht, hus]
      simp
    · next o left k =>
      refine hall.imp ?_
      rintro ⟨⟨ts, hs, hd⟩, ht, us, hus, hd'⟩
      obtain ⟨ts', vs, right, m, rfl, ho, hleft, hk, hright⟩ := hd.of_index
      refine ⟨ts' ++ left :: vs ++ right :: equals :: us, ?_,
        .setIndex ho hleft hk hright hkind hd'⟩
      rw [hs, ht, hus]
      simp
    · exact .of_complaint _ hall.1 (.refl _)
  · rw [hnext]
    exact htarget.imp fun ⟨ts, hs, hd⟩ => ⟨ts, hs, .disjunction hd⟩
termination_by 32 * s.size + 14
decreasing_by
  · have := Tier.disjunction.rank_le
    omega
  · omega

/-- An operand of a tier is read. -/
theorem operand_reads (level : Tier) (s : State) :
    (operand level s).All (Reads (.operand level) s) (Later s) := by
  cases hnext : level.tighter with
  | some next =>
    rw [operand_of_some hnext]
    refine (tier_reads next s).imp (fun e t h => h.imp ?_) (fun _ h => h)
    exact fun ⟨ts, hs, hd⟩ => ⟨ts, hs, .tighter (looser_iff.mpr hnext) hd⟩
  | none =>
    rw [operand_of_none hnext]
    obtain rfl := tighter_eq_none_iff.mp hnext
    refine (unary_reads s).imp (fun e t h => h.imp ?_) (fun _ h => h)
    exact fun ⟨ts, hs, hd⟩ => ⟨ts, hs, .tightest hd⟩
termination_by 32 * s.size + 2 * level.rank
decreasing_by
  · have := level.rank_pos
    omega
  · have := Tier.rank_tighter hnext
    omega

/-- A chain of a tier is read. -/
theorem tier_reads (level : Tier) (s : State) :
    (tier level s).All (Reads (.tier level) s) (Later s) := by
  rw [tier]
  refine (operand_reads level s).andThen (fun left t ht hleft => ?_) (fun _ h => h)
  refine (chain_reads level s left t ht).imp (fun e u h => (hleft.trans h).imp ?_)
    (fun u h => hleft.1.trans h)
  rintro ⟨⟨ts, hs, hd⟩, hchain⟩
  obtain ⟨us, hus, hd'⟩ := hchain ts s.nextId (.single hd)
  exact ⟨ts ++ us, by rw [hs, hus, List.append_assoc], hd'⟩
termination_by 32 * s.size + 2 * level.rank + 1
decreasing_by all_goals omega

-- The operand before the first operator may have been read long before, so the phrase that it
-- ends is a variable of the statement.
/-- A chain goes on with the operators that follow. -/
theorem chain_reads (level : Tier) (s : State) (left : Expr) (t : State) (h : t.size < s.size) :
    (chain level s left t h).All (fun e u => Passage t u (∀ ts n,
      Derives (.tier level) ts n left t.nextId →
        ∃ us, t.rest = us ++ u.rest ∧ Derives (.tier level) (ts ++ us) n e u.nextId))
      (Later t) := by
  rw [chain]
  rcases t.next_cases level.has with ⟨op, rest, hu, hrest, hop, hnext⟩ | ⟨hnext, -⟩
  · rw [hnext]
    have htook := Passage.take hrest
    refine (operand_reads level _).andThen (fun right v hv hright => ?_)
      (fun v hv => htook.1.trans hv)
    refine (chain_reads level s _ v _).imp
      (fun e w hw => ((htook.trans hright).trans hw).imp ?_)
      (fun w hw => htook.1.trans (hright.1.trans hw))
    rintro ⟨⟨ht, us, hus, hd⟩, hchain⟩ ts n hleft
    have hop' := operator_iff.mpr ⟨hop, rfl⟩
    obtain ⟨vs, hvs, hd'⟩ := hchain _ n (.operator hleft hop' hd)
    refine ⟨op :: us ++ vs, ?_, ?_⟩
    · rw [ht, hus, hvs]
      simp
    · simpa using hd'
  · rw [hnext]
    exact .of_later (.refl t) fun ts n hleft => ⟨[], rfl, by rwa [List.append_nil]⟩
termination_by 32 * t.size
decreasing_by
  · have := level.rank_le
    omega
  · omega

/-- An operand is read with its signs. -/
theorem unary_reads (s : State) : (unary s).All (Reads .unary s) (Later s) := by
  rw [unary]
  rcases s.next_cases isSign with ⟨op, rest, hu, hrest, hop, hnext⟩ | ⟨hnext, -⟩
  · rw [hnext]
    have htook := Passage.take hrest
    refine (unary_reads _).andThen (fun right v hv hright => (htook.trans hright).imp ?_)
      (fun v hv => htook.1.trans hv)
    rintro ⟨hs, us, hus, hd⟩
    exact ⟨op :: us, hs.trans (congrArg (op :: ·) hus), .sign (sign_iff.mpr hop) hd⟩
  · rw [hnext]
    refine (primary_reads s).andThen (fun e t ht he => ?_) (fun _ h => h)
    refine (suffixes_reads s e t ht).imp (fun e' u h => (he.trans h).imp ?_)
      (fun u h => he.1.trans h)
    rintro ⟨⟨ts, hs, hd⟩, hsuffixes⟩
    obtain ⟨us, hus, hd'⟩ := hsuffixes ts s.nextId (.bare hd)
    exact ⟨ts ++ us, by rw [hs, hus, List.append_assoc], .unsigned hd'⟩
termination_by 32 * s.size + 1
decreasing_by all_goals omega

/-- An operand goes on with the suffixes that follow. -/
theorem suffixes_reads (s : State) (e : Expr) (t : State) (h : t.size < s.size) :
    (suffixes s e t h).All (fun e' u => Passage t u (∀ ts n,
      Derives .call ts n e t.nextId →
        ∃ us, t.rest = us ++ u.rest ∧ Derives .call (ts ++ us) n e' u.nextId)) (Later t) := by
  rw [suffixes]
  rcases t.next_cases isSuffix with ⟨mark, rest, hu, hrest, hmark, hnext⟩ | ⟨hnext, -⟩
  · rw [hnext]
    have htook := Passage.take hrest
    dsimp only
    split
    -- A call.
    · next hleft =>
      refine (arguments_reads _).andThen (fun found v hv hfound => ?_)
        (fun v hv => htook.1.trans hv)
      refine (suffixes_reads s _ v _).imp
        (fun e' w hw => ((htook.trans hfound).trans hw).imp ?_)
        (fun w hw => htook.1.trans (hfound.1.trans hw))
      rintro ⟨⟨ht, us, hus, hright, hd⟩, hmore⟩ ts n he
      obtain ⟨vs, hvs, hd'⟩ := hmore _ n (.call he hleft hd hright)
      refine ⟨mark :: us ++ found.2 :: vs, ?_, ?_⟩
      · rw [ht, hus, hvs]
        simp
      · simpa using hd'
    -- A property.
    · next hdot =>
      refine .expect (fun name rest' hv hrest' hname => ?_) htook.1
      have hall := htook.trans (Passage.take hrest')
      have hshorter : ({ t with rest := rest' } : State).size < t.size := Nat.lt_trans hv hu
      refine (suffixes_reads s _ _ _).imp (fun e' w hw => (hall.trans hw).imp ?_)
        (fun w hw => hall.1.trans hw)
      rintro ⟨⟨ht, ht'⟩, hmore⟩ ts n he
      obtain ⟨vs, hvs, hd'⟩ := hmore _ n (.get he hdot hname)
      refine ⟨mark :: name :: vs, ?_, ?_⟩
      · rw [ht, ht', hvs]
        simp
      · simpa using hd'
    -- An element.
    · next hparen hdot =>
      have hleft := leftBracket_of_isSuffix hmark hparen hdot
      refine (expression_reads _).andThen (fun key v hv hkey => ?_)
        (fun v hv => htook.1.trans hv)
      have hpart := htook.trans hkey
      refine .expect (fun right rest' hw hrest' hright => ?_) hpart.1
      have hall := hpart.trans (Passage.take hrest')
      refine (suffixes_reads s _ _ _).imp (fun e' w hw => (hall.trans hw).imp ?_)
        (fun w hw => hall.1.trans hw)
      rintro ⟨⟨⟨ht, us, hus, hd⟩, hv'⟩, hmore⟩ ts n he
      obtain ⟨vs, hvs, hd'⟩ := hmore _ n (.index he hleft hd hright)
      refine ⟨mark :: us ++ right :: vs, ?_, ?_⟩
      · rw [ht, hus, hv', hvs]
        simp
      · simpa using hd'
  · rw [hnext]
    exact .of_later (.refl t) fun ts n he => ⟨[], rfl, by rwa [List.append_nil]⟩
termination_by 32 * t.size
decreasing_by all_goals omega

/-- Arguments are read up to the parenthesis. -/
theorem arguments_reads (s : State) :
    (arguments s).All (fun found t => Passage s t (∃ ts, s.rest = ts ++ found.2 :: t.rest ∧
      found.2.kind = .rightParen ∧ Derives .arguments ts s.nextId found.1 t.nextId)) (Later s) := by
  rw [arguments]
  rcases s.next_cases (· = .rightParen) with ⟨paren, rest, hu, hrest, hparen, hnext⟩ | ⟨hnext, -⟩
  · rw [hnext]
    exact .of_later (.take hrest) ⟨[], hrest, of_decide_eq_true hparen, .noArguments⟩
  · rw [hnext]
    refine (moreArguments_reads 0 s).imp (fun found t h => h.imp ?_) (fun _ h => h)
    rintro ⟨ts, hs, hparen, hd, hlength⟩
    exact ⟨ts, hs, hparen, .someArguments hd (by omega)⟩
termination_by 32 * s.size + 16
decreasing_by all_goals omega

/-- Arguments from one on are read up to the parenthesis, and are not too many. -/
theorem moreArguments_reads (count : Nat) (s : State) :
    (moreArguments count s).All (fun found t => Passage s t (∃ ts,
      s.rest = ts ++ found.2 :: t.rest ∧ found.2.kind = .rightParen ∧
      Derives .expressions ts s.nextId found.1 t.nextId ∧
      count + found.1.length ≤ maxItems)) (Later s) := by
  rw [moreArguments]
  have hsize : (s.limit count .tooManyArguments).size = s.size := State.size_limit _ _ _
  have hlimit := Passage.limit s count .tooManyArguments
  refine (expression_reads _).andThen (fun e u hu he => ?_) (fun u hu => hlimit.1.trans hu)
  have hfirst := hlimit.trans he
  rcases u.next_cases (· = .comma) with ⟨comma, rest, hv, hrest, hcomma, hnext⟩ | ⟨hnext, -⟩
  · rw [hnext]
    have hpart := hfirst.trans (Passage.take hrest)
    refine (moreArguments_reads (count + 1) _).andThen (fun found w hw hfound => ?_)
      (fun w hw => hpart.1.trans hw)
    refine (hpart.trans hfound).imp ?_
    rintro ⟨⟨⟨⟨hsame, hcount⟩, ts, hs, hd⟩, hu'⟩, us, hus, hparen, hd', hlength⟩
    rw [hsame] at hs hd
    refine ⟨ts ++ comma :: us, ?_, hparen, .moreExpressions hd (of_decide_eq_true hcomma) hd', ?_⟩
    · rw [hs, hu', hus]
      simp
    · rw [List.length_cons]
      omega
  · rw [hnext]
    refine .expect (fun paren rest hv hrest hparen => ?_) hfirst.1
    refine (hfirst.trans (Passage.take hrest)).imp ?_
    rintro ⟨⟨⟨hsame, hcount⟩, ts, hs, hd⟩, hu'⟩
    rw [hsame] at hs hd
    exact ⟨ts, by rw [hs, hu'], hparen, .lastExpression hd, hcount⟩
termination_by 32 * s.size + 15
decreasing_by all_goals omega

/-- An operand without suffixes is read. -/
theorem primary_reads (s : State) : (primary s).All (Reads .primary s) (Later s) := by
  rw [primary]
  rcases s.next_cases (fun _ => true) with ⟨token, rest, hu, hrest, -, hnext⟩ | ⟨hnext, -⟩
  · rw [hnext]
    have htook := Passage.take hrest
    dsimp only
    split
    -- Constants.
    · next hkind =>
      exact htook.imp fun hs => ⟨[token], hs, .constant (by rw [hkind]; rfl)⟩
    · next hkind =>
      exact htook.imp fun hs => ⟨[token], hs, .constant (by rw [hkind]; rfl)⟩
    · next hkind =>
      exact htook.imp fun hs => ⟨[token], hs, .constant (by rw [hkind]; rfl)⟩
    · next x hkind =>
      exact htook.imp fun hs => ⟨[token], hs, .constant (by rw [hkind]; rfl)⟩
    · next x hkind =>
      exact htook.imp fun hs => ⟨[token], hs, .constant (by rw [hkind]; rfl)⟩
    -- The words `this` and `super`, and variables. Each of them takes a number.
    · next hkind =>
      refine (htook.trans (.of_later (.used _) trivial)).imp ?_
      exact fun hs => ⟨[token], hs.1, .this hkind⟩
    · next hkind =>
      refine .expect (fun dot rest' hv hrest' hdot => ?_) htook.1
      have hpart := htook.trans (Passage.take hrest')
      refine .expect (fun name rest'' hw hrest'' hname => ?_) hpart.1
      refine ((hpart.trans (Passage.take hrest'')).trans (.of_later (.used _) trivial)).imp ?_
      rintro ⟨⟨⟨hs, hs'⟩, hs''⟩, -⟩
      refine ⟨[token, dot, name], ?_, .super hkind hdot hname⟩
      rw [hs, hs', hs'']
      rfl
    · next hkind =>
      refine (htook.trans (.of_later (.used _) trivial)).imp ?_
      exact fun hs => ⟨[token], hs.1, .reference hkind⟩
    -- A function without a name.
    · next hkind =>
      refine .expect (fun left rest' hv hrest' hleft => ?_) htook.1
      have hopen := htook.trans (Passage.take hrest')
      refine (parameters_reads _).andThen (fun params v hv' hparams => ?_)
        (fun v hv' => hopen.1.trans hv')
      have hpart := hopen.trans hparams
      refine .expect (fun brace rest'' hw hrest'' hbrace => ?_) hpart.1
      have hstart := hpart.trans (Passage.take hrest'')
      refine (block_reads _).andThen (fun body x hx hbody => ?_) (fun x hx => hstart.1.trans hx)
      refine (hstart.trans hbody).imp ?_
      rintro ⟨⟨⟨⟨hs, hs'⟩, ts, right, hts, hright, hd⟩, hv''⟩, us, close, hus, hclose, hd'⟩
      refine ⟨token :: left :: ts ++ right :: (brace :: us ++ [close]), ?_,
        .lambda hkind hleft hd hright (.block hbrace hd' hclose)⟩
      rw [hs, hs', hts, hv'', hus]
      simp
    -- What stands in parentheses, brackets or braces.
    · next hkind =>
      refine (expression_reads _).andThen (fun e v hv he => ?_) (fun v hv => htook.1.trans hv)
      have hpart := htook.trans he
      refine .expect (fun right rest' hw hrest' hright => ?_) hpart.1
      refine (hpart.trans (Passage.take hrest')).imp ?_
      rintro ⟨⟨hs, ts, hts, hd⟩, hv'⟩
      exact ⟨token :: ts ++ [right], by rw [hs, hts, hv']; simp, .grouping hkind hd hright⟩
    · next hkind =>
      refine (elements_reads _).andThen (fun es v hv hes => (htook.trans hes).imp ?_)
        (fun v hv => htook.1.trans hv)
      rintro ⟨hs, ts, right, hts, hright, hd⟩
      exact ⟨token :: ts ++ [right], by rw [hs, hts]; simp, .array hkind hd hright⟩
    · next hkind =>
      refine (entries_reads _).andThen (fun es v hv hes => (htook.trans hes).imp ?_)
        (fun v hv => htook.1.trans hv)
      rintro ⟨hs, ts, right, hts, hright, hd⟩
      exact ⟨token :: ts ++ [right], by rw [hs, hts]; simp, .object hkind hd hright⟩
    · exact .refl s
  · rw [hnext]
    exact .refl s
termination_by 32 * s.size
decreasing_by all_goals omega

/-- Elements are read up to the bracket. -/
theorem elements_reads (s : State) :
    (elements s).All (ReadsTo .elements .rightBracket s) (Later s) := by
  rw [elements]
  rcases s.next_cases (· = .rightBracket) with ⟨right, rest, hu, hrest, hright, hnext⟩ | ⟨hnext, -⟩
  · rw [hnext]
    exact .of_later (.take hrest) ⟨[], right, hrest, of_decide_eq_true hright, .noElements⟩
  · rw [hnext]
    dsimp only
    split
    · exact .refl s
    refine (expression_reads s).andThen (fun e t ht he => ?_) (fun _ h => h)
    rcases t.next_cases (· = .comma) with ⟨comma, rest, hu, hrest, hcomma, hnext'⟩ | ⟨hnext', -⟩
    · rw [hnext']
      have hpart := he.trans (Passage.take hrest)
      refine (elements_reads _).andThen (fun es v hv hes => (hpart.trans hes).imp ?_)
        (fun v hv => hpart.1.trans hv)
      rintro ⟨⟨⟨ts, hs, hd⟩, ht'⟩, us, right, hus, hright, hd'⟩
      refine ⟨ts ++ comma :: us, right, by rw [hs, ht', hus]; simp, hright, ?_⟩
      exact hd'.consElement hd (of_decide_eq_true hcomma)
    · rw [hnext']
      refine .expect (fun right rest hu hrest hright => ?_) he.1
      refine (he.trans (Passage.take hrest)).imp ?_
      rintro ⟨⟨ts, hs, hd⟩, ht'⟩
      exact ⟨ts, right, by rw [hs, ht'], hright, .someElements (.lastExpression hd)⟩
termination_by 32 * s.size + 15
decreasing_by all_goals omega

/-- Entries are read up to the brace. -/
theorem entries_reads (s : State) :
    (entries s).All (ReadsTo .entries .rightBrace s) (Later s) := by
  rw [entries]
  rcases s.next_cases (· = .rightBrace) with ⟨right, rest, hu, hrest, hright, hnext⟩ | ⟨hnext, -⟩
  · rw [hnext]
    exact .of_later (.take hrest) ⟨[], right, hrest, of_decide_eq_true hright, .noEntries⟩
  · rw [hnext]
    dsimp only
    split
    · exact .refl s
    rcases s.next_cases isKey with ⟨key, rest, hu, hrest, hkey, hnext'⟩ | ⟨hnext', -⟩
    · rw [hnext']
      have htook := Passage.take hrest
      refine .expect (fun colon rest' hv hrest' hcolon => ?_) htook.1
      have hstart := htook.trans (Passage.take hrest')
      have hshorter : ({ s with rest := rest' } : State).size < s.size := Nat.lt_trans hv hu
      refine (expression_reads _).andThen (fun e v hv' he => ?_) (fun v hv' => hstart.1.trans hv')
      have hpair := hstart.trans he
      rcases v.next_cases (· = .comma) with ⟨comma, rest'', hw, hrest'', hcomma, hnext''⟩ |
        ⟨hnext'', -⟩
      · rw [hnext'']
        have hpart := hpair.trans (Passage.take hrest'')
        refine (entries_reads _).andThen (fun es w hw' hes => (hpart.trans hes).imp ?_)
          (fun w hw' => hpart.1.trans hw')
        rintro ⟨⟨⟨⟨hs, hs'⟩, ts, hts, hd⟩, hv''⟩, us, right, hus, hright, hd'⟩
        refine ⟨key :: colon :: ts ++ comma :: us, right, ?_, hright,
          hd'.consEntry (key_iff.mpr hkey) hcolon hd (of_decide_eq_true hcomma)⟩
        rw [hs, hs', hts, hv'', hus]
        simp
      · rw [hnext'']
        refine .expect (fun right rest'' hw hrest'' hright => ?_) hpair.1
        refine (hpair.trans (Passage.take hrest'')).imp ?_
        rintro ⟨⟨⟨hs, hs'⟩, ts, hts, hd⟩, hv''⟩
        exact ⟨key :: colon :: ts, right, by rw [hs, hs', hts, hv'']; simp, hright,
          .someEntries (.lastPair (key_iff.mpr hkey) hcolon hd)⟩
    · rw [hnext']
      exact .refl s
termination_by 32 * s.size + 15
decreasing_by all_goals omega

/-- The declarations of a block are read up to the brace. -/
theorem block_reads (s : State) :
    (block s).All (ReadsTo .declarations .rightBrace s) (Later s) := by
  rw [block]
  rcases s.next_cases (· = .rightBrace) with ⟨right, rest, hu, hrest, hright, hnext⟩ | ⟨hnext, -⟩
  · rw [hnext]
    exact .of_later (.take hrest) ⟨[], right, hrest, of_decide_eq_true hright, .noDeclarations⟩
  · rw [hnext]
    dsimp only
    split
    · exact .refl s
    next h =>
    have hfound := declaration_reads s (State.size_pos h)
    have hshorter := (declaration s (State.size_pos h)).shorter
    refine (block_reads _).andThen (fun body t ht hbody => (hfound.trans hbody).imp ?_)
      (fun t ht => hfound.1.trans ht)
    rintro ⟨⟨stmt, ts, hstmt, hs, hd⟩, us, right, hus, hright, hd'⟩
    rw [hstmt]
    refine ⟨ts ++ us, right, ?_, hright, .moreDeclarations hd hd'⟩
    rw [hs, hus, List.append_assoc]
termination_by 32 * s.size + 20
decreasing_by all_goals omega

/-- A declaration is read, unless it is given up. -/
theorem declaration_reads (s : State) (h : 0 < s.size) :
    Passage s (declaration s h).state (∃ stmt ts, (declaration s h).stmt = some stmt ∧
      s.rest = ts ++ (declaration s h).state.rest ∧
      Derives .declaration ts s.nextId stmt (declaration s h).state.nextId) := by
  have hstep := declarationStep_reads s
  rw [declaration]
  cases hx : declarationStep s with
  | done stmt t ht =>
    rw [hx] at hstep
    have hreads : Reads .declaration s stmt t := hstep
    exact hreads.imp fun ⟨ts, hs, hd⟩ => ⟨stmt, ts, rfl, hs, hd⟩
  | failed c t ht =>
    rw [hx] at hstep
    exact .of_complaint c hstep (.resume _)
termination_by 32 * s.size + 19
decreasing_by all_goals omega

/-- A declaration is read as its first word says. -/
theorem declarationStep_reads (s : State) :
    (declarationStep s).All (Reads .declaration s) (Later s) := by
  -- A statement that declares nothing is read wherever no other declaration starts.
  have hstatement : (statement s).All (Reads .declaration s) (Later s) := by
    refine (statement_reads s).imp (fun a t h => h.imp ?_) (fun _ h => h)
    exact fun ⟨ts, dangling, hs, hd, _⟩ => ⟨ts, hs, .statement hd⟩
  rw [declarationStep]
  rcases s.next_cases (fun _ => true) with ⟨word, rest, hu, hrest, -, hnext⟩ | ⟨hnext, -⟩
  · rw [hnext]
    have htook := Passage.take hrest
    dsimp only
    split
    -- A class, with superclasses or without.
    · next hword =>
      refine .expect (fun name rest' hv hrest' hname => ?_) htook.1
      have hstart := htook.trans (Passage.take hrest')
      have hshort : ({ s with rest := rest' } : State).size < s.size := Nat.lt_trans hv hu
      rcases ({ s with rest := rest' } : State).next_cases (· = .less) with
        ⟨less, rest'', hw, hrest'', hless, hnext'⟩ | ⟨hnext', -⟩
      · rw [hnext']
        have hpart := hstart.trans (Passage.take hrest'')
        have hshorter : ({ s with rest := rest'' } : State).size < s.size := Nat.lt_trans hw hshort
        refine (superclasses_reads _).andThen (fun supers v hv' hsupers => ?_)
          (fun v hv' => hpart.1.trans hv')
        have hall := hpart.trans hsupers
        refine (classBody_reads name supers v).within.imp (fun a w hw => (hall.trans hw).imp ?_)
          (fun w hw => hall.1.trans hw)
        rintro ⟨⟨⟨⟨hs, hs'⟩, hs''⟩, ts, hts, hd⟩, left, us, right, fs, hleft, hus, hright, rfl, hd'⟩
        refine ⟨word :: name :: (less :: ts) ++ left :: us ++ [right], ?_,
          .classDeclaration hword hname (.someSuperclasses (of_decide_eq_true hless) hd) hleft
            hd' hright⟩
        rw [hs, hs', hs'', hts, hus]
        simp
      · rw [hnext']
        refine (classBody_reads name [] _).within.imp (fun a w hw => (hstart.trans hw).imp ?_)
          (fun w hw => hstart.1.trans hw)
        rintro ⟨⟨hs, hs'⟩, left, us, right, fs, hleft, hus, hright, rfl, hd'⟩
        refine ⟨word :: name :: [] ++ left :: us ++ [right], by rw [hs, hs', hus]; simp, ?_⟩
        exact .classDeclaration hword hname .noSuperclasses hleft hd' hright
    -- Variables.
    · next hword =>
      refine (declarators_reads _).andThen (fun ds v hv hds => (htook.trans hds).imp ?_)
        (fun v hv => htook.1.trans hv)
      rintro ⟨hs, ts, stop, hts, hstop, hd⟩
      exact ⟨word :: ts ++ [stop], by rw [hs, hts]; simp, .variableDeclaration hword hd hstop⟩
    -- A function, unless it has no name: then it starts an expression.
    · next hword =>
      split
      · refine (callable_reads .function _).andThen (fun f v hv hf => (htook.trans hf).imp ?_)
          (fun v hv => htook.1.trans hv)
        rintro ⟨hs, ts, hts, hd⟩
        exact ⟨word :: ts, by rw [hs, hts]; simp, .functionDeclaration hword hd⟩
      · exact hstatement
    · exact hstatement
  · rw [hnext]
    exact hstatement
termination_by 32 * s.size + 18
decreasing_by all_goals omega

/-- The body of a class is read. -/
theorem classBody_reads (name : Token) (supers : List Reference) (s : State) :
    (classBody name supers s).All (fun a t => Passage s t (∃ left ts right fs,
      left.kind = .leftBrace ∧ s.rest = left :: ts ++ right :: t.rest ∧ right.kind = .rightBrace ∧
      a = .class ⟨name, supers, fs⟩ ∧ Derives .methods ts s.nextId fs t.nextId)) (Later s) := by
  rw [classBody]
  refine .expect (fun left rest hu hrest hleft => ?_) (.refl s)
  have htook := Passage.take hrest
  refine (methods_reads _).andThen (fun fs v hv hfs => (htook.trans hfs).imp ?_)
    (fun v hv => htook.1.trans hv)
  rintro ⟨hs, ts, right, hts, hright, hd⟩
  exact ⟨left, ts, right, fs, hleft, by rw [hs, hts]; simp, hright, rfl, hd⟩
termination_by 32 * s.size
decreasing_by all_goals omega

/-- Methods are read up to the brace. -/
theorem methods_reads (s : State) :
    (methods s).All (ReadsTo .methods .rightBrace s) (Later s) := by
  rw [methods]
  rcases s.next_cases (· = .rightBrace) with ⟨right, rest, hu, hrest, hright, hnext⟩ | ⟨hnext, -⟩
  · rw [hnext]
    exact .of_later (.take hrest) ⟨[], right, hrest, of_decide_eq_true hright, .noMethods⟩
  · rw [hnext]
    dsimp only
    split
    · exact .refl s
    refine (callable_reads .method s).andThen (fun f t ht hf => ?_) (fun _ h => h)
    refine (methods_reads t).andThen (fun fs u hu hfs => (hf.trans hfs).imp ?_)
      (fun u hu => hf.1.trans hu)
    rintro ⟨⟨ts, hs, hd⟩, us, right, hus, hright, hd'⟩
    exact ⟨ts ++ us, right, by rw [hs, hus, List.append_assoc], hright, .moreMethods hd hd'⟩
termination_by 32 * s.size + 1
decreasing_by all_goals omega

/-- A function is read from its name on. -/
theorem callable_reads (sort : Callable) (s : State) :
    (callable sort s).All (Reads .function s) (Later s) := by
  rw [callable]
  refine .expect (fun name rest hu hrest hname => ?_) (.refl s)
  have htook := Passage.take hrest
  refine .expect (fun left rest' hv hrest' hleft => ?_) htook.1
  have hopen := htook.trans (Passage.take hrest')
  refine (parameters_reads _).andThen (fun params v hv' hparams => ?_)
    (fun v hv' => hopen.1.trans hv')
  have hpart := hopen.trans hparams
  refine .expect (fun brace rest'' hw hrest'' hbrace => ?_) hpart.1
  have hstart := hpart.trans (Passage.take hrest'')
  refine (block_reads _).andThen (fun body x hx hbody => ?_) (fun x hx => hstart.1.trans hx)
  refine (hstart.trans hbody).imp ?_
  rintro ⟨⟨⟨⟨hs, hs'⟩, ts, right, hts, hright, hd⟩, hv''⟩, us, close, hus, hclose, hd'⟩
  refine ⟨name :: left :: ts ++ right :: (brace :: us ++ [close]), ?_,
    .function hname hleft hd hright (.block hbrace hd' hclose)⟩
  rw [hs, hs', hts, hv'', hus]
  simp
termination_by 32 * s.size
decreasing_by all_goals omega

/-- Variables are read up to the semicolon. -/
theorem declarators_reads (s : State) :
    (declarators s).All (ReadsTo .declarators .semicolon s) (Later s) := by
  rw [declarators]
  refine .expect (fun name rest hu hrest hname => ?_) (.refl s)
  have htook := Passage.take hrest
  rcases ({ s with rest := rest } : State).next_cases (· = .equal) with
    ⟨equals, rest', hv, hrest', hequals, hnext⟩ | ⟨hnext, -⟩
  · rw [hnext]
    have hpart := htook.trans (Passage.take hrest')
    have hshorter : ({ s with rest := rest' } : State).size < s.size := Nat.lt_trans hv hu
    refine (expression_reads _).andThen (fun e v hv' he => ?_) (fun v hv' => hpart.1.trans hv')
    have hfirst := hpart.trans he
    refine (moreDeclarators_reads _ v).within.imp (fun ds w hw => (hfirst.trans hw).imp ?_)
      (fun w hw => hfirst.1.trans hw)
    rintro ⟨⟨⟨hs, hs'⟩, ts, hts, hd⟩, hmore⟩
    obtain ⟨us, stop, hus, hstop, hd'⟩ :=
      hmore _ _ (.initialized hname (of_decide_eq_true hequals) hd)
    exact ⟨name :: equals :: ts ++ us, stop, by rw [hs, hs', hts, hus]; simp, hstop, hd'⟩
  · rw [hnext]
    refine (moreDeclarators_reads _ _).within.imp (fun ds w hw => (htook.trans hw).imp ?_)
      (fun w hw => htook.1.trans hw)
    rintro ⟨hs, hmore⟩
    obtain ⟨us, stop, hus, hstop, hd'⟩ := hmore _ _ (.uninitialized hname)
    exact ⟨name :: us, stop, by rw [hs, hus]; simp, hstop, hd'⟩
termination_by 32 * s.size
decreasing_by all_goals omega

/-- Variables from the second on are read up to the semicolon. -/
theorem moreDeclarators_reads (first : Declarator) (s : State) :
    (moreDeclarators first s).All (fun ds t => Passage s t (∀ ts n,
      Derives .declarator ts n first s.nextId → ∃ us stop, s.rest = us ++ stop :: t.rest ∧
        stop.kind = .semicolon ∧ Derives .declarators (ts ++ us) n ds t.nextId)) (Later s) := by
  rw [moreDeclarators]
  rcases s.next_cases (· = .comma) with ⟨comma, rest, hu, hrest, hcomma, hnext⟩ | ⟨hnext, -⟩
  · rw [hnext]
    have htook := Passage.take hrest
    refine (declarators_reads _).andThen (fun ds v hv hds => (htook.trans hds).imp ?_)
      (fun v hv => htook.1.trans hv)
    rintro ⟨hs, us, stop, hus, hstop, hd⟩ ts n hfirst
    exact ⟨comma :: us, stop, by rw [hs, hus]; simp, hstop,
      .moreDeclarators hfirst (of_decide_eq_true hcomma) hd⟩
  · rw [hnext]
    refine .expect (fun stop rest hu hrest hstop => ?_) (.refl s)
    refine .of_later (.take hrest) fun ts n hfirst => ⟨[], stop, hrest, hstop, ?_⟩
    rw [List.append_nil]
    exact .lastDeclarator hfirst
termination_by 32 * s.size
decreasing_by all_goals omega

/-- An expression is read with its semicolon. -/
theorem terminated_reads (reason : Reason) (s : State) :
    (terminated reason s).All (Reads .terminated s) (Later s) := by
  rw [terminated]
  refine (expression_reads s).andThen (fun e t ht he => ?_) (fun _ h => h)
  refine .expect (fun stop rest hu hrest hstop => ?_) he.1
  refine (he.trans (Passage.take hrest)).imp ?_
  rintro ⟨⟨ts, hs, hd⟩, ht'⟩
  exact ⟨ts ++ [stop], by rw [hs, ht']; simp, .terminated hd hstop⟩
termination_by 32 * s.size + 15
decreasing_by all_goals omega

/-- A condition is read with its parentheses. -/
theorem condition_reads (start stop : Reason) (s : State) :
    (condition start stop s).All (fun e t => Passage s t (∃ left ts right,
      left.kind = .leftParen ∧ s.rest = left :: ts ++ right :: t.rest ∧ right.kind = .rightParen ∧
      Derives .expression ts s.nextId e t.nextId)) (Later s) := by
  rw [condition]
  refine .expect (fun left rest hu hrest hleft => ?_) (.refl s)
  have htook := Passage.take hrest
  refine (expression_reads _).andThen (fun e v hv he => ?_) (fun v hv => htook.1.trans hv)
  have hpart := htook.trans he
  refine .expect (fun right rest' hw hrest' hright => ?_) hpart.1
  refine (hpart.trans (Passage.take hrest')).imp ?_
  rintro ⟨⟨hs, ts, hts, hd⟩, hv'⟩
  exact ⟨left, ts, right, hleft, by rw [hs, hts, hv']; simp, hright, hd⟩
termination_by 32 * s.size
decreasing_by all_goals omega

/-- A statement is read as its first word says. -/
theorem statement_reads (s : State) : (statement s).All (ReadsStatement s) (Later s) := by
  -- A statement that starts with a brace is a block, so an expression starts with another token.
  have hexpression (hbrace : s.Lacks .leftBrace) :
      ((terminated .expressionEnd s).andThen
        fun e t ht => Step.done (Stmt.expression e) t ht).All (ReadsStatement s) (Later s) := by
    refine (terminated_reads .expressionEnd s).andThen (fun e t ht he => he.imp ?_) (fun _ h => h)
    rintro ⟨ts, hs, hd⟩
    refine ⟨ts, false, hs, .expression hd fun t ht => hbrace t ?_, by simp⟩
    rw [hs]
    cases ts with
    | nil => simp at ht
    | cons => simpa using ht
  rw [statement]
  rcases s.next_cases (fun _ => true) with ⟨word, rest, hu, hrest, -, hnext⟩ | ⟨hnext, hnone⟩
  · rw [hnext]
    have htook := Passage.take hrest
    dsimp only
    split
    -- A counting loop.
    · next hword =>
      refine (forStatement_reads _).within.imp (fun a t h => (htook.trans h).imp ?_)
        (fun t h => htook.1.trans h)
      rintro ⟨hs, left, ts, us, stop, vs, right, ws, m₁, m₂, m₃, start, c, step, body, d, hleft,
        hstop, hright, hts, rfl, hstart, hc, hstep, hd, hdangling⟩
      refine ⟨word :: left :: ts ++ us ++ stop :: vs ++ right :: ws, d, ?_,
        .forLoop hword hleft hstart hc hstop hstep hright hd (counting_iff.mpr rfl), hdangling⟩
      rw [hs, hts]
      simp
    -- A choice, with an `else` or without.
    · next hword =>
      refine (condition_reads _ _ _).andThen (fun c u hu' hc => ?_) (fun u hu' => htook.1.trans hu')
      have hhead := htook.trans hc
      refine (statement_reads u).andThen (fun body v hv hbody => ?_) (fun v hv => hhead.1.trans hv)
      have hthen := hhead.trans hbody
      rcases v.next_cases (· = .kwElse) with ⟨other, rest', hw, hrest', hother, hnext'⟩ |
        ⟨hnext', hnone⟩
      · rw [hnext']
        have hpart := hthen.trans (Passage.take hrest')
        refine (statement_reads _).andThen (fun alt x hx halt => (hpart.trans halt).imp ?_)
          (fun x hx => hpart.1.trans hx)
        rintro ⟨⟨⟨⟨hs, left, ts, right, hleft, hts, hright, hd⟩, us, d, hus, hd', hdangling⟩, hv'⟩,
          vs, d', hvs, hd'', hdangling'⟩
        -- The statement before the `else` cannot be one that could still take it.
        cases d with
        | true => exact absurd (of_decide_eq_true hother) (hdangling rfl other (by rw [hv']; rfl))
        | false =>
          refine ⟨word :: left :: ts ++ right :: us ++ other :: vs, d', ?_,
            .branchElse hword hleft hd hright hd' (of_decide_eq_true hother) hd'', hdangling'⟩
          rw [hs, hts, hus, hv', hvs]
          simp
      · rw [hnext']
        refine hthen.imp ?_
        rintro ⟨⟨hs, left, ts, right, hleft, hts, hright, hd⟩, us, d, hus, hd', -⟩
        refine ⟨word :: left :: ts ++ right :: us, true, by rw [hs, hts, hus]; simp, ?_,
          fun _ => State.lacks_of_next hnone⟩
        exact .branch hword hleft hd hright hd'
    -- A loop.
    · next hword =>
      refine (condition_reads _ _ _).andThen (fun c u hu' hc => ?_) (fun u hu' => htook.1.trans hu')
      have hhead := htook.trans hc
      refine (statement_reads u).andThen (fun body v hv hbody => (hhead.trans hbody).imp ?_)
        (fun v hv => hhead.1.trans hv)
      rintro ⟨⟨hs, left, ts, right, hleft, hts, hright, hd⟩, us, d, hus, hd', hdangling⟩
      refine ⟨word :: left :: ts ++ right :: us, d, by rw [hs, hts, hus]; simp, ?_, hdangling⟩
      exact .loop hword hleft hd hright hd'
    -- A `return`, with a value or without.
    · next hword =>
      rcases ({ s with rest := rest } : State).next_cases (· = .semicolon) with
        ⟨stop, rest', hv, hrest', hstop, hnext'⟩ | ⟨hnext', -⟩
      · rw [hnext']
        refine (htook.trans (Passage.take hrest')).imp ?_
        rintro ⟨hs, hs'⟩
        refine ⟨word :: [] ++ [stop], false, by rw [hs, hs']; simp, ?_, by simp⟩
        exact .result hword .absent (of_decide_eq_true hstop)
      · rw [hnext']
        refine (terminated_reads _ _).andThen (fun e u hu' he => (htook.trans he).imp ?_)
          (fun u hu' => htook.1.trans hu')
        rintro ⟨hs, ts, hts, hd⟩
        obtain ⟨us, stop, rfl, hd', hstop⟩ := hd.of_terminated
        refine ⟨word :: us ++ [stop], false, by rw [hs, hts]; simp, ?_, by simp⟩
        exact .result hword (.present hd') hstop
    -- A block.
    · next hword =>
      refine (block_reads _).andThen (fun body u hu' hbody => (htook.trans hbody).imp ?_)
        (fun u hu' => htook.1.trans hu')
      rintro ⟨hs, ts, right, hts, hright, hd⟩
      refine ⟨word :: ts ++ [right], false, by rw [hs, hts]; simp, ?_, by simp⟩
      exact .blockStatement (.block hword hd hright)
    · next hword =>
      refine (terminated_reads _ _).andThen (fun e u hu' he => (htook.trans he).imp ?_)
        (fun u hu' => htook.1.trans hu')
      rintro ⟨hs, ts, hts, hd⟩
      exact ⟨word :: ts, false, by rw [hs, hts]; simp, .print hword hd, by simp⟩
    · next hbrace _ =>
      refine hexpression fun t ht => ?_
      rw [hrest] at ht
      exact (Option.some.inj ht) ▸ hbrace
  · rw [hnext]
    exact hexpression fun t ht => absurd (hnone t ht) (by simp)
termination_by 32 * s.size + 17
decreasing_by all_goals omega

/-- A counting loop is read from its parenthesis on. -/
theorem forStatement_reads (s : State) :
    (forStatement s).All (fun a t => Passage s t (∃ left ts us stop vs right ws m₁ m₂ m₃ start c
      step body d, left.kind = .leftParen ∧ stop.kind = .semicolon ∧ right.kind = .rightParen ∧
      s.rest = left :: ts ++ us ++ stop :: vs ++ right :: ws ++ t.rest ∧
      a = forLoop start c step body ∧ Derives .start ts s.nextId start m₁ ∧
      Derives .optional us m₁ c m₂ ∧ Derives .optional vs m₂ step m₃ ∧
      Derives (.statement d) ws m₃ body t.nextId ∧ (d = true → t.Lacks .kwElse))) (Later s) := by
  rw [forStatement]
  refine .expect (fun left rest hu hrest hleft => ?_) (.refl s)
  have htook := Passage.take hrest
  -- What the loop starts with: nothing, variables or an expression.
  rcases ({ s with rest := rest } : State).next_cases (· = .semicolon) with
    ⟨stop, rest', hv, hrest', hstop, hnext⟩ | ⟨hnext, -⟩
  · rw [hnext]
    have hpart := htook.trans (Passage.take hrest')
    have hshorter : ({ s with rest := rest' } : State).size < s.size := Nat.lt_trans hv hu
    refine (forCondition_reads none _).within.imp (fun a t h => (hpart.trans h).imp ?_)
      (fun t h => hpart.1.trans h)
    rintro ⟨⟨hs, hs'⟩, us, stop', vs, right, ws, m₂, m₃, c, step, body, d, hstop', hright, hus, ha,
      hc, hstep, hd, hdangling⟩
    exact ⟨left, [stop], us, stop', vs, right, ws, s.nextId, m₂, m₃, none, c, step, body, d, hleft,
      hstop', hright, by rw [hs, hs', hus]; simp, ha, .noStart (of_decide_eq_true hstop), hc, hstep,
      hd, hdangling⟩
  · rw [hnext]
    rcases ({ s with rest := rest } : State).next_cases (· = .kwVar) with
      ⟨word, rest', hv, hrest', hword, hnext'⟩ | ⟨hnext', -⟩
    · rw [hnext']
      have hpart := htook.trans (Passage.take hrest')
      have hshorter : ({ s with rest := rest' } : State).size < s.size := Nat.lt_trans hv hu
      refine (declarators_reads _).andThen (fun ds v hv' hds => ?_) (fun v hv' => hpart.1.trans hv')
      have hstart := hpart.trans hds
      refine (forCondition_reads _ v).within.imp (fun a t h => (hstart.trans h).imp ?_)
        (fun t h => hstart.1.trans h)
      rintro ⟨⟨⟨hs, hs'⟩, ts, stop, hts, hstop, hds'⟩, us, stop', vs, right, ws, m₂, m₃, c, step,
        body, d, hstop', hright, hus, ha, hc, hstep, hd, hdangling⟩
      exact ⟨left, word :: ts ++ [stop], us, stop', vs, right, ws, v.nextId, m₂, m₃, _, c, step,
        body, d, hleft, hstop', hright, by rw [hs, hs', hts, hus]; simp, ha,
        .variableStart (of_decide_eq_true hword) hds' hstop, hc, hstep, hd, hdangling⟩
    · rw [hnext']
      refine (terminated_reads _ _).andThen (fun e v hv he => ?_) (fun v hv => htook.1.trans hv)
      have hstart := htook.trans he
      refine (forCondition_reads _ v).within.imp (fun a t h => (hstart.trans h).imp ?_)
        (fun t h => hstart.1.trans h)
      rintro ⟨⟨hs, ts, hts, he'⟩, us, stop', vs, right, ws, m₂, m₃, c, step, body, d, hstop',
        hright, hus, ha, hc, hstep, hd, hdangling⟩
      exact ⟨left, ts, us, stop', vs, right, ws, v.nextId, m₂, m₃, _, c, step, body, d, hleft,
        hstop', hright, by rw [hs, hts, hus]; simp, ha, .expressionStart he', hc, hstep, hd,
        hdangling⟩
termination_by 32 * s.size
decreasing_by all_goals omega

/-- A counting loop is read from its condition on. -/
theorem forCondition_reads (start : Option Stmt) (s : State) :
    (forCondition start s).All (fun a t => Passage s t (∃ us stop vs right ws m₂ m₃ c step body d,
      stop.kind = .semicolon ∧ right.kind = .rightParen ∧
      s.rest = us ++ stop :: vs ++ right :: ws ++ t.rest ∧ a = forLoop start c step body ∧
      Derives .optional us s.nextId c m₂ ∧ Derives .optional vs m₂ step m₃ ∧
      Derives (.statement d) ws m₃ body t.nextId ∧ (d = true → t.Lacks .kwElse))) (Later s) := by
  rw [forCondition]
  rcases s.next_cases (· = .semicolon) with ⟨stop, rest, hu, hrest, hstop, hnext⟩ | ⟨hnext, -⟩
  · rw [hnext]
    have htook := Passage.take hrest
    refine (forStep_reads start none _).within.imp (fun a t h => (htook.trans h).imp ?_)
      (fun t h => htook.1.trans h)
    rintro ⟨hs, vs, right, ws, m₃, step, body, d, hright, hvs, ha, hstep, hd, hdangling⟩
    exact ⟨[], stop, vs, right, ws, s.nextId, m₃, none, step, body, d, of_decide_eq_true hstop,
      hright, by rw [hs, hvs]; simp, ha, .absent, hstep, hd, hdangling⟩
  · rw [hnext]
    refine (terminated_reads _ s).andThen (fun c u hu hc => ?_) (fun _ h => h)
    refine (forStep_reads start (some c) u).within.imp (fun a t h => (hc.trans h).imp ?_)
      (fun t h => hc.1.trans h)
    rintro ⟨⟨ts, hs, hd'⟩, vs, right, ws, m₃, step, body, d, hright, hvs, ha, hstep, hd, hdangling⟩
    obtain ⟨us, stop, rfl, hd'', hstop⟩ := hd'.of_terminated
    exact ⟨us, stop, vs, right, ws, u.nextId, m₃, some c, step, body, d, hstop, hright,
      by rw [hs, hvs]; simp, ha, .present hd'', hstep, hd, hdangling⟩
termination_by 32 * s.size + 16
decreasing_by all_goals omega

/-- A counting loop is read from its step on. -/
theorem forStep_reads (start : Option Stmt) (c : Option Expr) (s : State) :
    (forStep start c s).All (fun a t => Passage s t (∃ vs right ws m₃ step body d,
      right.kind = .rightParen ∧ s.rest = vs ++ right :: ws ++ t.rest ∧
      a = forLoop start c step body ∧ Derives .optional vs s.nextId step m₃ ∧
      Derives (.statement d) ws m₃ body t.nextId ∧ (d = true → t.Lacks .kwElse))) (Later s) := by
  rw [forStep]
  rcases s.next_cases (· = .rightParen) with ⟨right, rest, hu, hrest, hright, hnext⟩ | ⟨hnext, -⟩
  · rw [hnext]
    have htook := Passage.take hrest
    refine (statement_reads _).andThen (fun body v hv hbody => (htook.trans hbody).imp ?_)
      (fun v hv => htook.1.trans hv)
    rintro ⟨hs, ws, d, hws, hd, hdangling⟩
    exact ⟨[], right, ws, s.nextId, none, body, d, of_decide_eq_true hright,
      by rw [hs, hws]; simp, rfl, .absent, hd, hdangling⟩
  · rw [hnext]
    refine (expression_reads s).andThen (fun e t ht he => ?_) (fun _ h => h)
    refine .expect (fun right rest hu hrest hright => ?_) he.1
    have hpart := he.trans (Passage.take hrest)
    refine (statement_reads _).andThen (fun body v hv hbody => (hpart.trans hbody).imp ?_)
      (fun v hv => hpart.1.trans hv)
    rintro ⟨⟨⟨vs, hs, hd'⟩, ht'⟩, ws, d, hws, hd, hdangling⟩
    exact ⟨vs, right, ws, t.nextId, some e, body, d, hright, by rw [hs, ht', hws]; simp, rfl,
      .present hd', hd, hdangling⟩
termination_by 32 * s.size + 16
decreasing_by all_goals omega

end

end Lox.Grammar
