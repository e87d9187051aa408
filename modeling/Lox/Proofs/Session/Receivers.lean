import Lox.Proofs.Scoping.Nesting
import Lox.Proofs.Session.Context
import Lox.Proofs.Session.FrameChain

/-!
# Receivers

No variable is spelled like `this` or `super`, so the frames that bind these names keep their values
to the end of all turns, and there they can be compared. The frame of a method's call lies within
the frame that was made when the method was bound, and that frame holds the receiver. From this and
from how scopes lie within each other (`Scoping.Nest`) it follows what `this` and `super` evaluate
to, however deep they stand in functions and blocks of a method.
-/

namespace Lox

open Scoping Eval

/-- The words among the tokens of a turn are spelled as their kinds say. A text is scanned, so this
is about tokens that are given as such. -/
def Turn.Spelled : Turn → Prop
  | .tokens _ ts => ∀ t ∈ ts, t.Spelled
  | _ => True

/-- A frame lies within another one, and of the reserved names it has these bindings. -/
structure Machine.HasFrame (m : Machine) (k outer : FrameId) (bindings : Bindings) : Prop where
  /-- The frame around it. -/
  enclosing : m.heap.frames.enclosing? k = some outer
  /-- The reserved names. -/
  reserved : ∀ name, Reserved name → m.heap.frames.local? k name = bindings.lookup name

/-- A frame that was made last stays as it is. -/
theorem Machine.Later.hasFrame {m m' : Machine} (h : m.Later Reserved m') {fs : Frames}
    {bindings : Bindings} {outer : FrameId} (hm : m.heap.frames = fs.push ⟨bindings, some outer⟩) :
    m'.HasFrame fs.size outer bindings := by
  have hlt : fs.size < m.heap.frames.size := by simp [hm]
  refine ⟨?_, fun name hname => ?_⟩
  · rw [h.enclosing _ hlt, hm, Frames.enclosing?_push, if_pos rfl]
  · rw [h.kept _ hlt name hname, hm, Frames.local?_push, if_pos rfl]

/-- In a chain of frames there is one for every construct, and it lies within the next one. -/
theorem Eval.Aligned.made_at {made : FrameId → Construct → Prop} {m : Machine} {k : FrameId}
    {scopes : List Scope} {cs : List Construct} (h : Aligned made m k scopes cs) {i : Nat}
    {c : Construct} (hc : cs[i]? = some c) :
    ∃ k', m.heap.frames.ancestor? k i = some k' ∧ made k' c ∧
      ∃ outer, m.heap.frames.enclosing? k' = some outer ∧
        m.heap.frames.ancestor? k (i + 1) = some outer := by
  induction cs generalizing k scopes i with
  | nil => simp at hc
  | cons c' cs ih =>
    cases scopes with
    | nil => exact absurd h id
    | cons scope scopes =>
      obtain ⟨_, hmade, _, outer, houter, h⟩ := h
      cases i with
      | zero =>
        obtain rfl := Option.some.inj hc
        exact ⟨k, rfl, hmade, outer, houter, by simp [Frames.ancestor?, houter]⟩
      | succ i =>
        obtain ⟨k', hk', hmade', outer', houter', hnext⟩ := ih h hc
        have hstep (n : Nat) : m.heap.frames.ancestor? k (n + 1) =
            m.heap.frames.ancestor? outer n := by simp [Frames.ancestor?, houter]
        exact ⟨k', (hstep i).trans hk', hmade', outer', houter', (hstep _).trans hnext⟩

namespace Session

variable {s : Session} {t : Turn} {turns : List Turn} {j : Job} {v : Visit}

/-! ## Names -/

/-- All words that a session is given in a turn are spelled as their kinds say. -/
theorem spelled_scanned (ht : t.Spelled) : ∀ u ∈ t.scanned, u.Spelled := by
  cases t with
  | source budget text | line budget text => exact Token.spelled_of_tokenize text
  | tokens budget ts => exact ht
  | drain => exact fun _ hu => absurd hu List.not_mem_nil

/-- The names in a job are spelled as their kinds say. -/
theorem names_of_accepted (hj : s.accepted? t = some j) (ht : t.Spelled) :
    j.piece.Names Token.Spelled := by
  obtain ⟨r, hread, hjob, _⟩ := accepted?_eq_some_iff.mp hj
  obtain ⟨_, line, e, n, rfl, hbare, rfl⟩ | ⟨n, hclean, rfl⟩ := job_of_read? hread hjob
  · obtain ⟨tokens, hscan, hparse⟩ := parse_of_bareExpression? hbare
    refine Grammar.parseExpression?_names hparse fun u hu => ?_
    exact Token.spelled_of_tokenize _ u (by rw [hscan]; exact hu)
  · exact Grammar.parse_names hclean (spelled_scanned ht)

/-- The names in a visit are spelled. -/
theorem names_of_visited (hturns : ∀ t ∈ turns, t.Spelled) (h : s.Visited turns v) :
    v.Names Token.Spelled :=
  h.of_jobs fun _ t _ ht hj => names_of_accepted hj (hturns t ht) _ _ _

/-- What surrounds a visited piece is in order. -/
theorem nested_of_visited (hturns : ∀ t ∈ turns, t.Spelled) (h : s.Visited turns v) :
    v.Nested := by
  refine h.of_jobs fun s t j ht hj => ?_
  have hnames := names_of_accepted hj (hturns t ht)
  have hroot : (j.visit s.machine.distances).Nested := by
    cases j <;> exact Nest.top
  have hall := Visit.All.of_closed
    (P := fun v => Visit.All (Visit.Names Token.Spelled) v ∧ v.Nested)
    ⟨hnames _ _ _, hroot⟩ fun v hv p hp => ⟨hv.1.part hp, Visit.nested_parts hv.1 hv.2 p hp⟩
  exact hall.imp fun _ hv => hv.2

/-! ## Frames at the end -/

/-- What a reached moment reaches is reached. -/
theorem Reaches.trans {μ μ' : Moment} (h : s.Reaches turns μ) (hreach : μ.Reaches μ') :
    s.Reaches turns μ' := by
  induction turns generalizing s with
  | nil => exact False.elim h
  | cons t turns ih =>
    obtain ⟨j, hj, μ₀, hμ₀, h⟩ | h := h
    · exact .inl ⟨j, hj, μ₀, hμ₀, h.trans hreach⟩
    · exact .inr (ih h)

variable {sink : Sink} {clock : Clock}

/-- No moment binds a reserved name in a frame that exists. -/
theorem avoids_reserved (hturns : ∀ t ∈ turns, t.Spelled) {μ : Moment}
    (hμ : (start sink clock).Reaches turns μ) : μ.Avoids Reserved := by
  intro μ' hreach name hbinds
  obtain ⟨S, _, _, hseen, hgood⟩ := (hμ.trans hreach).good
  have hname {v : Visit} (hlive : S.live v) {t : Token}
      (ht : (.identifier, t) ∈ v.piece.words) : ¬Reserved t.lexeme := by
    have hword := names_of_visited hturns (hseen v hlive) _ ht
    exact hword.2.not_reserved hword.1
  cases hbinds with
  | «variable» =>
    obtain ⟨v, hpiece, hat⟩ := hgood.ready
    exact hname hat.live (by rw [hpiece]; exact List.mem_cons_self)
  | @function b f m =>
    obtain ⟨v, hpiece, hat⟩ := hgood.ready
    have hshapely := S.shapely v hat.live
    rw [Visit.Shapely, hpiece] at hshapely
    obtain ⟨t, ht⟩ := Option.isSome_iff_exists.mp hshapely
    rw [FunctionDecl.displayName, ht]
    exact hname hat.live (by simp [hpiece, Piece.words, ht])
  | «class» =>
    obtain ⟨v, hpiece, hat⟩ := hgood.ready
    exact hname hat.live (by rw [hpiece]; exact List.mem_cons_self)
  | assign =>
    obtain ⟨v, hpiece, hat⟩ := hgood.ready
    exact hname hat.live (by rw [hpiece]; exact List.mem_cons_self)

/-- What is bound to reserved names when a moment starts, and when it has ended, is so at the end of
all turns. -/
theorem later_end (hturns : ∀ t ∈ turns, t.Spelled) {μ : Moment}
    (hμ : (start sink clock).Reaches turns μ) :
    μ.machine.Later Reserved ((start sink clock).after turns).machine ∧
      μ.final.Later Reserved ((start sink clock).after turns).machine := by
  have hmoments := (later_after (s := start sink clock) turns rfl fun μ hμ =>
    avoids_reserved hturns hμ).2.2
  exact ⟨(avoids_reserved hturns hμ).restores.toLater.trans (hmoments μ hμ), hmoments μ hμ⟩

section Frames

variable {m : Machine} {b : Nat}

/-- A block makes an empty frame in the current one. -/
theorem hasFrame_block (hturns : ∀ t ∈ turns, t.Spelled) {ss : List Stmt}
    (hμ : (start sink clock).Reaches turns ⟨.execute (b + 1) (.block ss), m⟩) :
    ((start sink clock).after turns).machine.HasFrame m.heap.frames.size m.current [] :=
  (later_end hturns (hμ.trans (.single (.block rfl)))).1.hasFrame rfl

/-- Binding makes a frame with the receiver. -/
theorem hasFrame_bind (hturns : ∀ t ∈ turns, t.Spelled) {method : Lox.Function} {receiver : Value}
    (hμ : (start sink clock).Reaches turns ⟨.bind method receiver, m⟩) :
    ((start sink clock).after turns).machine.HasFrame m.heap.frames.size method.frame
      [("this", receiver)] :=
  (later_end hturns hμ).2.hasFrame rfl

/-- Parameters are not reserved names. -/
theorem lookup_bindParameters_reserved {params : List Token} {vs : List Value} {name : String}
    (hparams : ∀ t ∈ params, t.lexeme ≠ name) : (bindParameters params vs).lookup name = none := by
  suffices h : ∀ (ps : List (Token × Value)) (bindings : Bindings), (∀ p ∈ ps, p.1.lexeme ≠ name) →
      bindings.lookup name = none →
      (ps.foldl (fun b p => b.insert p.1.lexeme p.2) bindings).lookup name = none from
    h _ [] (fun p hp => hparams p.1 (List.of_mem_zip hp).1) rfl
  intro ps
  induction ps with
  | nil => exact fun _ _ h => h
  | cons p ps ih =>
    intro bindings hps hnone
    rw [List.forall_mem_cons] at hps
    refine ih _ hps.2 ?_
    rw [Bindings.lookup_insert, if_neg hps.1.symm]
    exact hnone

/-- A call makes a frame in that of the function. -/
theorem hasFrame_call (hturns : ∀ t ∈ turns, t.Spelled) {f : Lox.Function} {vs : List Value}
    (hμ : (start sink clock).Reaches turns ⟨.callFunction b f vs, m⟩) :
    ((start sink clock).after turns).machine.HasFrame m.heap.frames.size f.frame [] := by
  have hframe := (later_end hturns (hμ.trans (.single (.body rfl)))).1.hasFrame rfl
  refine ⟨hframe.enclosing, fun name hname => (hframe.reserved name hname).trans ?_⟩
  obtain ⟨S, _, _, hseen, hgood⟩ := hμ.good
  obtain ⟨_, ⟨_, v, hlive, hpiece, _⟩, _⟩ := hgood.ready
  refine lookup_bindParameters_reserved fun t ht => ?_
  refine (names_of_visited hturns (hseen v hlive)).ne hname ?_
  rw [hpiece]
  exact List.mem_map_of_mem ht

/-- A class with superclasses makes a frame that binds `super` to a class that has just them. -/
theorem hasFrame_inheritance (hturns : ∀ t ∈ turns, t.Spelled) {c : ClassDecl} {cs : List Class}
    {m₁ : Machine} (hμ : (start sink clock).Reaches turns ⟨.declareClass c, m⟩)
    (hcs : lookUpClasses c.superclasses m = .ok cs m₁) (hne : cs ≠ []) :
    ((start sink clock).after turns).machine.HasFrame m₁.heap.frames.size m₁.current
      [("super", .class ⟨m₁.heap.nextIdentity, c.name.lexeme, cs, []⟩)] := by
  let fs := m₁.heap.frames.define m₁.current c.name.lexeme .nil
  let view : Class := ⟨m₁.heap.nextIdentity, c.name.lexeme, cs, []⟩
  let m₂ : Machine := { m₁ with
    heap.frames := fs.push ⟨[("super", .class view)], some m₁.current⟩
    heap.nextIdentity := m₁.heap.nextIdentity + 1 }
  -- What is left to do, once the frame is there, is to make the class.
  have hrun : declareClass c m = (do
      let made ← Exec.newClass c.name.lexeme cs (methodTable fs.size c.methods)
      Exec.assignNearest c.name (.class made)) m₂ := by
    obtain ⟨c', cs, rfl⟩ := List.exists_cons_of_ne_nil hne
    unfold declareClass
    simp only [Bind.bind, EStateM.bind, hcs]
    rfl
  have hrest : m₂.Later Reserved (Moment.final ⟨.declareClass c, m⟩) := by
    show m₂.Later Reserved (final (declareClass c m))
    rw [hrun]
    exact ((avoids_reserved hturns hμ).path (Spans.makeClass cs fs.size).path).1
  have hframe := (hrest.trans (later_end hturns hμ).2).hasFrame rfl
  rwa [Frames.size_define] at hframe

/-- The same, whatever the identity of that class is. -/
theorem hasFrame_class (hturns : ∀ t ∈ turns, t.Spelled) {c : ClassDecl} {cs : List Class}
    {m₁ : Machine} (hμ : (start sink clock).Reaches turns ⟨.declareClass c, m⟩)
    (hcs : lookUpClasses c.superclasses m = .ok cs m₁) (hne : cs ≠ []) :
    ∃ id, ((start sink clock).after turns).machine.HasFrame m₁.heap.frames.size m₁.current
      [("super", .class ⟨id, c.name.lexeme, cs, []⟩)] :=
  ⟨_, hasFrame_inheritance hturns hμ hcs hne⟩

end Frames

/-! ## Bound methods -/

/-- The frame of a block or call binds no reserved name. -/
theorem local?_made_eq_none (hturns : ∀ t ∈ turns, t.Spelled) {k : FrameId} {c : Construct}
    (hk : (start sink clock).Made turns k c) (hc : c.isInner) {name : String}
    (hname : Reserved name) :
    ((start sink clock).after turns).machine.heap.frames.local? k name = none := by
  obtain ⟨μ, hμ, hcreates⟩ := hk
  cases hcreates with
  | block => exact (hasFrame_block hturns hμ).reserved name hname
  | call => exact (hasFrame_call hturns hμ).reserved name hname
  | receiver _ => contradiction
  | inheritance _ _ => contradiction

/-- A frame that matches the scopes around a statement or an expression binds no reserved name. -/
theorem local?_aligned_eq_none (hturns : ∀ t ∈ turns, t.Spelled) {μ : Moment}
    (hμ : (start sink clock).Reaches turns μ) {k : FrameId} {scopes : List Scope}
    {cs : List Construct}
    (haligned : Aligned ((start sink clock).Made turns) μ.machine k scopes cs) {home : Home}
    (hnest : Nest home cs scopes) {name : String} (hname : Reserved name) :
    ((start sink clock).after turns).machine.heap.frames.local? k name = none := by
  cases hnest with
  | top =>
    -- At the top level the names are those of the built-in functions and of globals.
    have hstart := (later_after (s := start sink clock) turns rfl fun μ hμ =>
      avoids_reserved hturns hμ).1
    have hglobals : k = 0 :=
      haligned.trans ((later_end hturns hμ).1.globals.symm.trans hstart.globals)
    rw [hglobals, hstart.kept 0 Nat.zero_lt_one name hname]
    obtain rfl | rfl := hname <;> rfl
  | block _ _ => exact local?_made_eq_none hturns haligned.2.1 rfl hname
  | closure _ _ => exact local?_made_eq_none hturns haligned.2.1 rfl hname
  | method _ _ _ => exact local?_made_eq_none hturns haligned.2.1 rfl hname
  | inheritor _ _ _ => exact local?_made_eq_none hturns haligned.2.1 rfl hname

/-- The frame in which a statement or an expression runs binds no reserved name. -/
theorem local?_current_eq_none (hturns : ∀ t ∈ turns, t.Spelled) {S : Setting}
    (hmade : S.made = (start sink clock).Made turns) {μ : Moment}
    (hμ : (start sink clock).Reaches turns μ)
    (hat : S.At μ.machine v) {home : Home} (hnest : Nest home v.around v.walk.scopes)
    {name : String} (hname : Reserved name) :
    ((start sink clock).after turns).machine.heap.frames.local? μ.machine.current name = none :=
  local?_aligned_eq_none hturns hμ (hmade ▸ hat.aligned) hnest hname

/-- A function in whose frame `this` is bound was made by binding a method. -/
theorem bound_of_makes (hturns : ∀ t ∈ turns, t.Spelled) {f : Lox.Function}
    (hf : (start sink clock).Makes turns f) (hthis : f.isInitializer = true ∨
      ((start sink clock).after turns).machine.heap.frames.local? f.frame "this" ≠ none) :
    ∃ method receiver m₀ m₀', (start sink clock).Reaches turns ⟨.bind method receiver, m₀⟩ ∧
      Exec.bind method receiver m₀ = .ok f m₀' ∧ method.decl = f.decl ∧
      ((start sink clock).after turns).machine.HasFrame f.frame method.frame
        [("this", receiver)] := by
  obtain ⟨μ, hμ, hmakes⟩ := hf
  obtain ⟨S, hmade, _, hseen, hgood⟩ := hμ.good
  cases hmakes with
  | closure =>
    obtain ⟨v, hpiece, hat⟩ := hgood.ready
    have hnested := nested_of_visited hturns (hseen v hat.live)
    rw [Visit.Nested, hpiece] at hnested
    have hnone := local?_current_eq_none hturns hmade hμ hat hnested (.inl rfl)
    exact absurd hnone (hthis.resolve_left (by simp))
  | declared =>
    obtain ⟨v, hpiece, hat⟩ := hgood.ready
    have hnested := nested_of_visited hturns (hseen v hat.live)
    rw [Visit.Nested, hpiece] at hnested
    have hnone := local?_current_eq_none hturns hmade hμ hat hnested (.inl rfl)
    exact absurd hnone (hthis.resolve_left (by simp))
  | bound => exact ⟨_, _, _, _, hμ, rfl, rfl, hasFrame_bind hturns hμ⟩

/-- The nearest method around a visited piece was bound to a receiver, and the function that this
gave was called. The frame of the call is the one for that method in the chain of the machine. -/
structure Receives (s : Session) (turns : List Turn) (v : Visit) (m : Machine) (c : ClassDecl)
    (method : Lox.Function) (receiver : Value) : Prop where
  /-- The method is one of the class. -/
  mem : method.decl ∈ c.methods
  /-- The method is the nearest one, it was bound, and it was called. -/
  call : ∃ inner : List Construct, (∀ k ∈ inner, k.isInner) ∧
    inner ++ [.call method.decl, .receiver c] <+: v.around ∧
    ∃ bound m₀ m₀' b vs m₁, s.Reaches turns ⟨.bind method receiver, m₀⟩ ∧
      Exec.bind method receiver m₀ = .ok bound m₀' ∧
      s.Reaches turns ⟨.callFunction b bound vs, m₁⟩ ∧
      m.heap.frames.ancestor? m.current inner.length = some m₁.heap.frames.size

/-- Where a piece with a nearest method may run, that method was bound, and the frame of its
receiver is the next one around the frame of its call. -/
theorem receives_of_nearest (hturns : ∀ t ∈ turns, t.Spelled) {S : Setting}
    (hmade : S.made = (start sink clock).Made turns) {μ : Moment}
    (hμ : (start sink clock).Reaches turns μ)
    (hat : S.At μ.machine v) {inner : List Construct} {f : FunctionDecl} {c : ClassDecl}
    (hnearest : Nearest v.ctx.home v.around v.walk.scopes inner f c) :
    ∃ method receiver k, (start sink clock).Receives turns v μ.machine c method receiver ∧
      μ.machine.heap.frames.ancestor? μ.machine.current (inner.length + 1) = some k ∧
      μ.machine.heap.frames.local? k "this" = some receiver ∧
      μ.machine.heap.frames.enclosing? k = some method.frame := by
  obtain ⟨outer, haround⟩ := hnearest.around
  have hend := (later_end hturns hμ).1
  -- The frame of the call and the one around it, which binds `this`.
  have hcallAt : v.around[inner.length]? = some (.call f) := by simp [← haround]
  obtain ⟨kCall, hkCall, hmadeCall, k, hkEnclosing, hk⟩ := hat.aligned.made_at hcallAt
  obtain ⟨k', hk', hlt, _, hbound⟩ := hat.aligned.ancestor hnearest.receiver
  obtain rfl : k = k' := Option.some.inj (hk.symm.trans hk')
  have hthis : (μ.machine.heap.frames.local? k "this").isSome := hbound "this" rfl
  -- The function that was called has that frame.
  rw [hmade] at hmadeCall
  obtain ⟨μ₁, hμ₁, hcreates⟩ := hmadeCall
  have hltCall := Frames.lt_size_of_enclosing? _ hkEnclosing
  have hkEnd := (hend.enclosing kCall hltCall).trans hkEnclosing
  generalize hconstruct : Construct.call f = construct at hcreates
  cases hcreates with
  | @call b g vs m₁ =>
    obtain rfl := Construct.call.inj hconstruct
    have hframe : g.frame = k :=
      Option.some.inj ((hasFrame_call hturns hμ₁).enclosing.symm.trans hkEnd)
    have hthisEnd := hend.kept k hlt "this" (.inl rfl)
    have hmakes : (start sink clock).Makes turns g := by
      obtain ⟨S₁, _, hknown, _, hgood⟩ := hμ₁.good
      obtain ⟨_, ⟨hg, _⟩, _⟩ := hgood.ready
      exact hknown ▸ hg
    obtain ⟨method, receiver, m₀, m₀', hμ₀, hbind, hdecl, hhas⟩ := bound_of_makes hturns hmakes
      (.inr (by rw [hframe, hthisEnd]; exact Option.isSome_iff_ne_none.mp hthis))
    rw [hframe] at hhas
    refine ⟨method, receiver, k, ⟨hdecl ▸ hnearest.mem, inner, hnearest.isInner,
      hdecl ▸ hnearest.around, g, m₀, m₀', b, vs, m₁, hμ₀, hbind, hμ₁, hkCall⟩, hk, ?_, ?_⟩
    · exact hthisEnd.symm.trans (hhas.reserved "this" (.inl rfl))
    · exact (hend.enclosing k hlt).symm.trans hhas.enclosing
  | _ => contradiction

/-- A name is read in the frame at a distance. -/
theorem getFrom_holderAt {m : Machine} {k₀ k : FrameId} {distance : Nat} {name : Token} {x : Value}
    (hk : m.heap.frames.ancestor? k₀ distance = some k)
    (hx : m.heap.frames.local? k name.lexeme = some x) :
    Exec.getFrom (m.heap.frames.holderAt? k₀ distance name.lexeme) name m = .ok x m := by
  have hholder : m.heap.frames.holderAt? k₀ distance name.lexeme = some k := by
    rw [Frames.holderAt?, hk]
    simp [hx]
  rw [hholder]
  show Exec.orFail name _ (m.heap.frames.local? k name.lexeme) m = _
  rw [hx]
  rfl

/-- A name that is bound at a distance is read there. -/
theorem getAt_eq {m : Machine} {distance : Nat} {k : FrameId} {name : Token} {x : Value}
    (hk : m.heap.frames.ancestor? m.current distance = some k)
    (hx : m.heap.frames.local? k name.lexeme = some x) : Exec.getAt distance name m = .ok x m :=
  getFrom_holderAt hk hx

/-- Reading a name changes nothing. -/
theorem final_getFrom (holder : Option FrameId) (name : Token) (m : Machine) :
    final (Exec.getFrom holder name m) = m := by
  show final (Exec.orFail name _ (holder.bind fun k => m.heap.frames.local? k name.lexeme) m) = m
  cases holder.bind fun k => m.heap.frames.local? k name.lexeme <;> rfl

/-- An inherited method is looked for in the superclasses that the frame of `super` holds, and bound
to the receiver that the frame of `this` holds. -/
theorem getInherited_eq {m : Machine} {x : Reference} {name : Token} {distance : Nat}
    {view : Class} {receiver : Value} (hx : m.distances.find? x.id = some distance)
    (hview : Exec.getAt distance x.name m = .ok (.class view) m)
    (hthis : Exec.getAt (distance - 1) { x.name with lexeme := "this" } m = .ok receiver m) :
    getInherited x name m = match findInherited name.lexeme view.superclasses with
      | some inherited =>
        .ok (.function m.heap.nextIdentity { inherited with frame := m.heap.frames.size })
          { m with
            heap.frames := m.heap.frames.push ⟨[("this", receiver)], some inherited.frame⟩
            heap.nextIdentity := m.heap.nextIdentity + 1 }
      | none => .error (.program name.line (.undefinedProperty name.lexeme)) m := by
  have hget : (get : Exec Machine) m = .ok m m := rfl
  unfold getInherited
  simp only [Bind.bind, EStateM.bind, hget, hx, hview, hthis]
  cases findInherited name.lexeme view.superclasses <;> rfl

section Evaluation

variable {b : Nat} {x : Reference} {m : Machine}

/-- What `this` is evaluated to. -/
theorem evaluate_this (hturns : ∀ t ∈ turns, t.Spelled)
    (hμ : (start sink clock).Reaches turns ⟨.evaluate (b + 1) (.this x), m⟩) :
    ∃ v c method receiver, (start sink clock).Visited turns v ∧ v.piece = .expr (.this x) ∧
      (start sink clock).Receives turns v m c method receiver ∧
      evaluate (b + 1) (.this x) m = .ok receiver m := by
  obtain ⟨S, hmade, _, hseen, hgood⟩ := hμ.good
  obtain ⟨⟨ctx, _, w, around⟩, rfl, hat⟩ := hgood.ready
  have hvisited := hseen _ hat.live
  have hnest : Nest ctx.home around w.scopes := nested_of_visited hturns hvisited
  have hhome : ctx.home ≠ .none := by
    intro hnone
    have hclean := clean_of_visited hvisited
    simp [Visit.after, walkExpr, hnone, Walk.violate] at hclean
  obtain ⟨inner, f, c, hnearest⟩ := hnest.nearest hhome
  obtain ⟨method, receiver, k, hreceives, hk, hthis, _⟩ :=
    receives_of_nearest hturns hmade hμ hat hnearest
  have hword := names_of_visited hturns hvisited _ List.mem_cons_self
  have hlexeme : x.name.lexeme = "this" := hword.2.eq_this hword.1
  have hdistance : m.distances.find? x.id = some (inner.length + 1) := by
    rw [S.recorded _ hat.live _ hgood.inv.table x rfl, Walk.distance?, hlexeme]
    exact hnearest.this
  refine ⟨_, c, method, receiver, hvisited, rfl, hreceives, ?_⟩
  show Exec.lookUp x m = _
  rw [lookUp_at hdistance hk, hlexeme, hthis]

/-- What `super` is evaluated to. -/
theorem evaluate_super (hturns : ∀ t ∈ turns, t.Spelled) {name : Token}
    (hμ : (start sink clock).Reaches turns ⟨.evaluate (b + 1) (.super x name), m⟩) :
    ∃ v c method receiver cs m₀ m₁, (start sink clock).Visited turns v ∧
      v.piece = .expr (.super x name) ∧ (start sink clock).Receives turns v m c method receiver ∧
      (start sink clock).Reaches turns ⟨.declareClass c, m₀⟩ ∧
      lookUpClasses c.superclasses m₀ = .ok cs m₁ ∧ method.frame = m₁.heap.frames.size ∧
      evaluate (b + 1) (.super x name) m = match findInherited name.lexeme cs with
        | some inherited =>
          .ok (.function m.heap.nextIdentity { inherited with frame := m.heap.frames.size })
            { m with
              heap.frames := m.heap.frames.push ⟨[("this", receiver)], some inherited.frame⟩
              heap.nextIdentity := m.heap.nextIdentity + 1 }
        | none => .error (.program name.line (.undefinedProperty name.lexeme)) m := by
  obtain ⟨S, hmade, _, hseen, hgood⟩ := hμ.good
  obtain ⟨⟨ctx, _, w, around⟩, rfl, hat⟩ := hgood.ready
  have hvisited := hseen _ hat.live
  have hnest : Nest ctx.home around w.scopes := nested_of_visited hturns hvisited
  have hhome : ctx.home = .derived := by
    have hclean := clean_of_visited hvisited
    cases h : ctx.home with
    | derived => rfl
    | _ => simp [Visit.after, walkExpr, h, Walk.violate] at hclean
  obtain ⟨inner, f, c, hnearest⟩ := hnest.nearest (by simp [hhome])
  obtain ⟨method, receiver, k, hreceives, hk, hthis, hmethod⟩ :=
    receives_of_nearest hturns hmade hμ hat hnearest
  obtain ⟨hconstruct, hscope, hdepth⟩ := hnearest.super hhome
  -- The frame around that of the receiver was made by the declaration of the class.
  obtain ⟨outer, haround⟩ := hnearest.around
  have hreceiverAt : around[inner.length + 1]? = some (.receiver c) := by simp [← haround]
  obtain ⟨k₁, hk₁, _, kSuper, hkSuper, hancestor⟩ := hat.aligned.made_at hreceiverAt
  obtain rfl : k = k₁ := Option.some.inj (hk.symm.trans hk₁)
  obtain rfl : method.frame = kSuper := Option.some.inj (hmethod.symm.trans hkSuper)
  obtain ⟨k₂, hk₂, hmadeClass, outer₂, houter₂, _⟩ := hat.aligned.made_at hconstruct
  obtain rfl : method.frame = k₂ := Option.some.inj (hancestor.symm.trans hk₂)
  have hlt := Frames.lt_size_of_enclosing? _ houter₂
  rw [hmade] at hmadeClass
  obtain ⟨μ₀, hμ₀, hcreates⟩ := hmadeClass
  generalize hframe : method.frame = frame at hcreates
  cases hcreates with
  | @inheritance c cs m₀ m₁ hcs hne =>
    obtain ⟨id, hhas⟩ := hasFrame_class hturns hμ₀ hcs hne
    have hview : m.heap.frames.local? method.frame "super" =
        some (.class ⟨id, c.name.lexeme, cs, []⟩) :=
      ((later_end hturns hμ).1.kept _ hlt "super" (.inr rfl)).symm.trans
        (hframe ▸ hhas.reserved "super" (.inr rfl))
    have hword := names_of_visited hturns hvisited _ List.mem_cons_self
    have hlexeme : x.name.lexeme = "super" := hword.2.eq_super hword.1
    have hdistance : m.distances.find? x.id = some (inner.length + 2) := by
      rw [S.recorded _ hat.live _ hgood.inv.table x rfl, Walk.distance?, hlexeme]
      exact hdepth
    have hgetView : Exec.getAt (inner.length + 2) x.name m = _ :=
      getAt_eq hancestor (by rw [hlexeme]; exact hview)
    have hgetThis : Exec.getAt (inner.length + 1) { x.name with lexeme := "this" } m = _ :=
      getAt_eq hk hthis
    refine ⟨_, c, method, receiver, cs, m₀, m₁, hvisited, rfl, hreceives, hμ₀, hcs, hframe, ?_⟩
    exact getInherited_eq hdistance hgetView hgetThis

/-- When the body of an initializer has run, its receiver is looked up. -/
theorem callFunction_eq_getFrom {f : Lox.Function} (hinit : f.isInitializer = true)
    (vs : List Value) :
    callFunction (execute b) f vs m = match (do
        let frame ← Exec.newFrame f.frame (bindParameters f.decl.params vs)
        Exec.inFrame frame (runAll (execute b) f.decl.body)) m with
      | .ok _ m' => Exec.getFrom (m'.heap.frames.holderAt? f.frame 0 "this")
          { f.decl.keyword with lexeme := "this" } m'
      | .error failure m' => .error failure m' := by
  unfold callFunction
  simp only [Bind.bind, EStateM.bind, hinit, if_true]
  generalize Exec.newFrame f.frame (bindParameters f.decl.params vs) m = made
  cases made with
  | error failure m' => rfl
  | ok frame m' =>
    dsimp only
    cases Exec.inFrame frame (runAll (execute b) f.decl.body) m' <;> rfl

/-- What an initializer gives. -/
theorem callFunction_initializer (hturns : ∀ t ∈ turns, t.Spelled) {f : Lox.Function}
    {vs : List Value} (hμ : (start sink clock).Reaches turns ⟨.callFunction b f vs, m⟩)
    (hinit : f.isInitializer = true) :
    ∃ method receiver m₀ m₀', (start sink clock).Reaches turns ⟨.bind method receiver, m₀⟩ ∧
      Exec.bind method receiver m₀ = .ok f m₀' ∧
      callFunction (execute b) f vs m = match (do
          let frame ← Exec.newFrame f.frame (bindParameters f.decl.params vs)
          Exec.inFrame frame (runAll (execute b) f.decl.body)) m with
        | .ok _ m' => .ok receiver m'
        | .error failure m' => .error failure m' := by
  obtain ⟨S, _, hknown, _, hgood⟩ := hμ.good
  obtain ⟨_, ⟨hf, v, _, _, haligned⟩, _⟩ := hgood.ready
  obtain ⟨method, receiver, m₀, m₀', hμ₀, hbind, _, hhas⟩ :=
    bound_of_makes hturns (hknown ▸ hf) (.inl hinit)
  refine ⟨method, receiver, m₀, m₀', hμ₀, hbind, ?_⟩
  -- When the body has run, the frame of the receiver is as it was.
  have hlater := (avoids_reserved hturns hμ).restores.toLater
  have hlt := Nat.lt_of_lt_of_le (hgood.inv.lt_size haligned) hlater.size
  have hthis : (final (callFunction (execute b) f vs m)).heap.frames.local? f.frame "this" =
      some receiver :=
    ((later_end hturns hμ).2.kept _ hlt "this" (.inl rfl)).symm.trans
      (hhas.reserved "this" (.inl rfl))
  rw [callFunction_eq_getFrom hinit] at hthis ⊢
  split at hthis
  · rw [final_getFrom] at hthis
    exact getFrom_holderAt rfl hthis
  · rfl

end Evaluation

/-- What surrounds `this` and `super` is lexical, whatever the clock shows and the output takes.
Whenever `this` is evaluated, it gives the value to which the nearest method around it in the text
was bound, through all functions and blocks in between. Whenever `super.name` is evaluated, a method
of that name is looked for in the superclasses with which the class around it in the text was
declared, whatever the class of the receiver is. If there is one, it is bound to the same receiver,
and otherwise the property is undefined. An initializer whose body does not fail gives the receiver
to which it was bound. -/
theorem this_and_super_lexical (sink : Sink) (clock : Clock) (turns : List Turn)
    (hturns : ∀ t ∈ turns, t.Spelled)
    (μ : Moment) (hμ : (start sink clock).Reaches turns μ) :
    let reached := (start sink clock).Reaches turns
    let visited := (start sink clock).Visited turns
    let m := μ.machine
    (∀ b x, μ.task = .evaluate (b + 1) (.this x) →
      ∃ v c method receiver, visited v ∧ v.piece = .expr (.this x) ∧
        (start sink clock).Receives turns v m c method receiver ∧
        evaluate (b + 1) (.this x) m = .ok receiver m) ∧
    (∀ b x name, μ.task = .evaluate (b + 1) (.super x name) →
      ∃ v c method receiver cs m₀ m₁, visited v ∧ v.piece = .expr (.super x name) ∧
        (start sink clock).Receives turns v m c method receiver ∧
        reached ⟨.declareClass c, m₀⟩ ∧ lookUpClasses c.superclasses m₀ = .ok cs m₁ ∧
        method.frame = m₁.heap.frames.size ∧
        evaluate (b + 1) (.super x name) m = match findInherited name.lexeme cs with
          | some inherited =>
            .ok (.function m.heap.nextIdentity { inherited with frame := m.heap.frames.size })
              { m with
                heap.frames := m.heap.frames.push ⟨[("this", receiver)], some inherited.frame⟩
                heap.nextIdentity := m.heap.nextIdentity + 1 }
          | none => .error (.program name.line (.undefinedProperty name.lexeme)) m) ∧
    (∀ b f vs, μ.task = .callFunction b f vs → f.isInitializer = true →
      ∃ method receiver m₀ m₀', reached ⟨.bind method receiver, m₀⟩ ∧
        Exec.bind method receiver m₀ = .ok f m₀' ∧
        callFunction (execute b) f vs m = match (do
            let frame ← Exec.newFrame f.frame (bindParameters f.decl.params vs)
            Exec.inFrame frame (runAll (execute b) f.decl.body)) m with
          | .ok _ m' => .ok receiver m'
          | .error failure m' => .error failure m') := by
  obtain ⟨task, m⟩ := μ
  refine ⟨?_, ?_, ?_⟩
  · rintro b x rfl
    exact evaluate_this hturns hμ
  · rintro b x name rfl
    exact evaluate_super hturns hμ
  · rintro b f vs rfl hinit
    exact callFunction_initializer hturns hμ hinit

open Grammar (mark word)

/-- The keyword `super`. -/
def superWord : Token :=
  ⟨.kwSuper, "super", {}⟩

/-- The tokens of a method's body, `{ fun f() { super.m; } f(); }`. -/
def inheritorBody : List Token :=
  [mark .leftBrace, mark .kwFun, word "f", mark .leftParen, mark .rightParen, mark .leftBrace,
    superWord, mark .dot, word "m", mark .semicolon, mark .rightBrace, word "f", mark .leftParen,
    mark .rightParen, mark .semicolon, mark .rightBrace]

/-- The tokens of `class A { m() {} } class B < A { m() { … } } B().m();`, where the second method
has the body `inheritorBody`. -/
def inheritorTokens : List Token :=
  [mark .kwClass, word "A", mark .leftBrace, word "m", mark .leftParen, mark .rightParen,
    mark .leftBrace, mark .rightBrace, mark .rightBrace, mark .kwClass, word "B", mark .less,
    word "A", mark .leftBrace, word "m", mark .leftParen, mark .rightParen] ++ inheritorBody ++
  [mark .rightBrace, word "B", mark .leftParen, mark .rightParen, mark .dot, word "m",
    mark .leftParen, mark .rightParen, mark .semicolon]

/-- The statements that are parsed from `inheritorBody`. -/
def inheritorStatements : List Stmt :=
  [.function ⟨some (word "f"), word "f", [], [.expression (.super ⟨1, superWord⟩ (word "m"))]⟩,
    .expression (.call (.reference ⟨2, word "f"⟩) (mark .rightParen) [])]

/-- The statement that calls the method. -/
def inheritorUse : Stmt :=
  .expression (.call (.get (.call (.reference ⟨3, word "B"⟩) (mark .rightParen) []) (word "m"))
    (mark .rightParen) [])

/-- The statements that are parsed from `inheritorTokens`. -/
def inheritorProgram : List Stmt :=
  [.class ⟨word "A", [], [⟨some (word "m"), word "m", [], []⟩]⟩,
    .class ⟨word "B", [⟨0, word "A"⟩], [⟨some (word "m"), word "m", [], inheritorStatements⟩]⟩,
    inheritorUse]

/-- The first class that `inheritorProgram` declares. -/
def baseClass : Class :=
  ⟨1, "A", [], [("m", ⟨⟨some (word "m"), word "m", [], []⟩, 0, false⟩)]⟩

/-- The second class that `inheritorProgram` declares. -/
def inheritorClass : Class :=
  ⟨3, "B", [baseClass], [("m", ⟨⟨some (word "m"), word "m", [], inheritorStatements⟩, 1, false⟩)]⟩

/-- The machine on which the classes of `inheritorProgram` are declared. -/
def inheritorMachine : Machine :=
  let globals := (Machine.start {} {}).heap.frames.define 0 "A" (.class baseClass)
  let frames := globals.define 0 "B" (.class inheritorClass)
  { (Machine.start {} {}).prepare (.program inheritorProgram) with
    heap.frames := frames.push ⟨[("super", .class ⟨2, "B", [baseClass], []⟩)], some 0⟩
    heap.nextIdentity := 4 }

/-- The function that the method of `inheritorProgram` declares. -/
def innerFunction : Function :=
  ⟨⟨some (word "f"), word "f", [], [.expression (.super ⟨1, superWord⟩ (word "m"))]⟩, 3, false⟩

/-- The machine in the call of the function that the method declares. -/
def innerMachine : Machine :=
  let bound := inheritorMachine.heap.frames.push ⟨[("this", .object 0)], some 1⟩
  let called := bound.push ⟨[("f", .function 5 innerFunction)], some 2⟩
  { inheritorMachine with
    heap.frames := called.push ⟨[], some 3⟩
    heap.objects := #[{ cls := inheritorClass }]
    heap.nextIdentity := 6
    current := 4 }

/-- The body of the class is derived. -/
theorem derives_inheritorBody :
    Grammar.Derives .block inheritorBody 1 inheritorStatements 3 := by
  have hsuper : Grammar.Derives .declaration ([superWord, mark .dot, word "m"] ++ [mark .semicolon])
      1 _ 2 :=
    .statement (.expression (.terminated (.expression_of_call (.bare (.super rfl rfl rfl))) rfl)
      (by simp [superWord]))
  have hfunction : Grammar.Derives .declaration (mark .kwFun :: (word "f" :: mark .leftParen ::
      [] ++ mark .rightParen :: (mark .leftBrace :: ([superWord, mark .dot, word "m"] ++
        [mark .semicolon] ++ []) ++ [mark .rightBrace]))) 1 _ 2 :=
    .functionDeclaration rfl (.function rfl rfl .noParameters rfl
      (.block rfl (.moreDeclarations hsuper .noDeclarations) rfl))
  have hcall : Grammar.Derives .declaration ([word "f"] ++ mark .leftParen :: [] ++
      [mark .rightParen] ++ [mark .semicolon]) 2 _ 3 :=
    .statement (.expression (.terminated (.expression_of_call
      (.call (.bare (.reference rfl)) rfl .noArguments rfl)) rfl) (by simp [word]))
  have hbody : Grammar.Derives .declarations _ 1 _ 3 :=
    .moreDeclarations hfunction (.moreDeclarations hcall .noDeclarations)
  have hblock : Grammar.Derives .block (mark .leftBrace :: _ ++ [mark .rightBrace]) 1 _ 3 :=
    .block rfl hbody rfl
  exact hblock

/-- The tokens of the program are derived. -/
theorem derives_inheritorTokens :
    Grammar.Derives .declarations inheritorTokens 0 inheritorProgram 4 := by
  have hempty : Grammar.Derives .block (mark .leftBrace :: [] ++ [mark .rightBrace]) 0 [] 0 :=
    .block rfl .noDeclarations rfl
  have hmethod : Grammar.Derives .function (word "m" :: mark .leftParen :: [] ++ mark .rightParen ::
      (mark .leftBrace :: [] ++ [mark .rightBrace])) 0 _ 0 :=
    .function rfl rfl .noParameters rfl hempty
  have hbase : Grammar.Derives .declaration (mark .kwClass :: word "A" :: [] ++ mark .leftBrace ::
      (_ ++ []) ++ [mark .rightBrace]) 0 _ 0 :=
    .classDeclaration rfl rfl .noSuperclasses rfl (.moreMethods hmethod .noMethods) rfl
  have hmethod' : Grammar.Derives .function (word "m" :: mark .leftParen :: [] ++
      mark .rightParen :: inheritorBody) 1 _ 3 :=
    .function rfl rfl .noParameters rfl derives_inheritorBody
  have hsuperclasses : Grammar.Derives .superclasses (mark .less :: [word "A"]) 0 _ 1 :=
    .someSuperclasses rfl (.lastReference rfl)
  have hderived : Grammar.Derives .declaration (mark .kwClass :: word "B" ::
      (mark .less :: [word "A"]) ++ mark .leftBrace :: (_ ++ []) ++ [mark .rightBrace]) 0 _ 3 :=
    .classDeclaration rfl rfl hsuperclasses rfl (.moreMethods hmethod' .noMethods) rfl
  have hmake : Grammar.Derives .call ([word "B"] ++ mark .leftParen :: [] ++ [mark .rightParen])
      3 _ 4 :=
    .call (.bare (.reference rfl)) rfl .noArguments rfl
  have hget : Grammar.Derives .call ([word "B"] ++ mark .leftParen :: [] ++ [mark .rightParen] ++
      [mark .dot, word "m"]) 3 _ 4 :=
    .get hmake rfl rfl
  have hcall : Grammar.Derives .call ([word "B"] ++ mark .leftParen :: [] ++ [mark .rightParen] ++
      [mark .dot, word "m"] ++ mark .leftParen :: [] ++ [mark .rightParen]) 3 _ 4 :=
    .call hget rfl .noArguments rfl
  have hrun : Grammar.Derives .declaration (_ ++ [mark .semicolon]) 3 _ 4 :=
    .statement (.expression (.terminated (.expression_of_call hcall) rfl) (by simp [word]))
  have hall : Grammar.Derives .declarations _ 0 _ 4 :=
    .moreDeclarations hbase (.moreDeclarations hderived (.moreDeclarations hrun .noDeclarations))
  exact hall

section Run

-- Global names are found along the chain of frames, and that search is evaluated here.
attribute [local semireducible] Frames.holder?

/-- The job starts with the use of the class. -/
theorem mem_jobStarts_inheritorProgram :
    ⟨.execute 9 inheritorUse, inheritorMachine⟩ ∈
      ((Machine.start {} {}).prepare (.program inheritorProgram)).jobStarts 9
        (.program inheritorProgram) := by
  exact List.mem_cons_of_mem _ (List.mem_cons_of_mem _ List.mem_cons_self)

/-- The use of the class reaches `super`. -/
theorem reaches_inherited : Moment.Reaches ⟨.execute 9 inheritorUse, inheritorMachine⟩
    ⟨.evaluate 4 (.super ⟨1, superWord⟩ (word "m")), innerMachine⟩ := by
  have hmethod : Moment.Reaches ⟨.execute 9 inheritorUse, inheritorMachine⟩ _ :=
    (Relation.ReflTransGen.single .expression).tail (.call rfl rfl)
  have hbody : Moment.Reaches _ _ := (hmethod.tail (.callFunction rfl)).tail (.body rfl)
  have hcall : Moment.Reaches _ _ :=
    (((hbody.tail (.tailStatements rfl)).tail .headStatement).tail .expression).tail (.call rfl rfl)
  have hinner : Moment.Reaches _ _ := (hcall.tail (.callFunction rfl)).tail (.body rfl)
  exact (hinner.tail .headStatement).tail .expression

end Run

/-- The statement that calls the method is reached. -/
theorem reaches_inheritorUse :
    (start {} {}).Reaches [.tokens 9 (inheritorTokens ++ [mark .eof])]
      ⟨.execute 9 inheritorUse, inheritorMachine⟩ := by
  have hread : (start {} {}).readTokens (inheritorTokens ++ [mark .eof]) =
      ⟨0, 4, .ok (.program inheritorProgram)⟩ := by
    have hparse : Grammar.parse (inheritorTokens ++ [mark .eof]) 0 = _ :=
      derives_inheritorTokens.parse_eq (by decide) rfl
    simp [readTokens, start, hparse]
  have haccepted : (start {} {}).accepted? (.tokens 9 (inheritorTokens ++ [mark .eof])) =
      some (.program inheritorProgram) :=
    accepted?_eq_some_iff.mpr ⟨_, congrArg some hread, rfl, by decide⟩
  exact .inl ⟨_, haccepted, _, mem_jobStarts_inheritorProgram, .refl⟩

/-- The reference to the inherited method is reached in the call of the inner function. -/
theorem reaches_super_in_inner_function :
    (start {} {}).Reaches [.tokens 9 (inheritorTokens ++ [mark .eof])]
      ⟨.evaluate 4 (.super ⟨1, superWord⟩ (word "m")), innerMachine⟩ :=
  reaches_inheritorUse.trans reaches_inherited

/-- In a function within a method of the second class, `super.m` is looked for in the first one. -/
theorem super_in_inner_function :
    (∀ t ∈ [Turn.tokens 9 (inheritorTokens ++ [mark .eof])], t.Spelled) ∧
    (start {} {}).Reaches [.tokens 9 (inheritorTokens ++ [mark .eof])]
      ⟨.evaluate 4 (.super ⟨1, superWord⟩ (word "m")), innerMachine⟩ ∧
    ∃ v c method receiver cs m₀ m₁,
      (start {} {}).Visited [.tokens 9 (inheritorTokens ++ [mark .eof])] v ∧
      v.piece = .expr (.super ⟨1, superWord⟩ (word "m")) ∧
      (start {} {}).Receives [.tokens 9 (inheritorTokens ++ [mark .eof])] v innerMachine c method
        receiver ∧
      (start {} {}).Reaches [.tokens 9 (inheritorTokens ++ [mark .eof])] ⟨.declareClass c, m₀⟩ ∧
      lookUpClasses c.superclasses m₀ = .ok cs m₁ ∧ method.frame = m₁.heap.frames.size ∧
      ∃ inherited m', findInherited "m" cs = some inherited ∧
        evaluate 4 (.super ⟨1, superWord⟩ (word "m")) innerMachine =
          .ok (.function 6 { inherited with frame := 5 }) m' := by
  have hspelled : ∀ t ∈ [Turn.tokens 9 (inheritorTokens ++ [mark .eof])], t.Spelled := by
    simp only [List.mem_singleton, forall_eq, Turn.Spelled]
    decide
  obtain ⟨-, hsuper, -⟩ :=
    this_and_super_lexical {} {} _ hspelled _ reaches_super_in_inner_function
  obtain ⟨v, c, method, receiver, cs, m₀, m₁, hv, hpiece, hreceives, hreached, hclasses, hframe,
    heval⟩ := hsuper 3 _ _ rfl
  refine ⟨hspelled, reaches_super_in_inner_function, v, c, method, receiver, cs, m₀, m₁, hv, hpiece,
    hreceives, hreached, hclasses, hframe, ?_⟩
  -- The run succeeds, so that the search has found a method.
  cases hfound : findInherited "m" cs with
  | none =>
    have hruns : ∃ v m', evaluate 4 (.super ⟨1, superWord⟩ (word "m")) innerMachine = .ok v m' :=
      ⟨_, _, rfl⟩
    obtain ⟨v, m', hruns⟩ := hruns
    rw [show (word "m").lexeme = "m" from rfl, hfound, hruns] at heval
    contradiction
  | some inherited =>
    rw [show (word "m").lexeme = "m" from rfl, hfound] at heval
    exact ⟨inherited, _, rfl, heval⟩

end Session

end Lox
