import Lox.Proofs.Scoping.Moving
import Lox.Proofs.Scoping.Nesting

/-!
# Copies

A copy of a piece is the piece with greater numbers for its references. It may be visited elsewhere
than the piece, within other scopes. The visits that are made within it correspond one to one to
those within the piece (`Visit.Copies.parts`). The innermost scope changes in the same way if it is
the same at first (`Visit.Copies.head_after`).

Two visits are paired if one is of a copy of the other's piece and two tables hold what scoping
finds at each of them.
-/

namespace Lox.Scoping

open Visit

/-! ## The innermost scope -/

namespace Walk

/-- Whether a name that is declared is new depends on the innermost scope only. -/
theorem head?_declare (w : Walk) (t : Token) : (w.declare t).scopes.head? =
    w.scopes.head?.map fun scope =>
      if (scope.lookup t.lexeme).isSome then scope else (t.lexeme, false) :: scope := by
  unfold declare
  split
  · next h => simp [h]
  · next scope outer h =>
    rw [h, List.head?_cons, Option.map_some]
    split <;> simp [*]

/-- Defining puts a name into the top scope. -/
theorem head?_define (w : Walk) (t : Token) :
    (w.define t).scopes.head? = w.scopes.head?.map ((t.lexeme, true) :: ·) := by
  unfold define
  split <;> simp [*]

end Walk

/-- A name that is declared and defined is new in two innermost scopes that are the same, or in
neither. -/
theorem Visit.head?_named {v v' : Visit} (h : v'.walk.scopes.head? = v.walk.scopes.head?)
    (t : Token) : (v'.named t).scopes.head? = (v.named t).scopes.head? := by
  simp only [named, Walk.head?_define, Walk.head?_declare, h]

/-- The names of parameters change two innermost scopes that are the same in the same way. -/
theorem Walk.head?_parameters {w w' : Walk} (h : w'.scopes.head? = w.scopes.head?)
    (params : List Token) :
    (w'.parameters params).scopes.head? = (w.parameters params).scopes.head? := by
  induction params generalizing w w' with
  | nil => exact h
  | cons t params ih => exact ih (by simp only [Walk.head?_define, Walk.head?_declare, h])

/-- Whether the parts of a piece are visited within the scopes around the piece, provided that the
branches of a choice declare no names. -/
def Piece.isFlat : Piece → Bool
  | .expr _ | .exprs _ | .entries _ | .methods _ | .superclasses _ _ => true
  | .stmt (.block _) | .stmt (.function _) => false
  | .stmt _ => true
  | _ => false

/-- What holds of the members of two lists holds of related members. -/
theorem forall₂_and_mem {α β : Type} {R : α → β → Prop} {P : α → Prop} {Q : β → Prop} {l : List α}
    {l' : List β} (h : List.Forall₂ R l l') (hl : ∀ a ∈ l, P a) (hl' : ∀ b ∈ l', Q b) :
    List.Forall₂ (fun a b => R a b ∧ P a ∧ Q b) l l' := by
  induction h with
  | nil => exact .nil
  | cons hab _ ih =>
    rw [List.forall_mem_cons] at hl hl'
    exact .cons ⟨hab, hl.1, hl'.1⟩ (ih hl.2 hl'.2)

namespace Visit

variable {shift : Nat} {v v' : Visit} {d d' : Distances}

/-- The parts of a flat piece are visited in its own scopes. -/
theorem scopes_flat (hflat : v.piece.isFlat) (hshapely : All Shapely v) :
    ∀ p ∈ v.parts, p.walk.scopes = v.walk.scopes := by
  obtain ⟨ctx, piece, w, around⟩ := v
  cases piece with
  | expr e => cases e <;> simp [parts, exprParts]
  | exprs es => cases es <;> simp [parts]
  | entries es => obtain _ | ⟨⟨key, e⟩, es⟩ := es <;> simp [parts]
  | methods fs => cases fs <;> simp [parts]
  | superclasses name xs => cases xs <;> simp [parts]
  | stmt s =>
    have hself := hshapely.self
    cases s with
    | branch c t e =>
      cases e with
      | none => simp [parts, stmtParts]
      | some e =>
        -- The second branch comes after the first, which declares no names.
        have hthen := scopes_after_plain ⟨ctx, .stmt t, walkExpr ctx c w, around⟩
          (hshapely.part (List.mem_cons_of_mem _ List.mem_cons_self)) t rfl hself.1
        have helse : (walkStmt ctx t (walkExpr ctx c w)).scopes = w.scopes :=
          hthen.trans (walkExpr_scopes ctx w c)
        simp [parts, stmtParts, helse]
    | result keyword e =>
      cases e with
      | none => simp [parts, stmtParts]
      | some e => cases hbody : ctx.body <;> simp [parts, stmtParts, hbody]
    | block ss => contradiction
    | function f => contradiction
    | _ => simp [parts, stmtParts]
  | _ => contradiction

/-- The second visit is of a copy of the piece that the first one visits, in the same context: the
numbers of its references are greater by `shift`. -/
inductive Copies (shift : Nat) : Visit → Visit → Prop
  | mk {ctx : Context} {piece : Piece} {w w' : Walk} {around around' : List Construct}
      (marks : List Bool) :
      Copies shift ⟨ctx, piece, w, around⟩
        ⟨ctx, piece.recast (.moved id shift) marks, w', around'⟩

namespace Copies

/-- The methods of a class in a copy are copies of its methods. -/
theorem toMethods (h : v'.ctx = v.ctx) (c : ClassDecl) (ms : List Bool) :
    Copies shift (v.toMethods c) (v'.toMethods (c.recast (.moved id shift) ms)) := by
  obtain ⟨name, supers, methods⟩ := c
  unfold Visit.toMethods
  rw [h]
  cases supers with
  | nil => exact .mk _
  | cons x xs => exact .mk _

/-- The visits within copies correspond. -/
theorem parts (h : Copies shift v v') : List.Forall₂ (Copies shift) v.parts v'.parts := by
  obtain @⟨ctx, piece, w, w', around, around', ms⟩ := h
  cases piece with
  | expr e =>
    cases e with
    | literal value | reference x | this x | «super» x name => exact .nil
    | binary l op r | logical l op r | index l bracket r => exact .cons (.mk _) (.cons (.mk _) .nil)
    | call f paren es | set o name e => exact .cons (.mk _) (.cons (.mk _) .nil)
    | setIndex o bracket k e => exact .cons (.mk _) (.cons (.mk _) (.cons (.mk _) .nil))
    | _ => exact .cons (.mk _) .nil
  | exprs es =>
    cases es with
    | nil => exact .nil
    | cons e es => exact .cons (.mk _) (.cons (.mk _) .nil)
  | entries es =>
    obtain _ | ⟨⟨key, e⟩, es⟩ := es
    · exact .nil
    · exact .cons (.mk _) (.cons (.mk _) .nil)
  | function f =>
    obtain ⟨name, keyword, params, body⟩ := f
    exact .cons (.mk _) .nil
  | methods fs =>
    cases fs with
    | nil => exact .nil
    | cons f fs =>
      refine .cons ?_ (.cons (.mk _) .nil)
      unfold toFunction
      rw [ofMethod_moved]
      exact .mk _
  | declarators ds =>
    obtain _ | ⟨⟨name, _ | e⟩, ds⟩ := ds
    · exact .nil
    · exact .cons (.mk _) .nil
    · exact .cons (.mk _) (.cons (.mk _) .nil)
  | superclasses name xs =>
    cases xs with
    | nil => exact .nil
    | cons x xs => exact .cons (.mk ms) (.cons (.mk ms) .nil)
  | superclass x => exact .nil
  | «class» c =>
    refine .cons ?_ (.cons (toMethods (by rfl) c ms) .nil)
    obtain ⟨name, supers, methods⟩ := c
    exact .mk ms
  | stmt s =>
    cases s with
    | branch c t e =>
      cases e with
      | none => exact .cons (.mk _) (.cons (.mk _) .nil)
      | some e => exact .cons (.mk _) (.cons (.mk _) (.cons (.mk _) .nil))
    | result keyword e =>
      cases e with
      | none => exact .nil
      | some e => exact .cons (.mk _) .nil
    | loop c s => exact .cons (.mk _) (.cons (.mk _) .nil)
    | _ => exact .cons (.mk _) .nil
  | stmts ss =>
    cases ss with
    | nil => exact .nil
    | cons s ss => exact .cons (.mk _) (.cons (.mk _) .nil)

/-- What holds of all visits within a piece holds of those within a copy, if it does for each
visit. -/
theorem all {P Q : Visit → Prop} (hPQ : ∀ ⦃v v'⦄, Copies shift v v' → P v → Q v')
    (h : Copies shift v v') (hv : All P v) : All Q v' := by
  induction v using induction generalizing v' with
  | step v ih =>
  refine .mk (hPQ h hv.self) fun p' hp' => ?_
  -- The parts of the copy are copies of the parts, place by place.
  obtain ⟨i, hi, rfl⟩ := List.getElem_of_mem hp'
  have hlength := h.parts.length_eq
  exact ih _ (List.getElem_mem (hlength ▸ hi)) (h.parts.get (hlength ▸ hi) hi)
    (hv.part (List.getElem_mem _))

/-- A copy of a piece that is at home is at home. -/
theorem atHome (h : Copies shift v v') (hv : v.AtHome) : v'.AtHome := by
  obtain @⟨ctx, piece, w, w', around, around', ms⟩ := h
  cases piece with
  | expr e => cases e <;> exact hv
  | _ => trivial

/-- A copy of a statement declares names if the statement does. -/
theorem isPlain (s : Stmt) (ms : List Bool) :
    (s.recast (.moved id shift) ms).isPlain = s.isPlain := by
  cases s with
  | branch c t e => cases e <;> rfl
  | result keyword e => cases e <;> rfl
  | _ => rfl

/-- A copy of a shapely piece is shapely. -/
theorem shapely (h : Copies shift v v') (hv : v.Shapely) : v'.Shapely := by
  obtain @⟨ctx, piece, w, w', around, around', ms⟩ := h
  cases piece with
  | stmt s =>
    cases s with
    | branch c t e =>
      cases e with
      | none => exact ⟨(isPlain t ms).trans hv.1, by simp⟩
      | some e =>
        refine ⟨(isPlain t ms).trans hv.1, ?_⟩
        rintro _ ⟨⟩
        exact (isPlain e ms).trans (hv.2 e rfl)
    | loop c s => exact (isPlain s ms).trans hv
    | function f =>
      show (f.recast (.moved id shift) ms).name.isSome
      rw [name_moved, Option.isSome_map]
      exact hv
    | result keyword e => cases e <;> trivial
    | _ => trivial
  | _ => trivial

/-- The reference that a visit of a copy resolves has a greater number and the same name. -/
theorem own? (h : Copies shift v v') : v'.own? = v.own?.map (movedReference id shift) := by
  obtain @⟨ctx, piece, w, w', around, around', ms⟩ := h
  cases piece with
  | expr e => cases e <;> rfl
  | _ => rfl

/-- The numbers in a copy are greater by as much. -/
theorem ids (h : Copies shift v v') : v'.ids = v.ids.map (shift + ·) := by
  induction v using induction generalizing v' with
  | step v ih =>
  rw [ids_eq, ids_eq v, h.own?, List.map_append]
  congr 1
  · cases v.own? <;> rfl
  · have hparts := h.parts
    generalize v.parts = ps at ih hparts
    generalize v'.parts = ps' at hparts
    induction hparts with
    | nil => rfl
    | cons hp _ ihps =>
      rw [List.forall_mem_cons] at ih
      rw [List.flatMap_cons, List.flatMap_cons, List.map_append, ih.1 hp, ihps ih.2]

/-- A copy is flat if the piece is. -/
theorem isFlat (h : Copies shift v v') : v'.piece.isFlat = v.piece.isFlat := by
  obtain @⟨ctx, piece, w, w', around, around', ms⟩ := h
  cases piece with
  | stmt s =>
    cases s with
    | branch c t e => cases e <;> rfl
    | result keyword e => cases e <;> rfl
    | _ => rfl
  | _ => rfl

/-- A copy keeps the scopes if the piece does. -/
theorem keepsScopes (h : Copies shift v v') : v'.piece.keepsScopes = v.piece.keepsScopes := by
  obtain @⟨ctx, piece, w, w', around, around', ms⟩ := h
  cases piece <;> rfl

/-- The innermost scope changes in the same way. -/
theorem head_after (h : Copies shift v v')
    (hhead : v'.walk.scopes.head? = v.walk.scopes.head?) :
    v'.after.scopes.head? = v.after.scopes.head? := by
  induction v using induction generalizing v' with
  | step v ih =>
  -- A piece that declares no name leaves both scopes as they are.
  by_cases hkeeps : v.piece.keepsScopes
  · rw [v.scopes_after.2 hkeeps, v'.scopes_after.2 (h.keepsScopes.trans hkeeps), hhead]
  have hparts := h.parts
  obtain @⟨ctx, piece, w, w', around, around', ms⟩ := h
  cases piece with
  | declarators ds =>
    obtain _ | ⟨⟨t, _ | e⟩, ds⟩ := ds
    · exact hhead
    · obtain _ | ⟨hds, _⟩ := hparts
      have hrest := ih _ List.mem_cons_self hds (head?_named hhead t)
      exact hrest
    · obtain _ | ⟨_, _ | ⟨hds, _⟩⟩ := hparts
      have hrest := ih _ (List.mem_cons_of_mem _ List.mem_cons_self) hds (by
        simp only [onto_walk, Walk.head?_define, walkExpr_scopes, Walk.head?_declare]
        exact congrArg _ (congrArg _ hhead))
      exact hrest
  | «class» c =>
    have hscopes := scopes_after_class ⟨ctx, .class c, w, around⟩ c
    have hscopes' := scopes_after_class ⟨ctx, .class c, w', around'⟩ (c.recast (.moved id shift) ms)
    refine (congrArg List.head? hscopes').trans (.trans ?_ (congrArg List.head? hscopes).symm)
    cases c
    exact head?_named hhead _
  | stmt s =>
    cases s with
    | block ss =>
      have hscopes {ss : List Stmt} {w : Walk} {around : List Construct} :
          (Visit.mk ctx (.stmt (.block ss)) w around).after.scopes = w.scopes :=
        Walk.leave_scopes_of_sameOuter
          (scopes_after ⟨ctx, .stmts ss, w.enter [], .block ss :: around⟩).1
      exact (congrArg List.head? hscopes).trans (hhead.trans (congrArg List.head? hscopes).symm)
    | branch c t e =>
      cases e with
      | none =>
        obtain _ | ⟨_, _ | ⟨ht, _⟩⟩ := hparts
        have hthen := ih _ (List.mem_cons_of_mem _ List.mem_cons_self) ht (by simpa using hhead)
        exact hthen
      | some e =>
        obtain _ | ⟨_, _ | ⟨ht, _ | ⟨he, _⟩⟩⟩ := hparts
        have hthen := ih _ (List.mem_cons_of_mem _ List.mem_cons_self) ht (by simpa using hhead)
        have helse := ih _ (by simp [Visit.parts, stmtParts]) he hthen
        exact helse
    | loop c s =>
      obtain _ | ⟨_, _ | ⟨hs, _⟩⟩ := hparts
      have hbody := ih _ (List.mem_cons_of_mem _ List.mem_cons_self) hs (by simpa using hhead)
      exact hbody
    | function f =>
      obtain _ | ⟨hf, _⟩ := hparts
      have hbody := ih _ List.mem_cons_self hf (by
        simp only [toFunction_walk, name_moved]
        cases f.name with
        | none => exact hhead
        | some t => exact head?_named hhead t)
      exact hbody
    | result keyword e =>
      cases e with
      | none =>
        simp only [Piece.recast, Stmt.recast, after, walkStmt]
        split <;> exact hhead
      | some e =>
        obtain _ | ⟨he, _⟩ := hparts
        have hvalue := ih _ List.mem_cons_self he (by
          simp only [onto_walk]
          cases ctx.body <;> exact hhead)
        exact hvalue
    | _ =>
      obtain _ | ⟨hp, _⟩ := hparts
      have hpart := ih _ List.mem_cons_self hp hhead
      exact hpart
  | stmts ss =>
    cases ss with
    | nil => exact hhead
    | cons s ss =>
      obtain _ | ⟨hs, _ | ⟨hss, _⟩⟩ := hparts
      have hfirst := ih _ List.mem_cons_self hs hhead
      have hrest := ih _ (List.mem_cons_of_mem _ List.mem_cons_self) hss hfirst
      exact hrest
  | _ => exact absurd rfl hkeeps

end Copies

/-- Where `super` stands, it is found in the scope around the one in which `this` is found. -/
def Inherits (v : Visit) : Prop :=
  match v.piece with
  | .expr (.super x _) => ∃ i, depth? v.walk.scopes "this" = some i ∧
      v.walk.distance? x = some (i + 1)
  | _ => True

/-- Where scopes are nested, `super` stands outside `this`. -/
theorem inherits_of_nested (hnested : v.Nested) (hhome : v.AtHome)
    (hnames : v.Names Token.Spelled) :
    v.Inherits := by
  obtain ⟨ctx, piece, w, around⟩ := v
  cases piece with
  | expr e =>
    cases e with
    | super x method =>
      have hderived : ctx.home = .derived := hhome
      have hnest : Nest ctx.home around w.scopes := hnested
      obtain ⟨inner, f, c, hnearest⟩ := hnest.nearest (by simp [hderived])
      obtain ⟨_, _, hsuper⟩ := hnearest.super hderived
      have hword := hnames (.kwSuper, x.name) (by simp [Piece.words])
      have hlexeme : x.name.lexeme = "super" := hword.2.eq_super hword.1
      refine ⟨_, hnearest.this, ?_⟩
      rw [Walk.distance?, hlexeme]
      exact hsuper
    | _ => trivial
  | _ => trivial

/-- Two visits of which the second is of a copy of the first one's piece. Each table holds what
scoping finds at one of them, and the pieces have their shape and place. -/
structure Paired (d d' : Distances) (v v' : Visit) : Prop where
  /-- The second is of a copy. -/
  copies : ∃ shift, Copies shift v v'
  /-- The first table holds what is found at the first visit. -/
  recorded : All (Recorded d) v
  /-- The second table holds what is found at the second one. -/
  recorded' : All (Recorded d') v'
  /-- The pieces have the shape that evaluation relies on. -/
  shapely : All Shapely v
  /-- Where `super` stands there is a receiver. -/
  inherits : All Inherits v

namespace Paired

/-- A visit is paired with itself. -/
theorem refl (hrecorded : All (Recorded d) v) (hrecorded' : All (Recorded d') v)
    (hshapely : All Shapely v) (hinherits : All Inherits v) : Paired d d' v v := by
  refine ⟨⟨0, ?_⟩, hrecorded, hrecorded', hshapely, hinherits⟩
  obtain ⟨ctx, piece, w, around⟩ := v
  have hsame : Copies 0 ⟨ctx, piece, w, around⟩ ⟨ctx, piece.recast .same [], w, around⟩ := .mk []
  rwa [Piece.recast_same] at hsame

/-- The parts of paired visits are paired. -/
theorem parts (h : Paired d d' v v') : List.Forall₂ (Paired d d') v.parts v'.parts := by
  obtain ⟨shift, hcopies⟩ := h.copies
  have hparts := forall₂_and_mem hcopies.parts
    (fun p hp => And.intro (h.recorded.part hp)
      (And.intro (h.shapely.part hp) (h.inherits.part hp)))
    fun p' hp' => h.recorded'.part hp'
  refine hparts.imp ?_
  rintro p p' ⟨hp, ⟨hrecorded, hshapely, hinherits⟩, hrecorded'⟩
  exact ⟨⟨shift, hp⟩, hrecorded, hrecorded', hshapely, hinherits⟩

/-- A copy of a visit that is shapely throughout is so. -/
theorem shapely' (h : Paired d d' v v') : All Shapely v' := by
  obtain ⟨shift, hcopies⟩ := h.copies
  exact hcopies.all (fun _ _ => Copies.shapely) h.shapely

end Paired

end Visit

end Lox.Scoping
