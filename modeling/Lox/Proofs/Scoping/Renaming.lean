import Lox.Proofs.Grammar.Naming
import Lox.Proofs.Scoping.Counterparts

/-!
# Renaming a local variable

A local variable is renamed together with the references that scoping binds to it, and nothing else
is: `Recasting.rename`. In a program without violations the renamed program is like the program, if
no name of the program is the new one. This rests on the names of a scope being different: in the
scope of the variable, nothing else has its name.
-/

namespace Lox

open Scoping

/-- Whether a reference is bound to the variable of some name in a marked scope, given the distances
of references and the marks of the scopes around it. -/
def Scoping.Distances.binds (table : Distances) (name : String) (marks : List Bool)
    (x : Reference) : Bool :=
  (table.find? x.id).any (fun distance => marks.getD distance false) && x.name.lexeme == name

/-- The renaming of the local variable that the token `t` declares. Its scope is marked, and the
token is renamed there, as are the references that are bound to the variable. Tokens may stand
elsewhere then. -/
def Recasting.rename (table : Distances) (t : Token) (new : String) (move : Position → Position) :
    Recasting where
  plain u := u.moved move
  declared mark u := if mark ∧ u = t then { u.moved move with lexeme := new } else u.moved move
  used marks x :=
    if table.binds t.lexeme marks x then { x.name.moved move with lexeme := new }
    else x.name.moved move
  marks ts := decide (t ∈ ts)
  shift := 0

/-- Renaming keeps the kinds of tokens. -/
theorem Recasting.keepsKinds_rename (table : Distances) (t : Token) (new : String)
    (move : Position → Position) : (rename table t new move).KeepsKinds where
  plain _ := rfl
  declared mark u := by
    unfold rename
    dsimp only
    split <;> rfl
  used marks x := by
    unfold rename
    dsimp only
    split <;> rfl

/-- A renamed token is spelled as its kind says. -/
theorem Recasting.Casts.spelled_rename {table : Distances} {t : Token} {new : String}
    {move : Position → Position} (hnew : Token.Kind.ofWord new = .identifier) {u u' : Token}
    (h : (rename table t new move).Casts u u') (hu : u.Spelled) : u'.Spelled := by
  cases h with
  | plain => exact hu
  | declared mark _ hkind =>
    unfold rename
    dsimp only
    split
    · exact fun _ => hnew.trans hkind.symm
    · exact hu
  | used marks x hkind =>
    unfold rename
    dsimp only
    split
    · exact fun _ => hnew.trans hkind.symm
    · exact hu

namespace Scoping

variable {L : Likeness} {t : Token} {v : Visit} {move : Position → Position}

/-- The scope of a construct is marked only if the variable is declared there. -/
theorem mem_declared_of_mark {table : Distances} {new : String} {c : Construct}
    (h : (Recasting.rename table t new move).mark c = true) : (true, t) ∈ c.declared := by
  have hstmts : ∀ ss : List Stmt, t ∈ ss.flatMap Stmt.variables →
      (true, t) ∈ ss.flatMap Stmt.declared := by
    intro ss ht
    obtain ⟨s, hs, ht⟩ := List.mem_flatMap.mp ht
    refine List.mem_flatMap.mpr ⟨s, hs, ?_⟩
    cases s with
    | declare ds =>
      obtain ⟨d, hd, rfl⟩ := List.mem_map.mp ht
      exact List.mem_map.mpr ⟨d, hd, rfl⟩
    | _ => contradiction
  cases c with
  | block ss => exact hstmts ss (of_decide_eq_true h)
  | call f =>
    obtain ht | ht := List.mem_append.mp (of_decide_eq_true h)
    · exact List.mem_append_left _ (List.mem_map.mpr ⟨t, ht, rfl⟩)
    · exact List.mem_append_right _ (hstmts _ ht)
  | receiver c => contradiction
  | inheritance c => contradiction

section Scope

variable {c : Construct} {b : Bool} {u : Token}

/-- In the scope of the variable, all other names are different. -/
theorem name_of_mem (move : Position → Position) (hold : L.old = t.lexeme)
    (hnodup : (texts c.declared).Nodup)
    (hu : (b, u) ∈ c.declared) (hne : (b, u) ≠ (true, t)) (hnew : u.lexeme ≠ L.new) :
    L.Name ((Recasting.rename L.table t L.new move).mark c) u.lexeme u.lexeme := by
  cases hmark : (Recasting.rename L.table t L.new move).mark c with
  | false => rfl
  | true =>
    have ht := mem_declared_of_mark hmark
    refine .of_ne (fun heq => hne ?_) hnew
    exact List.inj_on_of_nodup_map hnodup hu ht (heq.trans hold)

/-- A variable that is declared gets the name that it may have. -/
theorem declares_of_mem (hold : L.old = t.lexeme) (hmove : ∀ p, L.places p (move p))
    (hnodup : (texts c.declared).Nodup) (hu : (true, u) ∈ c.declared) (hnew : u.lexeme ≠ L.new) :
    L.Declares ((Recasting.rename L.table t L.new move).mark c) u
      ((Recasting.rename L.table t L.new move).declared
        ((Recasting.rename L.table t L.new move).mark c) u) := by
  have hname := name_of_mem move hold hnodup hu
  unfold Recasting.rename at hname ⊢
  dsimp only at hname ⊢
  generalize Recasting.mark _ c = mark at hname ⊢
  -- Only the variable itself is renamed, and only if its scope is marked.
  by_cases hut : u = t
  · subst hut
    cases mark with
    | false => exact ⟨rfl, rfl, hmove _⟩
    | true =>
      rw [if_pos ⟨rfl, rfl⟩]
      exact ⟨rfl, .inl ⟨hold.symm, rfl⟩, hmove _⟩
  · rw [if_neg fun h => hut h.2]
    exact ⟨rfl, hname (by simpa using hut) hnew, hmove _⟩

end Scope

/-- A reference is renamed if it is bound to the variable. -/
theorem refers_rename (hold : L.old = t.lexeme) (hmove : ∀ p, L.places p (move p)) {ms : List Bool}
    {x : Reference}
    (hnumber : L.number x.id = 0 + x.id) (hnew : x.name.lexeme ≠ L.new)
    (hrenamed : L.table.binds t.lexeme ms x → L.renamed x) :
    L.Refers ms x ((Recasting.rename L.table t L.new move).reference ms x) := by
  unfold Recasting.reference Recasting.rename
  dsimp only
  have hmark : L.markOf ms x =
      (L.table.find? x.id).any fun distance => ms.getD distance false := by
    unfold Likeness.markOf
    cases L.table.find? x.id <;> rfl
  by_cases hbinds : L.table.binds t.lexeme ms x
  · rw [if_pos hbinds]
    have hparts := hbinds
    unfold Distances.binds at hparts
    rw [Bool.and_eq_true, ← hmark, beq_iff_eq] at hparts
    refine ⟨hnumber.symm, rfl, ?_, fun _ => hrenamed hbinds, hmove _⟩
    rw [hparts.1]
    exact .inl ⟨hparts.2.trans hold.symm, rfl⟩
  -- A reference that is not bound to the variable has another text or finds it in no marked scope.
  · rw [if_neg hbinds]
    refine .of_token hnumber.symm ⟨rfl, rfl, hmove _⟩ ?_
    cases hcase : L.markOf ms x with
    | false => rfl
    | true =>
      refine .of_ne (fun heq => hbinds ?_) hnew
      unfold Distances.binds
      rw [← hmark, hcase, heq, hold]
      simp

/-- A renaming suits the visits of a program without violations. -/
theorem Visit.suits_rename (hold : L.old = t.lexeme) (hmove : ∀ p, L.places p (move p))
    (hnumber : ∀ id, L.number id = 0 + id) (hshape : v.Shapely) (hdistinct : All Distinct v)
    (hnames : v.Names fun u => u.Spelled ∧ u.lexeme ≠ L.new)
    (hrenamed : ∀ x ∈ v.piece.mention?, L.table.binds t.lexeme
      ((Recasting.rename L.table t L.new move).marksOf v.around) x → L.renamed x) :
    (Recasting.rename L.table t L.new move).Suits L v := by
  have hself := hdistinct.self
  have hbodies := fun p hp => (hdistinct.part (p := p) hp).self
  clear hdistinct
  obtain ⟨ctx, piece, w, around⟩ := v
  constructor
  -- References to variables.
  · intro x hx
    have hword : (.identifier, x.name) ∈ piece.words := by
      unfold Piece.mention? at hx
      dsimp only at hx
      split at hx
      · obtain rfl := Option.some.inj hx
        exact List.mem_cons_self
      · obtain rfl := Option.some.inj hx
        exact List.mem_cons_self
      · obtain rfl := Option.some.inj hx
        exact List.mem_cons_self
      · contradiction
    exact refers_rename hold hmove (hnumber _) (hnames _ hword).2.2 (hrenamed x hx)
  · intro x hx
    -- The words `this` and `super` are reserved, so no scope has them under another name.
    have hreserved : Reserved x.name.lexeme := by
      unfold Piece.keyword? at hx
      dsimp only at hx
      split at hx
      · obtain rfl := Option.some.inj hx
        obtain ⟨hkind, hspelled, _⟩ := hnames _ List.mem_cons_self
        exact .inl (hspelled.eq_this hkind)
      · obtain rfl := Option.some.inj hx
        obtain ⟨hkind, hspelled, _⟩ := hnames _ List.mem_cons_self
        exact .inr (hspelled.eq_super hkind)
      · contradiction
    exact .of_token (hnumber _).symm ⟨rfl, rfl, hmove _⟩ (.of_reserved hreserved)
  -- Variables that are declared. At the top level nothing is marked.
  · rintro d ds rfl
    have hnew := (hnames _ List.mem_cons_self).2.2
    cases around with
    | nil => exact ⟨by rfl, by rfl, hmove _⟩
    | cons c around =>
      have hnodup := hself.nodup c List.mem_cons_self
      exact declares_of_mem hold hmove hnodup (hself.subset c rfl List.mem_cons_self) hnew
  -- Functions and classes keep their names, which differ from that of the variable in its scope.
  · rintro f rfl
    cases around with
    | nil => rfl
    | cons c around =>
      obtain ⟨_ | name, keyword, params, body⟩ := f
      · contradiction
      · have hnew := (hnames _ List.mem_cons_self).2.2
        have hnodup := hself.nodup c List.mem_cons_self
        exact name_of_mem move hold hnodup (hself.subset c rfl List.mem_cons_self) (by simp) hnew
  · rintro ⟨name, xs, fs⟩ rfl
    have hnew := (hnames _ List.mem_cons_self).2.2
    cases around with
    | nil => rfl
    | cons c around =>
      have hnodup := hself.nodup c List.mem_cons_self
      exact name_of_mem move hold hnodup (hself.subset c rfl List.mem_cons_self) (by simp) hnew
  -- Parameters are declared in the scope of the call.
  · rintro f rfl u hu
    have hnew := (hnames _ (List.mem_map_of_mem hu)).2.2
    have hnodup := (hbodies _ List.mem_cons_self).nodup (.call f) List.mem_cons_self
    exact declares_of_mem (c := .call f) hold hmove hnodup
      (List.mem_append_left _ (List.mem_map_of_mem hu)) hnew

end Scoping

end Lox
