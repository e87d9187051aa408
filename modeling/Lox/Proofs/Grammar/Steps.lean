import Lox.Proofs.Grammar.Derivation
import Mathlib.Data.List.Infix

/-!
# What a production can do to the state of a parse

`Later s t` says what holds of any state `t` that a parse comes to from `s`: tokens were only taken
from the front, numbers were only given out, and complaints were only added. `Step.All` states a
property of whatever a production ends with. The lemmas say how both go through the ways in which
productions are put together, so that a proof about a production follows its text.
-/

namespace Lox.Grammar

/-- The state `t` comes after `s` in a parse. -/
structure Later (s t : State) : Prop where
  /-- The tokens that are left were left before. -/
  rest : t.rest <:+ s.rest
  /-- Numbers are only given out. -/
  nextId : s.nextId ≤ t.nextId
  /-- Complaints are only added. -/
  complaints : s.complaints <+: t.complaints

namespace Later

variable {s t u : State}

/-- A state comes after itself. -/
theorem refl (s : State) : Later s s :=
  ⟨List.suffix_rfl, Nat.le_refl _, List.prefix_rfl⟩

/-- The order of states is transitive. -/
theorem trans (h : Later s t) (h' : Later t u) : Later s u :=
  ⟨h'.rest.trans h.rest, Nat.le_trans h.nextId h'.nextId, h.complaints.trans h'.complaints⟩

/-- If no complaint was made on the way to a later state, none was made on the way to one between
them. -/
theorem clean_left (h : Later s t) (h' : Later t u) (hu : u.complaints = s.complaints) :
    t.complaints = s.complaints := by
  have hle : t.complaints.length ≤ s.complaints.length := by
    rw [← hu]
    exact h'.complaints.length_le
  exact (h.complaints.eq_of_length_le hle).symm

/-- If no complaint was made on the way to a later state, none was made on the second part of the
way. -/
theorem clean_right (h : Later s t) (h' : Later t u) (hu : u.complaints = s.complaints) :
    u.complaints = t.complaints := by
  rw [hu, clean_left h h' hu]

/-- A number is given out. -/
theorem used (s : State) : Later s s.used :=
  ⟨List.suffix_rfl, Nat.le_succ _, List.prefix_rfl⟩

/-- A complaint is made. -/
theorem record (s : State) (c : Complaint) : Later s (s.record c) :=
  ⟨List.suffix_rfl, Nat.le_refl _, List.prefix_append _ _⟩

/-- Taking the next token leads to a later state. -/
theorem take {token : Token} {rest : List Token} (h : s.rest = token :: rest) :
    Later s { s with rest := rest } :=
  ⟨h ▸ List.suffix_cons token rest, Nat.le_refl _, List.prefix_rfl⟩

end Later

/-- The state `t` comes after `s` in a parse, and `P` holds if no complaint was made in between. -/
def Passage (s t : State) (P : Prop) : Prop :=
  Later s t ∧ (t.complaints = s.complaints → P)

namespace Passage

variable {s t u : State} {P Q : Prop}

/-- One passage after another. -/
theorem trans (h : Passage s t P) (h' : Passage t u Q) : Passage s u (P ∧ Q) :=
  ⟨h.1.trans h'.1, fun hu =>
    ⟨h.2 (h.1.clean_left h'.1 hu), h'.2 (h.1.clean_right h'.1 hu)⟩⟩

/-- What a passage says may be weakened. -/
theorem imp (h : Passage s t P) (hPQ : P → Q) : Passage s t Q :=
  ⟨h.1, fun ht => hPQ (h.2 ht)⟩

/-- What holds anyway holds after a passage. -/
theorem of_later (h : Later s t) (hP : P) : Passage s t P :=
  ⟨h, fun _ => hP⟩

/-- What is taken stands before what is left. The tokens that are left are those of the new state,
so that the equations of several passages can be used one after the other. -/
theorem take {token : Token} {rest : List Token} (h : s.rest = token :: rest) :
    Passage s { s with rest := rest } (s.rest = token :: ({ s with rest := rest } : State).rest) :=
  of_later (.take h) h

/-- Once a complaint was made, nothing more is asked for. -/
theorem of_complaint (c : Complaint) (h : Later s t) (h' : Later (t.record c) u) :
    Passage s u P := by
  refine ⟨h.trans ((Later.record t c).trans h'), fun hu => ?_⟩
  have hlength : (t.record c).complaints.length ≤ t.complaints.length := calc
    (t.record c).complaints.length ≤ u.complaints.length := h'.complaints.length_le
    _ = s.complaints.length := by rw [hu]
    _ ≤ t.complaints.length := h.complaints.length_le
  simp only [State.record, List.length_append, List.length_singleton] at hlength
  omega

end Passage

/-- Without a complaint, a list was not too long already, and the state is the same. -/
theorem Passage.limit (s : State) (count : Nat) (reason : Reason) :
    Passage s (s.limit count reason) (s.limit count reason = s ∧ count < maxItems) := by
  unfold State.limit
  split
  · exact .of_complaint _ (.refl s) (.refl _)
  · next h => exact .of_later (.refl s) ⟨rfl, Nat.lt_of_not_le h⟩

/-- The tokens at which parsing resumes were left before. -/
theorem resumeAfter_suffix (last : Token) (ts : List Token) : resumeAfter last ts <:+ ts := by
  induction ts generalizing last with
  | nil => exact List.suffix_rfl
  | cons t ts ih =>
    unfold resumeAfter
    split
    · exact List.suffix_rfl
    · exact (ih t).trans (List.suffix_cons t ts)

/-- Parsing resumes in a later state. -/
theorem Later.resume (s : State) : Later s s.resume := by
  unfold State.resume
  split
  · exact .refl s
  · next t ts h =>
    refine ⟨?_, Nat.le_refl _, List.prefix_rfl⟩
    rw [h]
    exact (resumeAfter_suffix t ts).trans (List.suffix_cons t ts)

/-- The next token is taken if it is there and of a kind that is looked for. -/
theorem State.next_cons {s : State} {token : Token} {rest : List Token}
    (wanted : Token.Kind → Bool) (hrest : s.rest = token :: rest) (h : wanted token.kind) :
    ∃ hs, s.next wanted = .took token { s with rest := rest } hs := by
  obtain ⟨ts, last, nextId, complaints⟩ := s
  subst hrest
  exact ⟨by simp [State.size], by simp [State.next, h]⟩

/-- A wanted token that comes next is taken. -/
theorem State.next_took (wanted : Token.Kind → Bool) (token : Token) (rest : List Token)
    (last : Token) (n : Nat) (cs : List Complaint) (h : wanted token.kind) :
    ∃ hs, (⟨token :: rest, last, n, cs⟩ : State).next wanted =
      .took token ⟨rest, last, n, cs⟩ hs :=
  State.next_cons wanted rfl h

/-- The next token is taken if its kind is the one that is looked for. -/
theorem State.next_same {token : Token} {kind : Token.Kind} (htoken : token.kind = kind)
    (rest : List Token) (last : Token) (n : Nat) (cs : List Complaint) :
    ∃ hs, (⟨token :: rest, last, n, cs⟩ : State).next (· = kind) =
      .took token ⟨rest, last, n, cs⟩ hs :=
  State.next_took (· = kind) token rest last n cs (decide_eq_true htoken)

/-- The next token is not taken if there is none of a kind that is looked for. -/
theorem State.next_other {s : State} {wanted : Token.Kind → Bool}
    (h : ∀ t ∈ s.rest.head?, wanted t.kind = false) : s.next wanted = .other := by
  obtain ⟨ts, last, nextId, complaints⟩ := s
  cases ts with
  | nil => rfl
  | cons t ts => simp [State.next, h t rfl]

/-- The next token is not taken if its kind is another one. -/
theorem State.next_differs {token : Token} {kind : Token.Kind} (wanted : Token.Kind)
    (htoken : token.kind = kind) (hne : kind ≠ wanted) (rest : List Token) (last : Token) (n : Nat)
    (cs : List Complaint) :
    (⟨token :: rest, last, n, cs⟩ : State).next (· = wanted) = .other := by
  refine State.next_other fun t ht => decide_eq_false ?_
  obtain rfl : token = t := Option.some.inj ht
  rwa [htoken]

/-- What looking for the next token can find. -/
theorem State.next_cases (s : State) (wanted : Token.Kind → Bool) :
    (∃ token rest hs, s.rest = token :: rest ∧ wanted token.kind ∧
        s.next wanted = .took token { s with rest := rest } hs) ∨
      (s.next wanted = .other ∧ ∀ t ∈ s.rest.head?, wanted t.kind = false) := by
  cases hrest : s.rest with
  | nil => exact .inr ⟨State.next_other (by simp [hrest]), by simp⟩
  | cons t ts =>
    by_cases h : wanted t.kind
    · obtain ⟨hs, hnext⟩ := State.next_cons wanted hrest h
      exact .inl ⟨t, ts, hs, rfl, h, hnext⟩
    · have hother : ∀ u ∈ (t :: ts).head?, wanted u.kind = false := by simpa using h
      exact .inr ⟨State.next_other (hrest ▸ hother), hother⟩

/-- The operands of a tier that is not the tightest. -/
theorem operand_of_some {level next : Tier} (h : level.tighter = some next) (s : State) :
    operand level s = tier next s := by
  rw [operand]
  split
  · next other hother =>
    obtain rfl := Option.some.inj (h.symm.trans hother)
    rfl
  · next hnone =>
    rw [h] at hnone
    contradiction

/-- The operands of the tightest tier. -/
theorem operand_of_none {level : Tier} (h : level.tighter = none) (s : State) :
    operand level s = unary s := by
  rw [operand]
  split
  · next hsome =>
    rw [h] at hsome
    contradiction
  · rfl

/-- A token that is taken was the next one, and nothing else changes. -/
theorem State.of_next {s u : State} {wanted : Token.Kind → Bool} {token : Token}
    {hu : u.size < s.size} (h : s.next wanted = .took token u hu) :
    ∃ rest, s.rest = token :: rest ∧ u = { s with rest := rest } := by
  rcases s.next_cases wanted with ⟨token', rest, hs, hrest, -, hnext⟩ | ⟨hnext, -⟩
  · rw [h] at hnext
    obtain ⟨rfl, rfl⟩ := Next.took.inj hnext
    exact ⟨rest, hrest, rfl⟩
  · rw [h] at hnext
    contradiction

namespace Step

variable {α β : Type} {s t : State}

/-- Whatever a production ends with has a property: `P` holds of its value and state if it is done,
and `Q` holds of its state if it has failed. -/
def All (x : Step α s) (P : α → State → Prop) (Q : State → Prop) : Prop :=
  match x with
  | .done a t _ => P a t
  | .failed _ t _ => Q t

/-- A property of whatever a production ends with goes over to a weaker one. -/
theorem All.imp {x : Step α s} {P P' : α → State → Prop} {Q Q' : State → Prop} (h : x.All P Q)
    (hP : ∀ a t, P a t → P' a t) (hQ : ∀ t, Q t → Q' t) : x.All P' Q' := by
  cases x with
  | done a t ht => exact hP a t h
  | failed c t ht => exact hQ t h

/-- A property of a production that goes on after another one. -/
theorem All.andThen {x : Step α t} {f : (a : α) → (u : State) → u.size < t.size → Step β s}
    {hts : t.size ≤ s.size} {P : α → State → Prop} {P' : β → State → Prop} {Q Q' : State → Prop}
    (h : x.All P Q) (hf : ∀ a u hu, P a u → (f a u hu).All P' Q') (hQ : ∀ u, Q u → Q' u) :
    (x.andThen f hts).All P' Q' := by
  cases x with
  | done a u hu => exact hf a u hu h
  | failed c u hu => exact hQ u h

/-- A property of a production that is seen from an earlier state. -/
theorem All.within {x : Step α t} {hts : t.size ≤ s.size} {P : α → State → Prop}
    {Q : State → Prop} (h : x.All P Q) : (x.within hts).All P Q := by
  cases x with
  | done a u hu => exact h
  | failed c u hu => exact h

/-- A property of a production that goes on after an expected token. -/
theorem All.expect {kind : Token.Kind} {reason : Reason}
    {f : (token : Token) → (u : State) → u.size < t.size → Step β s} {hts : t.size ≤ s.size}
    {P : β → State → Prop} {Q : State → Prop}
    (hf : ∀ token rest hu, t.rest = token :: rest → token.kind = kind →
      (f token { t with rest := rest } hu).All P Q)
    (hQ : Q t) : (t.expect kind reason f hts).All P Q := by
  unfold State.expect
  rcases t.next_cases (· = kind) with ⟨token, rest, hu, hrest, hkind, hnext⟩ | ⟨hnext, -⟩
  · rw [hnext]
    exact hf token rest hu hrest (of_decide_eq_true hkind)
  · rw [hnext]
    exact hQ

/-- A production is done with a value, in a state. -/
def Done (x : Step α s) (a : α) (t : State) : Prop :=
  ∃ ht, x = .done a t ht

/-- A production that is done is done. -/
theorem Done.mk (a : α) (t : State) (ht : t.size < s.size) : (Step.done a t ht).Done a t :=
  ⟨ht, rfl⟩

/-- A property of whatever a production ends with holds where it is done. -/
theorem All.of_done {x : Step α s} {P : α → State → Prop} {Q : State → Prop} (h : x.All P Q)
    {a : α} {t : State} (hx : x.Done a t) : P a t := by
  obtain ⟨ht, rfl⟩ := hx
  exact h

/-- A production that goes on after another one is done if both are. -/
theorem Done.andThen {x : Step α t} {f : (a : α) → (u : State) → u.size < t.size → Step β s}
    {hts : t.size ≤ s.size} {a : α} {u : State} {b : β} {v : State} (h : x.Done a u)
    (hf : ∀ hu, (f a u hu).Done b v) : (x.andThen f hts).Done b v := by
  obtain ⟨hu, rfl⟩ := h
  exact hf hu

/-- A production is done within another one. -/
theorem Done.within {x : Step α t} {hts : t.size ≤ s.size} {a : α} {u : State} (h : x.Done a u) :
    (x.within hts).Done a u := by
  obtain ⟨hu, rfl⟩ := h
  exact .mk a u _

/-- A production that goes on after an expected token is done if that token comes next. -/
theorem Done.expect {kind : Token.Kind} {reason : Reason}
    {f : (token : Token) → (u : State) → u.size < t.size → Step β s} {hts : t.size ≤ s.size}
    {token : Token} {rest : List Token} {b : β} {v : State} (hrest : t.rest = token :: rest)
    (hkind : token.kind = kind) (hf : ∀ hu, (f token { t with rest := rest } hu).Done b v) :
    (t.expect kind reason f hts).Done b v := by
  unfold State.expect
  obtain ⟨hu, hnext⟩ := State.next_cons (· = kind) hrest (decide_eq_true hkind)
  rw [hnext]
  exact hf hu

end Step

end Lox.Grammar
