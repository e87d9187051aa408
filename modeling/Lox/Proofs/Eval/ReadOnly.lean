import Lox.Eval
import Lox.Proofs.Heap.Contents
import Mathlib.Data.Option.Basic

/-!
# Steps that only read

What an operator gives, which place an index denotes and what is found there depends on the operands
and on what the heap holds, and finding out changes nothing. `ReadOnly` says so of two steps that
read a heap each: both succeed with related results, or both fail for one cause, and their machines
stay as they are. With one step in the place of both it says what a single run does; with two it
says that operands which operators cannot tell apart (`Value.Similar`) lead to the same end. This
module goes through the cases of these steps once, and the other modules about evaluation rely on
it.
-/

namespace Lox

namespace Value

/-- Two values that operators cannot tell apart, unless by their texts: they are the same, or they
are functions or classes with one identity. -/
inductive Similar : Value → Value → Prop
  | refl (v : Value) : Similar v v
  | function (id : Nat) (f f' : Function) : Similar (.function id f) (.function id f')
  | class {c c' : Class} (h : c'.id = c.id) : Similar (.class c) (.class c')

/-- A value that neither has an identity nor can be called. -/
def IsPlain : Value → Prop
  | .nil | .boolean _ | .number _ | .string _ => True
  | _ => False

/-- The value of a literal is plain. -/
theorem isPlain_ofLiteral (v : Literal) : (Value.ofLiteral v).IsPlain := by
  cases v <;> trivial

namespace Similar

variable {v v' w w' : Value}

/-- Values are similar to themselves. -/
theorem all_refl (vs : List Value) : List.Forall₂ Similar vs vs :=
  List.forall₂_same.mpr fun v _ => .refl v

/-- Similar values are equally true. -/
theorem isTruthy (h : Similar v v') : v'.isTruthy = v.isTruthy := by
  cases h <;> rfl

/-- Similar values have the same type. -/
theorem typeName (h : Similar v v') : v'.typeName = v.typeName := by
  cases h <;> rfl

/-- What has an identity keeps it. -/
theorem equal (hv : Similar v v') (hw : Similar w w') : v'.equal w' = v.equal w := by
  cases hv with
  | refl =>
    cases hw with
    | refl => rfl
    | function => cases v <;> rfl
    | «class» hid => cases v <;> simp [Value.equal, hid]
  | function =>
    cases hw with
    | refl => cases w <;> rfl
    | _ => rfl
  | «class» hid =>
    cases hw with
    | refl => cases w <;> simp [Value.equal, hid]
    | function => rfl
    | «class» hid' => simp [Value.equal, hid, hid']

/-- Similar values compare the same. -/
theorem compare? (hv : Similar v v') (hw : Similar w w') : v'.compare? w' = v.compare? w := by
  cases hv with
  | refl =>
    cases hw with
    | refl => rfl
    | _ => cases v <;> rfl
  | _ =>
    cases hw with
    | refl => cases w <;> rfl
    | _ => rfl

end Similar

end Value

/-- The same places of two heaps hold related values: the elements of arrays and the fields of
objects. -/
structure Heap.Mirrors (V : Value → Value → Prop) (h h' : Heap) : Prop where
  /-- The elements of arrays. -/
  elements : ∀ id, List.Forall₂ V (h.elements id).toList (h'.elements id).toList
  /-- The fields of objects. -/
  fields : ∀ (id : ObjectId) (name : String), Option.Rel V
    (h.objects[id]?.bind (·.fields.lookup name)) (h'.objects[id]?.bind (·.fields.lookup name))

namespace Heap.Mirrors

variable {V : Value → Value → Prop} {h h' : Heap}

/-- What holds of all values in a heap holds of what is found in it. -/
theorem of_holds {P : Value → Prop} (hh : h.Holds P) : h.Mirrors (fun v _ => P v) h where
  elements id := List.forall₂_same.mpr fun v hv => hh.element (Array.mem_toList_iff.mp hv)
  fields id name := by
    cases hv : h.objects[id]?.bind (·.fields.lookup name) with
    | none => exact .none
    | some v =>
      obtain ⟨object, hobject, hv⟩ := Option.bind_eq_some_iff.mp hv
      exact .some (hh.fields object (Array.mem_of_getElem? hobject) name v hv)

/-- A heap mirrors itself. -/
theorem refl (h : Heap) : h.Mirrors (fun _ _ => True) h :=
  of_holds ⟨fun _ _ _ _ => trivial, fun _ _ => trivial, fun _ _ _ _ _ => trivial,
    fun _ _ _ _ => trivial⟩

/-- Mirrored arrays are of the same length. -/
theorem size_elements (hh : h.Mirrors V h') (id : ArrayId) :
    (h'.elements id).size = (h.elements id).size := by
  rw [← Array.length_toList, ← Array.length_toList]
  exact (hh.elements id).length_eq.symm

/-- Elements at one place are related. Where there are none, `nil` stands for them. -/
theorem getD (hh : h.Mirrors V h') (hnil : V .nil .nil) (id : ArrayId) (i : Nat) :
    V ((h.elements id).getD i .nil) ((h'.elements id).getD i .nil) := by
  rw [Array.getD_eq_getD_getElem?, Array.getD_eq_getD_getElem?, ← Array.getElem?_toList,
    ← Array.getElem?_toList]
  have hrel := hh.elements id
  generalize (h.elements id).toList = vs at hrel
  generalize (h'.elements id).toList = vs' at hrel
  induction hrel generalizing i with
  | nil => exact hnil
  | cons hv _ ih =>
    cases i with
    | zero => exact hv
    | succ i => exact ih i

end Heap.Mirrors

namespace Eval

open Exec

/-- Two steps read a heap each and change nothing. Both succeed, with related results, or both fail
at their tokens for one cause. -/
inductive ReadOnly {α β : Type} (h h' : Heap) (t t' : Token) (Q : α → β → Prop) (x : Exec α)
    (x' : Exec β) : Prop
  | ok {a : α} {b : β} (hab : Q a b) (hx : ∀ m : Machine, m.heap = h → x m = .ok a m)
      (hx' : ∀ m : Machine, m.heap = h' → x' m = .ok b m)
  | error (cause : Cause)
      (hx : ∀ m : Machine, m.heap = h → x m = .error (.program t.line cause) m)
      (hx' : ∀ m : Machine, m.heap = h' → x' m = .error (.program t'.line cause) m)

namespace ReadOnly

variable {α β γ δ : Type} {h h' : Heap} {t t' : Token} {Q : α → β → Prop} {R : γ → δ → Prop}
  {x : Exec α} {x' : Exec β} {f : α → Exec γ} {f' : β → Exec δ}

/-- What a single step does. -/
theorem self {Q : α → α → Prop} {m : Machine} (hx : ReadOnly m.heap m.heap t t Q x x) :
    (∃ a, Q a a ∧ ∀ n : Machine, n.heap = m.heap → x n = .ok a n) ∨
      ∃ cause, ∀ n : Machine, n.heap = m.heap → x n = .error (.program t.line cause) n := by
  cases hx with
  | ok hab hx hx' =>
    obtain ⟨rfl, -⟩ := EStateM.Result.ok.inj ((hx m rfl).symm.trans (hx' m rfl))
    exact .inl ⟨_, hab, hx⟩
  | error cause hx => exact .inr ⟨cause, hx⟩

/-- One step after another. -/
theorem bind (hx : ReadOnly h h' t t' Q x x')
    (hf : ∀ a b, Q a b → ReadOnly h h' t t' R (f a) (f' b)) :
    ReadOnly h h' t t' R (x >>= f) (x' >>= f') := by
  cases hx with
  | ok hab hx hx' =>
    cases hf _ _ hab with
    | ok hcd hf hf' =>
      exact .ok hcd (fun m hm => (bind_of_ok (hx m hm) _).trans (hf m hm))
        fun m hm => (bind_of_ok (hx' m hm) _).trans (hf' m hm)
    | error cause hf hf' =>
      exact .error cause (fun m hm => (bind_of_ok (hx m hm) _).trans (hf m hm))
        fun m hm => (bind_of_ok (hx' m hm) _).trans (hf' m hm)
  | error cause hx hx' =>
    exact .error cause (fun m hm => bind_of_error (hx m hm) _)
      fun m hm => bind_of_error (hx' m hm) _

/-- Giving a value reads only. -/
theorem pure {a : α} {b : β} (hab : Q a b) : ReadOnly h h' t t' Q (pure a) (pure b) :=
  .ok hab (fun _ _ => rfl) fun _ _ => rfl

/-- Failing reads only. -/
theorem fail (cause : Cause) :
    ReadOnly h h' t t' Q (Exec.fail t cause : Exec α) (Exec.fail t' cause : Exec β) :=
  .error cause (fun _ _ => rfl) fun _ _ => rfl

/-- Two steps that look at their heaps. -/
theorem heap {f : Heap → Exec α} {g : Heap → Exec β} (hfg : ReadOnly h h' t t' Q (f h) (g h')) :
    ReadOnly h h' t t' Q (do f (← get).heap) (do g (← get).heap) := by
  have hread {γ : Type} (f : Heap → Exec γ) {k : Heap} {m : Machine} (hm : m.heap = k) :
      (do f (← get).heap) m = f k m := by
    rw [← hm]
    rfl
  cases hfg with
  | ok hab hx hx' =>
    exact .ok hab (fun m hm => (hread f hm).trans (hx m hm))
      fun m hm => (hread g hm).trans (hx' m hm)
  | error cause hx hx' =>
    exact .error cause (fun m hm => (hread f hm).trans (hx m hm))
      fun m hm => (hread g hm).trans (hx' m hm)

/-- Reading the heap reads only. -/
theorem read (f : Heap → α) (g : Heap → β) (hfg : Q (f h) (g h')) :
    ReadOnly h h' t t' Q (do return f (← get).heap) (do return g (← get).heap) :=
  heap (f := fun k => Pure.pure (f k)) (g := fun k => Pure.pure (g k)) (pure hfg)

/-- A value that there is reads only, and so does its lack. -/
theorem orFail (cause : Cause) {y : Option α} {y' : Option β} (hy : Option.Rel Q y y') :
    ReadOnly h h' t t' Q (orFail t cause y) (orFail t' cause y') := by
  cases hy with
  | none => exact fail cause
  | some hab => exact pure hab

/-- Making a text reads only. -/
theorem textOf {v v' : Value} (hv : h'.text v' = h.text v) :
    ReadOnly h h' t t' (fun s s' => s' = s) (textOf v) (textOf v') :=
  read (·.text v) (·.text v') hv

/-- Making the text of a line reads only. -/
theorem lineText {vs vs' : List Value}
    (hvs : List.Forall₂ (fun v v' => h'.text v' = h.text v) vs vs') :
    ReadOnly h h' t t' (fun s s' => s' = s) (lineText vs) (lineText vs') := by
  have htexts : vs'.map h'.text = vs.map h.text := by
    induction hvs with
    | nil => rfl
    | cons hv _ ih => rw [List.map_cons, List.map_cons, hv, ih]
  exact read (fun k => String.intercalate " " (vs.map k.text))
    (fun k => String.intercalate " " (vs'.map k.text)) (by rw [htexts])

/-! ## Operators -/

section Operators

variable {V : Value → Value → Prop} {v v' w w' : Value} (hplain : ∀ v : Value, v.IsPlain → V v v)

include hplain

/-- A unary operator reads only. -/
theorem applyUnary (hkind : t'.kind = t.kind) (hv : v.Similar v') :
    ReadOnly h h' t t' V (applyUnary t v) (applyUnary t' v') := by
  unfold Eval.applyUnary
  rw [hkind]
  split
  · cases hv with
    | refl =>
      cases v with
      | number x => exact pure (hplain (.number _) trivial)
      | _ => exact fail _
    | _ => exact fail _
  · rw [hv.isTruthy]
    exact pure (hplain (.boolean _) trivial)
  · exact fail _

/-- Adding reads only. -/
theorem add (hv : v.Similar v') (hw : w.Similar w') (hvtext : h'.text v' = h.text v)
    (hwtext : h'.text w' = h.text w) :
    ReadOnly h h' t t' V (add t v w) (add t' v' w') := by
  have hjoin : ReadOnly h h' t t' V (do return .string ((← Exec.textOf v) ++ (← Exec.textOf w)))
      (do return .string ((← Exec.textOf v') ++ (← Exec.textOf w'))) := by
    refine bind (textOf hvtext) fun s s' hs => bind (textOf hwtext) fun u u' hu => ?_
    subst hs hu
    exact pure (hplain (.string _) trivial)
  -- Two numbers are added, a string is joined with anything, and nothing else has a sum.
  cases hv with
  | refl =>
    cases hw with
    | refl =>
      cases v with
      | number x =>
        cases w with
        | number y => exact pure (hplain (.number _) trivial)
        | string s => exact hjoin
        | _ => exact fail _
      | string s => cases w <;> exact hjoin
      | _ =>
        cases w with
        | string s => exact hjoin
        | _ => exact fail _
    | _ =>
      cases v with
      | string s => exact hjoin
      | _ => exact fail _
  | _ =>
    cases hw with
    | refl =>
      cases w with
      | string s => exact hjoin
      | _ => exact fail _
    | _ => exact fail _

/-- Arithmetic reads only. -/
theorem arithmetic (op : Float → Float → Float) (hv : v.Similar v') (hw : w.Similar w') :
    ReadOnly h h' t t' V (arithmetic t op v w) (arithmetic t' op v' w') := by
  cases hv with
  | refl =>
    cases hw with
    | refl =>
      cases v with
      | number x =>
        cases w with
        | number y => exact pure (hplain (.number _) trivial)
        | _ => exact fail _
      | _ => exact fail _
    | _ => cases v <;> exact fail _
  | _ => exact fail _

/-- A binary operator reads only. -/
theorem applyBinary (hkind : t'.kind = t.kind) (hv : v.Similar v') (hw : w.Similar w')
    (hvtext : h'.text v' = h.text v) (hwtext : h'.text w' = h.text w) :
    ReadOnly h h' t t' V (applyBinary t v w) (applyBinary t' v' w') := by
  have hboolean (b : Bool) :
      ReadOnly h h' t t' V (Pure.pure (.boolean b)) (Pure.pure (.boolean b)) :=
    pure (hplain (.boolean b) trivial)
  unfold Eval.applyBinary Value.less Value.lessEqual Value.greater Value.greaterEqual
  rw [hkind, hv.equal hw, hv.compare? hw]
  split
  · exact add hplain hv hw hvtext hwtext
  · exact arithmetic hplain _ hv hw
  · exact arithmetic hplain _ hv hw
  · exact arithmetic hplain _ hv hw
  · exact hboolean _
  · exact hboolean _
  · exact hboolean _
  · exact hboolean _
  · exact hboolean _
  · exact hboolean _
  · exact fail _

end Operators

/-! ## Elements -/

section Elements

variable {V : Value → Value → Prop} {v v' key key' : Value}

/-- The position that a key names is the same for similar keys. -/
theorem position (hkey : key.Similar key') (length : Nat) :
    ReadOnly h h' t t' (fun i i' => i' = i) (position t key length) (position t' key' length) := by
  cases hkey with
  | refl =>
    cases key with
    | number x =>
      unfold Eval.position
      dsimp only
      split
      · exact fail _
      · split
        · exact pure rfl
        · exact fail _
    | _ => exact fail _
  | _ => exact fail _

/-- The name that a key is for is the same for similar keys. -/
theorem keyName (hkey : key.Similar key') :
    ReadOnly h h' t t' (fun s s' => s' = s) (keyName t key) (keyName t' key') := by
  cases hkey with
  | refl =>
    cases key with
    | string s => exact pure rfl
    | number x => exact pure rfl
    | _ => exact fail _
  | _ => exact fail _

/-- Reading an element reads only. -/
theorem getElement (hplain : ∀ v : Value, v.IsPlain → V v v) (hh : h.Mirrors V h')
    (hv : v.Similar v') (hkey : key.Similar key') :
    ReadOnly h h' t t' V (getElement t v key) (getElement t' v' key') := by
  cases hv with
  | refl =>
    cases v with
    | array id =>
      refine heap
        (f := fun k => do
          return (k.elements id).getD (← Eval.position t key (k.elements id).size) .nil)
        (g := fun k => do
          return (k.elements id).getD (← Eval.position t' key' (k.elements id).size) .nil) ?_
      rw [hh.size_elements]
      refine bind (position hkey _) ?_
      rintro _ i rfl
      exact pure (hh.getD (hplain .nil trivial) id _)
    | string s =>
      refine bind (position hkey _) ?_
      rintro _ i rfl
      refine pure (hplain _ ?_)
      cases s.toList[i]? <;> exact trivial
    | object id =>
      refine bind (keyName hkey) ?_
      rintro _ name rfl
      have hfields (k : Heap) : ((k.objects[id]?.map Object.fields).getD []).lookup name =
          k.objects[id]?.bind (·.fields.lookup name) := by
        cases k.objects[id]? <;> rfl
      refine heap
        (f := fun k => Exec.orFail t (.undefinedProperty name)
          (((k.objects[id]?.map Object.fields).getD []).lookup name))
        (g := fun k => Exec.orFail t' (.undefinedProperty name)
          (((k.objects[id]?.map Object.fields).getD []).lookup name)) (orFail _ ?_)
      rw [hfields, hfields]
      exact hh.fields id name
    | _ => exact fail _
  | _ => exact fail _

/-- The built-in function that counts. -/
theorem len (hplain : ∀ v : Value, v.IsPlain → V v v) (hh : h.Mirrors V h') {vs vs' : List Value}
    (hvs : List.Forall₂ Value.Similar vs vs') :
    ReadOnly h h' t t' V (callNative .len vs t) (callNative .len vs' t') := by
  cases hvs with
  | nil => exact fail _
  | @cons v v' vs vs' hv hvs =>
    have hfail : ReadOnly h h' t t' V (Exec.fail t (.noLength v.typeName) : Exec Value)
        (Exec.fail t' (.noLength v'.typeName) : Exec Value) := by
      rw [hv.typeName]
      exact fail _
    cases hv with
    | refl =>
      cases v with
      | string s =>
        cases hvs with
        | nil => exact pure (hplain (.number _) trivial)
        | cons => exact hfail
      | array id =>
        cases hvs with
        | nil =>
          refine read (fun k => Value.number (Float.ofNat (k.elements id).size))
            (fun k => Value.number (Float.ofNat (k.elements id).size)) ?_
          rw [hh.size_elements]
          exact hplain (.number _) trivial
        | cons => exact hfail
      | _ => exact hfail
    | _ => exact hfail

end Elements

end ReadOnly

/-! ## What is left unchanged -/

/-- Looking at a frame leaves the machine as it is. -/
theorem eq_of_getFrom {holder : Option FrameId} {name : Token} {v : Value} {m m' : Machine}
    (h : getFrom holder name m = .ok v m') : m' = m := by
  have hget : getFrom holder name m = Exec.orFail name (.undefinedVariable name.lexeme)
      (holder.bind fun k => m.heap.frames.local? k name.lexeme) m := rfl
  rw [hget] at h
  cases hv : holder.bind fun k => m.heap.frames.local? k name.lexeme with
  | none =>
    rw [hv] at h
    contradiction
  | some x =>
    rw [hv] at h
    exact (EStateM.Result.ok.inj h).2.symm

/-- Looking for an object changes nothing. -/
theorem eq_of_object? {v : Value} {object : Option Object} {m m' : Machine}
    (h : object? v m = .ok object m') : m' = m := by
  cases v <;> exact (EStateM.Result.ok.inj h).2.symm

end Eval

end Lox
