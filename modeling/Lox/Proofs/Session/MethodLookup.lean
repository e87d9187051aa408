import Lox.Proofs.Session.FrameForest

/-!
# Method lookup

A method is looked up along the lineage of a class, and the lineage of every class that a session
ever stores leads back in time: a class is made after its superclasses. This is part of what it
means that the values in a machine are sound, and they are in every state that a session passes.
-/

namespace Lox

open Eval

/-- The first class of several that has a method of a name has this one. -/
def FirstHas (cs : List Class) (name : String) (f : Function) : Prop :=
  ∃ before c after, cs = before ++ c :: after ∧ c.own? name = some f ∧
    ∀ d ∈ before, d.own? name = none

/-- A machine has a class: it is stored somewhere, or it is the class of written-out objects. -/
def Machine.HasClass (m : Machine) (c : Class) : Prop :=
  m.heap.Stores (.class c) ∨ c = m.objectClass

/-- The classes of a machine were made before the next thing is, and after their superclasses. -/
theorem Eval.Setting.Inv.foundedBefore {S : Setting} {m : Machine} (hm : S.Inv m) {c : Class}
    (hc : m.HasClass c) : c.FoundedBefore m.heap.nextIdentity := by
  obtain hc | rfl := hc
  · exact (hm.holds.of_stores hc).2
  · exact hm.objectClass.2

/-- A method is the one of the first class in the lineage that has a method of its name, and there
is none exactly if no class in the lineage has one. For `super` the same holds of the lineage
without the class itself. A call of a class takes as many arguments as the `init` that is found so,
or none. The lineage of a class never leads back to it: whatever a session has been through, and
whatever the clock showed and the output took, a class that it has was made before, and every class
in its lineage was made strictly after its superclasses. -/
theorem Session.lookup_follows_lineage :
    (∀ (c : Class) (name : String),
      (∀ f, c.findMethod name = some f ↔ FirstHas c.lineage name f) ∧
      (c.findMethod name = none ↔ ∀ d ∈ c.lineage, d.own? name = none) ∧
      (∀ f, findInherited name c.superclasses = some f ↔ FirstHas c.lineage.tail name f) ∧
      (findInherited name c.superclasses = none ↔ ∀ d ∈ c.lineage.tail, d.own? name = none)) ∧
    (∀ c : Class, ∃ count, Value.arity? (.class c) = some (.exactly count) ∧
      (∀ f, FirstHas c.lineage "init" f → count = f.decl.arity) ∧
      ((∀ d ∈ c.lineage, d.own? "init" = none) → count = 0)) ∧
    ∀ sink clock turns m, (start sink clock).Passes turns m → ∀ c, m.HasClass c → ∀ d ∈ c.lineage,
      d.id < m.heap.nextIdentity ∧ ∀ s ∈ d.superclasses, s.id < d.id := by
  have hfound (c : Class) (name : String) (f : Function) :
      c.findMethod name = some f ↔ FirstHas c.lineage name f := by
    rw [Class.findMethod_eq, List.findSome?_eq_some_iff]
    rfl
  have hnone (c : Class) (name : String) :
      c.findMethod name = none ↔ ∀ d ∈ c.lineage, d.own? name = none := by
    rw [Class.findMethod_eq, List.findSome?_eq_none_iff]
  refine ⟨fun c name => ⟨hfound c name, hnone c name, fun f => ?_, ?_⟩, fun c => ?_,
    fun sink clock turns m hm c hc d hd => ?_⟩
  · rw [findInherited_eq, Class.lineage_eq, List.tail_cons, List.findSome?_eq_some_iff]
    rfl
  · rw [findInherited_eq, Class.lineage_eq, List.tail_cons, List.findSome?_eq_none_iff]
  · refine ⟨c.arity, rfl, fun f hf => ?_, fun hinit => ?_⟩
    · rw [Class.arity, (hfound c "init" f).mpr hf]
    · rw [Class.arity, (hnone c "init").mpr hinit]
  · obtain ⟨S, hinv⟩ := hm.inv
    have hfounded := (hinv.foundedBefore hc).lineage hd
    exact ⟨hfounded.id_lt, fun s hs => (hfounded.superclass hs).id_lt⟩

namespace Session

/-- A source whose last class inherits from two classes, which both inherit from the first one:
`class A{m(){}} class B<A{} class C<A{m(x){}init(x){}}class D<B,C{}`. -/
def diamondSource : String :=
  "class A\x7bm()\x7b\x7d\x7d class B<A\x7b\x7d class C<A\x7bm(x)\x7b\x7dinit(x)\x7b\x7d\x7d" ++
    "class D<B,C\x7b\x7d"

/-- The machine once it has run. -/
def diamondMachine : Machine :=
  ((start {} {}).after [.source 9 diamondSource]).machine

/-- The class that a global name is bound to. -/
def globalClass? (m : Machine) (name : String) : Option Class :=
  match m.heap.frames.local? m.globals name with
  | some (.class c) => some c
  | _ => none

/-- A class that a global variable holds is in the machine. -/
theorem hasClass_of_globalClass? {m : Machine} {name : String} {c : Class}
    (h : globalClass? m name = some c) : m.HasClass c := by
  unfold globalClass? at h
  split at h
  · next c' hc =>
    obtain rfl := Option.some.inj h
    exact .inl (.bound hc)
  · contradiction

/-- The class that is inherited from twice comes before the second one that inherits from it, so its
method is found and not the one that overrides it there. -/
theorem lookup_in_diamond :
    (start {} {}).Passes [.source 9 diamondSource] diamondMachine ∧
      ∃ c f g, diamondMachine.HasClass c ∧
        c.lineage.map Class.name = ["D", "B", "A", "C", "A"] ∧
        FirstHas c.lineage "m" f ∧ f.decl.arity = 0 ∧
        FirstHas c.lineage "init" g ∧ Value.arity? (.class c) = some (.exactly g.decl.arity) ∧
        ∀ d ∈ c.lineage, d.id < diamondMachine.heap.nextIdentity ∧
          ∀ s ∈ d.superclasses, s.id < d.id := by
  have hpasses : (start {} {}).Passes [.source 9 diamondSource] diamondMachine :=
    .between List.prefix_rfl
  have hrun : (globalClass? diamondMachine "D").map (fun c =>
      (c.lineage.map Class.name, (c.findMethod "m").map (·.decl.arity),
        (c.findMethod "init").map (·.decl.arity))) =
      some (["D", "B", "A", "C", "A"], some 0, some 1) := by decide +kernel
  obtain ⟨c, hc, heq⟩ := Option.map_eq_some_iff.mp hrun
  obtain ⟨hnames, hboth⟩ := Prod.mk.inj heq
  obtain ⟨hmethod, hinit⟩ := Prod.mk.inj hboth
  obtain ⟨f, hf, harity⟩ := Option.map_eq_some_iff.mp hmethod
  obtain ⟨g, hg, _⟩ := Option.map_eq_some_iff.mp hinit
  obtain ⟨hlookup, hcalls, hfounded⟩ := lookup_follows_lineage
  have hfirst := ((hlookup c "init").1 g).mp hg
  obtain ⟨count, hcount, hfound, _⟩ := hcalls c
  rw [hfound g hfirst] at hcount
  have hclass := hasClass_of_globalClass? hc
  exact ⟨hpasses, c, f, g, hclass, hnames, ((hlookup c "m").1 f).mp hf, harity, hfirst, hcount,
    hfounded _ _ _ _ hpasses c hclass⟩

end Session

end Lox
