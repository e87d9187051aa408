import Lox.Value
import Mathlib.Data.List.Basic

/-!
# Lineages of classes

The lineage of a class is the class itself and then the lineages of its superclasses in declared
order; a class that is inherited from twice occurs twice. A method is looked up in the order of the
lineage: the first class that has a method of the name in its own table gives it. A lookup for
`super` does the same without the class itself, and a call of a class takes the arguments of the
`init` that is found.

Identities are given out in the order in which things are made. A class is founded before a number
if its identity is smaller and its superclasses are founded before that identity, so that along its
lineage every class was made after its superclasses.
-/

namespace Lox

mutual

/-- A class and all classes that it inherits from, in the order in which methods are looked up. -/
def Class.lineage : Class → List Class
  | ⟨id, name, superclasses, methods⟩ =>
    ⟨id, name, superclasses, methods⟩ :: lineageOfAll superclasses

/-- The lineages of several classes, one after the other. -/
def lineageOfAll : List Class → List Class
  | [] => []
  | c :: cs => c.lineage ++ lineageOfAll cs

end

namespace Class

/-- The method that a class itself has under a name. -/
def own? (name : String) (c : Class) : Option Function :=
  c.methods.lookup name

/-- A lineage starts with its class. -/
theorem lineage_eq (c : Class) : c.lineage = c :: lineageOfAll c.superclasses := by
  obtain ⟨id, name, superclasses, methods⟩ := c
  rw [lineage]

end Class

/-- The lineage of classes is that of each of them. -/
theorem mem_lineageOfAll {cs : List Class} {d : Class} :
    d ∈ lineageOfAll cs ↔ ∃ c ∈ cs, d ∈ c.lineage := by
  induction cs with
  | nil => simp [lineageOfAll]
  | cons c cs ih => simp [lineageOfAll, ih]

/-! ## Lookup -/

mutual

/-- A method is found in the first class of the lineage that has one of its name. -/
theorem Class.findMethod_eq (name : String) :
    (c : Class) → c.findMethod name = c.lineage.findSome? (Class.own? name)
  | ⟨id, className, superclasses, methods⟩ => by
    rw [Class.findMethod, Class.lineage, List.findSome?_cons, Class.own?,
      findInherited_eq name superclasses]
    cases methods.lookup name <;> rfl

/-- A method is found in the first class that has one of its name, along the lineages of several
classes. -/
theorem findInherited_eq (name : String) :
    (cs : List Class) → findInherited name cs = (lineageOfAll cs).findSome? (Class.own? name)
  | [] => rfl
  | c :: cs => by
    rw [findInherited, lineageOfAll, List.findSome?_append, Class.findMethod_eq name c,
      findInherited_eq name cs]
    cases c.lineage.findSome? (Class.own? name) <;> rfl

end

/-! ## The order in which classes are made -/

/-- A class was made before the thing with the identity `n`, and all classes in its lineage were
made after their superclasses. -/
inductive Class.FoundedBefore : Nat → Class → Prop
  | mk {n : Nat} {c : Class} (hid : c.id < n)
      (hsuperclasses : ∀ d ∈ c.superclasses, Class.FoundedBefore c.id d) : FoundedBefore n c

namespace Class.FoundedBefore

variable {n n' : Nat} {c : Class}

/-- A class founded before an identity has a smaller one. -/
theorem id_lt (h : c.FoundedBefore n) : c.id < n := by
  cases h with
  | mk hid _ => exact hid

/-- A superclass is founded before its class. -/
theorem superclass (h : c.FoundedBefore n) {d : Class} (hd : d ∈ c.superclasses) :
    d.FoundedBefore c.id := by
  cases h with
  | mk _ hsuperclasses => exact hsuperclasses d hd

/-- The identity may be raised. -/
theorem mono (h : c.FoundedBefore n) (hn : n ≤ n') : c.FoundedBefore n' :=
  .mk (Nat.lt_of_lt_of_le h.id_lt hn) fun _ hd => h.superclass hd

/-- All classes in the lineage were made before too. -/
theorem lineage (h : c.FoundedBefore n) {d : Class} (hd : d ∈ c.lineage) : d.FoundedBefore n := by
  induction h with
  | @mk n c hid hsuperclasses ih =>
    rw [lineage_eq] at hd
    obtain rfl | hd := List.mem_cons.mp hd
    · exact .mk hid hsuperclasses
    · obtain ⟨s, hs, hd⟩ := mem_lineageOfAll.mp hd
      exact (ih s hs hd).mono (Nat.le_of_lt hid)

end Class.FoundedBefore

end Lox
