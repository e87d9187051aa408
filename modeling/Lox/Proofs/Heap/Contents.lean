import Lox.Heap
import Mathlib.Data.List.Forall2

/-!
# What the heap holds

How looking into frames goes with making frames and binding names, and what holds of all values in
a heap: a property of values that is kept by each change of the heap, provided that the values put
into it have the property. Values that look the same in two heaps have the same text there
(`Heap.Looks.text`).
-/

namespace Lox

namespace Frames

variable (fs : Frames)

/-- A new frame is one more. -/
@[simp] theorem size_push (frame : Frame) : (fs.push frame).size = fs.size + 1 :=
  Array.size_push ..

/-- Binding a name makes no frame. -/
@[simp] theorem size_define (k : FrameId) (name : String) (value : Value) :
    (fs.define k name value).size = fs.size :=
  Array.size_modify ..

/-- The frames after a new one. -/
theorem getElem?_items_push (frame : Frame) (k : FrameId) :
    (fs.push frame).items[k]? = if k = fs.size then some frame else fs.items[k]? :=
  Array.getElem?_push

/-- The frames after a name is bound in one of them. -/
theorem getElem?_items_define (k k' : FrameId) (name : String) (value : Value) :
    (fs.define k name value).items[k']? =
      if k' = k then fs.items[k']?.map fun frame =>
        { frame with bindings := Bindings.insert name value frame.bindings }
      else fs.items[k']? := by
  unfold define
  rw [Array.getElem?_modify]
  simp only [eq_comm]

/-- A new frame has its bindings, and the others keep theirs. -/
theorem local?_push (frame : Frame) (k : FrameId) (name : String) :
    (fs.push frame).local? k name =
      if k = fs.size then frame.bindings.lookup name else fs.local? k name := by
  unfold local? push size
  rw [Array.getElem?_push]
  split <;> rfl

/-- A new frame has its place in a chain, and the others keep theirs. -/
theorem enclosing?_push (frame : Frame) (k : FrameId) :
    (fs.push frame).enclosing? k = if k = fs.size then frame.enclosing else fs.enclosing? k := by
  unfold enclosing? push size
  rw [Array.getElem?_push]
  split <;> rfl

/-- A name that is bound in a frame has its value there, and all else is as before. -/
theorem local?_define (k k' : FrameId) (name name' : String) (value : Value) :
    (fs.define k name value).local? k' name' =
      if k' = k ∧ k < fs.size ∧ name' = name then some value else fs.local? k' name' := by
  unfold local? define size
  simp only [Array.getElem?_modify]
  by_cases hk : k = k'
  · subst hk
    by_cases hlt : k < fs.items.size
    · simp [hlt, Bindings.lookup_insert]
    · simp [hlt]
  · simp [hk, Ne.symm hk]

/-- Binding a name leaves the chains as they are. -/
@[simp] theorem enclosing?_define (k k' : FrameId) (name : String) (value : Value) :
    (fs.define k name value).enclosing? k' = fs.enclosing? k' := by
  unfold enclosing? define
  simp only [Array.getElem?_modify]
  split
  · cases fs.items[k']? <;> rfl
  · rfl

/-- Only a frame that exists has another one around it. -/
theorem lt_size_of_enclosing? {k outer : FrameId} (h : fs.enclosing? k = some outer) :
    k < fs.size := by
  unfold enclosing? at h
  obtain ⟨frame, hframe, _⟩ := Option.bind_eq_some_iff.mp h
  exact (Array.getElem?_eq_some_iff.mp hframe).1

/-- The nearest frame that binds a name binds it. -/
theorem isSome_of_holder? {fs : Frames} {k holder : FrameId} {name : String}
    (h : fs.holder? k name = some holder) : (fs.local? holder name).isSome := by
  fun_induction holder? fs k name with
  | case1 k hbound =>
    obtain rfl := Option.some.inj h
    exact hbound
  | case2 => contradiction
  | case3 k _ outer _ _ ih => exact ih h
  | case4 => contradiction

/-- A frame at a distance that binds a name binds it. -/
theorem isSome_of_holderAt? {fs : Frames} {k holder : FrameId} {distance : Nat} {name : String}
    (h : fs.holderAt? k distance name = some holder) : (fs.local? holder name).isSome :=
  (Option.filter_eq_some_iff.mp h).2

end Frames

mutual

/-- The methods of a class and of all classes it inherits from. -/
def Class.functions : Class → List Function
  | ⟨_, _, superclasses, methods⟩ => methods.map Prod.snd ++ classFunctions superclasses

/-- The methods of several classes and of all classes they inherit from. -/
def classFunctions : List Class → List Function
  | [] => []
  | c :: cs => c.functions ++ classFunctions cs

end

/-- A method of several classes is a method of one of them. -/
theorem exists_of_mem_classFunctions {cs : List Class} {f : Function} (h : f ∈ classFunctions cs) :
    ∃ c ∈ cs, f ∈ c.functions := by
  induction cs with
  | nil => simp [classFunctions] at h
  | cons c cs ih =>
    rw [classFunctions] at h
    obtain h | h := List.mem_append.mp h
    · exact ⟨c, List.mem_cons_self, h⟩
    · obtain ⟨c', hc', h⟩ := ih h
      exact ⟨c', List.mem_cons_of_mem _ hc', h⟩

mutual

/-- A method that is found is one of the methods of the class. -/
theorem Class.mem_functions_of_findMethod {name : String} {f : Function} :
    (c : Class) → c.findMethod name = some f → f ∈ c.functions
  | ⟨_, _, superclasses, methods⟩, h => by
    rw [Class.findMethod] at h
    rw [Class.functions]
    split at h
    · next method hmethod =>
      obtain rfl : method = f := Option.some.inj h
      obtain ⟨l, r, hsplit, _⟩ := List.lookup_eq_some_iff.mp hmethod
      exact List.mem_append_left _ (List.mem_map.mpr ⟨(name, method), by simp [hsplit], rfl⟩)
    · exact List.mem_append_right _ (mem_classFunctions_of_findInherited superclasses h)

/-- A method that is found in several classes is one of their methods. -/
theorem mem_classFunctions_of_findInherited {name : String} {f : Function} :
    (cs : List Class) → findInherited name cs = some f → f ∈ classFunctions cs
  | [], h => by simp [findInherited] at h
  | c :: cs, h => by
    rw [findInherited] at h
    rw [classFunctions]
    split at h
    · next method hmethod =>
      obtain rfl : method = f := Option.some.inj h
      exact List.mem_append_left _ (Class.mem_functions_of_findMethod c hmethod)
    · exact List.mem_append_right _ (mem_classFunctions_of_findInherited cs h)

end

/-- A method that is found in the superclasses of a class is one of its methods. -/
theorem Class.mem_functions_of_findInherited {name : String} {f : Function} (c : Class)
    (h : findInherited name c.superclasses = some f) : f ∈ c.functions := by
  obtain ⟨id, className, superclasses, methods⟩ := c
  rw [Class.functions]
  exact List.mem_append_right _ (mem_classFunctions_of_findInherited superclasses h)

/-- Every value in a heap has a property, and so has the class of every object. -/
structure Heap.Holds (P : Value → Prop) (h : Heap) : Prop where
  /-- The values that names are bound to. -/
  bound : ∀ k name v, h.frames.local? k name = some v → P v
  /-- The classes of objects. -/
  classes : ∀ object ∈ h.objects, P (.class object.cls)
  /-- The fields of objects. -/
  fields : ∀ object ∈ h.objects, ∀ name v, object.fields.lookup name = some v → P v
  /-- The elements of arrays. -/
  elements : ∀ elements ∈ h.arrays, ∀ v ∈ elements, P v

namespace Heap.Holds

variable {P Q : Value → Prop} {h : Heap}

/-- What the values satisfy may be weakened. -/
theorem imp (hh : h.Holds P) (hPQ : ∀ v, P v → Q v) : h.Holds Q where
  bound k name v hv := hPQ v (hh.bound k name v hv)
  classes object ho := hPQ _ (hh.classes object ho)
  fields object ho name v hv := hPQ v (hh.fields object ho name v hv)
  elements elements he v hv := hPQ v (hh.elements elements he v hv)

/-- A new frame holds what its bindings hold. -/
theorem push (hh : h.Holds P) (frame : Frame)
    (hframe : ∀ name v, frame.bindings.lookup name = some v → P v) :
    Holds P { h with frames := h.frames.push frame } := by
  refine { hh with bound := fun k name v hv => ?_ }
  rw [Frames.local?_push] at hv
  split at hv
  · exact hframe name v hv
  · exact hh.bound k name v hv

/-- Binding a name keeps what the values satisfy. -/
theorem define (hh : h.Holds P) (k : FrameId) (name : String) {value : Value} (hvalue : P value) :
    Holds P { h with frames := h.frames.define k name value } := by
  refine { hh with bound := fun k' name' v hv => ?_ }
  rw [Frames.local?_define] at hv
  split at hv
  · exact Option.some.inj hv ▸ hvalue
  · exact hh.bound k' name' v hv

/-- A new object holds what its class and fields hold. -/
theorem newObject (hh : h.Holds P) (object : Object) (hclass : P (.class object.cls))
    (hfields : ∀ name v, object.fields.lookup name = some v → P v) :
    Holds P { h with objects := h.objects.push object } := by
  refine { hh with classes := fun o ho => ?_, fields := fun o ho => ?_ }
  · obtain ho | rfl := Array.mem_push.mp ho
    · exact hh.classes o ho
    · exact hclass
  · obtain ho | rfl := Array.mem_push.mp ho
    · exact hh.fields o ho
    · exact hfields

/-- Setting a field keeps what the values satisfy. -/
theorem setField (hh : h.Holds P) (id : ObjectId) (name : String) {value : Value}
    (hvalue : P value) :
    Holds P { h with objects := h.objects.modify id fun object =>
      { object with fields := Bindings.insert name value object.fields } } := by
  -- Each object was there before, up to one field.
  have hcases : ∀ o ∈ h.objects.modify id fun object =>
      { object with fields := Bindings.insert name value object.fields },
      ∃ o' ∈ h.objects, o = o' ∨
        o = { o' with fields := Bindings.insert name value o'.fields } := by
    intro o ho
    obtain ⟨i, hi, rfl⟩ := Array.mem_iff_getElem.mp ho
    rw [Array.size_modify] at hi
    refine ⟨h.objects[i], Array.getElem_mem hi, ?_⟩
    rw [Array.getElem_modify]
    split
    · exact .inr rfl
    · exact .inl rfl
  refine { hh with classes := fun o ho => ?_, fields := fun o ho n v hv => ?_ }
  · obtain ⟨o', ho', rfl | rfl⟩ := hcases o ho
    · exact hh.classes o ho'
    · exact hh.classes o' ho'
  · obtain ⟨o', ho', rfl | rfl⟩ := hcases o ho
    · exact hh.fields o ho' n v hv
    · rw [Bindings.lookup_insert] at hv
      split at hv
      · exact Option.some.inj hv ▸ hvalue
      · exact hh.fields o' ho' n v hv

/-- A new array holds what its elements hold. -/
theorem newArray (hh : h.Holds P) (elements : List Value) (helements : ∀ v ∈ elements, P v) :
    Holds P { h with arrays := h.arrays.push elements.toArray } := by
  refine { hh with elements := fun xs hxs => ?_ }
  obtain hxs | rfl := Array.mem_push.mp hxs
  · exact hh.elements xs hxs
  · simpa using helements

/-- Setting an element keeps what the values satisfy. -/
theorem setElement (hh : h.Holds P) (id : ArrayId) (index : Nat) {value : Value}
    (hvalue : P value) :
    Holds P { h with arrays := h.arrays.modify id fun elements =>
      elements.setIfInBounds index value } := by
  refine { hh with elements := fun xs hxs v hv => ?_ }
  obtain ⟨i, hi, rfl⟩ := Array.mem_iff_getElem.mp hxs
  simp only [Array.size_modify] at hi
  simp only [Array.getElem_modify] at hv
  split at hv
  · obtain hv | rfl := Array.mem_or_eq_of_mem_setIfInBounds hv
    · exact hh.elements _ (Array.getElem_mem hi) v hv
    · exact hvalue
  · exact hh.elements _ (Array.getElem_mem hi) v hv

/-- The elements of an array are values in the heap. -/
theorem element (hh : h.Holds P) {id : ArrayId} {v : Value} (hv : v ∈ h.elements id) : P v := by
  unfold Heap.elements at hv
  rw [Array.getD_eq_getD_getElem?] at hv
  cases hid : h.arrays[id]? with
  | none => simp [hid] at hv
  | some xs =>
    rw [hid] at hv
    exact hh.elements xs (Array.mem_of_getElem? hid) v hv

end Heap.Holds

namespace Heap

/-! ## Texts -/

/-- The text of an element of an array: a string is shown in quotes. -/
def elementText (text : Value → String) : Value → String
  | .string s => "\"" ++ s ++ "\""
  | v => text v

/-- The text of a value within the arrays `around`. The first argument bounds how deep arrays are
opened. -/
def textWithin (h : Heap) : Nat → List ArrayId → Value → String
  | 0, _, v => h.simpleText v
  | depth + 1, around, .array id =>
    if around.contains id then "[...]"
    else
      let items := (h.elements id).toList.map (elementText (h.textWithin depth (id :: around)))
      "[" ++ String.intercalate ", " items ++ "]"
  | _ + 1, _, v => h.simpleText v

/-- Elements are written out one after the other, each with the stack as it was before the first. -/
theorem run_mapM_renderElement {render : Value → Rendering String} {text : Value → String}
    {stack : List ArrayId} (h : ∀ v, (render v).run stack = (text v, stack)) (vs : List Value) :
    (vs.mapM (renderElement render)).run stack = (vs.map (elementText text), stack) := by
  have helement (v : Value) :
      (renderElement render v).run stack = (elementText text v, stack) := by
    cases v with
    | string s => rfl
    | _ => exact h _
  induction vs with
  | nil => rfl
  | cons v vs ih =>
    rw [List.mapM_cons, StateT.run_bind, helement]
    show ((vs.mapM (renderElement render) >>= _).run stack) = _
    rw [StateT.run_bind, ih]
    rfl

/-- To write out a value gives its text, and gives back the stack. -/
theorem run_render (h : Heap) (depth : Nat) (v : Value) (stack : List ArrayId) :
    (h.render depth v).run stack = (h.textWithin depth stack v, stack) := by
  induction depth generalizing v stack with
  | zero => rfl
  | succ depth ih =>
    cases v with
    | array id =>
      have hitems := run_mapM_renderElement (ih · (id :: stack)) (h.elements id).toList
      unfold render textWithin
      rw [StateT.run_bind, StateT.run_get, pure_bind]
      split
      · rfl
      · rw [StateT.run_bind, StateT.run_modify, pure_bind, StateT.run_bind, hitems]
        rfl
    | _ => rfl

/-- The text of a value is its text within no array. -/
theorem text_eq (h : Heap) (v : Value) : h.text v = h.textWithin (h.arrays.size + 1) [] v :=
  congrArg Prod.fst (h.run_render _ v [])

end Heap

/-- Related values look the same in two heaps: both are the same array or the same string, or their
texts do not depend on the arrays. -/
structure Heap.Looks (V : Value → Value → Prop) (h h' : Heap) : Prop where
  /-- As long as no array is opened, the texts are the same. -/
  simple : ∀ v v', V v v' → h'.simpleText v' = h.simpleText v
  /-- Both are one array or neither is. -/
  array : ∀ v v', V v v' → ∀ id, v = .array id ↔ v' = .array id
  /-- Both are one string or neither is. -/
  string : ∀ v v', V v v' → ∀ s, v = .string s ↔ v' = .string s
  /-- Arrays have related elements. -/
  elements : ∀ id, List.Forall₂ V (h.elements id).toList (h'.elements id).toList
  /-- There are as many arrays. -/
  size : h'.arrays.size = h.arrays.size

namespace Heap.Looks

variable {V : Value → Value → Prop} {h h' : Heap}

/-- What is no array has its simple text. -/
theorem textWithin_of_ne_array (h : Heap) (depth : Nat) (around : List ArrayId) {v : Value}
    (hv : ∀ id, v ≠ .array id) : h.textWithin depth around v = h.simpleText v := by
  cases depth with
  | zero => rfl
  | succ depth =>
    cases v with
    | array id => exact absurd rfl (hv id)
    | _ => rfl

/-- Elements that look the same have the same text. -/
theorem elementText_eq (hh : Looks V h h') {text text' : Value → String} {v v' : Value}
    (hv : V v v') (htext : text' v' = text v) :
    elementText text' v' = elementText text v := by
  have hstring := hh.string v v' hv
  cases v with
  | string s =>
    obtain rfl := (hstring s).mp rfl
    rfl
  | _ =>
    cases v' with
    | string s => exact absurd ((hstring s).mpr rfl) Value.noConfusion
    | _ => exact htext

/-- Values that look the same have the same text. -/
theorem textWithin (hh : Looks V h h') (depth : Nat) (around : List ArrayId) {v v' : Value}
    (hv : V v v') : h'.textWithin depth around v' = h.textWithin depth around v := by
  induction depth generalizing around v v' with
  | zero => exact hh.simple v v' hv
  | succ depth ih =>
    have harray := hh.array v v' hv
    by_cases hopens : ∃ id, v = .array id
    · obtain ⟨id, rfl⟩ := hopens
      obtain rfl := (harray id).mp rfl
      unfold Heap.textWithin
      -- The elements are shown one by one.
      have hitems : (h'.elements id).toList.map (elementText (h'.textWithin depth (id :: around)))
          = (h.elements id).toList.map (elementText (h.textWithin depth (id :: around))) := by
        have hrel := hh.elements id
        revert hrel
        generalize (h.elements id).toList = vs
        generalize (h'.elements id).toList = vs'
        intro hrel
        induction hrel with
        | nil => rfl
        | cons hv _ ihs => rw [List.map_cons, List.map_cons, hh.elementText_eq hv (ih _ hv), ihs]
      dsimp only
      rw [hitems]
    · rw [textWithin_of_ne_array h _ _ fun id hid => hopens ⟨id, hid⟩,
        textWithin_of_ne_array h' _ _ fun id hid => hopens ⟨id, (harray id).mpr hid⟩]
      exact hh.simple v v' hv

/-- Values that look the same have the same text. -/
theorem text (hh : Looks V h h') {v v' : Value} (hv : V v v') : h'.text v' = h.text v := by
  rw [Heap.text_eq, Heap.text_eq, hh.size]
  exact hh.textWithin _ _ hv

end Heap.Looks

end Lox
