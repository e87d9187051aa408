import Lox.Proofs.Eval.Tracing

/-!
# What a task leaves as it is

However a task ends, the machine is in the same frame as before, and it has the same globals, table
of distances and class of written-out objects; what the program has made stays, and so do the values
of names that no moment within the task binds (`Moment.Avoids.restores`). What any moment within it
leaves behind is still there when it has ended (`Moment.Avoids.later`). And frames change only at
the moments that a task reaches (`Moment.evolves`). All this is read off the path that a moment
spans: each move on it keeps what is kept, and the tasks on it do by induction over the run.
-/

namespace Lox.Eval

open Exec

variable {keep : String → Prop} {μ μ' : Moment} {m m' : Machine}

namespace Moment

/-- Frames change at a moment without loss, and a kept name has the value it had if the moment does
not bind it. -/
theorem Changes.later {fs fs' : Frames} (h : μ.Changes fs fs') (hfs : m.heap.frames = fs)
    (hbinds : ∀ name, μ.Binds name → ¬keep name) :
    m.Later keep { m with heap.frames := fs' } := by
  cases h with
  | block | call | receiver | inheritance _ _ =>
    rw [← hfs]
    exact .push _
  | declare h value =>
    rw [← hfs]
    exact .define _ (hbinds _ h.binds) value
  | assign h _ value =>
    rw [← hfs]
    exact .define _ (hbinds _ h) value

/-- So does what happens on a path, if the tasks on it restore the context. -/
theorem Path.later (h : μ.Path m m') (hbinds : ∀ name, μ.Binds name → ¬keep name)
    (hcalls : ∀ μ', Calls μ μ' → μ'.machine.Restores keep μ'.final) :
    m.Later keep m' ∧ m'.distances = m.distances ∧ m'.objectClass = m.objectClass := by
  induction h with
  | refl => exact ⟨.refl m, rfl, rfl⟩
  | tail _ hmove ih =>
    obtain ⟨hlater, hdistances, hclass⟩ := ih
    cases hmove with
    | aside h =>
      exact ⟨hlater.trans (.of_beside (d := _) h), h.distances.trans hdistances,
        h.objectClass.trans hclass⟩
    | change h => exact ⟨hlater.trans (h.later rfl hbinds), hdistances, hclass⟩
    | call h =>
      have hcall := hcalls _ h
      exact ⟨hlater.trans hcall.toLater, hcall.distances.trans hdistances,
        hcall.objectClass.trans hclass⟩

/-- However a moment ends, the context is as it was. -/
theorem Avoids.restores (h : μ.Avoids keep) : μ.machine.Restores keep μ.final := by
  induction μ using Moment.induction with
  | step μ ih =>
    obtain ⟨hlater, hdistances, hclass⟩ :=
      μ.spans.path.later (fun _ => h.binds) fun μ' hcall => ih μ' hcall (h.step hcall)
    exact ⟨hlater, μ.spans.current, hdistances, hclass⟩

/-- What is there at some point of a path is there at its end. -/
theorem Avoids.path (h : μ.Avoids keep) (hpath : μ.Path m m') :
    m.Later keep m' ∧ m'.distances = m.distances ∧ m'.objectClass = m.objectClass :=
  hpath.later (fun _ => h.binds) fun _ hcall => (h.step hcall).restores

/-- What a moment leaves behind is there when the moments around it have ended. -/
theorem Avoids.later (h : μ.Avoids keep) (hreach : μ.Reaches μ') :
    μ'.final.Later keep μ.final := by
  induction hreach using Relation.ReflTransGen.head_induction_on with
  | refl => exact .refl _
  | @head μ _ hcall _ ih =>
    exact (ih (h.step hcall)).trans (h.path (μ.spans.passes _ hcall).2).1

/-- Frames change on a path only at moments that are reached, if they do so in the tasks on it. -/
theorem Path.evolves (h : μ.Path m m')
    (hcalls : ∀ μ', Calls μ μ' → Evolves μ'.Reaches μ'.machine.heap.frames μ'.final.heap.frames) :
    Evolves μ.Reaches m.heap.frames m'.heap.frames := by
  induction h with
  | refl => exact .refl
  | tail _ hmove ih =>
    cases hmove with
    | aside h => exact h.frames ▸ ih
    | change h => exact ih.tail ⟨μ, .refl, h⟩
    | call h => exact ih.trans ((hcalls _ h).mono fun _ hreach => .head h hreach)

/-- Every task changes frames only at moments that it reaches. -/
theorem evolves (μ : Moment) :
    Evolves μ.Reaches μ.machine.heap.frames μ.final.heap.frames := by
  induction μ using Moment.induction with
  | step μ ih => exact μ.spans.path.evolves ih

end Moment

/-- A task that has ended leaves the context as it was. -/
theorem Task.restores {t : Task} {a : t.Result} (h : t.run m = .ok a m') :
    m.Restores (fun _ => False) m' := by
  have hrestores := (Moment.avoids_none ⟨t, m⟩).restores
  rwa [show Moment.final ⟨t, m⟩ = m' by rw [Moment.final, h]; rfl] at hrestores

/-- A moment within a task starts with the frames and the distances that were there before. -/
theorem Calls.keeps (h : Calls μ μ') :
    μ.machine.Keeps μ'.machine ∧ μ'.machine.distances = μ.machine.distances := by
  obtain ⟨hlater, hdistances, _⟩ := μ.avoids_none.path (μ.spans.passes _ h).1
  exact ⟨hlater.toKeeps, hdistances⟩

end Lox.Eval
