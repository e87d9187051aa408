import Lox.Proofs.Scoping.Known
import Lox.Proofs.Session.Performing
import Lox.Proofs.Session.Readings

/-!
# Twin sessions

Two sessions whose machines differ in their tables of distances only stay so in every turn, and they
give the same, whatever distances each of them forgets (`Session.Fit.turn`). What carries the proof
is that both tables hold what scoping found for every function that a value may still call. These
functions come from visits of the past. A job adds its own visits; if it makes no closure, no
function comes from them, and their distances may go once it is done.
-/

namespace Lox.Scoping.Distances

/-- The tables agree on references below a number. -/
def AgreeBelow (n : Nat) (d e : Distances) : Prop :=
  ∀ id < n, e.find? id = d.find? id

namespace AgreeBelow

variable {n n' : Nat} {d e f : Distances}

/-- Distances agree with themselves. -/
theorem refl (n : Nat) (d : Distances) : d.AgreeBelow n d :=
  fun _ _ => rfl

/-- Agreement is transitive. -/
theorem trans (h : d.AgreeBelow n e) (h' : e.AgreeBelow n f) : d.AgreeBelow n f :=
  fun id hid => (h' id hid).trans (h id hid)

/-- The bound may be lowered. -/
theorem mono (h : d.AgreeBelow n' e) (hn : n ≤ n') : d.AgreeBelow n e :=
  fun id hid => h id (Nat.lt_of_lt_of_le hid hn)

end AgreeBelow

end Lox.Scoping.Distances

namespace Lox.Eval.Setting

open Scoping

section Transfer

variable {S S₂ : Setting} {m : Machine}

/-- The invariant goes over to a setting in which the same functions may be called. -/
theorem Inv.transfer (hm : S.Inv m) (hmade : S₂.made = S.made) (hknown : S₂.known = S.known)
    (hlive : ∀ v f, S.live v → v.piece = .function f → S₂.live v) {d : Distances}
    (hd : S₂.tables d) : S₂.Inv (m.withTable d) := by
  have hkeeps : m.Keeps (m.withTable d) := .of_frames_eq rfl rfl (Nat.le_refl _)
  have hsound : ∀ x, S.Sound m x → S₂.Sound (m.withTable d) x := by
    intro x hx
    cases x with
    | function id f =>
      obtain ⟨hf, v, hv, hpiece, haligned⟩ := hx
      exact ⟨hknown ▸ hf, v, hlive v _ hv hpiece, hpiece, hmade ▸ haligned.mono hkeeps⟩
    | «class» c =>
      refine ⟨fun f hf => ?_, hx.2⟩
      obtain ⟨hinit, v, c', outer, around, hv, hpiece, hmem, hscopes, haround, haligned⟩ :=
        hx.1 f hf
      exact ⟨hinit, v, c', outer, around, hlive v _ hv hpiece, hpiece, hmem, hscopes, haround,
        hmade ▸ haligned.mono hkeeps⟩
    | _ => trivial
  exact ⟨hm.holds.imp hsound, hsound _ hm.objectClass, hm.globals, hm.outermost, hd⟩

end Transfer

end Lox.Eval.Setting

namespace Lox.Eval

/-- What is on record of some turns. -/
structure Record where
  /-- The visits of pieces that may run. -/
  seen : Scoping.Visit → Prop
  /-- Which frame was made for which construct. -/
  made : FrameId → Scoping.Construct → Prop
  /-- The functions that were made. -/
  known : Lox.Function → Prop

/-- The record that has everything. -/
def Record.all : Record :=
  ⟨fun _ => True, fun _ _ => True, fun _ => True⟩

end Lox.Eval

namespace Lox.Eval.Setting

open Scoping

/-- A visit of the past, whose references have numbers below `n` and distances in two tables. -/
structure Settled (seen : Visit → Prop) (d d' : Distances) (n : Nat) (v : Visit) : Prop where
  /-- The visit was made. -/
  seen : seen v
  /-- The piece has the shape that evaluation relies on. -/
  shapely : v.Shapely
  /-- The first table holds what was found. -/
  recorded : v.Recorded d
  /-- The second table holds what was found. -/
  recorded' : v.Recorded d'
  /-- The numbers of the references. -/
  ids : ∀ id ∈ v.ids, id < n

/-- The setting of all visits of the past. -/
def past (R : Record) (d d' : Distances) (n : Nat) : Setting where
  tables x := x = d ∨ x = d'
  live := Visit.All (Settled R.seen d d' n)
  made := R.made
  known := R.known
  live_parts _ hv _ hp := hv.part hp
  shapely _ hv := hv.self.shapely
  recorded _ hv x hx := by
    obtain rfl | rfl := hx
    · exact hv.self.recorded
    · exact hv.self.recorded'

/-- A setting together with all visits within a further one. -/
def plus (S : Setting) (root : Visit) (hshapely : Visit.All Visit.Shapely root)
    (hrecorded : ∀ d, S.tables d → Visit.All (Visit.Recorded d) root) : Setting where
  tables := S.tables
  live v := S.live v ∨ v.Within root
  made := S.made
  known := S.known
  live_parts v hv p hp := hv.imp (S.live_parts v · p hp) (·.tail hp)
  shapely v hv := hv.elim (S.shapely v) (hshapely v)
  recorded v hv d hd := hv.elim (S.recorded v · d hd) (hrecorded d hd v)

/-- What is settled stays so as numbers are given out. -/
theorem Settled.mono {seen : Visit → Prop} {d d' e e' : Distances} {n n' : Nat} {v : Visit}
    (h : Settled seen d d' n v) (hn : n ≤ n') (hd : d.AgreeBelow n e) (hd' : d'.AgreeBelow n e') :
    Settled seen e e' n' v where
  seen := h.seen
  shapely := h.shapely
  recorded := h.recorded.congr fun id hid => hd id (h.ids id hid)
  recorded' := h.recorded'.congr fun id hid => hd' id (h.ids id hid)
  ids id hid := Nat.lt_of_lt_of_le (h.ids id hid) hn

end Lox.Eval.Setting

namespace Lox

open Scoping Eval

namespace Job

/-- Scoping starts from no distances, beside the known ones. -/
theorem visit_eq_beside (j : Job) (d : Distances) : j.visit d = (j.visit {}).beside d := rfl

/-- The violations of a job do not depend on the known distances. -/
theorem violations_eq (j : Job) (d d' : Distances) :
    (j.visit d).after.violations = (j.visit d').after.violations := by
  rw [visit_eq_beside, visit_eq_beside j d', Visit.after_beside, Visit.after_beside]
  rfl

/-- Whatever is said about visits without their known distances holds for both or neither. -/
theorem all_visit_iff (j : Job) (d d' : Distances) {P : Visit → Prop}
    (hP : ∀ v d, P (v.beside d) ↔ P v) :
    Visit.All P (j.visit d) ↔ Visit.All P (j.visit d') := by
  rw [visit_eq_beside, visit_eq_beside j d', Visit.all_beside fun v => hP v d,
    Visit.all_beside fun v => hP v d']

variable {j : Job} {d : Distances} {n n' : Nat}

/-- Scoping a job leaves the distances of older references as they are. -/
theorem agreeBelow_after (htidy : (j.visit d).Tidy n n') :
    d.AgreeBelow n (j.visit d).after.distances := by
  intro id hid
  refine (j.visit d).notes_after.find?_eq fun hmem => ?_
  have hle := (htidy.spans.bounds id hmem).1
  omega

/-- Scoping a job gives distances to its own references only. -/
theorem below_after (htidy : (j.visit d).Tidy n n') (hd : d.Below n) :
    (j.visit d).after.distances.Below n' :=
  hd.notes htidy.spans.le (fun id hid => (htidy.spans.bounds id hid).2) (j.visit d).notes_after

/-- Scoping a job without violations records all its references. -/
theorem recorded_after (htidy : (j.visit d).Tidy n n') (hd : d.Below n)
    (hclean : (j.visit d).after.violations = []) :
    Visit.All (Visit.Recorded (j.visit d).after.distances) (j.visit d) :=
  Visit.recorded_after hclean htidy.spans.nodup fun id hid =>
    hd.find?_eq_none (htidy.spans.bounds id hid).1

end Job

/-- Only the distances of references from the given number on are forgotten. -/
structure Forgetting.Fair (forget : Forgetting) : Prop where
  /-- The distances of references below the number are kept. -/
  agreeBelow : ∀ d n, Distances.AgreeBelow n d (forget d n)
  /-- No reference gets a distance. -/
  below : ∀ (d : Distances) n n', d.Below n' → (forget d n).Below n'

/-- Forgetting nothing is fair. -/
theorem Forgetting.fair_none : Forgetting.none.Fair :=
  ⟨fun _ _ _ _ => rfl, fun _ _ _ h => h⟩

/-- Forgetting from a number on is fair. -/
theorem Forgetting.fair_forgetFrom : Forgetting.Fair Distances.forgetFrom where
  agreeBelow d n id hid := by rw [Distances.find?_forgetFrom, if_pos hid]
  below d n n' h entry hentry := h entry (List.mem_of_mem_filter hentry)

/-- What a turn forgets is fair. -/
theorem Turn.fair_forgetting (t : Turn) : t.forgetting.Fair := by
  cases t with
  | source budget text => exact Forgetting.fair_forgetFrom
  | line budget text => exact Forgetting.fair_forgetFrom
  | tokens budget ts => exact Forgetting.fair_none
  | drain => exact Forgetting.fair_none

namespace Session

/-- The session with another table of distances. -/
def withTable (s : Session) (d : Distances) : Session :=
  ⟨s.machine.withTable d, s.nextId⟩

/-- Between two turns: the current frame is the global one, and the functions that values may call
come from visits of the past, also with the table `d'` in place of the session's. -/
structure Fit (R : Record) (d' : Distances) (s : Session) : Prop where
  /-- The current frame is the global one. -/
  current : s.machine.current = s.machine.globals
  /-- The session's table has no distances for numbers that are free. -/
  below : s.machine.distances.Below s.nextId
  /-- Nor has the other table. -/
  below' : d'.Below s.nextId
  /-- The invariant holds of the machine. -/
  inv : (Setting.past R s.machine.distances d' s.nextId).Inv s.machine

/-- Two sessions have given the same, and but for their tables they are one session that is fit. -/
def Paired (R : Record) (given given' : Session × LineOutcome) : Prop :=
  ∃ e', given.1.Fit R e' ∧ given' = (given.1.withTable e', given.2)

/-- In a turn to come, the visits, frames and functions that are made for a job are on record. -/
structure OnRecord (R : Record) (s : Session) (budget : Nat) (j : Job) : Prop where
  /-- The visits. -/
  visits : ∀ v, v.Within (j.visit s.machine.distances) → R.seen v
  /-- The frames and functions. -/
  moments : ∀ μ₀ ∈ (s.machine.prepare j).jobStarts budget j, ∀ μ, μ₀.Reaches μ →
    (∀ k c, μ.Creates k c → R.made k c) ∧ ∀ f, μ.Makes f → R.known f

variable {R : Record} {d' : Distances} {s : Session} {budget : Nat} {r : Reading}
  {forget forget' : Forgetting} {j : Job}

/-- With all distances kept, everything is on record. -/
theorem onRecord_all : s.OnRecord .all budget j :=
  ⟨fun _ _ => trivial, fun _ _ _ _ => ⟨fun _ _ _ => trivial, fun _ _ => trivial⟩⟩

/-- A session is fit if the functions that its values may call come from visits of the past. -/
theorem Fit.of_inv {S : Setting} {m : Machine} {e e' : Distances} {n : Nat} (hm : S.Inv m)
    (hcurrent : m.current = m.globals) (hmade : S.made = R.made) (hknown : S.known = R.known)
    (hbelow : e.Below n) (hbelow' : e'.Below n) (hlive : ∀ v f, S.live v → v.piece = .function f →
      Visit.All (Setting.Settled R.seen e e' n) v) : Fit R e' ⟨m.withTable e, n⟩ where
  current := hcurrent
  below := hbelow
  below' := hbelow'
  inv := hm.transfer hmade.symm hknown.symm hlive (.inl rfl)

/-- A session stays fit when tables forget or learn about references that are new. -/
theorem Fit.retable (h : s.Fit R d') {e e' : Distances} {n' : Nat} (hn : s.nextId ≤ n')
    (he : s.machine.distances.AgreeBelow s.nextId e) (he' : d'.AgreeBelow s.nextId e')
    (hbelow : e.Below n') (hbelow' : e'.Below n') :
    Fit R e' ⟨s.machine.withTable e, n'⟩ :=
  .of_inv h.inv h.current rfl rfl hbelow hbelow' fun _ _ hv _ =>
    hv.imp fun _ hv => hv.mono hn he he'

/-- A session and its twin stay fit, and give the same, when an input is reported. -/
theorem Fit.give_error (h : s.Fit R d') (hr : r.Proper s.nextId) {ds : Diagnostics}
    (hjob : r.job = .error ds) :
    Paired R (s.give forget budget r) ((s.withTable d').give forget' budget r) := by
  have hn := hr.le_next
  rw [Session.give_error hjob, Session.give_error hjob]
  exact ⟨d', h.retable hn (.refl _ _) (.refl _ _) (h.below.mono hn) (h.below'.mono hn), rfl⟩

/-- A session and its twin stay fit, and give the same, when a job is rejected. -/
theorem Fit.give_rejected (h : s.Fit R d') (hr : r.Proper s.nextId) (hf : forget.Fair)
    (hf' : forget'.Fair) (hjob : r.job = .ok j)
    (hviolations : (j.visit s.machine.distances).after.violations.isEmpty = false) :
    Paired R (s.give forget budget r) ((s.withTable d').give forget' budget r) := by
  have hn := hr.le_next
  have htidy := hr.tidy j hjob
  have hsame := j.violations_eq s.machine.distances d'
  have htwin : (j.visit (s.withTable d').machine.distances).after.violations.isEmpty = false :=
    hsame ▸ hviolations
  rw [Session.give_rejected hjob hviolations, Session.give_rejected hjob htwin]
  refine ⟨forget' (j.visit d').after.distances r.first, h.retable hn ?_ ?_ ?_ ?_, ?_⟩
  · exact ((j.agreeBelow_after (htidy _)).trans (hf.agreeBelow _ _)).mono hr.le_first
  · exact ((j.agreeBelow_after (htidy _)).trans (hf'.agreeBelow _ _)).mono hr.le_first
  · exact hf.below _ _ _ (j.below_after (htidy _) (h.below.mono hr.le_first))
  · exact hf'.below _ _ _ (j.below_after (htidy _) (h.below'.mono hr.le_first))
  · rw [hsame]
    rfl

/-- A job without violations may start, and what it does it does also with another table that holds
what was found for it and for the past: beside the visits of the past there are its own. -/
theorem Fit.start_with (h : s.Fit R d') (hr : r.Proper s.nextId) (hjob : r.job = .ok j)
    (hclean : (j.visit s.machine.distances).after.violations = [])
    (hrecord : s.OnRecord R budget j) {e' : Distances} (he' : d'.AgreeBelow s.nextId e')
    (hrecorded' : Visit.All (Visit.Recorded e') (j.visit s.machine.distances)) :
    ∃ S : Setting, S.made = R.made ∧ S.known = R.known ∧ S.tables e' ∧
      (∀ v, S.live v ↔ Visit.All
        (Setting.Settled R.seen (j.visit s.machine.distances).after.distances
        e' s.nextId) v ∨ v.Within (j.visit s.machine.distances)) ∧
      S.Inv (s.machine.prepare j) ∧ S.Does (·.perform budget j) (s.machine.prepare j) ∧
      ∀ μ ∈ (s.machine.prepare j).jobStarts budget j, S.Good μ := by
  have htidy := hr.tidy j hjob
  have hrecorded := j.recorded_after (htidy _) (h.below.mono hr.le_first) hclean
  -- The visits of the past count, and beside them those of the job; their references have numbers
  -- that are not below `s.nextId`, so the two do not get in each other's way.
  let S := (Setting.past R (j.visit s.machine.distances).after.distances e' s.nextId).plus
    (j.visit s.machine.distances) (htidy _).shapely (by
      rintro d (rfl | rfl)
      · exact hrecorded
      · exact hrecorded')
  have hold : ∀ v f, Visit.All (Setting.Settled R.seen s.machine.distances d' s.nextId) v →
      v.piece = .function f → S.live v := fun v f hv _ => .inl (hv.imp fun _ hv =>
    hv.mono (Nat.le_refl _) ((j.agreeBelow_after (htidy _)).mono hr.le_first) he')
  have hm : S.Inv (s.machine.prepare j) := h.inv.transfer (by rfl) (by rfl) hold (.inl rfl)
  have htop : S.AtTop (s.machine.prepare j) (j.visit s.machine.distances) :=
    ⟨.inr .refl, rfl, rfl, h.current⟩
  exact ⟨S, rfl, rfl, .inr rfl, fun v => .rfl, hm,
    Setting.does_perform hm htop rfl hrecord.moments,
    Setting.good_jobStarts hm htop rfl hrecord.moments⟩

/-- A job without violations may start, and what it does it does with both tables. -/
theorem Fit.start_job (h : s.Fit R d') (hr : r.Proper s.nextId) (hjob : r.job = .ok j)
    (hclean : (j.visit s.machine.distances).after.violations = [])
    (hrecord : s.OnRecord R budget j) :
    ∃ S : Setting, S.made = R.made ∧ S.known = R.known ∧ S.tables (j.visit d').after.distances ∧
      (∀ v, S.live v ↔ Visit.All
        (Setting.Settled R.seen (j.visit s.machine.distances).after.distances
        (j.visit d').after.distances s.nextId) v ∨ v.Within (j.visit s.machine.distances)) ∧
      S.Inv (s.machine.prepare j) ∧ S.Does (·.perform budget j) (s.machine.prepare j) ∧
      ∀ μ ∈ (s.machine.prepare j).jobStarts budget j, S.Good μ := by
  have htidy := hr.tidy j hjob
  have hclean' := (j.violations_eq s.machine.distances d').symm.trans hclean
  have hrecorded' := j.recorded_after (htidy _) (h.below'.mono hr.le_first) hclean'
  rw [j.all_visit_iff d' s.machine.distances fun v d => Visit.recorded_beside _] at hrecorded'
  exact h.start_with hr hjob hclean hrecord ((j.agreeBelow_after (htidy _)).mono hr.le_first)
    hrecorded'

/-- A session and its twin stay fit, and give the same, when a job is performed. -/
theorem Fit.give_accepted (h : s.Fit R d') (hr : r.Proper s.nextId) (hf : forget.Fair)
    (hf' : forget'.Fair) (hjob : r.job = .ok j)
    (hviolations : (j.visit s.machine.distances).after.violations.isEmpty = true)
    (hrecord : s.OnRecord R budget j) :
    Paired R (s.give forget budget r) ((s.withTable d').give forget' budget r) := by
  have hn := hr.le_next
  have htidy := hr.tidy j hjob
  have htwin : (j.visit (s.withTable d').machine.distances).after.violations.isEmpty = true :=
    j.violations_eq s.machine.distances d' ▸ hviolations
  rw [Session.give_accepted hjob hviolations, Session.give_accepted hjob htwin]
  obtain ⟨S, hmade, hknown, htable, hlive, hm, hdoes, _⟩ :=
    h.start_job hr hjob (List.isEmpty_iff.mp hviolations) hrecord
  have hlock : ((s.withTable d').machine.prepare j).perform budget j = _ := hdoes.lockstep _ htable
  have hinv := hdoes.inv
  have hgrown := hdoes.grown
  rw [hlock]
  dsimp only at hinv hgrown ⊢
  generalize ((s.machine.prepare j).perform budget j) = done at hinv hgrown ⊢
  have hcurrent : done.1.current = done.1.globals := by
    rw [hgrown.current, hgrown.globals]
    exact h.current
  have hdistances : done.1.distances = (j.visit s.machine.distances).after.distances :=
    hgrown.distances
  have hbelow := j.below_after (htidy _) (h.below.mono hr.le_first)
  have hbelow' := j.below_after (htidy _) (h.below'.mono hr.le_first)
  by_cases hcloses : j.createsClosure
  -- A function that is left behind may come from the job, so its visits belong to the past from now
  -- on and its distances stay.
  · simp only [hcloses, if_true]
    refine ⟨_, Fit.of_inv (m := done.1) (e := done.1.distances) hinv hcurrent hmade hknown
      (hdistances ▸ hbelow) hbelow' fun v f hv _ => ?_, rfl⟩
    rw [hdistances]
    obtain hv | hv := (hlive v).mp hv
    · exact hv.imp fun _ hv => hv.mono hn (.refl _ _) (.refl _ _)
    · intro v' hv'
      have hlive' := (hlive v').mpr (.inr (hv.trans hv'))
      exact ⟨hrecord.visits v' (hv.trans hv'), S.shapely v' hlive', S.recorded v' hlive' _ hm.table,
        S.recorded v' hlive' _ htable, fun id hid =>
          ((htidy _).spans.bounds id (Visit.ids_within (hv.trans hv') hid)).2⟩
  · -- No function is left behind that comes from the job, so the distances of the job may go.
    simp only [hcloses]
    refine ⟨_, Fit.of_inv hinv hcurrent hmade hknown (hf.below _ _ _ (hdistances ▸ hbelow))
      (hf'.below _ r.first _ hbelow') fun v f hv hpiece => ?_, rfl⟩
    rw [hdistances]
    obtain hv | hv := (hlive v).mp hv
    · exact hv.imp fun _ hv => hv.mono hn ((hf.agreeBelow _ _).mono hr.le_first)
        ((hf'.agreeBelow _ _).mono hr.le_first)
    · exact absurd hpiece (Job.not_function (by simpa using hcloses) hv f)

/-- A session and its twin stay fit, and give the same, whatever was read. -/
theorem Fit.give (h : s.Fit R d') (hr : r.Proper s.nextId) (hf : forget.Fair)
    (hf' : forget'.Fair) (hrecord : ∀ j, r.job = .ok j →
      (j.visit s.machine.distances).after.violations.isEmpty → s.OnRecord R budget j) :
    Paired R (s.give forget budget r) ((s.withTable d').give forget' budget r) := by
  cases hjob : r.job with
  | error ds => exact h.give_error hr hjob
  | ok j =>
    cases hviolations : (j.visit s.machine.distances).after.violations.isEmpty with
    | false => exact h.give_rejected hr hf hf' hjob hviolations
    | true => exact h.give_accepted hr hf hf' hjob hviolations (hrecord j hjob hviolations)

variable {t : Turn} {turns : List Turn}

/-- Taking away what was written changes nothing else. -/
theorem Fit.drain (h : s.Fit R d') : s.drain.1.Fit R d' where
  current := h.current
  below := h.below
  below' := h.below'
  inv := by
    have hext : s.machine.Extends s.drain.1.machine :=
      ⟨.of_frames_eq rfl rfl (Nat.le_refl _), rfl, rfl, rfl⟩
    exact h.inv.extend hext (h.inv.still hext)

/-- A session stays fit in a turn, and its twin that never forgets does and gives the same. -/
theorem Fit.turn (h : s.Fit R d')
    (hrecord : ∀ j, s.accepted? t = some j → s.OnRecord R t.budget j) :
    Paired R (s.turn t) ((s.withTable d').turnKeeping t) := by
  cases hread : s.read? t with
  | none =>
    cases t with
    | drain => exact ⟨d', h.drain, rfl⟩
    | _ => contradiction
  | some r =>
    have htwin : (s.withTable d').read? t = some r := hread
    rw [turn_eq_give hread, turnKeeping_eq_give htwin]
    exact h.give (read?_proper hread) t.fair_forgetting Forgetting.fair_none fun j hjob hclean =>
      hrecord j (accepted?_eq_some_iff.mpr ⟨r, hread, hjob, hclean⟩)

/-- All that some turns make is on record. -/
structure Recorded (R : Record) (s : Session) (turns : List Turn) : Prop where
  /-- The visits. -/
  visits : ∀ v, s.Visited turns v → R.seen v
  /-- The frames. -/
  frames : ∀ k c, s.Made turns k c → R.made k c
  /-- The functions. -/
  functions : ∀ f, s.Makes turns f → R.known f

/-- The record of some turns. -/
def record (s : Session) (turns : List Turn) : Record :=
  ⟨s.Visited turns, s.Made turns, s.Makes turns⟩

/-- The record of a session is a record of it. -/
theorem recorded_record (s : Session) (turns : List Turn) : Recorded (s.record turns) s turns :=
  ⟨fun _ => id, fun _ _ => id, fun _ => id⟩

/-- In the first of some turns all is on record. -/
theorem Recorded.head (h : Recorded R s (t :: turns)) :
    ∀ j, s.accepted? t = some j → s.OnRecord R t.budget j := by
  refine fun j hj => ⟨fun v hv => h.visits v (.inl ⟨j, hj, hv⟩), fun μ₀ hμ₀ μ hμ => ?_⟩
  have hreach : s.Reaches (t :: turns) μ := .inl ⟨j, hj, μ₀, hμ₀, hμ⟩
  exact ⟨fun k c hc => h.frames k c ⟨μ, hreach, hc⟩, fun f hf => h.functions f ⟨μ, hreach, hf⟩⟩

/-- In the turns after the first all is on record. -/
theorem Recorded.tail (h : Recorded R s (t :: turns)) : Recorded R (s.turn t).1 turns where
  visits v hv := h.visits v (.inr hv)
  frames := fun k c ⟨μ, hμ, hc⟩ => h.frames k c ⟨μ, .inr hμ, hc⟩
  functions := fun f ⟨μ, hμ, hf⟩ => h.functions f ⟨μ, .inr hμ, hf⟩

/-- A session stays fit in some turns, and so does its twin that never forgets. -/
theorem Fit.after (h : s.Fit R d') (hrecord : Recorded R s turns) :
    ∃ e', (s.after turns).Fit R e' ∧
      (s.withTable d').afterKeeping turns = (s.after turns).withTable e' := by
  induction turns generalizing s d' with
  | nil => exact ⟨d', h, rfl⟩
  | cons t turns ih =>
    -- The other table changes from turn to turn, so the induction is over all of them.
    obtain ⟨e', hfit, htwin⟩ := h.turn hrecord.head
    obtain ⟨e'', hfit', htwin'⟩ := ih hfit hrecord.tail
    refine ⟨e'', hfit', ?_⟩
    calc (s.withTable d').afterKeeping (t :: turns)
        = ((s.withTable d').turnKeeping t).1.afterKeeping turns := rfl
      _ = ((s.turn t).1.after turns).withTable e'' := by rw [htwin, htwin']

/-- At the start the heap holds the built-in functions and the class of written-out objects. -/
theorem holds_start {P : Value → Prop} {sink : Sink} {clock : Clock} (hnative : ∀ f, P (.native f))
    (hobject : P (.class (start sink clock).machine.objectClass)) :
    (start sink clock).machine.heap.Holds P := by
  refine ⟨fun k name x hx => ?_, ?_, ?_, ?_⟩
  · obtain ⟨frame, hframe, hx⟩ := Option.bind_eq_some_iff.mp hx
    obtain rfl := List.mem_singleton.mp (List.mem_of_getElem? (Array.getElem?_toList ▸ hframe))
    -- The only frame is the global one.
    obtain ⟨l, r, hsplit, _⟩ := List.lookup_eq_some_iff.mp hx
    have hmem : (name, x) ∈ l ++ (name, x) :: r := by simp
    rw [← hsplit] at hmem
    obtain hmem | hmem := List.mem_append.mp hmem
    · obtain ⟨f, _, heq⟩ := List.mem_map.mp hmem
      exact (Prod.mk.inj heq).2 ▸ hnative f
    · exact (Prod.mk.inj (List.mem_singleton.mp hmem)).2 ▸ hobject
  · exact fun _ h => absurd h (Array.not_mem_empty _)
  · exact fun _ h => absurd h (Array.not_mem_empty _)
  · exact fun _ h => absurd h (Array.not_mem_empty _)

/-- A session in which nothing has run is fit. -/
theorem fit_start (R : Record) (sink : Sink) (clock : Clock) : (start sink clock).Fit R {} where
  current := rfl
  below _ h := by contradiction
  below' _ h := by contradiction
  inv := by
    have hobject : (Setting.past R {} {} 0).Sound (start sink clock).machine
        (.class (start sink clock).machine.objectClass) := by
      refine ⟨fun f hf => ?_, .mk Nat.zero_lt_one fun _ hd => absurd hd List.not_mem_nil⟩
      simp [start, Machine.start, Class.functions, classFunctions] at hf
    exact ⟨holds_start (fun _ => trivial) hobject, hobject, Nat.zero_lt_one, rfl, .inl rfl⟩

end Session

end Lox
