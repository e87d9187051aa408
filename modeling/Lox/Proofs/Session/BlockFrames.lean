import Lox.Proofs.Eval.Ordering
import Lox.Proofs.Session.FrameForest

/-!
# The frames of blocks over turns

The moments that a session reaches come one after the other, within a turn and from turn to turn. So
a frame of a block or a call is made at one moment of a session only (`Session.Reaches.unique`), and
where a name is declared, the current frame was made for the construct in whose scope the name is.

It follows that the frame of a block that declares no name never binds one, neither while the block
runs nor later on (`Session.Passes.has_nil`).
-/

namespace Lox

open Scoping Eval

/-- Of moments that precede each other pairwise, only one leads to the moment at which a frame is
made. -/
theorem Eval.Moment.Creates.unique_of_pairwise {μs : List Moment}
    (hμs : μs.Pairwise Moment.Precedes) {μ μ' μ₁ μ₂ : Moment} {k : FrameId} {c₁ c₂ : Construct}
    (hμ : μ ∈ μs) (h₁ : μ.Reaches μ₁) (hc₁ : μ₁.Creates k c₁) (hinner₁ : c₁.isInner)
    (hμ' : μ' ∈ μs) (h₂ : μ'.Reaches μ₂) (hc₂ : μ₂.Creates k c₂) (hinner₂ : c₂.isInner) :
    μ₁ = μ₂ := by
  induction hμs with
  | nil => exact absurd hμ List.not_mem_nil
  | cons hfirst _ ih =>
    obtain rfl | hrest := List.mem_cons.mp hμ <;> obtain rfl | hrest' := List.mem_cons.mp hμ'
    · exact Moment.Creates.unique h₁ hc₁ hinner₁ h₂ hc₂ hinner₂
    · have hlt := (hfirst _ hrest').disjoint h₁ hc₁ hinner₁ h₂ hc₂ hinner₂
      exact absurd hlt (Nat.lt_irrefl k)
    · have hlt := (hfirst _ hrest).disjoint h₂ hc₂ hinner₂ h₁ hc₁ hinner₁
      exact absurd hlt (Nat.lt_irrefl k)
    · exact ih hrest hrest'

namespace Machine

variable {m : Machine} (b : Nat)

/-- The statements of a program precede each other. -/
theorem pairwise_starts (htop : m.AtTop) (ss : List Stmt) :
    (m.starts b ss).Pairwise Moment.Precedes := by
  induction ss generalizing m with
  | nil => exact .nil
  | cons s ss ih =>
    have hfirst : m.Resumes (Eval.final (Eval.execute b s m)) :=
      (Moment.avoids_none ⟨.execute b s, m⟩).restores
    have hend := runTop_fst b m s hfirst htop
    have htop' : (m.runTop b s).1.AtTop := hend ▸ hfirst.atTop htop
    refine List.pairwise_cons.mpr ⟨fun μ hμ => ?_, ih htop'⟩
    have hstart := ((restores_runAll ss htop' fun μ _ => μ.avoids_none).2 μ hμ).1.size
    rwa [hend] at hstart

/-- The moments that a job starts come one after the other. -/
theorem pairwise_jobStarts (htop : m.AtTop) (j : Job) :
    (m.jobStarts b j).Pairwise Moment.Precedes := by
  cases j with
  | program ss => exact pairwise_starts b htop ss
  | expression e => exact List.pairwise_singleton _ _

end Machine

namespace Session

variable {s : Session} {sink : Sink} {clock : Clock} {turns : List Turn} {t : Turn}
  {μ μ₁ μ₂ : Moment} {k : FrameId} {c c₁ c₂ : Construct}

/-! ## Moments over turns -/

/-- A moment starts with the frames that were there before the turns. -/
theorem Reaches.size_le (htop : s.machine.AtTop) (h : s.Reaches turns μ) :
    s.machine.heap.frames.size ≤ μ.machine.heap.frames.size := by
  induction turns generalizing s with
  | nil => exact False.elim h
  | cons t turns ih =>
    obtain ⟨j, _, μ₀, hμ₀, hreach⟩ | h := h
    · have htop' : (s.machine.prepare j).AtTop := htop
      have hstart := ((Machine.restores_perform j htop' fun μ _ => μ.avoids_none).2 μ₀ hμ₀).1
      exact Nat.le_trans hstart.size hreach.keeps.1.size
    · obtain ⟨hlater, htop', _⟩ := later_turn (t := t) htop fun μ _ => μ.avoids_none
      exact Nat.le_trans hlater.size (ih htop' h)

/-- A frame that is made in a turn is not made in turns after it. -/
theorem Executes.lt_of_creates (htop : s.machine.AtTop) (h₁ : s.Executes t μ₁)
    (hc₁ : μ₁.Creates k c₁) (hinner₁ : c₁.isInner) (h₂ : (s.turn t).1.Reaches turns μ₂) :
    k < μ₂.machine.heap.frames.size := by
  obtain ⟨_, htop', hmoments⟩ := later_turn (t := t) htop fun μ _ => μ.avoids_none
  calc k < μ₁.final.heap.frames.size := hc₁.lt_final hinner₁
    _ ≤ (s.turn t).1.machine.heap.frames.size := (hmoments μ₁ h₁).size
    _ ≤ μ₂.machine.heap.frames.size := h₂.size_le htop'

/-- A frame of a block or a call is made at one moment only. -/
theorem Reaches.unique (htop : s.machine.AtTop) (h₁ : s.Reaches turns μ₁)
    (hc₁ : μ₁.Creates k c₁) (hinner₁ : c₁.isInner) (h₂ : s.Reaches turns μ₂)
    (hc₂ : μ₂.Creates k c₂) (hinner₂ : c₂.isInner) : μ₁ = μ₂ := by
  induction turns generalizing s with
  | nil => exact False.elim h₁
  | cons t turns ih =>
    -- What is made in later turns has a place that was free when the turn had ended.
    have hlater {μ μ' : Moment} {c c' : Construct} (h : s.Executes t μ) (hc : μ.Creates k c)
        (hinner : c.isInner) (h' : (s.turn t).1.Reaches turns μ') (hc' : μ'.Creates k c')
        (hinner' : c'.isInner) : False := by
      have hlt := h.lt_of_creates htop hc hinner h'
      rw [(hc'.starts hinner').1] at hlt
      exact Nat.lt_irrefl _ hlt
    obtain h₁ | h₁ := h₁ <;> obtain h₂ | h₂ := h₂
    · obtain ⟨j, hj, μ, hμ, hreach⟩ := h₁
      obtain ⟨j', hj', μ', hμ', hreach'⟩ := h₂
      obtain rfl : j = j' := Option.some.inj ((Option.mem_def.mp hj).symm.trans hj')
      have htop' : (s.machine.prepare j).AtTop := htop
      exact Moment.Creates.unique_of_pairwise (Machine.pairwise_jobStarts t.budget htop' j)
        hμ hreach hc₁ hinner₁ hμ' hreach' hc₂ hinner₂
    · exact (hlater h₁ hc₁ hinner₁ h₂ hc₂ hinner₂).elim
    · exact (hlater h₂ hc₂ hinner₂ h₁ hc₁ hinner₁).elim
    · exact ih (later_turn (t := t) htop fun μ _ => μ.avoids_none).2.1 h₁ h₂

/-! ## Declarations -/

/-- The names that a visited piece declares are names of the scope around it. -/
theorem distinct_of_visited {v : Visit} (h : s.Visited turns v) : v.Distinct := by
  refine h.of_jobs fun s t j _ hj => ?_
  obtain ⟨_, _, _, hclean⟩ := accepted?_eq_some_iff.mp hj
  exact Visit.all_distinct (tidy_of_accepted hj _).shapely (List.isEmpty_iff.mp hclean)
    ⟨by simp [Job.visit], by simp [Job.visit]⟩

/-- Where a name is declared, the current frame is the global one or was made for a construct that
declares a name in its scope. -/
theorem declaring_frame (hturns : ∀ t ∈ turns, t.Spelled) (hμ : (start sink clock).Reaches turns μ)
    {name : String} (h : μ.Declares name) : μ.machine.current = μ.machine.globals ∨
      ∃ c, (start sink clock).Made turns μ.machine.current c ∧ c.isInner ∧ c.declared ≠ [] := by
  obtain ⟨S, ⟨ctx, piece, w, around⟩, hmade, hvisited, hat, hnest, hdeclared⟩ :=
    declaring_visit hturns hμ h
  have haligned : Aligned ((start sink clock).Made turns) μ.machine μ.machine.current
      w.scopes around :=
    hmade ▸ hat.aligned
  have hsubset := (distinct_of_visited hvisited).subset
  dsimp only at hnest
  generalize w.scopes = scopes at hnest haligned
  generalize ctx.home = home at hnest
  have hinner {c : Construct} {cs : List Construct} (hc : c.isInner)
      (hcs : around = c :: cs) (hk : (start sink clock).Made turns μ.machine.current c) :
      ∃ c, (start sink clock).Made turns μ.machine.current c ∧ c.isInner ∧ c.declared ≠ [] :=
    ⟨c, hk, hc, fun hnil => hdeclared (List.subset_nil.mp (hnil ▸ hsubset c (by simp [hcs])))⟩
  cases hnest with
  | top => exact .inl haligned
  | block _ _ => exact .inr (hinner rfl rfl haligned.2.1)
  | closure _ _ => exact .inr (hinner rfl rfl haligned.2.1)
  | method _ _ _ => exact .inr (hinner rfl rfl haligned.2.1)
  | inheritor _ _ _ => exact .inr (hinner rfl rfl haligned.2.1)

/-! ## Blocks that declare nothing -/

section Block

variable {b : Nat} {ss : List Stmt} {m n : Machine} {fs fs' : Frames}

/-- No name is declared in the frame of a block that declares none. -/
theorem current_ne_block (hturns : ∀ t ∈ turns, t.Spelled)
    (hblock : (start sink clock).Reaches turns ⟨.execute (b + 1) (.block ss), m⟩)
    (hss : ss.flatMap Stmt.declared = []) (hμ : (start sink clock).Reaches turns μ) {name : String}
    (h : μ.Declares name) : μ.machine.current ≠ m.heap.frames.size := by
  intro hcurrent
  obtain hglobals | ⟨c, ⟨μ', hμ', hcreates⟩, hinner, hdeclared⟩ := declaring_frame hturns hμ h
  · -- The global frame has been there from the start.
    have hzero : μ.machine.globals = 0 :=
      (Passes.starts hμ).keeps.globals.symm.trans
        (later_after (s := start sink clock) turns rfl fun μ _ => μ.avoids_none).1.globals
    have hsize : 0 < m.heap.frames.size := hblock.size_le (s := start sink clock) rfl
    rw [← hcurrent, hglobals, hzero] at hsize
    exact Nat.lt_irrefl 0 hsize
  · rw [hcurrent] at hcreates
    have hsame := hμ'.unique (s := start sink clock) rfl hcreates hinner hblock .block rfl
    subst hsame
    cases hcreates with
    | block => exact hdeclared hss

/-- A step of the frames does not bind a name in the frame of a block that declares none. -/
theorem has_nil_of_changes (hturns : ∀ t ∈ turns, t.Spelled)
    (hblock : (start sink clock).Reaches turns ⟨.execute (b + 1) (.block ss), m⟩)
    (hss : ss.flatMap Stmt.declared = []) (hμ : (start sink clock).Reaches turns μ)
    (h : μ.Changes fs fs') (hfs : fs.Has m.heap.frames.size []) :
    fs'.Has m.heap.frames.size [] := by
  have hend := (hasFrame_block hturns hblock).reserved
  -- Every change is a new frame or a binding, so the cases are those of `Changes`.
  cases h with
  | block => exact .push (fun _ => hfs) fun _ => rfl
  | @call b' f vs m' =>
    refine .push (fun _ => hfs) fun hk => ?_
    -- The frame would have been made twice, once for the block and once for the call.
    have hcall : Moment.Creates ⟨.callFunction b' f vs, m'⟩ m.heap.frames.size (.call f.decl) :=
      hk ▸ .call
    have hsame := hblock.unique (s := start sink clock) rfl .block rfl hμ hcall rfl
    cases hsame
  | receiver =>
    refine .push (fun _ => hfs) fun hk => ?_
    have hbound := (hasFrame_bind hturns hμ).reserved "this" (.inl rfl)
    rw [← hk, hend "this" (.inl rfl)] at hbound
    contradiction
  | inheritance hcs hne =>
    refine .push (fun _ => hfs) fun hk => ?_
    have hbound := (hasFrame_inheritance hturns hμ hcs hne).reserved "super" (.inr rfl)
    rw [Frames.size_define] at hk
    rw [← hk, hend "super" (.inr rfl)] at hbound
    contradiction
  | declare hdeclares value =>
    exact hfs.define (current_ne_block hturns hblock hss hμ hdeclares).symm _ value
  | assign hbinds hsome value =>
    refine hfs.define (fun hk => ?_) _ value
    rw [← hk, hfs] at hsome
    contradiction

/-- The frame of a block that declares no name binds none in any state of the session. -/
theorem Passes.has_nil (hturns : ∀ t ∈ turns, t.Spelled)
    (hblock : (start sink clock).Reaches turns ⟨.execute (b + 1) (.block ss), m⟩)
    (hss : ss.flatMap Stmt.declared = []) (h : (start sink clock).Passes turns n) :
    n.heap.frames.Has m.heap.frames.size [] := by
  have hstart : (start sink clock).machine.heap.frames.Has m.heap.frames.size [] := by
    intro name
    have hsize : (start sink clock).machine.heap.frames.size ≤ m.heap.frames.size :=
      hblock.size_le (s := start sink clock) rfl
    unfold Frames.local?
    rw [Array.getElem?_eq_none hsize]
    rfl
  have hend := ((start sink clock).evolves_after turns).invariant hstart fun _ _ _ hμ hchange =>
    has_nil_of_changes hturns hblock hss hμ hchange
  intro name
  -- What is bound in one state stays bound to the end.
  by_contra hsome
  have hbound := h.keeps.bound _ name (Option.isSome_iff_ne_none.mpr hsome)
  rw [hend name] at hbound
  contradiction

end Block

end Session

end Lox
