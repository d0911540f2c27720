import ShardQuery.Operator.Tree

/-!
Operators see a part of the control only. What they do not see, the frame, makes no difference to
them and is as it was afterwards, but for new events on top of the old ones.
-/

namespace ShardQuery

/-- The parts of a control that belong to the call and not to the operators. -/
structure Frame where
  fetchDone : Bool
  needsContinuation : Bool
  callConsumed : Capacity
  totalConsumed : Capacity
  compileCost : Option Capacity
  events : List Event

/-- A call that may still fetch and was not suspended. -/
def Frame.Fresh (φ : Frame) : Prop := φ.fetchDone = false ∧ φ.needsContinuation = false

/-- A call that has had its fetch and was not suspended. -/
def Frame.Spent (φ : Frame) : Prop := φ.fetchDone = true ∧ φ.needsContinuation = false

namespace Control

/-- The control in another frame. -/
def within (c : Control) (φ : Frame) : Control :=
  { c with
    fetchDone := φ.fetchDone
    needsContinuation := φ.needsContinuation
    callConsumed := φ.callConsumed
    totalConsumed := φ.totalConsumed
    compileCost := φ.compileCost
    events := c.events ++ φ.events }

def frame (c : Control) : Frame :=
  ⟨c.fetchDone, c.needsContinuation, c.callConsumed, c.totalConsumed, c.compileCost, c.events⟩

/-- The frame of a control about which nothing is known. -/
def blank : Frame := ⟨false, false, .zero, .zero, none, []⟩

/-- The control without its frame. -/
def bare (c : Control) : Control := { c with events := [] }.within blank

theorem charge_registers (c : Control) (n : Nat) : (c.charge n).2.registers = c.registers := by
  unfold charge
  split <;> rfl

/-- What is settled before a call begins. -/
def settings (c : Control) : List (Option Value) × Config × Nat :=
  (c.externals, c.config, c.ledger.limit)

@[simp] theorem within_frame (c : Control) : c.bare.within c.frame = c := rfl

@[simp] theorem bare_bare (c : Control) : c.bare.bare = c.bare := rfl

@[simp] theorem reg_within (c : Control) (φ : Frame) (r : Nat) : (c.within φ).reg r = c.reg r := rfl

@[simp] theorem reg_bare (c : Control) (r : Nat) : c.bare.reg r = c.reg r := rfl

@[simp] theorem within_emit (c : Control) (φ : Frame) (e : Event) :
    (c.within φ).emit e = (c.emit e).within φ := rfl

end Control

/-- Results that hand a control on. -/
class Carries (τ : Type) where
  control : τ → Control
  onControl : (Control → Control) → τ → τ
  control_onControl (f : Control → Control) (x : τ) : control (onControl f x) = f (control x)

instance : Carries Control := ⟨id, fun f c => f c, fun _ _ => rfl⟩

instance {α τ : Type} [Carries τ] : Carries (α × τ) :=
  ⟨fun x => Carries.control x.2, fun f x => (x.1, Carries.onControl f x.2),
    fun f x => Carries.control_onControl f x.2⟩

instance {σ : Type} : Carries (Step σ) :=
  ⟨Step.control, fun f s => ⟨s.signal, s.state, f s.control⟩, fun _ _ => rfl⟩

instance {σ τ : Type} [Carries σ] [Carries τ] : Carries (σ ⊕ τ) :=
  ⟨Sum.elim Carries.control Carries.control,
    fun f => Sum.map (Carries.onControl f) (Carries.onControl f),
    fun f x => by cases x <;> exact Carries.control_onControl f _⟩

/-- What an action on a control must keep to if it is an operator's. -/
structure Framed {τ : Type} [Carries τ] (f : Control → τ) : Prop where
  frame (c : Control) (φ : Frame) : f (c.within φ) = Carries.onControl (·.within φ) (f c)
  settings (c : Control) : (Carries.control (f c)).settings = c.settings

namespace Framed

/-- What an action made of a control, and of the same control in another frame. -/
structure Run {τ : Type} [Carries τ] (c : Control) (φ : Frame) (x y : τ) : Prop where
  frame : y = Carries.onControl (·.within φ) x
  settings : (Carries.control x).settings = c.settings

section
variable {τ : Type} [Carries τ] {f : Control → τ} {c d : Control} {φ : Frame} {x y : τ}

theorem run (hf : Framed f) (c : Control) (φ : Frame) : Run c φ (f c) (f (c.within φ)) :=
  ⟨hf.frame c φ, hf.settings c⟩

theorem of_runs (h : ∀ c φ, Run c φ (f c) (f (c.within φ))) : Framed f :=
  ⟨fun c φ => (h c φ).frame, fun c => (h c c.frame).settings⟩

/-- A run that goes on where another one has come to. -/
theorem Run.after (h : Run d φ x y) (hd : d.settings = c.settings) : Run c φ x y :=
  ⟨h.frame, h.settings.trans hd⟩

end

variable {α τ : Type} [Carries τ] {f : Control → α × Control} {g : α → Control → τ}

theorem pure (a : α) : Framed fun c => (a, c) := ⟨fun _ _ => rfl, fun _ => rfl⟩

/-- One action after the other. -/
theorem bind (hf : Framed f) (hg : ∀ a, Framed (g a)) : Framed fun c => g (f c).1 (f c).2 where
  frame c φ := by
    simp only [hf.frame]
    exact (hg _).frame _ φ
  settings c := ((hg _).settings _).trans (hf.settings c)

theorem frame_control {h : Control → τ} (hh : Framed h) (c : Control) :
    (Carries.control (h c)).frame = ⟨c.fetchDone, c.needsContinuation, c.callConsumed,
      c.totalConsumed, c.compileCost, (Carries.control (h c)).events⟩ := by
  have he : h c = Carries.onControl (·.within c.frame) (h c.bare) := hh.frame c.bare c.frame
  rw [he, Carries.control_onControl]
  rfl

end Framed
end ShardQuery
