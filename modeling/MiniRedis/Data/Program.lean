import Mathlib.Logic.Relation

namespace MiniRedis.Data

/-! Programs that make calls and run beside others, with rules of pre- and
postconditions for them.  Between two calls of a program the others take any
number of steps. -/

/-- `Answer request` is what a call can return. -/
inductive Program {Call : Type} (Answer : Call → Type) (α : Type)
  | done (value : α)
  | call (request : Call) (next : Answer request → Program Answer α)

namespace Program

variable {Call : Type} {Answer : Call → Type} {α β World : Type}

def bind (program : Program Answer α) (next : α → Program Answer β) :
    Program Answer β :=
  match program with
  | .done value => next value
  | .call request rest => .call request fun answer => (rest answer).bind next

def ask (request : Call) : Program Answer (Answer request) :=
  .call request .done

structure Setting (Answer : Call → Type) (World : Type) where
  effect : World → (request : Call) → Answer request → World → Prop
  others : World → World → Prop

inductive Step (setting : Setting Answer World) :
    Program Answer α × World → Program Answer α × World → Prop
  | call {request : Call} {next : Answer request → Program Answer α}
      {answer : Answer request} {world world' : World}
      (result : setting.effect world request answer world') :
      Step setting (.call request next, world) (next answer, world')
  | others {program : Program Answer α} {world world' : World}
      (step : setting.others world world') :
      Step setting (program, world) (program, world')

/-- From this world on, `guard` holds whenever the program waits for an answer,
and `post` once it is done. -/
def Safe (setting : Setting Answer World) (guard : Call → World → Prop)
    (post : α → World → Prop) : Program Answer α → World → Prop
  | .done value, world =>
      ∀ later, Relation.ReflTransGen setting.others world later →
        post value later
  | .call request next, world =>
      ∀ later, Relation.ReflTransGen setting.others world later →
        guard request later ∧ ∀ answer after,
          setting.effect later request answer after →
          (next answer).Safe setting guard post after

def Stable (setting : Setting Answer World) (assertion : World → Prop) : Prop :=
  ∀ ⦃world later⦄, setting.others world later → assertion world →
    assertion later

variable {setting : Setting Answer World} {guard : Call → World → Prop}
  {post : α → World → Prop} {assertion : World → Prop} {world world' : World}
  {program program' : Program Answer α}

theorem Stable.run (h : Stable setting assertion)
    (hrun : Relation.ReflTransGen setting.others world world')
    (hworld : assertion world) : assertion world' := by
  induction hrun with
  | refl => exact hworld
  | tail _ hstep ih => exact h hstep ih

theorem Safe.done {value : α} (hstable : Stable setting (post value))
    (h : post value world) :
    (Program.done value : Program Answer α).Safe setting guard post world :=
  fun _ hrun => hstable.run hrun h

theorem Safe.call {request : Call} {next : Answer request → Program Answer α}
    (hstable : Stable setting assertion)
    (hguard : ∀ world, assertion world → guard request world)
    (hnext : ∀ world answer after, assertion world →
      setting.effect world request answer after →
      (next answer).Safe setting guard post after)
    (h : assertion world) :
    (Program.call request next).Safe setting guard post world := by
  intro later hrun
  have hlater := hstable.run hrun h
  exact ⟨hguard later hlater, fun answer after => hnext later answer after hlater⟩

theorem Safe.bind {next : α → Program Answer β} {after : β → World → Prop}
    (h : program.Safe setting guard post world)
    (hnext : ∀ value later, post value later →
      (next value).Safe setting guard after later) :
    (program.bind next).Safe setting guard after world := by
  induction program generalizing world with
  | done value => exact hnext value world (h world .refl)
  | call request rest ih =>
      intro later hrun
      obtain ⟨hguard, hrest⟩ := h later hrun
      exact ⟨hguard, fun answer final heffect =>
        ih answer (hrest answer final heffect)⟩

theorem Safe.others (h : program.Safe setting guard post world)
    (hstep : setting.others world world') :
    program.Safe setting guard post world' := by
  cases program with
  | done value => exact fun later hrun => h later (.head hstep hrun)
  | call request next => exact fun later hrun => h later (.head hstep hrun)

theorem Safe.run (h : program.Safe setting guard post world)
    (hrun : Relation.ReflTransGen (Step setting) (program, world)
      (program', world')) :
    program'.Safe setting guard post world' := by
  generalize hstart : (program, world) = start at hrun
  generalize hend : (program', world') = finish at hrun
  induction hrun generalizing program' world' with
  | refl =>
      cases hstart
      cases hend
      exact h
  | tail _ hstep ih =>
      cases hstep with
      | call result =>
          cases hend
          exact ((ih rfl) _ .refl).2 _ _ result
      | others step =>
          cases hend
          exact (ih rfl).others step

theorem Step.answered {request : Call}
    {next : Answer request → Program Answer α} {answer : Answer request}
    (result : setting.effect world request answer world')
    (hnext : next answer = program') :
    Step setting (.call request next, world) (program', world') :=
  hnext ▸ .call result

theorem Step.run_bind {next : α → Program Answer β}
    (hrun : Relation.ReflTransGen (Step setting) (program, world)
      (program', world')) :
    Relation.ReflTransGen (Step setting) (program.bind next, world)
      (program'.bind next, world') := by
  refine hrun.lift (fun state => (state.1.bind next, state.2)) ?_
  rintro _ _ (⟨result⟩ | ⟨step⟩)
  · exact .call result
  · exact .others step

/-- The two ways to read a safe program off: by what it waits for, or by its
result. -/
theorem Safe.waits {request : Call} {next : Answer request → Program Answer α}
    (h : (Program.call request next).Safe setting guard post world) :
    guard request world :=
  (h world .refl).1

theorem Safe.ends {value : α}
    (h : (Program.done value : Program Answer α).Safe setting guard post world) :
    post value world :=
  h world .refl

end Program

end MiniRedis.Data
