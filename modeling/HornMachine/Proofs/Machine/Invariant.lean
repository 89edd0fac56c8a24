import HornMachine.Proofs.Heap.Reading
import HornMachine.Proofs.Machine.Operations
import HornMachine.Proofs.Machine.Stage

/-!
# What holds of a machine during an attempt

A machine that runs is about to open the frame of a rule, is inside a rule, or has left a rule's
frame and is about to go on elsewhere. Behind each choice point stands the memory of its call: going
back gives exactly that memory, with the frames that counted then. `Fits` says this of a machine and
a view of it; the view has the frames that count, the situation the machine is in, and the state at
each choice point.
-/

namespace HornMachine

open Code (Meaning Disciplined Shape Total)

variable {D : Type} [Domain D]

/-- Where a running machine is: a point inside a rule, and the rules that wait. -/
structure Situation where
  point : Point
  layers : List Layer

/-- The instances of a situation. -/
def Situation.instances (trial : Trial) (situation : Situation) : Set (Instance D) :=
  trial.instances situation.point.Says situation.layers

/-- The state at a choice point. -/
structure Pause where
  memory : Memory
  frames : Array Frame
  layers : List Layer

/-- A valuation that fits a choice point, with the predicate called. -/
def Pause.Says (pause : Pause) (choice : Choice) (θ : Valuation D) (_ : Nat → D)
    (goals : List (Task D)) : Prop :=
  pause.memory.heap.Solution θ ∧
    goals = [.call ((List.range choice.goal.arity).map (Bank.values choice.arguments θ))
      (.predicate choice.goal)]

/-- The instances of a call at a choice point. -/
def Pause.instances (trial : Trial) (pause : Pause) (choice : Choice) : Set (Instance D) :=
  trial.instances (pause.Says choice) pause.layers

/-- A choice point with the state that it goes back to. -/
structure Pause.Marks (trial : Trial) (choice : Choice) (pause : Pause) : Prop where
  trail : pause.memory.trail.size = choice.trailSize
  heap : pause.memory.heap.size = choice.heapSize
  count : pause.frames.size = choice.frameCount
  formed : pause.memory.heap.Formed trial.admits 0
  arity : choice.arguments.size = choice.goal.arity
  holds : Point.Holds choice.arguments {index | index < choice.goal.arity} pause.memory.heap.size
  resumes : ∃ caller offset, choice.continuation = .goTo caller offset
  stack : ∀ rule, trial.Stack pause.frames pause.memory.heap.size pause.frames.size rule
    choice.continuation choice.environment pause.layers
  pattern : ∀ query, choice.alternative = .facts query →
    ∃ args, args.length = choice.goal.arity ∧ query.pattern = Term.apply choice.goal.symbol args
  inside : ∀ address ∈ trial.entry.arguments, address < pause.memory.heap.size

/-- Choice points that a memory can be taken back to, one after another. -/
inductive Pause.Backed (trial : Trial) : List Choice → Memory → Array Frame → List Pause → Prop
  | nil {memory : Memory} {frames : Array Frame} : Backed trial [] memory frames []
  | cons {choice : Choice} {choices : List Choice} {memory : Memory} {frames : Array Frame}
    {pause : Pause} {pauses : List Pause} (marks : pause.Marks trial choice)
    (rewinds : memory.Rewinds pause.memory) (grown : Frame.Grown frames pause.frames)
    (older : Backed trial choices pause.memory pause.frames pauses) :
    Backed trial (choice :: choices) memory frames (pause :: pauses)

theorem Pause.Backed.later {trial : Trial} {choices : List Choice} {memory later : Memory}
    {frames more : Array Frame} {pauses : List Pause}
    (backed : Pause.Backed trial choices memory frames pauses) (rewinds : later.Rewinds memory)
    (grown : Frame.Grown more frames) : Pause.Backed trial choices later more pauses := by
  cases backed with
  | nil => exact .nil
  | cons marks back fewer older =>
    exact .cons marks (rewinds.trans back) (grown.trans fewer) older

/-! ### Machines -/

namespace Machine

/-- A machine is at a point inside a rule, with other rules waiting. -/
structure Inside (trial : Trial) (machine : Machine) (frames : Array Frame) (rule : RuleId)
    (compiled : CompiledRule) (number : Nat) (frame : Frame) (point : Point) (layers : List Layer) :
    Prop where
  running : machine.rule = some rule
  found : trial.program.rule? rule = some compiled
  shows : machine.Shows number frame machine point
  here : frames[number]? = some { frame with slots := point.slots }
  sized : point.slots.size = compiled.frameSize
  facing : point.code = compiled.code.toList.drop machine.counter
  passed : compiled.Passed machine.counter point.slots
  valid : ∃ registers building, point.Valid trial.shape registers building
  stack : trial.Stack frames machine.memory.heap.size number rule frame.continuation frame.previous
    layers

/-- A running machine is in a situation. -/
inductive Stands (trial : Trial) (machine : Machine) (frames : Array Frame) : Situation → Prop
  | entering {rule : RuleId} {compiled : CompiledRule} {layers : List Layer}
    (running : machine.rule = some rule) (found : trial.program.rule? rule = some compiled)
    (counter : machine.counter = 0) (formed : machine.memory.heap.Formed trial.admits 0)
    (holds : Point.Holds machine.registers {index | index < compiled.head.arity}
      machine.memory.heap.size)
    (stack : trial.Stack frames machine.memory.heap.size frames.size rule machine.continuation
      machine.environment layers) :
    Stands trial machine frames
      ⟨⟨machine.memory, compiled.body, machine.registers, Array.replicate compiled.frameSize none,
        machine.mode, 0⟩, layers⟩
  | inside {rule : RuleId} {compiled : CompiledRule} {number : Nat} {frame : Frame} {point : Point}
    {layers : List Layer}
    (inside : machine.Inside trial frames rule compiled number frame point layers) :
    Stands trial machine frames ⟨point, layers⟩
  | leaving {rule : RuleId} {compiled : CompiledRule} {slots : Bank} {layers : List Layer}
    {bound : Nat}
    (running : machine.rule = some rule) (found : trial.program.rule? rule = some compiled)
    (facing : compiled.code.toList.drop machine.counter = [.proceed])
    (formed : machine.memory.heap.Formed trial.admits 0)
    (sized : slots.size = compiled.frameSize) (bounded : slots.Bounded machine.memory.heap.size)
    (full : ∀ index < slots.size, index ∈ slots.filled)
    (stack : trial.Stack frames machine.memory.heap.size bound rule machine.continuation
      machine.environment layers)
    (answer : machine.continuation = .halt →
      machine.answer = some slots ∧ frames[0]?.map Frame.slots = some slots) :
    Stands trial machine frames
      ⟨⟨machine.memory, [.deallocate, .proceed], machine.registers, slots, machine.mode, 0⟩, layers⟩

/-- What is kept beside a machine to say what its state stands for. -/
structure View where
  frames : Array Frame
  current : Option Situation
  pauses : List Pause

/-- A machine in an attempt, as it is viewed. -/
structure Fits (trial : Trial) (machine : Machine) (view : View) : Prop where
  entry : machine.entry = some trial.entry
  sizes : machine.frames.size = view.frames.size
  frames : Frame.Grown machine.frames view.frames
  current : ∀ situation, view.current = some situation →
    machine.Stands trial view.frames situation
  backed : Pause.Backed trial machine.choices machine.memory view.frames view.pauses
  inside : ∀ address ∈ trial.entry.arguments, address < machine.memory.heap.size

/-- The sets of instances that a machine has before it. -/
def View.stage (D : Type) [Domain D] (trial : Trial) (context : Context) (choices : List Choice)
    (view : View) : Stage D where
  current := view.current.map (Situation.instances trial)
  choices := List.zipWith
    (fun choice pause ↦ (pause.instances trial choice, context.candidatesLeft choice))
    choices view.pauses

end Machine

/-- A context in which the attempt can run. -/
structure Trial.Runs (trial : Trial) (context : Context) : Prop where
  program : context.program = trial.program
  lawful : trial.program.Lawful trial.admits
  found : trial.program.rule? trial.entry.rule = some trial.compiled
  facts : ∀ functor, ∀ fact ∈ context.store.factsOf functor, fact.term.AllFunctors trial.admits

/-- What is needed for the instances to be those of the rules and facts as they are written. -/
structure Trial.Sense (trial : Trial) (context : Context) : Prop where
  named : trial.program.registers ≤ Emit.maxRegister
  consistent : context.store.Consistent

/-- What is needed for no instance to be lost: the domain is exact, and no structure is without
arguments, since an atom is read in its place. -/
structure Trial.Exact (D : Type) [Domain D] (trial : Trial) : Prop where
  domain : Domain.Exact D
  kinds : ∀ functor, trial.admits functor → 0 < functor.arity

end HornMachine
