import Fiberexec.Support.Machine

/-!
# Type-erased tasks

A `task` owns a callable and hides its type behind a table of three functions.
A closure that is small enough, and whose move cannot throw, lives in the buffer
of the task; any other is allocated, and the buffer holds a pointer to it.  The
two tables move in different ways: the first constructs a new closure in the
other buffer and destroys the old one, the second copies the pointer.  The
members of `task` clear the table pointer only, so buffers keep what they held.

The model has a memory of all closure objects that were ever constructed.  A
function that is applied to a closure which is not alive, or not of its type,
has undefined behaviour; the model records it as a fault.
-/

namespace Fiberexec.Tasks

open Support

/-! ## Closures -/

/-- What the constructor asks of the type of a closure. -/
structure Fn where
  size : ℕ
  align : ℕ
  nothrowMoveConstructible : Bool
  deriving DecidableEq

def kBufSize : ℕ :=
  64

/-- `alignof(std::max_align_t)`. -/
def kBufAlign : ℕ :=
  16

/-- The closures that are stored in the buffer. -/
def Fn.inline (fn : Fn) : Bool :=
  decide (fn.size ≤ kBufSize) && decide (fn.align ≤ kBufAlign) &&
    fn.nothrowMoveConstructible

/-- A closure object: the callable whose value it was given, whether that value
has been moved out of it, and whether it has not been destroyed. -/
structure Object where
  callable : ℕ
  moved : Bool
  alive : Bool
  deriving DecidableEq

/-- The closure objects by their number, and what has become of them. -/
structure Memory where
  objects : List Object
  /-- the callables that were invoked -/
  invoked : List ℕ
  /-- the callables that were destroyed, apart from objects they had been
  moved out of -/
  destroyed : List ℕ
  fault : Bool
  deriving DecidableEq

namespace Memory

/-- Undefined behaviour. -/
def faulted (m : Memory) : Memory :=
  { m with fault := true }

/-- `Fn(std::forward<F>(f))`, and the number of the new object. -/
def construct (m : Memory) (callable : ℕ) : Memory × ℕ :=
  ({ m with objects := m.objects ++ [⟨callable, false, true⟩] },
    m.objects.length)

variable (fns : ℕ → Fn)

/-- The object with this number, seen as an `Fn`.  `fns` is the type of each
callable. -/
def object? (m : Memory) (fn : Fn) (o : ℕ) : Option Object :=
  match m.objects[o]? with
  | none => none
  | some ob =>
      if ob.alive = true ∧ fns ob.callable = fn then some ob else none

/-- `(*fn)()`. -/
def invoke (m : Memory) (fn : Fn) (o : ℕ) : Memory :=
  match m.object? fns fn o with
  | none => m.faulted
  | some ob =>
      if ob.moved = true then m.faulted
      else { m with invoked := m.invoked ++ [ob.callable] }

/-- `Fn(std::move(*fn))`, and the number of the new object. -/
def moveConstruct (m : Memory) (fn : Fn) (o : ℕ) : Memory × ℕ :=
  match m.object? fns fn o with
  | none => (m.faulted, m.objects.length)
  | some ob =>
      ({ m with objects := m.objects.set o { ob with moved := true } ++ [ob] },
        m.objects.length)

/-- `fn->~Fn()`; `delete fn` as well. -/
def destroy (m : Memory) (fn : Fn) (o : ℕ) : Memory :=
  match m.object? fns fn o with
  | none => m.faulted
  | some ob =>
      { m with
        objects := m.objects.set o { ob with alive := false }
        destroyed :=
          if ob.moved = true then m.destroyed
          else m.destroyed ++ [ob.callable] }

end Memory

/-! ## The tables -/

/-- What the buffer of a task holds.  A closure object that has been destroyed,
or a pointer that has been copied, is still there. -/
inductive Buf
  | bytes
  | object (o : ℕ)
  | pointer (o : ℕ)
  deriving DecidableEq

/-- `sbo_vtable_<Fn>` or `heap_vtable_<Fn>`. -/
structure VTable where
  sbo : Bool
  fn : Fn
  deriving DecidableEq

namespace VTable

/-- The closure that the functions of a table find from a buffer: the object in
it, or the one that it points to. -/
def target (vt : VTable) : Buf → Option ℕ
  | .bytes => none
  | .object o => if vt.sbo = true then some o else none
  | .pointer o => if vt.sbo = true then none else some o

variable (fns : ℕ → Fn)

/-- `invoke` of a table. -/
def invoke (vt : VTable) (m : Memory) (p : Buf) : Memory :=
  match vt.target p with
  | none => m.faulted
  | some o => m.invoke fns vt.fn o

/-- `move` of a table; what it leaves in the buffer `dst`. -/
def move (vt : VTable) (m : Memory) (src dst : Buf) : Memory × Buf :=
  match vt.target src with
  | none => (m.faulted, dst)
  | some o =>
      if vt.sbo = true then
        let r := m.moveConstruct fns vt.fn o
        (r.1.destroy fns vt.fn o, .object r.2)
      else (m, .pointer o)

/-- `destroy` of a table. -/
def destroy (vt : VTable) (m : Memory) (p : Buf) : Memory :=
  match vt.target p with
  | none => m.faulted
  | some o => m.destroy fns vt.fn o

end VTable

/-! ## Tasks -/

/-- A `task`. -/
structure Task where
  buf : Buf
  vtable : Option VTable
  deriving DecidableEq

namespace Task

/-- `task()`. -/
def empty : Task :=
  ⟨.bytes, none⟩

/-- `operator bool`. -/
def toBool (t : Task) : Bool :=
  t.vtable.isSome

variable (fns : ℕ → Fn)

/-- `task(F&& f)`. -/
def construct (m : Memory) (callable : ℕ) : Memory × Task :=
  let r := m.construct callable
  if (fns callable).inline = true then
    (r.1, ⟨.object r.2, some ⟨true, fns callable⟩⟩)
  else (r.1, ⟨.pointer r.2, some ⟨false, fns callable⟩⟩)

/-- `destroy`. -/
def destroy (t : Task) (m : Memory) : Memory × Task :=
  match t.vtable with
  | none => (m, t)
  | some vt => (vt.destroy fns m t.buf, { t with vtable := none })

/-- The lines that both ways of moving a task have in common: `vtable_` is
copied and, unless it is null, the closure is moved and the other task's
`vtable_` is cleared. -/
def moveFrom (t other : Task) (m : Memory) : Memory × Task × Task :=
  match other.vtable with
  | none => (m, { t with vtable := none }, other)
  | some vt =>
      let r := vt.move fns m other.buf t.buf
      (r.1, ⟨r.2, some vt⟩, { other with vtable := none })

/-- `operator()`; a null table pointer is dereferenced. -/
def invoke (t : Task) (m : Memory) : Memory :=
  match t.vtable with
  | none => m.faulted
  | some vt => vt.invoke fns m t.buf

end Task

/-! ## Programs -/

/-- The tasks by their address; a destroyed one is `none`. -/
structure State where
  memory : Memory
  tasks : List (Option Task)
  /-- how many callables have been stored; they are numbered in this order -/
  made : ℕ
  deriving DecidableEq

def initial : State where
  memory := ⟨[], [], [], false⟩
  tasks := []
  made := 0

/-- The task at an address. -/
def State.taskAt (s : State) (i : ℕ) : Option Task :=
  (s.tasks[i]?).join

/-- The operations on tasks.  A new task is at the next address. -/
inductive Op
  | defaultConstruct
  | construct
  | moveConstruct (src : ℕ)
  /-- `dst = src` is an assignment to itself -/
  | moveAssign (dst src : ℕ)
  | invoke (i : ℕ)
  | destroy (i : ℕ)
  deriving DecidableEq

/-- When an operation may be applied.  Only a task that is not empty is
invoked. -/
def enabled (s : State) : Op → Prop
  | .defaultConstruct | .construct => True
  | .moveConstruct src => (s.taskAt src).isSome = true
  | .moveAssign dst src =>
      (s.taskAt dst).isSome = true ∧ (s.taskAt src).isSome = true
  | .invoke i => (s.taskAt i).any Task.toBool = true
  | .destroy i => (s.taskAt i).isSome = true

/-- What an operation does, for callables of the given types. -/
def effect (fns : ℕ → Fn) (s : State) : Op → State
  | .defaultConstruct => { s with tasks := s.tasks ++ [some .empty] }
  | .construct =>
      let r := Task.construct fns s.memory s.made
      { memory := r.1, tasks := s.tasks ++ [some r.2], made := s.made + 1 }
  | .moveConstruct src =>
      match s.taskAt src with
      | none => s
      | some other =>
          let r := Task.empty.moveFrom fns other s.memory
          { s with
            memory := r.1
            tasks := s.tasks.set src (some r.2.2) ++ [some r.2.1] }
  | .moveAssign dst src =>
      if dst = src then s
      else
        match s.taskAt dst, s.taskAt src with
        | some t, some other =>
            let d := t.destroy fns s.memory
            let r := d.2.moveFrom fns other d.1
            { s with
              memory := r.1
              tasks := (s.tasks.set dst (some r.2.1)).set src (some r.2.2) }
        | _, _ => s
  | .invoke i =>
      match s.taskAt i with
      | none => s
      | some t => { s with memory := t.invoke fns s.memory }
  | .destroy i =>
      match s.taskAt i with
      | none => s
      | some t =>
          { s with
            memory := (t.destroy fns s.memory).1
            tasks := s.tasks.set i none }

/-- The programs over tasks whose callables have the given types, as a system of
steps. -/
def machine (fns : ℕ → Fn) : Machine State Op where
  init := fun s => s = initial
  enabled := enabled
  effect := effect fns

instance (fns : ℕ → Fn) (s : State) (op : Op) :
    Decidable ((machine fns).enabled s op) :=
  match op with
  | .defaultConstruct | .construct => .isTrue trivial
  | .moveConstruct src =>
      inferInstanceAs (Decidable ((s.taskAt src).isSome = true))
  | .moveAssign dst src =>
      inferInstanceAs (Decidable ((s.taskAt dst).isSome = true ∧
        (s.taskAt src).isSome = true))
  | .invoke i =>
      inferInstanceAs (Decidable ((s.taskAt i).any Task.toBool = true))
  | .destroy i => inferInstanceAs (Decidable ((s.taskAt i).isSome = true))

/-! ## What can be observed -/

/-- The callable that a task owns: the one whose value is in the live closure
that its table finds. -/
def Task.callable? (fns : ℕ → Fn) (m : Memory) (t : Task) : Option ℕ :=
  match t.vtable with
  | none => none
  | some vt =>
      match vt.target t.buf with
      | none => none
      | some o =>
          match m.object? fns vt.fn o with
          | none => none
          | some ob => if ob.moved = true then none else some ob.callable

/-- The callable that the task at an address owns. -/
def State.owned? (fns : ℕ → Fn) (s : State) (i : ℕ) : Option ℕ :=
  (s.taskAt i).bind (fun t => t.callable? fns s.memory)

/-- The closure objects that have not been destroyed. -/
def State.liveInstances (s : State) : ℕ :=
  s.memory.objects.countP (fun ob => ob.alive)

/-- The tasks that are not empty. -/
def State.nonEmpty (s : State) : ℕ :=
  s.tasks.countP (fun t => t.any Task.toBool)

end Fiberexec.Tasks
