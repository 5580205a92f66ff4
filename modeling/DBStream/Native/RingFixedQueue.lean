import Mathlib.Algebra.Group.Nat.Defs
import Mathlib.Logic.Function.Basic

/-!
# The ring queue of fixed size

`ringFixedQueue` of `util/ringFixedQueue.h`: one thread pushes, any number of threads pop.

A call is cut into its atomic steps.  A step is a load or a store of a word that other threads use
(`end`, `head`, a slot of `array`) or a compare-and-set; a thread is described by the step it does
next and its local variables.  The waiting between two turns of a loop is left out.  An index is a
number below `arraySize`; if `head + 1` does not fit an `int32_t` it wraps, and the mask gives 0.
-/

namespace DBStream.Native.Util

variable {T : Type}

/-- The loop of the constructor of `ringFixedQueue`.  A size above 2^31 is never reached. -/
def roundUp (size : Nat) : Nat → Nat → Option Nat
  | 0, arraySize => if arraySize ≥ size then some arraySize else none
  | n + 1, arraySize =>
    if arraySize ≥ size then some arraySize else roundUp size n (arraySize <<< 1)

/-- What the thread that pushes does next. -/
inductive Producer (T : Type) where
  | idle
  /-- Load `end` and compare it with the next index. -/
  | check (v : T) (outtime : Int)
  /-- Store the value in the slot. -/
  | write (v : T)
  /-- Store the next index in `head`. -/
  | move (v : T)

/-- What a thread that pops does next. -/
inductive Consumer (T : Type) where
  | idle
  /-- Load `end`. -/
  | load (outtime : Int)
  /-- Load `head` and compare it. -/
  | compare (e : Nat) (outtime : Int)
  /-- Load the value from the slot. -/
  | read (e : Nat) (outtime : Int)
  /-- Compare `end` with the index that was loaded, and set it. -/
  | swap (e : Nat) (v : T) (outtime : Int)

/-- `ringFixedQueue` and its threads. -/
structure RingFixedQueue (T : Type) where
  array : Nat → T
  arraySize : Nat
  head : Nat := 0
  end_ : Nat := 0
  producer : Producer T := .idle
  consumer : Nat → Consumer T := fun _ => .idle

namespace RingFixedQueue

/-- A thread does its next step.  `weak` is whether `compare_exchange_weak` fails without need. -/
inductive Action (T : Type) where
  | push (v : T) (outtime : Int)
  | producer
  | pop (c : Nat) (outtime : Int)
  | consumer (c : Nat) (weak : Bool)
  | size

/-- What is seen of a step.  A value is pushed with the step that moves `head`. -/
inductive Event (T : Type) where
  | internal
  | pushed (v : T)
  | pushFailed
  | popCalled (c : Nat)
  | loaded (c : Nat)
  | popped (c : Nat) (v : T)
  | popFailed (c : Nat)
  | sized (n : Nat)

variable (s : RingFixedQueue T)

/-- The index behind another. -/
def next (i : Nat) : Nat := (i + 1) &&& (s.arraySize - 1)

def size : Nat :=
  if s.end_ > s.head then (s.head + s.arraySize - s.end_) % 2 ^ 32
  else (2 ^ 32 + s.end_ - s.head) % 2 ^ 32

/-- The thread of a pop goes on. -/
def setConsumer (c : Nat) (p : Consumer T) : RingFixedQueue T :=
  { s with consumer := Function.update s.consumer c p }

/-- A step of `push`. -/
def producerStep : RingFixedQueue T × Event T :=
  match s.producer with
  | .idle => (s, .internal)
  | .check v outtime =>
    if s.next s.head = s.end_ then
      if outtime ≤ 0 then ({ s with producer := .idle }, .pushFailed)
      else ({ s with producer := .check v (outtime - 1) }, .internal)
    else ({ s with producer := .write v }, .internal)
  | .write v =>
    ({ s with array := Function.update s.array s.head v, producer := .move v }, .internal)
  | .move v => ({ s with head := s.next s.head, producer := .idle }, .pushed v)

/-- A step of `pop`.  The inner loop does not load `end` again. -/
def consumerStep (c : Nat) (weak : Bool) : RingFixedQueue T × Event T :=
  match s.consumer c with
  | .idle => (s, .internal)
  | .load outtime => (s.setConsumer c (.compare s.end_ outtime), .loaded c)
  | .compare e outtime =>
    if e = s.head then
      if outtime ≤ 0 then (s.setConsumer c .idle, .popFailed c)
      else (s.setConsumer c (.compare e (outtime - 1)), .internal)
    else (s.setConsumer c (.read e outtime), .internal)
  | .read e outtime => (s.setConsumer c (.swap e (s.array e) outtime), .internal)
  | .swap e v outtime =>
    if s.end_ = e ∧ weak = false then ({ s.setConsumer c .idle with end_ := s.next e }, .popped c v)
    else (s.setConsumer c (.compare s.end_ outtime), .loaded c)

/-- A step of any thread.  A thread that is in a call begins no other. -/
def step : Action T → RingFixedQueue T × Event T
  | .push v outtime =>
    match s.producer with
    | .idle => ({ s with producer := .check v outtime }, .internal)
    | _ => (s, .internal)
  | .producer => s.producerStep
  | .pop c outtime =>
    match s.consumer c with
    | .idle => (s.setConsumer c (.load outtime), .popCalled c)
    | _ => (s, .internal)
  | .consumer c weak => s.consumerStep c weak
  | .size => (s, .sized s.size)

end RingFixedQueue

end DBStream.Native.Util
