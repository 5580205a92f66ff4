import DBStream.Native.RingFixedQueue
import Mathlib.Data.List.Infix
import Mathlib.Data.Nat.Bitwise
import Mathlib.Tactic.Ring

/-!
# What the ring queue gives out

`History` records, beside a run, the values that were pushed and popped, and for each pop how many
had been popped when it last loaded `end` and whether the queue was empty since its call.  `Right`
is what each step should show: values come out in the order they went in, a pop fails only if the
queue was empty during the call, and `size` is the number of values that are held.

An index tells the positions in the queue apart up to `arraySize`.  A step is `Timely` if the thread
that does it has not been lapped: a pop does not give up when `head` has gone round to its old index
of `end`, and its compare-and-set does not succeed because `end` has.  Besides, `size` subtracts the
wrong way, so it is asked only when `end` is not before `head`.
-/

namespace DBStream.Native.Util

variable {T : Type}

/-! ## Positions and indexes -/

theorem mod_lap {a b n : Nat} (hle : a ≤ b) (hlt : b < a + n) :
    a % n < n ∧ b % n < n ∧ (b % n = a % n + (b - a) ∨ b % n + n = a % n + (b - a)) := by
  have hn : 0 < n := by omega
  refine ⟨Nat.mod_lt _ hn, Nat.mod_lt _ hn, ?_⟩
  have hsum : b % n = (a % n + (b - a)) % n := by
    rw [Nat.mod_add_mod]
    congr 1
    omega
  have hsmall := Nat.mod_lt a hn
  rw [hsum]
  by_cases hwrap : a % n + (b - a) < n
  · exact .inl (Nat.mod_eq_of_lt hwrap)
  · rw [Nat.mod_eq_sub_mod (by omega), Nat.mod_eq_of_lt (by omega)]
    omega

theorem eq_of_mod_eq {a b n : Nat} (hle : a ≤ b) (hlt : b < a + n) (h : a % n = b % n) : a = b := by
  have hlap := mod_lap hle hlt
  omega

theorem roundUp_eq_some {size n k arraySize : Nat}
    (h : roundUp size n (2 ^ k) = some arraySize) :
    ∃ j, j ≤ n + k ∧ arraySize = 2 ^ j := by
  induction n generalizing k with
  | zero =>
    unfold roundUp at h
    split_ifs at h
    cases h
    exact ⟨k, by omega, rfl⟩
  | succ n ih =>
    unfold roundUp at h
    split_ifs at h
    · cases h
      exact ⟨k, by omega, rfl⟩
    · rw [Nat.shiftLeft_eq, pow_one, ← pow_succ] at h
      obtain ⟨j, hj, heq⟩ := ih h
      exact ⟨j, by omega, heq⟩

/-! ## What holds of the threads -/

/-- What holds of a thread that pushes, where `held` values are in the queue. -/
def Producer.Inv (array : Nat → T) (arraySize head held : Nat) : Producer T → Prop
  | .write _ => held + 1 < arraySize
  | .move v => held + 1 < arraySize ∧ array head = v
  | _ => True

/-- What holds of a thread that pops and loaded `end` when `loaded` values had been popped. -/
def Consumer.Inv (arraySize loaded popped : Nat) (pushed : List T) : Consumer T → Prop
  | .compare e _ => loaded ≤ popped ∧ e = loaded % arraySize
  | .read e _ => loaded ≤ popped ∧ e = loaded % arraySize ∧ loaded < pushed.length
  | .swap e v _ => loaded ≤ popped ∧ e = loaded % arraySize ∧
      -- what was read is what comes next, unless something has been popped since
      (popped = loaded → pushed[loaded]? = some v)
  | _ => True

theorem Consumer.Inv.mono {p : Consumer T} {arraySize loaded popped popped' : Nat}
    {pushed pushed' : List T}
    (hp : p.Inv arraySize loaded popped pushed) (hpopped : popped ≤ popped')
    (hpushed : pushed <+: pushed') : p.Inv arraySize loaded popped' pushed' := by
  cases p with
  | idle => trivial
  | load outtime => trivial
  | compare e outtime => exact ⟨hp.1.trans hpopped, hp.2⟩
  | read e outtime =>
    exact ⟨hp.1.trans hpopped, hp.2.1, hp.2.2.trans_le hpushed.length_le⟩
  | swap e v outtime =>
    refine ⟨hp.1.trans hpopped, hp.2.1, fun heq => ?_⟩
    obtain ⟨rest, rfl⟩ := hpushed
    have hread := hp.2.2 (by have := hp.1; omega)
    exact List.getElem?_append_left (List.getElem?_eq_some_iff.mp hread).1 ▸ hread

namespace RingFixedQueue

/-! ## Histories -/

/-- What has happened. -/
structure History (T : Type) where
  pushed : List T := []
  popped : List T := []
  /-- How many values had been popped when a thread last loaded `end`. -/
  loadedAt : Nat → Nat := fun _ => 0
  /-- Whether the queue was empty at some moment since a thread called `pop`. -/
  sawEmpty : Nat → Bool := fun _ => true

namespace History

variable (h : History T)

def held : Nat := h.pushed.length - h.popped.length

/-- Take down an event, before the state after it is looked at. -/
def note : Event T → History T
  | .pushed v => { h with pushed := h.pushed ++ [v] }
  | .popped _ v => { h with popped := h.popped ++ [v] }
  | .popCalled c => { h with sawEmpty := Function.update h.sawEmpty c false }
  | .loaded c => { h with loadedAt := Function.update h.loadedAt c h.popped.length }
  | _ => h

/-- The history after an event.  If the queue is empty then, all calls in progress have seen it. -/
def record (ev : Event T) : History T :=
  if (h.note ev).held = 0 then { h.note ev with sawEmpty := fun _ => true } else h.note ev

end History

def Quiet (s : RingFixedQueue T) : Prop :=
  s.producer = .idle ∧ ∀ c, s.consumer c = .idle

def Right (s : RingFixedQueue T) (h : History T) : Event T → Prop
  | .popped _ v => h.popped ++ [v] <+: h.pushed
  | .popFailed c => h.sawEmpty c = true
  | .sized n => s.Quiet → n = h.held
  | _ => True

def RightRun (s : RingFixedQueue T) (h : History T) : List (Action T) → Prop
  | [] => True
  | a :: as => s.Right h (s.step a).2 ∧ RightRun (s.step a).1 (h.record (s.step a).2) as

/-! ## Laps -/

/-- A thread is not lapped when it does a step that depends on it. -/
def Timely (s : RingFixedQueue T) (h : History T) : Action T → Prop
  | .consumer c weak =>
    match s.consumer c with
    | .compare e outtime =>
      e = s.head → outtime ≤ 0 → h.pushed.length < h.loadedAt c + s.arraySize
    | .swap e _ _ => s.end_ = e → weak = false → h.popped.length < h.loadedAt c + s.arraySize
    | _ => True
  | .size => s.Quiet → s.head ≤ s.end_
  | _ => True

/-- All steps of a run are timely. -/
def TimelyRun (s : RingFixedQueue T) (h : History T) : List (Action T) → Prop
  | [] => True
  | a :: as => s.Timely h a ∧ TimelyRun (s.step a).1 (h.record (s.step a).2) as

/-! ## The invariant -/

/-- The queue is as its history says. -/
structure QueueInv (s : RingFixedQueue T) (h : History T) : Prop where
  size : ∃ k, k ≤ 31 ∧ s.arraySize = 2 ^ k
  popped : h.popped <+: h.pushed
  room : h.held < s.arraySize
  head : s.head = h.pushed.length % s.arraySize
  end_ : s.end_ = h.popped.length % s.arraySize
  slot : ∀ i v, h.popped.length ≤ i → h.pushed[i]? = some v → s.array (i % s.arraySize) = v
  producer : s.producer.Inv s.array s.arraySize s.head h.held
  consumer : ∀ c, (s.consumer c).Inv s.arraySize (h.loadedAt c) h.popped.length h.pushed

/-- An empty queue has been seen by all calls in progress. -/
def SeenEmpty (h : History T) : Prop := h.held = 0 → ∀ c, h.sawEmpty c = true

variable {s : RingFixedQueue T} {h : History T} {c : Nat} {p : Consumer T}

private theorem seenEmpty_record (h : History T) (ev : Event T) : SeenEmpty (h.record ev) := by
  intro hempty c
  unfold History.record at hempty ⊢
  by_cases hnote : (h.note ev).held = 0
  · rw [if_pos hnote]
  · rw [if_neg hnote] at hempty
    exact absurd hempty hnote

theorem QueueInv.saw (hinv : QueueInv s h) (sawEmpty : Nat → Bool) :
    QueueInv s { h with sawEmpty := sawEmpty } :=
  ⟨hinv.size, hinv.popped, hinv.room, hinv.head, hinv.end_, hinv.slot, hinv.producer, hinv.consumer⟩

theorem QueueInv.record {ev : Event T} (hinv : QueueInv s (h.note ev)) :
    QueueInv s (h.record ev) := by
  unfold History.record
  split_ifs
  · exact hinv.saw _
  · exact hinv

theorem QueueInv.popped_le (hinv : QueueInv s h) : h.popped.length ≤ h.pushed.length :=
  hinv.popped.length_le

theorem QueueInv.next_eq (hinv : QueueInv s h) (i : Nat) : s.next i = (i + 1) % s.arraySize := by
  obtain ⟨k, -, hk⟩ := hinv.size
  rw [next, hk, Nat.and_two_pow_sub_one_eq_mod]

theorem QueueInv.setConsumer (hinv : QueueInv s h)
    (hp : p.Inv s.arraySize (h.loadedAt c) h.popped.length h.pushed) :
    QueueInv (s.setConsumer c p) h where
  size := hinv.size
  popped := hinv.popped
  room := hinv.room
  head := hinv.head
  end_ := hinv.end_
  slot := hinv.slot
  producer := hinv.producer
  consumer d := by
    unfold RingFixedQueue.setConsumer
    by_cases hd : d = c
    · subst hd
      simpa using hp
    · simpa [hd] using hinv.consumer d

theorem QueueInv.setProducer (hinv : QueueInv s h) {p : Producer T}
    (hp : p.Inv s.array s.arraySize s.head h.held) : QueueInv { s with producer := p } h :=
  ⟨hinv.size, hinv.popped, hinv.room, hinv.head, hinv.end_, hinv.slot, hp, hinv.consumer⟩

/-! ## Steps of the thread that pushes -/

theorem QueueInv.room_of_check (hinv : QueueInv s h) (hne : s.next s.head ≠ s.end_) :
    h.held + 1 < s.arraySize := by
  have hle := hinv.popped_le
  have hroom := hinv.room
  by_contra hfull
  apply hne
  rw [hinv.next_eq, hinv.head, hinv.end_, Nat.mod_add_mod]
  unfold History.held at *
  rw [show h.pushed.length + 1 = h.popped.length + s.arraySize by omega, Nat.add_mod_right]

theorem QueueInv.write (hinv : QueueInv s h) {v : T} (hroom : h.held + 1 < s.arraySize) :
    QueueInv { s with array := Function.update s.array s.head v, producer := .move v } h where
  size := hinv.size
  popped := hinv.popped
  room := hinv.room
  head := hinv.head
  end_ := hinv.end_
  slot i w hi hw := by
    have hlt := (List.getElem?_eq_some_iff.mp hw).1
    have hne : i % s.arraySize ≠ s.head := by
      rw [hinv.head]
      intro heq
      unfold History.held at hroom
      have := eq_of_mod_eq hlt.le (by omega) heq
      omega
    show Function.update s.array s.head v (i % s.arraySize) = w
    rw [Function.update_of_ne hne]
    exact hinv.slot i w hi hw
  producer := ⟨hroom, Function.update_self ..⟩
  consumer := hinv.consumer

theorem QueueInv.move (hinv : QueueInv s h) {v : T} (hp : s.producer = .move v) :
    QueueInv { s with head := s.next s.head, producer := .idle } (h.note (.pushed v)) := by
  have hmove := hinv.producer
  rw [hp] at hmove
  obtain ⟨hroom, hstored⟩ := hmove
  have hle := hinv.popped_le
  have hheld : (h.note (.pushed v)).held = h.held + 1 := by
    simp only [History.held, History.note, List.length_append, List.length_singleton]
    omega
  constructor
  · exact hinv.size
  · exact hinv.popped.trans (List.prefix_append ..)
  · rw [hheld]
    exact hroom
  · show s.next s.head = (h.pushed ++ [v]).length % s.arraySize
    rw [hinv.next_eq, hinv.head, Nat.mod_add_mod, List.length_append, List.length_singleton]
  · exact hinv.end_
  · intro i w hi hw
    by_cases hlast : i = h.pushed.length
    · subst hlast
      obtain rfl : v = w := by simpa [History.note] using hw
      rw [← hinv.head, hstored]
    · refine hinv.slot i w hi ?_
      have hlt := (List.getElem?_eq_some_iff.mp hw).1
      simp only [History.note, List.length_append, List.length_singleton] at hlt
      rwa [History.note, List.getElem?_append_left (by omega)] at hw
  · trivial
  · intro c
    exact (hinv.consumer c).mono le_rfl (List.prefix_append ..)

theorem QueueInv.producerStep (hinv : QueueInv s h) :
    s.Right h s.producerStep.2 ∧ QueueInv s.producerStep.1 (h.note s.producerStep.2) := by
  unfold RingFixedQueue.producerStep
  cases hp : s.producer with
  | idle => exact ⟨trivial, hinv⟩
  | check v outtime =>
    dsimp only
    split_ifs with hfull htime
    · exact ⟨trivial, hinv.setProducer trivial⟩
    · exact ⟨trivial, hinv.setProducer trivial⟩
    · exact ⟨trivial, hinv.setProducer (p := .write v) (hinv.room_of_check hfull)⟩
  | write v =>
    have hroom := hinv.producer
    rw [hp] at hroom
    exact ⟨trivial, hinv.write hroom⟩
  | move v => exact ⟨trivial, hinv.move hp⟩

/-! ## Steps of a thread that pops -/

/-- A swap that succeeds takes the next value, unless the thread was lapped. -/
theorem QueueInv.take (hinv : QueueInv s h) {e : Nat} {v : T} {outtime : Int}
    (hc : s.consumer c = .swap e v outtime) (he : s.end_ = e)
    (hlap : h.popped.length < h.loadedAt c + s.arraySize) :
    h.popped ++ [v] <+: h.pushed ∧
      QueueInv { s.setConsumer c .idle with end_ := s.next e } (h.note (.popped c v)) := by
  have hswap := hinv.consumer c
  rw [hc] at hswap
  obtain ⟨hloaded, hmod, hread⟩ := hswap
  -- the swap compares places modulo the size: less than one lap apart they are the same
  have hcurrent : h.loadedAt c = h.popped.length := by
    refine eq_of_mod_eq hloaded hlap ?_
    rw [← hmod, ← he, hinv.end_]
  have hnext := hread hcurrent.symm
  rw [hcurrent] at hnext
  have hlt := (List.getElem?_eq_some_iff.mp hnext).1
  have htaken : h.popped ++ [v] <+: h.pushed := by
    obtain ⟨rest, hrest⟩ := hinv.popped
    rw [← hrest, List.getElem?_append_right le_rfl, Nat.sub_self] at hnext
    cases rest with
    | nil => cases hnext
    | cons w rest =>
      cases hnext
      exact ⟨rest, by rw [← hrest]; simp⟩
  refine ⟨htaken, ?_⟩
  have hlength : (h.popped ++ [v]).length = h.popped.length + 1 := by simp
  have hheld : (h.note (.popped c v)).held + 1 = h.held := by
    simp only [History.held, History.note, hlength]
    omega
  have hroom := hinv.room
  have hidle := hinv.setConsumer (c := c) (p := .idle) trivial
  constructor
  · exact hinv.size
  · exact htaken
  · show (h.note (.popped c v)).held < s.arraySize
    omega
  · exact hinv.head
  · show s.next e = (h.popped ++ [v]).length % s.arraySize
    rw [hinv.next_eq, ← he, hinv.end_, Nat.mod_add_mod, hlength]
  · intro i w hi hw
    have hi : (h.popped ++ [v]).length ≤ i := hi
    exact hinv.slot i w (by omega) hw
  -- one value less is held, so what the producer has checked still holds
  · have hproducer := hinv.producer
    show s.producer.Inv s.array s.arraySize s.head (h.note (.popped c v)).held
    cases hp : s.producer with
    | idle => trivial
    | check v outtime => trivial
    | write w =>
      show (h.note (.popped c v)).held + 1 < s.arraySize
      omega
    | move w =>
      rw [hp] at hproducer
      refine ⟨?_, hproducer.2⟩
      omega
  · intro d
    exact (hidle.consumer d).mono (by simp [History.note]) List.prefix_rfl

theorem QueueInv.load (hinv : QueueInv s h) (c : Nat) (outtime : Int) :
    QueueInv (s.setConsumer c (.compare s.end_ outtime)) (h.note (.loaded c)) := by
  constructor
  · exact hinv.size
  · exact hinv.popped
  · exact hinv.room
  · exact hinv.head
  · exact hinv.end_
  · exact hinv.slot
  · exact hinv.producer
  · intro d
    by_cases hd : d = c
    · subst hd
      simp only [RingFixedQueue.setConsumer, History.note, Function.update_self]
      exact ⟨le_rfl, hinv.end_⟩
    · simpa [RingFixedQueue.setConsumer, History.note, hd] using hinv.consumer d

theorem QueueInv.held_of_giveUp (hinv : QueueInv s h) {e : Nat} {outtime : Int}
    (hc : s.consumer c = .compare e outtime) (he : e = s.head)
    (hlap : h.pushed.length < h.loadedAt c + s.arraySize) : h.held = 0 := by
  have hcompare := hinv.consumer c
  rw [hc] at hcompare
  obtain ⟨hloaded, hmod⟩ := hcompare
  have hle := hinv.popped_le
  have hsame : h.loadedAt c = h.pushed.length := by
    refine eq_of_mod_eq (hloaded.trans hle) hlap ?_
    rw [← hmod, he, hinv.head]
  unfold History.held
  omega

theorem QueueInv.found (hinv : QueueInv s h) {e : Nat} {outtime : Int}
    (hc : s.consumer c = .compare e outtime) (he : e ≠ s.head) :
    QueueInv (s.setConsumer c (.read e outtime)) h := by
  have hcompare := hinv.consumer c
  rw [hc] at hcompare
  obtain ⟨hloaded, hmod⟩ := hcompare
  refine hinv.setConsumer ⟨hloaded, hmod, ?_⟩
  by_contra hlate
  apply he
  have hle := hinv.popped_le
  rw [hmod, hinv.head, show h.loadedAt c = h.pushed.length by omega]

theorem QueueInv.read (hinv : QueueInv s h) {e : Nat} {outtime : Int}
    (hc : s.consumer c = .read e outtime) :
    QueueInv (s.setConsumer c (.swap e (s.array e) outtime)) h := by
  have hread := hinv.consumer c
  rw [hc] at hread
  obtain ⟨hloaded, hmod, hlt⟩ := hread
  refine hinv.setConsumer ⟨hloaded, hmod, fun hcurrent => ?_⟩
  have hslot := hinv.slot (h.loadedAt c) h.pushed[h.loadedAt c] hcurrent.le
    (List.getElem?_eq_getElem hlt)
  rw [hmod, hslot]
  exact List.getElem?_eq_getElem hlt

theorem QueueInv.consumerStep (hinv : QueueInv s h) (hseen : SeenEmpty h) {weak : Bool}
    (htimely : s.Timely h (.consumer c weak)) :
    s.Right h (s.consumerStep c weak).2 ∧
      QueueInv (s.consumerStep c weak).1 (h.note (s.consumerStep c weak).2) := by
  unfold RingFixedQueue.consumerStep
  cases hc : s.consumer c with
  | idle => exact ⟨trivial, hinv⟩
  | load outtime => exact ⟨trivial, hinv.load c outtime⟩
  | compare e outtime =>
    simp only [Timely, hc] at htimely
    dsimp only
    split_ifs with he htime
    · have hempty := hinv.held_of_giveUp hc he (htimely he htime)
      exact ⟨hseen hempty c, hinv.setConsumer trivial⟩
    · have hcompare := hinv.consumer c
      rw [hc] at hcompare
      exact ⟨trivial, hinv.setConsumer (p := .compare e (outtime - 1)) hcompare⟩
    · exact ⟨trivial, hinv.found hc he⟩
  | read e outtime => exact ⟨trivial, hinv.read hc⟩
  | swap e v outtime =>
    simp only [Timely, hc] at htimely
    dsimp only
    split_ifs with hswap
    · exact hinv.take hc hswap.1 (htimely hswap.1 hswap.2)
    · exact ⟨trivial, hinv.load c outtime⟩

/-! ## Size -/

theorem QueueInv.size_eq_held_iff (hinv : QueueInv s h) : s.size = h.held ↔ s.head ≤ s.end_ := by
  have hle := hinv.popped_le
  have hroom := hinv.room
  obtain ⟨k, hk, hsize⟩ := hinv.size
  have hpow : s.arraySize ≤ 2 ^ 31 := hsize ▸ Nat.pow_le_pow_right (by omega) hk
  unfold History.held at hroom ⊢
  have hlap := mod_lap hle (by omega : h.pushed.length < h.popped.length + s.arraySize)
  rw [← hinv.head, ← hinv.end_] at hlap
  unfold RingFixedQueue.size
  split_ifs with hbehind
  · rw [Nat.mod_eq_of_lt (by omega)]
    omega
  · by_cases heq : s.head = s.end_
    · rw [heq, Nat.add_sub_cancel, Nat.mod_self]
      omega
    · rw [Nat.mod_eq_of_lt (by omega)]
      omega

/-! ## Runs -/

theorem QueueInv.step (hinv : QueueInv s h) (hseen : SeenEmpty h) {a : Action T}
    (htimely : s.Timely h a) :
    s.Right h (s.step a).2 ∧ QueueInv (s.step a).1 (h.note (s.step a).2) := by
  unfold RingFixedQueue.step
  cases a with
  | push v outtime =>
    cases hp : s.producer with
    | idle => exact ⟨trivial, hinv.setProducer (p := .check v outtime) trivial⟩
    | check _ _ => exact ⟨trivial, hinv⟩
    | write _ => exact ⟨trivial, hinv⟩
    | move _ => exact ⟨trivial, hinv⟩
  | producer => exact hinv.producerStep
  | pop c outtime =>
    dsimp only
    cases hc : s.consumer c with
    | idle => exact ⟨trivial, (hinv.setConsumer (p := .load outtime) trivial).saw _⟩
    | load _ => exact ⟨trivial, hinv⟩
    | compare _ _ => exact ⟨trivial, hinv⟩
    | read _ _ => exact ⟨trivial, hinv⟩
    | swap _ _ _ => exact ⟨trivial, hinv⟩
  | consumer c weak => exact hinv.consumerStep hseen htimely
  | size => exact ⟨fun hquiet => hinv.size_eq_held_iff.mpr (htimely hquiet), hinv⟩

theorem QueueInv.rightRun (hinv : QueueInv s h) (hseen : SeenEmpty h) {as : List (Action T)}
    (htimely : TimelyRun s h as) : RightRun s h as := by
  induction as generalizing s h with
  | nil => trivial
  | cons a as ih =>
    obtain ⟨hright, hstep⟩ := hinv.step hseen htimely.1
    exact ⟨hright, ih hstep.record (seenEmpty_record h _) htimely.2⟩

private theorem queueInv_new {size arraySize : Nat} (hsize : roundUp size 31 1 = some arraySize)
    (array : Nat → T) :
    QueueInv ({ array := array, arraySize := arraySize } : RingFixedQueue T) {} := by
  obtain ⟨k, hk, rfl⟩ : ∃ k, k ≤ 31 + 0 ∧ arraySize = 2 ^ k := roundUp_eq_some (k := 0) hsize
  constructor
  · exact ⟨k, hk, rfl⟩
  · exact List.prefix_rfl
  · exact Nat.two_pow_pos k
  · exact (Nat.zero_mod _).symm
  · exact (Nat.zero_mod _).symm
  · nofun
  · trivial
  · exact fun _ => trivial

/-- A run on a new queue whose steps are all timely is right. -/
theorem right_of_timely {size arraySize : Nat} (hsize : roundUp size 31 1 = some arraySize)
    (array : Nat → T) (as : List (Action T))
    (htimely : TimelyRun { array := array, arraySize := arraySize } {} as) :
    RightRun { array := array, arraySize := arraySize } {} as :=
  (queueInv_new hsize array).rightRun (fun _ _ => rfl) htimely

/-- Two threads read the first value, and only one of them pops it.  The other one waits for the next
    value, which is in the other slot, and fails once more to swap. -/
theorem right_of_timely_two :
    RightRun { array := fun _ => 0, arraySize := 2 } {}
      [.push 7 0, .producer, .producer, .producer,
        .pop 0 0, .consumer 0 false, .consumer 0 false, .consumer 0 false,
        .pop 1 1, .consumer 1 false, .consumer 1 false, .consumer 1 false,
        .consumer 0 false, .consumer 1 false, .consumer 1 false,
        .push 8 0, .producer, .producer, .producer,
        .consumer 1 false, .consumer 1 false, .consumer 1 true,
        .consumer 1 false, .consumer 1 false, .consumer 1 false, .size] := by
  have hsize : roundUp 2 31 1 = some 2 := rfl
  refine right_of_timely hsize _ _ ?_
  refine ⟨trivial, trivial, trivial, trivial, ?_⟩
  refine ⟨trivial, trivial, fun _ _ => by decide, trivial, ?_⟩
  refine ⟨trivial, trivial, fun _ _ => by decide, trivial, ?_⟩
  refine ⟨fun _ _ => by decide, fun _ _ => by decide, fun _ _ => by decide, ?_⟩
  refine ⟨trivial, trivial, trivial, trivial, ?_⟩
  refine ⟨fun _ _ => by decide, trivial, fun _ _ => by decide, ?_⟩
  exact ⟨fun _ _ => by decide, trivial, fun _ _ => by decide, fun _ => by decide, trivial⟩

/-- A thread reads the slot of the first value, and is lapped by another one. -/
theorem not_right_lapped : ¬RightRun { array := fun _ => 0, arraySize := 2 } {}
    ([.push 7 0, .producer, .producer, .producer] ++
      [.pop 0 0, .consumer 0 false, .consumer 0 false, .consumer 0 false] ++
      [.pop 1 0, .consumer 1 false, .consumer 1 false, .consumer 1 false, .consumer 1 false] ++
      [.push 8 0, .producer, .producer, .producer] ++
      [.pop 1 0, .consumer 1 false, .consumer 1 false, .consumer 1 false, .consumer 1 false] ++
      [.push 9 0, .producer, .producer, .producer] ++ [.consumer 0 false]) := by
  intro h
  -- the last step takes the first value a second time
  have hlater := h.2.2.2.2.2.2.2.2.2.2.2.2.2
  obtain ⟨-, -, -, -, -, -, -, -, -, -, -, -, -, hlast, -⟩ := hlater
  have hlast : [7, 8] ++ [7] <+: [7, 8, 9] := hlast
  revert hlast
  decide

end RingFixedQueue

end DBStream.Native.Util
