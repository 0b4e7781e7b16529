import Xtream.Engine.Stages
import Xtream.Window.Count
import Xtream.Window.Loops

/-!
# What a chain can call

`Shape` is an operator without its state. It says which calls the operator can make (`Makes`), and
nothing changes it, so what a chain can call follows from the shapes of its operators:

* `Chain.execute_shape`: `execute` keeps the shapes, and makes the calls of the operators only;
* `Chain.closeAt_shape`: so does `close`, and it closes the operator's output channel at the end.
-/

namespace Xtream

/-- What an operator is, and the channels it uses. -/
inductive Shape
  | source
  | channelSource (ch : ChannelId)
  | map
  | filter
  | window (outputChannel : Option ChannelId)
  | sink
  deriving DecidableEq, Repr

namespace Shape

def outputChannel : Shape → Option ChannelId
  | window oc => oc
  | _ => none

def inputChannel : Shape → Option ChannelId
  | channelSource ch => some ch
  | _ => none

/-- The calls that `execute` can make. -/
def Makes : Shape → Output → Prop
  | _, .next _ => True
  | window oc, .write ch _ => oc = some ch
  | window _, .fire _ => True
  | sink, .sink _ => True
  | _, _ => False

theorem makes_next (s : Shape) (x : StreamElement) : s.Makes (.next x) := by
  cases s <;> exact trivial

theorem makes_emit (oc : Option ChannelId) {e : Event Record} {o : Output} (h : o ∈ emit oc e) :
    (window oc).Makes o := by
  cases oc with
  | some ch =>
    obtain rfl := List.mem_singleton.mp h
    rfl
  | none =>
    obtain rfl := List.mem_singleton.mp h
    exact trivial

theorem Makes.write {s : Shape} {ch : ChannelId} {e : Event Record} (h : s.Makes (.write ch e)) :
    s.outputChannel = some ch := by
  cases s with
  | window oc => exact h
  | _ => cases h

theorem Makes.sink {s : Shape} {e : Event Record} (h : s.Makes (.sink e)) : s = .sink := by
  cases s with
  | sink => rfl
  | _ => cases h

theorem not_makes_close (s : Shape) (ch : ChannelId) : ¬ s.Makes (.closeChannel ch) := by
  cases s <;> exact fun h => h

end Shape

theorem makes_source_outputs {actions : List SourceAction} {s : Shape} {o : Output}
    (h : o ∈ SourcePhysicalOperator.outputs actions) : s.Makes o := by
  obtain ⟨x, -, rfl⟩ := List.mem_map.mp h
  exact s.makes_next x

theorem TimeWindowPhysicalOperator.makes_outputs {U : Type} {op : TimeWindowPhysicalOperator U}
    {fs : List Firing} {o : Output} (h : o ∈ op.outputs fs) :
    (Shape.window op.outputChannel).Makes o := by
  obtain ⟨f, -, ho⟩ := List.mem_flatMap.mp h
  rcases List.mem_cons.mp ho with rfl | ho
  · exact trivial
  · exact Shape.makes_emit _ ho

namespace PhysicalOperator

variable {U : Type}

def shape : PhysicalOperator U → Shape
  | source _ => .source
  | channelSource op => .channelSource op.channel
  | map _ => .map
  | filter _ => .filter
  | countWindow op => .window op.outputChannel
  | timeWindow op => .window op.outputChannel
  | sink _ => .sink

theorem inputChannel_shape (op : PhysicalOperator U) : op.shape.inputChannel = op.inputChannel := by
  cases op <;> rfl

/-- `execute` keeps the shape and makes its calls. -/
theorem execute_shape {op : PhysicalOperator U} {fuel : Nat} {hasNext : Bool}
    {read : Option (Event Record)} {x : StreamElement} {r : PhysicalOperator U × List Output}
    (h : op.execute fuel hasNext read x = some r) :
    r.1.shape = op.shape ∧ ∀ o ∈ r.2, op.shape.Makes o := by
  cases op with
  | source op =>
    cases h
    exact ⟨rfl, fun o ho => makes_source_outputs ho⟩
  | channelSource op =>
    cases h
    unfold ChannelSourcePhysicalOperator.execute
    split
    · refine ⟨rfl, fun o ho => ?_⟩
      obtain rfl := List.mem_singleton.mp ho
      exact trivial
    · exact ⟨rfl, List.forall_mem_nil _⟩
  | map op =>
    cases h
    refine ⟨rfl, fun o ho => ?_⟩
    cases x with
    | event e =>
      obtain rfl := List.mem_singleton.mp ho
      exact trivial
    | watermark wm =>
      obtain rfl := List.mem_singleton.mp ho
      exact trivial
  | filter op =>
    cases h
    refine ⟨rfl, fun o ho => ?_⟩
    cases x with
    | event e =>
      unfold FilterPhysicalOperator.execute at ho
      by_cases hp : (op.pred op.captured e).1.1 = true
      · obtain rfl : o = .next (.event (op.pred op.captured e).1.2) := by simpa [hp] using ho
        exact trivial
      · simp [hp] at ho
    | watermark wm =>
      obtain rfl := List.mem_singleton.mp ho
      exact trivial
  | countWindow op =>
    cases h
    refine ⟨congrArg Shape.window (CountWindowPhysicalOperator.execute_outputChannel op x),
      fun o ho => ?_⟩
    cases x with
    | watermark wm => cases ho
    | event e =>
      by_cases hfull : op.buffer.length + 1 = op.spec.size.toNat
      · rw [CountWindowPhysicalOperator.execute_of_eq hfull] at ho
        exact Shape.makes_emit _ ho
      · rw [CountWindowPhysicalOperator.execute_of_ne hfull] at ho
        cases ho
  | timeWindow op =>
    obtain ⟨s, hs, rfl⟩ := Option.map_eq_some_iff.mp h
    obtain ⟨t, ht, hs⟩ := Option.bind_eq_some_iff.mp hs
    cases hs
    exact ⟨congrArg Shape.window (TimeWindowPhysicalOperator.consume_outputChannel ht),
      fun o ho => TimeWindowPhysicalOperator.makes_outputs ho⟩
  | sink op =>
    cases h
    refine ⟨by cases x <;> rfl, fun o ho => ?_⟩
    cases x with
    | event e =>
      obtain rfl := List.mem_singleton.mp ho
      exact trivial
    | watermark wm => cases ho

/-- `close` keeps the shape, makes its calls, and closes the output channel at the end. -/
theorem close_shape {op : PhysicalOperator U} {fuel : Nat} {r : PhysicalOperator U × List Output}
    (h : op.close fuel = some r) : r.1.shape = op.shape ∧
      ∃ outs, r.2 = outs ++ op.shape.outputChannel.toList.map .closeChannel ∧
        ∀ o ∈ outs, op.shape.Makes o := by
  cases op with
  | source op =>
    cases h
    exact ⟨rfl, _, (List.append_nil _).symm, fun o ho => makes_source_outputs ho⟩
  | countWindow op =>
    cases h
    cases hoc : op.outputChannel with
    | none =>
      rw [CountWindowPhysicalOperator.close_none op hoc]
      refine ⟨rfl, [], ?_, List.forall_mem_nil _⟩
      simp [shape, Shape.outputChannel, hoc]
    | some ch =>
      unfold CountWindowPhysicalOperator.close
      simp only [hoc, shape, Shape.outputChannel]
      by_cases hempty : op.buffer.isEmpty = true
      · rw [if_pos hempty]
        exact ⟨congrArg Shape.window hoc, [], rfl, List.forall_mem_nil _⟩
      · rw [if_neg hempty]
        refine ⟨rfl, [_], rfl, fun o ho => ?_⟩
        obtain rfl := List.mem_singleton.mp ho
        rfl
  | timeWindow op =>
    obtain ⟨s, hs, rfl⟩ := Option.map_eq_some_iff.mp h
    obtain ⟨t, ht, hs⟩ := Option.bind_eq_some_iff.mp hs
    cases hs
    exact ⟨congrArg Shape.window (TimeWindowPhysicalOperator.flush_outputChannel ht), _, rfl,
      fun o ho => TimeWindowPhysicalOperator.makes_outputs ho⟩
  | _ =>
    cases h
    exact ⟨rfl, [], rfl, List.forall_mem_nil _⟩

theorem feed_shape {op : PhysicalOperator U} {fuel : Nat} {xs : List StreamElement}
    {r : PhysicalOperator U × List Output} (h : op.feed fuel xs = some r) :
    r.1.shape = op.shape ∧ ∀ o ∈ r.2, op.shape.Makes o := by
  induction xs generalizing op r with
  | nil =>
    cases h
    exact ⟨rfl, List.forall_mem_nil _⟩
  | cons x xs ih =>
    obtain ⟨s, hs, h⟩ := Option.bind_eq_some_iff.mp h
    obtain ⟨t, ht, h⟩ := Option.bind_eq_some_iff.mp h
    cases h
    obtain ⟨hshape, hmakes⟩ := execute_shape hs
    obtain ⟨hshape', hmakes'⟩ := ih ht
    rw [hshape] at hshape' hmakes'
    exact ⟨hshape', fun o ho => (List.mem_append.mp ho).elim (hmakes o) (hmakes' o)⟩

/-- The calls of an operator, from its first element to its `close`. -/
theorem stage_shape {op : PhysicalOperator U} {fuel : Nat} {xs : List StreamElement}
    {outs : List Output} (h : op.stage fuel xs = some outs) :
    ∃ outs', outs = outs' ++ op.shape.outputChannel.toList.map .closeChannel ∧
      ∀ o ∈ outs', op.shape.Makes o := by
  obtain ⟨r, hr, h⟩ := Option.bind_eq_some_iff.mp h
  obtain ⟨s, hs, h⟩ := Option.bind_eq_some_iff.mp h
  cases h
  obtain ⟨hshape, hmakes⟩ := feed_shape hr
  obtain ⟨-, outs', hs', hmakes'⟩ := close_shape hs
  rw [hshape] at hs' hmakes'
  refine ⟨r.2 ++ outs', by rw [hs', List.append_assoc], fun o ho => ?_⟩
  exact (List.mem_append.mp ho).elim (hmakes o) (hmakes' o)

end PhysicalOperator

namespace Chain

variable {U : Type}

/-- The shapes of the operators. -/
def shapes (ops : Chain U) : List Shape := ops.map PhysicalOperator.shape

/-- The channels that the windows write. -/
def outputChannels (ops : Chain U) : List ChannelId := (shapes ops).filterMap Shape.outputChannel

theorem outputChannels_append (ops ops' : Chain U) :
    outputChannels (ops ++ ops') = outputChannels ops ++ outputChannels ops' := by
  simp [outputChannels, shapes]

/-- A call that one of the operators makes, and that leaves the chain. -/
def Calls (ss : List Shape) (o : Output) : Prop := o.next? = none ∧ ∃ s ∈ ss, s.Makes o

theorem Calls.write {ops : Chain U} {ch : ChannelId} {e : Event Record}
    (h : Calls (shapes ops) (.write ch e)) : ch ∈ outputChannels ops := by
  obtain ⟨-, s, hs, hm⟩ := h
  exact List.mem_filterMap.mpr ⟨s, hs, hm.write⟩

theorem not_calls_close (ss : List Shape) (ch : ChannelId) : ¬ Calls ss (.closeChannel ch) := by
  rintro ⟨-, s, -, hm⟩
  exact s.not_makes_close ch hm

theorem length_of_shapes {ops ops' : Chain U} (h : shapes ops' = shapes ops) :
    ops'.length = ops.length := by
  simpa [shapes] using congrArg List.length h

/-- `execute` of a chain keeps the shapes, and makes the calls of the operators only. -/
theorem execute_shape {fuel : Nat} {read : Option (Event Record)} {ops : Chain U}
    {x : StreamElement} {r : Chain U × List Output} (h : execute fuel read ops x = some r) :
    shapes r.1 = shapes ops ∧ ∀ o ∈ r.2, Calls (shapes ops) o := by
  induction hn : ops.length generalizing ops read x r with
  | zero =>
    obtain rfl := List.length_eq_zero_iff.mp hn
    cases h
    exact ⟨rfl, List.forall_mem_nil _⟩
  | succ n ih =>
    cases ops with
    | nil => cases hn
    | cons op rest =>
      rw [execute_cons, Option.bind_eq_some_iff] at h
      obtain ⟨r', hr', h⟩ := h
      obtain ⟨s, hs, rfl⟩ := Option.map_eq_some_iff.mp h
      obtain ⟨hshape, hmakes⟩ := PhysicalOperator.execute_shape hr'
      have hrest := deliver_inv (P := fun ops => shapes ops = shapes rest)
        (Q := Calls (shapes (op :: rest))) (fun ops y t hops ht => by
          obtain ⟨h1, h2⟩ := ih ht ((length_of_shapes hops).trans (Nat.succ.inj hn))
          refine ⟨h1.trans hops, fun o ho => ?_⟩
          obtain ⟨hn, s, hs, hm⟩ := h2 o ho
          rw [hops] at hs
          exact ⟨hn, s, List.mem_cons_of_mem _ hs, hm⟩)
        (fun o ho hn => ⟨hn, op.shape, List.mem_cons_self, hmakes o ho⟩) rfl hs
      exact ⟨congrArg₂ List.cons hshape hrest.1, hrest.2⟩

/-- What is delivered to a chain. -/
theorem deliver_shape {fuel : Nat} {ss : List Shape} {ops : Chain U} {outs : List Output}
    {r : Chain U × List Output} (houts : ∀ o ∈ outs, o.next? = none → Calls ss o)
    (hops : ∀ s ∈ shapes ops, s ∈ ss) (h : deliver (execute fuel none) ops outs = some r) :
    shapes r.1 = shapes ops ∧ ∀ o ∈ r.2, Calls ss o :=
  deliver_inv (P := fun ops' => shapes ops' = shapes ops) (Q := Calls ss)
    (fun ops' y t hops' ht => by
      obtain ⟨h1, h2⟩ := execute_shape ht
      refine ⟨h1.trans hops', fun o ho => ?_⟩
      obtain ⟨hn, s, hs, hm⟩ := h2 o ho
      rw [hops'] at hs
      exact ⟨hn, s, hops s hs, hm⟩) houts rfl h

theorem deliver_closes {next : Chain U → StreamElement → Option (Chain U × List Output)}
    (ops : Chain U) (oc : Option ChannelId) :
    deliver next ops (oc.toList.map .closeChannel) = some (ops, oc.toList.map .closeChannel) := by
  cases oc <;> rfl

/-- `close` of an operator of a chain keeps the shapes, makes the calls of the operators, and
closes the output channel at the end. -/
theorem closeAt_shape {fuel k : Nat} {ops : Chain U} {r : Chain U × List Output}
    (h : closeAt fuel k ops = some r) : shapes r.1 = shapes ops ∧
      ∃ outs, r.2 = outs ++ ((shapes ops)[k]?.bind Shape.outputChannel).toList.map .closeChannel ∧
        ∀ o ∈ outs, Calls (shapes ops) o := by
  induction k generalizing ops r with
  | zero =>
    cases ops with
    | nil =>
      cases h
      exact ⟨rfl, [], rfl, List.forall_mem_nil _⟩
    | cons op rest =>
      obtain ⟨r', hr', h⟩ := Option.bind_eq_some_iff.mp h
      obtain ⟨s, hs, h⟩ := Option.bind_eq_some_iff.mp h
      cases h
      obtain ⟨hshape, outs, hr, hmakes⟩ := PhysicalOperator.close_shape hr'
      rw [hr, deliver_append, Option.bind_eq_some_iff] at hs
      obtain ⟨t, ht, hs⟩ := hs
      rw [deliver_closes] at hs
      cases hs
      obtain ⟨h1, h2⟩ := @deliver_shape U fuel (shapes (op :: rest)) _ _ _
        (fun o ho hn => ⟨hn, op.shape, List.mem_cons_self, hmakes o ho⟩)
        (fun s hs => List.mem_cons_of_mem _ hs) ht
      exact ⟨congrArg₂ List.cons hshape h1, t.2, rfl, h2⟩
  | succ k ih =>
    cases ops with
    | nil =>
      cases h
      exact ⟨rfl, [], rfl, List.forall_mem_nil _⟩
    | cons op rest =>
      obtain ⟨s, hs, h⟩ := Option.bind_eq_some_iff.mp h
      cases h
      obtain ⟨h1, outs, h2, h3⟩ := ih hs
      refine ⟨congrArg (op.shape :: ·) h1, outs, h2, fun o ho => ?_⟩
      obtain ⟨hn, s, hs, hm⟩ := h3 o ho
      exact ⟨hn, s, List.mem_cons_of_mem _ hs, hm⟩

end Chain

end Xtream
