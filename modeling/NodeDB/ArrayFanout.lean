import NodeDB.ArrayOps

/-!
# Fan-out of applied operations to subscribers

Every applied operation is offered to the sessions whose shapes match it.  A
session's cursor is the highest clock queued to it; an operation at or below
the cursor counts as delivered.  The others go through a merger, which buffers
what several shards emit and drains the buffer in clock order into the
session's bounded channel.

The calls run on several threads.  A thread is the list of actions it still
has to take, each of them under one lock, and the threads take turns in any
order.
-/

namespace NodeDB.ArraySync
namespace Outbound

open Std ArrayEngine

/-! ## Shapes -/

structure ArrayCoordRange where
  start : List Nat
  stop : Option (List Nat)
  deriving DecidableEq, Repr

def ArrayCoordRange.contains (range : ArrayCoordRange) (coord : List Nat) : Bool :=
  coord.length = range.start.length && !decide (coord < range.start) &&
    range.stop.all fun stop => coord.length = stop.length && !decide (stop < coord)

/-- A subscription to an array; `none` is the unbounded range. -/
structure ArrayShape where
  arrayName : String
  coordRange : Option ArrayCoordRange
  deriving DecidableEq, Repr

def ArrayShape.matchesArrayOp (shape : ArrayShape) (array : String) (coord : List Nat) : Bool :=
  shape.arrayName = array && shape.coordRange.all fun range => range.contains coord

@[ext]
structure ShapeScope where
  tenantId : Nat
  databaseId : Nat
  deriving DecidableEq, Repr

structure Client where
  scope : ShapeScope
  shapes : List ArrayShape

abbrev ShapeRegistry := List (String × Client)

def ShapeRegistry.evaluateArrayMutation (registry : ShapeRegistry) (scope : ShapeScope)
    (array : String) (coord : List Nat) : List String :=
  registry.flatMap fun entry =>
    if entry.2.scope = scope then
      (entry.2.shapes.filter fun shape => shape.matchesArrayOp array coord).map fun _ => entry.1
    else []

def coordToU64 (coord : Coord) : List Nat :=
  coord.map fun
    | .int64 value => (value % 2 ^ 64).toNat
    | .timestampMs value => (value % 2 ^ 64).toNat
    | .float64 bits => bits.toNat
    | .string _ => 2 ^ 64 - 1

/-! ## Channels, cursors and mergers -/

abbrev SubscriberKey := String × Scope

section System

variable {ν : Type}

inductive Frame (ν : Type) where
  | delta (scope : Scope) (op : ArrayOp ν)
  | retentionFloor (array : String) (lastPushedHlc : Hlc)
  | other
  deriving DecidableEq, Repr

/-- The channel of a session: every frame queued so far, of which `received` have been taken. -/
structure SessionDelivery (ν : Type) where
  capacity : Nat
  frames : List (Frame ν)
  received : Nat
  closed : Bool
  lagged : Bool
  deriving DecidableEq, Repr

def channelCapacity : Nat := 1024

def SessionDelivery.new (capacity : Nat) : SessionDelivery ν where
  capacity := capacity
  frames := []
  received := 0
  closed := false
  lagged := false

/-- A frame that finds the channel full marks the session; nothing is queued any more. -/
def SessionDelivery.enqueue (delivery : SessionDelivery ν) (frame : Frame ν) :
    SessionDelivery ν × Bool :=
  if delivery.lagged then (delivery, false)
  else if delivery.closed then (delivery, false)
  else if delivery.capacity ≤ delivery.frames.length - delivery.received then
    ({ delivery with lagged := true }, false)
  else ({ delivery with frames := delivery.frames ++ [frame] }, true)

structure Merger (ν : Type) where
  buffer : TreeMap Hlc (ArrayOp ν)
  knownShards : TreeSet Nat

def Merger.new : Merger ν where
  buffer := ∅
  knownShards := ∅

def drainThreshold : Nat := 64

def Merger.push (merger : Merger ν) (shardId : Nat) (op : ArrayOp ν) : Merger ν where
  buffer := merger.buffer.insert op.header.hlc op
  knownShards := merger.knownShards.insert shardId

def Merger.shouldDrain (merger : Merger ν) : Bool :=
  drainThreshold ≤ merger.buffer.size || merger.knownShards.size ≤ 1

/-- The whole buffer, in clock order, whether a shard is idle or not. -/
def Merger.opsToDeliver (merger : Merger ν) : List (ArrayOp ν) :=
  merger.buffer.toList.map Prod.snd

def Merger.remove (merger : Merger ν) (ops : List (ArrayOp ν)) : Merger ν :=
  { merger with
    buffer := ops.foldl (fun buffer op => buffer.erase op.header.hlc) merger.buffer }

def shouldSend (opHlc lastPushedHlc : Hlc) : Bool :=
  lastPushedHlc < opHlc

/-! ## Threads -/

inductive Action (ν : Type) where
  | check (shardId : Nat) (key : SubscriberKey) (op : ArrayOp ν)
  | push (shardId : Nat) (key : SubscriberKey) (op : ArrayOp ν)
  | take (key : SubscriberKey)
  | clear (key : SubscriberKey) (ops : List (ArrayOp ν))
  | enqueue (key : SubscriberKey) (op : ArrayOp ν)
  | mark (key : SubscriberKey) (op : ArrayOp ν)
  deriving DecidableEq, Repr

structure State (ν : Type) where
  cursors : SubscriberKey → Option Hlc
  delivery : String → Option (SessionDelivery ν)
  mergers : SubscriberKey → Merger ν
  snapshotHlcs : Scope → Option Hlc
  threads : List (List (Action ν))

/-- Nothing was collected, the mergers are empty, the channels of the sessions are fresh. -/
def State.start (capacity : Nat) (sessions : List String) (cursors : SubscriberKey → Option Hlc) :
    State ν where
  cursors := cursors
  delivery := fun session => if session ∈ sessions then some (.new capacity) else none
  mergers := fun _ => .new
  snapshotHlcs := fun _ => none
  threads := []

namespace State

def enqueueFrame (state : State ν) (session : String) (frame : Frame ν) : State ν × Bool :=
  match state.delivery session with
  | none => (state, false)
  | some delivery =>
    ({ state with
       delivery := Function.update state.delivery session (delivery.enqueue frame).1 },
      (delivery.enqueue frame).2)

/-- Tells a subscriber whose cursor is below what was collected to catch up. -/
def checkAndTrigger (state : State ν) (key : SubscriberKey) (lastPushedHlc : Hlc) :
    State ν × Bool :=
  if (state.snapshotHlcs key.2).getD Hlc.zero ≤ lastPushedHlc then (state, false)
  else ((state.enqueueFrame key.1 (.retentionFloor key.2.array lastPushedHlc)).1, true)

def updateMerger (state : State ν) (key : SubscriberKey) (merger : Merger ν) : State ν :=
  { state with mergers := Function.update state.mergers key merger }

def markSent (state : State ν) (key : SubscriberKey) (hlc : Hlc) : State ν :=
  { state with
    cursors := Function.update state.cursors key
      ((state.cursors key).map fun last => max last hlc) }

/-- Takes an action; the actions returned are what it goes on with. -/
def execute (state : State ν) : Action ν → State ν × List (Action ν)
  | .check shardId key op =>
    match state.cursors key with
    | none => (state, [])
    | some last =>
      if shouldSend op.header.hlc last then
        let (state, triggered) := state.checkAndTrigger key last
        (state, if triggered then [] else [.push shardId key op])
      else (state, [])
  | .push shardId key op =>
    let merger := (state.mergers key).push shardId op
    (state.updateMerger key merger, if merger.shouldDrain then [.take key] else [])
  | .take key =>
    let ops := (state.mergers key).opsToDeliver
    (state, if ops = [] then [] else [.clear key ops])
  | .clear key ops =>
    (state.updateMerger key ((state.mergers key).remove ops), ops.map (.enqueue key))
  | .enqueue key op =>
    let (state, queued) := state.enqueueFrame key.1 (.delta key.2 op)
    (state, if queued then [.mark key op] else [])
  | .mark key op => (state.markSent key op.header.hlc, [])

def runThread (state : State ν) (index : Nat) : State ν :=
  match state.threads[index]? with
  | some (action :: rest) =>
    let (next, more) := state.execute action
    { next with threads := next.threads.set index (more ++ rest) }
  | _ => state

def spawn (state : State ν) (actions : List (Action ν)) : State ν :=
  { state with threads := state.threads ++ [actions] }

end State

inductive Step (ν : Type) where
  | onOpApplied (shardId : Nat) (scope : ShapeScope) (op : ArrayOp ν)
  | drainTo (key : SubscriberKey)
  | run (index : Nat)
  | queueOther (session : String)
  | receive (session : String)
  | close (session : String)

def fanOutOp (registry : ShapeRegistry) (shardId : Nat) (scope : ShapeScope) (op : ArrayOp ν) :
    List (Action ν) :=
  (registry.evaluateArrayMutation scope op.header.array (coordToU64 op.coord)).map fun session =>
    .check shardId (session, scopeOf scope.databaseId scope.tenantId op) op

def State.updateChannel (state : State ν) (session : String)
    (update : SessionDelivery ν → SessionDelivery ν) : State ν :=
  { state with
    delivery := Function.update state.delivery session ((state.delivery session).map update) }

def State.perform (registry : ShapeRegistry) (state : State ν) : Step ν → State ν
  | .onOpApplied shardId scope op => state.spawn (fanOutOp registry shardId scope op)
  | .drainTo key => state.spawn [.take key]
  | .run index => state.runThread index
  | .queueOther session => (state.enqueueFrame session .other).1
  | .receive session => state.updateChannel session fun delivery =>
    { delivery with received := min (delivery.received + 1) delivery.frames.length }
  | .close session => state.updateChannel session fun delivery =>
    { delivery with closed := true }

end System

end Outbound
end NodeDB.ArraySync
