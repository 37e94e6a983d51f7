import NodeDB.LockEntry

/-!
# The deterministic lock manager of the Calvin scheduler

One manager serves one vshard.  A request names a mode for each of its keys.
It is granted at once, wounds younger read reservations, or takes what it can
and waits on the rest.  Keys are any totally ordered type; the maps iterate
in key order.
-/

namespace NodeDB.Calvin

open Std

abbrev LockRequest (κ : Type) [Ord κ] := TreeMap κ LockMode

def LockRequest.single {κ : Type} [Ord κ] (key : κ) (mode : LockMode) :
    LockRequest κ :=
  TreeMap.empty.insert key mode

/-- The lock table, the keys of dispatched transactions and the full requests
of blocked ones. -/
structure LockManager (κ : Type) [Ord κ] where
  table : TreeMap κ LockEntry
  heldLocks : TreeMap TxnId (TreeSet κ)
  pendingKeys : TreeMap TxnId (LockRequest κ)

inductive AcquireOutcome where
  | ready
  | blocked
  deriving DecidableEq, Repr

/-- Where one requested key stands for one requester. -/
inductive KeyState where
  | free
  | held
  | join
  | conflict
  deriving DecidableEq, Repr

inductive ConflictResolution where
  | wound
  | block
  deriving DecidableEq, Repr

namespace LockManager

variable {κ : Type} [Ord κ]

def new : LockManager κ :=
  { table := ∅, heldLocks := ∅, pendingKeys := ∅ }

/-! ## Classification and the three ways to settle a key -/

def classify (manager : LockManager κ) (txn : TxnId) (key : κ)
    (mode : LockMode) : KeyState :=
  match manager.table[key]? with
  | none => .free
  | some entry =>
    match entry.modeOf txn with
    | some own =>
      let raised := own.merge mode
      if raised = own ∨ entry.othersCompatible txn raised then
        .held
      else
        .conflict
    | none =>
      if entry.hasWaiter txn then
        .conflict
      else if entry.mode.compatible mode && entry.waiters.isEmpty then
        .join
      else
        .conflict

def conflicts (manager : LockManager κ) (txn : TxnId) (request : LockRequest κ) :
    Bool :=
  request.toList.any fun item =>
    decide (manager.classify txn item.1 item.2 = .conflict)

def grant (manager : LockManager κ) (txn : TxnId) (key : κ) (mode : LockMode) :
    LockManager κ :=
  { manager with table := manager.table.alter key (LockEntry.grant txn mode) }

def enqueue (manager : LockManager κ) (txn : TxnId) (key : κ) (mode : LockMode) :
    LockManager κ :=
  { manager with table := manager.table.alter key (LockEntry.enqueue txn mode) }

def wound (manager : LockManager κ) (txn : TxnId) (key : κ) (mode : LockMode) :
    LockManager κ :=
  { manager with table := manager.table.alter key (LockEntry.wound txn mode) }

/-- Whether a requester can wound a conflicting key: nobody waits on it, and
every other holder is a younger read reservation in shared mode. -/
def canWound (manager : LockManager κ) (txn : TxnId) (key : κ) : Bool :=
  match manager.table[key]? with
  | none => false
  | some entry =>
    let others := entry.holders.filter fun holder => decide (holder.1 ≠ txn)
    entry.waiters.isEmpty && !others.isEmpty &&
      others.all fun holder =>
        decide (holder.2 = .shared) && holder.1.isReservation &&
          decide (compare txn holder.1 = .lt)

/-- Decide how `txn` resolves a request with at least one conflicting key. -/
def resolveConflict (manager : LockManager κ) (txn : TxnId)
    (request : LockRequest κ) : ConflictResolution :=
  if request.toList.all fun item =>
      decide (manager.classify txn item.1 item.2 ≠ .conflict) ||
        manager.canWound txn item.1
  then
    .wound
  else
    .block

def finishReady (manager : LockManager κ) (txn : TxnId)
    (request : LockRequest κ) : LockManager κ :=
  { manager with
    heldLocks := manager.heldLocks.alter txn fun keys =>
      some (request.keys.foldl (fun keys key => keys.insert key) (keys.getD ∅)) }

/-! ## Acquisition -/

/-- One key of a request that grows: a key named twice takes the merged
mode. -/
def addMode (mode : LockMode) : Option LockMode → Option LockMode
  | none => some mode
  | some held => some (held.merge mode)

def mergeRequest (pending keys : LockRequest κ) : LockRequest κ :=
  keys.toList.foldl
    (fun request item => request.alter item.1 (addMode item.2)) pending

def fullRequest (manager : LockManager κ) (txn : TxnId)
    (keys : LockRequest κ) : LockRequest κ :=
  mergeRequest ((manager.pendingKeys[txn]?).getD ∅) keys

/-- Settle each key of a request: the conflicting keys by `settle`, the others
by a grant. -/
def settleKeys (manager : LockManager κ) (txn : TxnId) (request : LockRequest κ)
    (settle : LockManager κ → κ → LockMode → LockManager κ) : LockManager κ :=
  request.toList.foldl
    (fun settled (key, mode) =>
      match manager.classify txn key mode with
      | .conflict => settle settled key mode
      | _ => settled.grant txn key mode)
    manager

def acquire (manager : LockManager κ) (txn : TxnId) (keys : LockRequest κ) :
    AcquireOutcome × LockManager κ :=
  let request := manager.fullRequest txn keys
  let manager := { manager with pendingKeys := manager.pendingKeys.erase txn }
  if manager.conflicts txn request = false then
    let granted := manager.settleKeys txn request fun m key mode => m.grant txn key mode
    (.ready, granted.finishReady txn request)
  else
    match manager.resolveConflict txn request with
    | .wound =>
      let wounded := manager.settleKeys txn request fun m key mode => m.wound txn key mode
      (.ready, wounded.finishReady txn request)
    | .block =>
      let blocked := manager.settleKeys txn request fun m key mode =>
        m.enqueue txn key mode
      (.blocked, { blocked with
        pendingKeys := blocked.pendingKeys.insert txn request })

def acquireShared (manager : LockManager κ) (txn : TxnId) (key : κ) :
    AcquireOutcome × LockManager κ :=
  manager.acquire txn (.single key .shared)

def tryAcquire (manager : LockManager κ) (txn : TxnId) (keys : LockRequest κ) :
    Bool × LockManager κ :=
  if manager.conflicts txn keys then
    (false, manager)
  else
    let granted := keys.toList.foldl
      (fun granted item => granted.grant txn item.1 item.2) manager
    (true, granted.finishReady txn keys)

/-! ## Release -/

/-- Move a granted transaction to the dispatched ones once it holds every key
of its request. -/
def checkReady (state : LockManager κ × TreeSet TxnId) (next : TxnId) :
    LockManager κ × TreeSet TxnId :=
  let manager := state.1
  match manager.pendingKeys[next]? with
  | none => state
  | some pending =>
    let allHeld := pending.keys.all fun key =>
      match manager.table[key]? with
      | none => false
      | some entry => entry.holds next
    if allHeld then
      let manager := { manager with pendingKeys := manager.pendingKeys.erase next }
      (manager.finishReady next pending, state.2.insert next)
    else
      state

/-- Grant the front of the key's waiter queue while it is compatible with the
current holders.  A key with neither holders nor waiters is removed. -/
def promoteWaiters (state : LockManager κ × TreeSet TxnId) (key : κ) :
    LockManager κ × TreeSet TxnId :=
  let manager := state.1
  match manager.table[key]? with
  | none => state
  | some entry =>
    let (entry, granted) := entry.serve entry.waiters
    let table :=
      if entry.holders.isEmpty && entry.waiters.isEmpty then
        manager.table.erase key
      else
        manager.table.insert key entry
    granted.foldl checkReady ({ manager with table := table }, state.2)

/-- One key of a release: `txn` leaves the holders and the waiters, and the
queue moves up. -/
def releaseKey (txn : TxnId) (state : LockManager κ × TreeSet TxnId) (key : κ) :
    LockManager κ × TreeSet TxnId :=
  let manager := state.1
  match manager.table[key]? with
  | none => state
  | some entry =>
    promoteWaiters
      ({ manager with table := manager.table.insert key (entry.leave txn) }, state.2) key

/-- The keys a release visits: those `txn` held and those it requested. -/
def releaseKeys (manager : LockManager κ) (txn : TxnId) : TreeSet κ :=
  ((manager.pendingKeys[txn]?).getD ∅).keys.foldl (fun keys key => keys.insert key)
    ((manager.heldLocks[txn]?).getD ∅)

/-- Release every lock `txn` holds and every wait it queues.  Returns the
fully promoted transactions in ascending order. -/
def release (manager : LockManager κ) (txn : TxnId) :
    List TxnId × LockManager κ :=
  let keys := manager.releaseKeys txn
  let manager := { manager with
    heldLocks := manager.heldLocks.erase txn
    pendingKeys := manager.pendingKeys.erase txn }
  let released := keys.toList.foldl (releaseKey txn) (manager, ∅)
  (released.2.toList, released.1)

/-! ## Reaping -/

/-- Whether every key `owner` holds, and every key it requests, is shared. -/
def holdsOnlyShared (manager : LockManager κ) (owner : TxnId) : Bool :=
  let heldShared :=
    match manager.heldLocks[owner]? with
    | none => true
    | some keys => keys.toList.all fun key =>
      match (manager.table[key]?).bind fun entry => entry.modeOf owner with
      | none => true
      | some mode => decide (mode = .shared)
  let waitsShared :=
    match manager.pendingKeys[owner]? with
    | none => true
    | some keys => keys.toList.all fun (_, mode) => decide (mode = .shared)
  heldShared && waitsShared

/-- The reservation owners that a reap releases, in ascending order. -/
def expiredShared (manager : LockManager κ) (epochThreshold : Nat) : List TxnId :=
  let known := (manager.heldLocks.keys ++ manager.pendingKeys.keys).filter
    fun owner => owner.isReservation && decide (owner.epoch < epochThreshold)
  let owners := known.foldl (fun owners owner => owners.insert owner) (∅ : TreeSet TxnId)
  owners.toList.filter fun owner => manager.holdsOnlyShared owner

def reapOwners (owners : List TxnId) (state : List TxnId × LockManager κ) :
    List TxnId × LockManager κ :=
  owners.foldl
    (fun state owner =>
      let released := state.2.release owner
      (state.1 ++ released.1, released.2))
    state

/-- Release every expired shared reservation.  Returns the promoted waiters in
ascending order, each once. -/
def reapExpiredShared (manager : LockManager κ) (epochThreshold : Nat) :
    List TxnId × LockManager κ :=
  let reaped := reapOwners (manager.expiredShared epochThreshold) ([], manager)
  let promoted := reaped.1.foldl
    (fun promoted txn => promoted.insert txn) (∅ : TreeSet TxnId)
  (promoted.toList, reaped.2)

end LockManager

end NodeDB.Calvin
