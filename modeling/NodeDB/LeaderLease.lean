import NodeDB.RaftState

/-!
# Lease rounds of a leader

Every request to a voter or learner is stamped with a round.  The lease is
anchored at the sending time of the latest round that a quorum of voters has
acknowledged.
-/

namespace NodeDB.Raft

def untrackedRound : Nat := 0

def maxPendingRounds : Nat := 4096

def lastRound : Nat := 2 ^ 64 - 1

structure LeaseState where
  nextRound : Nat
  termFirstRound : Nat
  /-- Rounds sent and not settled, oldest first, with their sending times. -/
  sent : List (Nat × Nat)
  anchor : Option Nat
  revoked : Bool
  deriving DecidableEq, Repr

namespace LeaseState

def new : LeaseState :=
  { nextRound := untrackedRound + 1
    termFirstRound := untrackedRound + 1
    sent := []
    anchor := none
    revoked := false }

def beginTerm (lease : LeaseState) : LeaseState :=
  { lease with
    termFirstRound := lease.nextRound
    sent := []
    anchor := none
    revoked := false }

/-- Stamp a round.  The oldest pending round is dropped when the list is
full. -/
def stamp (lease : LeaseState) (now : Nat) : Nat × LeaseState :=
  let pending :=
    if maxPendingRounds ≤ lease.sent.length then lease.sent.drop 1 else lease.sent
  (lease.nextRound, { lease with
    nextRound := min (lease.nextRound + 1) lastRound
    sent := pending ++ [(lease.nextRound, now)] })

def isCurrent (lease : LeaseState) (round : Nat) : Bool :=
  decide (lease.termFirstRound ≤ round ∧ round < lease.nextRound)

theorem isCurrent_iff (lease : LeaseState) (round : Nat) :
    lease.isCurrent round = true ↔
      lease.termFirstRound ≤ round ∧ round < lease.nextRound := by
  simp [isCurrent]

/-- Settle a round a quorum acknowledged: the anchor moves up to its sending
time, and it leaves the pending rounds together with those before it.  Returns
the anchor. -/
def settle (lease : LeaseState) (round : Nat) : Option Nat × LeaseState :=
  match lease.sent.findIdx? fun pair => decide (pair.1 = round) with
  | none => (lease.anchor, lease)
  | some pos =>
    let sentAt := ((lease.sent[pos]?).map Prod.snd).getD 0
    let anchor :=
      match lease.anchor with
      | none => some sentAt
      | some anchor => some (if anchor < sentAt then sentAt else anchor)
    (anchor, { lease with
      anchor := anchor
      sent := lease.sent.drop (pos + 1) })

theorem settle_cases (lease : LeaseState) (round : Nat) :
    (lease.settle round).2 = lease ∨
      ∃ sentAt, (round, sentAt) ∈ lease.sent ∧
        (lease.settle round).2.nextRound = lease.nextRound ∧
        (lease.settle round).2.termFirstRound = lease.termFirstRound ∧
        (∀ pair ∈ (lease.settle round).2.sent, pair ∈ lease.sent) ∧
        ((lease.settle round).2.anchor = some sentAt ∨
          (lease.settle round).2.anchor = lease.anchor) := by
  unfold settle
  cases hfind : lease.sent.findIdx? fun pair => decide (pair.1 = round) with
  | none => exact Or.inl rfl
  | some pos =>
    right
    obtain ⟨hlt, hround, -⟩ := List.findIdx?_eq_some_iff_getElem.mp hfind
    have hget : lease.sent[pos]? = some lease.sent[pos] := List.getElem?_eq_getElem hlt
    refine ⟨lease.sent[pos].2, ?_, rfl, rfl, ?_, ?_⟩
    · have heq : lease.sent[pos].1 = round := by simpa using hround
      rw [← heq]
      exact List.getElem_mem hlt
    · intro pair hpair
      exact List.mem_of_mem_drop hpair
    · simp only [hget, Option.map_some, Option.getD_some]
      cases lease.anchor with
      | none => exact Or.inl rfl
      | some anchor =>
        by_cases hlater : anchor < lease.sent[pos].2
        · simp [hlater]
        · simp [hlater]

def revoke (lease : LeaseState) : LeaseState :=
  { lease with revoked := true }

def clearAnchor (lease : LeaseState) : LeaseState :=
  { lease with anchor := none }

end LeaseState

/-- The latest answer of one voter in the current term. -/
structure VoterAck where
  peer : Nat
  round : Nat
  arrived : Nat
  deriving DecidableEq, Repr

end NodeDB.Raft
