import NodeDB.ArrayCells
import Mathlib.Data.Prod.Lex
import Mathlib.Data.String.Basic

/-!
# Array operations and their clock

Every change of an array cell travels as an operation stamped with a hybrid
logical clock: wall-clock milliseconds, a counter within the millisecond and
the replica.  Clocks are ordered by these three in turn.
-/

namespace NodeDB.ArraySync

open ArrayEngine Std

theorem lawful_compare (α : Type) [LinearOrder α] : TransOrd α ∧ LawfulEqOrd α :=
  ⟨inferInstance, inferInstance⟩

structure Hlc where
  physicalMs : UInt64
  logical : UInt16
  replicaId : UInt64
  deriving DecidableEq, Repr

namespace Hlc

def key (hlc : Hlc) : ℕ ×ₗ ℕ ×ₗ ℕ :=
  toLex (hlc.physicalMs.toNat, toLex (hlc.logical.toNat, hlc.replicaId.toNat))

theorem key_injective : Function.Injective key := by
  rintro ⟨physicalMs, logical, replicaId⟩ ⟨physicalMs', logical', replicaId'⟩ h
  obtain ⟨hphysical, hrest⟩ := Prod.ext_iff.mp (toLex.injective h)
  obtain ⟨hlogical, hreplica⟩ := Prod.ext_iff.mp (toLex.injective hrest)
  dsimp only at hphysical hlogical hreplica
  rw [UInt64.toNat_inj.mp hphysical, UInt16.toNat_inj.mp hlogical, UInt64.toNat_inj.mp hreplica]

instance : LinearOrder Hlc :=
  LinearOrder.lift' key key_injective

instance : TransOrd Hlc :=
  (lawful_compare Hlc).1

instance : LawfulEqOrd Hlc :=
  (lawful_compare Hlc).2

def zero : Hlc where
  physicalMs := 0
  logical := 0
  replicaId := 0

def maxPhysicalMs : UInt64 := UInt64.ofNat (2 ^ 48 - 1)

def top : Hlc where
  physicalMs := maxPhysicalMs
  logical := UInt16.ofNat (2 ^ 16 - 1)
  replicaId := UInt64.ofNat (2 ^ 64 - 1)

theorem zero_le (hlc : Hlc) : zero ≤ hlc := by
  have hzero : zero.key = toLex (0, toLex (0, 0)) := rfl
  change zero.key ≤ hlc.key
  rw [hzero, key, Prod.Lex.toLex_le_toLex]
  rcases Nat.eq_zero_or_pos hlc.physicalMs.toNat with hphysical | hphysical
  · right
    refine ⟨hphysical.symm, ?_⟩
    rw [Prod.Lex.toLex_le_toLex]
    rcases Nat.eq_zero_or_pos hlc.logical.toNat with hlogical | hlogical
    · exact .inr ⟨hlogical.symm, Nat.zero_le _⟩
    · exact .inl hlogical
  · exact .inl hphysical

end Hlc

inductive ArrayOpKind where
  | put
  | delete
  | erase
  deriving DecidableEq, Repr

structure ArrayOpHeader where
  array : String
  hlc : Hlc
  schemaHlc : Hlc
  validFromMs : Int
  validUntilMs : Int
  systemFromMs : Int
  deriving DecidableEq, Repr

structure ArrayOp (ν : Type) where
  header : ArrayOpHeader
  kind : ArrayOpKind
  coord : Coord
  attrs : Option (List ν)
  deriving DecidableEq, Repr

structure Scope where
  databaseId : Nat
  tenantId : Nat
  array : String
  deriving DecidableEq, Repr

namespace Scope

def key (scope : Scope) : ℕ ×ₗ ℕ ×ₗ String :=
  toLex (scope.databaseId, toLex (scope.tenantId, scope.array))

theorem key_injective : Function.Injective key := by
  rintro ⟨databaseId, tenantId, array⟩ ⟨databaseId', tenantId', array'⟩ h
  obtain ⟨hdatabase, hrest⟩ := Prod.ext_iff.mp (toLex.injective h)
  obtain ⟨htenant, harray⟩ := Prod.ext_iff.mp (toLex.injective hrest)
  dsimp only at hdatabase htenant harray
  rw [hdatabase, htenant, harray]

instance : LinearOrder Scope :=
  LinearOrder.lift' key key_injective

instance : TransOrd Scope :=
  (lawful_compare Scope).1

instance : LawfulEqOrd Scope :=
  (lawful_compare Scope).2

end Scope

def scopeOf {ν : Type} (databaseId tenantId : Nat) (op : ArrayOp ν) : Scope where
  databaseId := databaseId
  tenantId := tenantId
  array := op.header.array

end NodeDB.ArraySync
