import ShardQuery.Error

/-!
The memory budget of one query. A charge that does not fit is refused and changes nothing.
-/

namespace ShardQuery

structure Ledger where
  used : Nat
  limit : Nat
  deriving DecidableEq, Inhabited, Repr

namespace Ledger

def ofLimit (limit : Nat) : Ledger := ⟨0, limit⟩

/-- Counts in 64 bits that do not wrap. -/
def saturate (n : Nat) : Nat := min n (2 ^ 64 - 1)

def charge (l : Ledger) (bytes : Nat) : Except QueryError Ledger :=
  if l.used + bytes ≤ l.limit then .ok { l with used := l.used + bytes }
  else .error (.memoryExceeded (saturate (l.used + bytes)) l.limit)

def release (l : Ledger) (bytes : Nat) : Ledger := { l with used := l.used - bytes }

theorem charge_eq_ok_iff {l m : Ledger} {bytes : Nat} :
    l.charge bytes = .ok m ↔ l.used + bytes ≤ l.limit ∧ m = ⟨l.used + bytes, l.limit⟩ := by
  by_cases h : l.used + bytes ≤ l.limit <;> simp [charge, h, eq_comm]

end Ledger
end ShardQuery
