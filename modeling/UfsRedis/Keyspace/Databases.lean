import UfsRedis.Sds

/-!
# Databases by number

A key is identified by the number of its database and its name. The commands of `src/db.c` that take
the number of a database test it against `server.dbnum` after it was converted to an `int`.
-/

namespace UfsRedis

abbrev DbKey := Nat × Sds

theorem ite_dbKey {α β : Type} {p q : DbKey} {t e : α} {x : β} (f : α → β)
    (ht : f t = if q.2 = p.2 then x else f e) :
    f (if q.1 = p.1 then t else e) = if q = p then x else f e := by
  split
  · rename_i h
    rw [ht]
    simp [Prod.ext_iff, h]
  rename_i h
  rw [if_neg fun he => h (congrArg Prod.fst he)]

/-- The test of `selectDb` and `dbSwapDatabases` on the number of a database. -/
def dbIndex (dbnum : Nat) (id : Int) : Option Nat :=
  if id < 0 ∨ id ≥ dbnum then none else some id.toNat

/-- The database of `SELECT`. A `long` number is passed as an `int`. -/
def selectTarget (dbnum : Nat) (id : Int) : Option Nat := dbIndex dbnum (id.bmod (2 ^ 32))

/-- The database of `MOVE`. A number that is not an integer is `none`. -/
def moveTarget (dbnum : Nat) (dbid : Option Int) : Option Nat := do
  let id ← dbid
  if id < -2147483648 ∨ id > 2147483647 then none
  dbIndex dbnum id

/-- The databases that `dbSwapDatabases` exchanges. A `long` number is passed as an `int`. -/
def swapTargets (dbnum : Nat) (id1 id2 : Int) : Option (Nat × Nat) := do
  let d₁ ← dbIndex dbnum (id1.bmod (2 ^ 32))
  let d₂ ← dbIndex dbnum (id2.bmod (2 ^ 32))
  return (d₁, d₂)

end UfsRedis
