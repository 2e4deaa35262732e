import Mathlib.Data.List.Basic
import Mathlib.Data.Int.Init
import Mathlib.Logic.Function.Basic

/-!
# The Redis commands a service uses

The commands of one string key, of one list and of one counter, each with its response and with
what it does to the value stored under the key.  Every one is atomic, which is all that the
callers rely on.

A key that is not there is `none`.  A command sees its own key only, so its meaning is a function
on one cell: `KeyOp.exec` takes the cell to the response and the new cell.  The response depends
on the command, and its type is computed from it, `KeyOp.Resp`.  What a store with many keys does
is then the cell of the key that is named, and the others as they were; that is left to the store.

Values are of any type.  Lifetimes are arguments of the commands that set them and are not part of
a cell: a development that needs the expiry runs a clock beside the store.  `isThere` is `EXISTS`
of one key.

The simp lemmas at the end give the meaning of each command in one line.
-/

namespace Cococoir
namespace Redis

variable {V : Type}

/-- A command on one string key. -/
inductive KeyOp (V : Type) : Type where
  /-- `GET` -/
  | get : KeyOp V
  /-- `SET` -/
  | set (v : V) : KeyOp V
  /-- `SETEX`: set with a time to live, in seconds. -/
  | setEx (v : V) (ttl : ℕ) : KeyOp V
  /-- `SETNX`: set only if the key is absent. -/
  | setNx (v : V) : KeyOp V
  /-- `SET key v EX ttl NX`. -/
  | setNxEx (v : V) (ttl : ℕ) : KeyOp V
  /-- `DEL` -/
  | del : KeyOp V
  /-- `GETDEL` -/
  | getDel : KeyOp V
  /-- `EXISTS` -/
  | isThere : KeyOp V
  deriving DecidableEq

/-- What each command answers. -/
@[reducible] def KeyOp.Resp : KeyOp V → Type
  | .get => Option V
  | .set _ => Unit
  | .setEx _ _ => Unit
  | .setNx _ => Bool
  | .setNxEx _ _ => Bool
  | .del => ℕ
  | .getDel => Option V
  | .isThere => Bool

/-- The response, and the value of the key afterwards. -/
def KeyOp.exec : (op : KeyOp V) → Option V → op.Resp × Option V
  | .get, cell => (cell, cell)
  | .set v, _ => ((), some v)
  | .setEx v _, _ => ((), some v)
  | .setNx v, none => (true, some v)
  | .setNx _, some u => (false, some u)
  | .setNxEx v _, none => (true, some v)
  | .setNxEx _ _, some u => (false, some u)
  | .del, none => (0, none)
  | .del, some _ => (1, none)
  | .getDel, cell => (cell, none)
  | .isThere, cell => (cell.isSome, cell)

/-- A command on one list. -/
inductive ListOp (V : Type) : Type where
  /-- `LRANGE key 0 -1` -/
  | lrange : ListOp V
  /-- `RPUSH` -/
  | rpush (x : V) : ListOp V
  /-- `LREM key 1 x`: remove the first occurrence. -/
  | lrem (x : V) : ListOp V
  deriving DecidableEq

@[reducible] def ListOp.Resp : ListOp V → Type
  | .lrange => List V
  | .rpush _ => ℕ
  | .lrem _ => ℕ

def ListOp.exec [DecidableEq V] : (op : ListOp V) → List V → op.Resp × List V
  | .lrange, xs => (xs, xs)
  | .rpush x, xs => (xs.length + 1, xs ++ [x])
  | .lrem x, xs => (if x ∈ xs then 1 else 0, xs.erase x)

/-- A command on one counter. -/
inductive CounterOp : Type where
  /-- `SETNX` -/
  | setNx (v : ℤ) : CounterOp
  /-- `INCR`; an absent counter counts from 0. -/
  | incr : CounterOp
  /-- `DECR` -/
  | decr : CounterOp
  deriving DecidableEq

@[reducible] def CounterOp.Resp : CounterOp → Type
  | .setNx _ => Bool
  | .incr => ℤ
  | .decr => ℤ

def CounterOp.exec : (op : CounterOp) → Option ℤ → op.Resp × Option ℤ
  | .setNx v, none => (true, some v)
  | .setNx _, some u => (false, some u)
  | .incr, cell => (cell.getD 0 + 1, some (cell.getD 0 + 1))
  | .decr, cell => (cell.getD 0 - 1, some (cell.getD 0 - 1))

/-! ## What the commands do -/

variable {cell : Option V} {v : V} {ttl : ℕ}

@[simp] theorem exec_get : KeyOp.get.exec cell = (cell, cell) := rfl

@[simp] theorem exec_set : (KeyOp.set v).exec cell = ((), some v) := rfl

@[simp] theorem exec_setEx : (KeyOp.setEx v ttl).exec cell = ((), some v) := rfl

@[simp] theorem exec_getDel : KeyOp.getDel.exec cell = (cell, none) := rfl

@[simp] theorem exec_isThere : KeyOp.isThere.exec cell = (cell.isSome, cell) := rfl

@[simp] theorem exec_setNx : (KeyOp.setNx v).exec cell = (cell.isNone, some (cell.getD v)) := by
  cases cell <;> rfl

@[simp] theorem exec_setNxEx :
    (KeyOp.setNxEx v ttl).exec cell = (cell.isNone, some (cell.getD v)) := by
  cases cell <;> rfl

@[simp] theorem exec_del : KeyOp.del.exec cell = (cell.toList.length, none) := by
  cases cell <;> rfl

variable [DecidableEq V] {xs : List V} {x : V}

@[simp] theorem exec_lrange : ListOp.lrange.exec xs = (xs, xs) := rfl

@[simp] theorem exec_rpush : (ListOp.rpush x).exec xs = (xs.length + 1, xs ++ [x]) := rfl

@[simp] theorem exec_lrem :
    (ListOp.lrem x).exec xs = (if x ∈ xs then 1 else 0, xs.erase x) := rfl

variable {n : Option ℤ} {z : ℤ}

@[simp] theorem exec_counter_setNx :
    (CounterOp.setNx z).exec n = (n.isNone, some (n.getD z)) := by
  cases n <;> rfl

@[simp] theorem exec_incr : CounterOp.incr.exec n = (n.getD 0 + 1, some (n.getD 0 + 1)) := rfl

@[simp] theorem exec_decr : CounterOp.decr.exec n = (n.getD 0 - 1, some (n.getD 0 - 1)) := rfl

end Redis
end Cococoir
