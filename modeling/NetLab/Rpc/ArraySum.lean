import NetLab.Imperative.Loop
import Mathlib.Algebra.BigOperators.Group.List.Basic
import Mathlib.Data.BitVec

/-!
# The two servers that add an array

Both procedures keep the result in a static variable, whose address they return.
The one of `end/rpc` sets it to zero first. The one of `rpc/arraysum` does not, so
that each reply is the sum of everything that was ever sent.
-/

namespace NetLab.Rpc

open NetLab.Imperative

/-- The argument `numbers`, with a size that its array has room for. -/
structure Numbers (room : ℕ) where
  size : ℕ
  nums : Vector (BitVec 32) room
  size_le : size ≤ room
deriving Repr

namespace Numbers

variable {room : ℕ}

/-- The loop of both procedures. -/
def addTo (argp : Numbers room) (result : BitVec 32) : BitVec 32 :=
  forUp 0 argp.size (fun i result => result + argp.nums[i]?.getD 0) result

def sum (argp : Numbers room) : BitVec 32 :=
  (argp.nums.toList.take argp.size).sum

theorem addTo_eq (argp : Numbers room) (result : BitVec 32) :
    argp.addTo result = result + argp.sum := by
  apply forUp_induction
    (fun taken current => current = result + (argp.nums.toList.take taken).sum)
    (Nat.zero_le argp.size)
  · simp
  · rintro index current - inside rfl
    have within : index < argp.nums.toList.length := by
      simpa using inside.trans_le argp.size_le
    rw [List.take_succ_eq_append_getElem within, List.sum_append, List.sum_singleton, add_assoc,
      Vector.getElem_toList, Vector.getElem?_eq_getElem (inside.trans_le argp.size_le),
      Option.getD_some]

end Numbers

/-- `add_1_svc` of `rpc/arraysum`: the value of `result` after a call, which is the reply. -/
def arraysumSvc (result : BitVec 32) (argp : Numbers 100) : BitVec 32 :=
  argp.addTo result

/-- `add_1_svc` of `end/rpc` -/
def addSvc (_result : BitVec 32) (argp : Numbers 128) : BitVec 32 :=
  argp.addTo 0

section Replies

variable {room : ℕ} {svc : BitVec 32 → Numbers room → BitVec 32}

/-- The replies to requests in the order in which they are served, whoever sent them. -/
def replies (svc : BitVec 32 → Numbers room → BitVec 32) :
    BitVec 32 → List (Numbers room) → List (BitVec 32)
  | _, [] => []
  | result, argp :: requests => svc result argp :: replies svc (svc result argp) requests

/-- A reply that does not depend on the static variable does not depend on earlier requests. -/
theorem replies_eq_map {answer : Numbers room → BitVec 32}
    (forgets : ∀ result argp, svc result argp = answer argp) (result : BitVec 32)
    (requests : List (Numbers room)) : replies svc result requests = requests.map answer := by
  induction requests generalizing result with
  | nil => rfl
  | cons argp requests ih => rw [replies, ih, forgets, List.map_cons]

end Replies

/-- The server of `end/rpc` gives every request its own sum. -/
theorem replies_addSvc (requests : List (Numbers 128)) :
    replies addSvc 0 requests = requests.map Numbers.sum :=
  replies_eq_map (fun result argp => by rw [addSvc, argp.addTo_eq, zero_add]) 0 requests

section Arraysum

variable {requests : List (Numbers 100)}

theorem arraysumSvc_eq (result : BitVec 32) (argp : Numbers 100) :
    arraysumSvc result argp = result + argp.sum :=
  argp.addTo_eq result

/-- Each reply is the sum of all requests so far. -/
theorem replies_arraysumSvc (result : BitVec 32) (requests : List (Numbers 100)) :
    replies arraysumSvc result requests =
      ((requests.map Numbers.sum).scanl (· + ·) result).tail := by
  induction requests generalizing result with
  | nil => rfl
  | cons argp requests ih =>
      rw [replies, ih, List.map_cons, List.scanl_cons, List.tail_cons, arraysumSvc_eq]
      cases requests <;> simp [List.scanl_cons]

theorem replies_arraysumSvc_iff (result : BitVec 32) (requests : List (Numbers 100)) :
    replies arraysumSvc result requests = requests.map Numbers.sum ↔
      requests = [] ∨ result = 0 ∧ ∀ argp ∈ requests.dropLast, argp.sum = 0 := by
  induction requests generalizing result with
  | nil => simp [replies]
  | cons argp requests ih =>
      rw [replies, List.map_cons, List.cons.injEq, ih, arraysumSvc_eq]
      cases requests with
      | nil => simp
      | cons next requests =>
          simp only [List.dropLast_cons_cons, List.forall_mem_cons, reduceCtorEq, false_or,
            add_eq_right]
          constructor
          · rintro ⟨rfl, zero, later⟩
            exact ⟨rfl, by simpa using zero, later⟩
          · rintro ⟨rfl, zero, later⟩
            exact ⟨rfl, by simpa using zero, later⟩

end Arraysum

/-- Every reply is the sum that its request asks for exactly when no request but the last one has a
sum other than zero. -/
theorem replies_arraysumSvc_eq_sum_iff (requests : List (Numbers 100)) :
    replies arraysumSvc 0 requests = requests.map Numbers.sum ↔
      ∀ argp ∈ requests.dropLast, argp.sum = 0 := by
  rw [replies_arraysumSvc_iff]
  cases requests with
  | nil => simp
  | cons argp requests => simp

def one : Numbers 100 where
  size := 1
  nums := Vector.replicate 100 1#32
  size_le := by decide

theorem second_reply_adds : replies arraysumSvc 0 [one, one] ≠ [one, one].map Numbers.sum := by
  rw [ne_eq, replies_arraysumSvc_iff]
  decide

end NetLab.Rpc
