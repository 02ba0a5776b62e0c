import OwnOS.Halt

/-!
# The queue template (`KType.hpp`)

`Que<T,N>` keeps a doubly linked list between two sentinels inside a `Lessor` pool of `N + 2`
entries. `enque` links a new entry behind the sentinel `head`, `deque()` takes the one before the
sentinel `tail`, and `deque(a)` searches from `head` for an entry equal to `a`.

A pointer to an entry is its index in the pool, NULL is `none`. Equality of elements is `T`'s own
`operator==`, any function. The flag `sentinel` of an entry is never read.
-/

namespace OwnOS

namespace Que

/-- A pointer to an entry of the pool. -/
abbrev Ptr (N : Nat) := Fin (N + 2)

/-- Follow a pointer. -/
def follow {α : Type} : Option α → Res α
  | some x => .ok x
  | none => .error .fault

end Que

open Que

/-- `Que<T,N>` (`KType.hpp:112-190`), with its pool `entries`. -/
structure Que (T : Type) (N : Nat) where
  invalid : T
  head : Option (Ptr N)
  tail : Option (Ptr N)
  num : Nat
  next : Ptr N → Option (Ptr N)
  prev : Ptr N → Option (Ptr N)
  content : Ptr N → T
  isFree : Ptr N → Bool

namespace Que

variable {T : Type} {N : Nat}

/-- `Lessor::get` (`KType.hpp:92-100`): the first free entry. -/
def get (q : Que T N) : Que T N × Option (Ptr N) :=
  match (List.finRange (N + 2)).find? q.isFree with
  | some i => ({ q with isFree := Function.update q.isFree i false }, some i)
  | none => (q, none)

/-- `Lessor::free` (`KType.hpp:101-108`). -/
def free (q : Que T N) (a : Ptr N) : Que T N :=
  { q with isFree := Function.update q.isFree a true }

/-- `x->next = p`. -/
def setNext (q : Que T N) (x : Ptr N) (p : Option (Ptr N)) : Que T N :=
  { q with next := Function.update q.next x p }

/-- `x->prev = p`. -/
def setPrev (q : Que T N) (x : Ptr N) (p : Option (Ptr N)) : Que T N :=
  { q with prev := Function.update q.prev x p }

/-- `x->content = t`. -/
def setContent (q : Que T N) (x : Ptr N) (t : T) : Que T N :=
  { q with content := Function.update q.content x t }

/-- The constructor (`KType.hpp:135-145`). `Entry` clears `next`; `prev` and `content` are whatever
the memory held. -/
def init (invalid : T) (prev : Ptr N → Option (Ptr N)) (content : Ptr N → T) : Res (Que T N) := do
  let q : Que T N := ⟨invalid, none, none, 0, fun _ => none, prev, content, fun _ => true⟩
  let (q, head) := q.get
  let (q, tail) := q.get
  let q := { q with head := head, tail := tail }
  let h ← follow head
  let t ← follow tail
  let q := q.setNext h tail
  let q := q.setPrev t head
  let q := q.setNext t none
  let q := q.setPrev h none
  .ok { q with num := 0 }

/-- `enque` (`KType.hpp:146-159`). -/
def enque (q : Que T N) (t : T) : Res (Que T N) :=
  if q.num > N then .ok q
  else do
    let head ← follow q.head
    let nHead := q.next head
    let (q, aent) := q.get
    let a ← follow aent
    let q := q.setContent a t
    let q := q.setNext a nHead
    let q := q.setPrev a q.head
    let q := q.setNext head aent
    let n ← follow nHead
    let q := q.setPrev n aent
    .ok { q with num := q.num + 1 }

/-- `deque()` (`KType.hpp:160-172`). -/
def deque (q : Que T N) : Res (T × Que T N) :=
  if q.num = 0 then .ok (q.invalid, q)
  else do
    let tail ← follow q.tail
    let pTail ← follow (q.prev tail)
    let ppTail := q.prev pTail
    let ret := q.content pTail
    let pp ← follow ppTail
    let q := q.setNext pp q.tail
    let q := q.setPrev tail ppTail
    let q := q.free pTail
    .ok (ret, { q with num := q.num - 1 })

/-- The part of `deque(a)` that takes the entry `curr` out (`KType.hpp:177-184`). -/
def take (q : Que T N) (curr : Ptr N) : Res (T × Que T N) := do
  let pCurr := q.prev curr
  let nCurr := q.next curr
  let ret := q.content curr
  let p ← follow pCurr
  let q := q.setNext p nCurr
  let n ← follow nCurr
  let q := q.setPrev n pCurr
  let q := q.free curr
  .ok (ret, { q with num := q.num - 1 })

/-- The loop of `deque(a)` (`KType.hpp:175-187`), with the rounds that are left. -/
def dequeOfLoop (eq : T → T → Bool) (q : Que T N) (a : T) : Nat → Option (Ptr N) → Res (T × Que T N)
  | 0, _ => .ok (q.invalid, q)
  | n + 1, curr => do
    let c ← follow curr
    if eq (q.content c) a then q.take c
    else dequeOfLoop eq q a n (q.next c)

/-- `deque(a)` (`KType.hpp:173-189`). -/
def dequeOf (eq : T → T → Bool) (q : Que T N) (a : T) : Res (T × Que T N) := do
  let head ← follow q.head
  dequeOfLoop eq q a q.num (q.next head)

/-! ## Sequences of calls -/

/-- A call. -/
inductive Op (T : Type) where
  | enque (t : T)
  | deque
  | dequeOf (a : T)
  deriving DecidableEq

/-- One call, with what it returns. -/
def step (eq : T → T → Bool) (q : Que T N) : Op T → Res (Option T × Que T N)
  | .enque t => do
    let q ← q.enque t
    .ok (none, q)
  | .deque => do
    let (x, q) ← q.deque
    .ok (some x, q)
  | .dequeOf a => do
    let (x, q) ← q.dequeOf eq a
    .ok (some x, q)

/-- A sequence of calls, with what they return. -/
def run (eq : T → T → Bool) (q : Que T N) : List (Op T) → Res (List (Option T) × Que T N)
  | [] => .ok ([], q)
  | o :: os => do
    let (r, q) ← q.step eq o
    let (rs, q) ← q.run eq os
    .ok (r :: rs, q)

end Que

end OwnOS
