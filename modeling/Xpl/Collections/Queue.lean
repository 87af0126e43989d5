import Mathlib.Algebra.Group.Nat.Defs
import Xpl.Library.Store

/-! Doubly linked lists and the queues built on them.

Links live in a store; a loop that follows links is given more turns than there are
links. Lengths are unsigned integers of 32 bits, indices signed ones.
-/

set_option autoImplicit false

namespace Xpl.Collections
open Xpl.Library

structure Link (D : Type) where
  data : D
  next : Option Nat
  prev : Option Nat

abbrev Links (D : Type) := Store (Link D)

structure Queue where
  head : Option Nat
  tail : Option Nat
  length : Nat
  deriving DecidableEq, Repr

/-- `xuint_t` and `xint_t` values of a count. -/
def toUint (n : Nat) : Nat := n % 2 ^ 32
def toInt (n : Nat) : Int := (n : Int).bmod (2 ^ 32)

variable {D : Type}

section Lists

def setNext (s : Links D) (p : Nat) (next : Option Nat) : Option (Links D) :=
  s.modify p fun link => { link with next := next }

def setPrev (s : Links D) (p : Nat) (prev : Option Nat) : Option (Links D) :=
  s.modify p fun link => { link with prev := prev }

def setNextIf (s : Links D) (p next : Option Nat) : Option (Links D) :=
  s.modifyIf p fun link => { link with next := next }

def setPrevIf (s : Links D) (p prev : Option Nat) : Option (Links D) :=
  s.modifyIf p fun link => { link with prev := prev }

/-- A statement under a condition. -/
def onlyIf {α : Type} (condition : Bool) (state : α) (x : Option α) : Option α := if condition then x else some state

def turns (s : Links D) : Nat := s.next + 1

def xlistAlloc (s : Links D) (data : D) : Nat × Links D := s.alloc { data := data, next := none, prev := none }

def lastLoop (s : Links D) : Nat → Nat → Option Nat
  | 0, _ => none
  | fuel + 1, list => do
    match (← s.cell list).next with
    | none => some list
    | some next => lastLoop s fuel next

def xlistLast (s : Links D) (list : Option Nat) : Option (Option Nat) :=
  list.elim (some none) fun list => (lastLoop s (turns s) list).map some

/-- The head that the caller goes on with comes first. -/
def xlistAppend (s : Links D) (list : Option Nat) (data : D) : Option (Option Nat × Links D) :=
  let (newList, s) := xlistAlloc s data
  match list with
  | some list => do
    let last ← lastLoop s (turns s) list
    let s ← setNext s last (some newList)
    let s ← setPrev s newList (some last)
    some (some list, s)
  | none => some (some newList, s)

def xlistPrepend (s : Links D) (list : Option Nat) (data : D) : Option (Option Nat × Links D) :=
  let (newList, s) := xlistAlloc s data
  match list with
  | some list => do
    let s ← setNext s newList (some list)
    let first ← s.cell list
    let s ← setPrev s newList first.prev
    let s ← setNextIf s first.prev (some newList)
    let s ← setPrev s list (some newList)
    some (some newList, s)
  | none => some (some newList, s)

/-- The assignments that put `node` before `sibling`, and the head after them. -/
def linkBefore (s : Links D) (list sibling node : Nat) : Option (Option Nat × Links D) := do
  let next ← s.cell sibling
  let s ← setPrev s node next.prev
  let s ← setNext s node (some sibling)
  let s ← setPrev s sibling (some node)
  match next.prev with
  | some prev => do
    let s ← setNext s prev (some node)
    some (some list, s)
  | none => some (some node, s)

/-- The assignments that put `node` behind the last link. -/
def linkLast (s : Links D) (list node : Nat) : Option (Option Nat × Links D) := do
  let last ← lastLoop s (turns s) list
  let s ← setNext s last (some node)
  let s ← setPrev s node (some last)
  let s ← setNext s node none
  some (some list, s)

def xlistInsertBefore (s : Links D) (list sibling : Option Nat) (data : D) : Option (Option Nat × Links D) :=
  let (node, s) := xlistAlloc s data
  match list, sibling with
  | none, _ => some (some node, s)
  | some list, some sibling => linkBefore s list sibling node
  | some list, none => linkLast s list node

def xlistInsertBeforeLink (s : Links D) (list sibling : Option Nat) (link : Nat) : Option (Option Nat × Links D) := do
  let node ← s.cell link
  if node.prev.isSome || node.next.isSome then some (list, s)
  else
    match list, sibling with
    | none, none => some (some link, s)
    | none, some _ => some (none, s)
    | some list, some sibling => linkBefore s list sibling link
    | some list, none => linkLast s list link

/-- `link->prev->next = link->next`, unless that is not the link. -/
def skipForward (s : Links D) (link : Nat) (node : Link D) : Option (Links D) :=
  node.prev.elim (some s) fun prev => do
    let before ← s.cell prev
    if before.next = some link then setNext s prev node.next else some s

def skipBackward (s : Links D) (link : Nat) (node : Link D) : Option (Links D) :=
  node.next.elim (some s) fun next => do
    let after ← s.cell next
    if after.prev = some link then setPrev s next node.prev else some s

def xlistRemoveLink (s : Links D) (list : Option Nat) (link : Nat) : Option (Option Nat × Links D) := do
  let node ← s.cell link
  let s ← skipForward s link node
  let s ← skipBackward s link node
  let s ← setNext s link none
  let s ← setPrev s link none
  some (if list = some link then node.next else list, s)

def freeLoop (s : Links D) : Nat → Option Nat → Option (Links D)
  | 0, _ => none
  | _ + 1, none => some s
  | fuel + 1, some list => do
    let node ← s.cell list
    freeLoop (← s.free list) fuel node.next

def xlistFree (s : Links D) (list : Option Nat) : Option (Links D) := freeLoop s (turns s) list

def xlistReverse (s : Links D) : Nat → Option Nat → Option Nat → Option (Option Nat × Links D)
  | 0, _, _ => none
  | _ + 1, none, last => some (last, s)
  | fuel + 1, some list, _ => do
    let node ← s.cell list
    let s ← setNext s list node.prev
    let s ← setPrev s list node.next
    xlistReverse s fuel node.next (some list)

/-- The first link that `stop` accepts, and its index. -/
def findLoop (s : Links D) (stop : Nat → Link D → Bool) : Nat → Option Nat → Nat → Option (Option (Nat × Nat))
  | 0, _, _ => none
  | _ + 1, none, _ => some none
  | fuel + 1, some list, i => do
    let node ← s.cell list
    if stop list node then some (some (list, i)) else findLoop s stop fuel node.next (i + 1)

def xlistFind [DecidableEq D] (s : Links D) (list : Option Nat) (data : D) : Option (Option Nat) := do
  let found ← findLoop s (fun _ node => node.data = data) (turns s) list 0
  some (found.map Prod.fst)

def xlistPosition (s : Links D) (list : Option Nat) (link : Nat) : Option Int := do
  let found ← findLoop s (fun p _ => p = link) (turns s) list 0
  some (found.elim (-1) fun found => toInt found.2)

def xlistIndex [DecidableEq D] (s : Links D) (list : Option Nat) (data : D) : Option Int := do
  let found ← findLoop s (fun _ node => node.data = data) (turns s) list 0
  some (found.elim (-1) fun found => toInt found.2)

/-- `l->next = target`, where `l` is the local record at first. -/
def mergeNext (s : Links D) (head l target : Option Nat) : Option (Option Nat × Links D) :=
  match l with
  | none => some (target, s)
  | some l => (setNext s l target).map fun s => (head, s)

/-- `head` is the `next` field of the local record. -/
def xlistSortMerge (s : Links D) (compare : D → D → Int) :
    Nat → Option Nat → Option Nat → Option Nat → Option Nat → Option (Option Nat × Links D)
  | 0, _, _, _, _ => none
  | fuel + 1, some l1, some l2, head, l => do
    let first ← s.cell l1
    let second ← s.cell l2
    if compare first.data second.data ≤ 0 then do
      let (head, s) ← mergeNext s head l (some l1)
      let s ← setPrev s l1 l
      xlistSortMerge s compare fuel first.next (some l2) head (some l1)
    else do
      let (head, s) ← mergeNext s head l (some l2)
      let s ← setPrev s l2 l
      xlistSortMerge s compare fuel (some l1) second.next head (some l2)
  | _ + 1, l1, l2, head, l => do
    let (head, s) ← mergeNext s head l (l1.or l2)
    let last ← l
    let rest ← l1.or l2
    let s ← setPrev s rest (some last)
    some (head, s)

def splitLoop (s : Links D) : Nat → Nat → Nat → Option Nat
  | 0, _, _ => none
  | fuel + 1, l1, l2 => do
    match (← s.cell l2).next with
    | none => some l1
    | some l2 =>
      match (← s.cell l2).next with
      | none => some l1
      | some l2 => do
        let next ← (← s.cell l1).next
        splitLoop s fuel next l2

def xlistSortReal (s : Links D) (compare : D → D → Int) : Nat → Option Nat → Option (Option Nat × Links D)
  | 0, _ => none
  | _ + 1, none => some (none, s)
  | fuel + 1, some list => do
    match (← s.cell list).next with
    | none => some (some list, s)
    | some second => do
      let l1 ← splitLoop s (turns s) list second
      let middle ← s.cell l1
      let s ← setNext s l1 none
      let (left, s) ← xlistSortReal s compare fuel (some list)
      let (right, s) ← xlistSortReal s compare fuel middle.next
      xlistSortMerge s compare (turns s) left right none none

end Lists

section Queues

def gQueueNew : Queue := { head := none, tail := none, length := 0 }

def Queue.grow (queue : Queue) : Queue := { queue with length := toUint (queue.length + 1) }

def Queue.shrink (queue : Queue) : Queue := { queue with length := toUint (queue.length + (2 ^ 32 - 1)) }

def gQueueClear (s : Links D) (queue : Queue) : Option (Links D × Queue) := do
  let s ← xlistFree s queue.head
  some (s, gQueueNew)

def gQueueReverse (s : Links D) (queue : Queue) : Option (Links D × Queue) := do
  let (head, s) ← xlistReverse s (turns s) queue.head none
  some (s, { queue with tail := queue.head, head := head })

def gQueueSort (s : Links D) (queue : Queue) (compare : D → D → Int) : Option (Links D × Queue) := do
  let (head, s) ← xlistSortReal s compare (turns s) queue.head
  let tail ← xlistLast s head
  some (s, { queue with head := head, tail := tail })

def gQueuePushHead (s : Links D) (queue : Queue) (data : D) : Option (Links D × Queue) := do
  let (head, s) ← xlistPrepend s queue.head data
  some (s, { queue with head := head, tail := queue.tail.or head }.grow)

def gQueuePushTail (s : Links D) (queue : Queue) (data : D) : Option (Links D × Queue) := do
  let (tail, s) ← xlistAppend s queue.tail data
  let last ← s.deref tail
  if last.next.isSome then some (s, { queue with tail := last.next }.grow)
  else some (s, { queue with tail := tail, head := tail }.grow)

def gQueuePushHeadLink (s : Links D) (queue : Queue) (link : Nat) : Option (Links D × Queue) := do
  let node ← s.cell link
  if node.prev.isSome || node.next.isSome then some (s, queue)
  else do
    let s ← setNext s link queue.head
    let s ← setPrevIf s queue.head (some link)
    some (s, { queue with head := some link, tail := if queue.head.isSome then queue.tail else some link }.grow)

def gQueuePushTailLink (s : Links D) (queue : Queue) (link : Nat) : Option (Links D × Queue) := do
  let node ← s.cell link
  if node.prev.isSome || node.next.isSome then some (s, queue)
  else do
    let s ← setPrev s link queue.tail
    let s ← setNextIf s queue.tail (some link)
    some (s, { queue with tail := some link, head := if queue.tail.isSome then queue.head else some link }.grow)

/-- `count` steps along one field. -/
def follow (s : Links D) (field : Link D → Option Nat) : Nat → Option Nat → Option (Option Nat)
  | 0, link => some link
  | count + 1, link => do
    let node ← s.deref link
    follow s field count (field node)

def gQueuePeekNthLink (s : Links D) (queue : Queue) (n : Nat) : Option (Option Nat) :=
  if queue.length ≤ n then some none
  else if queue.length / 2 < n then follow s Link.prev (queue.length - n - 1) queue.tail
  else follow s Link.next n queue.head

def gQueueInsertBefore (s : Links D) (queue : Queue) (sibling : Option Nat) (data : D) : Option (Links D × Queue) :=
  match sibling with
  | none => gQueuePushTail s queue data
  | some sibling => do
    let (head, s) ← xlistInsertBefore s queue.head (some sibling) data
    some (s, { queue with head := head }.grow)

def gQueueInsertBeforeLink (s : Links D) (queue : Queue) (sibling : Option Nat) (link : Nat) :
    Option (Links D × Queue) := do
  let node ← s.cell link
  if node.prev.isSome || node.next.isSome then some (s, queue)
  else
    match sibling with
    | none => gQueuePushTailLink s queue link
    | some sibling => do
      let (head, s) ← xlistInsertBeforeLink s queue.head (some sibling) link
      some (s, { queue with head := head }.grow)

def gQueueInsertAfter (s : Links D) (queue : Queue) (sibling : Option Nat) (data : D) : Option (Links D × Queue) :=
  match sibling with
  | none => gQueuePushHead s queue data
  | some sibling => do
    let node ← s.cell sibling
    gQueueInsertBefore s queue node.next data

def gQueueInsertAfterLink (s : Links D) (queue : Queue) (sibling : Option Nat) (link : Nat) :
    Option (Links D × Queue) := do
  let node ← s.cell link
  if node.prev.isSome || node.next.isSome then some (s, queue)
  else
    match sibling with
    | none => gQueuePushHeadLink s queue link
    | some sibling => do
      let before ← s.cell sibling
      gQueueInsertBeforeLink s queue before.next link

def gQueuePushNth (s : Links D) (queue : Queue) (data : D) (n : Int) : Option (Links D × Queue) :=
  if n < 0 ∨ queue.length ≤ n.toNat then gQueuePushTail s queue data
  else do
    let sibling ← gQueuePeekNthLink s queue n.toNat
    gQueueInsertBefore s queue sibling data

/-- The four assignments that put `link` between its neighbours. -/
def linkBetween (s : Links D) (prev : Option Nat) (next link : Nat) : Option (Links D) := do
  let s ← setNextIf s prev (some link)
  let s ← setPrev s next (some link)
  let s ← setNext s link (some next)
  setPrev s link prev

def gQueuePushNthLink (s : Links D) (queue : Queue) (n : Int) (link : Nat) : Option (Links D × Queue) :=
  if n < 0 ∨ queue.length ≤ n.toNat then gQueuePushTailLink s queue link
  else do
    let found ← gQueuePeekNthLink s queue n.toNat
    let next ← found
    let node ← s.cell next
    let s ← linkBetween s node.prev next link
    let first ← s.deref queue.head
    let last ← s.deref queue.tail
    if last.next.isSome then none
    else some (s, { queue with head := first.prev.or queue.head }.grow)

def gQueueInsertSorted (s : Links D) (queue : Queue) (data : D) (func : D → D → Int) : Option (Links D × Queue) := do
  let found ← findLoop s (fun _ node => ¬func node.data data < 0) (turns s) queue.head 0
  gQueueInsertBefore s queue (found.map Prod.fst) data

def gQueuePopHead (s : Links D) (queue : Queue) : Option (Option D × Links D × Queue) :=
  match queue.head with
  | none => some (none, s, queue)
  | some node => do
    let link ← s.cell node
    let s ← setPrevIf s link.next none
    let s ← s.free node
    some (some link.data, s, { queue with head := link.next, tail := if link.next.isSome then queue.tail else none }.shrink)

def gQueuePopHeadLink (s : Links D) (queue : Queue) : Option (Option Nat × Links D × Queue) :=
  match queue.head with
  | none => some (none, s, queue)
  | some node => do
    let link ← s.cell node
    let s ← setPrevIf s link.next none
    let s ← onlyIf link.next.isSome s (setNext s node none)
    some (some node, s, { queue with head := link.next, tail := if link.next.isSome then queue.tail else none }.shrink)

def gQueuePopTail (s : Links D) (queue : Queue) : Option (Option D × Links D × Queue) :=
  match queue.tail with
  | none => some (none, s, queue)
  | some node => do
    let link ← s.cell node
    let s ← setNextIf s link.prev none
    let s ← s.free node
    some (some link.data, s, { queue with tail := link.prev, head := if link.prev.isSome then queue.head else none }.shrink)

def gQueuePopTailLink (s : Links D) (queue : Queue) : Option (Option Nat × Links D × Queue) :=
  match queue.tail with
  | none => some (none, s, queue)
  | some node => do
    let link ← s.cell node
    let s ← setNextIf s link.prev none
    let s ← onlyIf link.prev.isSome s (setPrev s node none)
    some (some node, s, { queue with tail := link.prev, head := if link.prev.isSome then queue.head else none }.shrink)

def gQueueUnlink (s : Links D) (queue : Queue) (link : Nat) : Option (Links D × Queue) := do
  let node ← s.cell link
  let (head, unlinked) ← xlistRemoveLink s queue.head link
  some (unlinked, { queue with head := head, tail := if queue.tail = some link then node.prev else queue.tail }.shrink)

def gQueueDeleteLink (s : Links D) (queue : Queue) (link : Nat) : Option (Links D × Queue) := do
  let (s, queue) ← gQueueUnlink s queue link
  let s ← xlistFree s (some link)
  some (s, queue)

def gQueuePopNth (s : Links D) (queue : Queue) (n : Nat) : Option (Option D × Links D × Queue) :=
  if queue.length ≤ n then some (none, s, queue)
  else do
    let found ← gQueuePeekNthLink s queue n
    let nth ← found
    let node ← s.cell nth
    let (s, queue) ← gQueueDeleteLink s queue nth
    some (some node.data, s, queue)

def gQueuePopNthLink (s : Links D) (queue : Queue) (n : Nat) : Option (Option Nat × Links D × Queue) :=
  if queue.length ≤ n then some (none, s, queue)
  else do
    let found ← gQueuePeekNthLink s queue n
    let link ← found
    let (s, queue) ← gQueueUnlink s queue link
    some (some link, s, queue)

/-- The data behind a link, `NULL` where there is none. -/
def linkData (s : Links D) (link : Option Nat) : Option (Option D) :=
  link.elim (some none) fun link => (s.cell link).map fun node => some node.data

def gQueuePeekHead (s : Links D) (queue : Queue) : Option (Option D) := linkData s queue.head

def gQueuePeekTail (s : Links D) (queue : Queue) : Option (Option D) := linkData s queue.tail

def gQueuePeekNth (s : Links D) (queue : Queue) (n : Nat) : Option (Option D) := do
  let link ← gQueuePeekNthLink s queue n
  linkData s link

def gQueueRemove [DecidableEq D] (s : Links D) (queue : Queue) (data : D) : Option (Bool × Links D × Queue) := do
  match ← xlistFind s queue.head data with
  | none => some (false, s, queue)
  | some link => do
    let (s, queue) ← gQueueDeleteLink s queue link
    some (true, s, queue)

def removeAllLoop [DecidableEq D] (data : D) : Nat → Links D → Queue → Option Nat → Option (Links D × Queue)
  | 0, _, _, _ => none
  | _ + 1, s, queue, none => some (s, queue)
  | fuel + 1, s, queue, some list => do
    let node ← s.cell list
    let (s, queue) ← onlyIf (node.data = data) (s, queue) (gQueueDeleteLink s queue list)
    removeAllLoop data fuel s queue node.next

def gQueueRemoveAll [DecidableEq D] (s : Links D) (queue : Queue) (data : D) : Option (Nat × Links D × Queue) := do
  let (s, left) ← removeAllLoop data (turns s) s queue queue.head
  some (toUint (queue.length + (2 ^ 32 - left.length)), s, left)

def copyLoop : Nat → Links D → Queue → Option Nat → Option (Links D × Queue)
  | 0, _, _, _ => none
  | _ + 1, s, result, none => some (s, result)
  | fuel + 1, s, result, some list => do
    let node ← s.cell list
    let (s, result) ← gQueuePushTail s result node.data
    let node ← s.cell list
    copyLoop fuel s result node.next

def gQueueCopy (s : Links D) (queue : Queue) : Option (Links D × Queue) := copyLoop (turns s) s gQueueNew queue.head

end Queues

end Xpl.Collections
